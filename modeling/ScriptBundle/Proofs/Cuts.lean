import ScriptBundle.Proofs.Require.CallScan
import ScriptBundle.Proofs.Script.BlockEnds
import ScriptBundle.Proofs.Script.BlockScan

/-! Where the scans of a script cut it. All of them move by byte offsets, and none of them slices
the text within a character or behind its end: what is refused there never is asked for, whatever
characters the text has. So each scan gives a result, and the offsets it gives are cuts again. -/
namespace ScriptBundle

/-- The offsets that an event tells. That of a declaration is where its binding comes into
effect. -/
def Event.offsets : Event → List Nat
  | found _ start stop => [start, stop]
  | declared d _ => [d.offset]
  | strayBrace offset _ => [offset]
  | _ => []

/-- The offsets that come of a block that begins at the offset: where it ends, and those of what was
met in it. -/
structure Namespaced.AtCuts (code : Text) (start : Nat) (n : Namespaced) : Prop where
  consumed : code.IsCut (start + n.consumed)
  events : ∀ e ∈ n.events, ∀ offset ∈ e.offsets, code.IsCut offset

variable {code : Text} {l r : List Spot}

theorem isCut_offset {s : Spot} (h : s ∈ spots code) : code.IsCut s.offset := by
  obtain ⟨l, r, hsplit⟩ := List.append_of_mem h
  rw [spots_offset_eq hsplit]
  exact isCut_spots hsplit

theorem offset_of_event? {id : ModuleId} {depth : Nat} {s : Spot} {e : Event}
    (h : Block.event? id depth s = some e) : ∀ offset ∈ e.offsets, offset = s.offset := by
  unfold Block.event? at h
  split at h
  · obtain rfl := Option.some.inj h
    simp [Event.offsets]
  · obtain ⟨d, hd, rfl⟩ := Option.map_eq_some_iff.mp h
    obtain ⟨-, hoffset⟩ := Spot.of_declaration? hd
    simp [Event.offsets, hoffset]

theorem namespaceBlock_atCuts (h : spots code = l ++ r) (id : ModuleId) (outer : List Binding)
    (depth : Nat) :
    (namespaceBlock id outer depth r).AtCuts code (Text.width (Spot.text l)) := by
  obtain ⟨rest, hrest⟩ := Block.exists_append_ofDepth depth r
  have hcode : spots code = l ++ (Block.ofDepth depth r).spots ++ rest := by
    rw [h, List.append_assoc, ← hrest]
  constructor
  · have hcut := isCut_spots hcode
    rwa [Spot.width_append] at hcut
  · intro e he offset ho
    obtain ⟨s, hs, depth', hevent⟩ := Block.exists_of_mem_events he
    have hmem : s ∈ spots code := by
      rw [hcode]
      exact List.mem_append_left _ (List.mem_append_right _ hs)
    rw [offset_of_event? hevent offset ho]
    exact isCut_offset hmem

theorem length_lt_of_spots_eq (h : spots code = l ++ r) : r.length < Text.width code + 1 := by
  have hlength := Text.length_le_width (Spot.text r)
  rw [Spot.text, List.length_map] at hlength
  rw [eq_text_append h, Text.width_append]
  exact Nat.lt_succ_of_le (hlength.trans (Nat.le_add_left _ _))

/-- **All scans keep to the places where a text can be cut.** For every text, a stretch of it, and
any bindings: the loop that fills in the marks goes from cut to cut and gives all bytes of a
character one mark; the scan of the block that begins with the stretch, at any depth, the scan of
all of the text, the replacement of names in the stretch, and the scan for calls are refused no
slice and give their results; and the offsets in these are cuts, those where bindings come into
effect among them. -/
theorem scans_keep_to_cuts (before range after : Text) (id : ModuleId) (bindings : List Binding)
    (depth : Nat) :
    let code := before ++ range ++ after
    let marks := byteMarks code
    let start := Text.width before
    let stop := Text.width (before ++ range)
    let block := namespaceBlock id bindings depth (Spot.range start (Text.width code) (spots code))
    (Round.run (Lexing.round code) (Text.width code + 1) (Lexing.start code) =
        some (.done marks) ∧
      (∀ n s, Round.run (Lexing.round code) n (Lexing.start code) = some (.next s) →
        code.IsCut s.cursor) ∧
      ∀ s ∈ spots code, ∀ i < s.char.utf8Size, marks[s.offset + i]? = some s.code) ∧
    ((BlockScan.begin start depth bindings).run? code marks id (Text.width code + 1) =
        some block ∧
      block.AtCuts code start) ∧
    ((BlockScan.begin 0 0 bindings).run? code marks id (Text.width code + 1) =
        some (namespaceModule code id bindings) ∧
      (namespaceModule code id bindings).AtCuts code 0) ∧
    (∀ s ∈ spots code, ∀ d ∈ s.declaration?, code.IsCut (d.binding id).since) ∧
    renameWithin? code marks bindings start stop =
      some (rename bindings (Spot.range start stop (spots code))) ∧
    Require.scan? code = some ((Require.scan code).calls, (Require.scan code).unbalanced) ∧
    (∀ call ∈ (Require.scan code).calls, code.IsCut call.start ∧ code.IsCut call.stop) ∧
    ∀ offset, (Require.scan code).unbalanced = some offset → code.IsCut offset := by
  intro code marks start stop block
  obtain ⟨l, m, r, h, hl, hm, -⟩ := exists_spots_eq before range after
  have hstop : stop = Text.width (Spot.text (l ++ m)) := by rw [Spot.text_append, hl, hm]
  have hstart : start = Text.width (Spot.text l) := by rw [hl]
  have hcut : spots code = l ++ (m ++ r) := by rw [h, List.append_assoc]
  have hblock : block = namespaceBlock id bindings depth (m ++ r) := by
    rw [← range_rest hcut, ← hstart]
  refine ⟨⟨?_, fun n s hrun => ?_, fun s hs i hi => ?_⟩, ⟨?_, ?_⟩, ⟨?_, ?_⟩, fun s hs d hd => ?_,
    ?_, Require.scan?_eq code, fun call hcall => ?_, fun offset hoffset => ?_⟩
  · exact Lexing.advances.done Lexing.reads_start (Nat.lt_succ_of_le (Nat.sub_le _ _))
  · exact (Lexing.advances.next Lexing.reads_start hrun).1.isCut
  · obtain ⟨l, r, hsplit⟩ := List.append_of_mem hs
    exact byteMarks_getElem? hsplit hi
  · rw [hblock, hstart]
    exact blockScan_run? hcut id bindings depth (length_lt_of_spots_eq hcut)
  · rw [hblock, hstart]
    exact namespaceBlock_atCuts hcut id bindings depth
  · exact blockScan_run? (l := []) rfl id bindings 0 (length_lt_of_spots_eq (l := []) rfl)
  · exact namespaceBlock_atCuts (l := []) rfl id bindings 0
  · obtain ⟨-, hoffset⟩ := Spot.of_declaration? hd
    rw [show (d.binding id).since = s.offset from hoffset]
    exact isCut_offset hs
  · rw [hstart, hstop, range_eq h]
    exact renameWithin?_spots h bindings
  · obtain ⟨-, -, inner, hcall, -⟩ := (Require.finds_scan code).found call hcall
    exact hcall.isCut
  · exact ((Require.finds_scan code).stuck offset hoffset).1.isCut

end ScriptBundle
