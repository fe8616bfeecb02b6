import ScriptBundle.Proofs.FileTree.Standing

/-! One name for one place. The path of a place that was found has nothing in it that a walk would
leave out or follow elsewhere; the walk along it comes back to the place, so two paths that were
found for one place are spelt alike. -/
namespace ScriptBundle

section

variable {α : Type} {separator a : α} {l m : List (List α)}

theorem joinPieces_mono (h : m <+: l) : joinPieces separator m <+: joinPieces separator l := by
  obtain ⟨more, rfl⟩ := h
  induction m with
  | nil => exact List.nil_prefix
  | cons piece m ih =>
    cases m with
    | nil => cases more with
      | nil => exact List.prefix_rfl
      | cons next more => exact List.prefix_append _ _
    | cons next m =>
      exact (List.prefix_append_right_inj piece).mpr (List.cons_prefix_cons.mpr ⟨rfl, ih⟩)

theorem mem_or_of_mem_joinPieces (h : a ∈ joinPieces separator l) :
    a = separator ∨ ∃ piece ∈ l, a ∈ piece := by
  induction l with
  | nil => simp [joinPieces] at h
  | cons piece l ih =>
    cases l with
    | nil => exact Or.inr ⟨piece, by simp, h⟩
    | cons next l =>
      rcases List.mem_append.mp h with h | h
      · exact Or.inr ⟨piece, by simp, h⟩
      · rcases List.mem_cons.mp h with h | h
        · exact Or.inl h
        · rcases ih h with h | ⟨p, hp, ha⟩
          · exact Or.inl h
          · exact Or.inr ⟨p, List.mem_cons_of_mem _ hp, ha⟩

theorem mem_joinPieces {piece : List α} (hpiece : piece ∈ l) (ha : a ∈ piece) :
    a ∈ joinPieces separator l := by
  induction l with
  | nil => simp at hpiece
  | cons first l ih =>
    cases l with
    | nil => exact List.mem_singleton.mp hpiece ▸ ha
    | cons next l =>
      rcases List.mem_cons.mp hpiece with rfl | hpiece
      · exact List.mem_append_left _ ha
      · exact List.mem_append_right _ (List.mem_cons_of_mem _ (ih hpiece))

end

/-- An absolute path without `.`, `..` and separators that could be left out. -/
structure Path.Straight (p : Path) : Prop where
  isAbsolute : p.isAbsolute = true
  not_here : Name.here ∉ pieces Name.slash p.bytes
  not_up : Name.up ∉ pieces Name.slash p.bytes
  not_repeated : ¬ [Name.slash, Name.slash] <:+: p.bytes
  not_trailing : p.bytes.getLast? = some Name.slash → p.bytes = [Name.slash]

namespace Location

variable {l m : Location} {before after : List UInt8}

theorem pieces_path (hl : l ≠ []) (h : ∀ name ∈ l, name.Proper) :
    pieces Name.slash l.path.bytes = [] :: l := by
  show pieces Name.slash (Name.slash :: joinPieces Name.slash l) = _
  rw [pieces, if_pos rfl, pieces_joinPieces hl fun name hname => (h name hname).whole]

theorem not_mem_pieces_after (hl : l ≠ []) (h : ∀ name ∈ l, name.Proper)
    (hbytes : l.path.bytes = before ++ Name.slash :: after) : [] ∉ pieces Name.slash after := by
  intro hmem
  have hpieces := pieces_path hl h
  obtain ⟨first, more, hbefore⟩ := List.exists_cons_of_ne_nil (pieces_ne_nil Name.slash before)
  rw [hbytes, pieces_append_separator, hbefore, List.cons_append] at hpieces
  have hidle := (h [] ((List.cons.inj hpieces).2 ▸ List.mem_append_right _ hmem)).moves
  simp [Name.isIdle] at hidle

theorem straight_path (h : ∀ name ∈ l, name.Proper) : l.path.Straight := by
  by_cases hl : l = []
  · subst hl
    exact ⟨rfl, by decide, by decide, by decide, fun _ => rfl⟩
  have hpieces := pieces_path hl h
  refine ⟨l.isAbsolute_path, fun hmem => ?_, fun hmem => ?_, ?_, fun hlast => ?_⟩
  · rw [hpieces] at hmem
    have hmoves := (h _ ((List.mem_cons.mp hmem).resolve_left (by decide))).moves
    simp [Name.isIdle] at hmoves
  · rw [hpieces] at hmem
    exact (h _ ((List.mem_cons.mp hmem).resolve_left (by decide))).down rfl
  · rintro ⟨before, after, hbytes⟩
    have hcut : l.path.bytes = before ++ Name.slash :: Name.slash :: after := by simp [← hbytes]
    exact not_mem_pieces_after hl h hcut (by simp [pieces])
  · obtain ⟨before, hbytes⟩ := List.getLast?_eq_some_iff.mp hlast
    exact absurd (by simp [pieces]) (not_mem_pieces_after hl h hbytes)

/-- The location's path keeps the limits, and has no zero byte. -/
structure Fits (l : Location) : Prop where
  width : l.width < FileTree.pathLimit
  short : ∀ name ∈ l, name.length ≤ FileTree.nameLimit
  nonzero : ∀ name ∈ l, 0 ∉ name

theorem width_le (h : m <+: l) : m.width ≤ l.width :=
  Nat.succ_le_succ (joinPieces_mono h).length_le

theorem Fits.of_prefix (h : l.Fits) (hm : m <+: l) : m.Fits where
  width := Nat.lt_of_le_of_lt (width_le hm) h.width
  short name hname := h.short name (hm.subset hname)
  nonzero name hname := h.nonzero name (hm.subset hname)

end Location

namespace FileTree

variable {tree : FileTree} {here l m : Location} {names : List Name} {p : Path}

/-- What a walk through a tree relies on: its working directory can be walked to, and no link's
target has a zero byte. -/
structure Sound (tree : FileTree) : Prop where
  standing : tree.Standing tree.workingDirectory
  fits : tree.workingDirectory.Fits
  nonzero : ∀ l target, (l, Node.link target) ∈ tree.entries → 0 ∉ target.bytes

theorem Sound.not_mem_target {target : Path} (h : tree.Sound)
    (hl : tree.node? l = some (.link target)) : 0 ∉ target.bytes := by
  by_cases hne : l = []
  · simp [node?, hne] at hl
  · rw [node?, if_neg hne] at hl
    obtain ⟨before, after, hentries, -⟩ := List.lookup_eq_some_iff.mp hl
    exact h.nonzero l target (by simp [hentries])

theorem not_mem_of_mem_steps (h : 0 ∉ p.bytes) : ∀ name ∈ steps p, 0 ∉ name := by
  intro name hname hzero
  have hmem : 0 ∈ joinPieces Name.slash (steps p) := mem_joinPieces hname hzero
  rw [steps, joinPieces_pieces] at hmem
  exact h hmem

theorem fits_kept (htree : tree.Sound) : tree.Kept Location.Fits (0 ∉ ·) where
  root := ⟨by decide, by simp, by simp⟩
  up h := h.of_prefix (List.dropLast_prefix _)
  down hhere hname _ _ hstep := by
    obtain ⟨rfl, hwidth, -, hshort, -⟩ := step_eq_place_iff.mp hstep
    refine ⟨by omega, fun n hn => ?_, fun n hn => ?_⟩
    · rcases List.mem_append.mp hn with hn | hn
      · exact hhere.short n hn
      · rwa [List.mem_singleton.mp hn]
    · rcases List.mem_append.mp hn with hn | hn
      · exact hhere.nonzero n hn
      · rwa [List.mem_singleton.mp hn]
  link hlink := not_mem_of_mem_steps (htree.not_mem_target hlink)

theorem fits_of_locate (htree : tree.Sound) (hl : tree.locate p = .ok l) : l.Fits :=
  (fits_kept htree).locate (Or.inr htree.fits) not_mem_of_mem_steps hl

theorem wantsDirectory_of_proper (h : ∀ name ∈ names, name.Proper) :
    wantsDirectory names = false := by
  cases names with
  | nil => rfl
  | cons name rest =>
    have hname := h name (by simp)
    simp [wantsDirectory, hname.down, hname.moves]

theorem walkWith_names {jump : Location → List Name → Except Fault Location}
    (hl : tree.Standing (here ++ names)) (hfits : Location.Fits (here ++ names)) :
    tree.walkWith jump here names = .ok (here ++ names) := by
  induction names generalizing here with
  | nil => simp [walkWith]
  | cons name rest ih =>
    have happend : here ++ name :: rest = here ++ [name] ++ rest := by simp
    rw [happend] at hl hfits ⊢
    have hnext : here ++ [name] <+: here ++ [name] ++ rest := List.prefix_append _ _
    have hname := hl.proper name (by simp)
    have hrest : wantsDirectory rest = false :=
      wantsDirectory_of_proper fun n hn => hl.proper n (by simp [hn])
    have hplace := hl.of_prefix hnext
    have hstep : tree.step here name rest = .ok (.place (here ++ [name])) := by
      refine step_eq_place_iff.mpr ⟨rfl, ?_, ?_, hfits.short name (by simp), hplace.isSome_node,
        hplace.not_isLink⟩
      · simpa [hrest] using (hfits.of_prefix hnext).width
      · exact hplace.above here (List.prefix_append _ _) (by simp)
    rw [walkWith, if_neg hname.down, hname.moves, if_neg Bool.false_ne_true, hstep]
    exact ih hl hfits

theorem locate_path (hl : tree.Standing l) (hfits : l.Fits) : tree.locate l.path = .ok l := by
  have hzero : l.path.bytes.contains 0 = false := by
    refine Bool.eq_false_iff.mpr fun hmem => ?_
    rcases List.mem_cons.mp (List.contains_iff_mem.mp hmem) with h | h
    · exact absurd h (by decide)
    · rcases mem_or_of_mem_joinPieces h with h | ⟨name, hname, h⟩
      · exact absurd h (by decide)
      · exact hfits.nonzero name hname h
  have hwalk : ∀ jump, tree.walkWith jump [] (steps l.path) = .ok l := by
    intro jump
    by_cases hne : l = []
    · subst hne
      rfl
    · have hdown : tree.walkWith jump [] ([] ++ l) = .ok ([] ++ l) := walkWith_names hl hfits
      rw [steps, Location.pieces_path hne hl.proper]
      simpa [walkWith, Name.isIdle, Name.up, hne] using hdown
  rw [locate, hzero, l.isAbsolute_path]
  exact hwalk _

end FileTree
end ScriptBundle
