import ScriptBundle.Proofs.Script.BlockEnds
import ScriptBundle.Proofs.Script.ByteMarks
import ScriptBundle.Proofs.Script.Landmarks

/-! Replacing names in adjacent stretches. What is chosen at a place depends on the text around it
and not on where the stretch begins, so a stretch that is cut where no name lies has its names
replaced in both parts apart. Names without braces never lie across the cuts that the blocks of a
text make in it, and so the stretches of a block are replaced as they would be in all of it. -/
namespace ScriptBundle

/-- The name of the binding stands in the text across the offset. -/
def Binding.Straddles (code : Text) (b : Binding) (offset : Nat) : Prop :=
  ∃ before after, code = before ++ (b.name ++ after) ∧ b.Occurs before after ∧
    Text.width before < offset ∧ offset < Text.width (before ++ b.name)

/-- An opening brace that is code ends at the offset, or a closing one begins there. -/
def IsBraceCut (code : Text) (offset : Nat) : Prop :=
  ∃ s ∈ spots code, s.isCode '{' = true ∧ s.offset + 1 = offset ∨
    s.isCode '}' = true ∧ s.offset = offset

instance (code : Text) (offset : Nat) : Decidable (IsBraceCut code offset) :=
  inferInstanceAs (Decidable (∃ s ∈ spots code, _))

section

variable {code : Text} {bindings : List Binding} {b : Binding} {l m n r : List Spot}
  {s : Spot} {cut : Nat}

theorem Binding.straddles_of_standsAt {back more : List Spot}
    (hcode : spots code = l ++ ((s :: back ++ more) ++ r))
    (hopens : (s.code && isIdentifierChar s.char && Spot.opensAfter s.before) = true)
    (hsince : b.since ≤ s.offset) (hstands : standsAt b.name (s :: back ++ more) = true) :
    standsAt b.name (s :: back) = true ∨
      b.Straddles code (Text.width (Spot.text (l ++ s :: back))) := by
  obtain ⟨covered, rest, hsplit, hname, hall, hlast⟩ := standsAt_iff_exists.mp hstands
  rcases List.append_eq_append_iff.mp hsplit with ⟨beyond, hcovered, hmore⟩ | ⟨left, hback, -⟩
  · rcases beyond with _ | ⟨t, beyond⟩
    · left
      rw [List.append_nil] at hcovered
      rw [← hcovered]
      exact standsAt_iff_exists.mpr ⟨covered, [], by simp, hname, hall, hlast⟩
    · right
      subst hcovered
      have hspots : spots code = l ++ ((s :: (back ++ t :: beyond)) ++ (rest ++ r)) := by
        rw [hcode, hmore]
        simp
      have hoccurs := (occurs_iff hspots hname).mpr ⟨hopens, hsince, hall, hlast⟩
      have hs := s.char.utf8Size_pos
      have ht := t.char.utf8Size_pos
      refine ⟨Spot.text l, Spot.text (rest ++ r), ?_, hoccurs, ?_, ?_⟩
      · rw [eq_text_append hspots, Spot.text_append, ← hname]
        rfl
      · rw [Spot.width_append, Spot.width_cons]
        omega
      · rw [← hname, ← Spot.text_append, ← List.append_assoc, Spot.width_append _ (t :: beyond),
          Spot.width_cons t]
        omega
  · left
    rw [hback]
    exact standsAt_iff_exists.mpr ⟨covered, left, rfl, hname, hall, hlast⟩

theorem Binding.Straddles.lt_width (h : b.Straddles code cut) : cut < Text.width code := by
  obtain ⟨before, after, rfl, -, -, hstop⟩ := h
  rw [← List.append_assoc, Text.width_append _ after]
  omega

theorem bindingAt_append_of_not_straddles {back more : List Spot}
    (hcode : spots code = l ++ ((s :: back ++ more) ++ r))
    (h : ∀ b ∈ bindings, ¬ b.Straddles code (Text.width (Spot.text (l ++ s :: back)))) :
    bindingAt bindings (s :: back ++ more) = bindingAt bindings (s :: back) := by
  simp only [List.cons_append, bindingAt]
  split
  · next hopens =>
    refine congrArg longest (List.filter_congr fun b hb => ?_)
    by_cases hsince : b.since ≤ s.offset
    · have hiff : standsAt b.name (s :: back ++ more) = true ↔
          standsAt b.name (s :: back) = true :=
        ⟨fun hstands => (Binding.straddles_of_standsAt hcode hopens hsince hstands).resolve_right
          (h b hb), standsAt_append more⟩
      rw [← List.cons_append, Bool.eq_iff_iff.mpr hiff]
    · simp [hsince]
  · rfl

theorem rename_append_of_not_straddles (hcode : spots code = l ++ m ++ n ++ r)
    (h : ∀ b ∈ bindings, ¬ b.Straddles code (Text.width (Spot.text (l ++ m)))) :
    rename bindings (m ++ n) = rename bindings m ++ rename bindings n := by
  refine renameFrom_append_of_bindingAt (fun front s back hm => ?_) (Nat.zero_le _)
  have hspots : spots code = (l ++ front) ++ ((s :: back ++ n) ++ r) := by
    rw [hcode, hm]
    simp
  refine bindingAt_append_of_not_straddles hspots ?_
  rwa [List.append_assoc, ← hm]

theorem Text.mem_of_across {x y before word after : Text} {c : Char}
    (h : x ++ c :: y = before ++ (word ++ after)) (hstart : width before < cut)
    (hstop : cut < width (before ++ word)) (hx : width x ≤ cut) (hc : cut ≤ width (x ++ [c])) :
    c ∈ word := by
  have hfront : before ++ (word ++ after) = (x ++ [c]) ++ y := by simp [← h]
  have hback : x ++ c :: y = (before ++ word) ++ after := by simp [h]
  obtain ⟨u, hu, hbefore, -⟩ := exists_between hfront (by omega)
  obtain ⟨v, hv, hword, hcv⟩ := exists_between hback (by omega)
  -- The word begins before the character, or with it, and goes on at least to its end.
  obtain ⟨u, d, rfl⟩ := (List.eq_nil_or_concat' u).resolve_left hu
  obtain ⟨e, v, rfl⟩ := List.exists_cons_of_ne_nil hv
  obtain ⟨rfl, -⟩ : c = e ∧ y = v ++ after := List.cons.inj hcv
  obtain ⟨rfl, -⟩ : x = before ++ u ∧ c = d := by
    rw [← List.append_assoc] at hbefore
    simpa using List.append_inj' hbefore rfl
  rw [List.append_assoc] at hword
  rw [List.append_cancel_left hword]
  simp

theorem IsBraceCut.not_straddles (hcut : IsBraceCut code cut) (hb : b.Braceless) :
    ¬ b.Straddles code cut := by
  rintro ⟨before, after, hcode, -, hstart, hstop⟩
  obtain ⟨s, hs, hbrace⟩ := hcut
  obtain ⟨l, r, hsplit⟩ := List.append_of_mem hs
  have htext : Spot.text l ++ s.char :: Spot.text r = before ++ (b.name ++ after) :=
    (eq_text_append hsplit).symm.trans hcode
  have hoffset := spots_offset_eq hsplit
  have hwidth : Text.width (Spot.text l ++ [s.char]) = s.offset + s.char.utf8Size := by
    rw [Text.width_append, hoffset]
    rfl
  have hbounds : Text.width (Spot.text l) ≤ cut ∧ cut ≤ Text.width (Spot.text l ++ [s.char]) := by
    rcases hbrace with ⟨hopen, rfl⟩ | ⟨-, rfl⟩
    · have hone : s.char.utf8Size = 1 := by rw [(Spot.isCode_iff.mp hopen).2]; rfl
      omega
    · omega
  have hmem := Text.mem_of_across htext hstart hstop hbounds.1 hbounds.2
  rcases hbrace with ⟨hopen, -⟩ | ⟨hclose, -⟩
  · exact hb.1 ((Spot.isCode_iff.mp hopen).2 ▸ hmem)
  · exact hb.2 ((Spot.isCode_iff.mp hclose).2 ▸ hmem)

end

namespace Block

/-- The offsets at which a block and the blocks inside it are cut apart, when it begins at an
offset. -/
def cuts (start : Nat) : Block → List Nat
  | plain _ => []
  | nest own inner rest =>
    let opened := start + Text.width (Spot.text own)
    let closed := opened + Text.width (Spot.text inner.spots)
    opened :: inner.cuts opened ++ closed :: rest.cuts closed

/-- The text of a block, put together from what becomes of its own stretches and of the blocks
inside it; for each of these it is told what is bound before it. -/
def assemble (id : ModuleId) (own : List Spot → Text) (inside : List Binding → Block → Text) :
    List Binding → Block → Text
  | _, plain stretch => own stretch
  | current, nest stretch inner rest =>
    let reached := current ++ Spot.bindings id stretch
    own stretch ++ inside reached inner ++ assemble id own inside reached rest

def LedByCloser (b : Block) : Prop :=
  b.spots = [] ∨ ∃ brace more, b.spots = brace :: more ∧ brace.isCode '}' = true

/-- Before each block inside stands an opening brace, and behind it a closing one, unless nothing
follows. -/
inductive Braced : Block → Prop
  | plain (own : List Spot) : Braced (plain own)
  | nest {own : List Spot} {s : Spot} {inner rest : Block} (hopen : s.isCode '{' = true)
    (hinner : Braced inner) (hrest : Braced rest) (hclose : rest.LedByCloser) :
    Braced (nest (own ++ [s]) inner rest)

theorem ledByCloser_cons {s : Spot} (h : s.isCode '}' = true) (b : Block) :
    (cons s b).LedByCloser := Or.inr ⟨s, b.spots, spots_cons s b, h⟩

theorem LedByCloser.append {a b : Block} (ha : a.LedByCloser) (hb : b.LedByCloser) :
    (append a b).LedByCloser := by
  rcases ha with hnone | ⟨brace, more, hmore, hbrace⟩
  · rw [LedByCloser, spots_append, hnone]
    exact hb
  · exact Or.inr ⟨brace, more ++ b.spots, by simp [hmore], hbrace⟩

namespace Braced

variable {a b : Block}

theorem prepend (h : b.Braced) (own : List Spot) : (prepend own b).Braced := by
  cases h with
  | plain more => exact .plain _
  | @nest more s inner rest hopen hinner hrest hclose =>
    rw [prepend_nest, ← List.append_assoc]
    exact .nest hopen hinner hrest hclose

theorem append (ha : a.Braced) (hb : b.Braced) (hled : b.LedByCloser) : (append a b).Braced := by
  induction ha with
  | plain own => exact hb.prepend own
  | nest hopen hinner hrest hclose _ ih => exact .nest hopen hinner ih (hclose.append hled)

theorem foldl_append {more : List Block} (hb : b.Braced)
    (hmore : ∀ m ∈ more, m.Braced ∧ m.LedByCloser) : (more.foldl Block.append b).Braced := by
  induction more generalizing b with
  | nil => exact hb
  | cons next more ih =>
    obtain ⟨⟨hnext, hled⟩, hmore⟩ := List.forall_mem_cons.mp hmore
    exact ih (hb.append hnext hled) hmore

end Braced

theorem braced_levels (spots : List Spot) : (levels spots).1.Braced ∧
    ∀ b ∈ (levels spots).2, b.Braced ∧ b.LedByCloser := by
  induction spots with
  | nil => exact ⟨.plain [], by simp [levels]⟩
  | cons s spots ih =>
    obtain ⟨hinner, houter⟩ := ih
    rcases s.brace_cases with hopen | hclose | ⟨hopen, hclose⟩
    · rw [levels_open spots hopen]
      refine ⟨?_, fun b hb => houter b (List.mem_of_mem_tail hb)⟩
      have hrest : ((levels spots).2.headD empty).Braced ∧
          ((levels spots).2.headD empty).LedByCloser := by
        cases hlevels : (levels spots).2 with
        | nil => exact ⟨.plain [], Or.inl rfl⟩
        | cons next more => exact houter next (by simp [hlevels])
      exact @Braced.nest [] s _ _ hopen hinner hrest.1 hrest.2
    · rw [levels_close spots hclose]
      refine ⟨.plain [], List.forall_mem_cons.mpr ⟨⟨?_, ledByCloser_cons hclose _⟩, houter⟩⟩
      rw [cons_eq_prepend]
      exact hinner.prepend [s]
    · rw [levels_plain spots hopen hclose]
      refine ⟨?_, houter⟩
      rw [cons_eq_prepend]
      exact hinner.prepend [s]

theorem braced_ofDepth (depth : Nat) (spots : List Spot) : (ofDepth depth spots).Braced := by
  obtain ⟨hinner, houter⟩ := braced_levels spots
  unfold ofDepth
  split
  · exact hinner.foldl_append houter
  · exact hinner

end Block

theorem isBraceCut_of_mem_cuts {code : Text} {b : Block} (h : b.Braced) {l r : List Spot}
    (hcode : spots code = l ++ (b.spots ++ r)) {cut : Nat}
    (hcut : cut ∈ b.cuts (Text.width (Spot.text l))) :
    IsBraceCut code cut ∨ cut = Text.width (Spot.text (l ++ b.spots)) := by
  induction h generalizing l r with
  | plain own => simp [Block.cuts] at hcut
  | @nest own s inner rest hopen _ _ hclose ihinner ihrest =>
    have hopened : spots code = (l ++ own) ++ s :: (inner.spots ++ (rest.spots ++ r)) := by
      rw [hcode]
      simp [Block.spots]
    have hclosed : spots code = (l ++ (own ++ [s]) ++ inner.spots) ++ (rest.spots ++ r) := by
      rw [hopened]
      simp
    have hall : l ++ (Block.nest (own ++ [s]) inner rest).spots =
        l ++ (own ++ [s]) ++ inner.spots ++ rest.spots := by
      simp [Block.spots]
    -- Where the inner block ends, a brace closes it or the outer one ends too.
    have hend : IsBraceCut code (Text.width (Spot.text (l ++ (own ++ [s]) ++ inner.spots))) ∨
        Text.width (Spot.text (l ++ (own ++ [s]) ++ inner.spots)) =
          Text.width (Spot.text (l ++ (Block.nest (own ++ [s]) inner rest).spots)) := by
      rw [hall]
      rcases hclose with hnone | ⟨brace, more, hmore, hbrace⟩
      · exact Or.inr (by rw [hnone, List.append_nil])
      · rw [hmore] at hclosed
        exact Or.inl ⟨brace, by simp [hclosed], Or.inr ⟨hbrace, spots_offset_eq hclosed⟩⟩
    simp only [Block.cuts, ← Spot.width_append, List.cons_append, List.mem_cons,
      List.mem_append] at hcut
    rcases hcut with rfl | hcut | rfl | hcut
    · have hone : s.char.utf8Size = 1 := Spot.utf8Size_of_isCode hopen
      refine Or.inl ⟨s, by simp [hopened], Or.inl ⟨hopen, ?_⟩⟩
      rw [spots_offset_eq hopened, ← List.append_assoc, Spot.width_append (l ++ own),
        Spot.width_cons, hone]
      rfl
    · rcases ihinner (r := rest.spots ++ r) (by rw [hclosed]; simp) hcut with hbrace | rfl
      · exact Or.inl hbrace
      · exact hend
    · exact hend
    · rw [hall]
      exact ihrest hclosed hcut

section

variable {code : Text} {l r : List Spot} (h : spots code = l ++ r) (depth : Nat)

include h

/-- What is scanned as one block is cut at braces, or where the text ends. -/
theorem isBraceCut_or_eq_width {cut : Nat}
    (hcut : cut ∈ (Block.ofDepth depth r).cuts (Text.width (Spot.text l))) :
    IsBraceCut code cut ∨ cut = Text.width code := by
  have hbraced := Block.braced_ofDepth depth r
  rcases Block.ofDepth_cases depth r with hall | ⟨brace, rest, hbrace, hr⟩
  · have hcode : spots code = l ++ ((Block.ofDepth depth r).spots ++ []) := by
      rw [hall, List.append_nil, h]
    have hcuts := isBraceCut_of_mem_cuts hbraced hcode hcut
    rwa [hall, ← text_eq_append h] at hcuts
  · have hcode : spots code = l ++ ((Block.ofDepth depth r).spots ++ brace :: rest) := by
      rw [← hr, h]
    rcases isBraceCut_of_mem_cuts hbraced hcode hcut with hcuts | rfl
    · exact Or.inl hcuts
    · rw [← List.append_assoc] at hcode
      exact Or.inl ⟨brace, by simp [hcode], Or.inr ⟨hbrace, spots_offset_eq hcode⟩⟩

theorem range_blockEnd (id : ModuleId) (outer : List Binding) :
    Spot.range (Text.width (Spot.text l))
      (blockEnd code id outer depth (Text.width (Spot.text l))) (spots code) =
        (Block.ofDepth depth r).spots := by
  obtain ⟨rest, hr⟩ := Block.exists_append_ofDepth depth r
  have hend : blockEnd code id outer depth (Text.width (Spot.text l)) =
      Text.width (Spot.text (l ++ (Block.ofDepth depth r).spots)) := by
    rw [blockEnd, range_rest h, Spot.width_append]
    rfl
  rw [hend]
  exact range_eq (r := rest) (by rw [h, List.append_assoc, ← hr])

end

namespace Block

variable (id : ModuleId) (all current : List Binding)

theorem renamed_eq_assemble (b : Block) : b.renamed id all current =
    b.assemble id (rename all) (fun reached inner => inner.namespaced id reached) current := by
  induction b generalizing current with
  | plain own => rfl
  | nest own inner rest _ ih => simp only [renamed, assemble, ih, namespaced]

theorem Braced.rename_eq_assemble {b : Block} (h : b.Braced) (hall : ∀ x ∈ all, x.Braceless) :
    rename all b.spots =
      b.assemble id (rename all) (fun _ inner => rename all inner.spots) current := by
  induction h generalizing current with
  | plain own => rfl
  | @nest own s inner rest hopen _ _ hclose _ ihrest =>
    have hfront : BraceCut (own ++ [s]) (inner.spots ++ rest.spots) :=
      Or.inr (Or.inl ⟨s, by simp, Spot.isBrace_of_isCode hopen rfl⟩)
    have hback : BraceCut inner.spots rest.spots := by
      rcases hclose with hnone | ⟨brace, more, hmore, hbrace⟩
      · exact Or.inl hnone
      · exact Or.inr (Or.inr ⟨brace, more, hmore, Spot.isBrace_of_isCode hbrace rfl⟩)
    rw [Block.spots, List.append_assoc, rename,
      renameFrom_append (Seam.of_braceCut hfront hall) (Nat.zero_le _),
      renameFrom_append (Seam.of_braceCut hback hall) (Nat.zero_le _), assemble,
      ← ihrest, List.append_assoc]
    rfl

end Block

/-- **Adjacent stretches have their names replaced apart.** Of a text, two adjacent stretches and
any bindings: where no bound name stands across the point between them, what is put out for both
together is what is put out for the one and then for the other. Just behind an opening brace and
just before a closing one no name without braces stands across. These are the places where a block
and those inside it are cut apart, unless the text ends there; so with names without braces the
stretches of a block become what they become when all of the block has its names replaced at once,
whatever becomes of the blocks inside. -/
theorem rename_range_append (before first second after : Text) (id : ModuleId) (depth : Nat)
    (bindings : List Binding) :
    let code := before ++ first ++ second ++ after
    let start := Text.width before
    let middle := Text.width (before ++ first)
    let stop := Text.width (before ++ first ++ second)
    let renamed := fun (names : List Binding) (start stop : Nat) =>
      rename names (Spot.range start stop (spots code))
    let rest := Spot.range start (Text.width code) (spots code)
    let block := Block.ofDepth depth rest
    let all := bindings ++ block.bindings id
    ((∀ b ∈ bindings, ¬ b.Straddles code middle) →
      renamed bindings start stop =
        renamed bindings start middle ++ renamed bindings middle stop) ∧
    (∀ b : Binding, b.Braceless → ∀ cut, IsBraceCut code cut → ¬ b.Straddles code cut) ∧
    (∀ cut ∈ block.cuts start, (IsBraceCut code cut ∨ cut = Text.width code) ∧
      ∀ b : Binding, b.Braceless → ¬ b.Straddles code cut) ∧
    (namespaceBlock id bindings depth rest).code = block.assemble id (rename all)
      (fun reached inner => inner.namespaced id reached) bindings ∧
    ((∀ b ∈ bindings, b.Braceless) →
      renamed all start (blockEnd code id bindings depth start) =
        block.assemble id (rename all) (fun _ inner => rename all inner.spots) bindings) := by
  intro code start middle stop renamed rest block all
  obtain ⟨lm, n, r, hspots, hlm, hn, hr⟩ := exists_spots_eq (before ++ first) second after
  obtain ⟨l, m, rfl, hl, hm⟩ := List.map_eq_append_iff.mp hlm
  change Spot.text l = before at hl
  have hstart : start = Text.width (Spot.text l) := by rw [hl]
  have hmiddle : middle = Text.width (Spot.text (l ++ m)) := by rw [hlm]
  have hstop : stop = Text.width (Spot.text (l ++ m ++ n)) := by rw [Spot.text_append, hlm, hn]
  have hcode : spots code = l ++ (m ++ n ++ r) := by
    rw [hspots]
    simp
  have hrest : rest = m ++ n ++ r := by
    rw [← range_rest hcode, ← hstart]
  refine ⟨fun hnot => ?_, fun b hb cut hcut => hcut.not_straddles hb, fun cut hcut => ?_,
    Block.renamed_eq_assemble id all bindings block, fun hnames => ?_⟩
  · have hfirst : Spot.range start middle (spots code) = m := by
      rw [hstart, hmiddle]
      exact range_eq (r := n ++ r) (by rw [hcode]; simp)
    have hsecond : Spot.range middle stop (spots code) = n := by
      rw [hmiddle, hstop]
      exact range_eq hspots
    have hle : start ≤ middle ∧ middle ≤ stop := by
      simp only [start, middle, stop, Text.width_append]
      omega
    have hboth : Spot.range start stop (spots code) = m ++ n := by
      rw [← range_append code hle.1 hle.2, hfirst, hsecond]
    simp only [renamed, hfirst, hsecond, hboth]
    rw [hmiddle] at hnot
    exact rename_append_of_not_straddles hspots hnot
  · have hplace : IsBraceCut code cut ∨ cut = Text.width code := by
      refine isBraceCut_or_eq_width hcode depth ?_
      rwa [← hrest, ← hstart]
    refine ⟨hplace, fun b hb hstraddles => ?_⟩
    rcases hplace with hbrace | hend
    · exact hbrace.not_straddles hb hstraddles
    · exact hstraddles.lt_width.ne hend
  · have hall : ∀ x ∈ all, x.Braceless := by
      intro x hx
      rcases List.mem_append.mp hx with hx | hx
      · exact hnames x hx
      · exact (Block.of_mem_bindings hx).1
    simp only [renamed, hstart, range_blockEnd hcode depth, ← hrest]
    exact (Block.braced_ofDepth depth rest).rename_eq_assemble id all bindings hall

/-- A stretch cut behind the brace that opens an inner block. What the inner block declares is
replaced in it, and the stretches around it are the same with and without. -/
theorem rename_range_append_inner :
    let before := "\x7b".toList
    let first := "f(module.exports)\x7b".toList
    let second := "let y=x;y\x7dx".toList
    let after := "\x7dx".toList
    let code := before ++ first ++ second ++ after
    let start := Text.width before
    let middle := Text.width (before ++ first)
    let stop := Text.width (before ++ first ++ second)
    let id : ModuleId := ⟨['I']⟩
    let bindings : List Binding := [⟨"module".toList, "N".toList, 0⟩,
      ⟨"module.exports".toList, "M".toList, 0⟩, ⟨"x".toList, "A".toList, 0⟩]
    let block := Block.ofDepth 1 (Spot.range start (Text.width code) (spots code))
    let all := bindings ++ block.bindings id
    (∀ b ∈ bindings, b.Braceless) ∧ IsBraceCut code middle ∧
      (∀ b ∈ bindings, ¬ b.Straddles code middle) ∧
      rename bindings (Spot.range start stop (spots code)) =
        "f(M)\x7b".toList ++ "let y=A;y\x7dA".toList ∧
      block.assemble id (rename all) (fun _ inner => rename all inner.spots) bindings =
        "f(M)\x7blet y=A;y\x7dA".toList ∧
      block.assemble id (rename all) (fun reached inner => inner.namespaced id reached) bindings =
        "f(M)\x7blet I_y=A;I_y\x7dA".toList := by
  intro before first second after code start middle stop id bindings block all
  obtain ⟨happend, hnot, -, hblock, hwhole⟩ :=
    rename_range_append before first second after id 1 bindings
  have hnames : ∀ b ∈ bindings, b.Braceless := by simp [bindings, Binding.Braceless]
  have hcut : IsBraceCut code middle := by decide +kernel
  have hseam : ∀ b ∈ bindings, ¬ b.Straddles code middle := fun b hb =>
    hnot b (hnames b hb) middle hcut
  have hfirst : rename bindings (Spot.range start middle (spots code)) = "f(M)\x7b".toList := by
    decide +kernel
  have hsecond : rename bindings (Spot.range middle stop (spots code)) =
      "let y=A;y\x7dA".toList := by decide +kernel
  have hall : rename all (Spot.range start (blockEnd code id bindings 1 start) (spots code)) =
      "f(M)\x7blet y=A;y\x7dA".toList := by decide +kernel
  have hcode : (namespaceBlock id bindings 1
      (Spot.range start (Text.width code) (spots code))).code =
        "f(M)\x7blet I_y=A;I_y\x7dA".toList := by decide +kernel
  refine ⟨hnames, hcut, hseam, ?_, (hwhole hnames).symm.trans hall, hblock.symm.trans hcode⟩
  exact (happend hseam).trans (congrArg₂ (· ++ ·) hfirst hsecond)

/-- A stretch that is cut within a name does not become what its parts become. -/
example :
    let renamed := fun start stop => rename [⟨"module".toList, "N".toList, 0⟩,
      ⟨"module.exports".toList, "M".toList, 0⟩]
        (Spot.range start stop (spots "module.exports".toList))
    renamed 0 14 = "M".toList ∧ renamed 0 6 ++ renamed 6 14 = "N.exports".toList := by
  decide +kernel

end ScriptBundle
