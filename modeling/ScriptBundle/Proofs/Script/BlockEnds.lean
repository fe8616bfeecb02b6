import Mathlib.Order.Bounds.Basic
import ScriptBundle.Proofs.Script.Nesting
import ScriptBundle.Proofs.Script.Replacement

/-! Where blocks end. A block reaches up to the closing brace before which the braces match from
where it begins, or to the end of the text when there is none. This is said of the marks of the text
alone; what names are bound in the block and around it has no part in it. -/
namespace ScriptBundle

structure Matched (braces : Text) : Prop where
  nested : Nested 0 braces
  even : braces.count '}' = braces.count '{'

namespace Matched

variable {l r : Text}

theorem nil : Matched [] := ⟨.nil 0, rfl⟩

theorem enclosed_nested (hl : Matched l) (hr : Nested 0 r) : Nested 0 ('{' :: (l ++ '}' :: r)) :=
  ((hl.nested.mono (Nat.zero_le 1)).append (by rw [hl.even]) hr.cons_close).cons_open

theorem enclosed (hl : Matched l) (hr : Matched r) : Matched ('{' :: (l ++ '}' :: r)) := by
  refine ⟨hl.enclosed_nested hr.nested, ?_⟩
  simp [List.count_append, hl.even, hr.even, Nat.add_assoc]

end Matched

namespace Block

/-- The first block has none of its braces without a partner but those that stay open where nothing
closes it; the next begins with the brace that closes it, and so on. -/
inductive Levelled : Block → List Block → Prop
  | last {b : Block} (h : Nested 0 (Spot.braces b.spots)) : Levelled b []
  | closed {b inner : Block} {brace : Spot} {outer : List Block}
    (hb : Matched (Spot.braces b.spots)) (hbrace : brace.isCode '}' = true)
    (h : Levelled inner outer) : Levelled b (cons brace inner :: outer)

theorem Levelled.nest {b : Block} {outer : List Block} {s : Spot} (hs : s.isCode '{' = true)
    (h : Levelled b outer) : Levelled (.nest [s] b (outer.headD empty)) outer.tail := by
  cases h with
  | last h =>
    refine .last ?_
    have hspots : (Block.nest [s] b empty).spots = s :: b.spots := by simp [spots, empty]
    rw [List.headD_nil, hspots, Spot.braces_cons, Spot.braces_open hs]
    exact (h.mono (Nat.zero_le 1)).cons_open
  | @closed _ inner brace outer hb hbrace h =>
    have hspots : Spot.braces (Block.nest [s] b (cons brace inner)).spots =
        '{' :: (Spot.braces b.spots ++ '}' :: Spot.braces inner.spots) := by
      simp only [spots, spots_cons, Spot.braces_append, Spot.braces_open hs,
        Spot.braces_cons inner.spots, Spot.braces_close hbrace, List.append_assoc]
      rfl
    rw [List.headD_cons, List.tail_cons]
    cases h with
    | last h => exact .last (by rw [hspots]; exact hb.enclosed_nested h)
    | closed hinner hbrace' h => exact .closed (by rw [hspots]; exact hb.enclosed hinner) hbrace' h

theorem Levelled.cons {b : Block} {outer : List Block} {s : Spot}
    (hs : Spot.braces [s] = []) (h : Levelled b outer) : Levelled (Block.cons s b) outer := by
  have hspots : Spot.braces (Block.cons s b).spots = Spot.braces b.spots := by
    rw [spots_cons, Spot.braces_cons, hs, List.nil_append]
  cases h with
  | last h => exact .last (by rwa [hspots])
  | closed hb hbrace h => exact .closed (by rwa [hspots]) hbrace h

theorem levelled_levels (spots : List Spot) : Levelled (levels spots).1 (levels spots).2 := by
  induction spots with
  | nil => exact .last (.nil 0)
  | cons s spots ih =>
    rcases s.brace_cases with hopen | hclose | ⟨hopen, hclose⟩
    · rw [levels_open spots hopen]
      exact ih.nest hopen
    · rw [levels_close spots hclose]
      exact .closed .nil hclose ih
    · rw [levels_plain spots hopen hclose]
      exact ih.cons (Spot.braces_plain hopen hclose)

theorem inside_spec (spots : List Spot) :
    ((inside spots).spots = spots ∧ Nested 0 (Spot.braces spots)) ∨
      ∃ brace rest, spots = (inside spots).spots ++ brace :: rest ∧ brace.isCode '}' = true ∧
        Matched (Spot.braces (inside spots).spots) := by
  have hspots := spots_levels spots
  have h := levelled_levels spots
  rw [inside]
  generalize (levels spots).1 = b at h hspots
  generalize (levels spots).2 = outer at h hspots
  cases h with
  | last h =>
    rw [List.flatMap_nil, List.append_nil] at hspots
    exact Or.inl ⟨hspots, hspots ▸ h⟩
  | @closed _ inner brace outer hb hbrace _ =>
    refine Or.inr ⟨brace, inner.spots ++ outer.flatMap Block.spots, ?_, hbrace, hb⟩
    rw [← hspots]
    simp

end Block

theorem range_append (code : Text) {start middle stop : Nat} (hstart : start ≤ middle)
    (hstop : middle ≤ stop) :
    Spot.range start middle (spots code) ++ Spot.range middle stop (spots code) =
      Spot.range start stop (spots code) := by
  have hoff := spots_offset code
  generalize spots code = l at hoff
  induction l with
  | nil => rfl
  | cons s l ih =>
    obtain ⟨hlater, hoff⟩ := List.pairwise_cons.mp hoff
    rcases Nat.lt_or_ge s.offset middle with hlt | hge
    · have hleft : Spot.range middle stop (s :: l) = Spot.range middle stop l :=
        List.filter_cons_of_neg (by simp [hlt])
      have hcons : ∀ stop, s.offset < stop → Spot.range start stop (s :: l) =
          if start ≤ s.offset then s :: Spot.range start stop l else Spot.range start stop l := by
        intro stop hs
        simp [Spot.range, List.filter_cons, hs]
      rw [hleft, hcons middle hlt, hcons stop (hlt.trans_le hstop), ← ih hoff]
      split <;> rfl
    · -- From this spot on all lie behind the cut.
      have hall : ∀ t ∈ s :: l, middle ≤ t.offset := by
        intro t ht
        rcases List.mem_cons.mp ht with rfl | ht
        · exact hge
        · exact hge.trans (hlater t ht).le
      have hnone : Spot.range start middle (s :: l) = [] :=
        List.filter_eq_nil_iff.mpr fun t ht => by simp [hall t ht]
      rw [hnone, List.nil_append]
      refine List.filter_congr fun t ht => ?_
      simp [hall t ht, hstart.trans (hall t ht)]

def bracesWithin (code : Text) (start stop : Nat) : Text :=
  Spot.braces (Spot.range start stop (spots code))

theorem bracesWithin_append (code : Text) {start middle stop : Nat} (hstart : start ≤ middle)
    (hstop : middle ≤ stop) :
    bracesWithin code start middle ++ bracesWithin code middle stop =
      bracesWithin code start stop := by
  rw [bracesWithin, bracesWithin, ← Spot.braces_append, range_append code hstart hstop]
  rfl

/-- The offset of a brace that closes a block. -/
def IsCloser (code : Text) (offset : Nat) : Prop :=
  ∃ s ∈ spots code, s.offset = offset ∧ s.isCode '}' = true

theorem IsCloser.exists_cons {code : Text} {offset stop : Nat} (h : IsCloser code offset)
    (hstop : offset < stop) : ∃ more, bracesWithin code offset stop = '}' :: more := by
  obtain ⟨s, hs, rfl, hbrace⟩ := h
  obtain ⟨l, r, hcut⟩ := List.append_of_mem hs
  have hoff := spots_offset code
  rw [hcut] at hoff
  have hbefore : Spot.range s.offset stop l = [] := by
    refine List.filter_eq_nil_iff.mpr fun t ht => ?_
    have := (List.pairwise_append.mp hoff).2.2 t ht s (by simp)
    simp [this]
  have hrange : Spot.range s.offset stop (spots code) = s :: Spot.range s.offset stop r := by
    rw [hcut, Spot.range, List.filter_append, List.filter_cons_of_pos (by simp [hstop])]
    exact congrArg (· ++ _) hbefore
  refine ⟨Spot.braces (Spot.range s.offset stop r), ?_⟩
  rw [bracesWithin, hrange, Spot.braces_cons, Spot.braces_close hbrace]
  rfl

/-- The block that begins at an offset is closed at another: a closing brace stands there, and the
braces from the one offset to the other match. -/
structure ClosesAt (code : Text) (start stop : Nat) : Prop where
  le : start ≤ stop
  isCloser : IsCloser code stop
  matched : Matched (bracesWithin code start stop)

theorem ClosesAt.not_within {code : Text} {start stop front back : Nat}
    (h : ClosesAt code start stop) (hfront : start ≤ front)
    (hnested : Nested 0 (bracesWithin code front back)) : stop < front ∨ back ≤ stop := by
  by_contra hwithin
  obtain ⟨hge, hlt⟩ : front ≤ stop ∧ stop < back := by omega
  obtain ⟨more, hmore⟩ := h.isCloser.exists_cons hlt
  have hmatched := h.matched
  rw [← bracesWithin_append code hfront hge] at hmatched
  rw [← bracesWithin_append code hge hlt.le, hmore] at hnested
  have hbefore := hmatched.nested _ (List.prefix_append _ _)
  have hinside := hnested (bracesWithin code front stop ++ ['}']) ⟨more, by simp⟩
  have heven := hmatched.even
  have hother : ['}'].count '{' = 0 := by decide
  simp only [List.count_append, List.count_singleton_self, hother] at hinside heven
  omega

theorem ClosesAt.unique {code : Text} {start stop stop' : Nat} (h : ClosesAt code start stop)
    (h' : ClosesAt code start stop') : stop = stop' := by
  have hle := h.le
  have hle' := h'.le
  have hbefore := h.not_within le_rfl h'.matched.nested
  have hbehind := h'.not_within le_rfl h.matched.nested
  omega

/-- Where a block ends that begins at an offset and lies at a depth. -/
def blockEnd (code : Text) (id : ModuleId) (outer : List Binding) (depth start : Nat) : Nat :=
  start + (namespaceBlock id outer depth
    (Spot.range start (Text.width code) (spots code))).consumed

section

variable {code : Text} {l r : List Spot} (h : spots code = l ++ r) (id : ModuleId)
  (outer : List Binding)

include h

theorem text_eq_append : code = Spot.text (l ++ r) := by
  rw [← h, text_spots]

theorem range_rest : Spot.range (Text.width (Spot.text l)) (Text.width code) (spots code) = r := by
  have hcut : spots code = l ++ r ++ [] := by rw [h, List.append_nil]
  have hrange := range_eq hcut
  rwa [← text_eq_append h] at hrange

theorem blockEnd_zero : blockEnd code id outer 0 (Text.width (Spot.text l)) = Text.width code := by
  rw [blockEnd, range_rest h, namespaceBlock, if_pos rfl, Block.spots_whole, ← Text.width_append,
    ← Spot.text_append, ← text_eq_append h]

theorem blockEnd_succ (depth : Nat) :
    blockEnd code id outer (depth + 1) (Text.width (Spot.text l)) =
      Text.width (Spot.text (l ++ (Block.inside r).spots)) := by
  rw [blockEnd, range_rest h, namespaceBlock, if_neg (Nat.succ_ne_zero depth), Spot.text_append,
    Text.width_append]

theorem blockEnd_succ_spec (depth : Nat) :
    ClosesAt code (Text.width (Spot.text l))
        (blockEnd code id outer (depth + 1) (Text.width (Spot.text l))) ∨
      blockEnd code id outer (depth + 1) (Text.width (Spot.text l)) = Text.width code ∧
        Nested 0 (bracesWithin code (Text.width (Spot.text l)) (Text.width code)) := by
  rw [blockEnd_succ h]
  rcases Block.inside_spec r with ⟨hwhole, hnested⟩ | ⟨brace, more, hr, hbrace, hmatched⟩
  · right
    rw [hwhole, ← text_eq_append h, bracesWithin, range_rest h]
    exact ⟨rfl, hnested⟩
  · left
    have hcut : spots code = l ++ (Block.inside r).spots ++ brace :: more := by
      rw [h, List.append_assoc, ← hr]
    refine ⟨?_, ⟨brace, by simp [hcut], spots_offset_eq hcut, hbrace⟩, ?_⟩
    · rw [Spot.text_append, Text.width_append]
      omega
    · rwa [bracesWithin, range_eq hcut]

end

/-- **A block ends at its matching brace.** Below the outermost one a block ends at the first
closing brace up to which the braces match from where it begins, or with the text when there is no
such brace; the outermost ends with the text. This is so whatever is bound in it and around it. -/
theorem blockEnd_matches (before rest : Text) (id : ModuleId) (outer : List Binding)
    (depth : Nat) :
    (IsLeast {stop | ClosesAt (before ++ rest) (Text.width before) stop}
          (blockEnd (before ++ rest) id outer (depth + 1) (Text.width before)) ∨
        (∀ stop, ¬ ClosesAt (before ++ rest) (Text.width before) stop) ∧
          blockEnd (before ++ rest) id outer (depth + 1) (Text.width before) =
            Text.width (before ++ rest)) ∧
      blockEnd (before ++ rest) id outer 0 (Text.width before) = Text.width (before ++ rest) ∧
      ∀ id' outer', blockEnd (before ++ rest) id' outer' depth (Text.width before) =
        blockEnd (before ++ rest) id outer depth (Text.width before) := by
  obtain ⟨l, r, h, rfl, hr⟩ : ∃ l r, spots (before ++ rest) = l ++ r ∧ Spot.text l = before ∧
      Spot.text r = rest := List.map_eq_append_iff.mp (text_spots (before ++ rest))
  refine ⟨?_, blockEnd_zero h id outer, fun id' outer' => rfl⟩
  rcases blockEnd_succ_spec h id outer depth with hcloses | ⟨hend, hnested⟩
  · exact Or.inl ⟨hcloses, fun stop hstop => (hcloses.unique hstop).le⟩
  · refine Or.inr ⟨fun stop hstop => ?_, hend⟩
    -- The text itself is a stretch in which no block ends that begins in front of it.
    obtain ⟨s, hs, rfl, -⟩ := hstop.isCloser
    have hlt := (offset_of_spots_eq_append (List.append_nil (spots _)).symm).1 s hs
    rw [text_spots] at hlt
    have := hstop.not_within le_rfl hnested
    have := hstop.le
    omega

/-- The brace in the string closes nothing, and a block that is not closed takes all of the text. -/
example : blockEnd "\x7b \x7b'\x7d'\x7d \x7d x".toList ⟨['M']⟩ [] 1 1 = 8 ∧
    blockEnd "\x7b \x7b x \x7d".toList ⟨['M']⟩ [] 1 1 = 7 := by decide +kernel

end ScriptBundle
