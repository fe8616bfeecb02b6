import Mathlib.Data.List.Forall2
import ScriptBundle.Proofs.Script.Parts

/-! Replacing names all at once. Where the names of bindings stand in a stretch of a text, and which
of those at one place is chosen, is said of the text alone. Names that are identifiers with dots
between them do not overlap where they stand, so replacing one after the other, from the left to the
right, is replacing all of them at once. -/
namespace ScriptBundle

/-- The name is an identifier, or identifiers with a dot between each two. -/
def IsDotted (name : Text) : Prop := ∀ piece ∈ pieces '.' name, isIdentifier piece = true

instance (name : Text) : Decidable (IsDotted name) :=
  inferInstanceAs (Decidable (∀ piece ∈ pieces '.' name, isIdentifier piece = true))

namespace IsDotted

variable {name front back : Text}

theorem isIdentifierChar (h : IsDotted name) {c : Char} (hc : c ∈ name) (hdot : c ≠ '.') :
    isIdentifierChar c = true := by
  obtain ⟨piece, hpiece, hc⟩ := mem_pieces_of_mem hc hdot
  exact isIdentifierChar_of_isIdentifier (h piece hpiece) hc

theorem ne_dot_cons (h : IsDotted name) : name ≠ '.' :: back := by
  rintro rfl
  have := h [] (by simp [pieces])
  cases this

theorem ne_append_dots (h : IsDotted name) : name ≠ front ++ '.' :: '.' :: back := by
  rintro rfl
  have := h [] (by simp [pieces_append_separator, pieces])
  cases this

end IsDotted

namespace Text

/-- A name can begin behind the text: it is empty, ends with a boundary that is no dot, or with
three dots and no more. -/
def OpensName (before : Text) : Prop :=
  before = [] ∨ (∃ c ∈ before.getLast?, isBoundary c = true ∧ c ≠ '.') ∨
    ∃ front, before = front ++ ['.', '.', '.'] ∧ front.getLast? ≠ some '.'

def ClosesName (after : Text) : Prop := ∀ c ∈ after.head?, isBoundary c = true

theorem closesBefore_iff {after : Text} :
    Spot.closesBefore after = true ↔ after.ClosesName := by
  cases after <;> simp [Spot.closesBefore, ClosesName]

theorem opensAfter_iff {before : Text} : Spot.opensAfter before = true ↔
    before = [] ∨ (∃ c ∈ before.head?, isBoundary c = true ∧ c ≠ '.') ∨
      ∃ front, before = '.' :: '.' :: '.' :: front ∧ front.head? ≠ some '.' := by
  unfold Spot.opensAfter
  split <;> simp_all [List.head?_eq_some_iff]

theorem opensAfter_reverse_iff {before : Text} :
    Spot.opensAfter before.reverse = true ↔ before.OpensName := by
  rw [opensAfter_iff, OpensName, List.reverse_eq_nil_iff, List.head?_reverse]
  refine or_congr_right (or_congr_right ⟨?_, ?_⟩)
  · rintro ⟨front, hbefore, hfront⟩
    exact ⟨front.reverse, by simpa using congrArg List.reverse hbefore, by simpa using hfront⟩
  · rintro ⟨front, rfl, hfront⟩
    exact ⟨front.reverse, by simp, by simpa using hfront⟩

end Text

/-- The name of the binding stands as a whole between the two texts: the binding is in effect, all
of the name is code, its first character is one of an identifier, and it is bounded on both
sides. -/
structure Binding.Occurs (b : Binding) (before after : Text) : Prop where
  since : b.since ≤ Text.width before
  identifier : ∃ c ∈ b.name.head?, isIdentifierChar c = true
  code : ∀ mark ∈ ((marks (before ++ (b.name ++ after))).drop before.length).take b.name.length,
    mark = true
  opens : before.OpensName
  closes : after.ClosesName

/-- The name of the binding stands at the `i`th character of the text, all of it between the
characters `start` and `stop`. -/
def Binding.FoundAt (code : Text) (start stop : Nat) (b : Binding) (i : Nat) : Prop :=
  ∃ before after, code = before ++ (b.name ++ after) ∧ before.length = i ∧ start ≤ i ∧
    i + b.name.length ≤ stop ∧ b.Occurs before after

/-- Of the bindings whose names are found at the place, this one's name is longest, and those behind
it in the list have shorter ones. -/
def Binding.ChosenAt (code : Text) (start stop : Nat) (bindings : List Binding) (b : Binding)
    (i : Nat) : Prop :=
  b.FoundAt code start stop i ∧ ∃ front back, bindings = front ++ b :: back ∧
    (∀ a ∈ front, a.FoundAt code start stop i → a.name.length ≤ b.name.length) ∧
    ∀ a ∈ back, a.FoundAt code start stop i → a.name.length < b.name.length

/-- What becomes of the `i`th character: the qualified name where a name is found, nothing within
such a name, and where there is none, the character. -/
inductive Becomes (code : Text) (start stop : Nat) (bindings : List Binding) (i : Nat) : Text → Prop
  | name {b : Binding} (h : b.ChosenAt code start stop bindings i) :
    Becomes code start stop bindings i b.qualified
  | within {b : Binding} {j : Nat} (hb : b ∈ bindings) (h : b.FoundAt code start stop j)
    (hj : j < i) (hi : i < j + b.name.length) : Becomes code start stop bindings i []
  | kept {c : Char} (hc : code[i]? = some c)
    (h : ∀ b ∈ bindings, ∀ j ≤ i, b.FoundAt code start stop j → j + b.name.length ≤ i) :
    Becomes code start stop bindings i [c]

variable {code : Text} {start stop : Nat} {bindings : List Binding} {a b : Binding} {i j : Nat}

theorem Binding.FoundAt.apart (ha : IsDotted a.name) (hi : a.FoundAt code start stop i)
    (hj : b.FoundAt code start stop j) (hij : i < j) : i + a.name.length ≤ j := by
  obtain ⟨before, after, rfl, rfl, -⟩ := hi
  obtain ⟨before', after', hcode, rfl, -, -, hoccurs⟩ := hj
  by_contra hlt
  -- The one name has a part before the other, after which the other begins.
  obtain ⟨part, rfl⟩ : before <+: before' := by
    have hbefore : before <+: before' ++ (b.name ++ after') := hcode ▸ List.prefix_append _ _
    exact List.prefix_of_prefix_length_le hbefore (List.prefix_append _ _) hij.le
  obtain ⟨rest, hrest⟩ : part <+: a.name := by
    have hpart : part <+: a.name ++ after := ⟨b.name ++ after', by simpa using hcode.symm⟩
    refine List.prefix_of_prefix_length_le hpart (List.prefix_append _ _) ?_
    simp only [List.length_append] at hlt
    omega
  obtain ⟨init, c, rfl⟩ := (List.eq_nil_or_concat' part).resolve_left (by rintro rfl; simp at hij)
  rcases hoccurs.opens with hnil | ⟨d, hd, hboundary, hdot⟩ | ⟨front, hdots, -⟩
  · simp at hnil
  · obtain rfl : c = d := by simpa using hd
    have hc := ha.isIdentifierChar (c := c) (by simp [← hrest]) hdot
    simp [isIdentifierChar_of_isBoundary hboundary] at hc
  · rw [← List.append_assoc, List.append_cons front, List.append_cons _ '.'] at hdots
    obtain ⟨hinit, rfl⟩ : before ++ init = front ++ ['.'] ++ ['.'] ∧ c = '.' := by
      simpa using List.append_inj' hdots rfl
    rcases List.eq_nil_or_concat' init with rfl | ⟨first, d, rfl⟩
    · exact ha.ne_dot_cons hrest.symm
    · obtain ⟨-, rfl⟩ : before ++ first = front ++ ['.'] ∧ d = '.' := by
        rw [← List.append_assoc] at hinit
        simpa using List.append_inj' hinit rfl
      have hname : a.name = first ++ '.' :: '.' :: rest := by simpa using hrest.symm
      exact ha.ne_append_dots hname

theorem Spot.text_append (l r : List Spot) : Spot.text (l ++ r) = Spot.text l ++ Spot.text r :=
  List.map_append

theorem spotsFrom_offset_eq {s : LexState} {before : Text} {offset : Nat} {code : Text}
    {l r : List Spot} {t : Spot} (h : spotsFrom s before offset code = l ++ t :: r) :
    t.offset = offset + Text.width (Spot.text l) := by
  induction l generalizing s before offset code with
  | nil =>
    cases code with
    | nil => simp [spotsFrom] at h
    | cons c code =>
      obtain ⟨rfl, -⟩ := List.cons.inj h
      rfl
  | cons u l ih =>
    cases code with
    | nil => simp [spotsFrom] at h
    | cons c code =>
      obtain ⟨rfl, hrest⟩ := List.cons.inj h
      simp [ih hrest, Spot.text, Nat.add_assoc]

theorem spots_offset_eq {code : Text} {l r : List Spot} {t : Spot}
    (h : spots code = l ++ t :: r) : t.offset = Text.width (Spot.text l) := by
  simpa using spotsFrom_offset_eq h

theorem offset_of_spots_eq_append {code : Text} {l r : List Spot} (h : spots code = l ++ r) :
    (∀ t ∈ l, t.offset < Text.width (Spot.text l)) ∧
      ∀ t ∈ r, Text.width (Spot.text l) ≤ t.offset := by
  constructor
  · intro t ht
    obtain ⟨front, back, rfl⟩ := List.append_of_mem ht
    have hpos := t.char.utf8Size_pos
    have hwidth : Text.width (Spot.text (front ++ t :: back)) =
        Text.width (Spot.text front) + (t.char.utf8Size + Text.width (Spot.text back)) := by
      rw [Spot.text_append, Text.width_append]
      simp [Spot.text]
    rw [spots_offset_eq (h.trans (by simp : _ = front ++ t :: (back ++ r))), hwidth]
    omega
  · intro t ht
    obtain ⟨front, back, rfl⟩ := List.append_of_mem ht
    rw [spots_offset_eq (h.trans (List.append_assoc l front (t :: back)).symm), Spot.text_append,
      Text.width_append]
    exact Nat.le_add_right _ _

theorem exists_spots_eq (x y z : Text) : ∃ l m r, spots (x ++ y ++ z) = l ++ m ++ r ∧
    Spot.text l = x ∧ Spot.text m = y ∧ Spot.text r = z := by
  obtain ⟨lm, r, hspots, hlm, hr⟩ := List.map_eq_append_iff.mp (text_spots (x ++ y ++ z))
  obtain ⟨l, m, rfl, hl, hm⟩ := List.map_eq_append_iff.mp hlm
  exact ⟨l, m, r, hspots, hl, hm, hr⟩

theorem range_eq {code : Text} {l m r : List Spot} (h : spots code = l ++ m ++ r) :
    Spot.range (Text.width (Spot.text l)) (Text.width (Spot.text (l ++ m))) (spots code) = m := by
  obtain ⟨hbefore, hbehind⟩ := offset_of_spots_eq_append (h.trans (List.append_assoc l m r))
  obtain ⟨hwithin, hafter⟩ := offset_of_spots_eq_append h
  rw [Spot.range, h, List.filter_append, List.filter_append, List.filter_eq_nil_iff.mpr,
    List.filter_eq_self.mpr, List.filter_eq_nil_iff.mpr]
  · simp
  · intro t ht
    simp [hafter t ht]
  · intro t ht
    simp [hbehind t (by simp [ht]), hwithin t (by simp [ht])]
  · intro t ht
    simp [hbefore t ht]

theorem standsAt_iff_exists {name : Text} {spots : List Spot} : standsAt name spots = true ↔
    ∃ covered rest, spots = covered ++ rest ∧ Spot.text covered = name ∧
      (∀ s ∈ covered, s.code = true) ∧ ∃ last ∈ covered.getLast?,
        Spot.closesBefore last.after = true := by
  rw [standsAt_iff]
  constructor
  · rintro ⟨front, last, rest, rfl, rfl, hfront, hlast, hend⟩
    refine ⟨front ++ [last], rest, by simp, by simp [Spot.text], fun s hs => ?_, last, by simp,
      hend⟩
    rcases List.mem_append.mp hs with hs | hs
    · exact hfront s hs
    · rwa [List.mem_singleton.mp hs]
  · rintro ⟨covered, rest, rfl, rfl, hcode, last, hlast, hend⟩
    obtain ⟨front, rfl⟩ := List.getLast?_eq_some_iff.mp hlast
    exact ⟨front, last, rest, by simp, by simp [Spot.text], fun s hs => hcode s (by simp [hs]),
      hcode last (by simp), hend⟩

variable {l more r : List Spot} {s : Spot}

theorem occurs_iff (hcode : spots code = l ++ ((s :: more) ++ r))
    (hname : Spot.text (s :: more) = b.name) : b.Occurs (Spot.text l) (Spot.text r) ↔
      (s.code && isIdentifierChar s.char && Spot.opensAfter s.before) = true ∧
        b.since ≤ s.offset ∧ (∀ t ∈ s :: more, t.code = true) ∧
        ∃ last ∈ (s :: more).getLast?, Spot.closesBefore last.after = true := by
  have htext : Spot.text l ++ (b.name ++ Spot.text r) = code := by
    rw [← text_spots code, hcode, ← hname]
    simp [Spot.text]
  have hoffset : s.offset = Text.width (Spot.text l) := spots_offset_eq hcode
  have hopens := (spots_around (show spots code = l ++ s :: (more ++ r) from hcode)).1
  have hcodes : ((marks code).drop (Spot.text l).length).take b.name.length =
      (s :: more).map Spot.code := by
    rw [marks, ← code_spotsFrom .start [] 0, ← spots, hcode, ← hname]
    simp [Spot.text]
  obtain ⟨front, last, hlast⟩ := (List.eq_nil_or_concat' (s :: more)).resolve_left (by simp)
  have hcloses := (spots_around (l := l ++ front) (t := last) (r := r)
    (by rw [hcode, hlast]; simp)).2
  rw [hoffset, hopens, Bool.and_eq_true, Bool.and_eq_true, Text.opensAfter_reverse_iff]
  constructor
  · rintro ⟨hsince, ⟨c, hc, hidentifier⟩, hmarks, hopens', hcloses'⟩
    rw [htext, hcodes] at hmarks
    obtain rfl : s.char = c := by simpa [← hname, Spot.text] using hc
    refine ⟨⟨⟨hmarks _ (by simp), hidentifier⟩, hopens'⟩, hsince,
      fun t ht => hmarks _ (List.mem_map_of_mem ht), last, by simp [hlast], ?_⟩
    rwa [hcloses, Text.closesBefore_iff]
  · rintro ⟨⟨⟨-, hidentifier⟩, hopens'⟩, hsince, hall, last', hlast', hend⟩
    obtain rfl : last = last' := by simpa [hlast] using hlast'
    rw [hcloses, Text.closesBefore_iff] at hend
    refine ⟨hsince, ⟨s.char, by simp [← hname, Spot.text], hidentifier⟩, ?_, hopens', hend⟩
    rw [htext, hcodes]
    rintro mark hmark
    obtain ⟨t, ht, rfl⟩ := List.mem_map.mp hmark
    exact hall t ht

theorem foundAt_iff (hcode : spots code = l ++ (s :: more) ++ r) (hstart : start ≤ l.length)
    (hstop : stop = (l ++ (s :: more)).length) :
    b.FoundAt code start stop l.length ↔
      (s.code && isIdentifierChar s.char && Spot.opensAfter s.before) = true ∧
        b.since ≤ s.offset ∧ standsAt b.name (s :: more) = true := by
  have htext : code = Spot.text l ++ Spot.text (s :: more ++ r) := by
    rw [← text_spots code, hcode]
    simp [Spot.text]
  rw [standsAt_iff_exists]
  constructor
  · rintro ⟨before, after, hsplit, hlength, -, hend, hoccurs⟩
    obtain ⟨rfl, hbehind⟩ : before = Spot.text l ∧
        b.name ++ after = Spot.text (s :: more ++ r) :=
      List.append_inj (hsplit.symm.trans htext) (by simpa [Spot.text] using hlength)
    obtain ⟨covered, tail, hcovered, hname, rfl⟩ := List.map_eq_append_iff.mp hbehind.symm
    obtain ⟨rest, hrest⟩ : covered <+: s :: more := by
      refine List.prefix_of_prefix_length_le ⟨tail, hcovered.symm⟩ (List.prefix_append _ r) ?_
      rw [← hname, hstop] at hend
      simpa [Spot.text] using hend
    cases covered with
    | nil =>
      obtain ⟨c, hc, -⟩ := hoccurs.identifier
      simp [← hname] at hc
    | cons t covered =>
      obtain ⟨rfl, hmore⟩ := List.cons.inj hrest
      have hspots : spots code = l ++ (t :: covered ++ tail) := by
        rw [hcode, List.append_assoc, hcovered]
      obtain ⟨hopens, hsince, hall, hlast⟩ := (occurs_iff hspots hname).mp hoccurs
      exact ⟨hopens, hsince, t :: covered, rest, hrest.symm, hname, hall, hlast⟩
  · rintro ⟨hopens, hsince, covered, rest, hmore, hname, hall, hlast⟩
    obtain ⟨t, covered, rfl⟩ : ∃ t rest, covered = t :: rest := by
      refine List.exists_cons_of_ne_nil ?_
      rintro rfl
      simp at hlast
    obtain ⟨rfl, rfl⟩ := List.cons.inj hmore
    refine ⟨Spot.text l, Spot.text (rest ++ r), ?_, by simp [Spot.text], hstart, ?_, ?_⟩
    · rw [htext, ← hname]
      simp [Spot.text]
    · rw [← hname, hstop]
      simp [Spot.text]
    · exact (occurs_iff (by simpa using hcode) hname).mpr ⟨hopens, hsince, hall, hlast⟩

theorem longest_eq_none (h : longest bindings = none) : bindings = [] := by
  cases bindings with
  | nil => rfl
  | cons b bindings =>
    rw [longest] at h
    split at h
    · cases h
    · split at h <;> cases h

theorem longest_filter_eq_some {p : Binding → Bool} (h : longest (bindings.filter p) = some b) :
    ∃ front back, bindings = front ++ b :: back ∧ p b = true ∧
      (∀ a ∈ front, p a = true → a.name.length ≤ b.name.length) ∧
      ∀ a ∈ back, p a = true → a.name.length < b.name.length := by
  induction bindings generalizing b with
  | nil => simp [longest] at h
  | cons c bindings ih =>
    by_cases hc : p c = true
    · rw [List.filter_cons_of_pos hc, longest] at h
      split at h
      · next hnone =>
        obtain rfl := Option.some.inj h
        have hnil := List.filter_eq_nil_iff.mp (longest_eq_none hnone)
        exact ⟨[], bindings, rfl, hc, by simp, fun x hx hpx => absurd hpx (hnil x hx)⟩
      · next a ha =>
        obtain ⟨front, back, rfl, hp, hfront, hback⟩ := ih ha
        split at h
        · next hle =>
          obtain rfl := Option.some.inj h
          refine ⟨c :: front, back, rfl, hp, ?_, hback⟩
          simpa [hc] using ⟨hle, hfront⟩
        · next hlt =>
          obtain rfl := Option.some.inj h
          refine ⟨[], _, rfl, hc, by simp, fun x hx hpx => ?_⟩
          rcases List.mem_append.mp hx with hx | hx
          · have := hfront x hx hpx
            omega
          · rcases List.mem_cons.mp hx with rfl | hx
            · omega
            · have := hback x hx hpx
              omega
    · rw [List.filter_cons_of_neg hc] at h
      obtain ⟨front, back, rfl, hp, hfront, hback⟩ := ih h
      exact ⟨c :: front, back, rfl, hp, by simpa [hc] using hfront, hback⟩

theorem chosenAt_of_bindingAt (hcode : spots code = l ++ (s :: more) ++ r)
    (hstart : start ≤ l.length) (hstop : stop = (l ++ (s :: more)).length)
    (h : bindingAt bindings (s :: more) = some b) :
    b.ChosenAt code start stop bindings l.length := by
  rw [bindingAt] at h
  split at h
  · next hopens =>
    obtain ⟨front, back, hbindings, hb, hfront, hback⟩ := longest_filter_eq_some h
    have hiff : ∀ a : Binding, a.FoundAt code start stop l.length ↔
        (decide (a.since ≤ s.offset) && standsAt a.name (s :: more)) = true := fun a => by
      rw [foundAt_iff hcode hstart hstop, and_iff_right hopens]
      simp
    exact ⟨(hiff b).mpr hb, front, back, hbindings, fun a ha hfa => hfront a ha ((hiff a).mp hfa),
      fun a ha hfa => hback a ha ((hiff a).mp hfa)⟩
  · cases h

theorem not_foundAt_of_bindingAt (hcode : spots code = l ++ (s :: more) ++ r)
    (hstart : start ≤ l.length) (hstop : stop = (l ++ (s :: more)).length)
    (h : bindingAt bindings (s :: more) = none) (hb : b ∈ bindings) :
    ¬ b.FoundAt code start stop l.length := by
  rw [foundAt_iff hcode hstart hstop]
  rintro ⟨hopens, hsince, hstands⟩
  rw [bindingAt, if_pos hopens] at h
  have hnot := List.filter_eq_nil_iff.mp (longest_eq_none h) b hb
  simp [hsince, hstands] at hnot

/-- What is left of a name that was begun: names found so far reach no further than over the `skip`
characters from here, and over these one of them does. -/
structure Reaches (code : Text) (start stop : Nat) (bindings : List Binding) (i skip : Nat) :
    Prop where
  bounded : ∀ b ∈ bindings, ∀ j < i, b.FoundAt code start stop j → j + b.name.length ≤ i + skip
  covered : 0 < skip → ∃ b ∈ bindings, ∃ j < i, b.FoundAt code start stop j ∧
    i + skip = j + b.name.length

theorem Binding.FoundAt.length_pos (h : b.FoundAt code start stop i) : 0 < b.name.length := by
  obtain ⟨before, after, -, -, -, -, hoccurs⟩ := h
  obtain ⟨c, hc, -⟩ := hoccurs.identifier
  obtain ⟨tail, htail⟩ := List.head?_eq_some_iff.mp hc
  simp [htail]

theorem Binding.ChosenAt.mem (h : b.ChosenAt code start stop bindings i) : b ∈ bindings := by
  obtain ⟨-, front, back, rfl, -⟩ := h
  simp

theorem Binding.ChosenAt.length_le (h : b.ChosenAt code start stop bindings i) (ha : a ∈ bindings)
    (hfound : a.FoundAt code start stop i) : a.name.length ≤ b.name.length := by
  obtain ⟨-, front, back, rfl, hfront, hback⟩ := h
  rcases List.mem_append.mp ha with ha | ha
  · exact hfront a ha hfound
  · rcases List.mem_cons.mp ha with rfl | ha
    · exact le_rfl
    · exact (hback a ha hfound).le

namespace Reaches

variable {skip : Nat}

theorem next (hnames : ∀ b ∈ bindings, IsDotted b.name)
    (h : Reaches code start stop bindings i (skip + 1)) :
    Reaches code start stop bindings (i + 1) skip := by
  obtain ⟨b, hb, j, hj, hfound, hend⟩ := h.covered (Nat.succ_pos skip)
  refine ⟨fun a ha k hk hfa => ?_, fun _ => ⟨b, hb, j, by omega, hfound, by omega⟩⟩
  rcases Nat.lt_or_eq_of_le (Nat.le_of_lt_succ hk) with hlt | rfl
  · have := h.bounded a ha k hlt hfa
    omega
  · have := hfound.apart (hnames b hb) hfa hj
    omega

theorem name (h : Reaches code start stop bindings i 0)
    (hb : b.ChosenAt code start stop bindings i) :
    Reaches code start stop bindings (i + 1) (b.name.length - 1) := by
  have hpos := hb.1.length_pos
  refine ⟨fun a ha k hk hfa => ?_, fun _ => ⟨b, hb.mem, i, by omega, hb.1, by omega⟩⟩
  rcases Nat.lt_or_eq_of_le (Nat.le_of_lt_succ hk) with hlt | rfl
  · have := h.bounded a ha k hlt hfa
    omega
  · have := hb.length_le ha hfa
    omega

theorem plain (h : Reaches code start stop bindings i 0)
    (hnot : ∀ a ∈ bindings, ¬ a.FoundAt code start stop i) :
    Reaches code start stop bindings (i + 1) 0 := by
  refine ⟨fun a ha k hk hfa => ?_, by simp⟩
  rcases Nat.lt_or_eq_of_le (Nat.le_of_lt_succ hk) with hlt | rfl
  · have := h.bounded a ha k hlt hfa
    omega
  · exact absurd hfa (hnot a ha)

end Reaches

theorem exists_becomes (hnames : ∀ b ∈ bindings, IsDotted b.name) {m : List Spot} {skip : Nat}
    (hcode : spots code = l ++ m ++ r) (hstart : start ≤ l.length)
    (hstop : stop = (l ++ m).length) (hreaches : Reaches code start stop bindings l.length skip) :
    ∃ texts, List.Forall₂ (Becomes code start stop bindings) (List.range' l.length m.length) texts ∧
      texts.flatten = renameFrom bindings skip m := by
  induction m generalizing l skip with
  | nil => exact ⟨[], .nil, by cases skip <;> rfl⟩
  | cons s m ih =>
    have hlength : (l ++ [s]).length = l.length + 1 := by simp
    have hnext := fun (left : Nat) => @ih (l ++ [s]) left (by simpa using hcode) (by omega)
      (by simpa using hstop)
    rw [hlength] at hnext
    simp only [List.length_cons, List.range'_succ]
    cases skip with
    | succ skip =>
      obtain ⟨b, hb, j, hj, hfound, hend⟩ := hreaches.covered (Nat.succ_pos skip)
      obtain ⟨texts, htexts, hflatten⟩ := hnext skip (hreaches.next hnames)
      exact ⟨[] :: texts, .cons (.within hb hfound hj (by omega)) htexts, hflatten⟩
    | zero =>
      cases hb : bindingAt bindings (s :: m) with
      | some b =>
        have hchosen := chosenAt_of_bindingAt hcode hstart hstop hb
        obtain ⟨texts, htexts, hflatten⟩ := hnext _ (hreaches.name hchosen)
        exact ⟨_ :: texts, .cons (.name hchosen) htexts, by simp [renameFrom, hb, hflatten]⟩
      | none =>
        have hnot := fun a ha => not_foundAt_of_bindingAt (b := a) hcode hstart hstop hb ha
        obtain ⟨texts, htexts, hflatten⟩ := hnext 0 (hreaches.plain hnot)
        refine ⟨[s.char] :: texts, .cons (.kept ?_ fun a ha j hj hfound => ?_) htexts,
          by simp [renameFrom, hb, hflatten]⟩
        · rw [← text_spots code, hcode]
          simp [Spot.text]
        · rcases Nat.lt_or_eq_of_le hj with hlt | rfl
          · exact hreaches.bounded a ha j hlt hfound
          · exact absurd hfound (hnot a ha)

theorem Binding.ChosenAt.unique (ha : a.ChosenAt code start stop bindings i)
    (hb : b.ChosenAt code start stop bindings i) : a = b := by
  obtain ⟨hfa, front, back, rfl, hfront, hback⟩ := ha
  obtain ⟨hfb, front', back', hbindings, hfront', hback'⟩ := hb
  rcases List.append_eq_append_iff.mp hbindings with ⟨mid, rfl, hmid⟩ | ⟨mid, rfl, hmid⟩
  · cases mid with
    | nil => exact (List.cons.inj hmid).1
    | cons c mid =>
      obtain ⟨rfl, rfl⟩ := List.cons.inj hmid
      have h1 := hfront' a (by simp) hfa
      have h2 := hback b (by simp) hfb
      omega
  · cases mid with
    | nil => exact (List.cons.inj hmid).1.symm
    | cons c mid =>
      obtain ⟨rfl, rfl⟩ := List.cons.inj hmid
      have h1 := hfront b (by simp) hfb
      have h2 := hback' a (by simp) hfa
      omega

theorem Becomes.unique (hnames : ∀ b ∈ bindings, IsDotted b.name) :
    Relator.RightUnique (Becomes code start stop bindings) := by
  have hwithin : ∀ {i j : Nat} {a b : Binding}, a ∈ bindings → a.FoundAt code start stop j →
      j < i → i < j + a.name.length → ¬ b.FoundAt code start stop i :=
    fun ha hfa hj hi hfb => by
      have := hfa.apart (hnames _ ha) hfb hj
      omega
  intro i x y hx hy
  cases hx with
  | name ha =>
    cases hy with
    | name hb => rw [ha.unique hb]
    | within hb hfb hj hi => exact absurd ha.1 (hwithin hb hfb hj hi)
    | kept _ hnone =>
      have := hnone _ ha.mem i le_rfl ha.1
      have := ha.1.length_pos
      omega
  | within ha hfa hj hi =>
    cases hy with
    | name hb => exact absurd hb.1 (hwithin ha hfa hj hi)
    | within => rfl
    | kept _ hnone =>
      have := hnone _ ha _ hj.le hfa
      omega
  | kept hc hnone =>
    cases hy with
    | name hb =>
      have := hnone _ hb.mem i le_rfl hb.1
      have := hb.1.length_pos
      omega
    | within hb hfb hj hi =>
      have := hnone _ hb _ hj.le hfb
      omega
    | kept hd _ => rw [Option.some.inj (hc.symm.trans hd)]

/-- **Names are replaced all at once.** Of a text, any stretch and any bindings of dotted names: the
names that are found in the stretch do not overlap, and what is put out for the stretch is, one
behind the other, what becomes of each of its characters. What becomes of a character depends on the
text and on the names found in it alone, not on what was replaced before it. -/
theorem rename_eq_iff_becomes (before range after : Text) (bindings : List Binding)
    (hnames : ∀ b ∈ bindings, IsDotted b.name) :
    let code := before ++ range ++ after
    let start := before.length
    let stop := (before ++ range).length
    (∀ a ∈ bindings, ∀ b ∈ bindings, ∀ i j, a.FoundAt code start stop i →
      b.FoundAt code start stop j → i < j → i + a.name.length ≤ j) ∧
    ∀ out, rename bindings
        (Spot.range (Text.width before) (Text.width (before ++ range)) (spots code)) = out ↔
      ∃ texts, List.Forall₂ (Becomes code start stop bindings) (List.range' start range.length)
        texts ∧ texts.flatten = out := by
  intro code start stop
  refine ⟨fun a ha b _ i j hi hj => hi.apart (hnames a ha) hj, fun out => ?_⟩
  obtain ⟨l, m, r, hcode, hl, hm, -⟩ := exists_spots_eq before range after
  have hrange := range_eq hcode
  rw [Spot.text_append, hl, hm] at hrange
  have hstart : start = l.length := by simp [start, ← hl, Spot.text]
  have hstop : stop = (l ++ m).length := by simp [stop, ← hl, ← hm, Spot.text]
  have hlength : range.length = m.length := by simp [← hm, Spot.text]
  -- No name is found before the stretch, so nothing is left of one at its start.
  have hreaches : Reaches code start stop bindings l.length 0 := by
    refine ⟨fun b _ j hj hfound => ?_, by simp⟩
    obtain ⟨-, -, -, -, hle, -, -⟩ := hfound
    omega
  obtain ⟨texts, htexts, hflatten⟩ := exists_becomes hnames hcode hstart.le hstop hreaches
  rw [← hstart, ← hlength] at htexts
  rw [hrange, rename, ← hflatten]
  constructor
  · rintro rfl
    exact ⟨texts, htexts, rfl⟩
  · rintro ⟨others, hothers, rfl⟩
    rw [List.right_unique_forall₂' (Becomes.unique hnames) htexts hothers]

/-- A dotted name of which the stretch holds all in one place and only the front in another, and a
name that is bound twice, behind a spread, behind a dot and in a string. -/
theorem rename_eq_iff_becomes_dotted :
    let before := "return ".toList
    let range := "module.exports(...x, a.x, 'x', module".toList
    let after := ".exports)".toList
    let bindings : List Binding := [⟨"x".toList, "M_x".toList, 0⟩,
      ⟨"module.exports".toList, "M".toList, 0⟩, ⟨"module".toList, "N".toList, 0⟩,
      ⟨"x".toList, "N_x".toList, 7⟩]
    (∀ b ∈ bindings, IsDotted b.name) ∧
      ∃ texts, List.Forall₂ (Becomes (before ++ range ++ after) 7 44 bindings) (List.range' 7 37)
        texts ∧ texts.flatten = "M(...N_x, a.x, 'x', N".toList := by
  intro before range after bindings
  have hnames : ∀ b ∈ bindings, IsDotted b.name := by decide +kernel
  have hout : rename bindings (Spot.range (Text.width before) (Text.width (before ++ range))
      (spots (before ++ range ++ after))) = "M(...N_x, a.x, 'x', N".toList := by decide +kernel
  exact ⟨hnames, ((rename_eq_iff_becomes before range after bindings hnames).2 _).mp hout⟩

end ScriptBundle
