import ScriptBundle.Text.Basic

/-! Reading a text by byte offsets. A text can be cut where a character begins and where it ends
itself; a slice at any other offset, within a character or behind the end, is refused. A loop that
reads on by such slices is run round by round, and ends when each round leaves less to be read. -/
namespace ScriptBundle

namespace Text

/-- The parts of the text before and behind a byte offset at which it can be cut. -/
def splitAt? : Text → Nat → Option (Text × Text)
  | [], offset => if offset = 0 then some ([], []) else none
  | c :: rest, offset =>
    if offset = 0 then some ([], c :: rest)
    else if c.utf8Size ≤ offset then
      (splitAt? rest (offset - c.utf8Size)).map fun (x, y) => (c :: x, y)
    else none

/-- A character begins at the byte offset, or the text ends there. -/
def IsCut (text : Text) (offset : Nat) : Prop := ∃ x y, text = x ++ y ∧ width x = offset

def from? (text : Text) (start : Nat) : Option Text := (text.splitAt? start).map (·.2)

def upTo? (text : Text) (stop : Nat) : Option Text := (text.splitAt? stop).map (·.1)

def slice? (text : Text) (start stop : Nat) : Option Text := (text.upTo? stop).bind (·.from? start)

/-- The offset at which a word first stands in the text. -/
def offsetOf? : Text → Text → Option Nat
  | [], word => if word = [] then some 0 else none
  | c :: rest, word =>
    if word <+: c :: rest then some 0 else (offsetOf? rest word).map (c.utf8Size + ·)

variable {text word x y z x' y' : Text} {offset start stop : Nat}

theorem splitAt?_append (x y : Text) : (x ++ y).splitAt? (width x) = some (x, y) := by
  induction x with
  | nil => cases y <;> simp [splitAt?]
  | cons c x ih =>
    have hpos := c.utf8Size_pos
    rw [List.cons_append, width_cons, splitAt?, if_neg (by omega), if_pos (by omega),
      Nat.add_sub_cancel_left, ih]
    rfl

theorem of_splitAt? (h : text.splitAt? offset = some (x, y)) :
    text = x ++ y ∧ width x = offset := by
  induction text generalizing offset x with
  | nil =>
    rw [splitAt?] at h
    split at h
    · next hzero =>
      obtain ⟨rfl, rfl⟩ := Prod.mk.inj (Option.some.inj h)
      exact ⟨rfl, hzero.symm⟩
    · cases h
  | cons c text ih =>
    rw [splitAt?] at h
    split at h
    · next hzero =>
      obtain ⟨rfl, rfl⟩ := Prod.mk.inj (Option.some.inj h)
      exact ⟨rfl, hzero.symm⟩
    · split at h
      · next hle =>
        obtain ⟨⟨x', y'⟩, hsplit, heq⟩ := Option.map_eq_some_iff.mp h
        obtain ⟨rfl, rfl⟩ := Prod.mk.inj heq
        obtain ⟨rfl, hwidth⟩ := ih hsplit
        refine ⟨rfl, ?_⟩
        rw [width_cons, hwidth]
        omega
      · cases h

theorem length_le_width (t : Text) : t.length ≤ width t := by
  induction t with
  | nil => exact Nat.le_refl 0
  | cons c t ih =>
    have := c.utf8Size_pos
    rw [List.length_cons, width_cons]
    omega

theorem width_eq_zero : width text = 0 ↔ text = [] := by
  cases text with
  | nil => simp
  | cons c text =>
    have := c.utf8Size_pos
    simp only [width_cons, reduceCtorEq, iff_false]
    omega

theorem exists_between (h : x ++ y = x' ++ y') (hwidth : width x < width x') :
    ∃ between, between ≠ [] ∧ x' = x ++ between ∧ y = between ++ y' := by
  rcases List.append_eq_append_iff.mp h with ⟨between, rfl, rfl⟩ | ⟨between, rfl, rfl⟩
  · refine ⟨between, ?_, rfl, rfl⟩
    rintro rfl
    simp at hwidth
  · simp only [width_append] at hwidth
    omega

theorem append_inj_of_width (h : x ++ y = x' ++ y') (hwidth : width x = width x') :
    x = x' ∧ y = y' := by
  rcases List.append_eq_append_iff.mp h with ⟨between, rfl, rfl⟩ | ⟨between, rfl, rfl⟩
  all_goals
    obtain rfl : between = [] := width_eq_zero.mp (by simp only [width_append] at hwidth; omega)
    simp

theorem isCut_append (x y : Text) : (x ++ y).IsCut (width x) := ⟨x, y, rfl, rfl⟩

theorem isCut_iff_isSome : text.IsCut offset ↔ (text.splitAt? offset).isSome = true := by
  constructor
  · rintro ⟨x, y, rfl, rfl⟩
    rw [splitAt?_append]
    rfl
  · intro h
    obtain ⟨⟨x, y⟩, hsplit⟩ := Option.isSome_iff_exists.mp h
    obtain ⟨htext, hwidth⟩ := of_splitAt? hsplit
    exact ⟨x, y, htext, hwidth⟩

instance (text : Text) (offset : Nat) : Decidable (text.IsCut offset) :=
  decidable_of_iff _ isCut_iff_isSome.symm

@[simp] theorem from?_append (x y : Text) : (x ++ y).from? (width x) = some y := by
  simp [from?, splitAt?_append]

@[simp] theorem upTo?_append (x y : Text) : (x ++ y).upTo? (width x) = some x := by
  simp [upTo?, splitAt?_append]

theorem slice?_append (x y z : Text) :
    (x ++ y ++ z).slice? (width x) (width (x ++ y)) = some y := by
  rw [slice?, upTo?_append, Option.bind_some, from?_append]

/-- The second byte belongs to the same character as the third, so nothing is sliced there. -/
example : Text.slice? "aé".toList 1 2 = none ∧ Text.slice? "aé".toList 1 3 = some ['é'] := by decide

theorem offsetOf?_cases (text word : Text) :
    text.offsetOf? word = none ∧ ¬ word <:+: text ∨
      ∃ x y, text = x ++ (word ++ y) ∧ text.offsetOf? word = some (width x) ∧
        ∀ u v, x = u ++ v → v ≠ [] → ¬ word <+: v ++ (word ++ y) := by
  induction text with
  | nil =>
    rw [offsetOf?]
    split
    · next hword =>
      subst hword
      exact Or.inr ⟨[], [], rfl, rfl,
        fun u v huv hv => absurd (List.append_eq_nil_iff.mp huv.symm).2 hv⟩
    · next hword => exact Or.inl ⟨rfl, by rwa [List.infix_nil]⟩
  | cons c text ih =>
    rw [offsetOf?]
    split
    · next hprefix =>
      obtain ⟨y, hy⟩ := hprefix
      exact Or.inr ⟨[], y, hy.symm, rfl,
        fun u v huv hv => absurd (List.append_eq_nil_iff.mp huv.symm).2 hv⟩
    · next hprefix =>
      rcases ih with ⟨hnone, hnot⟩ | ⟨x, y, rfl, hsome, hfirst⟩
      · rw [hnone]
        exact Or.inl ⟨rfl, fun h => (List.infix_cons_iff.mp h).elim hprefix hnot⟩
      · rw [hsome]
        refine Or.inr ⟨c :: x, y, rfl, rfl, fun u v huv hv => ?_⟩
        cases u with
        | nil =>
          obtain rfl : c :: x = v := huv
          exact hprefix
        | cons d u => exact hfirst u v (List.cons.inj huv).2 hv

theorem offsetOf?_singleton_cases (text : Text) (c : Char) :
    text.offsetOf? [c] = none ∧ c ∉ text ∨
      ∃ x y, text = x ++ c :: y ∧ text.offsetOf? [c] = some (width x) ∧ c ∉ x := by
  rcases offsetOf?_cases text [c] with ⟨hnone, hnot⟩ | ⟨x, y, htext, hsome, hfirst⟩
  · refine Or.inl ⟨hnone, fun hc => hnot ?_⟩
    obtain ⟨x, y, rfl⟩ := List.append_of_mem hc
    exact ⟨x, y, by simp⟩
  · refine Or.inr ⟨x, y, htext, hsome, fun hc => ?_⟩
    obtain ⟨u, v, rfl⟩ := List.append_of_mem hc
    exact hfirst u (c :: v) rfl (List.cons_ne_nil c v) ⟨v ++ ([c] ++ y), rfl⟩

end Text

/-- What a round of a loop comes to: the state for the next one, or the result. -/
inductive Round (σ α : Type)
  | next (s : σ)
  | done (a : α)

namespace Round

variable {σ α : Type} {round : σ → Option (Round σ α)} {s s' : σ} {result : α}

/-- What up to `n` rounds come to, when none of them fails. -/
def run (round : σ → Option (Round σ α)) : Nat → σ → Option (Round σ α)
  | 0, s => some (.next s)
  | n + 1, s =>
    match round s with
    | some (.next s) => run round n s
    | stopped => stopped

/-- In a state with `P` a round ends the loop with the result, or leads to another such state in
which less is left. -/
def Advances (round : σ → Option (Round σ α)) (P : σ → Prop) (left : σ → Nat) (result : α) : Prop :=
  ∀ s, P s → round s = some (.done result) ∨
    ∃ s', round s = some (.next s') ∧ P s' ∧ left s' < left s

variable {P : σ → Prop} {left : σ → Nat}

theorem Advances.next (h : Advances round P left result) {n : Nat} (hs : P s)
    (hrun : run round n s = some (.next s')) : P s' ∧ left s' + n ≤ left s := by
  induction n generalizing s with
  | zero =>
    obtain rfl : s = s' := by simpa [run] using hrun
    exact ⟨hs, Nat.le_refl _⟩
  | succ n ih =>
    rw [run] at hrun
    rcases h s hs with hdone | ⟨t, hnext, ht, hlt⟩
    · simp [hdone] at hrun
    · rw [hnext] at hrun
      obtain ⟨hs', hle⟩ := ih ht hrun
      exact ⟨hs', by omega⟩

theorem Advances.done (h : Advances round P left result) {n : Nat} (hs : P s) (hn : left s < n) :
    run round n s = some (.done result) := by
  induction n generalizing s with
  | zero => omega
  | succ n ih =>
    rw [run]
    rcases h s hs with hdone | ⟨t, hnext, ht, hlt⟩
    · rw [hdone]
    · rw [hnext]
      exact ih ht (by omega)

end Round
end ScriptBundle
