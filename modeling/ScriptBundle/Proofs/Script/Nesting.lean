import Mathlib.Algebra.GroupWithZero.Nat
import Mathlib.Data.List.Infix
import ScriptBundle.Proofs.Script.Heads
import ScriptBundle.Proofs.Script.Reading
import ScriptBundle.Proofs.Script.Relexing

/-! Blocks within a text. A block whose braces match is read in the text as it is read alone, and
leaves the state of the reading and the open scopes as they were in front of it. -/
namespace ScriptBundle

/-- The braces among marked characters that open and close blocks. -/
def bracesOf (marked : List (Char × Bool)) : Text :=
  (marked.filter fun x => x.2 && isBrace x.1).map (·.1)

theorem blockBraces_eq_bracesOf (code : Text) :
    blockBraces code = bracesOf (code.zip (marks code)) :=
  rfl

theorem bracesOf_cons (x : Char × Bool) (l : List (Char × Bool)) :
    bracesOf (x :: l) = bracesOf [x] ++ bracesOf l := by
  rw [← List.singleton_append]
  simp only [bracesOf, List.filter_append, List.map_append]

def Spot.braces (spots : List Spot) : Text := bracesOf (spots.map fun s => (s.char, s.code))

namespace Spot

variable {s : Spot} (spots : List Spot)

@[simp] theorem braces_append (l r : List Spot) : braces (l ++ r) = braces l ++ braces r := by
  simp [braces, bracesOf]

theorem braces_cons (s : Spot) : braces (s :: spots) = braces [s] ++ braces spots :=
  braces_append [s] spots

theorem braces_open (h : s.isCode '{' = true) : braces [s] = ['{'] := by
  obtain ⟨hcode, hchar⟩ := isCode_iff.mp h
  simp [braces, bracesOf, hcode, hchar, isBrace]

theorem braces_close (h : s.isCode '}' = true) : braces [s] = ['}'] := by
  obtain ⟨hcode, hchar⟩ := isCode_iff.mp h
  simp [braces, bracesOf, hcode, hchar, isBrace]

theorem braces_plain (hopen : s.isCode '{' = false) (hclose : s.isCode '}' = false) :
    braces [s] = [] := by
  simp only [isCode, Bool.and_eq_false_iff, beq_eq_false_iff_ne] at hopen hclose
  rcases hopen with hcode | hopen
  · simp [braces, bracesOf, hcode]
  · rcases hclose with hcode | hclose
    · simp [braces, bracesOf, hcode]
    · simp [braces, bracesOf, isBrace, hopen, hclose]

end Spot

/-- Braces that close no block but those they open and the `n` that are open before them. -/
def Nested (n : Nat) (braces : Text) : Prop :=
  ∀ front, front <+: braces → front.count '}' ≤ n + front.count '{'

instance (n : Nat) (braces : Text) : Decidable (Nested n braces) :=
  decidable_of_iff (∀ front ∈ braces.inits, front.count '}' ≤ n + front.count '{')
    (by simp only [List.mem_inits, Nested])

namespace Nested

variable {n m : Nat} {l r : Text}

theorem left (h : Nested n (l ++ r)) : Nested n l :=
  fun front hfront => h front (hfront.trans (List.prefix_append l r))

theorem right (h : Nested n (l ++ r)) (hm : m + l.count '}' = n + l.count '{') : Nested m r := by
  intro front hfront
  have := h (l ++ front) ((List.prefix_append_right_inj l).mpr hfront)
  simp only [List.count_append] at this
  omega

theorem pos (h : Nested n ['}']) : ∃ k, n = k + 1 := by
  have := h ['}'] List.prefix_rfl
  exact ⟨n - 1, by simp at this; omega⟩

theorem nil (n : Nat) : Nested n [] := by
  intro front hfront
  simp [List.prefix_nil.mp hfront]

theorem mono (h : Nested n l) (hle : n ≤ m) : Nested m l := by
  intro front hfront
  have := h front hfront
  omega

theorem cons_open (h : Nested (n + 1) l) : Nested n ('{' :: l) := by
  intro front hfront
  cases front with
  | nil => simp
  | cons c front =>
    obtain ⟨rfl, hrest⟩ := List.cons_prefix_cons.mp hfront
    have := h front hrest
    simp only [List.count_cons_self, List.count_cons_of_ne (show '{' ≠ '}' by decide)]
    omega

theorem cons_close (h : Nested n l) : Nested (n + 1) ('}' :: l) := by
  intro front hfront
  cases front with
  | nil => simp
  | cons c front =>
    obtain ⟨rfl, hrest⟩ := List.cons_prefix_cons.mp hfront
    have := h front hrest
    simp only [List.count_cons_self, List.count_cons_of_ne (show '}' ≠ '{' by decide)]
    omega

theorem append (hl : Nested n l) (hm : m + l.count '}' = n + l.count '{') (hr : Nested m r) :
    Nested n (l ++ r) := by
  rintro front ⟨after, hafter⟩
  rcases List.append_eq_append_iff.mp hafter with ⟨more, rfl, -⟩ | ⟨more, rfl, hmore⟩
  · exact hl front (List.prefix_append front more)
  · have := hr more ⟨after, hmore.symm⟩
    simp only [List.count_append]
    omega

end Nested

namespace LexState

/-- So many braces more in the innermost interpolation. -/
def raise (n : Nat) : List Nat → List Nat
  | [] => []
  | depth :: outer => (depth + n) :: outer

theorem deepen_eq_raise (depths : List Nat) : deepen depths = raise 1 depths := by
  cases depths <;> rfl

theorem deepen_raise (n : Nat) (depths : List Nat) :
    deepen (raise n depths) = raise (n + 1) depths := by
  cases depths <;> rfl

/-- The state that a text read alone leaves, with `j` of its blocks open, as it is within a block
that is opened inside of the interpolations `base`. -/
def within (base : List Nat) (j : Nat) (s : LexState) : LexState :=
  { s with depths := s.depths ++ raise (j + 1) base }

variable (base : List Nat) {j : Nat} {s : LexState} {c : Char} {next : Option Char}

/-- Where nothing is asked of the depths, a character is read within a block as it is alone. -/
theorem step_within_of_mode (j : Nat) (c : Char) (next : Option Char)
    (h : s.half = true ∨ s.mode ≠ .code) :
    (s.within base j).step c next = ((s.step c next).1, (s.step c next).2.within base j) ∧
      (s.step c next).2.depths.sum = s.depths.sum ∧
      bracesOf [(c, (s.step c next).1)] = [] := by
  obtain ⟨mode, depths, half⟩ := s
  cases half with
  | true => simp [step, within, bracesOf]
  | false =>
    cases mode with
    | code => simp at h
    | quoted quote escaped =>
      simp only [step, within, stepQuoted, Bool.false_eq_true, if_false]
      split_ifs <;> simp [bracesOf]
    | template escaped =>
      simp only [step, within, stepTemplate, Bool.false_eq_true, if_false]
      split_ifs <;> simp [bracesOf]
    | lineComment =>
      simp only [step, within, Bool.false_eq_true, if_false]
      split_ifs with hc <;> simp [bracesOf, hc, isBrace]
    | blockComment =>
      simp only [step, within, Bool.false_eq_true, if_false]
      split_ifs <;> simp [bracesOf]

theorem step_within (h : Nested (j + s.depths.sum) (bracesOf [(c, (s.step c next).1)])) :
    ∃ i, (s.within base j).step c next = ((s.step c next).1, (s.step c next).2.within base i) ∧
      i + (s.step c next).2.depths.sum + (bracesOf [(c, (s.step c next).1)]).count '}' =
        j + s.depths.sum + (bracesOf [(c, (s.step c next).1)]).count '{' := by
  by_cases hs : s.half = true ∨ s.mode ≠ .code
  · obtain ⟨hstep, hsum, hbraces⟩ := s.step_within_of_mode base j c next hs
    exact ⟨j, hstep, by rw [hsum, hbraces]; rfl⟩
  obtain ⟨mode, depths, half⟩ := s
  obtain ⟨rfl, rfl⟩ : half = false ∧ mode = .code := by simpa using hs
  by_cases hopen : c = '{'
  · subst hopen
    cases depths with
    | nil =>
      have hnil : deepen [] = [] := rfl
      exact ⟨j + 1, by simp [step, stepCode, within, deepen_raise, hnil], by
        simp [step, stepCode, hnil, bracesOf, isBrace]⟩
    | cons depth outer => exact ⟨j, by simp [step, stepCode, within, deepen], by
        simp [step, stepCode, deepen, bracesOf, isBrace]; omega⟩
  by_cases hclose : c = '}'
  · subst hclose
    cases depths with
    | nil =>
      -- The brace closes a block that was opened within the block.
      obtain ⟨k, rfl⟩ : ∃ k, j = k + 1 := by simpa [step, stepCode, bracesOf, isBrace] using h.pos
      cases base with
      | nil => exact ⟨k, by simp [step, stepCode, within, raise], by
          simp [step, stepCode, bracesOf, isBrace]⟩
      | cons depth outer => exact ⟨k, by simp [step, stepCode, within, raise, ← Nat.add_assoc], by
          simp [step, stepCode, bracesOf, isBrace]⟩
    | cons depth outer =>
      cases depth with
      | zero => exact ⟨j, by simp [step, stepCode, within], by
          simp [step, stepCode, bracesOf, isBrace]⟩
      | succ depth => exact ⟨j, by simp [step, stepCode, within], by
          simp [step, stepCode, bracesOf, isBrace]; omega⟩
  · refine ⟨j, ?_, ?_⟩
    · simp only [step, stepCode, within, hopen, hclose, Bool.false_eq_true, if_false]
      split_ifs <;> rfl
    · have hbraces : ∀ mark, bracesOf [(c, mark)] = [] := fun mark => by
        simp [bracesOf, isBrace, hopen, hclose]
      rw [hbraces]
      simp only [step, stepCode, hopen, hclose, Bool.false_eq_true, if_false]
      split_ifs <;> rfl

theorem behind_within {x : Text}
    (h : Nested (j + s.depths.sum) (bracesOf (x.zip (marksBefore next s x)))) :
    marksBefore next (s.within base j) x = marksBefore next s x ∧
      ∃ i, (s.within base j).behind x next = (s.behind x next).within base i ∧
        i + (s.behind x next).depths.sum + (bracesOf (x.zip (marksBefore next s x))).count '}' =
          j + s.depths.sum + (bracesOf (x.zip (marksBefore next s x))).count '{' := by
  induction x generalizing s j with
  | nil => exact ⟨rfl, j, rfl, rfl⟩
  | cons c x ih =>
    simp only [marksBefore, List.zip_cons_cons] at h ⊢
    rw [bracesOf_cons] at h ⊢
    obtain ⟨k, hstep, hk⟩ := step_within base h.left
    obtain ⟨hmarks, i, hbehind, hi⟩ := ih (h.right hk)
    refine ⟨by rw [hstep, hmarks], i, by simp only [behind, hstep, hbehind], ?_⟩
    simp only [behind, List.count_append]
    omega

theorem step_isBrace {d : Char} (hd : isBrace d = true) (s : LexState) (next : Option Char) :
    s.step d next = s.step d none := by
  rcases eq_of_isBrace hd with rfl | rfl <;> simp [step, stepCode, stepTemplate]

theorem step_of_mode_code (h : (s.step c none).2.mode = .code) :
    s.step c (some '{') = s.step c none := by
  obtain ⟨mode, depths, half⟩ := s
  cases mode with
  | template escaped =>
    cases half with
    | true => rfl
    | false =>
      simp only [step, stepTemplate, Bool.false_eq_true, if_false] at h ⊢
      split_ifs at h ⊢ <;> simp_all
  | _ => simp [step, stepCode]

theorem behind_of_mode_code {x : Text} (h : (s.behind x none).mode = .code) :
    s.behind x (some '{') = s.behind x none := by
  induction x generalizing s with
  | nil => rfl
  | cons c x ih =>
    cases x with
    | nil => exact congrArg Prod.snd (step_of_mode_code h)
    | cons d x => exact ih h

theorem inCode_behind {x : Text} (h : (start.behind x none).mode = .code) :
    (start.behind x none).InCode := by
  refine ⟨h, ?_⟩
  cases x with
  | nil => rfl
  | cons c x => exact half_behind (List.cons_ne_nil c x) (by simp)

theorem step_open (hs : s.InCode) (next : Option Char) :
    s.step '{' next = (true, start.within s.depths 0) := by
  obtain ⟨mode, depths, half⟩ := s
  obtain ⟨rfl, rfl⟩ := hs
  simp [step, stepCode, start, within, deepen_eq_raise]

theorem step_close (hs : s.InCode) (next : Option Char) :
    (start.within s.depths 0).step '}' next = (true, s) := by
  obtain ⟨mode, depths, half⟩ := s
  obtain ⟨rfl, rfl⟩ := hs
  cases depths <;> simp [step, stepCode, start, within, raise]

end LexState

/-- Read alone, the text ends in code and within no interpolation, and in none of its parts are more
blocks closed than opened, nor are there in the whole of it. -/
structure Text.Balanced (t : Text) : Prop where
  code : (LexState.start.behind t none).mode = .code
  depths : (LexState.start.behind t none).depths = []
  nested : Nested 0 (blockBraces t)
  even : (blockBraces t).count '}' = (blockBraces t).count '{'

theorem Text.balanced_iff (t : Text) : t.Balanced ↔
    ((LexState.start.behind t none).mode = .code ∧ (LexState.start.behind t none).depths = []) ∧
      Nested 0 (blockBraces t) ∧ (blockBraces t).count '}' = (blockBraces t).count '{' :=
  ⟨fun h => ⟨⟨h.code, h.depths⟩, h.nested, h.even⟩, fun h => ⟨h.1.1, h.1.2, h.2.1, h.2.2⟩⟩

instance (t : Text) : Decidable t.Balanced := decidable_of_iff _ t.balanced_iff.symm

namespace Text.Balanced

variable {block : Text}

theorem marksBefore_eq (block : Text) : marksBefore (some '}') .start block = marks block :=
  marksBefore_eq_of_not_isSecondHalf _ _ (by simp [LexState.isSecondHalf])

theorem behind (h : block.Balanced) : LexState.start.behind block (some '}') = .start := by
  rw [LexState.behind_eq_of_not_isSecondHalf _ _ (by simp [LexState.isSecondHalf])]
  obtain ⟨hmode, hhalf⟩ := LexState.inCode_behind h.code
  have hdepths := h.depths
  generalize LexState.start.behind block none = s at hmode hhalf hdepths
  obtain ⟨mode, depths, half⟩ := s
  simp only at hmode hhalf hdepths
  rw [hmode, hhalf, hdepths, LexState.start]

/-- Such a block is marked within other text as it is alone, and is as open behind as before. -/
theorem within (h : block.Balanced) (base : List Nat) :
    marksBefore (some '}') (LexState.start.within base 0) block = marks block ∧
      (LexState.start.within base 0).behind block (some '}') = LexState.start.within base 0 := by
  have hmarks := marksBefore_eq block
  have hnested : Nested (0 + LexState.start.depths.sum)
      (bracesOf (block.zip (marksBefore (some '}') .start block))) := by
    rw [hmarks]
    exact h.nested
  obtain ⟨hwithin, i, hbehind, hi⟩ := LexState.behind_within base hnested
  have heven := h.even
  rw [h.behind, hmarks, ← blockBraces_eq_bracesOf] at hi
  obtain rfl : i = 0 := by omega
  exact ⟨hwithin.trans hmarks, by rw [hbehind, h.behind]⟩

end Text.Balanced

namespace Scopes

theorem meet_brace_congr (id : ModuleId) (scopes : Scopes) {s s' : Spot}
    (hbrace : isBrace s.char = true) (hchar : s.char = s'.char) (hcode : s.code = s'.code) :
    scopes.meet id s = scopes.meet id s' := by
  have hnone := Spot.declaration?_eq_none hbrace
  have hnone' := Spot.declaration?_eq_none (hchar ▸ hbrace)
  simp only [meet, declare, Spot.isCode, hchar, hcode, hnone, hnone']

theorem foldl_meet_nested (id : ModuleId) (top : List Binding) (inner base : List (List Binding))
    {spots : List Spot} (h : Nested inner.length (Spot.braces spots)) :
    ∃ top' inner', spots.foldl (meet id) ⟨top, inner ++ base⟩ = ⟨top', inner' ++ base⟩ ∧
      inner'.length + (Spot.braces spots).count '}' =
        inner.length + (Spot.braces spots).count '{' := by
  induction spots generalizing top inner with
  | nil => exact ⟨top, inner, rfl, rfl⟩
  | cons s spots ih =>
    rw [Spot.braces_cons] at h ⊢
    have hstep : ∃ top' inner', meet id ⟨top, inner ++ base⟩ s = ⟨top', inner' ++ base⟩ ∧
        inner'.length + (Spot.braces [s]).count '}' =
          inner.length + (Spot.braces [s]).count '{' := by
      rcases s.brace_cases with hopen | hclose | ⟨hopen, hclose⟩
      · rw [meet_open id _ hopen, Spot.braces_open hopen]
        exact ⟨top, top :: inner, rfl, by simp⟩
      · have hpos := h.left
        rw [Spot.braces_close hclose] at hpos ⊢
        obtain ⟨k, hk⟩ := hpos.pos
        obtain ⟨outer, inner, rfl⟩ := List.exists_cons_of_length_eq_add_one hk
        exact ⟨outer, inner, by rw [meet_close id _ hclose]; rfl, by simp⟩
      · rw [meet_plain id _ hopen hclose, Spot.braces_plain hopen hclose]
        exact ⟨_, inner, rfl, rfl⟩
    obtain ⟨top₁, inner₁, hmeet, hcount⟩ := hstep
    obtain ⟨top₂, inner₂, hfold, hcount'⟩ := ih top₁ inner₁ (h.right hcount)
    refine ⟨top₂, inner₂, by rw [List.foldl_cons, hmeet, hfold], ?_⟩
    simp only [List.count_append]
    omega

end Scopes
end ScriptBundle
