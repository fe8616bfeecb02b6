import Mathlib.Data.List.Basic
import ScriptBundle.Script.Spot

/-! Reading a text in parts. What is read of one part before another is its own marks and a state in
which the other is read; of the other part only the first character is seen ahead, and only where it
can be the second half of a delimiter. -/
namespace ScriptBundle

namespace LexState

/-- The state behind a text that `next` comes after. -/
def behind (s : LexState) : Text → Option Char → LexState
  | [], _ => s
  | c :: rest, next => behind (s.step c (rest.head?.or next)).2 rest next

/-- A character that can be the second half of a delimiter. -/
def isSecondHalf (c : Char) : Bool := c == '/' || c == '*' || c == '{'

variable {s : LexState} {c : Char} {next : Option Char} {x : Text}

theorem behind_append (s : LexState) (x y : Text) (next : Option Char) :
    s.behind (x ++ y) next = (s.behind x (y.head?.or next)).behind y next := by
  induction x generalizing s with
  | nil => rfl
  | cons c x ih => simp only [List.cons_append, behind, ih, List.head?_append, Option.or_assoc]

theorem step_eq_of_not_isSecondHalf (s : LexState) (c : Char)
    (h : ∀ n ∈ next, isSecondHalf n = false) : s.step c next = s.step c none := by
  have hne : ∀ {d}, isSecondHalf d = true → next ≠ some d := by
    rintro d hd rfl
    simp [hd] at h
  simp only [step, stepCode, stepTemplate, hne (d := '/') rfl, hne (d := '*') rfl,
    hne (d := '{') rfl, reduceCtorEq]

theorem behind_eq_of_not_isSecondHalf (s : LexState) (x : Text)
    (h : ∀ n ∈ next, isSecondHalf n = false) : s.behind x next = s.behind x none := by
  induction x generalizing s with
  | nil => rfl
  | cons c x ih =>
    cases x with
    | nil => simp only [behind, List.head?_nil, Option.none_or, s.step_eq_of_not_isSecondHalf c h]
    | cons d x => exact ih _

theorem half_step_none (s : LexState) (c : Char) : (s.step c none).2.half = false := by
  cases hhalf : s.half with
  | true => simp [step, hhalf]
  | false =>
    cases hmode : s.mode with
    | code =>
      rcases hdepths : s.depths with _ | ⟨_ | depth, outer⟩ <;>
        simp only [step, hhalf, hmode, hdepths, stepCode, Bool.false_eq_true, if_false] <;>
        split_ifs <;> simp_all
    | quoted quote escaped =>
      simp only [step, hhalf, hmode, stepQuoted, Bool.false_eq_true, if_false]
      split_ifs <;> simp [hhalf]
    | template escaped =>
      simp only [step, hhalf, hmode, stepTemplate, Bool.false_eq_true, if_false]
      split_ifs <;> simp_all
    | lineComment =>
      simp only [step, hhalf, hmode, Bool.false_eq_true, if_false]
      split_ifs <;> simp [hhalf]
    | blockComment => simp [step, hhalf, hmode]

theorem half_behind (hx : x ≠ []) (h : ∀ n ∈ next, isSecondHalf n = false) :
    (s.behind x next).half = false := by
  rw [behind_eq_of_not_isSecondHalf s x h]
  induction x generalizing s with
  | nil => exact absurd rfl hx
  | cons c x ih =>
    cases x with
    | nil => exact s.half_step_none c
    | cons d x => exact ih (List.cons_ne_nil d x)

end LexState

def marksBefore (next : Option Char) (s : LexState) : Text → List Bool
  | [] => []
  | c :: rest =>
    (s.step c (rest.head?.or next)).1 ::
      marksBefore next (s.step c (rest.head?.or next)).2 rest

theorem marksBefore_none (s : LexState) (x : Text) : marksBefore none s x = marksFrom s x := by
  induction x generalizing s with
  | nil => rfl
  | cons c x ih => simp only [marksBefore, marksFrom, Option.or_none, ih]

theorem marksBefore_append (next : Option Char) (s : LexState) (x y : Text) :
    marksBefore next s (x ++ y) =
      marksBefore (y.head?.or next) s x ++
        marksBefore next (s.behind x (y.head?.or next)) y := by
  induction x generalizing s with
  | nil => rfl
  | cons c x ih =>
    simp only [List.cons_append, marksBefore, LexState.behind, ih, List.head?_append,
      Option.or_assoc]

theorem marksFrom_append (s : LexState) (x y : Text) :
    marksFrom s (x ++ y) = marksBefore y.head? s x ++ marksFrom (s.behind x y.head?) y := by
  simp only [← marksBefore_none, marksBefore_append, Option.or_none]

theorem marksBefore_eq_of_not_isSecondHalf {next : Option Char} (s : LexState) (x : Text)
    (h : ∀ n ∈ next, LexState.isSecondHalf n = false) :
    marksBefore next s x = marksFrom s x := by
  induction x generalizing s with
  | nil => rfl
  | cons c x ih =>
    cases x with
    | nil =>
      simp only [marksBefore, marksFrom, List.head?_nil, Option.none_or,
        s.step_eq_of_not_isSecondHalf c h]
    | cons d x => exact congrArg _ (ih _)

def spotsBefore (rest : Text) (s : LexState) (before : Text) (offset : Nat) : Text → List Spot
  | [] => []
  | c :: more =>
    ⟨before, c, more ++ rest, offset, (s.step c (more.head?.or rest.head?)).1⟩ ::
      spotsBefore rest (s.step c (more.head?.or rest.head?)).2 (c :: before)
        (offset + c.utf8Size) more

theorem spotsFrom_append (s : LexState) (before : Text) (offset : Nat) (x y : Text) :
    spotsFrom s before offset (x ++ y) =
      spotsBefore y s before offset x ++
        spotsFrom (s.behind x y.head?) (x.reverse ++ before) (offset + Text.width x) y := by
  induction x generalizing s before offset with
  | nil => rfl
  | cons c x ih =>
    simp only [List.cons_append, spotsFrom, spotsBefore, LexState.behind, ih, List.head?_append,
      List.reverse_cons, List.append_assoc, List.nil_append, Text.width_cons, Nat.add_assoc]

@[simp] theorem text_spotsBefore (rest : Text) (s : LexState) (before : Text) (offset : Nat)
    (x : Text) : Spot.text (spotsBefore rest s before offset x) = x := by
  induction x generalizing s before offset with
  | nil => rfl
  | cons c x ih => simpa [spotsBefore, Spot.text] using ih _ _ _

theorem map_spotsBefore (rest : Text) (s : LexState) (before : Text) (offset : Nat) (x : Text) :
    (spotsBefore rest s before offset x).map (fun s => (s.char, s.code)) =
      x.zip (marksBefore rest.head? s x) := by
  induction x generalizing s before offset with
  | nil => rfl
  | cons c x ih => simp only [spotsBefore, marksBefore, List.map_cons, List.zip_cons_cons, ih]

end ScriptBundle
