import ScriptBundle.Proofs.Script.Declaring

/-! Comments, and the text without them. Each byte of a comment gives way to a space, so all else
keeps its place. The text without comments is read as the text itself: where a comment is read in
the one, spaces are read as code in the other, and behind it the states are the same again. -/
namespace ScriptBundle

namespace LexState

/-- Whether what comes next is the rest of a comment, `next` first. -/
def inComment (s : LexState) (next : Option Char) : Bool :=
  match s.mode with
  | .lineComment | .blockComment => true
  | .code => s.half && next == some '/'
  | _ => false

/-- Whether the character `c`, with `next` after it, belongs to a comment. The newline behind a
comment does not. -/
def comments (s : LexState) (c : Char) (next : Option Char) : Bool :=
  match s.mode with
  | .lineComment => c != '\n'
  | .blockComment => true
  | .code => c == '/' && (s.half || next == some '/' || next == some '*')
  | _ => false

/-- The state in which the text without comments is read. -/
def uncommented (s : LexState) (next : Option Char) : LexState :=
  if s.inComment next then ⟨.code, s.depths, false⟩ else s

/-- Where the second half of a delimiter is awaited, it comes. -/
def Fits (s : LexState) (next : Option Char) : Prop :=
  s.half = true → match s.mode with
    | .lineComment => next = some '/'
    | .blockComment => next = some '*'
    | .code => next = some '/' ∨ next = some '{'
    | _ => False

variable {s : LexState} {c : Char} {next : Option Char}

theorem fits_start (next : Option Char) : start.Fits next := by
  intro h
  cases h

theorem fits_of_half (h : s.half = false) (next : Option Char) : s.Fits next := by
  intro hhalf
  rw [h] at hhalf
  cases hhalf

theorem fits_step (s : LexState) (c : Char) (next : Option Char) : (s.step c next).2.Fits next := by
  rcases s with ⟨mode, depths, _ | _⟩
  · cases mode with
    | code =>
      rcases depths with _ | ⟨_ | depth, outer⟩ <;>
        simp only [step, stepCode, Bool.false_eq_true, if_false] <;> split_ifs <;> simp_all [Fits]
    | quoted quote escaped =>
      simp only [step, stepQuoted, Bool.false_eq_true, if_false]
      split_ifs <;> exact fits_of_half rfl next
    | template escaped =>
      simp only [step, stepTemplate, Bool.false_eq_true, if_false]
      split_ifs <;> simp_all [Fits]
    | lineComment =>
      simp only [step, Bool.false_eq_true, if_false]
      split_ifs <;> exact fits_of_half rfl next
    | blockComment =>
      simp only [step, Bool.false_eq_true, if_false]
      split_ifs <;> simp_all [Fits]
  · exact fits_of_half rfl next

/-- A comment is no code, and without it the state is the same before each of its characters. -/
theorem step_comments (h : s.comments c next = true) :
    (s.step c next).1 = false ∧ (s.uncommented (some c)).InCode ∧
      (s.step c next).2.uncommented next = s.uncommented (some c) := by
  rcases s with ⟨mode, depths, _ | _⟩
  · cases mode with
    | code =>
      simp only [comments, Bool.false_or, Bool.and_eq_true, Bool.or_eq_true, beq_iff_eq] at h
      obtain ⟨rfl, rfl | rfl⟩ := h <;> simp [step, stepCode, uncommented, inComment, InCode]
    | quoted quote escaped => cases h
    | template escaped => cases h
    | lineComment =>
      have hc : c ≠ '\n' := by simpa [comments] using h
      simp [step, hc, uncommented, inComment, InCode]
    | blockComment =>
      by_cases hend : c = '*' ∧ next = some '/'
      · simp [step, hend, uncommented, inComment, InCode]
      · simp [step, hend, uncommented, inComment, InCode]
  · cases mode with
    | code =>
      simp only [comments, Bool.true_or, Bool.and_true, beq_iff_eq] at h
      subst h
      simp [step, uncommented, inComment, InCode]
    | quoted quote escaped => cases h
    | template escaped => cases h
    | lineComment => simp [step, uncommented, inComment, InCode]
    | blockComment => simp [step, uncommented, inComment, InCode]

theorem eq_brace_of_half (hs : s.Fits (some c)) (h : s.comments c next = false)
    (hhalf : s.half = true) : s.mode = .code ∧ c = '{' := by
  have hfits := hs hhalf
  cases hmode : s.mode <;> simp_all [comments]

theorem inComment_step (hs : s.Fits (some c)) (h : s.comments c next = false) :
    (s.step c next).2.inComment next = false := by
  by_cases hhalf : s.half = true
  · obtain ⟨hmode, rfl⟩ := eq_brace_of_half hs h hhalf
    simp [step, hhalf, inComment, hmode]
  rw [Bool.not_eq_true] at hhalf
  rcases s with ⟨mode, depths, half⟩
  obtain rfl : half = false := hhalf
  cases mode with
  | code =>
    rcases depths with _ | ⟨_ | depth, outer⟩ <;>
      simp only [step, stepCode, Bool.false_eq_true, if_false] <;> split_ifs <;>
      simp_all [inComment, comments]
  | quoted quote escaped =>
    simp only [step, stepQuoted, Bool.false_eq_true, if_false]
    split_ifs <;> simp [inComment]
  | template escaped =>
    simp only [step, stepTemplate, Bool.false_eq_true, if_false]
    split_ifs <;> simp_all [inComment]
  | lineComment =>
    obtain rfl : c = '\n' := by simpa [comments] using h
    simp [step, inComment]
  | blockComment => cases h

theorem step_uncommented {next' : Option Char} (hs : s.Fits (some c))
    (h : s.comments c next = false)
    (hnext : next' = next ∨ next = some '/' ∧ next' = some ' ') :
    (s.uncommented (some c)).step c next' = s.step c next := by
  by_cases hhalf : s.half = true
  · obtain ⟨hmode, rfl⟩ := eq_brace_of_half hs h hhalf
    simp [step, hhalf, uncommented, inComment, hmode]
  rw [Bool.not_eq_true] at hhalf
  rcases s with ⟨mode, depths, half⟩
  obtain rfl : half = false := hhalf
  cases mode with
  | code =>
    rcases hnext with rfl | ⟨rfl, rfl⟩
    · simp [uncommented, inComment]
    · have hc : c ≠ '/' := by simpa [comments] using h
      simp [uncommented, inComment, step, stepCode, hc]
  | quoted quote escaped => rfl
  | template escaped =>
    rcases hnext with rfl | ⟨rfl, rfl⟩
    · rfl
    · simp [uncommented, inComment, step, stepTemplate]
  | lineComment =>
    obtain rfl : c = '\n' := by simpa [comments] using h
    simp [uncommented, inComment, step, stepCode]
  | blockComment => cases h

theorem eq_newline (h : s.inComment (some c) = true) (h' : s.comments c next = false) :
    c = '\n' := by
  cases hmode : s.mode <;> simp_all [comments, inComment]

theorem inComment_or_eq_slash (h : s.comments c next = true) :
    (s.step c next).2.inComment next = true ∨ c = '/' := by
  rcases s with ⟨mode, depths, _ | _⟩
  · cases mode with
    | code => exact Or.inr (by simpa using (Bool.and_eq_true_iff.mp h).1)
    | quoted quote escaped => cases h
    | template escaped => cases h
    | lineComment =>
      have hc : c ≠ '\n' := by simpa [comments] using h
      simp [step, hc, inComment]
    | blockComment => by_cases hend : c = '*' ∧ next = some '/' <;> simp [step, hend, inComment]
  · cases mode with
    | code => exact Or.inr (by simpa using (Bool.and_eq_true_iff.mp h).1)
    | quoted quote escaped => cases h
    | template escaped => cases h
    | lineComment => simp [step, inComment]
    | blockComment => simp [step, inComment]

theorem uncommented_of_not_inComment (h : s.inComment next = false) : s.uncommented next = s := by
  rw [uncommented, h, if_neg Bool.false_ne_true]

theorem not_inComment (hs : s.InCode) (next : Option Char) : s.inComment next = false := by
  simp [inComment, hs.1, hs.2]

theorem comments_of_ne (hs : s.inComment (some c) = false) (hc : c ≠ '/') (next : Option Char) :
    s.comments c next = false := by
  cases hmode : s.mode <;> simp_all [comments, inComment]

theorem step_congr_head (s : LexState) (c : Char) {next' : Option Char}
    (h : next' = next ∨ ∃ a b, next = some a ∧ next' = some b ∧ isNameChar a = true ∧
      isNameChar b = true) :
    s.step c next' = s.step c next ∧ s.comments c next' = s.comments c next := by
  rcases h with rfl | ⟨a, b, rfl, rfl, ha, hb⟩
  · exact ⟨rfl, rfl⟩
  · refine ⟨s.step_congr_next c hb ha, ?_⟩
    have hne : ∀ {e d}, isNameChar e = true → isNameChar d = false → (some e == some d) = false :=
      fun he hd => beq_eq_false_iff_ne.mpr fun h => ne_of_isNameChar he hd (Option.some.inj h)
    simp only [comments, hne ha (d := '/') rfl, hne ha (d := '*') rfl, hne hb (d := '/') rfl,
      hne hb (d := '*') rfl]

end LexState

def commentMarksFrom (s : LexState) : Text → List Bool
  | [] => []
  | c :: rest => s.comments c rest.head? :: commentMarksFrom (s.step c rest.head?).2 rest

/-- The text with a space for each byte of its comments. -/
def blankFrom (s : LexState) : Text → Text
  | [] => []
  | c :: rest =>
    (if s.comments c rest.head? then List.replicate c.utf8Size ' ' else [c]) ++
      blankFrom (s.step c rest.head?).2 rest

def blankComments (code : Text) : Text := blankFrom .start code

section

variable {s : LexState} {c : Char} {x rest : Text}

theorem blankFrom_comment (h : s.comments c rest.head? = true) : blankFrom s (c :: rest) =
    List.replicate c.utf8Size ' ' ++ blankFrom (s.step c rest.head?).2 rest := by
  rw [blankFrom, if_pos h]

theorem blankFrom_other (h : s.comments c rest.head? = false) :
    blankFrom s (c :: rest) = c :: blankFrom (s.step c rest.head?).2 rest := by
  rw [blankFrom, if_neg (by simp [h])]
  rfl

theorem head?_blankFrom_comment (h : s.comments c rest.head? = true) :
    (blankFrom s (c :: rest)).head? = some ' ' := by
  obtain ⟨n, hn⟩ := Nat.exists_eq_succ_of_ne_zero c.utf8Size_pos.ne'
  rw [blankFrom_comment h, hn, List.replicate_succ]
  rfl

/-- Where no comment goes on, the text without comments begins as the text does, or with a space
where a comment begins. -/
theorem head?_blankFrom (hs : s.inComment x.head? = false) : (blankFrom s x).head? = x.head? ∨
    x.head? = some '/' ∧ (blankFrom s x).head? = some ' ' := by
  cases x with
  | nil => exact Or.inl rfl
  | cons c rest =>
    cases h : s.comments c rest.head? with
    | false =>
      rw [blankFrom_other h]
      exact Or.inl rfl
    | true =>
      by_cases hc : c = '/'
      · exact Or.inr ⟨congrArg some hc, head?_blankFrom_comment h⟩
      · rw [LexState.comments_of_ne hs hc] at h
        cases h

theorem comments_of_isWordChar (hs : s.InCode) (hc : isWordChar c = true) (next : Option Char) :
    s.comments c next = false := by
  refine LexState.comments_of_ne (s.not_inComment hs _) ?_ next
  rintro rfl
  cases hc

theorem blankFrom_append_words (hs : s.InCode) (hx : ∀ c ∈ x, isWordChar c = true) (rest : Text) :
    blankFrom s (x ++ rest) = x ++ blankFrom s rest := by
  induction x with
  | nil => rfl
  | cons c x ih =>
    obtain ⟨hc, hx'⟩ := List.forall_mem_cons.mp hx
    rw [List.cons_append, blankFrom_other (comments_of_isWordChar hs hc _),
      s.step_isWordChar hs hc, ih hx']
    rfl

theorem drop_commentMarksFrom (hs : s.InCode) (hx : ∀ c ∈ x, isWordChar c = true) (rest : Text) :
    (commentMarksFrom s (x ++ rest)).drop x.length = commentMarksFrom s rest := by
  induction x with
  | nil => rfl
  | cons c x ih =>
    obtain ⟨hc, hx'⟩ := List.forall_mem_cons.mp hx
    rw [List.cons_append, commentMarksFrom, s.step_isWordChar hs hc]
    exact ih hx'

theorem exists_of_blankFrom_eq_append {y : Text} (hs : s.InCode)
    (hx : ∀ c ∈ x, isIdentifierChar c = true) (h : blankFrom s rest = x ++ y) :
    ∃ back, rest = x ++ back ∧ blankFrom s back = y := by
  induction x generalizing rest with
  | nil => exact ⟨rest, rfl, h⟩
  | cons c x ih =>
    obtain ⟨hc, hx'⟩ := List.forall_mem_cons.mp hx
    cases rest with
    | nil => cases h
    | cons d rest =>
      cases hcomment : s.comments d rest.head? with
      | true =>
        have hhead := head?_blankFrom_comment hcomment
        obtain rfl : c = ' ' := by simpa [h] using hhead
        cases hc
      | false =>
        rw [blankFrom_other hcomment] at h
        obtain ⟨rfl, hrest⟩ := List.cons.inj h
        rw [s.step_isNameChar hs (isNameChar_of_isIdentifierChar hc)] at hrest
        obtain ⟨back, rfl, hback⟩ := ih hx' hrest
        exact ⟨back, rfl, hback⟩

theorem takeWhile_blankFrom {p : Char → Bool} (hp : p '/' = true) (hs : s.Fits x.head?)
    (hin : s.inComment x.head? = false)
    (h : true ∉ (commentMarksFrom s x).take (x.takeWhile p).length) :
    (blankFrom s x).takeWhile p = x.takeWhile p ∧ (blankFrom s x).head? = x.head? := by
  induction x generalizing s with
  | nil => exact ⟨rfl, rfl⟩
  | cons c rest ih =>
    cases hc : p c with
    | false =>
      have hslash : c ≠ '/' := by
        rintro rfl
        rw [hp] at hc
        cases hc
      rw [blankFrom_other (LexState.comments_of_ne hin hslash _), List.takeWhile_cons,
        List.takeWhile_cons, hc]
      exact ⟨rfl, rfl⟩
    | true =>
      rw [List.takeWhile_cons, hc, if_pos rfl, List.length_cons, commentMarksFrom,
        List.take_succ_cons, List.mem_cons, not_or] at h
      have hcomment : s.comments c rest.head? = false := by simpa using (Ne.symm h.1)
      have hrest := ih (s.fits_step c rest.head?) (LexState.inComment_step hs hcomment) h.2
      rw [blankFrom_other hcomment, List.takeWhile_cons, List.takeWhile_cons, hc, if_pos rfl,
        if_pos rfl, hrest.1]
      exact ⟨rfl, rfl⟩

end

end ScriptBundle
