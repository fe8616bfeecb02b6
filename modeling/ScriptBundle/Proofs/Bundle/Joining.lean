import ScriptBundle.Bundle.Forest
import ScriptBundle.Proofs.Script.Reading

/-! Reading a bundle. Its chunks stand one after the other, each on lines of its own. A chunk that
leaves nothing open is read in the bundle as it is read alone, and so is what comes after it. -/
namespace ScriptBundle

/-- Read alone, the text ends in code or in a line comment, and within no interpolation. -/
def Text.Closed (t : Text) : Prop :=
  let s := LexState.start.behind t none
  (s.mode = .code ∨ s.mode = .lineComment) ∧ s.depths = []

instance (t : Text) : Decidable t.Closed := inferInstanceAs (Decidable (_ ∧ _))

def separatorAfter (out : Text) : Text :=
  if out = [] ∨ out.getLast? = some '\n' then [] else ['\n']

/-- The chunks, each with what is put in front of it where they are put out behind a text. -/
def spaced : Text → List Text → List (Text × Text)
  | _, [] => []
  | out, chunk :: more => (separatorAfter out, chunk) :: spaced (appendChunk out chunk) more

theorem appendChunk_eq_separatorAfter (out chunk : Text) :
    appendChunk out chunk = out ++ separatorAfter out ++ chunk := by
  unfold appendChunk separatorAfter
  split <;> simp

theorem map_spaced (out : Text) (chunks : List Text) : (spaced out chunks).map (·.2) = chunks := by
  induction chunks generalizing out with
  | nil => rfl
  | cons chunk more ih => simp only [spaced, List.map_cons, ih]

theorem separator_of_mem_spaced {out : Text} {chunks : List Text} {x : Text × Text}
    (h : x ∈ spaced out chunks) : x.1 = [] ∨ x.1 = ['\n'] := by
  induction chunks generalizing out with
  | nil => simp [spaced] at h
  | cons chunk more ih =>
    rcases List.mem_cons.mp h with rfl | h
    · unfold separatorAfter
      split
      · exact Or.inl rfl
      · exact Or.inr rfl
    · exact ih h

theorem foldl_appendChunk (out : Text) (chunks : List Text) :
    chunks.foldl appendChunk out = out ++ (spaced out chunks).flatMap fun x => x.1 ++ x.2 := by
  induction chunks generalizing out with
  | nil => simp [spaced]
  | cons chunk more ih =>
    rw [List.foldl_cons, ih, appendChunk_eq_separatorAfter]
    simp [spaced, appendChunk_eq_separatorAfter]

theorem separatorAfter_spec (out : Text) :
    out ++ separatorAfter out = [] ∨ (out ++ separatorAfter out).getLast? = some '\n' := by
  unfold separatorAfter
  split
  · simpa
  · exact Or.inr (by simp)

theorem joinChunks_append (front back : List Text) :
    joinChunks (front ++ back) = back.foldl appendChunk (joinChunks front) := by
  rw [joinChunks, List.foldl_append, joinChunks]

theorem joinChunks_around (front : List Text) (chunk : Text) (back : List Text) :
    ∃ before after, joinChunks (front ++ chunk :: back) = before ++ chunk ++ after ∧
      (before = [] ∨ before.getLast? = some '\n') := by
  refine ⟨joinChunks front ++ separatorAfter (joinChunks front), ?_, ?_,
    separatorAfter_spec _⟩
  · exact (spaced (appendChunk (joinChunks front) chunk) back).flatMap fun x => x.1 ++ x.2
  · rw [joinChunks_append, List.foldl_cons, foldl_appendChunk, appendChunk_eq_separatorAfter]

namespace LexState

theorem step_newline (s : LexState) (next : Option Char) : s.step '\n' next = s.step '\n' none := by
  simp [step, stepCode, stepTemplate]

theorem not_isSecondHalf_newline : ∀ n ∈ some '\n', isSecondHalf n = false := by
  simp [isSecondHalf]

theorem behind_newline (s : LexState) (x : Text) (next : Option Char) :
    s.behind (x ++ ['\n']) next = ((s.behind x none).step '\n' none).2 := by
  rw [behind_append, List.head?_cons, Option.some_or,
    behind_eq_of_not_isSecondHalf s x not_isSecondHalf_newline, behind, behind, step_newline]

theorem mode_step_newline {s : LexState} (hs : s.half = false) :
    (s.step '\n' none).2.mode ≠ .lineComment := by
  cases hmode : s.mode with
  | code => simp [step, hs, hmode, stepCode]
  | quoted quote escaped =>
    simp only [step, hs, hmode, stepQuoted, Bool.false_eq_true, if_false]
    split_ifs <;> simp [hmode]
  | template escaped =>
    simp only [step, hs, hmode, stepTemplate, Bool.false_eq_true, if_false]
    split_ifs <;> simp [hmode]
  | lineComment => simp [step, hs, hmode]
  | blockComment => simp [step, hs, hmode]

theorem eq_start {s : LexState} (hmode : s.mode = .code) (hdepths : s.depths = [])
    (hhalf : s.half = false) : s = start := by
  cases s
  simp_all [start]

theorem step_newline_of_open {s : LexState} (hmode : s.mode = .code ∨ s.mode = .lineComment)
    (hdepths : s.depths = []) (hhalf : s.half = false) : s.step '\n' none = (true, start) := by
  rcases hmode with hmode | hmode
  · rw [eq_start hmode hdepths hhalf]
    rfl
  · simp [step, hhalf, hmode, hdepths, start]

end LexState

theorem marksBefore_newline (next : Option Char) (s : LexState) (x : Text) :
    marksBefore next s (x ++ ['\n']) =
      marksFrom s x ++ [((s.behind x none).step '\n' none).1] := by
  rw [marksBefore_append, List.head?_cons, Option.some_or,
    marksBefore_eq_of_not_isSecondHalf s x LexState.not_isSecondHalf_newline,
    LexState.behind_eq_of_not_isSecondHalf s x LexState.not_isSecondHalf_newline, marksBefore,
    marksBefore, LexState.step_newline]

theorem half_behind_start (x : Text) : (LexState.start.behind x none).half = false := by
  by_cases hx : x = []
  · rw [hx]
    rfl
  · exact LexState.half_behind hx (by simp)

/-- Behind a text that leaves nothing open, and what separates it from the next chunk, a script is
read as from its start. The text is marked as it is alone, and the separator is code. -/
theorem Text.Closed.separated {out : Text} (h : out.Closed) (next : Option Char) :
    LexState.start.behind (out ++ separatorAfter out) next = .start ∧
      marksBefore next .start (out ++ separatorAfter out) =
        marks out ++ (separatorAfter out).map fun _ => true := by
  have hhalf := half_behind_start
  unfold separatorAfter
  split_ifs with hline
  · simp only [List.append_nil, List.map_nil]
    rcases List.eq_nil_or_concat out with rfl | ⟨x, c, rfl⟩
    · exact ⟨rfl, rfl⟩
    · -- The text ends with a newline, behind which it can only be in code.
      obtain rfl : c = '\n' := by simpa using hline
      unfold Closed at h
      simp only [List.concat_eq_append, LexState.behind_newline] at h ⊢
      have hmode := h.1.resolve_right (LexState.mode_step_newline (hhalf x))
      refine ⟨LexState.eq_start hmode h.2 (LexState.half_step_none _ _), ?_⟩
      rw [marksBefore_newline, marks, ← marksBefore_none _ (x ++ _), marksBefore_newline]
  · have hstep := LexState.step_newline_of_open h.1 h.2 (hhalf out)
    refine ⟨?_, ?_⟩
    · rw [LexState.behind_newline, hstep]
    · rw [marksBefore_newline, hstep]
      rfl

theorem marks_appendChunk {out : Text} (h : out.Closed) (chunk : Text) :
    marks (appendChunk out chunk) =
      marks out ++ (separatorAfter out).map (fun _ => true) ++ marks chunk := by
  obtain ⟨hbehind, hmarks⟩ := h.separated chunk.head?
  rw [appendChunk_eq_separatorAfter, marks, marksFrom_append, hbehind, hmarks]
  rfl

theorem Text.Closed.appendChunk {out chunk : Text} (h : out.Closed) (hchunk : chunk.Closed) :
    (ScriptBundle.appendChunk out chunk).Closed := by
  unfold Closed at hchunk ⊢
  rwa [appendChunk_eq_separatorAfter, LexState.behind_append, (h.separated _).1]

theorem marks_foldl_appendChunk {out : Text} {chunks : List Text} (hout : chunks ≠ [] → out.Closed)
    (hchunks : ∀ chunk ∈ chunks.dropLast, chunk.Closed) :
    marks (chunks.foldl appendChunk out) =
      marks out ++ (spaced out chunks).flatMap fun x => x.1.map (fun _ => true) ++ marks x.2 := by
  induction chunks generalizing out with
  | nil => simp [spaced]
  | cons chunk more ih =>
    have hclosed := hout (List.cons_ne_nil chunk more)
    have hmore : more ≠ [] → (appendChunk out chunk).Closed := fun hne =>
      hclosed.appendChunk (hchunks chunk (by simp [List.dropLast_cons_of_ne_nil hne]))
    have hrest : ∀ x ∈ more.dropLast, x.Closed := by
      intro x hx
      have hne : more ≠ [] := by
        rintro rfl
        simp at hx
      exact hchunks x (by simp [List.dropLast_cons_of_ne_nil hne, hx])
    rw [List.foldl_cons, ih hmore hrest, marks_appendChunk hclosed]
    simp [spaced]

/-- **Joining chunks does not change how they are read.** When each chunk but the last, read alone,
ends in code or in a line comment and within no interpolation, the marks of the bundle are those of
the chunks, with every newline put in between marked as code. Each chunk stands in the bundle as it
is, at the start of it or of a line. -/
theorem marks_bundleText (f : Forest) (h : ∀ chunk ∈ f.chunks.dropLast, chunk.Closed) :
    let layout := spaced [] f.chunks
    layout.map (·.2) = f.chunks ∧ (∀ x ∈ layout, x.1 = [] ∨ x.1 = ['\n']) ∧
      f.bundleText = layout.flatMap (fun x => x.1 ++ x.2) ∧
      marks f.bundleText = layout.flatMap (fun x => x.1.map (fun _ => true) ++ marks x.2) ∧
      ∀ front chunk back, f.chunks = front ++ chunk :: back →
        ∃ before after, f.bundleText = before ++ chunk ++ after ∧
          (before = [] ∨ before.getLast? = some '\n') := by
  intro layout
  have hempty : Text.Closed [] := ⟨Or.inl rfl, rfl⟩
  refine ⟨map_spaced [] f.chunks, fun x hx => separator_of_mem_spaced hx,
    foldl_appendChunk [] f.chunks, marks_foldl_appendChunk (fun _ => hempty) h, ?_⟩
  intro front chunk back hchunks
  rw [Forest.bundleText, hchunks]
  exact joinChunks_around front chunk back

/-- A chunk that ends in a comment, an empty one, and one that ends with a division sign. -/
theorem marks_bundleText_comment :
    let m := fun (name : Char) (code : Text) => (⟨Path.ofText [name], ⟨[name]⟩, code⟩ : ReadyModule)
    let f := Forest.tree (m 'd' "\x60$\x7b".toList)
      (.cons (m 'a' "x//\x7b".toList) .nil
        (.cons (m 'b' []) .nil (.cons (m 'c' "1/".toList) .nil .nil)))
    (∀ chunk ∈ f.chunks.dropLast, chunk.Closed) ∧
      f.bundleText = "x//\x7b\n1/\n\x60$\x7b".toList ∧
      marks f.bundleText =
        [true, false, false, false, true, true, true, true, false, false, false] := by
  intro m f
  have hclosed : ∀ chunk ∈ f.chunks.dropLast, chunk.Closed := by decide +kernel
  refine ⟨hclosed, by decide +kernel, ?_⟩
  rw [(marks_bundleText f hclosed).2.2.2.1]
  decide +kernel

end ScriptBundle
