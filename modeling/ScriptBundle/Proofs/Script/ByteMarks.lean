import Mathlib.Data.List.Basic
import ScriptBundle.Proofs.Script.Replacement
import ScriptBundle.Proofs.Text.Offsets

/-! The marks of a text byte by byte. They are filled in by a loop that reads the text from the left
to the right, a character at a time or both characters of a delimiter, and clears the marks of what
is no code. The loop reads on from places where the text can be cut, and leaves all bytes of one
character the mark that the character has. -/
namespace ScriptBundle

def Spot.byteMarks (spots : List Spot) : List Bool :=
  spots.flatMap fun s => List.replicate s.char.utf8Size s.code

/-- One mark for each byte of a text: whether its character is code. -/
def byteMarks (code : Text) : List Bool := Spot.byteMarks (spots code)

def isCodeAt (marks : List Bool) (offset : Nat) : Bool := marks[offset]?.getD false

def clear? (marks : List Bool) (start stop : Nat) : Option (List Bool) :=
  if start ≤ stop ∧ stop ≤ marks.length then
    some (marks.take start ++ List.replicate (stop - start) false ++ marks.drop stop)
  else none

/-- What is read at once: how many bytes, whether they are code, and what the characters behind
them belong to. -/
structure Lexeme where
  width : Nat
  isCode : Bool
  mode : Mode
  depths : List Nat

namespace Lexeme

def inCode (depths : List Nat) (c : Char) (rest : Text) : Lexeme :=
  if c = '\'' ∨ c = '"' then ⟨c.utf8Size, false, .quoted c false, depths⟩
  else if c = '\x60' then ⟨c.utf8Size, false, .template false, depths⟩
  else if ['/', '/'] <+: c :: rest then ⟨2, false, .lineComment, depths⟩
  else if ['/', '*'] <+: c :: rest then ⟨2, false, .blockComment, depths⟩
  else if c = '{' then ⟨c.utf8Size, true, .code, LexState.deepen depths⟩
  else if c = '}' then
    match depths with
    | [] => ⟨c.utf8Size, true, .code, []⟩
    | 0 :: outer => ⟨c.utf8Size, false, .template false, outer⟩
    | (depth + 1) :: outer => ⟨c.utf8Size, true, .code, depth :: outer⟩
  else ⟨c.utf8Size, true, .code, depths⟩

def inQuoted (depths : List Nat) (quote : Char) (escaped : Bool) (c : Char) : Lexeme :=
  if escaped then ⟨c.utf8Size, false, .quoted quote false, depths⟩
  else if c = '\\' then ⟨c.utf8Size, false, .quoted quote true, depths⟩
  else if c = quote then ⟨c.utf8Size, false, .code, depths⟩
  else ⟨c.utf8Size, false, .quoted quote false, depths⟩

def inTemplate (depths : List Nat) (escaped : Bool) (c : Char) (rest : Text) : Lexeme :=
  if escaped then ⟨c.utf8Size, false, .template false, depths⟩
  else if c = '\\' then ⟨c.utf8Size, false, .template true, depths⟩
  else if c = '\x60' then ⟨c.utf8Size, false, .code, depths⟩
  else if ['$', '{'] <+: c :: rest then ⟨2, false, .code, 0 :: depths⟩
  else ⟨c.utf8Size, false, .template false, depths⟩

/-- What is read of a text that begins with the character `c`. -/
def read (mode : Mode) (depths : List Nat) (c : Char) (rest : Text) : Lexeme :=
  match mode with
  | .code => inCode depths c rest
  | .quoted quote escaped => inQuoted depths quote escaped c
  | .template escaped => inTemplate depths escaped c rest
  | .lineComment =>
    if c = '\n' then ⟨c.utf8Size, true, .code, depths⟩
    else ⟨c.utf8Size, false, .lineComment, depths⟩
  | .blockComment =>
    if ['*', '/'] <+: c :: rest then ⟨2, false, .code, depths⟩
    else ⟨c.utf8Size, false, .blockComment, depths⟩

theorem pair_prefix_iff {a b c : Char} {rest : Text} :
    [a, b] <+: c :: rest ↔ c = a ∧ rest.head? = some b := by
  cases rest <;> simp [List.cons_prefix_cons, eq_comm]

def mark? (e : Lexeme) (marks : List Bool) (cursor : Nat) : Option (List Bool) :=
  if e.isCode then some marks else clear? marks cursor (cursor + e.width)

/-- A lexeme is one character or the two of a delimiter, and what is known behind it is what the
steps over its characters come to. -/
inductive Steps (s : LexState) (c : Char) (rest : Text) (e : Lexeme) : Prop
  | one (hwidth : e.width = c.utf8Size)
    (hstep : s.step c rest.head? = (e.isCode, ⟨e.mode, e.depths, false⟩))
  | two {d : Char} {more : Text} (hrest : rest = d :: more)
    (hwidth : e.width = c.utf8Size + d.utf8Size) (hcode : e.isCode = false)
    (hstep : s.step c rest.head? = (false, ⟨e.mode, e.depths, true⟩))

theorem Steps.delimiter {s : LexState} {a b c : Char} {rest : Text} {e : Lexeme}
    (h : c = a ∧ rest.head? = some b) (hwidth : e.width = a.utf8Size + b.utf8Size)
    (hcode : e.isCode = false) (hstep : s.step a (some b) = (false, ⟨e.mode, e.depths, true⟩)) :
    e.Steps s c rest := by
  obtain ⟨rfl, hb⟩ := h
  obtain ⟨more, rfl⟩ := List.head?_eq_some_iff.mp hb
  exact .two rfl hwidth hcode hstep

theorem steps_read (mode : Mode) (depths : List Nat) (c : Char) (rest : Text) :
    (read mode depths c rest).Steps ⟨mode, depths, false⟩ c rest := by
  cases mode with
  | code =>
    simp only [read, inCode, pair_prefix_iff]
    split
    · next h => exact .one rfl (by simp [LexState.step, LexState.stepCode, h])
    split
    · next h => exact .one rfl (by simp [LexState.step, LexState.stepCode, h])
    split
    · next h => exact .delimiter h rfl rfl rfl
    split
    · next h => exact .delimiter h rfl rfl rfl
    next hquote htemplate hline hblock =>
    split
    · next h => exact .one rfl (by simp [LexState.step, LexState.stepCode, h])
    split
    · next h =>
      rcases depths with _ | ⟨_ | depth, outer⟩ <;>
        exact .one rfl (by simp [LexState.step, LexState.stepCode, h])
    next hopen hclose =>
    exact .one rfl (by
      simp [LexState.step, LexState.stepCode, hquote, htemplate, hline, hblock, hopen, hclose])
  | quoted quote escaped =>
    refine .one ?_ ?_ <;> simp only [read, inQuoted, LexState.step, LexState.stepQuoted] <;>
      split_ifs <;> simp_all
  | template escaped =>
    simp only [read, inTemplate, pair_prefix_iff]
    split
    · next h => exact .one rfl (by simp [LexState.step, LexState.stepTemplate, h])
    next hescaped =>
    split
    · next h => exact .one rfl (by simp [LexState.step, LexState.stepTemplate, hescaped, h])
    next hbackslash =>
    split
    · next h => exact .one rfl (by simp [LexState.step, LexState.stepTemplate, hescaped, h])
    next hend =>
    split
    · next h =>
      obtain rfl : escaped = false := by simpa using hescaped
      exact .delimiter h rfl rfl rfl
    · next hopen =>
      obtain rfl : escaped = false := by simpa using hescaped
      exact .one rfl (by simp [LexState.step, LexState.stepTemplate, hbackslash, hend, hopen])
  | lineComment =>
    simp only [read]
    split
    · next h => exact .one rfl (by simp [LexState.step, h])
    · next h => exact .one rfl (by simp [LexState.step, h])
  | blockComment =>
    simp only [read, pair_prefix_iff]
    split
    · next h => exact .delimiter h rfl rfl rfl
    · next h => exact .one rfl (by simp [LexState.step, h])

end Lexeme

theorem clear?_append (x y z : List Bool) :
    clear? (x ++ y ++ z) x.length (x.length + y.length) =
      some (x ++ List.replicate y.length false ++ z) := by
  have htake : (x ++ y ++ z).take x.length = x := by rw [List.append_assoc, List.take_left]
  rw [clear?, if_pos (by simp), Nat.add_sub_cancel_left, ← List.length_append, List.drop_left,
    htake]

theorem Spot.width_append (l r : List Spot) : Text.width (Spot.text (l ++ r)) =
    Text.width (Spot.text l) + Text.width (Spot.text r) := by
  rw [text_append, Text.width_append]

theorem Spot.width_cons (s : Spot) (l : List Spot) :
    Text.width (Spot.text (s :: l)) = s.char.utf8Size + Text.width (Spot.text l) := rfl

section

variable {code : Text} {l m r : List Spot}

theorem eq_text_append (h : spots code = l ++ r) : code = Spot.text l ++ Spot.text r := by
  rw [← Spot.text_append, ← h, text_spots]

theorem from?_spots (h : spots code = l ++ r) :
    code.from? (Text.width (Spot.text l)) = some (Spot.text r) := by
  rw [eq_text_append h, Text.from?_append]

theorem upTo?_spots (h : spots code = l ++ r) :
    code.upTo? (Text.width (Spot.text l)) = some (Spot.text l) := by
  rw [eq_text_append h, Text.upTo?_append]

theorem slice?_spots (h : spots code = l ++ m ++ r) :
    code.slice? (Text.width (Spot.text l)) (Text.width (Spot.text (l ++ m))) =
      some (Spot.text m) := by
  rw [eq_text_append h, Spot.text_append, Text.slice?_append]

theorem isCut_spots (h : spots code = l ++ r) : code.IsCut (Text.width (Spot.text l)) := by
  rw [eq_text_append h]
  exact Text.isCut_append _ _

end

@[simp] theorem Spot.length_byteMarks (spots : List Spot) :
    (Spot.byteMarks spots).length = Text.width (Spot.text spots) := by
  induction spots with
  | nil => rfl
  | cons s spots ih =>
    rw [byteMarks] at ih
    simp [byteMarks, Spot.text, ih]

theorem Spot.byteMarks_append (l r : List Spot) :
    Spot.byteMarks (l ++ r) = Spot.byteMarks l ++ Spot.byteMarks r := List.flatMap_append

theorem Spot.byteMarks_eq_replicate {spots : List Spot} {mark : Bool}
    (h : ∀ s ∈ spots, s.code = mark) :
    Spot.byteMarks spots = List.replicate (Text.width (Spot.text spots)) mark := by
  refine List.eq_replicate_iff.mpr ⟨length_byteMarks spots, fun m hm => ?_⟩
  obtain ⟨s, hs, hm⟩ := List.mem_flatMap.mp hm
  rw [List.eq_of_mem_replicate hm, h s hs]

theorem byteMarks_getElem? {code : Text} {l r : List Spot} {s : Spot}
    (h : spots code = l ++ s :: r) {i : Nat} (hi : i < s.char.utf8Size) :
    (byteMarks code)[s.offset + i]? = some s.code := by
  have hcons : Spot.byteMarks (s :: r) =
      List.replicate s.char.utf8Size s.code ++ Spot.byteMarks r := rfl
  rw [byteMarks, h, Spot.byteMarks_append, hcons, spots_offset_eq h, ← Spot.length_byteMarks,
    List.getElem?_append_right (Nat.le_add_right _ _), Nat.add_sub_cancel_left,
    List.getElem?_append_left (by simpa using hi)]
  simp [hi]

theorem isCodeAt_offset {code : Text} {l r : List Spot} {s : Spot} (h : spots code = l ++ s :: r) :
    isCodeAt (byteMarks code) s.offset = s.code := by
  have hfirst := byteMarks_getElem? h s.char.utf8Size_pos
  rw [Nat.add_zero] at hfirst
  rw [isCodeAt, hfirst]
  rfl

/-- The marks being filled in: how far the text is read, what the characters from there on belong
to, and the marks, set where nothing was cleared. -/
structure Lexing where
  cursor : Nat
  mode : Mode
  depths : List Nat
  marks : List Bool

namespace Lexing

variable (code : Text)

def start : Lexing := ⟨0, .code, [], List.replicate (Text.width code) true⟩

def round (s : Lexing) : Option (Round Lexing (List Bool)) := do
  match ← code.from? s.cursor with
  | [] => return .done s.marks
  | c :: rest =>
    let e := Lexeme.read s.mode s.depths c rest
    let marks ← e.mark? s.marks s.cursor
    return .next ⟨s.cursor + e.width, e.mode, e.depths, marks⟩

/-- The text is read up to the cursor: the marks before it are those of the spots there, and what
follows is read from the state at hand. -/
def Reads (s : Lexing) : Prop :=
  ∃ l before y, spots code =
      l ++ spotsFrom ⟨s.mode, s.depths, false⟩ before (Text.width (Spot.text l)) y ∧
    s.cursor = Text.width (Spot.text l) ∧
    s.marks = Spot.byteMarks l ++ List.replicate (Text.width y) true

variable {code}

theorem Reads.isCut {s : Lexing} (h : s.Reads code) : code.IsCut s.cursor := by
  obtain ⟨l, before, y, hspots, hcursor, -⟩ := h
  rw [hcursor]
  exact isCut_spots hspots

theorem reads_start : (start code).Reads code := ⟨[], [], code, rfl, rfl, rfl⟩

theorem exists_spotsFrom_read (mode : Mode) (depths : List Nat) (before : Text) (offset : Nat)
    (c : Char) (rest : Text) :
    ∃ m before' rest', spotsFrom ⟨mode, depths, false⟩ before offset (c :: rest) =
        m ++ spotsFrom ⟨(Lexeme.read mode depths c rest).mode,
          (Lexeme.read mode depths c rest).depths, false⟩ before'
          (offset + (Lexeme.read mode depths c rest).width) rest' ∧
      Text.width (Spot.text m) = (Lexeme.read mode depths c rest).width ∧
      (∀ s ∈ m, s.code = (Lexeme.read mode depths c rest).isCode) ∧
      0 < (Lexeme.read mode depths c rest).width := by
  have hpos := c.utf8Size_pos
  have h := Lexeme.steps_read mode depths c rest
  generalize Lexeme.read mode depths c rest = e at h
  cases h with
  | one hwidth hstep =>
    refine ⟨[⟨before, c, rest, offset, e.isCode⟩], c :: before, rest, ?_,
      by simp [Spot.text, hwidth], by simp, by omega⟩
    rw [spotsFrom, hstep, hwidth]
    rfl
  | @two d more hrest hwidth hcode hstep =>
    subst hrest
    have hhalf : LexState.step ⟨e.mode, e.depths, true⟩ d more.head? =
        (false, ⟨e.mode, e.depths, false⟩) := rfl
    refine ⟨[⟨before, c, d :: more, offset, false⟩,
      ⟨c :: before, d, more, offset + c.utf8Size, false⟩], d :: c :: before, more, ?_,
      by simp [Spot.text, hwidth], by simp [hcode], by omega⟩
    rw [spotsFrom, hstep, spotsFrom, hhalf, hwidth, Nat.add_assoc]
    rfl

theorem advances : Round.Advances (round code) (Reads code)
    (fun s => Text.width code - s.cursor) (byteMarks code) := by
  rintro ⟨cursor, mode, depths, marks⟩ ⟨l, before, y, hspots, rfl, rfl⟩
  have htext := eq_text_append hspots
  have hfrom := from?_spots hspots
  rw [text_spotsFrom] at htext hfrom
  cases y with
  | nil =>
    left
    rw [spotsFrom, List.append_nil] at hspots
    simp [round, hfrom, byteMarks, hspots]
  | cons c rest =>
    right
    obtain ⟨m, before', rest', hread, hwidth, hcode, hpos⟩ :=
      exists_spotsFrom_read mode depths before (Text.width (Spot.text l)) c rest
    generalize he : Lexeme.read mode depths c rest = e at hread hwidth hcode hpos
    have hrest : Text.width (c :: rest) = e.width + Text.width rest' := by
      have htexts := congrArg (fun spots => Text.width (Spot.text spots)) hread
      simpa [Spot.text_append, hwidth] using htexts
    have hmarks : e.mark? (Spot.byteMarks l ++ List.replicate (Text.width (c :: rest)) true)
        (Text.width (Spot.text l)) =
          some (Spot.byteMarks (l ++ m) ++ List.replicate (Text.width rest') true) := by
      rw [Spot.byteMarks_append, Spot.byteMarks_eq_replicate hcode, hwidth, hrest,
        List.replicate_add, ← List.append_assoc, Lexeme.mark?]
      cases e.isCode with
      | true => rfl
      | false =>
        have hclear := clear?_append (Spot.byteMarks l) (List.replicate e.width true)
          (List.replicate (Text.width rest') true)
        rw [Spot.length_byteMarks, List.length_replicate] at hclear
        exact hclear
    refine ⟨⟨Text.width (Spot.text l) + e.width, e.mode, e.depths,
      Spot.byteMarks (l ++ m) ++ List.replicate (Text.width rest') true⟩, ?_, ?_, ?_⟩
    · simp [round, hfrom, he, hmarks, -Text.width_cons]
    · refine ⟨l ++ m, before', rest', ?_, ?_, rfl⟩
      · rw [hspots, hread, Spot.width_append, hwidth, List.append_assoc]
      · rw [Spot.width_append, hwidth]
    · have hall := congrArg Text.width htext
      rw [Text.width_append, hrest] at hall
      simp only
      omega

end Lexing

end ScriptBundle
