import ScriptBundle.Proofs.Script.Copies

/-! Marking a namespaced text anew. A name is put in place of a name, and neither of them holds a
character by which the reading of a script changes its state, nor does the first character of either
complete a delimiter. So what is kept is marked as it was, and what is put in is code. -/
namespace ScriptBundle

def isNameChar (c : Char) : Bool := isIdentifierChar c || c == '.'

theorem isNameChar_of_isIdentifierChar {c : Char} (h : isIdentifierChar c = true) :
    isNameChar c = true := by simp [isNameChar, h]

theorem ne_of_isNameChar {c : Char} (hc : isNameChar c = true) {d : Char}
    (hd : isNameChar d = false) : c ≠ d := by
  rintro rfl
  simp [hc] at hd

theorem not_isBrace_of_isNameChar {c : Char} (hc : isNameChar c = true) : isBrace c = false := by
  simp [isBrace, ne_of_isNameChar hc (d := '{') rfl, ne_of_isNameChar hc (d := '}') rfl]

namespace LexState

/-- The next character is code unless it begins something else. -/
def InCode (s : LexState) : Prop := s.mode = .code ∧ s.half = false

variable {s : LexState} {c : Char}

theorem step_isNameChar (hs : s.InCode) (hc : isNameChar c = true) (next : Option Char) :
    s.step c next = (true, s) := by
  have hne : ∀ {d}, isNameChar d = false → c ≠ d := ne_of_isNameChar hc
  simp [step, stepCode, hs.1, hs.2, hne (d := '\'') rfl, hne (d := '"') rfl,
    hne (d := '\x60') rfl, hne (d := '/') rfl, hne (d := '{') rfl, hne (d := '}') rfl]

theorem inCode_of_step (hc : isNameChar c = true) {next : Option Char}
    (h : (s.step c next).1 = true) : s.InCode := by
  have hnewline : c ≠ '\n' := ne_of_isNameChar hc rfl
  have hhalf : s.half = false := by
    cases hhalf : s.half with
    | false => rfl
    | true => simp [step, hhalf] at h
  refine ⟨?_, hhalf⟩
  cases hmode : s.mode with
  | code => rfl
  | quoted quote escaped =>
    simp only [step, hhalf, hmode, Bool.false_eq_true, if_false, stepQuoted] at h
    split_ifs at h
  | template escaped =>
    simp only [step, hhalf, hmode, Bool.false_eq_true, if_false, stepTemplate] at h
    split_ifs at h
  | lineComment => simp [step, hhalf, hmode, hnewline] at h
  | blockComment =>
    simp only [step, hhalf, hmode, Bool.false_eq_true, if_false] at h
    split_ifs at h

theorem step_congr_next (s : LexState) (c : Char) {a b : Char} (ha : isNameChar a = true)
    (hb : isNameChar b = true) : s.step c (some a) = s.step c (some b) := by
  have hne : ∀ {d}, isNameChar d = false → (a = d ↔ b = d) := fun hd =>
    iff_of_false (ne_of_isNameChar ha hd) (ne_of_isNameChar hb hd)
  simp only [step, stepCode, stepTemplate, Option.some.injEq, hne (d := '/') rfl,
    hne (d := '*') rfl, hne (d := '{') rfl]

end LexState

theorem marksFrom_append_name {s : LexState} (hs : s.InCode) {name : Text}
    (hname : ∀ c ∈ name, isNameChar c = true) (rest : Text) :
    marksFrom s (name ++ rest) = name.map (fun _ => true) ++ marksFrom s rest := by
  induction name with
  | nil => rfl
  | cons c name ih =>
    have hc := hname c List.mem_cons_self
    simp only [List.cons_append, marksFrom, s.step_isNameChar hs hc, List.map_cons]
    rw [ih fun d hd => hname d (List.mem_cons_of_mem _ hd)]

theorem of_spotsFrom_append_name {s : LexState} {before : Text} {offset : Nat} {code : Text}
    {name tail : List Spot} (hne : name ≠ [])
    (hname : ∀ t ∈ name, t.code = true ∧ isNameChar t.char = true)
    (h : spotsFrom s before offset code = name ++ tail) :
    s.InCode ∧ ∃ before offset rest, spotsFrom s before offset rest = tail := by
  induction name generalizing before offset code with
  | nil => exact absurd rfl hne
  | cons t name ih =>
    obtain ⟨hcode, hchar⟩ := hname t List.mem_cons_self
    cases code with
    | nil => simp [spotsFrom] at h
    | cons c code =>
      obtain ⟨rfl, hrest⟩ := List.cons.inj h
      have hs : s.InCode := LexState.inCode_of_step hchar hcode
      rw [LexState.step_isNameChar hs hchar] at hrest
      refine ⟨hs, ?_⟩
      cases name with
      | nil => exact ⟨_, _, _, hrest⟩
      | cons u name =>
        exact (ih (List.cons_ne_nil u name) (fun v hv => hname v (List.mem_cons_of_mem _ hv))
          hrest).2

namespace Copy

/-- The marks of a part: of what is kept the mark it had, and code for what is put in. -/
def marks : Copy → List Bool
  | kept s => [s.code]
  | put _ qualified => qualified.map fun _ => true

/-- Names are put in place of names. -/
def Steady : Copy → Prop
  | kept _ => True
  | put name qualified =>
    (name ≠ [] ∧ ∀ s ∈ name, s.code = true ∧ isNameChar s.char = true) ∧
      qualified ≠ [] ∧ ∀ c ∈ qualified, isNameChar c = true

/-- What is read next is the same character, or a name begins in both texts. -/
theorem step_head {parts : List Copy} (hsteady : ∀ x ∈ parts, x.Steady) {s : LexState}
    {before : Text} {offset : Nat} {code : Text}
    (h : spotsFrom s before offset code = parts.flatMap source) (t : LexState) (c : Char) :
    t.step c (parts.flatMap text).head? = t.step c code.head? := by
  cases parts with
  | nil =>
    cases code with
    | nil => rfl
    | cons d code => simp [spotsFrom] at h
  | cons part parts =>
    cases code with
    | nil =>
      cases part with
      | kept u => simp [spotsFrom, source] at h
      | put name qualified =>
        have hname := (hsteady _ List.mem_cons_self).1.1
        simp [spotsFrom, source, hname] at h
    | cons d code =>
      cases part with
      | kept u =>
        obtain ⟨rfl, -⟩ := List.cons.inj h
        rfl
      | put name qualified =>
        obtain ⟨⟨hne, hname⟩, hne', hqualified⟩ := hsteady _ List.mem_cons_self
        obtain ⟨u, name, rfl⟩ := List.exists_cons_of_ne_nil hne
        obtain ⟨e, qualified, rfl⟩ := List.exists_cons_of_ne_nil hne'
        obtain ⟨rfl, -⟩ := List.cons.inj h
        exact t.step_congr_next c (hqualified e List.mem_cons_self)
          (hname _ List.mem_cons_self).2

/-- The texts of the parts are marked as the parts say. The state that the reading of the source
has in front of a part is the one that the reading of the copy has there. -/
theorem marksFrom_text {parts : List Copy} (hsteady : ∀ x ∈ parts, x.Steady) {s : LexState}
    {before : Text} {offset : Nat} {code : Text}
    (h : spotsFrom s before offset code = parts.flatMap source) :
    marksFrom s (parts.flatMap text) = parts.flatMap marks := by
  induction parts generalizing s before offset code with
  | nil => rfl
  | cons part parts ih =>
    have hrest : ∀ x ∈ parts, x.Steady := fun x hx => hsteady x (List.mem_cons_of_mem _ hx)
    cases part with
    | kept u =>
      cases code with
      | nil => simp [spotsFrom, source] at h
      | cons c code =>
        obtain ⟨rfl, htail⟩ := List.cons.inj h
        have hhead := step_head hrest htail s c
        simp only [List.flatMap_cons, text, List.singleton_append, marksFrom, hhead, marks]
        rw [ih hrest htail]
    | put name qualified =>
      obtain ⟨⟨hne, hname⟩, -, hqualified⟩ := hsteady _ List.mem_cons_self
      obtain ⟨hs, before', offset', rest, htail⟩ := of_spotsFrom_append_name hne hname h
      simp only [List.flatMap_cons, text, marks]
      rw [marksFrom_append_name hs hqualified, ih hrest htail]

end Copy

def classified (code : Text) : List (Char × Bool) := code.zip (marks code)

/-- What is not code in a text: strings, comments and template texts, with their delimiters. -/
def literals (code : Text) : Text := ((classified code).filter fun x => !x.2).map (·.1)

/-- The braces of a text that open and close blocks. -/
def blockBraces (code : Text) : Text :=
  ((classified code).filter fun x => x.2 && isBrace x.1).map (·.1)

theorem classified_eq_map_spots (code : Text) :
    classified code = (spots code).map fun s => (s.char, s.code) := by
  have hchars : (spots code).map Spot.char = code := text_spots code
  have hmarks : (spots code).map Spot.code = marks code := code_spotsFrom .start [] 0 code
  calc classified code = ((spots code).map Spot.char).zip ((spots code).map Spot.code) := by
        rw [hchars, hmarks, classified]
    _ = (spots code).map fun s => (s.char, s.code) := List.zip_map'

theorem zip_flatMap {parts : List Copy} :
    (parts.flatMap Copy.text).zip (parts.flatMap Copy.marks) =
      parts.flatMap fun x => x.text.zip x.marks := by
  induction parts with
  | nil => rfl
  | cons part parts ih =>
    have hlength : part.text.length = part.marks.length := by
      cases part <;> simp [Copy.text, Copy.marks]
    simp only [List.flatMap_cons, List.zip_append hlength, ih]

theorem filter_classified_copies {parts : List Copy} (hsteady : ∀ x ∈ parts, x.Steady)
    {code : Text} (hsource : parts.flatMap Copy.source = spots code)
    (hmarks : marks (parts.flatMap Copy.text) = parts.flatMap Copy.marks)
    {p : Char × Bool → Bool} (hp : ∀ c, isNameChar c = true → p (c, true) = false) :
    (classified (parts.flatMap Copy.text)).filter p = (classified code).filter p := by
  rw [classified_eq_map_spots code, ← hsource, classified, hmarks, zip_flatMap, List.map_flatMap,
    List.filter_flatMap, List.filter_flatMap]
  refine List.flatMap_congr fun part hpart => ?_
  cases part with
  | kept s => rfl
  | put name qualified =>
    obtain ⟨⟨-, hname⟩, -, hqualified⟩ := hsteady _ hpart
    have hput : (qualified.zip (qualified.map fun _ => true)).filter p = [] := by
      rw [List.filter_eq_nil_iff]
      rintro ⟨c, mark⟩ hx
      obtain ⟨hc, hmark⟩ := List.of_mem_zip hx
      obtain ⟨-, -, rfl⟩ := List.mem_map.mp hmark
      simp [hp c (hqualified c hc)]
    have hreplaced : (name.map fun s => (s.char, s.code)).filter p = [] := by
      rw [List.filter_eq_nil_iff]
      intro x hx
      obtain ⟨s, hs, rfl⟩ := List.mem_map.mp hx
      obtain ⟨hcode, hchar⟩ := hname s hs
      simp [hcode, hp s.char hchar]
    exact hput.trans hreplaced.symm

/-- The seed of a module that exports through a name with dots, or none. -/
def IsExportSeed (id : ModuleId) (seed : List Binding) : Prop :=
  seed = [] ∨ ∃ target, (∀ c ∈ target, isNameChar c = true) ∧ seed = [Binding.ofExport target id]

theorem IsExportSeed.braceless {id : ModuleId} {seed : List Binding} (h : IsExportSeed id seed) :
    ∀ b ∈ seed, b.Braceless := by
  rcases h with rfl | ⟨target, htarget, rfl⟩
  · simp
  · intro b hb
    obtain rfl := List.mem_singleton.mp hb
    have hno : ∀ c, isNameChar c = false → c ∉ target := fun c hc hmem => by
      simp [htarget c hmem] at hc
    exact ⟨hno _ rfl, hno _ rfl⟩

/-- Names that hold no character by which the reading of a script changes its state, the one that is
replaced and the one that replaces it. -/
def Binding.Named (b : Binding) : Prop :=
  (∀ c ∈ b.name, isNameChar c = true) ∧ b.qualified ≠ [] ∧
    ∀ c ∈ b.qualified, isNameChar c = true

theorem Binding.Made.named {id : ModuleId} (hne : id.text ≠ [])
    (hid : ∀ c ∈ id.text, isIdentifierChar c = true) {seed : List Binding}
    (hseed : IsExportSeed id seed) {b : Binding} (h : b.Made id seed) : b.Named := by
  have hid' : ∀ c ∈ id.text, isNameChar c = true :=
    fun c hc => isNameChar_of_isIdentifierChar (hid c hc)
  rcases h with hb | ⟨hname, hqualified⟩
  · rcases hseed with rfl | ⟨target, htarget, rfl⟩
    · simp at hb
    · obtain rfl := List.mem_singleton.mp hb
      exact ⟨htarget, hne, hid'⟩
  · have hname' : ∀ c ∈ b.name, isNameChar c = true := fun c hc =>
      isNameChar_of_isIdentifierChar (isIdentifierChar_of_isIdentifier hname hc)
    rw [Named, hqualified]
    refine ⟨hname', by simp [ModuleId.qualify], fun c hc => ?_⟩
    rcases List.mem_append.mp hc with hc | hc
    · exact hid' c hc
    · rcases List.mem_cons.mp hc with rfl | hc
      · rfl
      · exact hname' c hc

theorem steady_of_mem_copies {code : Text} {id : ModuleId} (hne : id.text ≠ [])
    (hid : ∀ c ∈ id.text, isIdentifierChar c = true) {seed : List Binding}
    (hseed : IsExportSeed id seed) : ∀ x ∈ copies code id seed, x.Steady := by
  intro x hx
  cases x with
  | kept s => trivial
  | put name qualified =>
    obtain ⟨b, hb, hput⟩ := putBy_of_mem_copies code id hx
    obtain ⟨s, rest, rfl, -⟩ := hput.exists_cons
    have hnamed := hb.named hne hid hseed
    rw [hput.qualified_eq]
    refine ⟨⟨List.cons_ne_nil s rest, fun t ht => ⟨hput.code t ht, hnamed.1 _ ?_⟩⟩, hnamed.2⟩
    rw [← hput.text_eq]
    exact List.mem_map_of_mem ht

/-- **Namespacing leaves literals, comments and blocks alone.** Read anew, a namespaced text has
the same characters outside code, and the same braces in code, as its source. Each character that
is kept is marked as it was in the source, and all that is put in place of names is code. -/
theorem marks_namespaceModule (code : Text) (id : ModuleId) (seed : List Binding)
    (hne : id.text ≠ []) (hid : ∀ c ∈ id.text, isIdentifierChar c = true)
    (hseed : IsExportSeed id seed) :
    let out := (namespaceModule code id seed).code
    let parts := copies code id seed
    literals out = literals code ∧ blockBraces out = blockBraces code ∧
      parts.flatMap Copy.source = spots code ∧ parts.flatMap Copy.text = out ∧
      marks out = parts.flatMap Copy.marks := by
  intro out parts
  have hsteady : ∀ x ∈ parts, x.Steady := steady_of_mem_copies hne hid hseed
  have hsource : parts.flatMap Copy.source = spots code := source_copies code id seed
  have htext : parts.flatMap Copy.text = out := text_copies code id hseed.braceless
  have hmarks : marks (parts.flatMap Copy.text) = parts.flatMap Copy.marks :=
    Copy.marksFrom_text hsteady hsource.symm
  rw [← htext]
  refine ⟨?_, ?_, hsource, rfl, hmarks⟩
  · rw [literals, filter_classified_copies hsteady hsource hmarks (by simp), literals]
  · rw [blockBraces, filter_classified_copies hsteady hsource hmarks, blockBraces]
    exact fun c hc => by simp [not_isBrace_of_isNameChar hc]

/-- Names next to comments, and in a block within an interpolation. -/
theorem marks_namespaceModule_interpolated :
    let code := "let x = 1;\x60x$\x7b\x7bx/*x*/\x7d\x7dx\x60;module.exports = 2/x//x".toList
    let out := "let M_x = 1;\x60x$\x7b\x7bM_x/*x*/\x7d\x7dx\x60;M = 2/M_x//x".toList
    let id : ModuleId := ⟨['M']⟩
    let seed := [Binding.ofExport "module.exports".toList id]
    (id.text ≠ [] ∧ (∀ c ∈ id.text, isIdentifierChar c = true) ∧ IsExportSeed id seed) ∧
      literals out = literals code ∧ blockBraces out = ['\x7b', '\x7d'] := by
  intro code out id seed
  have hne : id.text ≠ [] := List.cons_ne_nil _ _
  have hid : ∀ c ∈ id.text, isIdentifierChar c = true := List.all_eq_true.mp (by decide +kernel)
  have hseed : IsExportSeed id seed := Or.inr ⟨_, List.all_eq_true.mp (by decide +kernel), rfl⟩
  have hout : (namespaceModule code id seed).code = out := by decide +kernel
  obtain ⟨hliterals, hbraces, -⟩ := marks_namespaceModule code id seed hne hid hseed
  rw [hout] at hliterals hbraces
  exact ⟨⟨hne, hid, hseed⟩, hliterals, hbraces.trans (by decide +kernel)⟩

end ScriptBundle
