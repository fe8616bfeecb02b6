import ScriptBundle.Text.Basic

/-! Which characters of a script are code. Strings, template texts and comments are not; what
stands inside a template's `$` and braces is code again. A character is marked from the state before
it and one character of lookahead. -/
namespace ScriptBundle

/-- What the characters being read belong to. -/
inductive Mode
  | code
  | quoted (quote : Char) (escaped : Bool)
  | template (escaped : Bool)
  | lineComment
  | blockComment
  deriving DecidableEq

/-- The state between two characters. -/
structure LexState where
  mode : Mode
  /-- For each open interpolation, the innermost first, the braces open in it. -/
  depths : List Nat
  /-- The next character is the second half of a delimiter. -/
  half : Bool
  deriving DecidableEq

namespace LexState

def start : LexState := ⟨.code, [], false⟩

/-- One brace more in the innermost interpolation. -/
def deepen : List Nat → List Nat
  | [] => []
  | depth :: outer => (depth + 1) :: outer

def stepCode (s : LexState) (c : Char) (next : Option Char) : Bool × LexState :=
  if c = '\'' ∨ c = '"' then (false, { s with mode := .quoted c false })
  else if c = '\x60' then (false, { s with mode := .template false })
  else if c = '/' ∧ next = some '/' then (false, { s with mode := .lineComment, half := true })
  else if c = '/' ∧ next = some '*' then (false, { s with mode := .blockComment, half := true })
  else if c = '{' then (true, { s with depths := deepen s.depths })
  else if c = '}' then
    match s.depths with
    | [] => (true, s)
    | 0 :: outer => (false, { s with mode := .template false, depths := outer })
    | (depth + 1) :: outer => (true, { s with depths := depth :: outer })
  else (true, s)

def stepQuoted (s : LexState) (quote : Char) (escaped : Bool) (c : Char) : Bool × LexState :=
  if escaped then (false, { s with mode := .quoted quote false })
  else if c = '\\' then (false, { s with mode := .quoted quote true })
  else if c = quote then (false, { s with mode := .code })
  else (false, s)

def stepTemplate (s : LexState) (escaped : Bool) (c : Char) (next : Option Char) :
    Bool × LexState :=
  if escaped then (false, { s with mode := .template false })
  else if c = '\\' then (false, { s with mode := .template true })
  else if c = '\x60' then (false, { s with mode := .code })
  else if c = '$' ∧ next = some '{' then (false, ⟨.code, 0 :: s.depths, true⟩)
  else (false, s)

/-- Whether the character `c`, with `next` after it, is code, and the state after it. -/
def step (s : LexState) (c : Char) (next : Option Char) : Bool × LexState :=
  if s.half then (false, { s with half := false })
  else match s.mode with
    | .code => stepCode s c next
    | .quoted quote escaped => stepQuoted s quote escaped c
    | .template escaped => stepTemplate s escaped c next
    | .lineComment => if c = '\n' then (true, { s with mode := .code }) else (false, s)
    | .blockComment =>
      if c = '*' ∧ next = some '/' then (false, { s with mode := .code, half := true })
      else (false, s)

end LexState

def marksFrom (s : LexState) : Text → List Bool
  | [] => []
  | c :: rest => (s.step c rest.head?).1 :: marksFrom (s.step c rest.head?).2 rest

def marks (code : Text) : List Bool := marksFrom .start code

end ScriptBundle
