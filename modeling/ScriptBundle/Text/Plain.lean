import ScriptBundle.Text.Basic

/-! Plain texts: no terminal sequences, and of the control characters only those that lay a text
out. Layout within a sequence does not end it: what follows is shown up to the next control
character, and there the sequence goes on. -/
namespace ScriptBundle

def isLayout (c : Char) : Bool := c == '\t' || c == '\n' || c == '\x0c' || c == '\r'

def isPlain (c : Char) : Bool := isLayout c || (' ' ≤ c && c != '\x7f')

/-- What was read of a terminal sequence. -/
inductive Sequence
  | outside
  | escape
  /-- An escape with marks after it. -/
  | marked
  | control
  /-- A device string before its parameters, in them and in the marks after them. -/
  | device | deviceParameters | deviceMarks
  /-- A string that a byte 9C ends. -/
  | string
  /-- A string that a bell ends. -/
  | command
  deriving DecidableEq

namespace Sequence

def isMark (c : Char) : Bool := ' ' ≤ c && c ≤ '/'

def ofIntroducer (c : Char) : Sequence :=
  if c = '[' then .control
  else if c = ']' then .command
  else if c = 'P' then .device
  else if c = 'X' ∨ c = '^' ∨ c = '_' then .string
  else if isMark c then .marked
  else if '0' ≤ c ∧ c ≤ '~' then .outside
  else .escape

/-- The state after a character. An escape begins a sequence anew, and a cancel ends it. -/
def step (s : Sequence) (c : Char) : Sequence :=
  if c = '\x1b' then .escape
  else if c = '\x18' ∨ c = '\x1a' then .outside
  else match s with
    | .outside => .outside
    | .escape => ofIntroducer c
    | .marked => if '0' ≤ c ∧ c ≤ '~' then .outside else .marked
    | .control => if '@' ≤ c ∧ c ≤ '~' then .outside else .control
    | .device =>
      if isMark c then .deviceMarks
      else if '0' ≤ c ∧ c ≤ '?' then .deviceParameters
      else if '@' ≤ c ∧ c ≤ '~' then .string
      else .device
    | .deviceParameters =>
      if isMark c then .deviceMarks
      else if '<' ≤ c ∧ c ≤ '~' then .string
      else .deviceParameters
    | .deviceMarks => if '0' ≤ c ∧ c ≤ '~' then .string else .deviceMarks
    | .string => if 0x9C ∈ String.utf8EncodeChar c then .outside else .string
    | .command => if c = '\x07' then .outside else .command

/-- Whether a character stays. Layout stays except in a string. -/
def keeps (s : Sequence) (c : Char) : Bool :=
  match s with
  | .outside => isPlain c
  | .escape | .marked | .control => isLayout c
  | _ => false

end Sequence

/-- The state between two characters of a text that is shown plainly. -/
structure PlainState where
  sequence : Sequence
  /-- The characters are shown until the next control character. -/
  showing : Bool
  deriving DecidableEq

namespace PlainState

def start : PlainState := ⟨.outside, true⟩

def keeps (s : PlainState) (c : Char) : Bool :=
  if s.showing then isPlain c else s.sequence.keeps c

/-- The state after a character. Beyond ASCII, a shown character also ends a sequence that has
not come to its end. -/
def step (s : PlainState) (c : Char) : PlainState :=
  if s.showing then
    if isPlain c then (if c ≤ '\x7f' then s else start) else ⟨s.sequence.step c, false⟩
  else ⟨s.sequence.step c, s.sequence.keeps c⟩

end PlainState

def plainFrom (s : PlainState) : Text → Text
  | [] => []
  | c :: rest => if s.keeps c then c :: plainFrom (s.step c) rest else plainFrom (s.step c) rest

/-- The text without terminal sequences and control characters. -/
def plain (t : Text) : Text := plainFrom .start t

end ScriptBundle
