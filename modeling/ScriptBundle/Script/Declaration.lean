import ScriptBundle.Identifier
import ScriptBundle.Script.Spot
import ScriptBundle.Text.Blank

/-! Declarations of a name by `var`, `let` or `const`: a single identifier, or the head of a loop.
Patterns declare nothing here. -/
namespace ScriptBundle

inductive Keyword
  | var | let | const
  deriving DecidableEq

namespace Keyword

def text : Keyword → Text
  | .var => ['v', 'a', 'r']
  | .let => ['l', 'e', 't']
  | .const => ['c', 'o', 'n', 's', 't']

def all : List Keyword := [.var, .let, .const]

instance : ToString Keyword := ⟨fun k => String.ofList k.text⟩

end Keyword

structure Declaration where
  keyword : Keyword
  name : Text
  /-- Where the keyword begins. -/
  offset : Nat
  deriving DecidableEq

namespace Declaration

/-- A character that ends the part of a declaration in which its name is looked for. -/
def endsHead (c : Char) : Bool := c == '=' || c == ';' || c == '\n' || c == ')'

/-- The name declared by what follows a keyword: an identifier alone, or before `of` or `in`. -/
def name? (rest : Text) : Option Text :=
  let head := Text.trim (rest.takeWhile (!endsHead ·))
  if isIdentifier head then some head
  else match Text.words head with
    | name :: word :: _ =>
      if (word = ['o', 'f'] ∨ word = ['i', 'n']) ∧ isIdentifier name then some name else none
    | _ => none

/-- Whether a word may begin after this text, of which the last character comes first. -/
def standsAlone : Text → Bool
  | [] => true
  | c :: _ => !isIdentifierChar c && c != '.'

def afterKeyword? (text : Text) (k : Keyword) : Option (Keyword × Text) :=
  match Text.after? k.text text with
  | some (c :: rest) => if isBlank c then some (k, c :: rest) else none
  | _ => none

end Declaration

/-- The declaration that begins at the spot, if there is one. -/
def Spot.declaration? (s : Spot) : Option Declaration :=
  if s.code && Declaration.standsAlone s.before then
    (Keyword.all.findSome? (Declaration.afterKeyword? (s.char :: s.after))).bind fun (k, rest) =>
      (Declaration.name? rest).map (⟨k, ·, s.offset⟩)
  else none

end ScriptBundle
