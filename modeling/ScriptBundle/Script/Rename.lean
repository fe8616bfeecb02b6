import ScriptBundle.Identifier
import ScriptBundle.Script.Binding
import ScriptBundle.Script.Spot

/-! Replacing bound names. A name is replaced where it stands as a whole: all of it code, a boundary
on each side, and no dot before it but the last one of a spread. -/
namespace ScriptBundle

def boundaryChars : List Char :=
  ['.', ' ', '(', ')', '=', ',', '[', ']', '\n', ';', '\t', '\r', '{', '}', '!', '+', '-', '*',
    '/', '%', '<', '>', '&', '|', '?', '^', '~']

def isBoundary (c : Char) : Bool := boundaryChars.contains c

theorem isIdentifierChar_of_isBoundary {c : Char} (h : isBoundary c = true) :
    isIdentifierChar c = false := by
  have hall : boundaryChars.all (!isIdentifierChar ·) = true := by rfl
  simpa using List.all_eq_true.mp hall c (List.contains_iff_mem.mp h)

namespace Spot

/-- Whether a name may begin after this text, of which the last character comes first. -/
def opensAfter : Text → Bool
  | [] => true
  | '.' :: '.' :: '.' :: '.' :: _ => false
  | '.' :: '.' :: '.' :: _ => true
  | '.' :: _ => false
  | c :: _ => isBoundary c

/-- Whether a name may end before this text. -/
def closesBefore : Text → Bool
  | [] => true
  | c :: _ => isBoundary c

end Spot

/-- Whether `name` stands, all of it code and closed by a boundary, at the start of the spots. -/
def standsAt : Text → List Spot → Bool
  | [], _ => false
  | _ :: _, [] => false
  | [c], s :: _ => s.isCode c && Spot.closesBefore s.after
  | c :: name, s :: rest => s.isCode c && standsAt name rest

theorem ne_nil_of_standsAt {name : Text} {spots : List Spot} (h : standsAt name spots = true) :
    name ≠ [] := by
  rintro rfl
  simp [standsAt] at h

/-- The binding of the longest name; of equally long ones, the last. -/
def longest : List Binding → Option Binding
  | [] => none
  | b :: more =>
    match longest more with
    | none => some b
    | some a => if b.name.length ≤ a.name.length then some a else some b

/-- The binding that replaces the name at the start of the spots, if any does. -/
def bindingAt (bindings : List Binding) : List Spot → Option Binding
  | [] => none
  | s :: rest =>
    if s.code && isIdentifierChar s.char && Spot.opensAfter s.before then
      longest (bindings.filter fun b => b.since ≤ s.offset && standsAt b.name (s :: rest))
    else none

/-- The text of the spots with bound names replaced, after `skip` spots that are left out. -/
def renameFrom (bindings : List Binding) : Nat → List Spot → Text
  | _, [] => []
  | skip + 1, _ :: rest => renameFrom bindings skip rest
  | 0, s :: rest =>
    match bindingAt bindings (s :: rest) with
    | some b => b.qualified ++ renameFrom bindings (b.name.length - 1) rest
    | none => s.char :: renameFrom bindings 0 rest

def rename (bindings : List Binding) (spots : List Spot) : Text := renameFrom bindings 0 spots

theorem renameFrom_nil_bindings (spots : List Spot) : renameFrom [] 0 spots = Spot.text spots := by
  induction spots with
  | nil => rfl
  | cons s spots ih => simp [renameFrom, bindingAt, longest, Spot.text, ih]

end ScriptBundle
