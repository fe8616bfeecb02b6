import ScriptBundle.Script.Marks

/-! A script as the list of its spots. A spot is a character together with all that stands around
it, so a stretch of spots still knows the text from which it was cut. -/
namespace ScriptBundle

structure Spot where
  /-- The text before the character, the nearest character first. -/
  before : Text
  char : Char
  after : Text
  /-- The width of the text before. -/
  offset : Nat
  code : Bool

namespace Spot

def text (spots : List Spot) : Text := spots.map char

def isCode (s : Spot) (c : Char) : Bool := s.code && s.char == c

end Spot

def spotsFrom (s : LexState) (before : Text) (offset : Nat) : Text → List Spot
  | [] => []
  | c :: rest =>
    ⟨before, c, rest, offset, (s.step c rest.head?).1⟩ ::
      spotsFrom (s.step c rest.head?).2 (c :: before) (offset + c.utf8Size) rest

def spots (code : Text) : List Spot := spotsFrom .start [] 0 code

@[simp] theorem text_spotsFrom (s : LexState) (before : Text) (offset : Nat) (code : Text) :
    Spot.text (spotsFrom s before offset code) = code := by
  induction code generalizing s before offset with
  | nil => rfl
  | cons c code ih => simpa [spotsFrom, Spot.text] using ih _ _ _

@[simp] theorem text_spots (code : Text) : Spot.text (spots code) = code := by
  simp [spots]

theorem code_spotsFrom (s : LexState) (before : Text) (offset : Nat) (code : Text) :
    (spotsFrom s before offset code).map Spot.code = marksFrom s code := by
  induction code generalizing s before offset with
  | nil => rfl
  | cons c code ih => simp [spotsFrom, marksFrom, ih]

def Spot.range (start stop : Nat) (spots : List Spot) : List Spot :=
  spots.filter fun s => start ≤ s.offset && s.offset < stop

end ScriptBundle
