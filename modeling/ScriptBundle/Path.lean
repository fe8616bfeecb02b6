import ScriptBundle.Text.Pieces
import ScriptBundle.Text.Utf8

/-! Paths as byte strings. A path keeps the spelling it was given; what it names is read off its
components, which leave out repeated separators, a separator at the end, and `.` anywhere but at
the start. -/
namespace ScriptBundle

abbrev Name := List UInt8

namespace Name

def slash : UInt8 := 47
def dot : UInt8 := 46

def here : Name := [dot]

def up : Name := [dot, dot]

/-- Names that stand for no step: the empty one and `.`. -/
def isIdle (name : Name) : Bool := name.isEmpty || name == here

/-- The parts before and after the last dot; a dot at the very start does not count. -/
def splitDot? (name : Name) : Option (Name × Name) :=
  let after := (name.reverse.takeWhile (· != dot)).reverse
  let before := name.take (name.length - after.length - 1)
  if before.isEmpty then none else some (before, after)

def stem (name : Name) : Name :=
  match splitDot? name with
  | some (before, _) => before
  | none => name

def extension? (name : Name) : Option Name := (splitDot? name).map (·.2)

end Name

structure Path where
  bytes : List UInt8
  deriving DecidableEq, Inhabited

/-- Where the walk along a path begins. -/
inductive Anchor
  | root | here | bare
  deriving DecidableEq

/-- What a path says: where it begins and the names that lead on from there. -/
structure Components where
  anchor : Anchor
  names : List Name
  deriving DecidableEq

namespace Path

def ofText (t : Text) : Path := ⟨Utf8.encode t⟩

/-- The path as it is shown: bytes that are no UTF-8 appear as U+FFFD. -/
def text (p : Path) : Text := Utf8.decodeLossy p.bytes

def toString (p : Path) : String := String.ofList p.text

instance : ToString Path := ⟨toString⟩

def isAbsolute (p : Path) : Bool := p.bytes.head? == some Name.slash

/-- The anchor, and the names after it as they are spelt, idle ones included. -/
def spelling (p : Path) : Anchor × List Name :=
  match pieces Name.slash p.bytes with
  | [] => (.bare, [])
  | first :: rest =>
    if p.isAbsolute then (.root, rest)
    else if first == Name.here then (.here, rest)
    else (.bare, first :: rest)

def components (p : Path) : Components :=
  ⟨p.spelling.1, p.spelling.2.filter (!·.isIdle)⟩

/-- Two spellings of one path. -/
def Same (p q : Path) : Prop := p.components = q.components

instance (p q : Path) : Decidable (Same p q) := inferInstanceAs (Decidable (_ = _))

theorem Same.refl (p : Path) : Same p p := rfl

theorem Same.symm {p q : Path} (h : Same p q) : Same q p := Eq.symm h

theorem Same.trans {p q r : Path} (h : Same p q) (h' : Same q r) : Same p r := Eq.trans h h'

def fileName? (p : Path) : Option Name :=
  match p.components.names.getLast? with
  | some name => if name = Name.up then none else some name
  | none => none

def stem? (p : Path) : Option Name := p.fileName?.map Name.stem

def extension? (p : Path) : Option Name := p.fileName?.bind Name.extension?

def spell : Anchor → List Name → Path
  | .root, names => ⟨Name.slash :: joinPieces Name.slash names⟩
  | .here, names => ⟨joinPieces Name.slash (Name.here :: names)⟩
  | .bare, names => ⟨joinPieces Name.slash names⟩

/-- The names without the idle ones at the end. -/
def trimIdle (names : List Name) : List Name :=
  (names.reverse.dropWhile Name.isIdle).reverse

def parent? (p : Path) : Option Path :=
  match p.spelling.1, trimIdle p.spelling.2 with
  | .here, [] => some ⟨[]⟩
  | _, [] => none
  | anchor, names => some (spell anchor (trimIdle names.dropLast))

/-- The path that `q` names when it is read from the directory `p`. -/
def join (p q : Path) : Path :=
  if q.isAbsolute then q
  else if p.bytes.isEmpty || p.bytes.getLast? == some Name.slash then ⟨p.bytes ++ q.bytes⟩
  else ⟨p.bytes ++ Name.slash :: q.bytes⟩

/-- The path with `extension` in place of what its last name has; without a last name, unchanged. -/
def withExtension (p : Path) (extension : Name) : Path :=
  match p.fileName? with
  | none => p
  | some name =>
    let names := (trimIdle p.spelling.2).dropLast
    let ending := if extension.isEmpty then [] else Name.dot :: extension
    spell p.spelling.1 (names ++ [name.stem ++ ending])

end Path
end ScriptBundle
