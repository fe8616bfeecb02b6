import ScriptBundle.ModuleId

/-! Resolved modules with what they require below them, and the bundle that a walk over them
gives: each module once, after all that it requires. -/
namespace ScriptBundle

/-- A module whose own text is ready for the bundle. -/
structure ReadyModule where
  path : Path
  id : ModuleId
  code : Text
  deriving DecidableEq

/-- Modules in a row, each with the row of those that it requires. -/
inductive Forest
  | nil
  | cons (m : ReadyModule) (needs rest : Forest)
  deriving DecidableEq

namespace Forest

def tree (m : ReadyModule) (needs : Forest) : Forest := cons m needs nil

end Forest

/-- The paths that a walk has entered and the texts it has left behind. -/
structure Emission where
  entered : List Path
  chunks : List Text

namespace Emission

def start : Emission := ⟨[], []⟩

def enter (e : Emission) (p : Path) : Emission := { e with entered := e.entered ++ [p] }

def leave (e : Emission) (chunk : Text) : Emission := { e with chunks := e.chunks ++ [chunk] }

def hasEntered (e : Emission) (p : Path) : Bool := e.entered.any fun q => decide (Path.Same q p)

end Emission

namespace Forest

/-- The walk over a forest: a module not yet entered is left after all that it requires. -/
def emit : Forest → Emission → Emission
  | nil, e => e
  | cons m needs rest, e =>
    rest.emit (if e.hasEntered m.path then e else (needs.emit (e.enter m.path)).leave m.code)

/-- The texts of the modules in the order of the bundle. -/
def chunks (f : Forest) : List Text := (f.emit .start).chunks

end Forest

/-- A chunk after a text, on a line of its own. -/
def appendChunk (text chunk : Text) : Text :=
  if text = [] ∨ text.getLast? = some '\n' then text ++ chunk else text ++ '\n' :: chunk

def joinChunks (chunks : List Text) : Text := chunks.foldl appendChunk []

def Forest.bundleText (f : Forest) : Text := joinChunks f.chunks

end ScriptBundle
