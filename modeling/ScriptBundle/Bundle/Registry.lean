import ScriptBundle.Log.Event

/-! The modules of a run and their ids, in the order in which they were met. A path is known by its
components, and keeps the spelling and the id with which it first came. -/
namespace ScriptBundle

structure Registry where
  entries : List (Path × ModuleId)

namespace Registry

def empty : Registry := ⟨[]⟩

def get? (r : Registry) (p : Path) : Option ModuleId :=
  (r.entries.find? fun e => decide (Path.Same e.1 p)).map (·.2)

def contains (r : Registry) (p : Path) : Bool := (r.get? p).isSome

def size (r : Registry) : Nat := r.entries.length

def isEmpty (r : Registry) : Bool := r.entries.isEmpty

/-- The registry with the path in it, and the id that the path has there. -/
def register (r : Registry) (p : Path) (id : ModuleId) : Registry × ModuleId :=
  match r.get? p with
  | some existing => (r, existing)
  | none => (⟨r.entries ++ [(p, id)]⟩, id)

def event? (r : Registry) (p : Path) (id : ModuleId) : Option Event :=
  match r.get? p with
  | some existing => if existing = id then none else some (.registeredBefore p existing id)
  | none => some (.registered p id)

end Registry
end ScriptBundle
