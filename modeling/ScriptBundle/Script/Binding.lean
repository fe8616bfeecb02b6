import ScriptBundle.ModuleId

/-! Names and what replaces them. -/
namespace ScriptBundle

/-- A name, the qualified name that replaces it, and the offset from which it does. -/
structure Binding where
  name : Text
  qualified : Text
  since : Nat := 0
  deriving DecidableEq

namespace Binding

/-- The export target of a module stands for the module itself. -/
def ofExport (target : Text) (id : ModuleId) : Binding := ⟨target, id.text, 0⟩

end Binding
end ScriptBundle
