import ScriptBundle.FileTree.Fault
import ScriptBundle.Path

/-! Why a run fails, and the wording of it. -/
namespace ScriptBundle

inductive BundleError
  | fileSystem (path : Path) (fault : Fault)
  /-- A require call in the module at `path` never closes. -/
  | malformedRequire (path : Path) (line offset : Nat)
  /-- Modules that require each other in a circle; the first is named again at the end. -/
  | cyclicDependency (cycle : List Path)
  /-- An extension that holds a separator cannot be put after a name. -/
  | separatorInExtension (extension : Text)
  /-- A module whose turn never came. -/
  | stalled (path : Path)
  deriving DecidableEq

namespace BundleError

/-- The last name of a path, or all of it where there is none. -/
def displayName (p : Path) : String :=
  match p.fileName? with
  | some name => String.ofList (Utf8.decodeLossy name)
  | none => p.toString

def message : BundleError → String
  | fileSystem path _ => s!"failed to read module `{path}`"
  | malformedRequire path line offset =>
    s!"malformed require call in `{path}` at line {line} (byte {offset}): unbalanced parentheses"
  | cyclicDependency cycle =>
    "cyclic dependency detected: " ++ String.intercalate " -> " (cycle.map displayName)
  | separatorInExtension extension =>
    s!"extension '{String.ofList extension}' holds a path separator"
  | stalled path => s!"module {path} waits for itself"

/-- The error and what brought it about, the nearest cause first. -/
def chain : BundleError → List String
  | fileSystem path fault => [(fileSystem path fault).message, fault.message]
  | e => [e.message]

end BundleError
end ScriptBundle
