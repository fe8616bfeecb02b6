import ScriptBundle.Digest.Sha256
import ScriptBundle.Identifier
import ScriptBundle.Path

/-! Names of modules inside a bundle. The id of a module follows from its path alone; it stands for
the module's exports and begins the names of its locals. -/
namespace ScriptBundle

structure ModuleId where
  text : Text
  deriving DecidableEq

namespace ModuleId

instance : ToString ModuleId := ⟨fun id => String.ofList id.text⟩

/-- How every generated id begins. -/
def lead : Text := ['_', '_', 'k', 'n', 'i', 't', '_']

def hash (p : Path) : Text := (Sha256.hex (Sha256.digest p.bytes)).take 6

def stem (p : Path) : Text := sanitize (Utf8.decodeLossy (p.stem?.getD []))

/-- The id of the module at a path: its hash and, where there is one, its stem. -/
def ofPath (p : Path) : ModuleId :=
  if (stem p).isEmpty then ⟨lead ++ hash p⟩ else ⟨lead ++ hash p ++ '_' :: stem p⟩

/-- The name that a local of the module has in the bundle. -/
def qualify (id : ModuleId) (name : Text) : Text := id.text ++ '_' :: name

end ModuleId
end ScriptBundle
