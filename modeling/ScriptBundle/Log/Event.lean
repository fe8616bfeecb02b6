import ScriptBundle.ModuleId
import ScriptBundle.Script.Declaration

/-! What a run reports as it goes: each event has a level and a wording. -/
namespace ScriptBundle

inductive Level
  | warn | info | debug | trace
  deriving DecidableEq

namespace Level

def rank : Level → Nat
  | warn => 0
  | info => 1
  | debug => 2
  | trace => 3

def name : Level → String
  | warn => "WARN"
  | info => "INFO"
  | debug => "DEBUG"
  | trace => "TRACE"

end Level

inductive Event
  /-- A require call was found in a text. -/
  | found (argument : Text) (start stop : Nat)
  /-- A call that is no relative one stays as it is. -/
  | kept (argument : Text) (file : Path)
  | resolving (specifier : Text) (file : Path)
  | resolvedByExtension (specifier : Text) (target : Path) (extension : Text)
  | resolvedByIndex (directory target : Path)
  /-- A relative call was replaced by the id of its target. -/
  | replaced (file : Path) (argument : Text) (id : ModuleId)
  | registered (path : Path) (id : ModuleId)
  | registeredBefore (path : Path) (existing ignored : ModuleId)
  | edge (requirer target : Path)
  | declared (declaration : Declaration) (depth : Nat)
  | strayBrace (offset : Nat) (id : ModuleId)
  | bundling (entry : Path)
  | joining (path : Path)
  | loading (path : Path) (id : ModuleId)
  | namespaced (path : Path) (width : Nat)
  | bundled (count : Nat)

namespace Event

def level : Event → Level
  | strayBrace .. => .warn
  | bundling .. | bundled .. => .info
  | kept .. | resolvedByExtension .. | resolvedByIndex .. | replaced .. | registered ..
  | registeredBefore .. | loading .. => .debug
  | found .. | resolving .. | edge .. | declared .. | joining .. | namespaced .. => .trace

def message : Event → String
  | found argument start stop => s!"Found require({String.ofList argument}) at {start}..{stop}"
  | kept argument file => s!"Leaving require('{String.ofList argument}') in {file} for the runtime"
  | resolving specifier file => s!"Resolving '{String.ofList specifier}' from {file}"
  | resolvedByExtension specifier target extension =>
    s!"Resolved '{String.ofList specifier}' to {target} " ++
      s!"by adding extension '{String.ofList extension}'"
  | resolvedByIndex directory target => s!"Resolved directory {directory} to {target}"
  | replaced file argument id => s!"{file}: require('{String.ofList argument}') -> {id}"
  | registered path id => s!"Registered module {path} as {id}"
  | registeredBefore path existing ignored =>
    s!"Module {path} already registered as {existing}, ignoring {ignored}"
  | edge requirer target => s!"Edge {requirer} -> {target}"
  | declared d depth => s!"{d.keyword} {String.ofList d.name} at byte {d.offset}, depth {depth}"
  | strayBrace offset id => s!"Unmatched `\x7d` at byte {offset} in module {id}"
  | bundling entry => s!"Bundling {entry}"
  | joining path => s!"Joining resolution of {path}"
  | loading path id => s!"Resolving {path} as {id}"
  | namespaced path width => s!"Namespaced {path} ({width} bytes)"
  | bundled count => s!"Bundled {count} module(s)"

def line (e : Event) : String := e.level.name ++ " " ++ e.message

end Event
end ScriptBundle
