import ScriptBundle.Bundle.Forest
import ScriptBundle.Bundle.Graph
import ScriptBundle.Bundle.Registry
import ScriptBundle.Require.Substitution
import ScriptBundle.Script.Namespace
import ScriptBundle.Settings

/-! A bundling run. It starts at the entry and makes each module ready once: the text is read, its
relative requires are replaced, the edges to what it requires are recorded, those modules are
visited in turn, and last its own names are qualified. -/
namespace ScriptBundle

structure Run where
  registry : Registry
  graph : RequireGraph
  /-- The modules that are ready, each with what it requires. -/
  ready : List (ReadyModule × Forest)

namespace Run

def start : Run := ⟨.empty, .empty, []⟩

def ready? (run : Run) (p : Path) : Option (ReadyModule × Forest) :=
  run.ready.find? fun m => decide (Path.Same m.1.path p)

def recordEdges (run : Run) (requirer : Path) : List Path → Logged Run
  | [] => return run
  | target :: more =>
    match run.graph.require requirer target with
    | (_, some cycle) => Logged.fail (.cyclicDependency cycle)
    | (graph, none) => do
      Logged.tell (.edge requirer target)
      recordEdges { run with graph } requirer more

def readText (tree : FileTree) (p : Path) : Logged Text :=
  match tree.readText p with
  | .ok text => return text
  | .error fault => Logged.fail (.fileSystem p fault)

def visitAll (visit : Run → Path → Logged (Run × ReadyModule × Forest)) (run : Run) :
    List Path → Logged (Run × Forest)
  | [] => return (run, .nil)
  | p :: more => do
    let (run, m, needs) ← visit run p
    let (run, rest) ← visitAll visit run more
    return (run, .cons m needs rest)

def qualify (settings : Settings) (p : Path) (id : ModuleId) (code : Text) : Logged Text := do
  let n := namespaceModule code id [Binding.ofExport settings.exportTarget id]
  Logged.tellAll n.events
  Logged.tell (.namespaced p n.consumed)
  return n.code

def makeReady (tree : FileTree) (settings : Settings)
    (visit : Run → Path → Logged (Run × ReadyModule × Forest)) (run : Run) (p : Path)
    (id : ModuleId) : Logged (Run × ReadyModule × Forest) := do
  Logged.tell (.loading p id)
  let text ← readText tree p
  let resolution ← Require.resolveRequires tree p text settings.extensions
  let run ← run.recordEdges p resolution.dependencies
  let (run, needs) ← visitAll visit run resolution.dependencies
  let code ← qualify settings p id resolution.code
  let m : ReadyModule := ⟨p, id, code⟩
  return ({ run with ready := run.ready ++ [(m, needs)] }, m, needs)

/-- The module at a path, made ready unless it is; at most `depth` modules wait for one another. -/
def visit (tree : FileTree) (settings : Settings) :
    Nat → Run → Path → Logged (Run × ReadyModule × Forest)
  | 0, _, p => Logged.fail (.stalled p)
  | depth + 1, run, p =>
    if run.registry.contains p then do
      Logged.tell (.joining p)
      match run.ready? p with
      | some m => return (run, m)
      | none => Logged.fail (.stalled p)
    else do
      let id := ModuleId.ofPath p
      Logged.tell (.registered p id)
      makeReady tree settings (visit tree settings depth)
        { run with registry := (run.registry.register p id).1 } p id

end Run

structure Bundle where
  code : Text
  entry : ModuleId
  registry : Registry

/-- The bundle of the entry and of all that it requires. -/
def bundle (tree : FileTree) (settings : Settings) (entry : Path) : Logged Bundle :=
  match tree.canonicalize entry with
  | .error fault => Logged.fail (.fileSystem entry fault)
  | .ok canonical => do
    Logged.tell (.bundling canonical)
    let (run, m, needs) ← Run.visit tree settings tree.size .start canonical
    Logged.tell (.bundled run.registry.size)
    return ⟨(Forest.tree m needs).bundleText, m.id, run.registry⟩

end ScriptBundle
