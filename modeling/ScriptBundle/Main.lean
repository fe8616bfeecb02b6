import ScriptBundle.CommandLine.Outcome

/-! The command itself. It first looks up every place that the bundle can need and keeps what it
sees as a tree; the bundle is then made from that tree alone. -/
namespace ScriptBundle
namespace Disk

def isLinkLoop : IO.Error → Bool
  | .invalidArgument _ code _ => code == 40 || code == 0 - 40
  | _ => false

/-- What is at a place without content: a link that leads back to itself, or nothing. -/
def lookAtGap (l : Location) : IO (Option Node) := do
  try
    let _ ← IO.FS.readBinFile l.path.toString
    return none
  catch e =>
    return if isLinkLoop e then some (.link l.path) else none

/-- What is at a place that is reached without links. A link is kept as one to its final target. -/
def look (l : Location) : IO (Option Node) := do
  let path := l.path.toString
  try
    let real ← IO.FS.realPath path
    if real.toString != path then return some (.link (Path.ofText real.toString.toList))
    if ← real.isDir then return some .directory
    return some (.file (← IO.FS.readBinFile path).toList)
  catch _ => lookAtGap l

partial def observeFrom (tree : FileTree) (links : Nat) (start : Location) :
    List Name → IO FileTree
  | [] => return tree
  | name :: rest => do
    if name == Name.up then observeFrom tree links start.dropLast rest
    else if name.isIdle then observeFrom tree links start rest
    else
      let l := start ++ [name]
      let node ← if (tree.node? l).isSome then pure (tree.node? l) else look l
      match node with
      | none => return tree
      | some (.link target) =>
        let tree := tree.put l (.link target)
        if links == 0 then return tree
        observeFrom tree (links - 1) [] (FileTree.steps target ++ rest)
      | some node => observeFrom (tree.put l node) links l rest

def observe (tree : FileTree) (p : Path) : IO FileTree :=
  observeFrom tree FileTree.linkLimit (if p.isAbsolute then [] else tree.workingDirectory)
    (FileTree.steps p)

partial def gather (extensions : List Text) (tree : FileTree) (seen : List Path) :
    List Path → IO FileTree
  | [] => return tree
  | p :: more => do
    match tree.canonicalize p with
    | .error _ => gather extensions tree seen more
    | .ok file =>
      if seen.contains file then gather extensions tree seen more
      else
        let text := (tree.readText file).toOption.getD []
        let arguments := ((Require.scan text).calls.map (·.argument)).filter isRelative
        let paths := arguments.flatMap fun a => Require.candidates file a extensions
        let tree ← paths.foldlM observe tree
        let targets := arguments.filterMap fun a =>
          (Require.resolve tree file a extensions).outcome.toOption
        gather extensions tree (file :: seen) (targets ++ more)

def snapshot (arguments : List Text) : IO FileTree := do
  let here := (← IO.currentDir).toString.toList
  let tree := FileTree.ofDirectory ((FileTree.steps (Path.ofText here)).filter (!·.isIdle))
  match Invocation.ofArguments arguments with
  | .bundle c =>
    let entry := Path.ofText c.entry
    gather c.settings.extensions (← observe tree entry) [] [entry]
  | _ => return tree

end Disk
end ScriptBundle

open ScriptBundle in
def main (arguments : List String) : IO UInt32 := do
  let arguments := arguments.map String.toList
  let result := runCommand (← Disk.snapshot arguments) arguments
  IO.eprint (String.ofList result.standardError)
  IO.print result.out
  return UInt32.ofNat result.exit
