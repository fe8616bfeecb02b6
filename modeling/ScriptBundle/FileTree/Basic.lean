import ScriptBundle.FileTree.Fault
import ScriptBundle.Path

/-! A tree of files, directories and links as a finite map from locations. -/
namespace ScriptBundle

/-- The names that lead from the root to a place in the tree. -/
abbrev Location := List Name

namespace Location

def path (l : Location) : Path := Path.spell .root l

def width (l : Location) : Nat := l.path.bytes.length

end Location

inductive Node
  | file (content : List UInt8)
  | directory
  | link (target : Path)
  deriving DecidableEq

/-- Every location is listed at most once; the root is a directory and not listed. -/
structure FileTree where
  workingDirectory : Location
  entries : List (Location × Node)

namespace FileTree

def node? (tree : FileTree) (l : Location) : Option Node :=
  if l = [] then some .directory else tree.entries.lookup l

/-- The number of places in the tree, the root included. -/
def size (tree : FileTree) : Nat := tree.entries.length + 1

def isDirectory (tree : FileTree) (l : Location) : Bool := tree.node? l == some .directory

def put (tree : FileTree) (l : Location) (node : Node) : FileTree :=
  { tree with entries := tree.entries.filter (·.1 != l) ++ [(l, node)] }

/-- The tree with a directory at the location and at each place above it that has none. -/
def makeDirectories (tree : FileTree) (l : Location) : FileTree :=
  (List.range (l.length + 1)).foldl (fun t n =>
    if (t.node? (l.take n)).isSome then t else t.put (l.take n) .directory) tree

def ofDirectory (l : Location) : FileTree := makeDirectories ⟨l, []⟩ l

end FileTree
end ScriptBundle
