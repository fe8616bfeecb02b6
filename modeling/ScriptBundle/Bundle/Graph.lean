import ScriptBundle.Path

/-! Which module requires which. An edge that would close a circle is refused, together with the
shortest way back. -/
namespace ScriptBundle

/-- Paths, each with the spelling in which it was first named, and the edges between them. -/
structure RequireGraph where
  nodes : List Path
  edges : List (Path × Path)

namespace RequireGraph

def empty : RequireGraph := ⟨[], []⟩

/-- The spelling under which the path is a node. -/
def node? (g : RequireGraph) (p : Path) : Option Path :=
  g.nodes.find? fun q => decide (Path.Same q p)

def intern (g : RequireGraph) (p : Path) : RequireGraph × Path :=
  match g.node? p with
  | some stored => (g, stored)
  | none => ({ g with nodes := g.nodes ++ [p] }, p)

def successors (g : RequireGraph) (node : Path) : List Path :=
  (g.edges.filter (·.1 = node)).map (·.2)

/-- The ways that are one edge longer, to nodes not yet visited, and the nodes visited then. A way
lists its nodes backwards. -/
def extendWays (g : RequireGraph) (visited : List Path) :
    List (List Path) → List (List Path) × List Path
  | [] => ([], visited)
  | way :: more =>
    let fresh := (way.head?.elim [] g.successors).filter (!visited.contains ·)
    let (ways, seen) := extendWays g (visited ++ fresh) more
    (fresh.map (· :: way) ++ ways, seen)

/-- The first of the ways that ends at the goal, or else of those that go on from them. -/
def searchFrom (g : RequireGraph) (goal : Path) : Nat → List Path → List (List Path) →
    Option (List Path)
  | 0, _, ways => ways.find? (·.head? == some goal)
  | n + 1, visited, ways =>
    match ways.find? (·.head? == some goal) with
    | some way => some way
    | none => searchFrom g goal n (extendWays g visited ways).2 (extendWays g visited ways).1

/-- A shortest way along edges from one node to another, both named. -/
def wayTo? (g : RequireGraph) (start goal : Path) : Option (List Path) :=
  (searchFrom g goal g.nodes.length [start] [[start]]).map List.reverse

/-- The graph after `requirer` was found to require `target`; the nodes are kept even where the edge
is refused for the circle it would close. -/
def require (g : RequireGraph) (requirer target : Path) :
    RequireGraph × Option (List Path) :=
  let (g, a) := g.intern requirer
  let (g, b) := g.intern target
  match g.wayTo? b a with
  | some way => (g, some (requirer :: way))
  | none => (if g.edges.contains (a, b) then g else { g with edges := g.edges ++ [(a, b)] }, none)

end RequireGraph
end ScriptBundle
