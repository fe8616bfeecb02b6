import ScriptBundle.Log.Event
import ScriptBundle.Script.Block
import ScriptBundle.Script.Rename

/-! Qualifying the names that a module declares. Within a block all of its own declarations are in
effect from where they stand, together with those that the blocks around it made before it began;
what an inner block declares is gone at its end. -/
namespace ScriptBundle

def Declaration.binding (id : ModuleId) (d : Declaration) : Binding :=
  ⟨d.name, id.qualify d.name, d.offset⟩

def Spot.bindings (id : ModuleId) (own : List Spot) : List Binding :=
  (own.filterMap Spot.declaration?).map (Declaration.binding id)

namespace Block

def bindings (id : ModuleId) : Block → List Binding
  | plain own => Spot.bindings id own
  | nest own _ rest => Spot.bindings id own ++ rest.bindings id

/-- The text of the block with names replaced: its own stretches by `all`, a block inside by its
own declarations and by `current`, the bindings made before it. -/
def renamed (id : ModuleId) (all current : List Binding) : Block → Text
  | plain own => rename all own
  | nest own inner rest =>
    let reached := current ++ Spot.bindings id own
    rename all own ++ inner.renamed id (reached ++ inner.bindings id) reached ++
      rest.renamed id all reached

def namespaced (id : ModuleId) (outer : List Binding) (b : Block) : Text :=
  b.renamed id (outer ++ b.bindings id) outer

def event? (id : ModuleId) (depth : Nat) (s : Spot) : Option Event :=
  if s.isCode '}' then some (.strayBrace s.offset id)
  else s.declaration?.map (.declared · depth)

/-- What is met in the block, in the order of the text. With `closing`, the first spot closes the
block before it. -/
def events (id : ModuleId) (depth : Nat) (closing : Bool) : Block → List Event
  | plain own => (own.drop closing.toNat).filterMap (event? id depth)
  | nest own inner rest =>
    (own.drop closing.toNat).filterMap (event? id depth) ++ inner.events id (depth + 1) false ++
      rest.events id depth true

theorem exists_of_mem_events {id : ModuleId} {depth : Nat} {closing : Bool} {b : Block} {e : Event}
    (h : e ∈ b.events id depth closing) :
    ∃ s ∈ b.spots, ∃ depth, event? id depth s = some e := by
  have hown : ∀ {own : List Spot} {depth n : Nat}, e ∈ (own.drop n).filterMap (event? id depth) →
      ∃ s ∈ own, ∃ depth, event? id depth s = some e := by
    intro own depth n h
    obtain ⟨s, hs, he⟩ := List.mem_filterMap.mp h
    exact ⟨s, List.mem_of_mem_drop hs, depth, he⟩
  induction b generalizing depth closing with
  | plain own => exact hown h
  | nest own inner rest ihinner ihrest =>
    rw [events, List.mem_append, List.mem_append] at h
    rcases h with (h | h) | h
    · obtain ⟨s, hs, he⟩ := hown h
      exact ⟨s, by simp [spots, hs], he⟩
    · obtain ⟨s, hs, he⟩ := ihinner h
      exact ⟨s, by simp [spots, hs], he⟩
    · obtain ⟨s, hs, he⟩ := ihrest h
      exact ⟨s, by simp [spots, hs], he⟩

end Block

/-- A block's text with names replaced, the width of the text it came from, and what was met in
it. -/
structure Namespaced where
  code : Text
  consumed : Nat
  events : List Event

/-- The block at the start of the spots, at a nesting depth; at depth 0 no brace ends it. -/
def namespaceBlock (id : ModuleId) (outer : List Binding) (depth : Nat) (spots : List Spot) :
    Namespaced :=
  let block := if depth = 0 then Block.whole spots else Block.inside spots
  ⟨block.namespaced id outer, Text.width (Spot.text block.spots), block.events id depth false⟩

/-- A module's text with each of its declared names qualified by its id. -/
def namespaceModule (code : Text) (id : ModuleId) (seed : List Binding) : Namespaced :=
  namespaceBlock id seed 0 (spots code)

end ScriptBundle
