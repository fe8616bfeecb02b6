import Mathlib.Data.List.Chain
import Mathlib.Logic.Relation
import ScriptBundle.Bundle.Graph

/-! The search for a way in the graph of requires, and the edges that it lets in. A way is found
when there is one, so an edge is refused exactly when its target leads back to its requirer, and the
edges let in never make a circle. -/
namespace ScriptBundle

open Relation

theorem Path.eq_of_apart {paths : List Path} (h : paths.Pairwise fun p q => ¬ Path.Same p q)
    {p q : Path} (hp : p ∈ paths) (hq : q ∈ paths) (hsame : Path.Same p q) : p = q := by
  have hsymm : Std.Symm fun p q : Path => ¬ Path.Same p q := ⟨fun _ _ hnot hqp => hnot hqp.symm⟩
  by_contra hne
  exact h.forall hp hq hne hsame

namespace RequireGraph

def Edge (g : RequireGraph) (a b : Path) : Prop := (a, b) ∈ g.edges

/-- An edge between two paths, however they are spelt. -/
def Links (g : RequireGraph) (p q : Path) : Prop :=
  ∃ a b, g.Edge a b ∧ Path.Same a p ∧ Path.Same b q

/-- No path is stored in two spellings, and edges run between stored nodes. -/
structure Formed (g : RequireGraph) : Prop where
  apart : g.nodes.Pairwise fun p q => ¬ Path.Same p q
  within : ∀ a b, g.Edge a b → a ∈ g.nodes ∧ b ∈ g.nodes

def Acyclic (g : RequireGraph) : Prop := ∀ p, ¬ TransGen g.Links p p

theorem formed_empty : empty.Formed :=
  ⟨.nil, fun a b hab => by simp [Edge, empty] at hab⟩

theorem not_links_empty (p q : Path) : ¬ empty.Links p q := by
  rintro ⟨a, b, hab, -⟩
  simp [Edge, empty] at hab

theorem acyclic_empty : empty.Acyclic := fun p hp => by
  obtain ⟨q, hq, -⟩ := TransGen.head'_iff.mp hp
  exact not_links_empty p q hq

variable {g : RequireGraph} {goal start : Path} {visited : List Path} {ways : List (List Path)}

theorem mem_successors {a b : Path} : b ∈ g.successors a ↔ g.Edge a b := by
  simp [successors, Edge]

/-- A way from the start along edges; its nodes are listed backwards. -/
structure IsWay (g : RequireGraph) (start : Path) (way : List Path) : Prop where
  edges : way.IsChain fun later earlier => g.Edge earlier later
  begins : way.getLast? = some start

theorem IsWay.cons {way : List Path} {a b : Path} (h : g.IsWay start way)
    (ha : way.head? = some a) (hab : g.Edge a b) : g.IsWay start (b :: way) := by
  obtain ⟨a', way, rfl⟩ : ∃ a' rest, way = a' :: rest :=
    List.exists_cons_of_ne_nil fun hnil => by simp [hnil] at ha
  obtain rfl : a' = a := by simpa using ha
  exact ⟨List.isChain_cons_cons.mpr ⟨hab, h.edges⟩, by simpa using h.begins⟩

theorem mem_extendWays {way : List Path} (h : way ∈ (g.extendWays visited ways).1) :
    ∃ old ∈ ways, ∃ a b, old.head? = some a ∧ g.Edge a b ∧ b ∉ visited ∧ way = b :: old := by
  induction ways generalizing visited with
  | nil => simp [extendWays] at h
  | cons old more ih =>
    simp only [extendWays, List.mem_append, List.mem_map, List.mem_filter] at h
    rcases h with ⟨b, ⟨hb, hnew⟩, rfl⟩ | h
    · cases ha : old.head? with
      | none => simp [ha] at hb
      | some a =>
        rw [ha, Option.elim_some, mem_successors] at hb
        exact ⟨old, by simp, a, b, ha, hb, by simpa using hnew, rfl⟩
    · obtain ⟨old', hold, a, b, ha, hab, hnew, rfl⟩ := ih h
      exact ⟨old', by simp [hold], a, b, ha, hab, fun hb => hnew (by simp [hb]), rfl⟩

theorem mem_seen_extendWays {b : Path} :
    b ∈ (g.extendWays visited ways).2 ↔
      b ∈ visited ∨ ∃ way ∈ (g.extendWays visited ways).1, way.head? = some b := by
  induction ways generalizing visited with
  | nil => simp [extendWays]
  | cons old more ih =>
    simp only [extendWays, ih, List.mem_append, List.mem_map]
    constructor
    · rintro ((hb | hb) | ⟨way, hway, hb⟩)
      · exact Or.inl hb
      · exact Or.inr ⟨b :: old, Or.inl ⟨b, hb, rfl⟩, rfl⟩
      · exact Or.inr ⟨way, Or.inr hway, hb⟩
    · rintro (hb | ⟨way, ⟨b', hb', rfl⟩ | hway, hb⟩)
      · exact Or.inl (Or.inl hb)
      · obtain rfl : b' = b := by simpa using hb
        exact Or.inl (Or.inr hb')
      · exact Or.inr ⟨way, hway, hb⟩

theorem successor_mem_extendWays {way : List Path} {a b : Path} (hway : way ∈ ways)
    (ha : way.head? = some a) (hab : g.Edge a b) : b ∈ (g.extendWays visited ways).2 := by
  induction ways generalizing visited with
  | nil => simp at hway
  | cons old more ih =>
    rcases List.mem_cons.mp hway with rfl | hway
    · simp only [extendWays, ha, Option.elim_some]
      refine mem_seen_extendWays.mpr (Or.inl ?_)
      by_cases hb : b ∈ visited
      · exact List.mem_append_left _ hb
      · exact List.mem_append_right _ (List.mem_filter.mpr ⟨mem_successors.mpr hab, by simp [hb]⟩)
    · exact ih hway

theorem isWay_of_searchFrom {fuel : Nat} {way : List Path} (hways : ∀ w ∈ ways, g.IsWay start w)
    (h : g.searchFrom goal fuel visited ways = some way) :
    g.IsWay start way ∧ way.head? = some goal := by
  have hfind : ∀ {w}, ways.find? (·.head? == some goal) = some w →
      g.IsWay start w ∧ w.head? = some goal :=
    fun hw => ⟨hways _ (List.mem_of_find?_eq_some hw), by simpa using List.find?_some hw⟩
  induction fuel generalizing visited ways with
  | zero => exact hfind h
  | succ fuel ih =>
    rw [searchFrom] at h
    split at h
    · next w hw =>
      obtain rfl := Option.some.inj h
      exact hfind hw
    · have hlonger : ∀ w ∈ (g.extendWays visited ways).1, g.IsWay start w := by
        intro w hw
        obtain ⟨old, hold, a, b, ha, hab, -, rfl⟩ := mem_extendWays hw
        exact (hways old hold).cons ha hab
      exact ih hlonger h fun hw =>
        ⟨hlonger _ (List.mem_of_find?_eq_some hw), by simpa using List.find?_some hw⟩

/-- What the rounds of a search keep: from a visited node where no way ends now, the search has
already gone on, and it is not the goal. -/
def Covered (g : RequireGraph) (goal : Path) (visited : List Path) (ways : List (List Path)) :
    Prop :=
  ∀ a ∈ visited, (∃ way ∈ ways, way.head? = some a) ∨ a ≠ goal ∧ ∀ b, g.Edge a b → b ∈ visited

theorem Covered.extend (h : g.Covered goal visited ways)
    (hnone : ways.find? (·.head? == some goal) = none) :
    g.Covered goal (g.extendWays visited ways).2 (g.extendWays visited ways).1 := by
  intro a ha
  rcases mem_seen_extendWays.mp ha with ha | ha
  · right
    rcases h a ha with ⟨way, hway, hhead⟩ | ⟨hgoal, hnext⟩
    · refine ⟨?_, fun b hab => successor_mem_extendWays hway hhead hab⟩
      rintro rfl
      simpa [hhead] using List.find?_eq_none.mp hnone way hway
    · exact ⟨hgoal, fun b hab => mem_seen_extendWays.mpr (Or.inl (hnext b hab))⟩
  · exact Or.inl ha

theorem not_leads_of_closed (h : ∀ a ∈ visited, a ≠ goal ∧ ∀ b, g.Edge a b → b ∈ visited)
    {a : Path} (ha : a ∈ visited) : ¬ ReflTransGen g.Edge a goal := by
  intro hlead
  induction hlead using ReflTransGen.head_induction_on with
  | refl => exact (h goal ha).1 rfl
  | head hab _ ih => exact ih ((h _ ha).2 _ hab)

def unvisited (g : RequireGraph) (visited : List Path) : Nat :=
  (g.nodes.filter (!visited.contains ·)).length

theorem filter_not_contains_of_subset {visited seen : List Path} (h : visited ⊆ seen)
    (nodes : List Path) :
    nodes.filter (!seen.contains ·) =
      (nodes.filter (!visited.contains ·)).filter (!seen.contains ·) := by
  rw [List.filter_filter]
  refine List.filter_congr fun n _ => ?_
  by_cases hn : n ∈ visited
  · simp [hn, h hn]
  · simp [hn]

theorem unvisited_extendWays (hg : g.Formed) (hways : (g.extendWays visited ways).1 ≠ []) :
    g.unvisited (g.extendWays visited ways).2 < g.unvisited visited := by
  obtain ⟨way, hway⟩ := List.exists_mem_of_ne_nil _ hways
  obtain ⟨old, -, a, b, -, hab, hnew, rfl⟩ := mem_extendWays hway
  have hseen : b ∈ (g.extendWays visited ways).2 :=
    mem_seen_extendWays.mpr (Or.inr ⟨_, hway, rfl⟩)
  have hsub : visited ⊆ (g.extendWays visited ways).2 :=
    fun n hn => mem_seen_extendWays.mpr (Or.inl hn)
  rw [unvisited, filter_not_contains_of_subset hsub, unvisited]
  refine List.length_filter_lt_length_iff_exists.mpr ⟨b, ?_, by simp [hseen]⟩
  exact List.mem_filter.mpr ⟨(hg.within a b hab).2, by simp [hnew]⟩

/-- A search without a result has gone through all that its visited nodes lead to. -/
theorem not_leads_of_searchFrom (hg : g.Formed) {fuel : Nat}
    (hcovered : g.Covered goal visited ways)
    (hfuel : ways = [] ∨ g.unvisited visited ≤ fuel)
    (h : g.searchFrom goal fuel visited ways = none) {a : Path} (ha : a ∈ visited) :
    ¬ ReflTransGen g.Edge a goal := by
  induction fuel generalizing visited ways with
  | zero =>
    refine not_leads_of_closed (fun a ha => ?_) ha
    rcases hcovered a ha with ⟨way, hway, hhead⟩ | hclosed
    · have hall : ∀ n ∈ g.nodes, n ∈ visited := by
        have hnil := hfuel.resolve_left (List.ne_nil_of_mem hway)
        simpa [unvisited] using hnil
      refine ⟨?_, fun b hab => hall b (hg.within a b hab).2⟩
      rintro rfl
      simpa [hhead] using List.find?_eq_none.mp h way hway
    · exact hclosed
  | succ fuel ih =>
    rw [searchFrom] at h
    split at h
    · simp at h
    · next hnone =>
      refine ih (hcovered.extend hnone) ?_ h (mem_seen_extendWays.mpr (Or.inl ha))
      by_cases hlonger : (g.extendWays visited ways).1 = []
      · exact Or.inl hlonger
      · have hways : ways ≠ [] := by
          rintro rfl
          exact hlonger rfl
        have hless := unvisited_extendWays hg hlonger
        have := hfuel.resolve_left hways
        exact Or.inr (by omega)

theorem wayTo?_eq_some {way : List Path} (h : g.wayTo? start goal = some way) :
    way.IsChain g.Edge ∧ way.head? = some start ∧ way.getLast? = some goal := by
  obtain ⟨back, hback, rfl⟩ := Option.map_eq_some_iff.mp h
  have hstart : ∀ w ∈ [[start]], g.IsWay start w := by
    simpa using (⟨.singleton start, rfl⟩ : g.IsWay start [start])
  obtain ⟨hway, hgoal⟩ := isWay_of_searchFrom hstart hback
  exact ⟨List.isChain_reverse.mpr hway.edges, by simpa using hway.begins, by simpa using hgoal⟩

theorem wayTo?_eq_none (hg : g.Formed) (h : g.wayTo? start goal = none) :
    ¬ ReflTransGen g.Edge start goal := by
  refine not_leads_of_searchFrom hg ?_ (Or.inr ?_) (Option.map_eq_none_iff.mp h)
    (List.mem_singleton_self start)
  · intro a ha
    obtain rfl := List.mem_singleton.mp ha
    exact Or.inl ⟨[a], by simp, rfl⟩
  · exact List.length_filter_le _ _

theorem mem_node? {p stored : Path} (h : g.node? p = some stored) :
    stored ∈ g.nodes ∧ Path.Same stored p :=
  ⟨List.mem_of_find?_eq_some h, by simpa using List.find?_some h⟩

theorem intern_spec (hg : g.Formed) (p : Path) :
    (g.intern p).1.Formed ∧ (g.intern p).1.edges = g.edges ∧ g.nodes ⊆ (g.intern p).1.nodes ∧
      (g.intern p).2 ∈ (g.intern p).1.nodes ∧ Path.Same (g.intern p).2 p ∧
      ∀ n ∈ (g.intern p).1.nodes, n ∈ g.nodes ∨ n = p := by
  unfold intern
  cases h : g.node? p with
  | some stored =>
    obtain ⟨hmem, hsame⟩ := mem_node? h
    exact ⟨hg, rfl, fun n hn => hn, hmem, hsame, fun n hn => Or.inl hn⟩
  | none =>
    have hfresh : ∀ n ∈ g.nodes, ¬ Path.Same n p := by simpa [node?] using h
    refine ⟨⟨?_, fun a b hab => ?_⟩, rfl, List.subset_append_left _ _, by simp, .refl p, by simp⟩
    · exact List.pairwise_append.mpr
        ⟨hg.apart, List.pairwise_singleton _ _, by simpa using hfresh⟩
    · obtain ⟨ha, hb⟩ := hg.within a b hab
      exact ⟨List.mem_append_left _ ha, List.mem_append_left _ hb⟩

/-- The graph in which both ends of an edge to come are nodes, and their spellings there. -/
structure Stored (g : RequireGraph) (p q : Path) (g' : RequireGraph) (a b : Path) : Prop where
  formed : g'.Formed
  edges : g'.edges = g.edges
  left_mem : a ∈ g'.nodes
  right_mem : b ∈ g'.nodes
  left_same : Path.Same a p
  right_same : Path.Same b q
  nodes : ∀ n ∈ g'.nodes, n ∈ g.nodes ∨ n = p ∨ n = q

theorem Stored.links_eq {g' : RequireGraph} {p q a b : Path} (h : g.Stored p q g' a b) :
    g'.Links = g.Links := by
  funext x y
  simp only [Links, Edge, h.edges]

/-- What recording an edge does: it is refused for a way that leads from its target back to its
requirer, or let in when there is no such way. -/
theorem require_cases (hg : g.Formed) (p q : Path) :
    ∃ g' a b, g.Stored p q g' a b ∧
      ((∃ way, g'.wayTo? b a = some way ∧ g.require p q = (g', some (p :: way))) ∨
        g'.wayTo? b a = none ∧ (g.require p q).2 = none ∧
          (g.require p q).1.nodes = g'.nodes ∧
          ∀ x y, (g.require p q).1.Edge x y ↔ g.Edge x y ∨ x = a ∧ y = b) := by
  obtain ⟨hformed₁, hedges₁, -, ha, hap, hnodes₁⟩ := intern_spec hg p
  obtain ⟨hformed₂, hedges₂, hsub₂, hb, hbq, hnodes₂⟩ := intern_spec hformed₁ q
  refine ⟨((g.intern p).1.intern q).1, (g.intern p).2, ((g.intern p).1.intern q).2,
    ⟨hformed₂, hedges₂.trans hedges₁, hsub₂ ha, hb, hap, hbq, ?_⟩, ?_⟩
  · intro n hn
    rcases hnodes₂ n hn with hn | rfl
    · exact (hnodes₁ n hn).imp_right Or.inl
    · exact Or.inr (Or.inr rfl)
  · simp only [require]
    split
    · next way hway => exact Or.inl ⟨way, hway, rfl⟩
    · next hway =>
      refine Or.inr ⟨hway, rfl, ?_, fun x y => ?_⟩
      · split <;> rfl
      · have hold : ∀ e, e ∈ ((g.intern p).1.intern q).1.edges ↔ e ∈ g.edges := by
          rw [hedges₂, hedges₁]
          exact fun e => Iff.rfl
        split
        · next hin =>
          rw [List.contains_iff_mem, hold] at hin
          simp only [Edge, hold]
          exact ⟨Or.inl, fun h => h.elim id (by rintro ⟨rfl, rfl⟩; exact hin)⟩
        · simp only [Edge, List.mem_append, List.mem_singleton, Prod.mk.injEq, hold]

theorem Edge.links {a b : Path} (h : g.Edge a b) : g.Links a b := ⟨a, b, h, .refl a, .refl b⟩

theorem Links.congr {p q p' q' : Path} (h : g.Links p q) (hp : Path.Same p p')
    (hq : Path.Same q q') : g.Links p' q' := by
  obtain ⟨a, b, hab, ha, hb⟩ := h
  exact ⟨a, b, hab, ha.trans hp, hb.trans hq⟩

theorem Formed.exists_edges (hg : g.Formed) {p q : Path} (h : TransGen g.Links p q) :
    ∃ a b, TransGen g.Edge a b ∧ a ∈ g.nodes ∧ b ∈ g.nodes ∧ Path.Same a p ∧ Path.Same b q := by
  induction h with
  | single h =>
    obtain ⟨a, b, hab, hap, hbq⟩ := h
    obtain ⟨ha, hb⟩ := hg.within a b hab
    exact ⟨a, b, .single hab, ha, hb, hap, hbq⟩
  | tail _ h ih =>
    obtain ⟨a, b, hab, ha, hb, hap, hbq⟩ := ih
    obtain ⟨b', c, hbc, hb', hc⟩ := h
    obtain ⟨hb'mem, hcmem⟩ := hg.within b' c hbc
    obtain rfl := Path.eq_of_apart hg.apart hb'mem hb (hb'.trans hbq.symm)
    exact ⟨a, c, hab.tail hbc, ha, hcmem, hap, hc⟩

theorem Formed.acyclic_iff (hg : g.Formed) : g.Acyclic ↔ ∀ a, ¬ TransGen g.Edge a a := by
  constructor
  · exact fun h a ha => h a (TransGen.mono (fun _ _ => Edge.links) a a ha)
  · intro h p hp
    obtain ⟨a, b, hab, ha, hb, hap, hbp⟩ := hg.exists_edges hp
    obtain rfl := Path.eq_of_apart hg.apart ha hb (hap.trans hbp.symm)
    exact h a hab

/-- With one more edge, what is led to was led to before or is led to through that edge. -/
theorem transGen_insert {α : Type} {r s : α → α → Prop} {a b x y : α}
    (hs : ∀ x y, s x y → r x y ∨ x = a ∧ y = b) (h : TransGen s x y) :
    TransGen r x y ∨ ReflTransGen r x a ∧ ReflTransGen r b y := by
  induction h with
  | single h =>
    rcases hs _ _ h with h | ⟨rfl, rfl⟩
    · exact Or.inl (.single h)
    · exact Or.inr ⟨.refl, .refl⟩
  | tail _ h ih =>
    rcases hs _ _ h with h | ⟨rfl, rfl⟩
    · exact ih.imp (·.tail h) fun hboth => ⟨hboth.1, hboth.2.tail h⟩
    · exact Or.inr ⟨ih.elim TransGen.to_reflTransGen And.left, .refl⟩

theorem require_accepted (hg : g.Formed) (hacyclic : g.Acyclic) {p q : Path}
    (h : (g.require p q).2 = none) :
    (g.require p q).1.Formed ∧ (g.require p q).1.Acyclic ∧
      (∀ x y, (g.require p q).1.Links x y ↔ g.Links x y ∨ Path.Same p x ∧ Path.Same q y) ∧
      ∀ n ∈ (g.require p q).1.nodes, n ∈ g.nodes ∨ n = p ∨ n = q := by
  obtain ⟨g', a, b, hstored, ⟨way, -, hrefused⟩ | ⟨hway, -, hnodes, hedges⟩⟩ := require_cases hg p q
  · simp [hrefused] at h
  · have hback := wayTo?_eq_none hstored.formed hway
    have hedge' : g'.Edge = g.Edge := by
      funext x y
      simp only [Edge, hstored.edges]
    have hformed : (g.require p q).1.Formed := by
      refine ⟨hnodes ▸ hstored.formed.apart, fun x y hxy => ?_⟩
      rw [hnodes]
      rcases (hedges x y).mp hxy with hxy | ⟨rfl, rfl⟩
      · exact hstored.formed.within x y (hedge' ▸ hxy)
      · exact ⟨hstored.left_mem, hstored.right_mem⟩
    refine ⟨hformed, hformed.acyclic_iff.mpr fun x hx => ?_, fun x y => ?_, hnodes ▸ hstored.nodes⟩
    · rcases transGen_insert (fun x y => (hedges x y).mp) hx with hx | ⟨hxa, hbx⟩
      · exact hacyclic x (TransGen.mono (fun _ _ => Edge.links) x x hx)
      · exact hback (hedge' ▸ hbx.trans hxa)
    · constructor
      · rintro ⟨x', y', hxy, hx, hy⟩
        rcases (hedges x' y').mp hxy with hxy | ⟨rfl, rfl⟩
        · exact Or.inl ⟨x', y', hxy, hx, hy⟩
        · exact Or.inr ⟨hstored.left_same.symm.trans hx, hstored.right_same.symm.trans hy⟩
      · rintro (⟨x', y', hxy, hx, hy⟩ | ⟨hx, hy⟩)
        · exact ⟨x', y', (hedges x' y').mpr (Or.inl hxy), hx, hy⟩
        · exact ⟨a, b, (hedges a b).mpr (Or.inr ⟨rfl, rfl⟩), hstored.left_same.trans hx,
            hstored.right_same.trans hy⟩

theorem require_refused (hg : g.Formed) {p q : Path} {cycle : List Path}
    (h : (g.require p q).2 = some cycle) :
    ∃ way a b, cycle = p :: way ∧ way.IsChain g.Edge ∧ way.head? = some b ∧
      way.getLast? = some a ∧ Path.Same b q ∧ Path.Same a p ∧
      ∀ n ∈ way, n ∈ g.nodes ∨ n = p ∨ n = q := by
  obtain ⟨g', a, b, hstored, ⟨way, hway, hrefused⟩ | ⟨-, hnone, -, -⟩⟩ := require_cases hg p q
  · obtain rfl : p :: way = cycle := by simpa [hrefused] using h
    obtain ⟨hchain, hhead, hlast⟩ := wayTo?_eq_some hway
    have hmem : ∀ n ∈ way, n ∈ g'.nodes := by
      obtain ⟨rest, rfl⟩ : ∃ rest, way = b :: rest := by
        cases way with
        | nil => simp at hhead
        | cons b' rest => exact ⟨rest, by simpa using hhead⟩
      exact hchain.induction _ _ (fun x y hxy _ => (hstored.formed.within x y hxy).2)
        fun _ => hstored.right_mem
    refine ⟨way, a, b, rfl, hchain.imp fun x y hxy => ?_, hhead, hlast, hstored.right_same,
      hstored.left_same, fun n hn => hstored.nodes n (hmem n hn)⟩
    simpa only [Edge, hstored.edges] using hxy
  · simp [hnone] at h

end RequireGraph
end ScriptBundle
