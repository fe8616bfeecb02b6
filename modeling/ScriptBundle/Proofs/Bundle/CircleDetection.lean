import Mathlib.Data.List.Nodup
import ScriptBundle.Proofs.Bundle.Ways

/-! The graph of requires under any calls made in turn. The edges in it are the calls that were let
in, and a call is refused exactly when its target is its requirer or leads back to it. The circle
that is reported then goes back along a shortest way. -/
namespace ScriptBundle

open Relation

namespace RequireGraph

variable {g : RequireGraph} {start goal : Path} {visited : List Path} {ways : List (List Path)}

/-- What the rounds of a search keep. After `n` of them the ways found have `n` edges and no node
twice, what lies within `n` edges was visited, and no way with fewer edges ends at the goal. -/
structure Round (g : RequireGraph) (start goal : Path) (n : Nat) (visited : List Path)
    (ways : List (List Path)) : Prop where
  isWay : ∀ way ∈ ways, g.IsWay start way
  length : ∀ way ∈ ways, way.length = n + 1
  nodup : ∀ way ∈ ways, way.Nodup ∧ way ⊆ visited
  covered : g.Covered goal visited ways
  near : ∀ way b, g.IsWay start way → way.head? = some b → way.length ≤ n + 1 → b ∈ visited
  missed : ∀ way, g.IsWay start way → way.head? = some goal → n + 1 ≤ way.length

theorem IsWay.ne_nil {way : List Path} (h : g.IsWay start way) : way ≠ [] := by
  rintro rfl
  simpa using h.begins

theorem round_start (g : RequireGraph) (start goal : Path) :
    g.Round start goal 0 [start] [[start]] where
  isWay := by simpa using (⟨.singleton start, rfl⟩ : g.IsWay start [start])
  length := by simp
  nodup := by simp
  covered := by
    intro a ha
    obtain rfl := List.mem_singleton.mp ha
    exact Or.inl ⟨[a], by simp, rfl⟩
  near := by
    intro way b hway hb hlength
    obtain ⟨a, rfl⟩ : ∃ a, way = [a] := by
      rcases way with _ | ⟨a, _ | ⟨c, rest⟩⟩
      · simp at hb
      · exact ⟨a, rfl⟩
      · simp at hlength
    have ha : a = start := by simpa using hway.begins
    have hab : a = b := by simpa using hb
    simp [← hab, ha]
  missed := fun _ hway _ => List.length_pos_iff.mpr hway.ne_nil

theorem Covered.goal_not_mem (h : g.Covered goal visited ways)
    (hnone : ways.find? (·.head? == some goal) = none) : goal ∉ visited := by
  intro hgoal
  rcases h goal hgoal with ⟨way, hway, hhead⟩ | ⟨hne, -⟩
  · simpa [hhead] using List.find?_eq_none.mp hnone way hway
  · exact hne rfl

theorem Covered.mem_extendWays (h : g.Covered goal visited ways) {a b : Path} (ha : a ∈ visited)
    (hab : g.Edge a b) : b ∈ (g.extendWays visited ways).2 := by
  rcases h a ha with ⟨way, hway, hhead⟩ | ⟨-, hnext⟩
  · exact successor_mem_extendWays hway hhead hab
  · exact mem_seen_extendWays.mpr (Or.inl (hnext b hab))

theorem Round.extend {n : Nat} (h : g.Round start goal n visited ways)
    (hnone : ways.find? (·.head? == some goal) = none) :
    g.Round start goal (n + 1) (g.extendWays visited ways).2 (g.extendWays visited ways).1 where
  isWay := by
    intro way hway
    obtain ⟨old, hold, a, b, ha, hab, -, rfl⟩ := RequireGraph.mem_extendWays hway
    exact (h.isWay old hold).cons ha hab
  length := by
    intro way hway
    obtain ⟨old, hold, a, b, -, -, -, rfl⟩ := RequireGraph.mem_extendWays hway
    simp [h.length old hold]
  nodup := by
    intro way hway
    have hend := hway
    obtain ⟨old, hold, a, b, -, -, hnew, rfl⟩ := RequireGraph.mem_extendWays hway
    obtain ⟨hnodup, hvisited⟩ := h.nodup old hold
    refine ⟨List.nodup_cons.mpr ⟨fun hb => hnew (hvisited hb), hnodup⟩, fun m hm => ?_⟩
    rcases List.mem_cons.mp hm with rfl | hm
    · exact mem_seen_extendWays.mpr (Or.inr ⟨_, hend, rfl⟩)
    · exact mem_seen_extendWays.mpr (Or.inl (hvisited hm))
  covered := h.covered.extend hnone
  near := by
    intro way b hway hb hlength
    rcases way with _ | ⟨c, _ | ⟨a, rest⟩⟩
    · simp at hb
    · exact mem_seen_extendWays.mpr (Or.inl (h.near [c] b hway hb (by simp)))
    · obtain rfl : c = b := by simpa using hb
      obtain ⟨hab, hchain⟩ := List.isChain_cons_cons.mp hway.edges
      have ha : a ∈ visited :=
        h.near (a :: rest) a ⟨hchain, by simpa using hway.begins⟩ rfl
          (by simpa using hlength)
      exact h.covered.mem_extendWays ha hab
  missed := by
    intro way hway hgoal
    by_contra hshort
    exact h.covered.goal_not_mem hnone (h.near way goal hway hgoal (by omega))

theorem Round.shortest {n fuel : Nat} (h : g.Round start goal n visited ways) {way : List Path}
    (hsearch : g.searchFrom goal fuel visited ways = some way) :
    way.Nodup ∧ ∀ other, g.IsWay start other → other.head? = some goal →
      way.length ≤ other.length := by
  have hfind : ∀ {n visited ways}, g.Round start goal n visited ways →
      ways.find? (·.head? == some goal) = some way →
      way.Nodup ∧ ∀ other, g.IsWay start other → other.head? = some goal →
        way.length ≤ other.length := by
    intro n visited ways h hway
    have hmem := List.mem_of_find?_eq_some hway
    refine ⟨(h.nodup way hmem).1, fun other hother hgoal => ?_⟩
    rw [h.length way hmem]
    exact h.missed other hother hgoal
  induction fuel generalizing n visited ways with
  | zero => exact hfind h hsearch
  | succ fuel ih =>
    rw [searchFrom] at hsearch
    split at hsearch
    · next found hfound =>
      obtain rfl := Option.some.inj hsearch
      exact hfind h hfound
    · next hnone => exact ih (h.extend hnone) hsearch

theorem wayTo?_shortest {way : List Path} (h : g.wayTo? start goal = some way) :
    way.Nodup ∧ ∀ other : List Path, other.IsChain g.Edge → other.head? = some start →
      other.getLast? = some goal → way.length ≤ other.length := by
  obtain ⟨back, hback, rfl⟩ := Option.map_eq_some_iff.mp h
  obtain ⟨hnodup, hshortest⟩ := (round_start g start goal).shortest hback
  refine ⟨List.nodup_reverse.mpr hnodup, fun other hchain hhead hlast => ?_⟩
  have hother : g.IsWay start other.reverse :=
    ⟨List.isChain_reverse.mpr hchain, by simpa using hhead⟩
  simpa using hshortest other.reverse hother (by simpa using hlast)

theorem Formed.exists_chain (hg : g.Formed) {x b : Path} {rest : List Path}
    (hchain : (x :: rest).IsChain g.Links) (hb : b ∈ g.nodes) (hbx : Path.Same b x) :
    ∃ nodes, (b :: nodes).IsChain g.Edge ∧ nodes.length = rest.length ∧
      ∃ a ∈ g.nodes, (b :: nodes).getLast? = some a ∧
        ∃ y, (x :: rest).getLast? = some y ∧ Path.Same a y := by
  induction rest generalizing x b with
  | nil => exact ⟨[], .singleton b, rfl, b, hb, rfl, x, rfl, hbx⟩
  | cons y rest ih =>
    obtain ⟨⟨b', c, hbc, hbx', hcy⟩, hchain⟩ := List.isChain_cons_cons.mp hchain
    obtain ⟨hb', hc⟩ := hg.within b' c hbc
    obtain rfl := Path.eq_of_apart hg.apart hb hb' (hbx.trans hbx'.symm)
    obtain ⟨nodes, hnodes, hlength, a, ha, hlast, z, hz, haz⟩ := ih hchain hc hcy
    refine ⟨c :: nodes, List.isChain_cons_cons.mpr ⟨hbc, hnodes⟩, by simp [hlength], a, ha, ?_,
      z, ?_, haz⟩
    · simpa using hlast
    · simpa using hz

/-- A chain that begins at `q` and ends at `p`, however these are spelt. -/
structure LeadsBack (edge : Path → Path → Prop) (q p : Path) (way : List Path) : Prop where
  chain : way.IsChain edge
  begins : ∃ b, way.head? = some b ∧ Path.Same b q
  ends : ∃ a, way.getLast? = some a ∧ Path.Same a p

theorem LeadsBack.exists_cons {edge : Path → Path → Prop} {p q : Path} {way : List Path}
    (h : LeadsBack edge q p way) : ∃ b rest, way = b :: rest ∧ Path.Same b q := by
  obtain ⟨b, hb, hbq⟩ := h.begins
  cases way with
  | nil => simp at hb
  | cons c rest =>
    obtain rfl : c = b := by simpa using hb
    exact ⟨c, rest, rfl, hbq⟩

theorem links_of_edges {a b p q : Path} (h : TransGen g.Edge a b) (ha : Path.Same a p)
    (hb : Path.Same b q) : TransGen g.Links p q := by
  induction h generalizing q with
  | single h => exact .single ⟨a, _, h, ha, hb⟩
  | tail _ h ih => exact (ih (.refl _)).tail ⟨_, _, h, .refl _, hb⟩

section

variable {g' : RequireGraph} {p q a b : Path}

theorem Stored.leadsBack (h : g.Stored p q g' a b) {way : List Path}
    (hway : g'.wayTo? b a = some way) :
    LeadsBack g.Links q p way ∧ way.Pairwise (fun x y => ¬ Path.Same x y) ∧
      ∀ other, LeadsBack g.Links q p other → way.length ≤ other.length := by
  obtain ⟨hchain, hhead, hlast⟩ := wayTo?_eq_some hway
  obtain ⟨hnodup, hshortest⟩ := wayTo?_shortest hway
  have hleads : LeadsBack g.Links q p way :=
    ⟨h.links_eq ▸ hchain.imp fun x y => Edge.links, ⟨b, hhead, h.right_same⟩, a, hlast,
      h.left_same⟩
  refine ⟨hleads, ?_, fun other hother => ?_⟩
  · obtain ⟨b', rest, rfl, -⟩ := hleads.exists_cons
    obtain rfl : b' = b := by simpa using hhead
    have hmem : ∀ n ∈ b' :: rest, n ∈ g'.nodes :=
      hchain.induction _ _ (fun x y hxy _ => (h.formed.within x y hxy).2) fun _ => h.right_mem
    refine hnodup.imp_of_mem fun hx hy hne hsame => hne ?_
    exact Path.eq_of_apart h.formed.apart (hmem _ hx) (hmem _ hy) hsame
  · obtain ⟨c, rest, rfl, hcq⟩ := hother.exists_cons
    obtain ⟨nodes, hnodes, hlength, a', ha', hlast', d, hd, hsame⟩ :=
      h.formed.exists_chain (h.links_eq ▸ hother.chain) h.right_mem (h.right_same.trans hcq.symm)
    obtain ⟨d', hd', hdp⟩ := hother.ends
    obtain rfl : d' = d := Option.some.inj (hd'.symm.trans hd)
    obtain rfl := Path.eq_of_apart h.formed.apart ha' h.left_mem
      ((hsame.trans hdp).trans h.left_same.symm)
    simpa [hlength] using hshortest (b :: nodes) hnodes rfl hlast'

end

/-- What is reported for a refused call: the requirer as it was named, and a shortest way back to
it from the target, without repetition. -/
def Reported (edge : Path → Path → Prop) (p q : Path) (cycle : List Path) : Prop :=
  ∃ way, cycle = p :: way ∧ LeadsBack edge q p way ∧
    way.Pairwise (fun x y => ¬ Path.Same x y) ∧
    ∀ other, LeadsBack edge q p other → way.length ≤ other.length

theorem require_refused_spec (hg : g.Formed) {p q : Path} {cycle : List Path}
    (h : (g.require p q).2 = some cycle) :
    (g.require p q).1.Formed ∧ (g.require p q).1.Links = g.Links ∧ Reported g.Links p q cycle := by
  obtain ⟨g', a, b, hstored, ⟨way, hway, hrefused⟩ | ⟨-, hnone, -⟩⟩ := require_cases hg p q
  · obtain rfl : p :: way = cycle := by simpa [hrefused] using h
    rw [hrefused]
    exact ⟨hstored.formed, hstored.links_eq, ⟨way, rfl, hstored.leadsBack hway⟩⟩
  · simp [hnone] at h

theorem require_isSome_iff (hg : g.Formed) (p q : Path) :
    (g.require p q).2.isSome ↔ Path.Same p q ∨ TransGen g.Links q p := by
  obtain ⟨g', a, b, hstored, hcases⟩ := require_cases hg p q
  have hlead : (g.require p q).2.isSome ↔ ReflTransGen g'.Edge b a := by
    rcases hcases with ⟨way, hway, hrefused⟩ | ⟨hway, hnone, -⟩
    · obtain ⟨hchain, hhead, hlast⟩ := wayTo?_eq_some hway
      obtain ⟨b', rest, rfl, -⟩ := (hstored.leadsBack hway).1.exists_cons
      obtain rfl : b' = b := by simpa using hhead
      have hend : (b' :: rest).getLast (by simp) = a := by
        rw [List.getLast?_eq_some_getLast (by simp)] at hlast
        exact Option.some.inj hlast
      simp [hrefused, List.relationReflTransGen_of_exists_isChain_cons rest hchain hend]
    · simp [hnone, wayTo?_eq_none hstored.formed hway]
  rw [hlead, ← hstored.links_eq]
  constructor
  · intro h
    rcases reflTransGen_iff_eq_or_transGen.mp h with rfl | h
    · exact Or.inl (hstored.left_same.symm.trans hstored.right_same)
    · exact Or.inr (links_of_edges h hstored.right_same hstored.left_same)
  · have heq : ∀ {n m}, n ∈ g'.nodes → m ∈ g'.nodes → Path.Same n m → n = m :=
      Path.eq_of_apart hstored.formed.apart
    rintro (hsame | h)
    · obtain rfl := heq hstored.left_mem hstored.right_mem
        ((hstored.left_same.trans hsame).trans hstored.right_same.symm)
      exact .refl
    · obtain ⟨b', a', h, hb', ha', hbq, hap⟩ := hstored.formed.exists_edges h
      obtain rfl := heq hb' hstored.right_mem (hbq.trans hstored.right_same.symm)
      obtain rfl := heq ha' hstored.left_mem (hap.trans hstored.left_same.symm)
      exact h.to_reflTransGen

def record (g : RequireGraph) (calls : List (Path × Path)) : RequireGraph :=
  calls.foldl (fun g call => (g.require call.1 call.2).1) g

/-- The calls that are let in when they are made in turn. -/
def accepted (g : RequireGraph) : List (Path × Path) → List (Path × Path)
  | [] => []
  | (p, q) :: more =>
    match g.require p q with
    | (g, none) => (p, q) :: g.accepted more
    | (g, some _) => g.accepted more

/-- One of the calls, made in turn on a new graph, was let in for these paths, however they are
spelt. -/
def LetIn (calls : List (Path × Path)) (p q : Path) : Prop :=
  ∃ call ∈ empty.accepted calls, Path.Same call.1 p ∧ Path.Same call.2 q

theorem record_spec (hg : g.Formed) (hacyclic : g.Acyclic) (calls : List (Path × Path)) :
    (g.record calls).Formed ∧ (g.record calls).Acyclic ∧ ∀ x y, (g.record calls).Links x y ↔
      g.Links x y ∨ ∃ call ∈ g.accepted calls, Path.Same call.1 x ∧ Path.Same call.2 y := by
  induction calls generalizing g with
  | nil => exact ⟨hg, hacyclic, by simp [record, accepted]⟩
  | cons call calls ih =>
    obtain ⟨p, q⟩ := call
    have hrecord : g.record ((p, q) :: calls) = (g.require p q).1.record calls := rfl
    rw [hrecord, accepted]
    split
    · next g₁ hrequire =>
      have hnone : (g.require p q).2 = none := by rw [hrequire]
      obtain ⟨hformed, hacyclic₁, hlinks, -⟩ := require_accepted hg hacyclic hnone
      rw [hrequire] at hformed hacyclic₁ hlinks ⊢
      obtain ⟨hformed', hacyclic', hlinks'⟩ := ih hformed hacyclic₁
      refine ⟨hformed', hacyclic', fun x y => ?_⟩
      simp only [hlinks', hlinks, List.mem_cons, exists_eq_or_imp, or_assoc]
    · next g₁ cycle hrequire =>
      have hsome : (g.require p q).2 = some cycle := by rw [hrequire]
      obtain ⟨hformed, hlinks, -⟩ := require_refused_spec hg hsome
      rw [hrequire] at hformed hlinks ⊢
      have hacyclic₁ : g₁.Acyclic := by
        unfold Acyclic
        rwa [hlinks]
      obtain ⟨hformed', hacyclic', hlinks'⟩ := ih hformed hacyclic₁
      exact ⟨hformed', hacyclic', fun x y => by rw [hlinks', hlinks]⟩

/-- **The graph detects circles exactly.** After any calls its edges are the calls that were let in,
and these close no circle. One more call is refused exactly when its target is its requirer or
leads to it along those edges; what is reported then is the requirer and a shortest way back. -/
theorem require_detects_circles (calls : List (Path × Path)) :
    (∀ x y, (empty.record calls).Links x y ↔ LetIn calls x y) ∧
      (∀ x, ¬ TransGen (LetIn calls) x x) ∧
      ∀ p q, (((empty.record calls).require p q).2.isSome ↔
          Path.Same p q ∨ TransGen (LetIn calls) q p) ∧
        ∀ cycle, ((empty.record calls).require p q).2 = some cycle →
          Reported (LetIn calls) p q cycle := by
  obtain ⟨hformed, hacyclic, hlinks⟩ := record_spec formed_empty acyclic_empty calls
  have hedges : (empty.record calls).Links = LetIn calls := by
    funext x y
    simp only [hlinks, not_links_empty, false_or, LetIn]
  rw [← hedges]
  refine ⟨fun x y => Iff.rfl, hacyclic, fun p q => ⟨require_isSome_iff hformed p q, ?_⟩⟩
  exact fun cycle h => (require_refused_spec hformed h).2.2

/-- A call that was refused leaves no edge behind, and of two ways back the shorter is reported,
also for a target in another spelling. -/
theorem require_detects_circles_shorter :
    let a := Path.ofText ['/', 'a']
    let b := Path.ofText ['/', 'b']
    let c := Path.ofText ['/', 'c']
    Reported (LetIn [(a, b), (b, c), (c, a), (a, c)]) c (Path.ofText ['/', '.', '/', 'a'])
      [c, a, c] := by
  intro a b c
  exact ((require_detects_circles _).2.2 c _).2 [c, a, c] (by decide +kernel)

end RequireGraph
end ScriptBundle
