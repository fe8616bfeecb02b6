import Mathlib.Data.List.Basic
import ScriptBundle.Proofs.Bundle.CircleDetection

/-! What a refused call leaves in the graph. The edges stay as they were, but the requirer is stored
where no spelling of it was. Later calls are then judged as if the refused one had not been made,
and the circles reported are the same, but that this path is shown in the spelling of the refused
call. -/
namespace ScriptBundle

open Relation

namespace RequireGraph

/-- What the calls are answered when they are made in turn: the circle where one is refused. -/
def answers (g : RequireGraph) : List (Path × Path) → List (Option (List Path))
  | [] => []
  | (p, q) :: more => (g.require p q).2 :: (g.require p q).1.answers more

/-- The spelling `p` in place of any spelling of this path. -/
def respell (p n : Path) : Path := if Path.Same n p then p else n

/-- A circle with the spelling `p` in place of any other, but for the requirer, which stands in
front as it was named. -/
def respellWay (p : Path) : List Path → List Path
  | [] => []
  | requirer :: way => requirer :: way.map (respell p)

variable {g g' : RequireGraph} {p q x y : Path}

theorem respell_of_same (h : Path.Same x p) : respell p x = p := if_pos h

theorem respell_of_not_same (h : ¬ Path.Same x p) : respell p x = x := if_neg h

theorem same_respell (p x : Path) : Path.Same (respell p x) x := by
  unfold respell
  split
  · next h => exact h.symm
  · exact .refl x

theorem Formed.respell_inj (hg : g.Formed) {a b : Path} (ha : a ∈ g.nodes) (hb : b ∈ g.nodes)
    (h : respell p a = respell p b) : a = b := by
  refine Path.eq_of_apart hg.apart ha hb ((same_respell p a).symm.trans ?_)
  rw [h]
  exact same_respell p b

theorem node?_congr (h : Path.Same x y) : g.node? x = g.node? y := by
  have hsame : ∀ n, Path.Same n x ↔ Path.Same n y :=
    fun n => ⟨fun hn => hn.trans h, fun hn => hn.trans h.symm⟩
  simp only [node?, hsame]

theorem node?_eq_none : g.node? x = none ↔ ∀ n ∈ g.nodes, ¬ Path.Same n x := by
  simp [node?]

theorem intern_of_some {n : Path} (h : g.node? x = some n) : g.intern x = (g, n) := by
  simp only [intern, h]

theorem intern_of_none (h : g.node? x = none) :
    g.intern x = ({ g with nodes := g.nodes ++ [x] }, x) := by
  simp only [intern, h]

theorem searchFrom_add {goal : Path} {fuel : Nat} (more : Nat) {visited : List Path}
    {ways : List (List Path)} {way : List Path}
    (h : g.searchFrom goal fuel visited ways = some way) :
    g.searchFrom goal (fuel + more) visited ways = some way := by
  induction fuel generalizing visited ways with
  | zero =>
    rw [searchFrom] at h
    cases more with
    | zero => exact h
    | succ more => rw [Nat.zero_add, searchFrom, h]
  | succ fuel ih =>
    rw [Nat.add_right_comm, searchFrom]
    rw [searchFrom] at h
    split at h
    · exact h
    · exact ih h

theorem Formed.searchFrom_eq (hg : g.Formed) (start goal : Path) (more : Nat) :
    g.searchFrom goal (g.nodes.length + more) [start] [[start]] =
      g.searchFrom goal g.nodes.length [start] [[start]] := by
  cases h : g.searchFrom goal g.nodes.length [start] [[start]] with
  | some way => exact searchFrom_add more h
  | none =>
    have hnone : g.wayTo? start goal = none := by rw [wayTo?, h, Option.map_none]
    by_contra hsome
    obtain ⟨way, hway⟩ := Option.ne_none_iff_exists'.mp hsome
    have hstart : ∀ w ∈ [[start]], g.IsWay start w := by
      simpa using (⟨.singleton start, rfl⟩ : g.IsWay start [start])
    obtain ⟨hisWay, hgoal⟩ := isWay_of_searchFrom hstart hway
    obtain ⟨rest, rfl⟩ := List.head?_eq_some_iff.mp hgoal
    have hback := List.relationReflTransGen_of_exists_isChain_cons (r := fun b a => g.Edge a b) rest
      hisWay.edges (by simpa [List.getLast?_eq_some_getLast] using hisWay.begins)
    exact wayTo?_eq_none hg hnone (reflTransGen_swap.mp hback)

/-- Each node is spelt by `f`, no two of them alike. -/
structure Spelt (f : Path → Path) (g g' : RequireGraph) : Prop where
  edges : g'.edges = g.edges.map (Prod.map f f)
  inj : ∀ {a b}, a ∈ g.nodes → b ∈ g.nodes → f a = f b → a = b

section

variable {f : Path → Path} {goal : Path} {visited : List Path} {ways : List (List Path)}

theorem Spelt.contains_map (h : Spelt f g g') {a : Path} (ha : a ∈ g.nodes)
    (hvisited : ∀ n ∈ visited, n ∈ g.nodes) :
    (visited.map f).contains (f a) = visited.contains a := by
  rw [Bool.eq_iff_iff, List.contains_iff_mem, List.contains_iff_mem, List.mem_map]
  constructor
  · rintro ⟨b, hb, hab⟩
    exact h.inj (hvisited b hb) ha hab ▸ hb
  · exact fun ha => ⟨a, ha, rfl⟩

theorem Spelt.successors_eq (h : Spelt f g g') (hg : g.Formed) {a : Path} (ha : a ∈ g.nodes) :
    g'.successors (f a) = (g.successors a).map f := by
  have hends : g.edges.filter (fun e => f e.1 = f a) = g.edges.filter (·.1 = a) := by
    refine List.filter_congr fun e he => ?_
    have hiff : f e.1 = f a ↔ e.1 = a :=
      ⟨h.inj (hg.within e.1 e.2 he).1 ha, fun heq => congrArg f heq⟩
    simp only [hiff]
  simp only [successors, h.edges, List.filter_map, List.map_map, Function.comp_def, Prod.map_fst,
    Prod.map_snd, hends]

theorem Spelt.extendWays_eq (h : Spelt f g g') (hg : g.Formed)
    (hvisited : ∀ n ∈ visited, n ∈ g.nodes)
    (hways : ∀ way ∈ ways, ∀ a ∈ way.head?, a ∈ g.nodes) :
    g'.extendWays (visited.map f) (ways.map (List.map f)) =
      ((g.extendWays visited ways).1.map (List.map f), (g.extendWays visited ways).2.map f) := by
  induction ways generalizing visited with
  | nil => rfl
  | cons way more ih =>
    have hfresh : ((way.map f).head?.elim [] g'.successors).filter
        (!(visited.map f).contains ·) =
          ((way.head?.elim [] g.successors).filter (!visited.contains ·)).map f := by
      cases hhead : way.head? with
      | none => simp [hhead]
      | some a =>
        have ha : a ∈ g.nodes := hways way (by simp) a hhead
        simp only [List.head?_map, hhead, Option.map_some, Option.elim_some,
          h.successors_eq hg ha, List.filter_map]
        refine congrArg _ (List.filter_congr fun b hb => ?_)
        have hb : b ∈ g.nodes := (hg.within a b (mem_successors.mp hb)).2
        simp only [Function.comp_apply, h.contains_map hb hvisited]
    have hvisited' : ∀ n ∈ visited ++ (way.head?.elim [] g.successors).filter
        (!visited.contains ·), n ∈ g.nodes := by
      intro n hn
      rcases List.mem_append.mp hn with hn | hn
      · exact hvisited n hn
      · cases hhead : way.head? with
        | none => simp [hhead] at hn
        | some a =>
          rw [hhead, Option.elim_some] at hn
          exact (hg.within a n (mem_successors.mp (List.mem_of_mem_filter hn))).2
    have hmore := ih hvisited' fun w hw => hways w (List.mem_cons_of_mem _ hw)
    simp only [List.map_cons, extendWays, hfresh, ← List.map_append, hmore]
    simp [Function.comp_def]

theorem Spelt.searchFrom_eq (h : Spelt f g g') (hg : g.Formed) (hgoal : goal ∈ g.nodes)
    {fuel : Nat} (visited : List Path) (ways : List (List Path))
    (hvisited : ∀ n ∈ visited, n ∈ g.nodes)
    (hways : ∀ way ∈ ways, ∀ a ∈ way.head?, a ∈ g.nodes) :
    g'.searchFrom (f goal) fuel (visited.map f) (ways.map (List.map f)) =
      (g.searchFrom goal fuel visited ways).map (List.map f) := by
  have hfind : ∀ {ways : List (List Path)}, (∀ way ∈ ways, ∀ a ∈ way.head?, a ∈ g.nodes) →
      (ways.map (List.map f)).find? (·.head? == some (f goal)) =
        (ways.find? (·.head? == some goal)).map (List.map f) := by
    intro ways hways
    induction ways with
    | nil => rfl
    | cons way more ih =>
      have hends : ((way.map f).head? == some (f goal)) = (way.head? == some goal) := by
        cases hhead : way.head? with
        | none => simp [hhead]
        | some a =>
          have hiff : f a = f goal ↔ a = goal :=
            ⟨h.inj (hways way (by simp) a hhead) hgoal, fun heq => congrArg f heq⟩
          rw [Bool.eq_iff_iff]
          simp [hhead, hiff]
      rw [List.map_cons, List.find?_cons, List.find?_cons, hends]
      split
      · rfl
      · exact ih fun w hw => hways w (List.mem_cons_of_mem _ hw)
  induction fuel generalizing visited ways with
  | zero => exact hfind hways
  | succ fuel ih =>
    rw [searchFrom, searchFrom, hfind hways]
    cases hfound : ways.find? (·.head? == some goal) with
    | some way => rfl
    | none =>
      simp only [Option.map_none, h.extendWays_eq hg hvisited hways]
      refine ih _ _ (fun n hn => ?_) fun way hway a ha => ?_
      · rcases mem_seen_extendWays.mp hn with hn | ⟨way, hway, hn⟩
        · exact hvisited n hn
        · obtain ⟨old, -, a, b, -, hab, -, rfl⟩ := mem_extendWays hway
          obtain rfl : b = n := by simpa using hn
          exact (hg.within a b hab).2
      · obtain ⟨old, -, c, b, -, hcb, -, rfl⟩ := mem_extendWays hway
        obtain rfl : b = a := by simpa using ha
        exact (hg.within c b hcb).2

theorem Spelt.wayTo?_eq (h : Spelt f g g') (hg : g.Formed) (hg' : g'.Formed) {start : Path}
    (hstart : start ∈ g.nodes) (hgoal : goal ∈ g.nodes) :
    g'.wayTo? (f start) (f goal) = (g.wayTo? start goal).map (List.map f) := by
  have hsearch : g'.searchFrom (f goal) (g.nodes.length + g'.nodes.length) [f start] [[f start]] =
      (g.searchFrom goal (g.nodes.length + g'.nodes.length) [start] [[start]]).map
        (List.map f) :=
    h.searchFrom_eq hg hgoal [start] [[start]] (by simpa using hstart) (by simpa using hstart)
  rw [Nat.add_comm, hg'.searchFrom_eq, Nat.add_comm, hg.searchFrom_eq] at hsearch
  rw [wayTo?, wayTo?, hsearch, Option.map_map, Option.map_map]
  refine congrArg₂ _ (funext fun way => ?_) rfl
  simp

end

/-- The graph `g'` is the graph `g` with `p` as a node, which in `g` may be missing or spelt in
another way. -/
structure Respelt (p : Path) (g g' : RequireGraph) : Prop where
  formed : g.Formed
  formed' : g'.Formed
  edges : g'.edges = g.edges.map (Prod.map (respell p) (respell p))
  named : g'.node? p = some p
  others : ∀ x, ¬ Path.Same x p → g'.node? x = g.node? x

theorem Respelt.spelt (h : Respelt p g g') : Spelt (respell p) g g' :=
  ⟨h.edges, fun ha hb => h.formed.respell_inj ha hb⟩

theorem respelt_intern (hg : g.Formed) (hnew : g.node? p = none) :
    Respelt p g (g.intern p).1 := by
  have hother := node?_eq_none.mp hnew
  obtain ⟨hformed', -⟩ := intern_spec hg p
  rw [intern_of_none hnew] at hformed' ⊢
  refine ⟨hg, hformed', ?_, ?_, fun x hx => ?_⟩
  · -- No end of an edge is a spelling of `p`.
    have hends : ∀ e ∈ g.edges, Prod.map (respell p) (respell p) e = e := by
      intro e he
      obtain ⟨ha, hb⟩ := hg.within e.1 e.2 he
      rw [Prod.map, respell_of_not_same (hother _ ha), respell_of_not_same (hother _ hb)]
    rw [List.map_congr_left hends, List.map_id']
  · have hnone : g.nodes.find? (fun q => decide (Path.Same q p)) = none := hnew
    simp [node?, List.find?_append, hnone, Path.Same.refl]
  · have hnot : ¬ Path.Same p x := fun hpx => hx hpx.symm
    simp [node?, List.find?_append, hnot]

theorem Respelt.intern (h : Respelt p g g') (x : Path) :
    Respelt p (g.intern x).1 (g'.intern x).1 ∧ (g'.intern x).2 = respell p (g.intern x).2 := by
  obtain ⟨hformed, hedges, -, -, -, -⟩ := intern_spec h.formed x
  obtain ⟨hformed', hedges', -, -, -, -⟩ := intern_spec h.formed' x
  have hkept : (g'.intern x).1.edges =
      (g.intern x).1.edges.map (Prod.map (respell p) (respell p)) := by
    rw [hedges, hedges', h.edges]
  by_cases hx : Path.Same x p
  · have hnode : g'.node? x = some p := (node?_congr hx).trans h.named
    rw [intern_of_some hnode] at hformed' hkept ⊢
    cases hstored : g.node? x with
    | some n =>
      rw [intern_of_some hstored]
      exact ⟨h, (respell_of_same ((mem_node? hstored).2.trans hx)).symm⟩
    | none =>
      rw [intern_of_none hstored] at hformed hkept ⊢
      refine ⟨⟨hformed, hformed', hkept, h.named, fun y hy => ?_⟩, (respell_of_same hx).symm⟩
      have hother : ¬ Path.Same x y := fun hxy => hy (hxy.symm.trans hx)
      rw [h.others y hy]
      simp [node?, List.find?_append, hother]
  · have hnode := h.others x hx
    cases hstored : g.node? x with
    | some n =>
      rw [intern_of_some hstored, intern_of_some (hnode.trans hstored)]
      refine ⟨h, (respell_of_not_same fun hn => hx ?_).symm⟩
      exact (mem_node? hstored).2.symm.trans hn
    | none =>
      rw [intern_of_none hstored, intern_of_none (hnode.trans hstored)] at *
      refine ⟨⟨hformed, hformed', hkept, ?_, fun y hy => ?_⟩, (respell_of_not_same hx).symm⟩
      · have hnamed : g'.nodes.find? (fun q => decide (Path.Same q p)) = some p := h.named
        simp [node?, List.find?_append, hnamed]
      · have hother := h.others y hy
        simp only [node?] at hother
        simp [node?, List.find?_append, hother]

theorem Formed.append (hg : g.Formed) {a b : Path} (ha : a ∈ g.nodes) (hb : b ∈ g.nodes) :
    Formed { g with edges := g.edges ++ [(a, b)] } := by
  refine ⟨hg.apart, fun x y hxy => ?_⟩
  rcases List.mem_append.mp hxy with hxy | hxy
  · exact hg.within x y hxy
  · obtain ⟨rfl, rfl⟩ := Prod.mk.inj (List.mem_singleton.mp hxy)
    exact ⟨ha, hb⟩

theorem Respelt.contains_eq (h : Respelt p g g') {a b : Path} (ha : a ∈ g.nodes)
    (hb : b ∈ g.nodes) :
    g'.edges.contains (respell p a, respell p b) = g.edges.contains (a, b) := by
  rw [Bool.eq_iff_iff, List.contains_iff_mem, List.contains_iff_mem, h.edges, List.mem_map]
  constructor
  · rintro ⟨⟨x, y⟩, hxy, heq⟩
    obtain ⟨hx, hy⟩ := h.formed.within x y hxy
    obtain ⟨hxa, hyb⟩ := Prod.mk.inj heq
    rwa [← h.formed.respell_inj hx ha hxa, ← h.formed.respell_inj hy hb hyb]
  · exact fun hab => ⟨(a, b), hab, rfl⟩

theorem Respelt.require (h : Respelt p g g') (x y : Path) :
    Respelt p (g.require x y).1 (g'.require x y).1 ∧
      (g'.require x y).2 = (g.require x y).2.map (respellWay p) := by
  obtain ⟨h₁, ha⟩ := h.intern x
  obtain ⟨h₂, hb⟩ := h₁.intern y
  obtain ⟨-, -, -, hmema, -⟩ := intern_spec h.formed x
  obtain ⟨-, -, hsub, hmemb, -⟩ := intern_spec h₁.formed y
  obtain ⟨-, -, -, hmema', -⟩ := intern_spec h.formed' x
  obtain ⟨-, -, hsub', hmemb', -⟩ := intern_spec h₁.formed' y
  have hway := h₂.spelt.wayTo?_eq h₂.formed h₂.formed' hmemb (hsub hmema)
  rw [ha] at hmema'
  rw [hb] at hmemb'
  simp only [RequireGraph.require, ha, hb, hway]
  cases ((g.intern x).1.intern y).1.wayTo? ((g.intern x).1.intern y).2 (g.intern x).2 with
  | some way => exact ⟨h₂, rfl⟩
  | none =>
    simp only [Option.map_none, h₂.contains_eq (hsub hmema) hmemb]
    split
    · exact ⟨h₂, trivial⟩
    · refine ⟨⟨h₂.formed.append (hsub hmema) hmemb, h₂.formed'.append (hsub' hmema') hmemb', ?_,
        h₂.named, h₂.others⟩, trivial⟩
      rw [h₂.edges, List.map_append]
      rfl

theorem Respelt.answers_eq (h : Respelt p g g') (calls : List (Path × Path)) :
    g'.answers calls = (g.answers calls).map (Option.map (respellWay p)) := by
  induction calls generalizing g g' with
  | nil => rfl
  | cons call calls ih =>
    obtain ⟨hnext, hanswer⟩ := h.require call.1 call.2
    rw [answers, answers, List.map_cons, hanswer, ih hnext]

/-- A refused call stores its requirer and nothing else: its target is the requirer itself, or leads
to it along edges and so is a node. -/
theorem require_refused_eq (hg : g.Formed) (h : (g.require p q).2.isSome) :
    (g.require p q).1 = (g.intern p).1 ∧ (g.node? p = none → Path.Same q p) := by
  obtain ⟨hformed, -, -, hmem, hsame, -⟩ := intern_spec hg p
  have hends : ∀ {x}, TransGen g.Links q x → (g.node? q).isSome ∧ (g.node? x).isSome := by
    intro x hx
    obtain ⟨a, b, -, ha, hb, haq, hbx⟩ := hg.exists_edges hx
    simp only [node?, List.find?_isSome, decide_eq_true_eq]
    exact ⟨⟨a, ha, haq⟩, b, hb, hbx⟩
  have hcases := (require_isSome_iff hg p q).mp h
  have hknown : ((g.intern p).1.node? q).isSome := by
    simp only [node?, List.find?_isSome, decide_eq_true_eq]
    rcases hcases with hpq | hqp
    · exact ⟨_, hmem, hsame.trans hpq⟩
    · obtain ⟨b, hb⟩ := Option.isSome_iff_exists.mp (hends hqp).1
      obtain ⟨-, -, hsub, -⟩ := intern_spec hg p
      exact ⟨b, hsub (mem_node? hb).1, (mem_node? hb).2⟩
  obtain ⟨n, hn⟩ := Option.isSome_iff_exists.mp hknown
  refine ⟨?_, fun hnone => hcases.elim Path.Same.symm fun hqp => ?_⟩
  · simp only [RequireGraph.require, intern_of_some hn] at h ⊢
    split
    · rfl
    · next hway => simp [hway] at h
  · simpa [hnone] using (hends hqp).2

/-- **What a refused call leaves.** Where the requirer is already a node, the graph is left as it
was. Where it is not, the call asks for an edge from the path to itself, and the path is stored in
the spelling of the requirer. All later calls are then answered as if the refused one had not been
made, but that the circles show this path in that spelling. -/
theorem refused_require_leaves (calls : List (Path × Path)) {p q : Path} {cycle : List Path}
    (h : ((empty.record calls).require p q).2 = some cycle) :
    ((∃ n ∈ (empty.record calls).nodes, Path.Same n p) →
      ((empty.record calls).require p q).1 = empty.record calls) ∧
    ((∀ n ∈ (empty.record calls).nodes, ¬ Path.Same n p) →
      Path.Same q p ∧
      ((empty.record calls).require p q).1 =
        ⟨(empty.record calls).nodes ++ [p], (empty.record calls).edges⟩ ∧
      ∀ later, ((empty.record calls).require p q).1.answers later =
        ((empty.record calls).answers later).map (Option.map (respellWay p))) := by
  obtain ⟨hformed, -, -⟩ := record_spec formed_empty acyclic_empty calls
  generalize empty.record calls = g at h hformed
  obtain ⟨hleft, hself⟩ := require_refused_eq hformed (h ▸ rfl : (g.require p q).2.isSome)
  constructor
  · rintro ⟨n, hn, hsame⟩
    cases hnode : g.node? p with
    | some stored => rw [hleft, intern_of_some hnode]
    | none => exact absurd hsame (node?_eq_none.mp hnode n hn)
  · intro hnew
    have hnode := node?_eq_none.mpr hnew
    refine ⟨hself hnode, by rw [hleft, intern_of_none hnode], ?_⟩
    rw [hleft]
    exact (respelt_intern hformed hnode).answers_eq

/-- A path that no call has named yet is refused to itself; the circle that later leads through it
shows the spelling of the refused call. -/
theorem refused_require_leaves_self :
    let a := Path.ofText ['/', 'a']
    let b := Path.ofText ['/', 'b']
    let c := Path.ofText ['/', 'c']
    let a' := Path.ofText ['/', '/', 'a']
    let g := empty.record [(b, c)]
    (g.require a' a).2 = some [a', a'] ∧ (∀ n ∈ g.nodes, ¬ Path.Same n a') ∧
      (g.require a' a).1.answers [(a, b), (c, a)] = [none, some [c, a', b, c]] := by
  intro a b c a' g
  have hrefused : (g.require a' a).2 = some [a', a'] := by decide +kernel
  have hnew : ∀ n ∈ g.nodes, ¬ Path.Same n a' := by decide +kernel
  refine ⟨hrefused, hnew, ?_⟩
  rw [((refused_require_leaves [(b, c)] hrefused).2 hnew).2.2]
  decide +kernel

/-- The graph that a refused call leaves can have a node more, and then later circles are shown in
another spelling than without that call. -/
theorem refused_require_stores :
    let a := Path.ofText ['/', 'a']
    let b := Path.ofText ['/', 'b']
    let a' := Path.ofText ['/', '/', 'a']
    (empty.require a' a).2 = some [a', a'] ∧ empty.nodes = [] ∧
      (empty.require a' a).1.nodes = [a'] ∧
      (empty.require a' a).1.answers [(a, b), (b, a)] = [none, some [b, a', b]] ∧
      empty.answers [(a, b), (b, a)] = [none, some [b, a, b]] ∧ a' ≠ a := by
  decide +kernel

end RequireGraph
end ScriptBundle
