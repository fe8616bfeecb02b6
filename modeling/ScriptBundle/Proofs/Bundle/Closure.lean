import ScriptBundle.Proofs.Bundle.Steps
import ScriptBundle.Proofs.Bundle.Ways
import ScriptBundle.Proofs.Require.Loading

/-! When a bundle succeeds, and what its errors mean. The modules of a bundle are those that are
reached from the entry along requires. A run ends well exactly when all of them load and none leads
back to itself; it has then registered just these, and an error points to one that does not load or
lists a circle. -/
namespace ScriptBundle

open Relation

section

variable (tree : FileTree) (settings : Settings) (c : Path)

/-- The modules that a bundle of the entry `c` is made of. -/
def Reached (p : Path) : Prop := ReflTransGen (Requires tree settings) c p

/-- A module of the bundle requires the other one, however the two are spelt. -/
def Linked (p q : Path) : Prop :=
  ∃ p' q', Path.Same p' p ∧ Path.Same q' q ∧ Reached tree settings c p' ∧
    Requires tree settings p' q'

/-- The modules all load, and none of them leads back to itself. -/
structure Bundleable : Prop where
  loads : ∀ p, Reached tree settings c p → ∃ text, Loads tree settings p text
  acyclic : ∀ p, ¬ TransGen (Linked tree settings c) p p

/-- A chain of requires between modules of the bundle that ends where it began. -/
structure Circle (cycle : List Path) : Prop where
  reached : ∀ p ∈ cycle, Reached tree settings c p
  chain : cycle.IsChain (Linked tree settings c)
  closed : ∃ first rest last, cycle = first :: rest ∧ rest.getLast? = some last ∧
    Path.Same last first

def RunFault (e : BundleError) : Prop :=
  (∃ p, Reached tree settings c p ∧ LoadFault tree settings p e) ∨
    ∃ cycle, e = .cyclicDependency cycle ∧ Circle tree settings c cycle

/-- What can go wrong in a run: something is wrong with the modules, or an extension cannot be put
after a name. -/
def Failure (e : BundleError) : Prop :=
  RunFault tree settings c e ∨ Require.IsExtensionFault settings.extensions e

end

variable {tree : FileTree} {settings : Settings} {c p q : Path}

theorem Linked.congr {p' q' : Path} (h : Linked tree settings c p q) (hp : Path.Same p p')
    (hq : Path.Same q q') : Linked tree settings c p' q' := by
  obtain ⟨a, b, ha, hb, hreached, hrequires⟩ := h
  exact ⟨a, b, ha.trans hp, hb.trans hq, hreached, hrequires⟩

theorem transGen_congr_right {r : Path → Path → Prop}
    (hr : ∀ {x y z}, r x y → Path.Same y z → r x z) (h : TransGen r p q) {q' : Path}
    (hq : Path.Same q q') : TransGen r p q' := by
  cases h with
  | single h => exact .single (hr h hq)
  | tail h h' => exact h.tail (hr h' hq)

theorem Circle.exists_transGen {cycle : List Path} (h : Circle tree settings c cycle) :
    ∃ p, TransGen (Linked tree settings c) p p := by
  obtain ⟨first, rest, last, rfl, hlast, hsame⟩ := h.closed
  have hlead : ∀ {a : Path} {l : List Path}, (a :: l).IsChain (Linked tree settings c) →
      l.getLast? = some last → TransGen (Linked tree settings c) a last := by
    intro a l hchain hl
    induction l generalizing a with
    | nil => simp at hl
    | cons b l ih =>
      obtain ⟨hab, hchain⟩ := List.isChain_cons_cons.mp hchain
      cases l with
      | nil =>
        obtain rfl : b = last := by simpa using hl
        exact .single hab
      | cons d l => exact (ih hchain (by simpa using hl)).head hab
  exact ⟨first, transGen_congr_right (fun h hs => h.congr (.refl _) hs) (hlead h.chain hlast) hsame⟩

theorem RunFault.not_bundleable {e : BundleError} (h : RunFault tree settings c e) :
    ¬ Bundleable tree settings c := by
  intro hbundleable
  rcases h with ⟨p, hp, hfault⟩ | ⟨cycle, -, hcircle⟩
  · obtain ⟨text, hloads⟩ := hbundleable.loads p hp
    exact hfault.not_loads hloads
  · obtain ⟨p, hp⟩ := hcircle.exists_transGen
    exact hbundleable.acyclic p hp

/-- The graph of a run shows requires between modules of the bundle, and no circle. -/
structure Traces (tree : FileTree) (settings : Settings) (c : Path) (g : RequireGraph) : Prop where
  formed : g.Formed
  acyclic : g.Acyclic
  nodes : ∀ n ∈ g.nodes, Reached tree settings c n
  links : ∀ p q, g.Links p q → Linked tree settings c p q

theorem traces_empty (tree : FileTree) (settings : Settings) (c : Path) :
    Traces tree settings c .empty where
  formed := RequireGraph.formed_empty
  acyclic := RequireGraph.acyclic_empty
  nodes := by simp [RequireGraph.empty]
  links := fun p q h => absurd h (RequireGraph.not_links_empty p q)

namespace Traces

variable {g : RequireGraph}

theorem require (h : Traces tree settings c g) (hp : Reached tree settings c p)
    (hpq : Requires tree settings p q) (hnone : (g.require p q).2 = none) :
    Traces tree settings c (g.require p q).1 := by
  obtain ⟨hformed, hacyclic, hlinks, hnodes⟩ := g.require_accepted h.formed h.acyclic hnone
  refine ⟨hformed, hacyclic, fun n hn => ?_, fun x y hxy => ?_⟩
  · rcases hnodes n hn with hn | rfl | rfl
    · exact h.nodes n hn
    · exact hp
    · exact hp.tail hpq
  · rcases (hlinks x y).mp hxy with hxy | ⟨hpx, hqy⟩
    · exact h.links x y hxy
    · exact ⟨p, q, hpx, hqy, hp, hpq⟩

theorem circle (h : Traces tree settings c g) (hp : Reached tree settings c p)
    (hpq : Requires tree settings p q) {cycle : List Path}
    (hsome : (g.require p q).2 = some cycle) : Circle tree settings c cycle := by
  obtain ⟨way, a, b, rfl, hchain, hhead, hlast, hbq, hap, hnodes⟩ :=
    g.require_refused h.formed hsome
  refine ⟨fun n hn => ?_, ?_, ⟨p, way, a, rfl, hlast, hap⟩⟩
  · rcases List.mem_cons.mp hn with rfl | hn
    · exact hp
    · rcases hnodes n hn with hn | rfl | rfl
      · exact h.nodes n hn
      · exact hp
      · exact hp.tail hpq
  · refine List.isChain_cons.mpr ⟨fun n hn => ?_, hchain.imp fun x y hxy => ?_⟩
    · obtain rfl : b = n := by simpa [hhead] using hn
      exact ⟨p, q, .refl p, hbq.symm, hp, hpq⟩
    · exact h.links x y hxy.links

theorem refuse (h : Traces tree settings c g) (hp : Reached tree settings c p)
    (hpq : Requires tree settings p q) {cycle : List Path}
    (hsome : (g.require p q).2 = some cycle) :
    Traces tree settings c (g.require p q).1 ∧ (g.require p q).1.Links = g.Links := by
  obtain ⟨g', a, b, hstored, ⟨way, -, hrefused⟩ | ⟨-, hnone, -⟩⟩ := g.require_cases h.formed p q
  · rw [hrefused]
    refine ⟨⟨hstored.formed, ?_, fun n hn => ?_, ?_⟩, hstored.links_eq⟩
    · rw [RequireGraph.Acyclic, hstored.links_eq]
      exact h.acyclic
    · rcases hstored.nodes n hn with hn | rfl | rfl
      · exact h.nodes n hn
      · exact hp
      · exact hp.tail hpq
    · rw [hstored.links_eq]
      exact h.links
  · simp [hnone] at hsome

theorem requireAll {targets : List Path} (h : Traces tree settings c g)
    (hp : Reached tree settings c p) (htargets : ∀ t ∈ targets, Requires tree settings p t) :
    Traces tree settings c (g.requireAll p targets).1 ∧
      (∀ x y, g.Links x y → (g.requireAll p targets).1.Links x y) ∧
      ((g.requireAll p targets).2 = none → ∀ t ∈ targets, (g.requireAll p targets).1.Links p t) ∧
      ∀ cycle, (g.requireAll p targets).2 = some cycle → Circle tree settings c cycle := by
  induction targets generalizing g with
  | nil => exact ⟨h, fun _ _ => id, by simp, by simp [RequireGraph.requireAll]⟩
  | cons target more ih =>
    have hrequires := htargets target (by simp)
    rw [RequireGraph.requireAll]
    split
    · next g₁ cycle hrequire =>
      have hsome : (g.require p target).2 = some cycle := by rw [hrequire]
      obtain ⟨hgraph, hlinks⟩ := h.refuse hp hrequires hsome
      rw [hrequire] at hgraph hlinks
      refine ⟨hgraph, fun x y hxy => hlinks ▸ hxy, by simp, ?_⟩
      rintro _ ⟨⟩
      exact h.circle hp hrequires hsome
    · next g₁ hrequire =>
      have hnone : (g.require p target).2 = none := by rw [hrequire]
      obtain ⟨-, -, hlinks, -⟩ := g.require_accepted h.formed h.acyclic hnone
      have hgraph := h.require hp hrequires hnone
      rw [hrequire] at hlinks hgraph
      obtain ⟨htraces, hmono, hall, hcircle⟩ :=
        ih hgraph fun t ht => htargets t (List.mem_cons_of_mem _ ht)
      refine ⟨htraces, fun x y hxy => hmono x y ((hlinks x y).mpr (Or.inl hxy)), fun hok t ht => ?_,
        hcircle⟩
      rcases List.mem_cons.mp ht with rfl | ht
      · exact hmono p t ((hlinks p t).mpr (Or.inr ⟨.refl p, .refl t⟩))
      · exact hall hok t ht

end Traces

namespace Run

variable {run run' : Run}

def IsReady (run : Run) (p : Path) : Prop := ∃ m ∈ run.ready, Path.Same m.1.path p

theorem isReady_iff : run.IsReady p ↔ (run.ready? p).isSome := by
  simp [IsReady, ready?, List.find?_isSome]

structure Extends (run run' : Run) : Prop where
  links : ∀ p q, run.graph.Links p q → run'.graph.Links p q
  ready : ∀ m ∈ run.ready, m ∈ run'.ready

theorem Extends.refl (run : Run) : run.Extends run := ⟨fun _ _ => id, fun _ => id⟩

theorem Extends.trans {run'' : Run} (h : run.Extends run') (h' : run'.Extends run'') :
    run.Extends run'' :=
  ⟨fun p q hpq => h'.links p q (h.links p q hpq), fun m hm => h'.ready m (h.ready m hm)⟩

theorem Extends.isReady (h : run.Extends run') (hp : run.IsReady p) : run'.IsReady p :=
  hp.imp fun m hm => ⟨h.ready m hm.1, hm.2⟩

theorem Extends.leads (h : run.Extends run') (hpq : TransGen run.graph.Links p q) :
    TransGen run'.graph.Links p q := TransGen.mono h.links p q hpq

/-- What holds of a run while the modules `opened` wait for what they require: it has registered
modules of the bundle, each of them open or ready; what a ready module requires is ready too, and
the graph shows it. -/
structure Sound (tree : FileTree) (settings : Settings) (c : Path) (opened : List Path)
    (run : Run) : Prop where
  reached : ∀ e ∈ run.registry.entries, Reached tree settings c e.1 ∧ e.2 = .ofPath e.1
  apart : run.registry.paths.Pairwise fun p q => ¬ Path.Same p q
  graph : Traces tree settings c run.graph
  opened_registered : ∀ p ∈ opened, p ∈ run.registry.paths
  opened_nodup : opened.Nodup
  opened_loads : ∀ p ∈ opened, ∃ text, Loads tree settings p text
  settled : ∀ p ∈ run.registry.paths, p ∈ opened ∨ run.IsReady p
  ready_registered : ∀ m ∈ run.ready, m.1.path ∈ run.registry.paths
  ready_loads : ∀ m ∈ run.ready, ∃ text, Loads tree settings m.1.path text
  ready_requires : ∀ m ∈ run.ready, ∀ q, Requires tree settings m.1.path q →
    run.graph.Links m.1.path q ∧ run.IsReady q

theorem sound_start (tree : FileTree) (settings : Settings) (c : Path) :
    Sound tree settings c [] .start := by
  constructor <;> simp [start, Registry.empty, Registry.paths, traces_empty]

theorem Sound.reached_of_mem {opened : List Path} (h : Sound tree settings c opened run)
    (hp : p ∈ run.registry.paths) : Reached tree settings c p := by
  obtain ⟨e, he, rfl⟩ := List.mem_map.mp hp
  exact (h.reached e he).1

theorem recordEdges_ensures {targets : List Path} (hgraph : Traces tree settings c run.graph)
    (hp : Reached tree settings c p) (htargets : ∀ t ∈ targets, Requires tree settings p t) :
    (run.recordEdges p targets).Ensures
      (fun run' => (run'.registry = run.registry ∧ run'.ready = run.ready) ∧
        Traces tree settings c run'.graph ∧
        (∀ x y, run.graph.Links x y → run'.graph.Links x y) ∧ ∀ t ∈ targets, run'.graph.Links p t)
      (RunFault tree settings c) := by
  obtain ⟨htraces, hlinks, hall, hcircle⟩ := hgraph.requireAll hp htargets
  have houtcome := recordEdges_outcome run p targets
  split at houtcome
  · next cycle hrefused =>
    rw [hrefused] at hcircle
    exact (Logged.ensures_error houtcome).mpr (Or.inr ⟨cycle, rfl, hcircle cycle rfl⟩)
  · next graph hrecorded =>
    rw [hrecorded] at htraces hlinks hall
    exact (Logged.ensures_ok houtcome).mpr ⟨⟨rfl, rfl⟩, htraces, hlinks, hall rfl⟩

def Visited (tree : FileTree) (settings : Settings) (c : Path) (opened : List Path) (run : Run)
    (p : Path) (r : Run × ReadyModule × Forest) : Prop :=
  Sound tree settings c opened r.1 ∧ run.Extends r.1 ∧ r.2 ∈ r.1.ready ∧ Path.Same r.2.1.path p

theorem visitAll_ensures {opened targets : List Path}
    {inner : Run → Path → Logged (Run × ReadyModule × Forest)}
    (hinner : ∀ {run q}, Sound tree settings c opened run → Reached tree settings c q →
      (∀ o ∈ opened, TransGen run.graph.Links o q) →
      (inner run q).Ensures (Visited tree settings c opened run q) (Failure tree settings c))
    (hsound : Sound tree settings c opened run)
    (hreached : ∀ t ∈ targets, Reached tree settings c t)
    (hleads : ∀ t ∈ targets, ∀ o ∈ opened, TransGen run.graph.Links o t) :
    (visitAll inner run targets).Ensures
      (fun r => Sound tree settings c opened r.1 ∧ run.Extends r.1 ∧ ∀ t ∈ targets, r.1.IsReady t)
      (Failure tree settings c) := by
  induction targets generalizing run with
  | nil => exact Logged.ensures_pure.mpr ⟨hsound, .refl run, by simp⟩
  | cons target more ih =>
    rw [visitAll]
    refine (hinner hsound (hreached target (by simp)) (hleads target (by simp))).bind ?_
    rintro ⟨run₁, m, needs⟩ - ⟨hsound₁, hextends₁, hready, hsame⟩
    refine (ih hsound₁ (fun t ht => hreached t (List.mem_cons_of_mem _ ht)) fun t ht o ho =>
      hextends₁.leads (hleads t (List.mem_cons_of_mem _ ht) o ho)).bind ?_
    rintro ⟨run₂, rest⟩ - ⟨hsound₂, hextends₂, hall⟩
    refine Logged.ensures_pure.mpr ⟨hsound₂, hextends₁.trans hextends₂, fun t ht => ?_⟩
    rcases List.mem_cons.mp ht with rfl | ht
    · exact hextends₂.isReady ⟨(m, needs), hready, hsame⟩
    · exact hall t ht

theorem Sound.opening {opened : List Path} {edged : Run} {text : Text}
    (h : Sound tree settings c opened run) (hp : Reached tree settings c p)
    (hnew : ¬ run.registry.contains p = true) (hloads : Loads tree settings p text)
    (hregistry : edged.registry = (run.registry.register p (.ofPath p)).1)
    (hready : edged.ready = run.ready) (hgraph : Traces tree settings c edged.graph)
    (hlinks : ∀ x y, run.graph.Links x y → edged.graph.Links x y) :
    Sound tree settings c (p :: opened) edged := by
  have hentries : edged.registry.entries = run.registry.entries ++ [(p, .ofPath p)] := by
    rw [hregistry, Registry.register_of_not_contains _ hnew]
  have hpaths : edged.registry.paths = run.registry.paths ++ [p] := by
    rw [hregistry, Registry.paths_register _ hnew]
  have hisReady : ∀ q, run.IsReady q → edged.IsReady q := by
    intro q hq
    rwa [IsReady, hready]
  refine ⟨?_, ?_, hgraph, ?_, ?_, ?_, ?_, ?_, ?_, ?_⟩
  · intro e he
    rw [hentries, List.mem_append, List.mem_singleton] at he
    rcases he with he | rfl
    · exact h.reached e he
    · exact ⟨hp, rfl⟩
  · rw [hregistry]
    exact Registry.apart_register _ hnew h.apart
  · intro q hq
    rw [hpaths]
    rcases List.mem_cons.mp hq with rfl | hq
    · simp
    · exact List.mem_append_left _ (h.opened_registered q hq)
  · exact List.nodup_cons.mpr
      ⟨fun hin => hnew (Registry.contains_iff.mpr ⟨p, h.opened_registered p hin, .refl p⟩),
        h.opened_nodup⟩
  · intro q hq
    rcases List.mem_cons.mp hq with rfl | hq
    · exact ⟨text, hloads⟩
    · exact h.opened_loads q hq
  · intro q hq
    rw [hpaths, List.mem_append, List.mem_singleton] at hq
    rcases hq with hq | rfl
    · exact (h.settled q hq).imp (List.mem_cons_of_mem _) (hisReady q)
    · exact Or.inl List.mem_cons_self
  · intro m hm
    rw [hpaths]
    exact List.mem_append_left _ (h.ready_registered m (hready ▸ hm))
  · exact fun m hm => h.ready_loads m (hready ▸ hm)
  · intro m hm q hq
    obtain ⟨hlink, hdone⟩ := h.ready_requires m (hready ▸ hm) q hq
    exact ⟨hlinks _ _ hlink, hisReady q hdone⟩

theorem Sound.closing {opened : List Path} {m : ReadyModule} {needs : Forest}
    (h : Sound tree settings c (m.path :: opened) run)
    (hrequires : ∀ q, Requires tree settings m.path q →
      run.graph.Links m.path q ∧ run.IsReady q) :
    Sound tree settings c opened { run with ready := run.ready ++ [(m, needs)] } := by
  have hextends : run.Extends { run with ready := run.ready ++ [(m, needs)] } :=
    ⟨fun _ _ => id, fun m hm => List.mem_append_left _ hm⟩
  have hself : m.path ∈ m.path :: opened := List.mem_cons_self
  refine ⟨h.reached, h.apart, h.graph, fun q hq => ?_, (List.nodup_cons.mp h.opened_nodup).2,
    fun q hq => ?_, fun q hq => ?_, fun n hn => ?_, fun n hn => ?_, fun n hn q hq => ?_⟩
  · exact h.opened_registered q (List.mem_cons_of_mem _ hq)
  · exact h.opened_loads q (List.mem_cons_of_mem _ hq)
  · rcases h.settled q hq with hq | hq
    · rcases List.mem_cons.mp hq with rfl | hq
      · exact Or.inr ⟨(m, needs), by simp, .refl _⟩
      · exact Or.inl hq
    · exact Or.inr (hextends.isReady hq)
  · rcases List.mem_append.mp hn with hn | hn
    · exact h.ready_registered n hn
    · rw [List.mem_singleton.mp hn]
      exact h.opened_registered _ hself
  · rcases List.mem_append.mp hn with hn | hn
    · exact h.ready_loads n hn
    · rw [List.mem_singleton.mp hn]
      exact h.opened_loads _ hself
  · have hdone : run.graph.Links n.1.path q ∧ run.IsReady q := by
      rcases List.mem_append.mp hn with hn | hn
      · exact h.ready_requires n hn q hq
      · obtain rfl := List.mem_singleton.mp hn
        exact hrequires q hq
    exact ⟨hdone.1, hextends.isReady hdone.2⟩

theorem Sound.ready_of_mem (h : Sound tree settings c [] run) (hp : p ∈ run.registry.paths) :
    ∃ m ∈ run.ready, m.1.path = p := by
  obtain ⟨m, hm, hsame⟩ := (h.settled p hp).resolve_left List.not_mem_nil
  exact ⟨m, hm, Path.eq_of_apart h.apart (h.ready_registered m hm) hp hsame⟩

theorem Sound.loads_of_mem (h : Sound tree settings c [] run) (hp : p ∈ run.registry.paths) :
    ∃ text, Loads tree settings p text := by
  obtain ⟨m, hm, rfl⟩ := h.ready_of_mem hp
  exact h.ready_loads m hm

theorem Sound.requires_of_mem (h : Sound tree settings c [] run) (hp : p ∈ run.registry.paths)
    (hpq : Requires tree settings p q) : run.graph.Links p q ∧ run.IsReady q := by
  obtain ⟨m, hm, rfl⟩ := h.ready_of_mem hp
  exact h.ready_requires m hm q hpq

theorem reached_cases (hc : c.isAbsolute = true) (h : Reached tree settings c p) :
    p = c ∨ tree.Canonical p := by
  induction h with
  | refl => exact Or.inl rfl
  | tail _ hpq ih =>
    have habsolute := ih.elim (fun h => h ▸ hc) FileTree.Canonical.isAbsolute
    exact Or.inr (hpq.canonical habsolute)

theorem isAbsolute_of_reached (hc : c.isAbsolute = true) (h : Reached tree settings c p) :
    p.isAbsolute = true :=
  (reached_cases hc h).elim (fun h => h ▸ hc) FileTree.Canonical.isAbsolute

theorem Sound.length_opened_lt {entry : Path} {opened : List Path}
    (h : Sound tree settings c opened run) (hc : tree.canonicalize entry = .ok c) :
    opened.length < tree.population :=
  FileTree.length_lt_population hc h.opened_nodup
    (fun o ho => reached_cases (FileTree.isAbsolute_of_canonicalize hc)
      (h.reached_of_mem (h.opened_registered o ho)))
    fun o ho => (h.opened_loads o ho).imp fun _ h => h.read

/-- A module that was loaded and whose edges were let in is open, and what it requires waits for
none of the modules that are: they all lead to it. -/
theorem Sound.edged {opened : List Path} {text : Text} {resolution : Resolution} {edged : Run}
    (hc : c.isAbsolute = true) (hsound : Sound tree settings c opened run)
    (hp : Reached tree settings c p) (hnew : ¬ run.registry.contains p = true)
    (hleads : ∀ o ∈ opened, TransGen run.graph.Links o p) (htext : tree.readText p = .ok text)
    (hresolution : (Require.resolveRequires tree p text settings.extensions).outcome =
      .ok resolution)
    (hedged : (recordEdges { run with registry := (run.registry.register p (.ofPath p)).1 } p
      resolution.dependencies).outcome = .ok edged) :
    Loads tree settings p text ∧ Sound tree settings c (p :: opened) edged ∧ run.Extends edged ∧
      (∀ q, Requires tree settings p q → q ∈ resolution.dependencies) ∧
      ∀ t ∈ resolution.dependencies, Reached tree settings c t ∧ edged.graph.Links p t ∧
        ∀ o ∈ p :: opened, TransGen edged.graph.Links o t := by
  obtain ⟨hloads, hrequires⟩ :=
    (resolveRequires_ensures (isAbsolute_of_reached hc hp) htext).of_ok hresolution
  have htargets : ∀ t ∈ resolution.dependencies, Requires tree settings p t :=
    fun t ht => (hrequires t).mpr ht
  have hregistered : Traces tree settings c
      ({ run with registry := (run.registry.register p (.ofPath p)).1 } : Run).graph := hsound.graph
  obtain ⟨⟨hregistry, hready⟩, hgraph, hlinks, hedges⟩ :=
    (recordEdges_ensures hregistered hp htargets).of_ok hedged
  have hextends : run.Extends edged := ⟨hlinks, fun m hm => hready.symm ▸ hm⟩
  refine ⟨hloads, hsound.opening hp hnew hloads hregistry hready hgraph hlinks, hextends,
    fun q => (hrequires q).mp, fun t ht => ⟨hp.tail (htargets t ht), hedges t ht, fun o ho => ?_⟩⟩
  rcases List.mem_cons.mp ho with rfl | ho
  · exact .single (hedges t ht)
  · exact (hextends.leads (hleads o ho)).tail (hedges t ht)

theorem makeReady_ensures {opened : List Path}
    {inner : Run → Path → Logged (Run × ReadyModule × Forest)} (hc : c.isAbsolute = true)
    (hsound : Sound tree settings c opened run) (hp : Reached tree settings c p)
    (hnew : ¬ run.registry.contains p = true)
    (hleads : ∀ o ∈ opened, TransGen run.graph.Links o p)
    (hinner : ∀ {text run q}, Loads tree settings p text →
      Sound tree settings c (p :: opened) run → Reached tree settings c q →
      (∀ o ∈ p :: opened, TransGen run.graph.Links o q) →
      (inner run q).Ensures (Visited tree settings c (p :: opened) run q)
        (Failure tree settings c)) :
    (makeReady tree settings inner
      { run with registry := (run.registry.register p (.ofPath p)).1 } p (.ofPath p)).Ensures
      (Visited tree settings c opened run p) (Failure tree settings c) := by
  have habsolute := isAbsolute_of_reached hc hp
  have hread : (readText tree p).Ensures (fun text => tree.readText p = .ok text)
      (Failure tree settings c) := by
    unfold readText
    cases htext : tree.readText p with
    | ok text => exact Logged.ensures_pure.mpr rfl
    | error fault => exact Logged.ensures_fail.mpr (Or.inl (Or.inl ⟨p, hp, .unread htext⟩))
  unfold makeReady
  rw [Logged.ensures_tell_bind]
  refine hread.bind fun text _ htext => ?_
  refine ((resolveRequires_ensures habsolute htext).imp (fun _ => id)
    fun e he => he.imp_left fun h => Or.inl ⟨p, hp, h⟩).bind ?_
  rintro resolution hresolution ⟨-, hrequires⟩
  have htargets : ∀ t ∈ resolution.dependencies, Requires tree settings p t :=
    fun t ht => (hrequires t).mpr ht
  have hregistered : Traces tree settings c
      ({ run with registry := (run.registry.register p (.ofPath p)).1 } : Run).graph := hsound.graph
  refine ((recordEdges_ensures hregistered hp htargets).imp (fun _ => id)
    fun _ => Or.inl).bind fun edged hedged _ => ?_
  obtain ⟨hloads, hopened, hextends, hall, hwaiting⟩ :=
    hsound.edged hc hp hnew hleads htext hresolution hedged
  refine (visitAll_ensures (hinner hloads) hopened (fun t ht => (hwaiting t ht).1)
    fun t ht => (hwaiting t ht).2.2).bind ?_
  rintro ⟨run₁, needs⟩ - ⟨hsound₁, hextends₁, hready⟩
  have hdone : ∀ q, Requires tree settings p q → run₁.graph.Links p q ∧ run₁.IsReady q := by
    intro q hq
    have ht := hall q hq
    exact ⟨hextends₁.links p q (hwaiting q ht).2.1, hready q ht⟩
  have hqualify : (qualify settings p (.ofPath p) resolution.code).Ensures (fun _ => True)
      (Failure tree settings c) := (Logged.ensures_ok (qualify_outcome ..)).mpr trivial
  refine hqualify.bind fun code _ _ => Logged.ensures_pure.mpr ?_
  refine ⟨Sound.closing hsound₁ hdone, (hextends.trans hextends₁).trans ⟨fun _ _ => id, ?_⟩, ?_,
    .refl p⟩
  · exact fun m hm => List.mem_append_left _ hm
  · exact List.mem_append_right _ (List.mem_singleton_self _)

/-- A visit ends with the path's module ready, or with an error that the modules bear out; the
depth is never used up. -/
theorem visit_ensures {entry : Path} (hc : tree.canonicalize entry = .ok c) {depth : Nat}
    {opened : List Path} (hsound : Sound tree settings c opened run)
    (hp : Reached tree settings c p) (hleads : ∀ o ∈ opened, TransGen run.graph.Links o p)
    (hdepth : tree.population ≤ depth + opened.length) :
    (visit tree settings depth run p).Ensures (Visited tree settings c opened run p)
      (Failure tree settings c) := by
  have habsolute := FileTree.isAbsolute_of_canonicalize hc
  induction depth generalizing run p opened with
  | zero =>
    have hroom := hsound.length_opened_lt hc
    omega
  | succ depth ih =>
    by_cases hknown : run.registry.contains p = true
    · have hisReady : run.IsReady p := by
        obtain ⟨q, hq, hqp⟩ := Registry.contains_iff.mp hknown
        rcases hsound.settled q hq with hopen | ⟨m, hm, hmq⟩
        · have hback := transGen_congr_right (fun h hs => h.congr (.refl _) hs) (hleads q hopen)
            hqp.symm
          exact absurd hback (hsound.graph.acyclic q)
        · exact ⟨m, hm, hmq.trans hqp⟩
      obtain ⟨m, hm⟩ := Option.isSome_iff_exists.mp (isReady_iff.mp hisReady)
      refine (Logged.ensures_ok (by rw [visit_joined hknown, hm]; rfl)).mpr ?_
      exact ⟨hsound, .refl run, List.mem_of_find?_eq_some hm, by simpa using List.find?_some hm⟩
    · refine (makeReady_ensures habsolute hsound hp hknown hleads
        fun hloads hsound' hq hleads' => ih hsound' hq hleads' ?_).congr (visit_new hknown)
      rw [List.length_cons]
      omega

/-- What a module requires is reached in one spelling: the entry cannot be met again in another,
since it would lead back to itself. -/
theorem eq_of_required {g : RequireGraph} {q' : Path} (hc : c.isAbsolute = true)
    (hgraph : Traces tree settings c g) (hp : Reached tree settings c p)
    (hleads : ReflTransGen g.Links c p) (hpq : Requires tree settings p q) (hlink : g.Links p q)
    (hq' : Reached tree settings c q') (hsame : Path.Same q' q) : q' = q := by
  have hpabsolute := isAbsolute_of_reached hc hp
  rcases reached_cases hc hq' with rfl | hcanonical
  · have hback := transGen_congr_right (fun h hs => h.congr (.refl _) hs)
      (TransGen.tail' hleads hlink) hsame.symm
    exact absurd hback (hgraph.acyclic q')
  · exact hcanonical.eq_of_same (hpq.canonical hpabsolute) hsame

theorem Sound.registered_of_reached (h : Sound tree settings c [] run) (hc : c.isAbsolute = true)
    (hentry : c ∈ run.registry.paths) (hp : Reached tree settings c p) :
    p ∈ run.registry.paths ∧ ReflTransGen run.graph.Links c p := by
  induction hp with
  | refl => exact ⟨hentry, .refl⟩
  | tail hp hpq ih =>
    obtain ⟨hregistered, hleads⟩ := ih
    obtain ⟨hlink, m, hm, hsame⟩ := h.requires_of_mem hregistered hpq
    have hmpath := h.ready_registered m hm
    have heq := eq_of_required hc h.graph hp hleads hpq hlink (h.reached_of_mem hmpath)
      hsame
    exact ⟨heq ▸ hmpath, hleads.tail hlink⟩

theorem Sound.bundleable (h : Sound tree settings c [] run) (hc : c.isAbsolute = true)
    (hentry : c ∈ run.registry.paths) : Bundleable tree settings c := by
  refine ⟨fun p hp => ?_, fun p hp => h.graph.acyclic p (TransGen.mono ?_ p p hp)⟩
  · exact h.loads_of_mem (h.registered_of_reached hc hentry hp).1
  · rintro x y ⟨x', y', hx, hy, hreached, hrequires⟩
    have hregistered := (h.registered_of_reached hc hentry hreached).1
    exact (h.requires_of_mem hregistered hrequires).1.congr hx hy

end Run

variable {entry : Path}

theorem visit_entry_ensures (hc : tree.canonicalize entry = .ok c) :
    (Run.visit tree settings tree.size .start c).Ensures
      (Run.Visited tree settings c [] .start c) (Failure tree settings c) :=
  Run.visit_ensures hc (Run.sound_start tree settings c) .refl (by simp) tree.population_le_size

theorem Failure.runFault (hextensions : ∀ e ∈ settings.extensions, '/' ∉ e) {e : BundleError}
    (h : Failure tree settings c e) : RunFault tree settings c e :=
  h.resolve_right (Require.not_isExtensionFault hextensions e)

theorem fault_of_bundle_error (hextensions : ∀ e ∈ settings.extensions, '/' ∉ e) {e : BundleError}
    (he : (bundle tree settings entry).outcome = .error e) :
    (∃ fault, tree.canonicalize entry = .error fault ∧ e = .fileSystem entry fault) ∨
      ∃ c, tree.canonicalize entry = .ok c ∧ RunFault tree settings c e := by
  rcases bundle_error.mp he with hentry | ⟨c, hc, herror⟩
  · exact Or.inl hentry
  · exact Or.inr ⟨c, hc, ((visit_entry_ensures hc).of_error herror).runFault hextensions⟩

theorem sound_of_bundle_ok {b : Bundle} (hb : (bundle tree settings entry).outcome = .ok b) :
    ∃ c run, tree.canonicalize entry = .ok c ∧ b.entry = .ofPath c ∧ b.registry = run.registry ∧
      Run.Sound tree settings c [] run ∧ c ∈ run.registry.paths := by
  obtain ⟨c, run, m, needs, hc, hok, rfl⟩ := bundle_ok.mp hb
  obtain ⟨hsound, -, hready, -⟩ := (visit_entry_ensures hc).of_ok hok
  have hm : m.path = c ∧ m.id = .ofPath c := by
    have hnew : ¬ Run.start.registry.contains c = true := Bool.false_ne_true
    unfold FileTree.size at hok
    rw [Run.visit_new hnew] at hok
    obtain ⟨text, resolution, edged, run₁, needs', m', -, -, -, -, rfl, hr⟩ :=
      Run.makeReady_ok.mp hok
    obtain ⟨-, rfl, -⟩ : _ ∧ _ ∧ _ := by simpa using hr
    exact ⟨rfl, rfl⟩
  exact ⟨c, run, hc, hm.2, rfl, hsound, hm.1 ▸ hsound.ready_registered _ hready⟩

/-- **When a bundle succeeds, and what its errors mean.** There is a bundle exactly when the entry
has a canonical path, all modules reached from it load, and none of them leads back to itself. Its
registry holds these modules, each once and with the id of its path. An error is that of the entry's
canonical path, or of a module reached from it, or lists a circle of such modules. -/
theorem bundle_closure {tree : FileTree} {settings : Settings} (entry : Path)
    (hextensions : ∀ e ∈ settings.extensions, '/' ∉ e) :
    ((∃ b, (bundle tree settings entry).outcome = .ok b) ↔
      ∃ c, tree.canonicalize entry = .ok c ∧ Bundleable tree settings c) ∧
    (∀ b, (bundle tree settings entry).outcome = .ok b →
      ∃ c, tree.canonicalize entry = .ok c ∧ b.entry = .ofPath c ∧
        b.registry.paths.Pairwise (fun p q => ¬ Path.Same p q) ∧
        ∀ p id, (p, id) ∈ b.registry.entries ↔ Reached tree settings c p ∧ id = .ofPath p) ∧
    ∀ e, (bundle tree settings entry).outcome = .error e →
      (∃ fault, tree.canonicalize entry = .error fault ∧ e = .fileSystem entry fault) ∨
      ∃ c, tree.canonicalize entry = .ok c ∧ RunFault tree settings c e := by
  refine ⟨⟨?_, ?_⟩, ?_, fun e => fault_of_bundle_error hextensions⟩
  · rintro ⟨b, hb⟩
    obtain ⟨c, run, hc, -, -, hsound, hentry⟩ := sound_of_bundle_ok hb
    exact ⟨c, hc, hsound.bundleable (FileTree.isAbsolute_of_canonicalize hc) hentry⟩
  · rintro ⟨c, hc, hbundleable⟩
    cases hb : (bundle tree settings entry).outcome with
    | ok b => exact ⟨b, rfl⟩
    | error e =>
      rcases fault_of_bundle_error hextensions hb with ⟨fault, herror, -⟩ | ⟨c', hc', hrun⟩
      · simp [hc] at herror
      · obtain rfl := Except.ok.inj (hc.symm.trans hc')
        exact absurd hbundleable hrun.not_bundleable
  · intro b hb
    obtain ⟨c, run, hc, hid, hregistry, hsound, hentry⟩ := sound_of_bundle_ok hb
    have habsolute := FileTree.isAbsolute_of_canonicalize hc
    rw [hregistry]
    refine ⟨c, hc, hid, hsound.apart, fun p id => ⟨fun hp => hsound.reached _ hp, ?_⟩⟩
    rintro ⟨hp, rfl⟩
    have hregistered := (hsound.registered_of_reached habsolute hentry hp).1
    obtain ⟨e, he, rfl⟩ := List.mem_map.mp hregistered
    rw [← (hsound.reached e he).2]
    exact he

/-- A module and what it requires: without a require back there is a bundle, and with one the error
lists the circle. -/
theorem bundle_closure_pair :
    let a := Path.ofText ['/', 'a']
    let b := Path.ofText ['/', 'b']
    let tree := fun text : String => (⟨[], [
      ([Utf8.encode ['a']], .file (Utf8.encode "require('./b')".toList)),
      ([Utf8.encode ['b']], .file (Utf8.encode text.toList))]⟩ : FileTree)
    (∀ e ∈ ({} : Settings).extensions, '/' ∉ e) ∧
      (∃ c, (tree "let x = 1").canonicalize a = .ok c ∧ Bundleable (tree "let x = 1") {} c) ∧
      ∃ c, (tree "require('./a')").canonicalize a = .ok c ∧
        Circle (tree "require('./a')") {} c [b, a, b] := by
  intro a b tree
  have hextensions : ∀ e ∈ ({} : Settings).extensions, '/' ∉ e := by decide
  refine ⟨hextensions, (bundle_closure a hextensions).1.mp ?_, ?_⟩
  · have hok : (bundle (tree "let x = 1") {} a).Ensures (fun _ => True) fun _ => False := by
      decide +kernel
    exact hok.exists_ok.imp fun _ h => h.1
  · have herror : (bundle (tree "require('./a')") {} a).Ensures (fun _ => False)
        (· = .cyclicDependency [b, a, b]) := by decide +kernel
    obtain ⟨e, he, rfl⟩ := herror.exists_error
    rcases (bundle_closure a hextensions).2.2 _ he with ⟨fault, -, hfault⟩ | ⟨c, hc, hrun⟩
    · simp at hfault
    · refine ⟨c, hc, ?_⟩
      rcases hrun with ⟨p, -, hload⟩ | ⟨cycle, hcycle, hcircle⟩
      · cases hload
      · obtain rfl : [b, a, b] = cycle := by simpa using hcycle
        exact hcircle

end ScriptBundle
