import Mathlib.Data.Fintype.Card
import Mathlib.Data.Fintype.EquivFin
import Mathlib.Data.Fintype.Sets
import ScriptBundle.Proofs.Bundle.Closure
import ScriptBundle.Proofs.Bundle.Inlining

/-! Modules worked on side by side. What a run does to a module are three steps: its path is
registered when it is first called for, it is processed, and it is finished when all that it
requires is. The steps of different modules may come in any order. Whatever the order, the modules
that wait for one another follow the edges of the graph, so that some step can always be taken
until the entry is ready or a module has failed. -/
namespace ScriptBundle

open Relation

/-- The module at the path, read and with its requires resolved. -/
def load (tree : FileTree) (settings : Settings) (p : Path) : Logged Resolution := do
  let text ← Run.readText tree p
  Require.resolveRequires tree p text settings.extensions

/-- A run whose modules are worked on side by side. -/
structure Progress extends Run where
  entry : Path
  /-- The modules that were processed, with what they were resolved to. -/
  resolved : List (Path × Resolution)
  /-- The modules that failed when they were processed. -/
  failed : List (Path × BundleError)

namespace Run

def gather (run : Run) : List Path → Option Forest
  | [] => some .nil
  | p :: more =>
    match run.ready? p, run.gather more with
    | some (m, needs), some rest => some (.cons m needs rest)
    | _, _ => none

end Run

namespace Progress

def begin (entry : Path) : Progress := { Run.start with entry, resolved := [], failed := [] }

def Called (s : Progress) (p : Path) : Prop :=
  p = s.entry ∨ ∃ m ∈ s.resolved, p ∈ m.2.dependencies

def Processed (s : Progress) (p : Path) : Prop :=
  p ∈ s.resolved.map (·.1) ∨ p ∈ s.failed.map (·.1)

def register (s : Progress) (p : Path) : Progress :=
  { s with registry := (s.registry.register p (.ofPath p)).1 }

/-- The module is loaded, and the edges to what it requires are recorded. The edges before one that
is refused stay. -/
def process (tree : FileTree) (settings : Settings) (s : Progress) (p : Path) : Progress :=
  match (load tree settings p).outcome with
  | .error e => { s with failed := s.failed ++ [(p, e)] }
  | .ok resolution =>
    match s.graph.requireAll p resolution.dependencies with
    | (graph, some cycle) => { s with graph, failed := s.failed ++ [(p, .cyclicDependency cycle)] }
    | (graph, none) => { s with graph, resolved := s.resolved ++ [(p, resolution)] }

def finish (settings : Settings) (s : Progress) (p : Path) (id : ModuleId)
    (resolution : Resolution) (needs : Forest) : Progress :=
  let code :=
    (namespaceModule resolution.code id [Binding.ofExport settings.exportTarget id]).code
  { s with ready := s.ready ++ [(⟨p, id, code⟩, needs)] }

end Progress

/-- What is done to one module at a time. -/
inductive Action
  | register (p : Path)
  | process (p : Path)
  | finish (p : Path)

namespace Action

def path : Action → Path
  | .register p => p
  | .process p => p
  | .finish p => p

inductive Repeats : Action → Action → Prop
  | register {p q : Path} (h : Path.Same p q) : Repeats (.register p) (.register q)
  | process {p q : Path} (h : Path.Same p q) : Repeats (.process p) (.process q)
  | finish {p q : Path} (h : Path.Same p q) : Repeats (.finish p) (.finish q)

/-- The action has left its mark on the run. -/
def Taken (s : Progress) : Action → Prop
  | .register p => s.registry.contains p = true
  | .process p => ∃ q, s.Processed q ∧ Path.Same q p
  | .finish p => s.IsReady p

end Action

section

variable (tree : FileTree) (settings : Settings)

/-- One step of a run, taken as a whole: no other module's step comes in between. A failure does not
keep other modules from going on. -/
inductive Step : Progress → Action → Progress → Prop
  | register {s : Progress} {p : Path} (hcalled : s.Called p)
      (hnew : ¬ s.registry.contains p = true) : Step s (.register p) (s.register p)
  | process {s : Progress} {p : Path} (hregistered : p ∈ s.registry.paths)
      (hwaiting : ¬ s.Processed p) : Step s (.process p) (s.process tree settings p)
  | finish {s : Progress} {p : Path} {id : ModuleId} {resolution : Resolution} {needs : Forest}
      (hregistered : (p, id) ∈ s.registry.entries) (hresolved : (p, resolution) ∈ s.resolved)
      (hneeds : s.gather resolution.dependencies = some needs) (hwaiting : ¬ s.IsReady p) :
      Step s (.finish p) (s.finish settings p id resolution needs)

/-- Steps one after the other, in any order that lets each of them be taken. -/
inductive Steps (s : Progress) : List Action → Progress → Prop
  | start : Steps s [] s
  | step {t u : Progress} {actions : List Action} {a : Action} (hsteps : Steps s actions t)
      (hstep : Step tree settings t a u) : Steps s (actions ++ [a]) u

/-- The forest is what the paths grow into: each module with its own text and what it requires. -/
inductive Grows : List Path → Forest → Prop
  | nil : Grows [] .nil
  | cons {p : Path} {resolution : Resolution} {needs rest : Forest} {more : List Path}
      (hload : (load tree settings p).outcome = .ok resolution)
      (hneeds : Grows resolution.dependencies needs) (hrest : Grows more rest) :
      Grows (p :: more) (.cons ⟨p, .ofPath p, chunkOf settings p resolution⟩ needs rest)

end

/-- An unfinished module waits for another one that it depends on. -/
def WaitsFor (s : Progress) (p q : Path) : Prop :=
  ¬ s.IsReady p ∧ ¬ s.IsReady q ∧ ∃ resolution, (p, resolution) ∈ s.resolved ∧
    q ∈ resolution.dependencies

variable {tree : FileTree} {settings : Settings} {s t u : Progress} {p q : Path}

theorem load_ensures (hp : p.isAbsolute = true) :
    (load tree settings p).Ensures
      (fun r => (∃ text, Loads tree settings p text) ∧
        ∀ q, Requires tree settings p q ↔ q ∈ r.dependencies)
      fun e => LoadFault tree settings p e ∨ Require.IsExtensionFault settings.extensions e := by
  unfold load Run.readText
  cases htext : tree.readText p with
  | error fault => exact (Logged.ensures_error rfl).mpr (Or.inl (.unread htext))
  | ok text =>
    refine ((resolveRequires_ensures hp htext).imp ?_ fun _ => id).congr (by simp [Except.bind])
    exact fun r hr => ⟨⟨text, hr.1⟩, hr.2⟩

namespace Run

variable {run : Run} {f : Forest}

theorem gather_cons {more : List Path} :
    run.gather (p :: more) = some f ↔ ∃ m needs rest, run.ready? p = some (m, needs) ∧
      run.gather more = some rest ∧ f = .cons m needs rest := by
  rw [gather]
  rcases run.ready? p with _ | ⟨m, needs⟩ <;> cases run.gather more <;> simp [eq_comm]

theorem isReady_of_gather {ps : List Path} (h : run.gather ps = some f) (hp : p ∈ ps) :
    run.IsReady p := by
  induction ps generalizing f with
  | nil => simp at hp
  | cons q more ih =>
    obtain ⟨m, needs, rest, hq, hmore, -⟩ := gather_cons.mp h
    rcases List.mem_cons.mp hp with rfl | hp
    · exact isReady_iff.mpr (by simp [hq])
    · exact ih hmore hp

theorem exists_gather {ps : List Path} (h : ∀ p ∈ ps, run.IsReady p) :
    ∃ f, run.gather ps = some f := by
  induction ps with
  | nil => exact ⟨.nil, rfl⟩
  | cons p more ih =>
    obtain ⟨⟨m, needs⟩, hm⟩ := Option.isSome_iff_exists.mp (isReady_iff.mp (h p (by simp)))
    obtain ⟨rest, hrest⟩ := ih fun q hq => h q (List.mem_cons_of_mem _ hq)
    exact ⟨_, gather_cons.mpr ⟨m, needs, rest, hm, hrest, rfl⟩⟩

end Run

theorem Grows.cons_of_tree {m : ReadyModule} {needs rest : Forest} {more : List Path}
    (h : Grows tree settings [p] (.tree m needs)) (hrest : Grows tree settings more rest) :
    Grows tree settings (p :: more) (.cons m needs rest) := by
  unfold Forest.tree at h
  cases h with
  | cons hload hneeds _ => exact .cons hload hneeds hrest

theorem Grows.load_ok {f : Forest} (h : Grows tree settings [p] f) :
    ∃ resolution, (load tree settings p).outcome = .ok resolution := by
  cases h with
  | cons hload _ _ => exact ⟨_, hload⟩

namespace Progress

theorem entries_register (hnew : ¬ s.registry.contains p = true) :
    (s.register p).registry.entries = s.registry.entries ++ [(p, .ofPath p)] := by
  rw [register, Registry.register_of_not_contains _ hnew]

theorem paths_register (hnew : ¬ s.registry.contains p = true) :
    (s.register p).registry.paths = s.registry.paths ++ [p] := Registry.paths_register _ hnew

theorem process_rest :
    (s.process tree settings p).registry = s.registry ∧
      (s.process tree settings p).ready = s.ready ∧
      (s.process tree settings p).entry = s.entry := by
  unfold process
  repeat' split
  all_goals exact ⟨rfl, rfl, rfl⟩

/-- What holds of a run after any steps from its beginning. It has registered modules of the
bundle, each of them led to from the entry; the graph shows what the processed ones require; a
ready module is what its path grows into, and what it requires is ready too. -/
structure Consistent (tree : FileTree) (settings : Settings) (s : Progress) : Prop where
  reached : ∀ e ∈ s.registry.entries, Reached tree settings s.entry e.1 ∧ e.2 = .ofPath e.1
  apart : s.registry.paths.Pairwise fun p q => ¬ Path.Same p q
  graph : Traces tree settings s.entry s.graph
  led : ∀ p ∈ s.registry.paths,
    s.entry ∈ s.registry.paths ∧ ReflTransGen s.graph.Links s.entry p
  resolved : ∀ m ∈ s.resolved, m.1 ∈ s.registry.paths ∧
    (load tree settings m.1).outcome = .ok m.2 ∧ ∀ q ∈ m.2.dependencies, s.graph.Links m.1 q
  failed : ∀ m ∈ s.failed, m.1 ∈ s.registry.paths ∧ Failure tree settings s.entry m.2
  ready : ∀ m ∈ s.ready, m.1.path ∈ s.registry.paths ∧
    Grows tree settings [m.1.path] (.tree m.1 m.2) ∧
    ∀ q, Requires tree settings m.1.path q → s.graph.Links m.1.path q ∧ s.IsReady q

theorem consistent_begin (entry : Path) : (begin entry).Consistent tree settings := by
  constructor <;> simp [begin, Run.start, Registry.empty, Registry.paths, traces_empty]

namespace Consistent

theorem reached_of_mem (h : s.Consistent tree settings) (hp : p ∈ s.registry.paths) :
    Reached tree settings s.entry p := by
  obtain ⟨e, he, rfl⟩ := List.mem_map.mp hp
  exact (h.reached e he).1

theorem processed_registered (h : s.Consistent tree settings) (hp : s.Processed p) :
    p ∈ s.registry.paths := by
  rcases hp with hp | hp
  · obtain ⟨m, hm, rfl⟩ := List.mem_map.mp hp
    exact (h.resolved m hm).1
  · obtain ⟨m, hm, rfl⟩ := List.mem_map.mp hp
    exact (h.failed m hm).1

section

variable (hentry : s.entry.isAbsolute = true)

include hentry

theorem isAbsolute (h : s.Consistent tree settings) (hp : p ∈ s.registry.paths) :
    p.isAbsolute = true :=
  Run.isAbsolute_of_reached hentry (h.reached_of_mem hp)

theorem requires_iff (h : s.Consistent tree settings) {resolution : Resolution}
    (hresolved : (p, resolution) ∈ s.resolved) :
    ∀ q, Requires tree settings p q ↔ q ∈ resolution.dependencies := by
  obtain ⟨hregistered, hload, -⟩ := h.resolved _ hresolved
  exact ((load_ensures (h.isAbsolute hentry hregistered)).of_ok hload).2

theorem called (h : s.Consistent tree settings) (hp : s.Called p) :
    p = s.entry ∨ ∃ q ∈ s.registry.paths, Requires tree settings q p ∧ s.graph.Links q p := by
  refine hp.imp_right ?_
  rintro ⟨⟨q, resolution⟩, hm, hp⟩
  obtain ⟨hregistered, -, hlinks⟩ := h.resolved _ hm
  exact ⟨q, hregistered, (h.requires_iff hentry hm p).mpr hp, hlinks p hp⟩

theorem register (h : s.Consistent tree settings) (hcalled : s.Called p)
    (hnew : ¬ s.registry.contains p = true) : (s.register p).Consistent tree settings := by
  have hentries := entries_register hnew
  have hpaths := paths_register hnew
  have hold : ∀ q ∈ s.registry.paths, q ∈ (s.register p).registry.paths := by
    intro q hq
    rw [hpaths]
    exact List.mem_append_left _ hq
  have hled : Reached tree settings s.entry p ∧ s.entry ∈ s.registry.paths ++ [p] ∧
      ReflTransGen s.graph.Links s.entry p := by
    rcases h.called hentry hcalled with rfl | ⟨q, hq, hrequires, hlink⟩
    · exact ⟨.refl, by simp, .refl⟩
    · obtain ⟨hin, hlead⟩ := h.led q hq
      exact ⟨(h.reached_of_mem hq).tail hrequires, List.mem_append_left _ hin, hlead.tail hlink⟩
  refine ⟨fun e he => ?_, ?_, h.graph, fun q hq => ?_,
    fun m hm => ⟨hold _ (h.resolved m hm).1, (h.resolved m hm).2⟩,
    fun m hm => ⟨hold _ (h.failed m hm).1, (h.failed m hm).2⟩,
    fun m hm => ⟨hold _ (h.ready m hm).1, (h.ready m hm).2⟩⟩
  · rw [hentries, List.mem_append, List.mem_singleton] at he
    rcases he with he | rfl
    · exact h.reached e he
    · exact ⟨hled.1, rfl⟩
  · exact Registry.apart_register _ hnew h.apart
  · rw [hpaths] at hq ⊢
    rcases List.mem_append.mp hq with hq | hq
    · exact ⟨List.mem_append_left _ (h.led q hq).1, (h.led q hq).2⟩
    · rw [List.mem_singleton.mp hq]
      exact hled.2

omit hentry in
theorem advance (h : s.Consistent tree settings) (hrun : t.registry = s.registry)
    (hready : t.ready = s.ready) (hstart : t.entry = s.entry)
    (hgraph : Traces tree settings s.entry t.graph)
    (hlinks : ∀ x y, s.graph.Links x y → t.graph.Links x y)
    (hresolved : ∀ m ∈ t.resolved, m ∈ s.resolved ∨ m.1 ∈ s.registry.paths ∧
      (load tree settings m.1).outcome = .ok m.2 ∧ ∀ q ∈ m.2.dependencies, t.graph.Links m.1 q)
    (hfailed : ∀ m ∈ t.failed, m ∈ s.failed ∨ m.1 ∈ s.registry.paths ∧
      Failure tree settings s.entry m.2) : t.Consistent tree settings := by
  have hisReady : ∀ q, s.IsReady q → t.IsReady q := by
    intro q hq
    rwa [Run.IsReady, hready]
  refine ⟨?_, ?_, ?_, ?_, fun m hm => ?_, fun m hm => ?_, fun m hm => ?_⟩
  · rw [hrun, hstart]
    exact h.reached
  · rw [hrun]
    exact h.apart
  · rw [hstart]
    exact hgraph
  · rw [hrun, hstart]
    exact fun q hq => ⟨(h.led q hq).1, ReflTransGen.mono hlinks _ _ (h.led q hq).2⟩
  · rw [hrun]
    rcases hresolved m hm with hm | hm
    · obtain ⟨hregistered, hload, hedges⟩ := h.resolved m hm
      exact ⟨hregistered, hload, fun q hq => hlinks _ _ (hedges q hq)⟩
    · exact hm
  · rw [hrun, hstart]
    exact (hfailed m hm).elim (h.failed m) id
  · rw [hready] at hm
    obtain ⟨hregistered, hgrows, hrequires⟩ := h.ready m hm
    rw [hrun]
    exact ⟨hregistered, hgrows, fun q hq =>
      ⟨hlinks _ _ (hrequires q hq).1, hisReady q (hrequires q hq).2⟩⟩

theorem process (h : s.Consistent tree settings) (hp : p ∈ s.registry.paths) :
    (s.process tree settings p).Consistent tree settings := by
  have hreached := h.reached_of_mem hp
  have hload : (load tree settings p).Ensures _ _ :=
    load_ensures (h.isAbsolute hentry hp)
  rw [Progress.process]
  split
  · next e he =>
    refine h.advance rfl rfl rfl h.graph (fun _ _ => id) (fun m => Or.inl) fun m hm => ?_
    refine (List.mem_append.mp hm).imp id fun hm => ?_
    rw [List.mem_singleton.mp hm]
    exact ⟨hp, (hload.of_error he).imp_left fun hfault => Or.inl ⟨p, hreached, hfault⟩⟩
  · next resolution hok =>
    have htargets : ∀ t ∈ resolution.dependencies, Requires tree settings p t :=
      fun t ht => ((hload.of_ok hok).2 t).mpr ht
    obtain ⟨hgraph, hlinks, hedges, hcircle⟩ := h.graph.requireAll hreached htargets
    split
    · next graph cycle hrefused =>
      rw [hrefused] at hgraph hlinks hcircle
      refine h.advance rfl rfl rfl hgraph hlinks (fun m => Or.inl) fun m hm => ?_
      refine (List.mem_append.mp hm).imp id fun hm => ?_
      rw [List.mem_singleton.mp hm]
      exact ⟨hp, Or.inl (Or.inr ⟨cycle, rfl, hcircle cycle rfl⟩)⟩
    · next graph hrecorded =>
      rw [hrecorded] at hgraph hlinks hedges
      refine h.advance rfl rfl rfl hgraph hlinks (fun m hm => ?_) fun m => Or.inl
      refine (List.mem_append.mp hm).imp id fun hm => ?_
      rw [List.mem_singleton.mp hm]
      exact ⟨hp, hok, hedges rfl⟩

theorem path_of_ready? (h : s.Consistent tree settings) {m : ReadyModule} {needs : Forest}
    (hp : p ∈ s.registry.paths) (hpq : Requires tree settings p q) (hlink : s.graph.Links p q)
    (hm : s.ready? q = some (m, needs)) : (m, needs) ∈ s.ready ∧ m.path = q := by
  have hmem : (m, needs) ∈ s.ready := List.mem_of_find?_eq_some hm
  have hsame : Path.Same m.path q := by simpa using List.find?_some hm
  have hreached := h.reached_of_mem (h.ready _ hmem).1
  exact ⟨hmem, Run.eq_of_required hentry h.graph (h.reached_of_mem hp) (h.led p hp).2
    hpq hlink hreached hsame⟩

theorem grows_gather (h : s.Consistent tree settings) (hp : p ∈ s.registry.paths)
    {targets : List Path} (htargets : ∀ q ∈ targets, Requires tree settings p q ∧
      s.graph.Links p q) {needs : Forest} (hneeds : s.gather targets = some needs) :
    Grows tree settings targets needs := by
  induction targets generalizing needs with
  | nil =>
    obtain rfl : Forest.nil = needs := by simpa [Run.gather] using hneeds
    exact .nil
  | cons q more ih =>
    obtain ⟨m, below, rest, hq, hmore, rfl⟩ := Run.gather_cons.mp hneeds
    obtain ⟨hrequires, hlink⟩ := htargets q (by simp)
    obtain ⟨hm, rfl⟩ := h.path_of_ready? hentry hp hrequires hlink hq
    exact (h.ready _ hm).2.1.cons_of_tree
      (ih (fun q hq => htargets q (List.mem_cons_of_mem _ hq)) hmore)

theorem finish (h : s.Consistent tree settings) {id : ModuleId} {resolution : Resolution}
    {needs : Forest} (hregistered : (p, id) ∈ s.registry.entries)
    (hresolved : (p, resolution) ∈ s.resolved)
    (hneeds : s.gather resolution.dependencies = some needs) :
    (s.finish settings p id resolution needs).Consistent tree settings := by
  obtain ⟨hp, hload, hlinks⟩ := h.resolved _ hresolved
  have hrequires := h.requires_iff hentry hresolved
  have htargets : ∀ q ∈ resolution.dependencies, Requires tree settings p q ∧
      s.graph.Links p q := fun q hq => ⟨(hrequires q).mpr hq, hlinks q hq⟩
  have hgrows := h.grows_gather hentry hp htargets hneeds
  obtain rfl : id = .ofPath p := (h.reached _ hregistered).2
  have hextends : s.toRun.Extends (s.finish settings p (.ofPath p) resolution needs).toRun :=
    ⟨fun _ _ => fun hxy => hxy, fun m hm => List.mem_append_left _ hm⟩
  refine ⟨h.reached, h.apart, h.graph, h.led, h.resolved, h.failed, fun m hm => ?_⟩
  rcases List.mem_append.mp hm with hm | hm
  · obtain ⟨hin, hm, hready⟩ := h.ready m hm
    exact ⟨hin, hm, fun q hq => ⟨(hready q hq).1, hextends.isReady (hready q hq).2⟩⟩
  · rw [List.mem_singleton.mp hm]
    refine ⟨hp, .cons hload hgrows .nil, fun q hq => ?_⟩
    have hq' := (hrequires q).mp hq
    exact ⟨hlinks q hq', hextends.isReady (Run.isReady_of_gather hneeds hq')⟩

theorem step (h : s.Consistent tree settings) {a : Action} (hstep : Step tree settings s a t) :
    t.entry = s.entry ∧ t.Consistent tree settings := by
  cases hstep with
  | register hcalled hnew => exact ⟨rfl, h.register hentry hcalled hnew⟩
  | process hregistered _ =>
    exact ⟨process_rest.2.2, h.process hentry hregistered⟩
  | finish hregistered hresolved hneeds _ =>
    exact ⟨rfl, h.finish hentry hregistered hresolved hneeds⟩

theorem steps (h : s.Consistent tree settings) {actions : List Action}
    (hsteps : Steps tree settings s actions t) :
    t.entry = s.entry ∧ t.Consistent tree settings := by
  induction hsteps with
  | start => exact ⟨rfl, h⟩
  | step _ hstep ih =>
    obtain ⟨hstart, hconsistent⟩ := ih
    obtain ⟨hstart', hconsistent'⟩ := hconsistent.step (hstart ▸ hentry) hstep
    exact ⟨hstart'.trans hstart, hconsistent'⟩

end

theorem waitsFor (h : s.Consistent tree settings) :
    (∀ p q, WaitsFor s p q → s.graph.Links p q) ∧ ∀ p, ¬ TransGen (WaitsFor s) p p := by
  have hlinks : ∀ p q, WaitsFor s p q → s.graph.Links p q := by
    rintro p q ⟨-, -, resolution, hresolved, hq⟩
    exact (h.resolved _ hresolved).2.2 q hq
  exact ⟨hlinks, fun p hp => h.graph.acyclic p (TransGen.mono hlinks p p hp)⟩

/-- When no step can be taken and no module has failed, all registered modules are ready: each is
processed, and what it depends on stands further down along the edges. -/
theorem ready_of_stuck (h : s.Consistent tree settings) (hfine : s.failed = [])
    (hstuck : ∀ a t, ¬ Step tree settings s a t) (hp : p ∈ s.registry.paths) : s.IsReady p := by
  let Below (x y : {p // p ∈ s.registry.paths}) : Prop := TransGen s.graph.Links y.1 x.1
  have htrans : IsTrans _ Below := ⟨fun _ _ _ hxy hyz => TransGen.trans hyz hxy⟩
  have hirrefl : Std.Irrefl Below := ⟨fun x hx => h.graph.acyclic x.1 hx⟩
  have hwf : WellFounded Below := Finite.wellFounded_of_trans_of_irrefl Below
  have hall : ∀ x : {p // p ∈ s.registry.paths}, s.IsReady x.1 := by
    intro x
    induction x using hwf.induction with
    | _ x ih =>
      by_contra hwaiting
      obtain ⟨p, hp⟩ := x
      have hprocessed : s.Processed p := by
        by_contra hnot
        exact hstuck _ _ (.process hp hnot)
      obtain ⟨⟨_, resolution⟩, hresolved, rfl⟩ : ∃ m ∈ s.resolved, m.1 = p := by
        rcases hprocessed with hp | hp
        · exact List.mem_map.mp hp
        · simp [hfine] at hp
      have hready : ∀ q ∈ resolution.dependencies, s.IsReady q := by
        intro q hq
        have hcontains : s.registry.contains q = true := by
          by_contra hnew
          exact hstuck _ _ (.register (Or.inr ⟨_, hresolved, hq⟩) hnew)
        obtain ⟨q', hq', hsame⟩ := Registry.contains_iff.mp hcontains
        have hlink := ((h.resolved _ hresolved).2.2 q hq).congr (.refl _) hsame.symm
        obtain ⟨m, hm, hmq⟩ := ih ⟨q', hq'⟩ (.single hlink)
        exact ⟨m, hm, hmq.trans hsame⟩
      obtain ⟨needs, hneeds⟩ := Run.exists_gather hready
      obtain ⟨e, he, rfl⟩ := List.mem_map.mp hp
      exact hstuck _ _ (.finish he hresolved hneeds hwaiting)
  exact hall ⟨p, hp⟩

/-- No run blocks: before the entry is ready there is a step, unless a module has failed. -/
theorem exists_step (h : s.Consistent tree settings) (hfine : s.failed = [])
    (hwaiting : ¬ s.IsReady s.entry) : ∃ a t, Step tree settings s a t := by
  by_contra hnone
  have hstuck : ∀ a t, ¬ Step tree settings s a t := fun a t hstep => hnone ⟨a, t, hstep⟩
  have hcontains : s.registry.contains s.entry = true := by
    by_contra hnew
    exact hstuck _ _ (.register (Or.inl rfl) hnew)
  obtain ⟨p, hp, hsame⟩ := Registry.contains_iff.mp hcontains
  obtain ⟨m, hm, hmp⟩ := h.ready_of_stuck hfine hstuck hp
  exact hwaiting ⟨m, hm, hmp.trans hsame⟩

end Consistent

theorem processed_process :
    (s.process tree settings p).Processed q ↔ s.Processed q ∨ q = p := by
  have hiff : ∀ {a b c : Prop}, (a ∨ b) ∨ c ↔ (a ∨ c) ∨ b := by tauto
  unfold process
  repeat' split
  · simp [Processed, or_assoc]
  · simp [Processed, or_assoc]
  · simp only [Processed, List.map_append, List.mem_append, List.map_cons, List.map_nil,
      List.mem_singleton]
    exact hiff

structure Keeps (s t : Progress) : Prop where
  paths : ∀ p ∈ s.registry.paths, p ∈ t.registry.paths
  processed : ∀ p, s.Processed p → t.Processed p
  ready : ∀ m ∈ s.ready, m ∈ t.ready

theorem keeps_of_step {a : Action} (hstep : Step tree settings s a t) : s.Keeps t := by
  cases hstep with
  | register hcalled hnew =>
    refine ⟨fun q hq => ?_, fun _ => id, fun _ => id⟩
    rw [paths_register hnew]
    exact List.mem_append_left _ hq
  | process =>
    obtain ⟨hregistry, hready, -⟩ := process_rest
    refine ⟨fun q hq => ?_, fun q hq => processed_process.mpr (Or.inl hq), fun m hm => ?_⟩
    · rwa [hregistry]
    · rwa [hready]
  | finish => exact ⟨fun _ => id, fun _ => id, fun m hm => List.mem_append_left _ hm⟩

theorem Keeps.taken (h : s.Keeps t) {a : Action} (ha : a.Taken s) : a.Taken t := by
  cases a with
  | register p =>
    obtain ⟨q, hq, hsame⟩ := Registry.contains_iff.mp ha
    exact Registry.contains_iff.mpr ⟨q, h.paths q hq, hsame⟩
  | process p =>
    obtain ⟨q, hq, hsame⟩ := ha
    exact ⟨q, h.processed q hq, hsame⟩
  | finish p =>
    obtain ⟨m, hm, hsame⟩ := ha
    exact ⟨m, h.ready m hm, hsame⟩

theorem Consistent.taken_of_step (h : s.Consistent tree settings) {a : Action}
    (hstep : Step tree settings s a t) :
    ¬ a.Taken s ∧ a.Taken t ∧ a.path ∈ t.registry.paths := by
  cases hstep with
  | @register p hcalled hnew =>
    have hin : p ∈ (s.register p).registry.paths := by
      rw [paths_register hnew]
      simp
    exact ⟨hnew, Registry.contains_iff.mpr ⟨p, hin, .refl p⟩, hin⟩
  | @process p hregistered hwaiting =>
    refine ⟨?_, ⟨p, processed_process.mpr (Or.inr rfl), .refl p⟩, ?_⟩
    · rintro ⟨q, hq, hsame⟩
      obtain rfl := Path.eq_of_apart h.apart (h.processed_registered hq) hregistered hsame
      exact hwaiting hq
    · rw [process_rest.1]
      exact hregistered
  | finish hregistered hresolved hneeds hwaiting =>
    refine ⟨hwaiting, ⟨_, List.mem_append_right _ (List.mem_singleton_self _), .refl _⟩, ?_⟩
    exact List.mem_map_of_mem hregistered

end Progress

theorem Action.Repeats.taken {a b : Action} (h : a.Repeats b) (ha : a.Taken s) : b.Taken s := by
  cases h with
  | register h =>
    obtain ⟨q, hq, hsame⟩ := Registry.contains_iff.mp ha
    exact Registry.contains_iff.mpr ⟨q, hq, hsame.trans h⟩
  | process h =>
    obtain ⟨q, hq, hsame⟩ := ha
    exact ⟨q, hq, hsame.trans h⟩
  | finish h =>
    obtain ⟨m, hm, hsame⟩ := ha
    exact ⟨m, hm, hsame.trans h⟩

theorem Action.repeats_self (a : Action) : a.Repeats a := by
  cases a with
  | register p => exact .register (.refl p)
  | process p => exact .process (.refl p)
  | finish p => exact .finish (.refl p)

section

variable {c : Path} {actions : List Action} (hc : c.isAbsolute = true)

include hc

theorem Steps.consistent (h : Steps tree settings (.begin c) actions s) :
    s.entry = c ∧ s.Consistent tree settings :=
  (Progress.consistent_begin c).steps hc h

theorem Steps.not_repeats (h : Steps tree settings (.begin c) actions s) :
    (∀ a ∈ actions, a.Taken s ∧ a.path ∈ s.registry.paths) ∧
      actions.Pairwise fun a b => ¬ a.Repeats b := by
  induction h with
  | start => simp
  | @step s t actions a hsteps hstep ih =>
    obtain ⟨htaken, honce⟩ := ih
    obtain ⟨hnot, hdone, hpath⟩ := (hsteps.consistent hc).2.taken_of_step hstep
    have hkeeps := Progress.keeps_of_step hstep
    refine ⟨fun b hb => ?_, List.pairwise_append.mpr
      ⟨honce, List.pairwise_singleton _ _, fun b hb a' ha' hrepeats => ?_⟩⟩
    · rcases List.mem_append.mp hb with hb | hb
      · exact ⟨hkeeps.taken (htaken b hb).1, hkeeps.paths _ (htaken b hb).2⟩
      · rw [List.mem_singleton.mp hb]
        exact ⟨hdone, hpath⟩
    · rw [List.mem_singleton.mp ha'] at hrepeats
      exact hnot (hrepeats.taken (htaken b hb).1)

/-- No run goes on for ever: the registered paths are the entry and places of the tree, and to each
of them at most three things are done. -/
theorem Steps.length_le (h : Steps tree settings (.begin c) actions s) :
    actions.length ≤ 3 * (tree.size + 1) := by
  obtain ⟨hstart, hs⟩ := h.consistent hc
  obtain ⟨htaken, honce⟩ := h.not_repeats hc
  have hnodup : actions.Nodup := by
    refine honce.imp fun {a b} hnot heq => hnot ?_
    rw [heq]
    exact b.repeats_self
  let all : List Action := (c :: tree.places).flatMap fun p => [.register p, .process p, .finish p]
  have hsub : actions ⊆ all := by
    intro a ha
    have hpath : a.path ∈ c :: tree.places := by
      have hreached := hstart ▸ hs.reached_of_mem (htaken a ha).2
      rcases Run.reached_cases hc hreached with hp | hp
      · exact hp ▸ List.mem_cons_self
      · exact List.mem_cons_of_mem _ hp.mem_places
    refine List.mem_flatMap.mpr ⟨a.path, hpath, ?_⟩
    cases a <;> simp [Action.path]
  have hlength : all.length = 3 * (tree.size + 1) := by
    simp [all, List.length_flatMap, FileTree.length_places]
    omega
  exact hlength ▸ (List.subperm_of_subset hnodup hsub).length_le

end

end ScriptBundle
