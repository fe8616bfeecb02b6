import ScriptBundle.Proofs.Bundle.Progress

/-! The outcome of a run does not depend on the order of its steps. A run that ends well has found
just the modules that are reached from the entry, and the entry has grown into the one forest of
them; a run that fails has found what is wrong with them. A run that visits the modules one after
the other is one of these. -/
namespace ScriptBundle

open Relation

/-- A run is over when the entry is ready, or when a module has failed: its error goes up to the
entry along those that wait. -/
inductive Ends (s : Progress) : Except BundleError Bundle → Prop
  | ready {m : ReadyModule} {needs : Forest} (h : s.ready? s.entry = some (m, needs)) :
    Ends s (.ok ⟨(Forest.tree m needs).bundleText, m.id, s.registry⟩)
  | failed {p : Path} {e : BundleError} (h : (p, e) ∈ s.failed) : Ends s (.error e)

/-- What a bundle of the entry may come to, by the order in which its steps are taken. -/
inductive ComesTo (tree : FileTree) (settings : Settings) (entry : Path) :
    Except BundleError Bundle → Prop
  | lost {fault : Fault} (h : tree.canonicalize entry = .error fault) :
    ComesTo tree settings entry (.error (.fileSystem entry fault))
  | ran {c : Path} {actions : List Action} {s : Progress} {result : Except BundleError Bundle}
      (hc : tree.canonicalize entry = .ok c)
      (hsteps : Steps tree settings (.begin c) actions s) (hends : Ends s result) :
    ComesTo tree settings entry result

/-- Two outcomes that do not differ but in the error, or in the order in which modules were met. -/
inductive Agree : Except BundleError Bundle → Except BundleError Bundle → Prop
  | failures (e e' : BundleError) : Agree (.error e) (.error e')
  | bundles {b b' : Bundle} (hcode : b.code = b'.code) (hentry : b.entry = b'.entry)
      (hregistry : ∀ p id, (p, id) ∈ b.registry.entries ↔ (p, id) ∈ b'.registry.entries) :
    Agree (.ok b) (.ok b')

variable {tree : FileTree} {settings : Settings} {s t u : Progress} {p q : Path}

theorem Grows.id_eq {m : ReadyModule} {needs : Forest}
    (h : Grows tree settings [p] (.tree m needs)) : m.id = .ofPath p := by
  unfold Forest.tree at h
  cases h with
  | cons => rfl

theorem Grows.deterministic {ps : List Path} {f g : Forest} (h : Grows tree settings ps f)
    (h' : Grows tree settings ps g) : f = g := by
  induction h generalizing g with
  | nil => cases h' with
    | nil => rfl
  | cons hload _ _ ihneeds ihrest => cases h' with
    | cons hload' hneeds' hrest' =>
      obtain rfl := Except.ok.inj (hload.symm.trans hload')
      obtain rfl := ihneeds hneeds'
      obtain rfl := ihrest hrest'
      rfl

namespace Progress.Consistent

variable (hentry : s.entry.isAbsolute = true)

include hentry

theorem ready_of_reached (h : s.Consistent tree settings) (hready : s.IsReady s.entry)
    (hp : Reached tree settings s.entry p) : ∃ m ∈ s.ready, m.1.path = p := by
  induction hp with
  | refl =>
    obtain ⟨m, hm, hsame⟩ := hready
    have hregistered := (h.ready m hm).1
    exact ⟨m, hm, Path.eq_of_apart h.apart hregistered (h.led _ hregistered).1 hsame⟩
  | @tail p q hp hpq ih =>
    obtain ⟨m, hm, rfl⟩ := ih
    obtain ⟨hregistered, -, hrequires⟩ := h.ready m hm
    obtain ⟨hlink, m', hm', hsame⟩ := hrequires q hpq
    exact ⟨m', hm', Run.eq_of_required hentry h.graph hp (h.led _ hregistered).2 hpq
      hlink (h.reached_of_mem (h.ready m' hm').1) hsame⟩

theorem sound (h : s.Consistent tree settings) (hready : s.IsReady s.entry) :
    Run.Sound tree settings s.entry [] s.toRun where
  reached := h.reached
  apart := h.apart
  graph := h.graph
  opened_registered := by simp
  opened_nodup := .nil
  opened_loads := by simp
  settled := fun p hp => by
    obtain ⟨m, hm, rfl⟩ := h.ready_of_reached hentry hready (h.reached_of_mem hp)
    exact Or.inr ⟨m, hm, .refl _⟩
  ready_registered := fun m hm => (h.ready m hm).1
  ready_loads := fun m hm => by
    obtain ⟨hregistered, hgrows, -⟩ := h.ready m hm
    obtain ⟨resolution, hload⟩ := hgrows.load_ok
    exact ((load_ensures (h.isAbsolute hentry hregistered)).of_ok hload).1
  ready_requires := fun m hm => (h.ready m hm).2.2

theorem of_ends_ok (h : s.Consistent tree settings) {b : Bundle} (hends : Ends s (.ok b)) :
    Bundleable tree settings s.entry ∧ b.entry = .ofPath s.entry ∧
      (∀ p id, (p, id) ∈ b.registry.entries ↔
        Reached tree settings s.entry p ∧ id = .ofPath p) ∧
      ∃ f, Grows tree settings [s.entry] f ∧ b.code = f.bundleText := by
  cases hends with
  | @ready m needs hm =>
    have hready : s.IsReady s.entry := Run.isReady_iff.mpr (by simp [hm])
    have hmem : (m, needs) ∈ s.ready := List.mem_of_find?_eq_some hm
    have hsame : Path.Same m.path s.entry := by simpa using List.find?_some hm
    obtain ⟨hregistered, hgrows, -⟩ := h.ready _ hmem
    have hin := (h.led _ hregistered).1
    have hpath : m.path = s.entry := Path.eq_of_apart h.apart hregistered hin hsame
    have hsound := h.sound hentry hready
    refine ⟨hsound.bundleable hentry hin, hpath ▸ hgrows.id_eq,
      fun p id => ⟨fun hp => h.reached _ hp, ?_⟩, _, hpath ▸ hgrows, rfl⟩
    rintro ⟨hp, rfl⟩
    obtain ⟨m', hm', rfl⟩ := h.ready_of_reached hentry hready hp
    obtain ⟨e, he, hpath'⟩ := List.mem_map.mp (h.ready m' hm').1
    rw [← hpath', ← (h.reached e he).2]
    exact he

omit hentry in
theorem of_ends_error (h : s.Consistent tree settings) {e : BundleError}
    (hends : Ends s (.error e)) : Failure tree settings s.entry e := by
  cases hends with
  | failed he => exact (h.failed _ he).2

end Progress.Consistent

/-- Two runs that are over have come to the same. -/
theorem agree_of_ends (hextensions : ∀ e ∈ settings.extensions, '/' ∉ e)
    (hentry : s.entry.isAbsolute = true) (h : s.Consistent tree settings)
    (h' : t.Consistent tree settings) (hst : t.entry = s.entry)
    {result result' : Except BundleError Bundle} (hends : Ends s result) (hends' : Ends t result') :
    Agree result result' := by
  have hentry' : t.entry.isAbsolute = true := hst ▸ hentry
  cases result with
  | error e => cases result' with
    | error e' => exact .failures e e'
    | ok b' =>
      have hbundleable := (h'.of_ends_ok hentry' hends').1
      exact absurd (hst ▸ hbundleable) ((h.of_ends_error hends).runFault hextensions).not_bundleable
  | ok b =>
    obtain ⟨hbundleable, hid, hregistry, f, hgrows, hcode⟩ := h.of_ends_ok hentry hends
    cases result' with
    | error e' =>
      exact absurd (hst ▸ hbundleable)
        ((h'.of_ends_error hends').runFault hextensions).not_bundleable
    | ok b' =>
      obtain ⟨-, hid', hregistry', f', hgrows', hcode'⟩ :=
        h'.of_ends_ok hentry' hends'
      rw [hst] at hid' hregistry' hgrows'
      obtain rfl := hgrows.deterministic hgrows'
      exact .bundles (hcode.trans hcode'.symm) (hid.trans hid'.symm)
        fun p id => (hregistry p id).trans (hregistry' p id).symm

theorem Steps.append {actions actions' : List Action} (h : Steps tree settings s actions t)
    (h' : Steps tree settings t actions' u) : Steps tree settings s (actions ++ actions') u := by
  induction h' with
  | start => rwa [List.append_nil]
  | step _ hstep ih =>
    rw [← List.append_assoc]
    exact ih.step hstep

/-- Steps lead from one state to the other, and what becomes ready on the way was not registered
before. -/
structure Advances (tree : FileTree) (settings : Settings) (s t : Progress) : Prop where
  steps : ∃ actions, Steps tree settings s actions t
  entries : ∀ e ∈ s.registry.entries, e ∈ t.registry.entries
  resolved : ∀ m ∈ s.resolved, m ∈ t.resolved
  ready : ∃ new, t.ready = s.ready ++ new ∧ ∀ m ∈ new, ¬ s.registry.contains m.1.path = true

namespace Advances

theorem refl (s : Progress) : Advances tree settings s s :=
  ⟨⟨[], .start⟩, fun _ => id, fun _ => id, [], by simp⟩

theorem contains (h : Advances tree settings s t) (hp : s.registry.contains p = true) :
    t.registry.contains p = true := by
  obtain ⟨q, hq, hsame⟩ := Registry.contains_iff.mp hp
  obtain ⟨e, he, rfl⟩ := List.mem_map.mp hq
  exact Registry.contains_iff.mpr ⟨e.1, List.mem_map_of_mem (h.entries e he), hsame⟩

theorem trans (h : Advances tree settings s t) (h' : Advances tree settings t u) :
    Advances tree settings s u := by
  obtain ⟨actions, hsteps⟩ := h.steps
  obtain ⟨actions', hsteps'⟩ := h'.steps
  obtain ⟨new, hnew, hfresh⟩ := h.ready
  obtain ⟨new', hnew', hfresh'⟩ := h'.ready
  refine ⟨⟨_, hsteps.append hsteps'⟩, fun e he => h'.entries e (h.entries e he),
    fun m hm => h'.resolved m (h.resolved m hm), new ++ new',
    by rw [hnew', hnew, List.append_assoc], fun m hm => ?_⟩
  rcases List.mem_append.mp hm with hm | hm
  · exact hfresh m hm
  · exact fun hin => hfresh' m hm (h.contains hin)

theorem ready?_eq (h : Advances tree settings s t) {m : ReadyModule × Forest}
    (hm : s.ready? p = some m) : t.ready? p = some m := by
  obtain ⟨new, hnew, -⟩ := h.ready
  rw [Run.ready?] at hm
  rw [Run.ready?, hnew, List.find?_append, hm, Option.some_or]

theorem called (h : Advances tree settings s t) (hentry : t.entry = s.entry) (hp : s.Called p) :
    t.Called p := by
  rcases hp with rfl | ⟨m, hm, hp⟩
  · exact Or.inl hentry.symm
  · exact Or.inr ⟨m, h.resolved m hm, hp⟩

theorem not_isReady (h : Advances tree settings s t) (hp : s.registry.contains p = true)
    (hnot : ¬ s.IsReady p) : ¬ t.IsReady p := by
  obtain ⟨new, hnew, hfresh⟩ := h.ready
  rintro ⟨m, hm, hsame⟩
  rw [hnew] at hm
  rcases List.mem_append.mp hm with hm | hm
  · exact hnot ⟨m, hm, hsame⟩
  · obtain ⟨q, hq, hqp⟩ := Registry.contains_iff.mp hp
    exact hfresh m hm (Registry.contains_iff.mpr ⟨q, hq, hqp.trans hsame.symm⟩)

theorem finish (h : Advances tree settings s t) {id : ModuleId} {resolution : Resolution}
    {needs : Forest} (hnew : ¬ s.registry.contains p = true)
    (hstep : Step tree settings t (.finish p) (t.finish settings p id resolution needs)) :
    Advances tree settings s (t.finish settings p id resolution needs) := by
  obtain ⟨actions, hsteps⟩ := h.steps
  obtain ⟨new, hready, hfresh⟩ := h.ready
  let m : ReadyModule := ⟨p, id, (namespaceModule resolution.code id
    [Binding.ofExport settings.exportTarget id]).code⟩
  refine ⟨⟨_, hsteps.step hstep⟩, h.entries, h.resolved, new ++ [(m, needs)], ?_, fun n hn => ?_⟩
  · rw [← List.append_assoc, ← hready]
    rfl
  · rcases List.mem_append.mp hn with hn | hn
    · exact hfresh n hn
    · rwa [List.mem_singleton.mp hn]

end Advances

/-- Steps lead to a state in which a module has failed with the error; a visit in turn could also
find a module that waits for itself. -/
def Fails (tree : FileTree) (settings : Settings) (s : Progress) (e : BundleError) : Prop :=
  (∃ q, e = .stalled q) ∨
    ∃ actions t q, Steps tree settings s actions t ∧ (q, e) ∈ t.failed

theorem Fails.of_advances {e : BundleError} (hst : Advances tree settings s t)
    (h : Fails tree settings t e) : Fails tree settings s e := by
  obtain ⟨actions, hsteps⟩ := hst.steps
  refine h.imp_right ?_
  rintro ⟨actions', u, q, hsteps', hq⟩
  exact ⟨_, u, q, hsteps.append hsteps', hq⟩

theorem Progress.mem_failed_process {e : BundleError}
    (h : (load tree settings p).outcome = .error e ∨
      ∃ resolution, (load tree settings p).outcome = .ok resolution ∧
        (s.toRun.recordEdges p resolution.dependencies).outcome = .error e) :
    (p, e) ∈ (s.process tree settings p).failed := by
  rcases h with he | ⟨resolution, hload, he⟩
  · simp [process, he]
  · simp only [Run.recordEdges_outcome] at he
    simp only [process, hload]
    split at he
    · obtain rfl := Except.error.inj he
      simp [*]
    · simp at he

theorem Progress.process_eq {resolution : Resolution} {edged : Run}
    (hload : (load tree settings p).outcome = .ok resolution)
    (hedges : (s.toRun.recordEdges p resolution.dependencies).outcome = .ok edged) :
    s.process tree settings p =
      { s with toRun := edged, resolved := s.resolved ++ [(p, resolution)] } := by
  simp only [Run.recordEdges_outcome] at hedges
  simp only [process, hload]
  split at hedges
  · simp at hedges
  · obtain rfl := Except.ok.inj hedges
    simp [*]

/-- A path that was not registered before has been, and its module was processed: it waits for what
it depends on. -/
structure Opened (tree : FileTree) (settings : Settings) (s : Progress) (p : Path)
    (resolution : Resolution) (v : Progress) : Prop where
  advances : Advances tree settings s v
  registered : (p, .ofPath p) ∈ v.registry.entries
  resolved : (p, resolution) ∈ v.resolved
  waiting : ¬ v.IsReady p

section

variable (hcalled : s.Called p) (hnew : ¬ s.registry.contains p = true)

include hcalled hnew

theorem Progress.Consistent.steps_process (h : s.Consistent tree settings) :
    Steps tree settings s [.register p, .process p]
      ((s.register p).process tree settings p) := by
  have hregister : Step tree settings s (.register p) (s.register p) := .register hcalled hnew
  have hregistered : p ∈ (s.register p).registry.paths := by simp [paths_register hnew]
  have hunprocessed : ¬ (s.register p).Processed p := fun hdone =>
    hnew (Registry.contains_iff.mpr ⟨p, h.processed_registered hdone, .refl p⟩)
  exact (Steps.start.step hregister).step (.process hregistered hunprocessed)

theorem Progress.Consistent.fails (h : s.Consistent tree settings) {e : BundleError}
    (he : (load tree settings p).outcome = .error e ∨
      ∃ resolution, (load tree settings p).outcome = .ok resolution ∧
        ((s.register p).toRun.recordEdges p resolution.dependencies).outcome = .error e) :
    Fails tree settings s e :=
  Or.inr ⟨_, _, p, h.steps_process hcalled hnew, mem_failed_process he⟩

theorem Progress.Consistent.exists_opened (h : s.Consistent tree settings)
    {resolution : Resolution} {edged : Run}
    (hload : (load tree settings p).outcome = .ok resolution)
    (hedges : ((s.register p).toRun.recordEdges p resolution.dependencies).outcome = .ok edged) :
    ∃ v : Progress, v.toRun = edged ∧ Opened tree settings s p resolution v := by
  have hsteps := h.steps_process hcalled hnew
  rw [process_eq hload hedges] at hsteps
  obtain ⟨hregistry, hready⟩ := Run.recordEdges_rest hedges
  have hentries : edged.registry.entries = s.registry.entries ++ [(p, .ofPath p)] := by
    rw [hregistry, entries_register hnew]
  have hready' : edged.ready = s.ready := hready
  refine ⟨_, rfl, ⟨⟨_, hsteps⟩, fun e he => ?_, fun m => List.mem_append_left _, [], ?_, by simp⟩,
    ?_, List.mem_append_right _ (List.mem_singleton_self _), ?_⟩
  · rw [hentries]
    exact List.mem_append_left _ he
  · rw [hready', List.append_nil]
  · simp [hentries]
  · rintro ⟨m, hm, hsame⟩
    exact hnew (Registry.contains_iff.mpr ⟨_, (h.ready m (hready' ▸ hm)).1, hsame⟩)

end

theorem Opened.finish {resolution : Resolution} {v : Progress} {needs : Forest}
    (h : Opened tree settings s p resolution v) (hnew : ¬ s.registry.contains p = true)
    (hvt : Advances tree settings v t) (hneeds : t.gather resolution.dependencies = some needs) :
    let u := t.finish settings p (.ofPath p) resolution needs
    let m : ReadyModule := ⟨p, .ofPath p, chunkOf settings p resolution⟩
    Advances tree settings s u ∧ u.toRun = { t.toRun with ready := t.ready ++ [(m, needs)] } ∧
      u.ready? p = some (m, needs) := by
  intro u m
  have hcontains : v.registry.contains p = true :=
    Registry.contains_iff.mpr ⟨p, List.mem_map_of_mem h.registered, .refl p⟩
  have hwaiting : ¬ t.IsReady p := hvt.not_isReady hcontains h.waiting
  have hfinish : Step tree settings t (.finish p) u :=
    .finish (hvt.entries _ h.registered) (hvt.resolved _ h.resolved) hneeds hwaiting
  refine ⟨(h.advances.trans hvt).finish hnew hfinish, rfl, ?_⟩
  have hnone : t.ready? p = none := by
    rwa [← Option.not_isSome_iff_eq_none, ← Run.isReady_iff]
  have hready : u.ready = t.ready ++ [(m, needs)] := rfl
  rw [Run.ready?] at hnone
  rw [Run.ready?, hready, List.find?_append, hnone]
  simp [m, Path.Same.refl]

theorem Run.makeReady_outcome {run : Run} {id : ModuleId}
    {inner : Run → Path → Logged (Run × ReadyModule × Forest)} :
    (Run.makeReady tree settings inner run p id).outcome =
      (load tree settings p >>= fun resolution =>
        run.recordEdges p resolution.dependencies >>= fun edged =>
        Run.visitAll inner edged resolution.dependencies >>= fun r =>
        let m : ReadyModule := ⟨p, id, (namespaceModule resolution.code id
          [Binding.ofExport settings.exportTarget id]).code⟩
        (return ({ r.1 with ready := r.1.ready ++ [(m, r.2)] }, m, r.2) :
          Logged (Run × ReadyModule × Forest))).outcome := by
  unfold Run.makeReady load
  cases htext : (Run.readText tree p).outcome with
  | error e => simp [htext, Except.bind]
  | ok text => simp [htext, Run.qualify_outcome, Except.bind]

/-- Steps lead to the run that a visit of the path comes to, and to the module that it finds. -/
def Replays (tree : FileTree) (settings : Settings) (s : Progress) (p : Path)
    (r : Run × ReadyModule × Forest) : Prop :=
  ∃ t, Advances tree settings s t ∧ t.toRun = r.1 ∧ t.ready? p = some r.2

theorem replays_visitAll {inner : Run → Path → Logged (Run × ReadyModule × Forest)}
    (hinner : ∀ {s q}, s.entry.isAbsolute = true → s.Consistent tree settings → s.Called q →
      (inner s.toRun q).Ensures (Replays tree settings s q) (Fails tree settings s))
    {targets : List Path} (hentry : s.entry.isAbsolute = true) (h : s.Consistent tree settings)
    (hcalled : ∀ q ∈ targets, s.Called q) :
    (Run.visitAll inner s.toRun targets).Ensures
      (fun r => ∃ t, Advances tree settings s t ∧ t.toRun = r.1 ∧ t.gather targets = some r.2)
      (Fails tree settings s) := by
  induction targets generalizing s with
  | nil => exact Logged.ensures_pure.mpr ⟨s, .refl s, rfl, rfl⟩
  | cons q more ih =>
    rw [Run.visitAll]
    refine (hinner hentry h (hcalled q (by simp))).bind ?_
    rintro ⟨_, m, needs⟩ - ⟨t, hst, rfl, hm⟩
    obtain ⟨actions, hsteps⟩ := hst.steps
    obtain ⟨hstart, ht⟩ := h.steps hentry hsteps
    refine ((ih (hstart ▸ hentry) ht fun q hq =>
      hst.called hstart (hcalled q (List.mem_cons_of_mem _ hq))).imp (fun _ => id)
        fun _ => Fails.of_advances hst).bind ?_
    rintro ⟨_, rest⟩ - ⟨u, htu, rfl, hrest⟩
    refine Logged.ensures_pure.mpr ⟨u, hst.trans htu, rfl, ?_⟩
    exact Run.gather_cons.mpr ⟨m, needs, rest, htu.ready?_eq hm, hrest, rfl⟩

theorem replays_makeReady {inner : Run → Path → Logged (Run × ReadyModule × Forest)}
    (hinner : ∀ {s q}, s.entry.isAbsolute = true → s.Consistent tree settings → s.Called q →
      (inner s.toRun q).Ensures (Replays tree settings s q) (Fails tree settings s))
    (hentry : s.entry.isAbsolute = true) (h : s.Consistent tree settings) (hcalled : s.Called p)
    (hnew : ¬ s.registry.contains p = true) :
    (Run.makeReady tree settings inner (s.register p).toRun p (.ofPath p)).Ensures
      (Replays tree settings s p) (Fails tree settings s) := by
  refine Logged.Ensures.congr ?_ Run.makeReady_outcome
  have hload : (load tree settings p).Ensures (fun _ => True) (Fails tree settings s) :=
    ⟨fun _ => trivial, fun he => h.fails hcalled hnew (Or.inl he)⟩
  refine hload.bind fun resolution hresolution _ => ?_
  have hedges : ((s.register p).toRun.recordEdges p resolution.dependencies).Ensures
      (fun _ => True) (Fails tree settings s) :=
    ⟨fun _ => trivial, fun he => h.fails hcalled hnew (Or.inr ⟨resolution, hresolution, he⟩)⟩
  refine hedges.bind fun edged hedged _ => ?_
  obtain ⟨v, rfl, hopened⟩ := h.exists_opened hcalled hnew hresolution hedged
  obtain ⟨actions, hsteps⟩ := hopened.advances.steps
  obtain ⟨hstart, hv⟩ := h.steps hentry hsteps
  have hneeds := replays_visitAll hinner (hstart ▸ hentry) hv fun q hq =>
    Or.inr ⟨_, hopened.resolved, hq⟩
  refine (hneeds.imp (fun _ => id) fun _ => Fails.of_advances hopened.advances).bind ?_
  rintro ⟨_, needs⟩ - ⟨t, hvt, rfl, hneeds⟩
  exact Logged.ensures_pure.mpr ⟨_, hopened.finish hnew hvt hneeds⟩

theorem replays_visit (depth : Nat) (hentry : s.entry.isAbsolute = true)
    (h : s.Consistent tree settings) (hcalled : s.Called p) :
    (Run.visit tree settings depth s.toRun p).Ensures (Replays tree settings s p)
      (Fails tree settings s) := by
  induction depth generalizing s p with
  | zero => exact Logged.ensures_fail.mpr (Or.inl ⟨p, rfl⟩)
  | succ depth ih =>
    by_cases hknown : s.registry.contains p = true
    · cases hm : s.ready? p with
      | none =>
        exact (Logged.ensures_error (by rw [Run.visit_joined hknown, hm]; rfl)).mpr
          (Or.inl ⟨p, rfl⟩)
      | some m =>
        exact (Logged.ensures_ok (by rw [Run.visit_joined hknown, hm]; rfl)).mpr
          ⟨s, .refl s, rfl, hm⟩
    · exact (replays_makeReady ih hentry h hcalled hknown).congr (Run.visit_new hknown)

theorem comesTo_bundle (entry : Path) :
    ComesTo tree settings entry (bundle tree settings entry).outcome := by
  cases hc : tree.canonicalize entry with
  | error fault =>
    rw [bundle_error.mpr (Or.inl ⟨fault, hc, rfl⟩)]
    exact .lost hc
  | ok c =>
    have habsolute := FileTree.isAbsolute_of_canonicalize hc
    have hbegin : (Progress.begin c).Consistent tree settings := Progress.consistent_begin c
    have hreplays := replays_visit tree.size habsolute hbegin (Or.inl rfl)
    cases hvisit : (Run.visit tree settings tree.size .start c).outcome with
    | ok r =>
      obtain ⟨_, m, needs⟩ := r
      obtain ⟨t, hadvances, rfl, hm⟩ := hreplays.of_ok hvisit
      obtain ⟨actions, hsteps⟩ := hadvances.steps
      have hstart := (hsteps.consistent habsolute).1
      rw [bundle_ok.mpr ⟨c, t.toRun, m, needs, hc, hvisit, rfl⟩]
      exact .ran hc hsteps (.ready (hstart ▸ hm))
    | error e =>
      rw [bundle_error.mpr (Or.inr ⟨c, hc, hvisit⟩)]
      have hfault := (visit_entry_ensures hc).of_error hvisit
      rcases hreplays.of_error hvisit with ⟨q, rfl⟩ | ⟨actions, t, q, hsteps, hq⟩
      · rcases hfault with (⟨p, -, hload⟩ | ⟨cycle, hcycle, -⟩) | ⟨extension, -, -, hextension⟩
        · cases hload
        · simp at hcycle
        · simp at hextension
      · exact .ran hc hsteps (.failed hq)

/-- **The outcome does not depend on the order of the steps, and no run blocks.** After any steps
from the beginning, another one can be taken unless the entry is ready or a module has failed: who
waits for whom follows the edges of the graph, which close no circle. No step is taken twice, so
each path is processed at most once, and no run goes on for ever. Whatever the order, a bundle comes
to the same as when its modules are visited one after the other: it fails, or it has the same text
and the same modules. -/
theorem comesTo_agree {tree : FileTree} {settings : Settings} (entry : Path)
    (hextensions : ∀ e ∈ settings.extensions, '/' ∉ e) :
    (∀ c actions s, tree.canonicalize entry = .ok c →
      Steps tree settings (.begin c) actions s →
      (s.failed = [] → ¬ s.IsReady c → ∃ a t, Step tree settings s a t) ∧
      (∀ p q, WaitsFor s p q → s.graph.Links p q) ∧ (∀ p, ¬ TransGen (WaitsFor s) p p) ∧
      (actions.Pairwise fun a b => ¬ a.Repeats b) ∧ actions.length ≤ 3 * (tree.size + 1)) ∧
    (∀ result result', ComesTo tree settings entry result →
      ComesTo tree settings entry result' → Agree result result') ∧
    ComesTo tree settings entry (bundle tree settings entry).outcome := by
  refine ⟨fun c actions s hc hsteps => ?_, fun result result' hresult hresult' => ?_,
    comesTo_bundle entry⟩
  · have habsolute := FileTree.isAbsolute_of_canonicalize hc
    obtain ⟨rfl, hs⟩ := hsteps.consistent habsolute
    obtain ⟨hlinks, hacyclic⟩ := hs.waitsFor
    exact ⟨hs.exists_step, hlinks, hacyclic, (hsteps.not_repeats habsolute).2,
      hsteps.length_le habsolute⟩
  · cases hresult with
    | @lost fault hc => cases hresult' with
      | lost hc' => exact .failures _ _
      | ran hc' => simp [hc] at hc'
    | @ran c _ _ _ hc hsteps hends => cases hresult' with
      | lost hc' => simp [hc] at hc'
      | ran hc' hsteps' hends' =>
        obtain rfl := Except.ok.inj (hc.symm.trans hc')
        have habsolute := FileTree.isAbsolute_of_canonicalize hc
        obtain ⟨rfl, hs⟩ := hsteps.consistent habsolute
        obtain ⟨hstart, hs'⟩ := hsteps'.consistent habsolute
        exact agree_of_ends hextensions habsolute hs hs' hstart hends hends'

/-- Two modules that need a third one come out the same in any order. When that one requires one of
them in turn, every run fails, though with a circle that depends on the order. -/
theorem comesTo_agree_shared :
    let m := Path.ofText ['/', 'm']
    let tree := fun text : String => (⟨[], [
      ([Utf8.encode ['m']], .file (Utf8.encode "require('./a')\nrequire('./b')".toList)),
      ([Utf8.encode ['a']], .file (Utf8.encode "let x = require('./b')".toList)),
      ([Utf8.encode ['b']], .file (Utf8.encode text.toList))]⟩ : FileTree)
    let code := joinChunks ["let __knit_9812b0_b_x = 1".toList,
      "let __knit_6a50dc_a_x = __knit_9812b0_b".toList,
      "__knit_6a50dc_a\n__knit_9812b0_b".toList]
    (∀ e ∈ ({} : Settings).extensions, '/' ∉ e) ∧
      (∀ result, ComesTo (tree "let x = 1") {} m result →
        ∃ out, result = .ok out ∧ out.code = code) ∧
      ∀ result, ComesTo (tree "require('./a')") {} m result → ∃ e, result = .error e := by
  intro m tree code
  have hextensions : ∀ e ∈ ({} : Settings).extensions, '/' ∉ e := by decide
  refine ⟨hextensions, fun result hresult => ?_, fun result hresult => ?_⟩
  · have hok : (bundle (tree "let x = 1") {} m).Ensures (·.code = code) fun _ => False := by
      decide +kernel
    obtain ⟨out, hout, hcode⟩ := hok.exists_ok
    obtain ⟨-, hagree, hran⟩ := comesTo_agree m hextensions
    have hsame := hagree result _ hresult hran
    rw [hout] at hsame
    cases hsame with
    | bundles hcode' => exact ⟨_, rfl, hcode'.trans hcode⟩
  · have herror : (bundle (tree "require('./a')") {} m).Ensures (fun _ => False)
        fun _ => True := by decide +kernel
    obtain ⟨e, he, -⟩ := herror.exists_error
    obtain ⟨-, hagree, hran⟩ := comesTo_agree m hextensions
    have hsame := hagree result _ hresult hran
    rw [he] at hsame
    cases hsame with
    | failures e' => exact ⟨e', rfl⟩

end ScriptBundle
