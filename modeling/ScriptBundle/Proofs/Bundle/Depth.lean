import ScriptBundle.Proofs.Bundle.Progress

/-! How deep a run nests. The log of a run tells when the work on a module begins and when it is
done. Each module is begun once; the modules in progress are nested, and there are never more of
them than files and directories in the tree; a module that is joined is in progress no longer. So
the bound on the depth of visits is never met, and any larger one gives the same result. -/
namespace ScriptBundle

open Relation

/-- The modules that a run has begun so far, and those of them that still wait for what they
require, the innermost first. -/
structure Nest where
  begun : List Path
  waiting : List Path

namespace Nest

def empty : Nest := ⟨[], []⟩

/-- What an event changes: work on a module begins when it is loaded and is done when its names are
qualified. -/
def after (n : Nest) : Event → Nest
  | .loading p _ => ⟨n.begun ++ [p], p :: n.waiting⟩
  | .namespaced _ _ => ⟨n.begun, n.waiting.tail⟩
  | _ => n

def behind (n : Nest) (events : List Event) : Nest := events.foldl after n

/-- What may come next: a module not yet begun, while fewer than `bound` wait; one that was begun
and waits no longer, to be joined; the end of the work on the innermost module. -/
def Admits (bound : Nat) (n : Nest) : Event → Prop
  | .loading p _ => (∀ q ∈ n.begun, ¬ Path.Same q p) ∧ n.waiting.length < bound
  | .joining p => (∃ q ∈ n.begun, Path.Same q p) ∧ ∀ q ∈ n.waiting, ¬ Path.Same q p
  | .namespaced p _ => n.waiting.head? = some p
  | _ => True

/-- Each of the events may come where it does. -/
def Admitted (bound : Nat) : Nest → List Event → Prop
  | _, [] => True
  | n, e :: more => n.Admits bound e ∧ (n.after e).Admitted bound more

variable {bound : Nat} {n : Nest} {events more : List Event}

theorem admitted_append : n.Admitted bound (events ++ more) ↔
    n.Admitted bound events ∧ (n.behind events).Admitted bound more := by
  induction events generalizing n with
  | nil => simp [Admitted, behind]
  | cons e events ih => simp [Admitted, behind, ih, and_assoc]

theorem behind_append : n.behind (events ++ more) = (n.behind events).behind more :=
  List.foldl_append

end Nest

def Event.IsQuiet : Event → Prop
  | .loading .. | .joining .. | .namespaced .. => False
  | _ => True

theorem Event.IsQuiet.admits {e : Event} (h : e.IsQuiet) (bound : Nat) (n : Nest) :
    n.Admits bound e ∧ n.after e = n := by
  cases e <;> first | exact ⟨trivial, rfl⟩ | exact h.elim

namespace Logged

variable {α β : Type} {x : Logged α} {f g : α → Logged β}

theorem bind_congr (h : ∀ a, x.outcome = .ok a → f a = g a) : x >>= f = x >>= g := by
  show Logged.bind x f = Logged.bind x g
  unfold Logged.bind
  split
  · next a ha => rw [h a ha]
  · rfl

def Quiet (x : Logged α) : Prop := ∀ e ∈ x.events, e.IsQuiet

@[simp] theorem quiet_pure (a : α) : (pure a : Logged α).Quiet := List.forall_mem_nil _

@[simp] theorem quiet_fail (e : BundleError) : (fail e : Logged α).Quiet := List.forall_mem_nil _

theorem Quiet.bind (hx : x.Quiet) (hf : ∀ a, (f a).Quiet) : (x >>= f).Quiet := by
  show (Logged.bind x f).Quiet
  unfold Logged.bind Quiet
  split
  · next a _ => exact List.forall_mem_append.mpr ⟨hx, hf a⟩
  · exact hx

theorem quiet_tell_bind {e : Event} {f : Unit → Logged β} (he : e.IsQuiet) (hf : (f ()).Quiet) :
    (tell e >>= f).Quiet := List.forall_mem_cons.mpr ⟨he, hf⟩

theorem quiet_tellAll_map_bind {γ : Type} {l : List γ} {event : γ → Event} {f : Unit → Logged β}
    (hevent : ∀ a, (event a).IsQuiet) (hf : (f ()).Quiet) :
    (tellAll (l.map event) >>= f).Quiet :=
  List.forall_mem_append.mpr ⟨List.forall_mem_map.mpr fun a _ => hevent a, hf⟩

/-- From the nest `n` on, the events may come as they do, and a result meets `post` with the nest
that they lead to. -/
structure Traced (bound : Nat) (n : Nest) (x : Logged α) (post : Nest → α → Prop) : Prop where
  admitted : n.Admitted bound x.events
  of_ok : ∀ {a}, x.outcome = .ok a → post (n.behind x.events) a

variable {bound : Nat} {n : Nest} {post : Nest → α → Prop} {postf : Nest → β → Prop}

theorem traced_pure {a : α} (h : post n a) : (pure a : Logged α).Traced bound n post :=
  ⟨trivial, fun ha => Except.ok.inj ha ▸ h⟩

theorem traced_fail (e : BundleError) : (fail e : Logged α).Traced bound n post :=
  ⟨trivial, fun ha => nomatch ha⟩

theorem traced_tell_bind {e : Event} {f : Unit → Logged β} (he : n.Admits bound e)
    (hf : (f ()).Traced bound (n.after e) postf) : (tell e >>= f).Traced bound n postf :=
  ⟨⟨he, hf.admitted⟩, hf.of_ok⟩

theorem Traced.bind (hx : x.Traced bound n post)
    (hf : ∀ n' a, x.outcome = .ok a → post n' a → (f a).Traced bound n' postf) :
    (x >>= f).Traced bound n postf := by
  show (Logged.bind x f).Traced bound n postf
  unfold Logged.bind
  split
  · next a ha =>
    have hfa := hf _ a ha (hx.of_ok ha)
    refine ⟨Nest.admitted_append.mpr ⟨hx.admitted, hfa.admitted⟩, fun hb => ?_⟩
    rw [Nest.behind_append]
    exact hfa.of_ok hb
  · exact ⟨hx.admitted, fun hb => nomatch hb⟩

theorem Quiet.traced (h : x.Quiet) : x.Traced bound n fun n' _ => n' = n := by
  have hevents : ∀ events : List Event, (∀ e ∈ events, e.IsQuiet) →
      n.Admitted bound events ∧ n.behind events = n := by
    intro events hquiet
    induction events with
    | nil => exact ⟨trivial, rfl⟩
    | cons e more ih =>
      obtain ⟨he, hmore⟩ := List.forall_mem_cons.mp hquiet
      obtain ⟨hadmits, hafter⟩ := he.admits bound n
      rw [Nest.Admitted, Nest.behind, List.foldl_cons, hafter]
      exact ⟨⟨hadmits, (ih hmore).1⟩, (ih hmore).2⟩
  exact ⟨(hevents _ h).1, fun _ => (hevents _ h).2⟩

end Logged

variable {tree : FileTree} {settings : Settings} {c p q : Path}

namespace Require

variable {extensions : List Text} {file : Path}

theorem resolve_quiet (specifier : Text) : (resolve tree file specifier extensions).Quiet := by
  have hwith : ∀ target fault, (withExtensions tree specifier target fault extensions).Quiet := by
    intro target fault
    induction extensions with
    | nil => simp [withExtensions]
    | cons extension more ih =>
      rw [withExtensions]
      split
      · simp
      · split
        · exact Logged.quiet_tell_bind trivial (Logged.quiet_pure _)
        · exact ih
  unfold resolve resolveDirectory
  refine Logged.quiet_tell_bind trivial ?_
  split
  · split
    · split
      · exact Logged.quiet_tell_bind trivial (Logged.quiet_pure _)
      · simp
    · simp
  · split
    · exact hwith _ _
    · simp

theorem resolveAll_quiet (arguments : List Text) :
    (resolveAll tree file extensions arguments).Quiet := by
  induction arguments with
  | nil => simp [resolveAll]
  | cons argument more ih =>
    exact (resolve_quiet argument).bind fun _ => ih.bind fun _ => Logged.quiet_pure _

theorem resolveRequires_quiet (text : Text) :
    (resolveRequires tree file text extensions).Quiet := by
  unfold resolveRequires
  refine Logged.quiet_tellAll_map_bind (fun _ => trivial) ?_
  split
  · simp
  · refine Logged.quiet_tellAll_map_bind (fun _ => trivial) ?_
    refine (resolveAll_quiet _).bind fun targets => ?_
    exact Logged.quiet_tellAll_map_bind (fun _ => trivial) (Logged.quiet_pure _)

end Require

namespace Run

variable {run : Run} {opened : List Path}

theorem readText_quiet : (readText tree p).Quiet := by
  unfold readText
  split <;> simp

theorem recordEdges_quiet (targets : List Path) : (run.recordEdges p targets).Quiet := by
  induction targets generalizing run with
  | nil => simp [recordEdges]
  | cons target more ih =>
    rw [recordEdges]
    split
    · simp
    · exact Logged.quiet_tell_bind trivial ih

theorem isQuiet_of_mem_events {id : ModuleId} {depth : Nat} {closing : Bool} {b : Block} {e : Event}
    (h : e ∈ b.events id depth closing) : e.IsQuiet := by
  obtain ⟨s, -, depth', hs⟩ := Block.exists_of_mem_events h
  unfold Block.event? at hs
  split at hs
  · obtain rfl := Option.some.inj hs
    trivial
  · obtain ⟨d, -, rfl⟩ := Option.map_eq_some_iff.mp hs
    trivial

theorem qualify_traced {bound : Nat} {n : Nest} {id : ModuleId} {code : Text}
    (h : n.waiting.head? = some p) : (qualify settings p id code).Traced bound n
      fun n' _ => n' = ⟨n.begun, n.waiting.tail⟩ := by
  have hmet : (Logged.tellAll
      (namespaceModule code id [Binding.ofExport settings.exportTarget id]).events).Quiet :=
    fun _ => isQuiet_of_mem_events
  unfold qualify
  refine hmet.traced.bind ?_
  rintro _ - - rfl
  exact Logged.traced_tell_bind h (Logged.traced_pure rfl)

/-- The path may be visited while the modules `opened` wait: they all lead to it. -/
structure Due (tree : FileTree) (settings : Settings) (c : Path) (opened : List Path) (run : Run)
    (p : Path) : Prop where
  sound : Sound tree settings c opened run
  reached : Reached tree settings c p
  led : ∀ o ∈ opened, TransGen run.graph.Links o p

namespace Due

theorem next {r : Run × ReadyModule × Forest} (h : Due tree settings c opened run p)
    (hr : Visited tree settings c opened run q r) : Due tree settings c opened r.1 p :=
  ⟨hr.1, h.reached, fun o ho => hr.2.1.leads (h.led o ho)⟩

theorem not_opened (h : Due tree settings c opened run p) (hq : q ∈ opened) :
    ¬ Path.Same q p := by
  intro hsame
  have hback := transGen_congr_right (fun h hs => h.congr (.refl _) hs) (h.led q hq) hsame.symm
  exact h.sound.graph.acyclic q hback

theorem dependencies {text : Text} {resolution : Resolution} {edged : Run}
    (h : Due tree settings c opened run p) (hc : c.isAbsolute = true)
    (hnew : ¬ run.registry.contains p = true) (htext : (readText tree p).outcome = .ok text)
    (hresolution : (Require.resolveRequires tree p text settings.extensions).outcome =
      .ok resolution)
    (hedged : (recordEdges { run with registry := (run.registry.register p (.ofPath p)).1 } p
      resolution.dependencies).outcome = .ok edged) :
    Sound tree settings c (p :: opened) edged ∧
      ∀ t ∈ resolution.dependencies, Due tree settings c (p :: opened) edged t := by
  obtain ⟨-, hopened, -, -, hwaiting⟩ := h.sound.edged hc h.reached hnew h.led
    (readText_ok.mp htext) hresolution hedged
  exact ⟨hopened, fun t ht => ⟨hopened, (hwaiting t ht).1, (hwaiting t ht).2.2⟩⟩

end Due

section

variable {targets : List Path} {inner inner' : Run → Path → Logged (Run × ReadyModule × Forest)}

/-- The nest that a run has come to, as its registry and the open modules show it. -/
def nest (run : Run) (opened : List Path) : Nest := ⟨run.registry.paths, opened⟩

theorem visitAll_traced {bound : Nat}
    (hinner : ∀ {run q}, Due tree settings c opened run q →
      (inner run q).Ensures (Visited tree settings c opened run q) (Failure tree settings c) ∧
      (inner run q).Traced bound (run.nest opened) fun n r => n = r.1.nest opened)
    (hdue : ∀ t ∈ targets, Due tree settings c opened run t) :
    (visitAll inner run targets).Traced bound (run.nest opened) fun n r => n = r.1.nest opened := by
  induction targets generalizing run with
  | nil => exact Logged.traced_pure rfl
  | cons target more ih =>
    obtain ⟨hfirst, hmore⟩ := List.forall_mem_cons.mp hdue
    obtain ⟨hensures, htraced⟩ := hinner hfirst
    rw [visitAll]
    refine htraced.bind ?_
    rintro _ r hr rfl
    refine (ih fun t ht => (hmore t ht).next (hensures.of_ok hr)).bind ?_
    rintro _ r' - rfl
    exact Logged.traced_pure rfl

theorem visitAll_congr
    (hinner : ∀ {run q}, Due tree settings c opened run q →
      (inner run q).Ensures (Visited tree settings c opened run q) (Failure tree settings c) ∧
      inner run q = inner' run q)
    (hdue : ∀ t ∈ targets, Due tree settings c opened run t) :
    visitAll inner run targets = visitAll inner' run targets := by
  induction targets generalizing run with
  | nil => rfl
  | cons target more ih =>
    obtain ⟨hfirst, hmore⟩ := List.forall_mem_cons.mp hdue
    obtain ⟨hensures, heq⟩ := hinner hfirst
    rw [visitAll, visitAll, ← heq]
    refine Logged.bind_congr fun r hr => ?_
    show visitAll inner r.1 more >>= _ = visitAll inner' r.1 more >>= _
    rw [ih fun t ht => (hmore t ht).next (hensures.of_ok hr)]

theorem makeReady_traced {bound : Nat} (hc : c.isAbsolute = true)
    (hdue : Due tree settings c opened run p) (hnew : ¬ run.registry.contains p = true)
    (hroom : opened.length < bound)
    (hinner : ∀ {run q}, Due tree settings c (p :: opened) run q →
      (inner run q).Ensures (Visited tree settings c (p :: opened) run q)
        (Failure tree settings c) ∧
      (inner run q).Traced bound (run.nest (p :: opened)) fun n r =>
        n = r.1.nest (p :: opened)) :
    (makeReady tree settings inner
      { run with registry := (run.registry.register p (.ofPath p)).1 } p (.ofPath p)).Traced bound
      (run.nest opened) fun n r => n = r.1.nest opened := by
  have hfresh : ∀ q ∈ run.registry.paths, ¬ Path.Same q p :=
    fun q hq hsame => hnew (Registry.contains_iff.mpr ⟨q, hq, hsame⟩)
  unfold makeReady
  refine Logged.traced_tell_bind ⟨hfresh, hroom⟩ ?_
  refine readText_quiet.traced.bind ?_
  rintro _ text htext rfl
  refine (Require.resolveRequires_quiet text).traced.bind ?_
  rintro _ resolution hresolution rfl
  refine (recordEdges_quiet _).traced.bind ?_
  rintro _ edged hedged rfl
  have hpaths : edged.registry.paths = run.registry.paths ++ [p] := by
    rw [(recordEdges_rest hedged).1, Registry.paths_register _ hnew]
  have hnest : (run.nest opened).after (.loading p (.ofPath p)) = edged.nest (p :: opened) := by
    rw [nest, nest, hpaths]
    rfl
  rw [hnest]
  refine (visitAll_traced hinner (hdue.dependencies hc hnew htext hresolution hedged).2).bind ?_
  rintro _ ⟨run₁, needs⟩ - rfl
  refine (qualify_traced rfl).bind ?_
  rintro _ code - rfl
  exact Logged.traced_pure rfl

theorem makeReady_congr (hc : c.isAbsolute = true) (hdue : Due tree settings c opened run p)
    (hnew : ¬ run.registry.contains p = true)
    (hinner : ∀ {run q}, Due tree settings c (p :: opened) run q →
      (inner run q).Ensures (Visited tree settings c (p :: opened) run q)
        (Failure tree settings c) ∧ inner run q = inner' run q) :
    makeReady tree settings inner
        { run with registry := (run.registry.register p (.ofPath p)).1 } p (.ofPath p) =
      makeReady tree settings inner'
        { run with registry := (run.registry.register p (.ofPath p)).1 } p (.ofPath p) := by
  unfold makeReady
  refine Logged.bind_congr fun _ _ => ?_
  refine Logged.bind_congr fun text htext => ?_
  refine Logged.bind_congr fun resolution hresolution => ?_
  refine Logged.bind_congr fun edged hedged => ?_
  rw [visitAll_congr hinner (hdue.dependencies hc hnew htext hresolution hedged).2]

end

section

variable {entry : Path} (hc : tree.canonicalize entry = .ok c)

include hc

theorem visit_traced {depth : Nat} (hdue : Due tree settings c opened run p)
    (hdepth : tree.population ≤ depth + opened.length) :
    (visit tree settings depth run p).Traced tree.population (run.nest opened) fun n r =>
      n = r.1.nest opened := by
  have hroom := hdue.sound.length_opened_lt hc
  induction depth generalizing run p opened with
  | zero => omega
  | succ depth ih =>
    rw [Run.visit]
    split
    · next hknown =>
      refine Logged.traced_tell_bind ⟨Registry.contains_iff.mp hknown, fun q hq => ?_⟩ ?_
      · exact hdue.not_opened hq
      · split
        · exact Logged.traced_pure rfl
        · exact Logged.traced_fail _
    · next hnew =>
      refine Logged.traced_tell_bind trivial ?_
      refine makeReady_traced (FileTree.isAbsolute_of_canonicalize hc) hdue hnew hroom
        fun {run q} hdue' => ?_
      have hdepth' : tree.population ≤ depth + (p :: opened).length := by
        rw [List.length_cons]
        omega
      exact ⟨visit_ensures hc hdue'.sound hdue'.reached hdue'.led hdepth',
        ih hdue' hdepth' (hdue'.sound.length_opened_lt hc)⟩

theorem visit_succ {depth : Nat} (hdue : Due tree settings c opened run p)
    (hdepth : tree.population ≤ depth + opened.length) :
    visit tree settings depth run p = visit tree settings (depth + 1) run p := by
  have hroom := hdue.sound.length_opened_lt hc
  induction depth generalizing run p opened with
  | zero => omega
  | succ depth ih =>
    rw [Run.visit, Run.visit]
    split
    · rfl
    · next hnew =>
      refine Logged.bind_congr fun _ _ => ?_
      refine makeReady_congr (FileTree.isAbsolute_of_canonicalize hc) hdue hnew
        fun {run q} hdue' => ?_
      have hdepth' : tree.population ≤ depth + (p :: opened).length := by
        rw [List.length_cons]
        omega
      exact ⟨visit_ensures hc hdue'.sound hdue'.reached hdue'.led hdepth',
        ih hdue' hdepth' (hdue'.sound.length_opened_lt hc)⟩

theorem visit_eq_of_le {depth depth' : Nat} (hdue : Due tree settings c [] run p)
    (hdepth : tree.population ≤ depth) (hle : depth ≤ depth') :
    visit tree settings depth run p = visit tree settings depth' run p := by
  induction hle with
  | refl => rfl
  | step hle ih => exact ih.trans (visit_succ hc hdue (Nat.le_trans hdepth hle))

end

theorem due_start (tree : FileTree) (settings : Settings) (c : Path) :
    Due tree settings c [] .start c :=
  ⟨sound_start tree settings c, .refl, by simp⟩

end Run

theorem Failure.ne_stalled {e : BundleError} (h : Failure tree settings c e) (p : Path) :
    e ≠ .stalled p := by
  rintro rfl
  rcases h with (⟨q, -, hfault⟩ | ⟨cycle, hcycle, -⟩) | ⟨x, -, -, hx⟩
  · cases hfault
  · cases hcycle
  · cases hx

namespace Progress

variable {s : Progress}

theorem mem_resolved_of_isChain {l : List Path} (hl : l.IsChain (WaitsFor s))
    (hp : p ∈ l.dropLast) : ∃ resolution, (p, resolution) ∈ s.resolved := by
  induction l with
  | nil => simp at hp
  | cons x l ih =>
    cases l with
    | nil => simp at hp
    | cons y l =>
      obtain ⟨⟨-, -, resolution, hx, -⟩, hchain⟩ := List.isChain_cons_cons.mp hl
      rw [List.dropLast_cons_cons] at hp
      rcases List.mem_cons.mp hp with rfl | hp
      · exact ⟨resolution, hx⟩
      · exact ih hchain hp

/-- Modules that wait for one another in turn are different, and all but the last are files. -/
theorem Consistent.length_le_of_isChain {entry : Path} (h : s.Consistent tree settings)
    (hc : tree.canonicalize entry = .ok s.entry) {l : List Path}
    (hl : l.IsChain (WaitsFor s)) : l.length ≤ tree.population := by
  have habsolute := FileTree.isAbsolute_of_canonicalize hc
  have hnodup : l.Nodup := by
    have hpairwise : l.Pairwise (TransGen (WaitsFor s)) :=
      List.isChain_iff_pairwise.mp (hl.imp fun _ _ => .single)
    refine hpairwise.imp ?_
    rintro p _ hp rfl
    exact h.waitsFor.2 p hp
  have hwaiting : ∀ p ∈ l.dropLast, p ∈ s.registry.paths ∧
      ∃ resolution, (load tree settings p).outcome = .ok resolution := by
    intro p hp
    obtain ⟨resolution, hresolved⟩ := mem_resolved_of_isChain hl hp
    obtain ⟨hregistered, hload, -⟩ := h.resolved _ hresolved
    exact ⟨hregistered, resolution, hload⟩
  have hlength := FileTree.length_lt_population hc (hnodup.sublist (List.dropLast_sublist l))
    (fun p hp => Run.reached_cases habsolute (h.reached_of_mem (hwaiting p hp).1))
    fun p hp => by
      obtain ⟨hregistered, resolution, hload⟩ := hwaiting p hp
      obtain ⟨⟨text, hloads⟩, -⟩ :=
        (load_ensures (h.isAbsolute habsolute hregistered)).of_ok hload
      exact ⟨text, hloads.read⟩
  rw [List.length_dropLast] at hlength
  omega

end Progress

/-- **How deep a run nests.** As its log tells, a run begins each module once, never has more
modules in progress than there are files and directories in the tree, and joins a module only when
the work on it is done; no module is left whose turn never came, and any depth of visits from that
number on gives the same. Modules that are worked on side by side are registered, processed and
finished once each, in finitely many steps, and no more of them wait for one another in turn. -/
theorem bundle_nests (tree : FileTree) (settings : Settings) (entry : Path) :
    Nest.empty.Admitted tree.population (bundle tree settings entry).events ∧
    (∀ p, (bundle tree settings entry).outcome ≠ .error (.stalled p)) ∧
    ∀ c, tree.canonicalize entry = .ok c →
      (∀ depth, tree.population ≤ depth →
        Run.visit tree settings depth .start c = Run.visit tree settings tree.size .start c) ∧
      ∀ actions s, Steps tree settings (.begin c) actions s →
        (actions.Pairwise fun a b => ¬ a.Repeats b) ∧ actions.length ≤ 3 * (tree.size + 1) ∧
        ∀ l : List Path, l.IsChain (WaitsFor s) → l.length ≤ tree.population := by
  have htraced : (bundle tree settings entry).Traced tree.population .empty fun _ _ => True := by
    unfold bundle
    split
    · exact Logged.traced_fail _
    · next c hc =>
      refine Logged.traced_tell_bind trivial ?_
      refine (Run.visit_traced hc (Run.due_start tree settings c) tree.population_le_size).bind ?_
      rintro _ r - rfl
      exact Logged.traced_tell_bind trivial (Logged.traced_pure trivial)
  refine ⟨htraced.admitted, fun p hp => ?_, fun c hc => ⟨fun depth hdepth => ?_, ?_⟩⟩
  · rcases bundle_error.mp hp with ⟨fault, -, hfault⟩ | ⟨c, hc, hstalled⟩
    · cases hfault
    · exact ((visit_entry_ensures hc).of_error hstalled).ne_stalled p rfl
  · have hdue := Run.due_start tree settings c
    rcases Nat.le_total depth tree.size with hle | hle
    · exact Run.visit_eq_of_le hc hdue hdepth hle
    · exact (Run.visit_eq_of_le hc hdue tree.population_le_size hle).symm
  · intro actions s hsteps
    have habsolute := FileTree.isAbsolute_of_canonicalize hc
    obtain ⟨rfl, hs⟩ := hsteps.consistent habsolute
    exact ⟨(hsteps.not_repeats habsolute).2, hsteps.length_le habsolute,
      fun l hl => hs.length_le_of_isChain hc hl⟩

end ScriptBundle
