import ScriptBundle.Bundle.Run

/-! What the steps of a run come to: when each of them succeeds and with which result, and where an
error of it comes from. -/
namespace ScriptBundle

def Registry.paths (r : Registry) : List Path := r.entries.map (·.1)

namespace Registry

theorem contains_iff {r : Registry} {p : Path} :
    r.contains p = true ↔ ∃ q ∈ r.paths, Path.Same q p := by
  simp [contains, get?, paths, List.find?_isSome]

theorem register_of_not_contains {r : Registry} {p : Path} (id : ModuleId)
    (h : ¬ r.contains p = true) : (r.register p id).1 = ⟨r.entries ++ [(p, id)]⟩ := by
  rw [contains, Bool.not_eq_true, Option.isSome_eq_false_iff, Option.isNone_iff_eq_none] at h
  simp only [register, h]

theorem paths_register {r : Registry} {p : Path} (id : ModuleId) (h : ¬ r.contains p = true) :
    (r.register p id).1.paths = r.paths ++ [p] := by
  rw [register_of_not_contains id h]
  simp [paths]

theorem apart_register {r : Registry} {p : Path} (id : ModuleId) (h : ¬ r.contains p = true)
    (hapart : r.paths.Pairwise fun p q => ¬ Path.Same p q) :
    (r.register p id).1.paths.Pairwise fun p q => ¬ Path.Same p q := by
  have hfresh : ∀ q ∈ r.paths, ¬ Path.Same q p :=
    fun q hq hsame => h (contains_iff.mpr ⟨q, hq, hsame⟩)
  rw [paths_register id h]
  exact List.pairwise_append.mpr ⟨hapart, List.pairwise_singleton _ _, by simpa using hfresh⟩

end Registry

/-- The graph after a module's requires were recorded in turn, and the circle for which the last of
them was refused. -/
def RequireGraph.requireAll (g : RequireGraph) (requirer : Path) :
    List Path → RequireGraph × Option (List Path)
  | [] => (g, none)
  | target :: more =>
    match g.require requirer target with
    | (g, some cycle) => (g, some cycle)
    | (g, none) => requireAll g requirer more

namespace Run

variable {tree : FileTree} {settings : Settings} {run run' : Run} {p : Path} {id : ModuleId}
  {inner : Run → Path → Logged (Run × ReadyModule × Forest)}

theorem readText_ok {text : Text} :
    (readText tree p).outcome = .ok text ↔ tree.readText p = .ok text := by
  unfold readText
  cases tree.readText p <;> simp

theorem qualify_outcome (settings : Settings) (p : Path) (id : ModuleId) (code : Text) :
    (qualify settings p id code).outcome =
      .ok (namespaceModule code id [Binding.ofExport settings.exportTarget id]).code := by
  simp [qualify, Except.bind]

theorem recordEdges_outcome (run : Run) (p : Path) (targets : List Path) :
    (run.recordEdges p targets).outcome = match run.graph.requireAll p targets with
      | (_, some cycle) => .error (.cyclicDependency cycle)
      | (graph, none) => .ok { run with graph } := by
  induction targets generalizing run with
  | nil => rfl
  | cons target more ih =>
    rcases hrequire : run.graph.require p target with ⟨graph, _ | cycle⟩
    · simp [recordEdges, RequireGraph.requireAll, hrequire, ih { run with graph }, Except.bind]
    · simp [recordEdges, RequireGraph.requireAll, hrequire]

theorem recordEdges_rest {targets : List Path}
    (h : (run.recordEdges p targets).outcome = .ok run') :
    run'.registry = run.registry ∧ run'.ready = run.ready := by
  rw [recordEdges_outcome] at h
  split at h
  · simp at h
  · obtain rfl := Except.ok.inj h
    exact ⟨rfl, rfl⟩

theorem visitAll_nil_ok {r : Run × Forest} :
    (visitAll inner run []).outcome = .ok r ↔ (run, .nil) = r := by
  simp [visitAll]

theorem visitAll_cons_ok {more : List Path} {r : Run × Forest} :
    (visitAll inner run (p :: more)).outcome = .ok r ↔
      ∃ run₁ m needs run₂ rest, (inner run p).outcome = .ok (run₁, m, needs) ∧
        (visitAll inner run₁ more).outcome = .ok (run₂, rest) ∧ (run₂, .cons m needs rest) = r := by
  simp [visitAll, -Logged.outcome_bind, Logged.outcome_bind_ok]

theorem makeReady_ok {r : Run × ReadyModule × Forest} :
    (makeReady tree settings inner run p id).outcome = .ok r ↔
      ∃ text resolution edged run₁ needs m,
        tree.readText p = .ok text ∧
        (Require.resolveRequires tree p text settings.extensions).outcome = .ok resolution ∧
        (run.recordEdges p resolution.dependencies).outcome = .ok edged ∧
        (visitAll inner edged resolution.dependencies).outcome = .ok (run₁, needs) ∧
        m = ⟨p, id, (namespaceModule resolution.code id
          [Binding.ofExport settings.exportTarget id]).code⟩ ∧
        ({ run₁ with ready := run₁.ready ++ [(m, needs)] }, m, needs) = r := by
  simp [makeReady, -Logged.outcome_bind, Logged.outcome_bind_ok, readText_ok, qualify_outcome]

theorem visit_joined {depth : Nat} (h : run.registry.contains p = true) :
    (visit tree settings (depth + 1) run p).outcome =
      (run.ready? p).elim (.error (.stalled p)) fun m => .ok (run, m) := by
  rw [Run.visit, if_pos h]
  cases run.ready? p <;> simp [Except.bind]

theorem visit_new {depth : Nat} (h : ¬ run.registry.contains p = true) :
    (visit tree settings (depth + 1) run p).outcome =
      (makeReady tree settings (visit tree settings depth)
        { run with registry := (run.registry.register p (.ofPath p)).1 } p
        (.ofPath p)).outcome := by
  rw [Run.visit, if_neg h]
  simp [Except.bind]

end Run

variable {tree : FileTree} {settings : Settings} {entry : Path}

theorem bundle_ok {b : Bundle} :
    (bundle tree settings entry).outcome = .ok b ↔
      ∃ canonical run m needs, tree.canonicalize entry = .ok canonical ∧
        (Run.visit tree settings tree.size .start canonical).outcome = .ok (run, m, needs) ∧
        ⟨(Forest.tree m needs).bundleText, m.id, run.registry⟩ = b := by
  unfold bundle
  cases tree.canonicalize entry with
  | error fault => simp
  | ok canonical => simp [-Logged.outcome_bind, Logged.outcome_bind_ok]

theorem bundle_error {e : BundleError} :
    (bundle tree settings entry).outcome = .error e ↔
      (∃ fault, tree.canonicalize entry = .error fault ∧ e = .fileSystem entry fault) ∨
      ∃ canonical, tree.canonicalize entry = .ok canonical ∧
        (Run.visit tree settings tree.size .start canonical).outcome = .error e := by
  unfold bundle
  cases tree.canonicalize entry with
  | error fault => simp [eq_comm]
  | ok canonical => simp [-Logged.outcome_bind, Logged.outcome_bind_error]

end ScriptBundle
