import ScriptBundle.Proofs.Bundle.Steps

/-! The plain sequential inliner. It visits a module when it is first met: it reads it, puts out all
that it requires, and then its own text; a module met again gives nothing. A bundling run makes
every module ready first and emits the texts in a second walk, but what comes out is the same: that
walk enters the paths in the order in which the run registered them. -/
namespace ScriptBundle

/-- The paths visited and the text put out so far. -/
structure Inlining where
  visited : List Path
  out : Text
  deriving DecidableEq

namespace Inlining

def start : Inlining := ⟨[], []⟩

def HasVisited (s : Inlining) (p : Path) : Prop := ∃ q ∈ s.visited, Path.Same q p

def visiting (s : Inlining) (p : Path) : Inlining := { s with visited := s.visited ++ [p] }

/-- The chunk is put out; a newline comes first when what is out ends within a line. -/
def put (s : Inlining) (chunk : Text) : Inlining :=
  let newline := if s.out ≠ [] ∧ s.out.getLast? ≠ some '\n' then ['\n'] else []
  { s with out := s.out ++ newline ++ chunk }

end Inlining

/-- The module's own text: its relative requires are replaced and its names qualified. -/
def chunkOf (settings : Settings) (p : Path) (resolution : Resolution) : Text :=
  let id := ModuleId.ofPath p
  (namespaceModule resolution.code id [Binding.ofExport settings.exportTarget id]).code

/-- The inliner visits the paths in turn and comes from one state to another. -/
inductive Inlines (tree : FileTree) (settings : Settings) : Inlining → List Path → Inlining → Prop
  | done (s : Inlining) : Inlines tree settings s [] s
  | again {s t : Inlining} {p : Path} {more : List Path} (hp : s.HasVisited p)
      (hmore : Inlines tree settings s more t) : Inlines tree settings s (p :: more) t
  | first {s t u : Inlining} {p : Path} {more : List Path} {text : Text} {resolution : Resolution}
      (hp : ¬ s.HasVisited p) (htext : tree.readText p = .ok text)
      (hresolution :
        (Require.resolveRequires tree p text settings.extensions).outcome = .ok resolution)
      (hneeds : Inlines tree settings (s.visiting p) resolution.dependencies t)
      (hmore : Inlines tree settings (t.put (chunkOf settings p resolution)) more u) :
      Inlines tree settings s (p :: more) u

namespace Inlines

variable {tree : FileTree} {settings : Settings} {s t u : Inlining} {ps qs : List Path}

theorem append (h : Inlines tree settings s ps t) (h' : Inlines tree settings t qs u) :
    Inlines tree settings s (ps ++ qs) u := by
  induction h with
  | done s => exact h'
  | again hp _ ih => exact .again hp (ih h')
  | first hp htext hresolution hneeds _ _ ih => exact .first hp htext hresolution hneeds (ih h')

theorem deterministic (h : Inlines tree settings s ps t) (h' : Inlines tree settings s ps u) :
    t = u := by
  induction h generalizing u with
  | done s => cases h' with
    | done => rfl
  | again hp _ ih => cases h' with
    | again _ hmore => exact ih hmore
    | first hp' => exact absurd hp hp'
  | first hp htext hresolution _ _ ihneeds ihmore => cases h' with
    | again hp' => exact absurd hp' hp
    | first _ htext' hresolution' hneeds' hmore' =>
      obtain rfl := Except.ok.inj (htext.symm.trans htext')
      obtain rfl := Except.ok.inj (hresolution.symm.trans hresolution')
      obtain rfl := ihneeds hneeds'
      exact ihmore hmore'

end Inlines

theorem appendChunk_eq (text chunk : Text) :
    appendChunk text chunk =
      text ++ (if text ≠ [] ∧ text.getLast? ≠ some '\n' then ['\n'] else []) ++ chunk := by
  by_cases h : text = [] ∨ text.getLast? = some '\n'
  · have hno : ¬ (text ≠ [] ∧ text.getLast? ≠ some '\n') := fun hne => h.elim hne.1 hne.2
    rw [appendChunk, if_pos h, if_neg hno, List.append_nil]
  · have hyes : text ≠ [] ∧ text.getLast? ≠ some '\n' := not_or.mp h
    rw [appendChunk, if_neg h, if_pos hyes, List.append_assoc, List.singleton_append]

namespace Emission

/-- The state of the inliner when it has visited and put out the same. -/
def inlined (e : Emission) : Inlining := ⟨e.entered, joinChunks e.chunks⟩

theorem hasEntered_iff {e : Emission} {p : Path} :
    e.hasEntered p = true ↔ e.inlined.HasVisited p := by
  simp [hasEntered, inlined, Inlining.HasVisited]

theorem inlined_enter (e : Emission) (p : Path) : (e.enter p).inlined = e.inlined.visiting p := rfl

theorem inlined_leave (e : Emission) (chunk : Text) :
    (e.leave chunk).inlined = e.inlined.put chunk := by
  have hjoin : joinChunks (e.chunks ++ [chunk]) = appendChunk (joinChunks e.chunks) chunk := by
    simp [joinChunks]
  rw [appendChunk_eq] at hjoin
  exact congrArg (Inlining.mk e.entered) hjoin

end Emission

/-- What the forest emits from where the run stood is what the inliner puts out for the paths; both
have then met the paths that the run has registered. -/
def Follows (tree : FileTree) (settings : Settings) (run : Run) (ps : List Path) (run' : Run)
    (f : Forest) : Prop :=
  ∀ e : Emission, e.entered = run.registry.paths →
    (f.emit e).entered = run'.registry.paths ∧
      Inlines tree settings e.inlined ps (f.emit e).inlined

namespace Run

variable {tree : FileTree} {settings : Settings} {run run' : Run} {m : ReadyModule}
  {needs : Forest}

theorem contains_iff_entered {e : Emission} (he : e.entered = run.registry.paths) (p : Path) :
    run.registry.contains p = true ↔ e.inlined.HasVisited p := by
  rw [Registry.contains_iff, ← he]
  rfl

theorem follows_joined {p : Path} (hp : run.registry.contains p = true)
    (h : run.ready? p = some (m, needs)) :
    Follows tree settings run [p] run (Forest.tree m needs) := by
  intro e he
  have hvisited := (contains_iff_entered he p).mp hp
  have hsame : Path.Same m.path p := by simpa using List.find?_some h
  have hentered : e.hasEntered m.path = true := by
    obtain ⟨q, hq, hqp⟩ := hvisited
    exact Emission.hasEntered_iff.mpr ⟨q, hq, hqp.trans hsame.symm⟩
  have hemit : (Forest.tree m needs).emit e = e := by
    simp only [Forest.tree, Forest.emit, hentered, if_true]
  rw [hemit]
  exact ⟨he, .again hvisited (.done _)⟩

theorem follows_visitAll {inner : Run → Path → Logged (Run × ReadyModule × Forest)}
    (hinner : ∀ {run run' p m needs}, (inner run p).outcome = .ok (run', m, needs) →
      Follows tree settings run [p] run' (Forest.tree m needs)) {ps : List Path} {f : Forest}
    (h : (visitAll inner run ps).outcome = .ok (run', f)) :
    Follows tree settings run ps run' f := by
  induction ps generalizing run f with
  | nil =>
    obtain ⟨rfl, rfl⟩ := Prod.mk.inj (visitAll_nil_ok.mp h)
    exact fun e he => ⟨he, .done _⟩
  | cons p more ih =>
    obtain ⟨run₁, m, needs, run₂, rest, hp, hmore, hr⟩ := visitAll_cons_ok.mp h
    obtain ⟨rfl, rfl⟩ := Prod.mk.inj hr
    intro e he
    obtain ⟨he₁, hfirst⟩ := hinner hp e he
    obtain ⟨he₂, hrest⟩ := ih hmore _ he₁
    exact ⟨he₂, hfirst.append hrest⟩

theorem follows_visit {depth : Nat} {p : Path}
    (h : (visit tree settings depth run p).outcome = .ok (run', m, needs)) :
    Follows tree settings run [p] run' (Forest.tree m needs) := by
  induction depth generalizing run run' p m needs with
  | zero => simp [visit] at h
  | succ depth ih =>
    by_cases hp : run.registry.contains p = true
    · rw [visit_joined hp] at h
      cases hready : run.ready? p with
      | none => simp [hready] at h
      | some found =>
        simp only [hready, Option.elim_some, Except.ok.injEq, Prod.mk.injEq] at h
        obtain ⟨rfl, rfl⟩ := h
        exact follows_joined hp hready
    · rw [visit_new hp] at h
      obtain ⟨text, resolution, edged, run₁, needs', m', htext, hresolution, hedges, hvisits, rfl,
        hr⟩ := makeReady_ok.mp h
      obtain ⟨rfl, rfl, rfl⟩ : _ ∧ _ ∧ _ := by simpa using hr
      intro e he
      have hvisited := mt (contains_iff_entered he p).mpr hp
      have henter : (e.enter p).entered = edged.registry.paths := by
        rw [(recordEdges_rest hedges).1, Registry.paths_register _ hp, ← he]
        rfl
      obtain ⟨hentered, hneeds⟩ := follows_visitAll ih hvisits (e.enter p) henter
      rw [Emission.inlined_enter] at hneeds
      have hnew : e.hasEntered p = false := by
        rw [← Bool.not_eq_true, Emission.hasEntered_iff]
        exact hvisited
      simp only [Forest.tree, Forest.emit, hnew, Bool.false_eq_true, if_false]
      refine ⟨hentered, .first hvisited htext hresolution hneeds ?_⟩
      rw [Emission.inlined_leave]
      exact .done _

end Run

/-- **A bundle is what the plain inliner puts out.** Begun at the canonical entry with nothing
visited, the inliner comes to one state: it has visited the paths of the registry, in this order,
and put out the code of the bundle. -/
theorem bundle_eq_inlined {tree : FileTree} {settings : Settings} {entry : Path} {b : Bundle}
    (h : (bundle tree settings entry).outcome = .ok b) :
    ∃ canonical, tree.canonicalize entry = .ok canonical ∧
      ∀ s, Inlines tree settings .start [canonical] s ↔ s = ⟨b.registry.paths, b.code⟩ := by
  obtain ⟨canonical, run, m, needs, hcanonical, hvisit, rfl⟩ := bundle_ok.mp h
  obtain ⟨hentered, hinlines⟩ := Run.follows_visit hvisit .start rfl
  have hstate : ((Forest.tree m needs).emit .start).inlined =
      ⟨run.registry.paths, (Forest.tree m needs).bundleText⟩ := by
    rw [← hentered]
    rfl
  rw [hstate] at hinlines
  refine ⟨canonical, hcanonical, fun s => ⟨fun hs => hs.deterministic hinlines, ?_⟩⟩
  rintro rfl
  exact hinlines

/-- A module required by two others is visited once, by the one that is met first. -/
theorem bundle_eq_inlined_shared :
    let m := Path.ofText ['/', 'm']
    let a := Path.ofText ['/', 'a']
    let b := Path.ofText ['/', 'b']
    let tree : FileTree := ⟨[], [
      ([Utf8.encode ['m']], .file (Utf8.encode "require('./a')(require('./b'))".toList)),
      ([Utf8.encode ['a']], .file (Utf8.encode "let x = require('./b')".toList)),
      ([Utf8.encode ['b']], .file (Utf8.encode "let x = 1".toList))]⟩
    ∃ out, (bundle tree {} m).outcome = .ok out ∧ out.registry.paths = [m, a, b] ∧
      ∀ s, Inlines tree {} .start [m] s ↔ s = ⟨[m, a, b], out.code⟩ := by
  intro m a b tree
  have hbundle : (bundle tree {} m).Ensures (·.registry.paths = [m, a, b]) fun _ => False := by
    decide +kernel
  have hm : (tree.canonicalize m).toOption = some m := by decide +kernel
  obtain ⟨out, hout, hregistry⟩ := hbundle.exists_ok
  obtain ⟨canonical, hcanonical, hinlines⟩ := bundle_eq_inlined hout
  obtain rfl : m = canonical := by simpa [hcanonical, Except.toOption] using hm.symm
  rw [hregistry] at hinlines
  exact ⟨out, hout, hregistry, hinlines⟩

end ScriptBundle
