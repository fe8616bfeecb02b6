import Mathlib.Data.List.Nodup
import ScriptBundle.Bundle.Forest

/-! The order in which a forest is emitted. The walk is followed turn by turn: it enters a module,
walks over what the module requires, and leaves it. Where equal paths carry equal modules, each
module is left once, behind all that it requires, and a module's earlier requirements are finished
before anything is begun that is first met through a later one. -/
namespace ScriptBundle

inductive Turn
  | enter (m : ReadyModule)
  | leave (m : ReadyModule)
  deriving DecidableEq

namespace Turn

def entered? : Turn → Option Path
  | enter m => some m.path
  | leave _ => none

def left? : Turn → Option ReadyModule
  | enter _ => none
  | leave m => some m

theorem filterMap_left_enter (t : List Turn) (m : ReadyModule) :
    (t ++ [enter m]).filterMap left? = t.filterMap left? := by
  rw [List.filterMap_append]
  exact List.append_nil _

theorem filterMap_left_leave (t : List Turn) (m : ReadyModule) :
    (t ++ [leave m]).filterMap left? = t.filterMap left? ++ [m] := by
  rw [List.filterMap_append]
  rfl

end Turn

def Emission.ofTurns (t : List Turn) : Emission :=
  ⟨t.filterMap Turn.entered?, (t.filterMap Turn.left?).map ReadyModule.code⟩

def Entered (t : List Turn) (p : Path) : Prop := ∃ m, .enter m ∈ t ∧ Path.Same m.path p

theorem Emission.hasEntered_ofTurns {t : List Turn} {p : Path} :
    (Emission.ofTurns t).hasEntered p = true ↔ Entered t p := by
  simp only [Emission.hasEntered, Emission.ofTurns, List.any_eq_true, decide_eq_true_eq,
    List.mem_filterMap]
  constructor
  · rintro ⟨q, ⟨turn, hturn, hq⟩, hsame⟩
    cases turn with
    | enter m =>
      obtain rfl := Option.some.inj hq
      exact ⟨m, hturn, hsame⟩
    | leave m => simp [Turn.entered?] at hq
  · rintro ⟨m, hm, hsame⟩
    exact ⟨m.path, ⟨.enter m, hm, rfl⟩, hsame⟩

theorem Entered.congr {t : List Turn} {p q : Path} (h : Entered t p) (hpq : Path.Same p q) :
    Entered t q := by
  obtain ⟨m, hm, hsame⟩ := h
  exact ⟨m, hm, hsame.trans hpq⟩

theorem entered_append {t u : List Turn} {p : Path} :
    Entered (t ++ u) p ↔ Entered t p ∨ Entered u p := by
  simp [Entered, or_and_right, exists_or]

theorem entered_enter {m : ReadyModule} {p : Path} :
    Entered [.enter m] p ↔ Path.Same m.path p := by simp [Entered]

theorem not_entered_leave {m : ReadyModule} {p : Path} : ¬ Entered [.leave m] p := by
  simp [Entered]

theorem not_entered_nil (p : Path) : ¬ Entered [] p := by simp [Entered]

namespace Forest

/-- The modules of a forest, each with the forest of what it requires. -/
def nodes : Forest → List (ReadyModule × Forest)
  | nil => []
  | cons m needs rest => (m, needs) :: (needs.nodes ++ rest.nodes)

def modules (f : Forest) : List ReadyModule := f.nodes.map (·.1)

def append : Forest → Forest → Forest
  | nil, g => g
  | cons m needs rest, g => cons m needs (rest.append g)

/-- Equal paths carry equal modules, which require the same. -/
def Coherent (f : Forest) : Prop :=
  ∀ a ∈ f.nodes, ∀ b ∈ f.nodes, Path.Same a.1.path b.1.path → a = b

instance (f : Forest) : Decidable f.Coherent :=
  inferInstanceAs (Decidable (∀ a ∈ f.nodes, ∀ b ∈ f.nodes, _ → a = b))

/-- The turns of the walk over a forest, behind those already taken. -/
def walk : Forest → List Turn → List Turn
  | nil, t => t
  | cons m needs rest, t =>
    rest.walk <|
      if (Emission.ofTurns t).hasEntered m.path then t
      else needs.walk (t ++ [.enter m]) ++ [.leave m]

@[simp] theorem nodes_cons (m : ReadyModule) (needs rest : Forest) :
    (cons m needs rest).nodes = (m, needs) :: (needs.nodes ++ rest.nodes) := rfl

theorem mem_modules {f : Forest} {m : ReadyModule} :
    m ∈ f.modules ↔ ∃ needs, (m, needs) ∈ f.nodes := by simp [modules]

@[simp] theorem nodes_append (f g : Forest) : (f.append g).nodes = f.nodes ++ g.nodes := by
  induction f with
  | nil => rfl
  | cons m needs rest _ ih => simp [append, ih]

theorem walk_cons_entered {m : ReadyModule} {t : List Turn} (needs rest : Forest)
    (h : Entered t m.path) : (cons m needs rest).walk t = rest.walk t := by
  simp [walk, Emission.hasEntered_ofTurns.mpr h]

theorem walk_cons_new {m : ReadyModule} {t : List Turn} (needs rest : Forest)
    (h : ¬ Entered t m.path) :
    (cons m needs rest).walk t = rest.walk (needs.walk (t ++ [.enter m]) ++ [.leave m]) := by
  simp [walk, Emission.hasEntered_ofTurns, h]

theorem walk_append (f g : Forest) (t : List Turn) : (f.append g).walk t = g.walk (f.walk t) := by
  induction f generalizing t with
  | nil => rfl
  | cons m needs rest _ ih => simp only [append, walk, ih]

theorem emit_ofTurns (f : Forest) (t : List Turn) :
    f.emit (Emission.ofTurns t) = Emission.ofTurns (f.walk t) := by
  induction f generalizing t with
  | nil => rfl
  | cons m needs rest ihneeds ihrest =>
    by_cases h : (Emission.ofTurns t).hasEntered m.path = true
    · simp only [emit, walk, h, if_true, ihrest]
    · have henter : (Emission.ofTurns t).enter m.path = Emission.ofTurns (t ++ [.enter m]) := by
        simp [Emission.enter, Emission.ofTurns, Turn.entered?, Turn.left?]
      have hleave : ∀ u,
          (Emission.ofTurns u).leave m.code = Emission.ofTurns (u ++ [.leave m]) := by
        intro u
        simp [Emission.leave, Emission.ofTurns, Turn.entered?, Turn.left?]
      rw [Bool.not_eq_true] at h
      simp only [emit, walk, h, Bool.false_eq_true, if_false, henter, ihneeds, hleave, ihrest]

theorem prefix_walk (f : Forest) (t : List Turn) : t <+: f.walk t := by
  induction f generalizing t with
  | nil => exact List.prefix_rfl
  | cons m needs rest ihneeds ihrest =>
    by_cases h : Entered t m.path
    · rw [walk_cons_entered needs rest h]
      exact ihrest t
    · rw [walk_cons_new needs rest h]
      have hneeds : t <+: needs.walk (t ++ [.enter m]) :=
        (List.prefix_append _ _).trans (ihneeds _)
      exact (hneeds.trans (List.prefix_append _ _)).trans (ihrest _)

theorem enter_mem_walk {f : Forest} {t : List Turn} {x : ReadyModule} (h : .enter x ∈ f.walk t) :
    .enter x ∈ t ∨ x ∈ f.modules := by
  induction f generalizing t with
  | nil => exact Or.inl h
  | cons m needs rest ihneeds ihrest =>
    simp only [mem_modules, nodes_cons, List.mem_cons, List.mem_append, Prod.mk.injEq] at *
    by_cases hm : Entered t m.path
    · rw [walk_cons_entered needs rest hm] at h
      rcases ihrest h with h | ⟨ns, h⟩
      · exact Or.inl h
      · exact Or.inr ⟨ns, by simp [h]⟩
    · rw [walk_cons_new needs rest hm] at h
      rcases ihrest h with h | ⟨ns, h⟩
      · rcases ihneeds (by simpa using h) with h | ⟨ns, h⟩
        · rcases List.mem_append.mp h with h | h
          · exact Or.inl h
          · exact Or.inr ⟨needs, by simp at h; simp [h]⟩
        · exact Or.inr ⟨ns, by simp [h]⟩
      · exact Or.inr ⟨ns, by simp [h]⟩

theorem leave_mem_walk {f : Forest} {t : List Turn} {x : ReadyModule} (h : .leave x ∈ f.walk t) :
    .leave x ∈ t ∨ ¬ Entered t x.path ∧ x ∈ f.modules := by
  induction f generalizing t with
  | nil => exact Or.inl h
  | cons m needs rest ihneeds ihrest =>
    simp only [mem_modules, nodes_cons, List.mem_cons, List.mem_append, Prod.mk.injEq] at *
    by_cases hm : Entered t m.path
    · rw [walk_cons_entered needs rest hm] at h
      rcases ihrest h with h | ⟨hnew, ns, h⟩
      · exact Or.inl h
      · exact Or.inr ⟨hnew, ns, by simp [h]⟩
    · rw [walk_cons_new needs rest hm] at h
      have hmono : ∀ p, Entered t p → Entered (needs.walk (t ++ [.enter m]) ++ [.leave m]) p := by
        intro p hp
        obtain ⟨more, hmore⟩ := prefix_walk needs (t ++ [.enter m])
        rw [← hmore]
        simp only [entered_append]
        tauto
      rcases ihrest h with h | ⟨hnew, ns, h⟩
      · rcases List.mem_append.mp h with h | h
        · rcases ihneeds h with h | ⟨hnew, ns, h⟩
          · exact Or.inl (by simpa using h)
          · exact Or.inr ⟨fun hp => hnew (entered_append.mpr (Or.inl hp)), ns, by simp [h]⟩
        · obtain rfl : x = m := by simpa using h
          exact Or.inr ⟨hm, needs, by simp⟩
      · exact Or.inr ⟨fun hp => hnew (hmono _ hp), ns, by simp [h]⟩

/-- The module was entered and left. -/
def Finished (t : List Turn) (m : ReadyModule) : Prop := .enter m ∈ t ∧ .leave m ∈ t

theorem Finished.mono {t u : List Turn} {m : ReadyModule} (h : Finished t m) (htu : t <+: u) :
    Finished u m := ⟨htu.subset h.1, htu.subset h.2⟩

/-- Whatever in the forest was entered is finished, with all that it requires. The walk is never
within a module that it can still meet. -/
def Settled (t : List Turn) (f : Forest) : Prop :=
  ∀ n ∈ f.nodes, Entered t n.1.path → Finished t n.1 ∧ ∀ x ∈ n.2.modules, Finished t x

theorem settled_nil (f : Forest) : Settled [] f :=
  fun n _ hent => absurd hent (not_entered_nil n.1.path)

theorem nodes_subset {f : Forest} {n : ReadyModule × Forest} (h : n ∈ f.nodes) :
    n.2.nodes ⊆ f.nodes := by
  induction f with
  | nil => simp [nodes] at h
  | cons m needs rest ihneeds ihrest =>
    intro x hx
    rw [nodes_cons] at h ⊢
    rcases List.mem_cons.mp h with rfl | h
    · simp [hx]
    · rcases List.mem_append.mp h with h | h
      · simp [ihneeds h hx]
      · simp [ihrest h hx]

theorem sizeOf_lt_of_mem {f : Forest} {n : ReadyModule × Forest} (h : n ∈ f.nodes) :
    sizeOf n.2 < sizeOf f := by
  induction f with
  | nil => simp [nodes] at h
  | cons m needs rest ihneeds ihrest =>
    simp only [cons.sizeOf_spec]
    rcases List.mem_cons.mp h with rfl | h
    · simp only
      omega
    · rcases List.mem_append.mp h with h | h
      · have := ihneeds h
        omega
      · have := ihrest h
        omega

theorem not_mem_nodes (n : ReadyModule × Forest) : n ∉ n.2.nodes :=
  fun h => Nat.lt_irrefl _ (sizeOf_lt_of_mem h)

theorem Coherent.of_subset {f g : Forest} (h : g.Coherent) (hfg : f.nodes ⊆ g.nodes) :
    f.Coherent := fun a ha b hb => h a (hfg ha) b (hfg hb)

section

variable {m : ReadyModule} {needs rest : Forest} {t : List Turn}

theorem Coherent.below (h : (cons m needs rest).Coherent) : needs.Coherent :=
  h.of_subset fun n hn => by simp [hn]

theorem Coherent.beside (h : (cons m needs rest).Coherent) : rest.Coherent :=
  h.of_subset fun n hn => by simp [hn]

theorem Coherent.not_same (h : (cons m needs rest).Coherent) {n : ReadyModule × Forest}
    (hn : n ∈ needs.nodes) : ¬ Path.Same m.path n.1.path := by
  intro hsame
  obtain rfl := h (m, needs) (by simp) n (by simp [hn]) hsame
  exact not_mem_nodes _ hn

theorem Settled.tail (h : Settled t (cons m needs rest)) : Settled t rest :=
  fun n hn => h n (by simp [hn])

theorem Settled.below (h : Settled t (cons m needs rest))
    (hco : (cons m needs rest).Coherent) : Settled (t ++ [.enter m]) needs := by
  intro n hn hent
  rcases entered_append.mp hent with hent | hent
  · obtain ⟨hself, hbelow⟩ := h n (by simp [hn]) hent
    exact ⟨hself.mono (List.prefix_append _ _), fun x hx =>
      (hbelow x hx).mono (List.prefix_append _ _)⟩
  · exact absurd (entered_enter.mp hent) (hco.not_same hn)

theorem Coherent.mem_of_entered (hco : (cons m needs rest).Coherent)
    {n : ReadyModule × Forest} (hn : n ∈ rest.nodes) (hnew : ¬ Entered t n.1.path)
    (hent : Entered (needs.walk (t ++ [.enter m]) ++ [.leave m]) n.1.path) :
    n = (m, needs) ∨ n ∈ needs.nodes := by
  have hent' := (entered_append.mp hent).resolve_right not_entered_leave
  obtain ⟨k, hk, hsame⟩ := hent'
  rcases enter_mem_walk hk with hk | hk
  · rcases List.mem_append.mp hk with hk | hk
    · exact absurd ⟨k, hk, hsame⟩ hnew
    · obtain rfl : k = m := by simpa using hk
      exact Or.inl (hco (k, needs) (by simp) n (by simp [hn]) hsame).symm
  · obtain ⟨ks, hks⟩ := mem_modules.mp hk
    obtain rfl := hco (k, ks) (by simp [hks]) n (by simp [hn]) hsame
    exact Or.inr hks

theorem Settled.beside (h : Settled t (cons m needs rest)) (hco : (cons m needs rest).Coherent)
    (hdone : ∀ x ∈ needs.modules, Finished (needs.walk (t ++ [.enter m])) x) :
    Settled (needs.walk (t ++ [.enter m]) ++ [.leave m]) rest := by
  intro n hn hent
  have hpre : t <+: needs.walk (t ++ [.enter m]) ++ [.leave m] :=
    ((List.prefix_append _ _).trans (prefix_walk _ _)).trans (List.prefix_append _ _)
  have hneeds : ∀ x ∈ needs.modules, Finished (needs.walk (t ++ [.enter m]) ++ [.leave m]) x :=
    fun x hx => (hdone x hx).mono (List.prefix_append _ _)
  by_cases hold : Entered t n.1.path
  · obtain ⟨hself, hbelow⟩ := h n (by simp [hn]) hold
    exact ⟨hself.mono hpre, fun x hx => (hbelow x hx).mono hpre⟩
  · rcases hco.mem_of_entered hn hold hent with rfl | hin
    · have henter : .enter m ∈ needs.walk (t ++ [.enter m]) := (prefix_walk _ _).subset (by simp)
      exact ⟨⟨by simp [henter], by simp⟩, hneeds⟩
    · refine ⟨hneeds n.1 (mem_modules.mpr ⟨n.2, hin⟩), fun x hx => hneeds x ?_⟩
      obtain ⟨xs, hxs⟩ := mem_modules.mp hx
      exact mem_modules.mpr ⟨xs, nodes_subset hin hxs⟩

end

theorem finished_of_mem {f : Forest} (hco : f.Coherent) {t : List Turn} (h : Settled t f)
    {x : ReadyModule} (hx : x ∈ f.modules) : Finished (f.walk t) x := by
  induction f generalizing t x with
  | nil => simp [modules, nodes] at hx
  | cons m needs rest ihneeds ihrest =>
    obtain ⟨xs, hxs⟩ := mem_modules.mp hx
    simp only [nodes_cons, List.mem_cons, List.mem_append, Prod.mk.injEq] at hxs
    by_cases hm : Entered t m.path
    · rw [walk_cons_entered needs rest hm]
      obtain ⟨hself, hbelow⟩ := h (m, needs) (by simp) hm
      rcases hxs with ⟨rfl, -⟩ | hxs | hxs
      · exact hself.mono (prefix_walk _ _)
      · exact (hbelow x (mem_modules.mpr ⟨xs, hxs⟩)).mono (prefix_walk _ _)
      · exact ihrest hco.beside h.tail (mem_modules.mpr ⟨xs, hxs⟩)
    · rw [walk_cons_new needs rest hm]
      have hdone : ∀ y ∈ needs.modules, Finished (needs.walk (t ++ [.enter m])) y :=
        fun y hy => ihneeds hco.below (h.below hco) hy
      rcases hxs with ⟨rfl, -⟩ | hxs | hxs
      · have henter : .enter x ∈ needs.walk (t ++ [.enter x]) := (prefix_walk _ _).subset (by simp)
        exact Finished.mono ⟨by simp [henter], by simp⟩ (prefix_walk _ _)
      · exact ((hdone x (mem_modules.mpr ⟨xs, hxs⟩)).mono (List.prefix_append _ _)).mono
          (prefix_walk _ _)
      · exact ihrest hco.beside (h.beside hco hdone) (mem_modules.mpr ⟨xs, hxs⟩)

/-- Behind `t`, and among `turns`, the module has its turn: it is entered, all that it requires is
walked over, and it is left. -/
def HasTurn (t turns : List Turn) (n : ReadyModule × Forest) : Prop :=
  ∃ u, t <+: u ∧ Settled (u ++ [.enter n.1]) n.2 ∧
    n.2.walk (u ++ [.enter n.1]) ++ [.leave n.1] <+: turns

theorem HasTurn.mono {t t' turns turns' : List Turn} {n : ReadyModule × Forest}
    (h : HasTurn t turns n) (ht : t' <+: t) (hturns : turns <+: turns') : HasTurn t' turns' n := by
  obtain ⟨u, hu, hset, hpre⟩ := h
  exact ⟨u, ht.trans hu, hset, hpre.trans hturns⟩

theorem hasTurn_walk {f : Forest} (hco : f.Coherent) {t : List Turn} (h : Settled t f)
    {n : ReadyModule × Forest} (hn : n ∈ f.nodes) (hnew : ¬ Entered t n.1.path) :
    HasTurn t (f.walk t) n := by
  induction f generalizing t with
  | nil => simp [nodes] at hn
  | cons m needs rest ihneeds ihrest =>
    rw [nodes_cons] at hn
    by_cases hm : Entered t m.path
    · rw [walk_cons_entered needs rest hm]
      obtain ⟨-, hbelow⟩ := h (m, needs) (by simp) hm
      rcases List.mem_cons.mp hn with rfl | hn
      · exact absurd hm hnew
      · rcases List.mem_append.mp hn with hn | hn
        · have hdone := hbelow n.1 (mem_modules.mpr ⟨n.2, hn⟩)
          exact absurd ⟨n.1, hdone.1, .refl _⟩ hnew
        · exact ihrest hco.beside h.tail hn hnew
    · rw [walk_cons_new needs rest hm]
      have hdone : ∀ y ∈ needs.modules, Finished (needs.walk (t ++ [.enter m])) y :=
        fun y hy => finished_of_mem hco.below (h.below hco) hy
      have hself : HasTurn t (rest.walk (needs.walk (t ++ [.enter m]) ++ [.leave m])) (m, needs) :=
        ⟨t, List.prefix_rfl, h.below hco, prefix_walk _ _⟩
      have hin : n ∈ needs.nodes →
          HasTurn t (rest.walk (needs.walk (t ++ [.enter m]) ++ [.leave m])) n := by
        intro hn
        have hnew' : ¬ Entered (t ++ [.enter m]) n.1.path := fun hent =>
          (entered_append.mp hent).elim hnew fun hent => hco.not_same hn (entered_enter.mp hent)
        exact (ihneeds hco.below (h.below hco) hn hnew').mono (List.prefix_append _ _)
          ((List.prefix_append _ _).trans (prefix_walk _ _))
      rcases List.mem_cons.mp hn with rfl | hn
      · exact hself
      · rcases List.mem_append.mp hn with hn | hn
        · exact hin hn
        · by_cases hent : Entered (needs.walk (t ++ [.enter m]) ++ [.leave m]) n.1.path
          · rcases hco.mem_of_entered hn hnew hent with rfl | hn
            · exact hself
            · exact hin hn
          · have hpre : t <+: needs.walk (t ++ [.enter m]) ++ [.leave m] :=
              ((List.prefix_append _ _).trans (prefix_walk _ _)).trans (List.prefix_append _ _)
            exact (ihrest hco.beside (h.beside hco hdone) hn hent).mono hpre List.prefix_rfl

end Forest

/-- No module is entered or left a second time, and only what was entered is left. -/
structure Orderly (t : List Turn) : Prop where
  nodup : t.Nodup
  left_once : (t.filterMap Turn.left?).Pairwise fun a b => ¬ Path.Same a.path b.path
  left_entered : ∀ m, .leave m ∈ t → Entered t m.path

theorem Turn.mem_filterMap_left {t : List Turn} {m : ReadyModule} :
    m ∈ t.filterMap Turn.left? ↔ .leave m ∈ t := by
  rw [List.mem_filterMap]
  constructor
  · rintro ⟨turn, hturn, hm⟩
    cases turn with
    | enter k => cases hm
    | leave k =>
      obtain rfl := Option.some.inj hm
      exact hturn
  · exact fun h => ⟨.leave m, h, rfl⟩

theorem Orderly.enter {t : List Turn} (h : Orderly t) {m : ReadyModule}
    (hnew : ¬ Entered t m.path) : Orderly (t ++ [.enter m]) where
  nodup := by
    have hfresh : .enter m ∉ t := fun hin => hnew ⟨m, hin, .refl _⟩
    simpa using List.Nodup.concat hfresh h.nodup
  left_once := by
    rw [Turn.filterMap_left_enter]
    exact h.left_once
  left_entered := fun x hx =>
    entered_append.mpr (Or.inl (h.left_entered x (by simpa using hx)))

theorem Orderly.leave {t : List Turn} (h : Orderly t) {m : ReadyModule}
    (hent : Entered t m.path) (hnew : ∀ x, .leave x ∈ t → ¬ Path.Same x.path m.path) :
    Orderly (t ++ [.leave m]) where
  nodup := by
    have hfresh : .leave m ∉ t := fun hin => hnew m hin (.refl _)
    simpa using List.Nodup.concat hfresh h.nodup
  left_once := by
    rw [Turn.filterMap_left_leave, List.pairwise_append]
    refine ⟨h.left_once, by simp, fun a ha b hb => ?_⟩
    obtain rfl : b = m := by simpa using hb
    exact hnew a (Turn.mem_filterMap_left.mp ha)
  left_entered := by
    intro x hx
    rcases List.mem_append.mp hx with hx | hx
    · exact entered_append.mpr (Or.inl (h.left_entered x hx))
    · obtain rfl : x = m := by simpa using hx
      exact entered_append.mpr (Or.inl hent)

theorem Orderly.walk {t : List Turn} (h : Orderly t) (f : Forest) : Orderly (f.walk t) := by
  induction f generalizing t with
  | nil => exact h
  | cons m needs rest ihneeds ihrest =>
    by_cases hm : Entered t m.path
    · rw [Forest.walk_cons_entered needs rest hm]
      exact ihrest h
    · rw [Forest.walk_cons_new needs rest hm]
      have henter : .enter m ∈ needs.walk (t ++ [.enter m]) :=
        (Forest.prefix_walk _ _).subset (by simp)
      refine ihrest ((ihneeds (h.enter hm)).leave ⟨m, henter, .refl _⟩ fun x hx hsame => ?_)
      rcases Forest.leave_mem_walk hx with hx | ⟨hx, -⟩
      · exact hm ((h.left_entered x (by simpa using hx)).congr hsame)
      · exact hx (entered_append.mpr (Or.inr (entered_enter.mpr hsame.symm)))

theorem orderly_walk (f : Forest) : Orderly (f.walk []) := Orderly.walk ⟨.nil, .nil, by simp⟩ f

theorem mem_of_sublist_pair {α : Type} {a b : α} {l r : List α} (hnd : (l ++ a :: r).Nodup)
    (h : List.Sublist [a, b] (l ++ a :: r)) : b ∈ r := by
  induction l with
  | nil =>
    cases h with
    | cons _ h => exact absurd (h.subset List.mem_cons_self) (List.nodup_cons.mp hnd).1
    | cons_cons _ h => exact List.singleton_sublist.mp h
  | cons c l ih =>
    obtain ⟨hc, hnd⟩ := List.nodup_cons.mp hnd
    cases h with
    | cons _ h => exact ih hnd h
    | cons_cons _ h => simp at hc

section

variable {f : Forest} {n : ReadyModule × Forest} (hco : f.Coherent) (hn : n ∈ f.nodes)

include hco hn

theorem sublist_of_needs {d : ReadyModule} (hd : d ∈ n.2.modules) :
    List.Sublist [d, n.1] ((f.walk []).filterMap Turn.left?) := by
  obtain ⟨u, -, hsettled, hpre⟩ :=
    Forest.hasTurn_walk hco (Forest.settled_nil f) hn (not_entered_nil _)
  have hco' : n.2.Coherent := hco.of_subset (Forest.nodes_subset hn)
  have hleft := Turn.mem_filterMap_left.mpr (Forest.finished_of_mem hco' hsettled hd).2
  have hsub := hpre.sublist.filterMap Turn.left?
  rw [Turn.filterMap_left_leave] at hsub
  exact ((List.singleton_sublist.mpr hleft).append_right [n.1]).trans hsub

/-- What is required earlier is left before anything is entered that is first met through what is
required later. -/
theorem sublist_of_siblings {earlier later : Forest} (hsplit : n.2 = earlier.append later)
    {x y : ReadyModule} (hx : x ∈ earlier.modules) (hyx : y ∉ earlier.modules)
    (hseq : List.Sublist [.enter n.1, .enter y] (f.walk [])) :
    List.Sublist [.leave x, .enter y] (f.walk []) := by
  obtain ⟨u, -, hsettled, hpre⟩ :=
    Forest.hasTurn_walk hco (Forest.settled_nil f) hn (not_entered_nil _)
  have hsub : earlier.nodes ⊆ n.2.nodes := fun k hk => by simp [hsplit, hk]
  have hco' : earlier.Coherent := (hco.of_subset (Forest.nodes_subset hn)).of_subset hsub
  have hdone := Forest.finished_of_mem hco' (fun k hk => hsettled k (hsub hk)) hx
  -- The walk over what stands earlier is over by `v`, and `y` was not met by then.
  obtain ⟨v, hv⟩ : ∃ v, earlier.walk (u ++ [.enter n.1]) = v := ⟨_, rfl⟩
  rw [hsplit, Forest.walk_append, hv] at hpre
  rw [hv] at hdone
  obtain ⟨w, hw⟩ := ((Forest.prefix_walk later v).trans (List.prefix_append _ _)).trans hpre
  obtain ⟨z, hz⟩ := Forest.prefix_walk earlier (u ++ [.enter n.1])
  have hturns : f.walk [] = u ++ .enter n.1 :: (z ++ w) := by
    rw [← hw, ← hv, ← hz]
    simp
  have hnd := (orderly_walk f).nodup
  rw [hturns] at hnd hseq
  have hafter := mem_of_sublist_pair hnd hseq
  have hyw : .enter y ∈ w := by
    refine (List.mem_append.mp hafter).resolve_left fun hyz => ?_
    have hmet : Turn.enter y ∈ earlier.walk (u ++ [.enter n.1]) := by
      rw [← hz]
      simp [hyz]
    rcases Forest.enter_mem_walk hmet with hmet | hmet
    · have hnd' : ((u ++ [Turn.enter n.1]) ++ (z ++ w)).Nodup := by simpa using hnd
      exact (List.nodup_append.mp hnd').2.2 _ hmet _ hafter rfl
    · exact hyx hmet
  rw [← hw]
  exact (List.singleton_sublist.mpr hdone.2).append (List.singleton_sublist.mpr hyw)

end

/-- **The order of a bundle.** Where equal paths carry equal modules, the chunks are the codes of
the modules in the order in which they are left: each once, the root last, all that a module
requires before it. Of what a module requires, an earlier part is finished before anything is begun
that is first met in a later part. -/
theorem emit_tree_order (m : ReadyModule) (needs : Forest) (hco : (Forest.tree m needs).Coherent) :
    let f := Forest.tree m needs
    let turns := f.walk []
    let order := turns.filterMap Turn.left?
    f.emit .start = Emission.ofTurns turns ∧ f.chunks = order.map ReadyModule.code ∧
      turns.Nodup ∧ order.Pairwise (fun a b => ¬ Path.Same a.path b.path) ∧
      (∀ n, n ∈ order ↔ n ∈ f.modules) ∧ order.getLast? = some m ∧
      (∀ n ∈ f.nodes, ∀ d ∈ n.2.modules, List.Sublist [d, n.1] order) ∧
      ∀ n ∈ f.nodes, ∀ earlier later : Forest, n.2 = earlier.append later →
        ∀ x ∈ earlier.modules, ∀ y ∈ later.modules, y ∉ earlier.modules →
          List.Sublist [.enter n.1, .enter y] turns → List.Sublist [.leave x, .enter y] turns := by
  intro f turns order
  have hord : Orderly turns := orderly_walk f
  have hemit : f.emit .start = Emission.ofTurns turns := Forest.emit_ofTurns f []
  refine ⟨hemit, by rw [Forest.chunks, hemit]; rfl, hord.nodup, hord.left_once, fun n => ?_, ?_,
    fun n hn d => sublist_of_needs hco hn, fun n hn earlier later hsplit x hx y hy => ?_⟩
  · rw [Turn.mem_filterMap_left]
    constructor
    · intro hn
      rcases Forest.leave_mem_walk hn with hn | ⟨-, hn⟩
      · simp at hn
      · exact hn
    · exact fun hn => (Forest.finished_of_mem hco (Forest.settled_nil f) hn).2
  · have hroot : turns = needs.walk [.enter m] ++ [.leave m] :=
      Forest.walk_cons_new needs .nil (not_entered_nil m.path)
    simp only [order, hroot, Turn.filterMap_left_leave, List.getLast?_concat]
  · exact sublist_of_siblings hco hn hsplit hx

/-- Two modules that require a third one: it stands before both. -/
theorem emit_tree_order_shared :
    let a : ReadyModule := ⟨Path.ofText ['/', 'a'], ⟨['A']⟩, ['a']⟩
    let b : ReadyModule := ⟨Path.ofText ['/', 'b'], ⟨['B']⟩, ['b']⟩
    let c : ReadyModule := ⟨Path.ofText ['/', 'c'], ⟨['C']⟩, ['c']⟩
    let r : ReadyModule := ⟨Path.ofText ['/', 'r'], ⟨['R']⟩, ['r']⟩
    let shared := Forest.cons c .nil .nil
    (Forest.tree r (.cons a shared (.cons b shared .nil))).Coherent ∧
      (Forest.tree r (.cons a shared (.cons b shared .nil))).chunks =
        [['c'], ['a'], ['b'], ['r']] := by
  intro a b c r shared
  have hco : (Forest.tree r (.cons a shared (.cons b shared .nil))).Coherent := by
    decide +kernel
  refine ⟨hco, ?_⟩
  rw [(emit_tree_order r _ hco).2.1]
  decide +kernel

end ScriptBundle
