import ScriptBundle.Proofs.Bundle.CircleDetection

/-! Edges recorded in different orders. Which call is refused hangs on the calls made before it, but
whether one is refused at all does not: all are let in exactly when the edges that they ask for make
no circle. A verdict depends on the edges of the graph only, so refused calls may be left out. -/
namespace ScriptBundle

open Relation

namespace RequireGraph

variable {g g' : RequireGraph} {p q : Path} {calls : List (Path × Path)}

def judged (g : RequireGraph) : List (Path × Path) → List ((Path × Path) × Bool)
  | [] => []
  | (p, q) :: more => ((p, q), (g.require p q).2.isSome) :: (g.require p q).1.judged more

def LetsAllIn (g : RequireGraph) (calls : List (Path × Path)) : Prop :=
  ∀ c ∈ g.judged calls, c.2 = false

def Asked (calls : List (Path × Path)) (p q : Path) : Prop :=
  ∃ call ∈ calls, Path.Same call.1 p ∧ Path.Same call.2 q

theorem require_leaves (hg : g.Formed) (hacyclic : g.Acyclic) (p q : Path) :
    (g.require p q).1.Formed ∧ (g.require p q).1.Acyclic ∧
      ∀ x y, (g.require p q).1.Links x y ↔
        g.Links x y ∨ (g.require p q).2 = none ∧ Path.Same p x ∧ Path.Same q y := by
  cases h : (g.require p q).2 with
  | none =>
    obtain ⟨hformed, hacyclic', hlinks, -⟩ := require_accepted hg hacyclic h
    exact ⟨hformed, hacyclic', fun x y => by simp only [hlinks, true_and]⟩
  | some cycle =>
    obtain ⟨hformed, hlinks, -⟩ := require_refused_spec hg h
    refine ⟨hformed, ?_, fun x y => by simp [hlinks]⟩
    unfold Acyclic
    rwa [hlinks]

/-- All calls are let in exactly when no circle comes of the edges that they ask for, together with
those of the graph. The induction follows the calls; the edge of one that is let in counts among
those of the graph from there on. -/
theorem letsAllIn_iff (hg : g.Formed) (hacyclic : g.Acyclic) :
    g.LetsAllIn calls ↔ ∀ x, ¬ TransGen (fun x y => g.Links x y ∨ Asked calls x y) x x := by
  induction calls generalizing g with
  | nil => simpa [LetsAllIn, judged, Asked, Acyclic] using hacyclic
  | cons call calls ih =>
    obtain ⟨p, q⟩ := call
    obtain ⟨hformed, hacyclic', hlinks⟩ := require_leaves hg hacyclic p q
    have hsplit : g.LetsAllIn ((p, q) :: calls) ↔
        (g.require p q).2 = none ∧ (g.require p q).1.LetsAllIn calls := by
      simp [LetsAllIn, judged, -Prod.forall]
    have hasked : ∀ x y, Asked ((p, q) :: calls) x y ↔
        (Path.Same p x ∧ Path.Same q y) ∨ Asked calls x y := by
      simp [Asked, -Prod.exists]
    -- Once the first call is let in, the same edges are recorded or asked for.
    have hedges : (g.require p q).2 = none → ∀ x y,
        ((g.require p q).1.Links x y ∨ Asked calls x y ↔
          g.Links x y ∨ Asked ((p, q) :: calls) x y) := by
      intro hnone x y
      simp only [hlinks, hasked, hnone, true_and, or_assoc]
    rw [hsplit, ih hformed hacyclic']
    constructor
    · rintro ⟨hnone, hcircle⟩ x hx
      exact hcircle x (TransGen.mono (fun x y => (hedges hnone x y).mpr) x x hx)
    · intro hcircle
      have hown : g.Links p q ∨ Asked ((p, q) :: calls) p q :=
        Or.inr ((hasked p q).mpr (Or.inl ⟨.refl p, .refl q⟩))
      have hnone : (g.require p q).2 = none := by
        rw [← Option.not_isSome_iff_eq_none, require_isSome_iff hg p q]
        rintro (hsame | hback)
        · refine hcircle p (.single (Or.inr ((hasked p p).mpr (Or.inl ⟨.refl p, ?_⟩))))
          exact hsame.symm
        · exact hcircle p (.head hown (TransGen.mono (fun _ _ => Or.inl) q p hback))
      exact ⟨hnone, fun x hx =>
        hcircle x (TransGen.mono (fun x y => (hedges hnone x y).mp) x x hx)⟩

theorem letsAllIn_empty_iff : empty.LetsAllIn calls ↔ ∀ x, ¬ TransGen (Asked calls) x x := by
  rw [letsAllIn_iff formed_empty acyclic_empty]
  simp only [not_links_empty, false_or]

/-- Two graphs with the same edges judge alike, also when some of the calls that the one refuses
are not made on the other. -/
theorem judged_of_sublist (hg : g.Formed) (hg' : g'.Formed) (hacyclic : g.Acyclic)
    (hlinks : g'.Links = g.Links) {kept : List ((Path × Path) × Bool)}
    (hkept : kept.Sublist (g.judged calls))
    (hall : kept.filter (!·.2) = (g.judged calls).filter (!·.2)) :
    g'.judged (kept.map (·.1)) = kept := by
  induction calls generalizing g g' kept with
  | nil =>
    obtain rfl := List.sublist_nil.mp hkept
    rfl
  | cons call calls ih =>
    obtain ⟨p, q⟩ := call
    have hacyclic' : g'.Acyclic := by
      unfold Acyclic
      rwa [hlinks]
    obtain ⟨hformed, hacyclic₁, hlinks₁⟩ := require_leaves hg hacyclic p q
    obtain ⟨hformed', -, hlinks₁'⟩ := require_leaves hg' hacyclic' p q
    have hverdict : (g'.require p q).2.isSome = (g.require p q).2.isSome := by
      rw [Bool.eq_iff_iff, require_isSome_iff hg', require_isSome_iff hg, hlinks]
    rw [judged] at hkept hall
    cases hkept with
    | cons _ hkept =>
      -- A call that is not made was refused, or the calls that were let in would not all be kept.
      have hrefused : (g.require p q).2.isSome = true := by
        by_contra hnot
        have hlength := congrArg List.length hall
        have hle := (hkept.filter (!·.2)).length_le
        simp only [Bool.not_eq_true] at hnot
        rw [List.filter_cons_of_pos (by simp [hnot]), List.length_cons] at hlength
        omega
      rw [List.filter_cons_of_neg (by simp [hrefused])] at hall
      refine ih hformed hg' hacyclic₁ ?_ hkept hall
      funext x y
      have hsome : (g.require p q).2 ≠ none := Option.isSome_iff_ne_none.mp hrefused
      simp only [hlinks₁, hsome, false_and, or_false, hlinks]
    | @cons_cons kept _ _ hkept =>
      have hall' : kept.filter (!·.2) = ((g.require p q).1.judged calls).filter (!·.2) := by
        simp only [List.filter_cons] at hall
        split at hall
        · exact (List.cons.inj hall).2
        · exact hall
      have hlinks' : (g'.require p q).1.Links = (g.require p q).1.Links := by
        funext x y
        have hnone : (g'.require p q).2 = none ↔ (g.require p q).2 = none := by
          rw [← Option.not_isSome_iff_eq_none, ← Option.not_isSome_iff_eq_none, hverdict]
        simp only [hlinks₁, hlinks₁', hnone, hlinks]
      rw [List.map_cons, judged, hverdict, ih hformed hformed' hacyclic₁ hlinks' hkept hall']

/-- **Whether requires make a circle is a matter of the edges alone.** Calls made in turn on a new
graph are all let in exactly when no circle comes of the edges that they ask for; so they are in one
order if and only if they are in any other. Where some of the refused calls are left out, each of
the calls that remain is judged as it was. -/
theorem letsAllIn_order (calls : List (Path × Path)) :
    (empty.LetsAllIn calls ↔ ∀ x, ¬ TransGen (Asked calls) x x) ∧
      (∀ calls', calls.Perm calls' → (empty.LetsAllIn calls ↔ empty.LetsAllIn calls')) ∧
      ∀ kept : List ((Path × Path) × Bool), kept.Sublist (empty.judged calls) →
        kept.filter (!·.2) = (empty.judged calls).filter (!·.2) →
          empty.judged (kept.map (·.1)) = kept := by
  refine ⟨letsAllIn_empty_iff, fun calls' hperm => ?_, fun kept hkept hall => ?_⟩
  · have hasked : Asked calls = Asked calls' := by
      funext x y
      simp only [Asked, hperm.mem_iff]
    rw [letsAllIn_empty_iff, letsAllIn_empty_iff, hasked]
  · exact judged_of_sublist formed_empty formed_empty acyclic_empty rfl hkept hall

/-- Of a triangle and an edge against it, the two orders refuse different calls, but each refuses
one; and where only the first of the two refused calls is left out, the second is still refused. -/
theorem letsAllIn_order_triangle :
    let a := Path.ofText ['/', 'a']
    let b := Path.ofText ['/', 'b']
    let c := Path.ofText ['/', 'c']
    let calls := [(a, b), (b, c), (c, a), (b, a)]
    let turned := [(c, a), (b, a), (b, c), (a, b)]
    calls.Perm turned ∧ (empty.LetsAllIn calls ↔ empty.LetsAllIn turned) ∧
      empty.judged calls =
        [((a, b), false), ((b, c), false), ((c, a), true), ((b, a), true)] ∧
      empty.judged turned =
        [((c, a), false), ((b, a), false), ((b, c), false), ((a, b), true)] ∧
      empty.judged [(a, b), (b, c), (b, a)] =
        [((a, b), false), ((b, c), false), ((b, a), true)] := by
  intro a b c calls turned
  have hperm : calls.Perm turned := by decide
  have hjudged : empty.judged calls =
      [((a, b), false), ((b, c), false), ((c, a), true), ((b, a), true)] := by decide +kernel
  refine ⟨hperm, (letsAllIn_order calls).2.1 turned hperm, hjudged, by decide +kernel, ?_⟩
  refine (letsAllIn_order calls).2.2 [((a, b), false), ((b, c), false), ((b, a), true)] ?_ ?_
  · rw [hjudged]
    decide
  · rw [hjudged]
    rfl

end RequireGraph
end ScriptBundle
