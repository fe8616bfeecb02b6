import Mathlib.Data.List.Forall2
import ScriptBundle.Proofs.Script.Scopes

/-! Two texts namespaced side by side. What is written at a spot depends on little of what stands
around it: on its character and mark, on whether a name may begin and end there and what is declared
there, and on which bindings have begun by then. Where the spots of two texts agree in that, the
same is written. -/
namespace ScriptBundle

/-- Offsets of one text paired with offsets of another, both in the same order. -/
def InOrder (R : Nat → Nat → Prop) : Prop :=
  ∀ m n m' n', R m n → R m' n' → (m ≤ m' ↔ n ≤ n')

/-- Spots at paired offsets that are read alike. -/
structure Spot.Matches (R : Nat → Nat → Prop) (s s' : Spot) : Prop where
  char : s.char = s'.char
  code : s.code = s'.code
  opens : opensAfter s.before = opensAfter s'.before
  closes : closesBefore s.after = closesBefore s'.after
  declares : s.declaration?.map Declaration.name = s'.declaration?.map Declaration.name
  offset : R s.offset s'.offset

/-- Bindings of one name to one text, in effect at the same of the paired offsets. -/
structure Binding.Matches (R : Nat → Nat → Prop) (b b' : Binding) : Prop where
  name : b.name = b'.name
  qualified : b.qualified = b'.qualified
  since : ∀ m n, R m n → (b.since ≤ m ↔ b'.since ≤ n)

structure Scopes.Matches (R : Nat → Nat → Prop) (scopes scopes' : Scopes) : Prop where
  top : List.Forall₂ (Binding.Matches R) scopes.top scopes'.top
  below : List.Forall₂ (List.Forall₂ (Binding.Matches R)) scopes.below scopes'.below

variable {R : Nat → Nat → Prop}

theorem Spot.Matches.isCode {s s' : Spot} (h : s.Matches R s') (c : Char) :
    s.isCode c = s'.isCode c := by simp only [Spot.isCode, h.char, h.code]

theorem standsAt_congr {l l' : List Spot} (h : List.Forall₂ (Spot.Matches R) l l') (name : Text) :
    standsAt name l = standsAt name l' := by
  induction name generalizing l l' with
  | nil => rfl
  | cons c name ih =>
    cases h with
    | nil => rfl
    | cons hs hrest =>
      cases name with
      | nil => simp only [standsAt, hs.isCode, hs.closes]
      | cons d name => simp only [standsAt, hs.isCode, ih hrest]

theorem longest_matches {bindings bindings' : List Binding}
    (h : List.Forall₂ (Binding.Matches R) bindings bindings') :
    Option.Rel (Binding.Matches R) (longest bindings) (longest bindings') := by
  induction h with
  | nil => exact .none
  | @cons b b' more more' hb _ ih =>
    unfold longest
    generalize longest more = a at ih ⊢
    generalize longest more' = a' at ih ⊢
    cases ih with
    | none => exact .some hb
    | some ha =>
      simp only [ha.name, hb.name]
      split_ifs
      · exact .some ha
      · exact .some hb

theorem bindingAt_matches {bindings bindings' : List Binding} {l l' : List Spot}
    (hbindings : List.Forall₂ (Binding.Matches R) bindings bindings')
    (h : List.Forall₂ (Spot.Matches R) l l') :
    Option.Rel (Binding.Matches R) (bindingAt bindings l) (bindingAt bindings' l') := by
  cases h with
  | nil => exact .none
  | @cons s s' rest rest' hs hrest =>
    simp only [bindingAt, hs.code, hs.char, hs.opens]
    split_ifs
    · refine longest_matches (List.rel_filter ?_ hbindings)
      intro b b' hb
      have hsince := hb.since _ _ hs.offset
      simp only [hb.name, standsAt_congr (.cons hs hrest), hsince]
    · exact .none

theorem Spot.Matches.bindings (hR : InOrder R) {s s' : Spot} (h : s.Matches R s') (id : ModuleId) :
    List.Forall₂ (Binding.Matches R) (Spot.bindings id [s]) (Spot.bindings id [s']) := by
  have hdeclares := h.declares
  cases hd : s.declaration? with
  | none =>
    cases hd' : s'.declaration? with
    | none => simp [Spot.bindings, hd, hd']
    | some d' => simp [hd, hd'] at hdeclares
  | some d =>
    cases hd' : s'.declaration? with
    | none => simp [hd, hd'] at hdeclares
    | some d' =>
      have hname : d.name = d'.name := by simpa [hd, hd'] using hdeclares
      have hbinding : (d.binding id).Matches R (d'.binding id) := by
        refine ⟨hname, by simp only [Declaration.binding, hname], fun m n hmn => ?_⟩
        simp only [Declaration.binding, (of_declaration? hd).2, (of_declaration? hd').2]
        exact hR _ _ _ _ h.offset hmn
      simpa [Spot.bindings, hd, hd'] using hbinding

namespace Scopes

theorem Matches.close {scopes scopes' : Scopes} (h : scopes.Matches R scopes') :
    scopes.close.Matches R scopes'.close := by
  obtain ⟨top, below⟩ := scopes
  obtain ⟨top', below'⟩ := scopes'
  cases h.below with
  | nil => exact ⟨h.top, .nil⟩
  | cons houter hmore => exact ⟨houter, hmore⟩

theorem Matches.meet (hR : InOrder R) {scopes scopes' : Scopes} (h : scopes.Matches R scopes')
    (id : ModuleId) {s s' : Spot} (hs : s.Matches R s') :
    (scopes.meet id s).Matches R (scopes'.meet id s') := by
  rcases s.brace_cases with hopen | hclose | ⟨hopen, hclose⟩
  · rw [meet_open id _ hopen, meet_open id _ (hs.isCode _ ▸ hopen)]
    exact ⟨h.top, .cons h.top h.below⟩
  · rw [meet_close id _ hclose, meet_close id _ (hs.isCode _ ▸ hclose)]
    exact h.close
  · rw [meet_plain id _ hopen hclose,
      meet_plain id _ (hs.isCode _ ▸ hopen) (hs.isCode _ ▸ hclose)]
    exact ⟨List.rel_append h.top (hs.bindings hR id), h.below⟩

theorem Matches.foldl_meet (hR : InOrder R) {scopes scopes' : Scopes}
    (h : scopes.Matches R scopes') (id : ModuleId) {l l' : List Spot}
    (hl : List.Forall₂ (Spot.Matches R) l l') :
    (l.foldl (Scopes.meet id) scopes).Matches R (l'.foldl (Scopes.meet id) scopes') := by
  induction hl generalizing scopes scopes' with
  | nil => exact h
  | cons hs _ ih => exact ih (h.meet hR id hs)

theorem Matches.pass_eq (hR : InOrder R) {scopes scopes' : Scopes} (h : scopes.Matches R scopes')
    (id : ModuleId) {l l' : List Spot} (hl : List.Forall₂ (Spot.Matches R) l l') (skip : Nat) :
    scopes.pass id skip l = scopes'.pass id skip l' := by
  induction hl generalizing scopes scopes' skip with
  | nil => cases skip <;> rfl
  | @cons s s' rest rest' hs hrest ih =>
    have hmeet := h.meet hR id hs
    cases skip with
    | succ skip => exact ih hmeet skip
    | zero =>
      have hat := bindingAt_matches hmeet.top (.cons hs hrest)
      simp only [pass]
      generalize bindingAt (scopes.meet id s).top (s :: rest) = b at hat ⊢
      generalize bindingAt (scopes'.meet id s').top (s' :: rest') = b' at hat ⊢
      cases hat with
      | none => simp only [hs.char, ih hmeet]
      | some hb => simp only [hb.name, hb.qualified, ih hmeet]

end Scopes
end ScriptBundle
