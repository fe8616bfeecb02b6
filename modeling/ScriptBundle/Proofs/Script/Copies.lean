import ScriptBundle.Proofs.Script.Scopes

/-! Where a namespaced text comes from. It is made of parts: spots of the source that are kept, and
qualified names that are put in place of names. Together the parts make up the whole source, in its
order. -/
namespace ScriptBundle

/-- A part of a namespaced text. -/
inductive Copy
  | kept (s : Spot)
  /-- A text in place of the spots of a name. -/
  | put (name : List Spot) (qualified : Text)

namespace Copy

def source : Copy → List Spot
  | kept s => [s]
  | put name _ => name

def text : Copy → Text
  | kept s => [s.char]
  | put _ qualified => qualified

end Copy

namespace Scopes

/-- The parts that the pass writes after `skip` spots that belong to a name already replaced. -/
def copies (id : ModuleId) : Scopes → Nat → List Spot → List Copy
  | _, _, [] => []
  | scopes, skip + 1, s :: rest => copies id (scopes.meet id s) skip rest
  | scopes, 0, s :: rest =>
    let scopes := scopes.meet id s
    match bindingAt scopes.top (s :: rest) with
    | some b =>
      .put ((s :: rest).take b.name.length) b.qualified ::
        copies id scopes (b.name.length - 1) rest
    | none => .kept s :: copies id scopes 0 rest

theorem text_copies (id : ModuleId) (scopes : Scopes) (skip : Nat) (spots : List Spot) :
    (scopes.copies id skip spots).flatMap Copy.text = scopes.pass id skip spots := by
  induction spots generalizing scopes skip with
  | nil => cases skip <;> rfl
  | cons s spots ih =>
    cases skip with
    | succ skip => exact ih _ _
    | zero =>
      simp only [copies, pass]
      cases bindingAt (scopes.meet id s).top (s :: spots) with
      | none => simp [Copy.text, ih]
      | some b => simp [Copy.text, ih]

theorem source_copies (id : ModuleId) (scopes : Scopes) (skip : Nat) (spots : List Spot) :
    (scopes.copies id skip spots).flatMap Copy.source = spots.drop skip := by
  induction spots generalizing scopes skip with
  | nil => cases skip <;> rfl
  | cons s spots ih =>
    cases skip with
    | succ skip => exact ih _ _
    | zero =>
      simp only [copies]
      cases hb : bindingAt (scopes.meet id s).top (s :: spots) with
      | none => simp [Copy.source, ih]
      | some b =>
        obtain ⟨n, hn⟩ := Nat.exists_eq_succ_of_ne_zero
          (List.length_pos_iff.mpr (ne_nil_of_standsAt (of_bindingAt hb).2.2)).ne'
        simp [Copy.source, ih, hn]

end Scopes

theorem opensAfter_of_bindingAt {bindings : List Binding} {s : Spot} {rest : List Spot}
    {b : Binding} (h : bindingAt bindings (s :: rest) = some b) :
    Spot.opensAfter s.before = true := by
  simp only [bindingAt] at h
  split at h
  · next hopens => exact (Bool.and_eq_true_iff.mp hopens).2
  · simp at h

theorem Spot.not_isIdentifierChar_of_opensAfter {c : Char} {before : Text}
    (h : Spot.opensAfter (c :: before) = true) : isIdentifierChar c = false := by
  by_cases hdot : c = '.'
  · rw [hdot]
    rfl
  · rw [Spot.opensAfter] at h
    · exact isIdentifierChar_of_isBoundary h
    all_goals simp [hdot]

namespace Copy

/-- The binding puts its qualified name in place of the spots: they are code, spell its name, and
stand as a whole. -/
structure PutBy (b : Binding) (name : List Spot) (qualified : Text) : Prop where
  qualified_eq : qualified = b.qualified
  text_eq : Spot.text name = b.name
  code : ∀ s ∈ name, s.code = true
  opens : ∃ s, name.head? = some s ∧ Spot.opensAfter s.before = true
  closes : ∃ s, name.getLast? = some s ∧ Spot.closesBefore s.after = true

end Copy

theorem putBy_of_bindingAt {bindings : List Binding} {s : Spot} {rest : List Spot} {b : Binding}
    (h : bindingAt bindings (s :: rest) = some b) :
    Copy.PutBy b ((s :: rest).take b.name.length) b.qualified := by
  obtain ⟨front, last, more, hspots, hname, hfront, hlast, hend⟩ :=
    standsAt_iff.mp (of_bindingAt h).2.2
  have hcover : (s :: rest).take b.name.length = front ++ [last] := by
    rw [hspots, hname, take_text]
  have hhead : ((s :: rest).take b.name.length).head? = some s := by
    rw [List.head?_take, if_neg (by simp [hname])]
    rfl
  refine ⟨rfl, ?_, ?_, ⟨s, hhead, opensAfter_of_bindingAt h⟩, last, by simp [hcover], hend⟩
  · rw [hcover, hname]
    simp [Spot.text]
  · rw [hcover]
    intro t ht
    rcases List.mem_append.mp ht with ht | ht
    · exact hfront t ht
    · exact List.mem_singleton.mp ht ▸ hlast

theorem Copy.PutBy.exists_cons {b : Binding} {name : List Spot} {qualified : Text}
    (h : Copy.PutBy b name qualified) :
    ∃ s rest, name = s :: rest ∧ Spot.opensAfter s.before = true := by
  obtain ⟨s, hs, hopens⟩ := h.opens
  cases name with
  | nil => simp at hs
  | cons t rest =>
    obtain rfl : t = s := by simpa using hs
    exact ⟨t, rest, rfl, hopens⟩

/-- A binding of the seed, or one that a declaration of the module makes. -/
def Binding.Made (id : ModuleId) (seed : List Binding) (b : Binding) : Prop :=
  b ∈ seed ∨ isIdentifier b.name = true ∧ b.qualified = id.qualify b.name

theorem Spot.made_of_mem_bindings {id : ModuleId} {own : List Spot} {b : Binding}
    (seed : List Binding) (h : b ∈ Spot.bindings id own) : b.Made id seed := by
  obtain ⟨d, hd, rfl⟩ := List.mem_map.mp h
  obtain ⟨s, -, hsd⟩ := List.mem_filterMap.mp hd
  exact Or.inr ⟨(of_declaration? hsd).1, rfl⟩

theorem Scopes.putBy_of_mem_copies {id : ModuleId} {seed : List Binding} {scopes : Scopes}
    (hscopes : scopes.All (Binding.Made id seed)) {skip : Nat} {spots : List Spot}
    {name : List Spot} {qualified : Text} (h : .put name qualified ∈ scopes.copies id skip spots) :
    ∃ b, b.Made id seed ∧ Copy.PutBy b name qualified := by
  induction spots generalizing scopes skip with
  | nil => cases skip <;> simp [copies] at h
  | cons s spots ih =>
    have hnext : (scopes.meet id s).All (Binding.Made id seed) :=
      hscopes.meet fun b hb => Spot.made_of_mem_bindings seed hb
    cases skip with
    | succ skip => exact ih hnext h
    | zero =>
      simp only [copies] at h
      split at h
      · next b hb =>
        rcases List.mem_cons.mp h with h | h
        · obtain ⟨rfl, rfl⟩ := Copy.put.inj h
          exact ⟨b, hnext.1 b (of_bindingAt hb).1, putBy_of_bindingAt hb⟩
        · exact ih hnext h
      · exact ih hnext (by simpa using h)

def copies (code : Text) (id : ModuleId) (seed : List Binding) : List Copy :=
  Scopes.copies id ⟨seed, []⟩ 0 (spots code)

section

variable (code : Text) (id : ModuleId) {seed : List Binding}

theorem source_copies (seed : List Binding) :
    (copies code id seed).flatMap Copy.source = spots code :=
  Scopes.source_copies id ⟨seed, []⟩ 0 (spots code)

theorem text_copies (hseed : ∀ b ∈ seed, b.Braceless) :
    (copies code id seed).flatMap Copy.text = (namespaceModule code id seed).code := by
  rw [copies, Scopes.text_copies, ← Block.namespaced_whole id hseed (spots_offset code)]
  rfl

theorem putBy_of_mem_copies {name : List Spot} {qualified : Text}
    (h : .put name qualified ∈ copies code id seed) :
    ∃ b, b.Made id seed ∧ Copy.PutBy b name qualified :=
  Scopes.putBy_of_mem_copies ⟨fun b hb => Or.inl hb, by simp⟩ h

end

end ScriptBundle
