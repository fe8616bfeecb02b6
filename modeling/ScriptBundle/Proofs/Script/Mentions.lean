import ScriptBundle.Proofs.Script.Declaring
import ScriptBundle.Proofs.Script.Replacement

/-! Where a declared name is replaced. The name may stand as a whole in many places of the block
that declares it, the declaration itself among them. It is replaced in those where a boundary stands
on both sides, and kept in the others. -/
namespace ScriptBundle

/-- The name is in the text between the two others as a whole identifier, all of it code. -/
structure IsMention (code name before after : Text) : Prop where
  code_eq : code = before ++ (name ++ after)
  marked : ∀ mark ∈ ((marks code).drop before.length).take name.length, mark = true
  begins : ∀ c ∈ before.getLast?, isIdentifierChar c = false
  ends : ∀ c ∈ after.head?, isIdentifierChar c = false

/-- The place is not before the `i`th character, and the block around that one is not closed. -/
structure InBlockOf (code : Text) (i : Nat) (before : Text) : Prop where
  le : i ≤ before.length
  stillOpen : StillOpen ((spots code).take before.length) i

theorem isMention_iff {code name before after : Text} : IsMention code name before after ↔
    code = before ++ (name ++ after) ∧
      (((marks code).drop before.length).take name.length).all id = true ∧
      before.getLast?.all (!isIdentifierChar ·) = true ∧
      after.head?.all (!isIdentifierChar ·) = true := by
  simp only [List.all_eq_true, Option.all_eq_true, id, Bool.not_eq_true']
  exact ⟨fun h => ⟨h.code_eq, h.marked, h.begins, h.ends⟩,
    fun ⟨hcode, hmarked, hbegins, hends⟩ => ⟨hcode, hmarked, hbegins, hends⟩⟩

instance (code name before after : Text) : Decidable (IsMention code name before after) :=
  decidable_of_iff _ isMention_iff.symm

instance (code : Text) (i : Nat) (before : Text) : Decidable (InBlockOf code i before) :=
  decidable_of_iff (i ≤ before.length ∧ StillOpen ((spots code).take before.length) i)
    ⟨fun ⟨hle, hopen⟩ => ⟨hle, hopen⟩, fun ⟨hle, hopen⟩ => ⟨hle, hopen⟩⟩

instance (before : Text) : Decidable before.OpensName :=
  decidable_of_iff _ Text.opensAfter_reverse_iff

instance (after : Text) : Decidable after.ClosesName := decidable_of_iff _ Text.closesBefore_iff

/-- A text stands in parts in place of a name, between what comes from two stretches of the
source. -/
def Copy.Replaces (parts : List Copy) (before name after qualified : Text) : Prop :=
  ∃ (front : List Copy) (spots : List Spot) (back : List Copy),
    parts = front ++ put spots qualified :: back ∧ Spot.text (front.flatMap source) = before ∧
      Spot.text spots = name ∧ Spot.text (back.flatMap source) = after

variable {code name before after : Text} {id : ModuleId}

theorem marked_spots {l m r : List Spot} (h : spots code = l ++ (m ++ r)) :
    ((marks code).drop (Spot.text l).length).take (Spot.text m).length = m.map Spot.code := by
  rw [marks, ← code_spotsFrom .start [] 0, ← spots, h]
  simp [Spot.text]

theorem IsMention.exists_spots (h : IsMention code name before after) :
    ∃ l m r, spots code = l ++ (m ++ r) ∧ Spot.text l = before ∧ Spot.text m = name ∧
      Spot.text r = after ∧ ∀ s ∈ m, s.code = true := by
  obtain ⟨l, m, r, hspots, rfl, rfl, rfl⟩ := exists_spots_eq before name after
  rw [List.append_assoc, ← h.code_eq, List.append_assoc] at hspots
  refine ⟨l, m, r, hspots, rfl, rfl, rfl, fun s hs => h.marked _ ?_⟩
  rw [marked_spots hspots]
  exact List.mem_map_of_mem hs

theorem isMention_of_spots {l m r : List Spot} (hspots : spots code = l ++ (m ++ r))
    (hcode : ∀ s ∈ m, s.code = true)
    (hbegins : ∀ c ∈ (Spot.text l).getLast?, isIdentifierChar c = false)
    (hends : ∀ c ∈ (Spot.text r).head?, isIdentifierChar c = false) :
    IsMention code (Spot.text m) (Spot.text l) (Spot.text r) := by
  refine ⟨?_, fun mark hmark => ?_, hbegins, hends⟩
  · rw [← text_spots code, hspots, Spot.text_append, Spot.text_append]
  · rw [marked_spots hspots] at hmark
    obtain ⟨s, hs, rfl⟩ := List.mem_map.mp hmark
    exact hcode s hs

namespace Scopes

theorem bindingAt_of_kept {scopes : Scopes} {skip : Nat} {spots : List Spot} {s : Spot}
    {front back : List Copy} (h : scopes.copies id skip spots = front ++ .kept s :: back) :
    ∃ l r, spots = l ++ s :: r ∧ l.length = skip + (front.flatMap Copy.source).length ∧
      bindingAt ((l ++ [s]).foldl (meet id) scopes).top (s :: r) = none := by
  induction spots generalizing scopes skip front with
  | nil => cases skip <;> simp [copies] at h
  | cons t spots ih =>
    cases skip with
    | succ skip =>
      obtain ⟨l, r, rfl, hlength, hnone⟩ := ih h
      exact ⟨t :: l, r, rfl, by simp only [List.length_cons]; omega, hnone⟩
    | zero =>
      simp only [copies] at h
      cases hb : bindingAt (scopes.meet id t).top (t :: spots) with
      | some b =>
        rw [hb] at h
        cases front with
        | nil => simp at h
        | cons part front =>
          obtain ⟨rfl, hrest⟩ := List.cons.inj h
          obtain ⟨l, r, rfl, hlength, hnone⟩ := ih hrest
          refine ⟨t :: l, r, rfl, ?_, hnone⟩
          have hstands := (of_bindingAt hb).2.2
          have hpos := List.length_pos_iff.mpr (ne_nil_of_standsAt hstands)
          have hle := length_le_of_standsAt hstands
          simp only [List.flatMap_cons, Copy.source, List.length_append, List.length_take,
            List.length_cons] at hle ⊢
          omega
      | none =>
        rw [hb] at h
        cases front with
        | nil =>
          obtain ⟨hkept, -⟩ := List.cons.inj h
          obtain rfl := Copy.kept.inj hkept
          exact ⟨[], spots, rfl, rfl, hb⟩
        | cons part front =>
          obtain ⟨rfl, hrest⟩ := List.cons.inj h
          obtain ⟨l, r, rfl, hlength, hnone⟩ := ih hrest
          refine ⟨t :: l, r, rfl, ?_, hnone⟩
          simp only [List.flatMap_cons, Copy.source, List.length_append, List.length_cons,
            List.length_nil]
          omega

/-- What is at hand behind spots is the seed and what the open blocks bind. -/
theorem top_foldl_meet (id : ModuleId) (seed : List Binding) (l : List Spot) :
    (l.foldl (meet id) ⟨seed, []⟩).top = seed ++ openBindings id l := by
  rw [foldl_meet, ofLevels, boundWithin_eq_openBindings le_rfl]

end Scopes

theorem mem_openBindings {l : List Spot} {i : Nat} {s t : Spot} {d : Declaration}
    (hs : (l ++ [t])[i]? = some s) (hd : s.declaration? = some d) (hi : i ≤ l.length)
    (hopen : StillOpen l i) (ht : isBrace t.char = false) :
    d.binding id ∈ openBindings id (l ++ [t]) := by
  have hplain : ∀ c, isBrace c = true → t.isCode c = false := by
    intro c hc
    rw [← Bool.not_eq_true]
    intro hcode
    rw [Spot.isBrace_of_isCode hcode hc] at ht
    cases ht
  have hstill : StillOpen (l ++ [t]) i := by
    refine (stillOpen_append_iff hi).mpr ⟨hopen, ?_⟩
    rw [nesting_append_plain l (hplain _ rfl) (hplain _ rfl)]
    exact hopen.nesting_le hi
  have hbinds : d.binding id ∈ Spot.bindings id (l ++ [t])[i]?.toList := by
    simp [hs, Spot.bindings, hd]
  refine List.mem_flatMap.mpr ⟨i, List.mem_range.mpr ?_, ?_⟩
  · simp only [List.length_append, List.length_singleton]
    omega
  · rwa [if_pos hstill]

theorem bindingAt_ne_none {bindings : List Binding} {b : Binding} {s : Spot} {r : List Spot}
    (hb : b ∈ bindings)
    (hs : (s.code && isIdentifierChar s.char && Spot.opensAfter s.before) = true)
    (hsince : b.since ≤ s.offset) (hstands : standsAt b.name (s :: r) = true) :
    bindingAt bindings (s :: r) ≠ none := by
  intro hnone
  rw [bindingAt, if_pos hs] at hnone
  have hnot := List.filter_eq_nil_iff.mp (longest_eq_none hnone) b hb
  simp [hsince, hstands] at hnot

theorem eq_of_append_eq_append {x y : Text} (hx : ∀ c ∈ x, isIdentifierChar c = true)
    (hname : ∀ c ∈ name, isIdentifierChar c = true)
    (hy : ∀ c ∈ y.head?, isIdentifierChar c = false)
    (hafter : ∀ c ∈ after.head?, isIdentifierChar c = false) (h : x ++ y = name ++ after) :
    x = name ∧ y = after := by
  have hleft := Text.span_append hx hy
  have hright := Text.span_append hname hafter
  exact ⟨hleft.1.symm.trans (h ▸ hright.1), hleft.2.symm.trans (h ▸ hright.2)⟩

theorem ne_nil_of_put {seed : List Binding} {front back : List Copy} {replaced : List Spot}
    {qualified : Text} (h : copies code id seed = front ++ .put replaced qualified :: back) :
    replaced ≠ [] := by
  have hput : .put replaced qualified ∈ copies code id seed := by simp [h]
  obtain ⟨b, -, hputBy⟩ := putBy_of_mem_copies code id hput
  obtain ⟨s, rest, rfl, -⟩ := hputBy.exists_cons
  exact List.cons_ne_nil s rest

/-- A name that is replaced lies before a mention of another, or behind it, or is the same. -/
theorem IsMention.apart (h : IsMention code name before after) (hname : isIdentifier name = true)
    {front back : List Copy} {replaced : List Spot} {qualified : Text}
    (hparts : copies code id [] = front ++ .put replaced qualified :: back) :
    (front.flatMap Copy.source).length + replaced.length ≤ before.length ∨
      before.length + name.length ≤ (front.flatMap Copy.source).length ∨
      (front.flatMap Copy.source).length = before.length ∧ Spot.text replaced = name ∧
        qualified = id.qualify name ∧ before.OpensName ∧ after.ClosesName := by
  have hput : .put replaced qualified ∈ copies code id [] := by
    rw [hparts]
    simp
  obtain ⟨b, hb, hputBy⟩ := putBy_of_mem_copies code id hput
  obtain ⟨hidentifier, hqualified⟩ := hb.resolve_left List.not_mem_nil
  have hsource := source_copies code id []
  rw [hparts, List.flatMap_append, List.flatMap_cons, Copy.source, ← List.append_assoc] at hsource
  obtain ⟨haround, hopens, hcloses⟩ := hputBy.around hsource.symm
  have hchars : ∀ c ∈ name, isIdentifierChar c = true :=
    fun c => isIdentifierChar_of_isIdentifier hname
  have hchars' : ∀ c ∈ b.name, isIdentifierChar c = true :=
    fun c => isIdentifierChar_of_isIdentifier hidentifier
  have hlength : ∀ {x : List Spot} {t : Text}, Spot.text x = t → x.length = t.length := by
    rintro x _ rfl
    exact (List.length_map ..).symm
  rw [hlength hputBy.text_eq, hlength (x := front.flatMap Copy.source) rfl]
  rw [List.append_assoc, h.code_eq] at haround
  generalize Spot.text (front.flatMap Copy.source) = outer at *
  generalize Spot.text (back.flatMap Copy.source) = rest at *
  -- Where both begin at one place they are one name.
  have hsame : name ++ after = b.name ++ rest → outer = before →
      outer.length = before.length ∧ Spot.text replaced = name ∧ qualified = id.qualify name ∧
        before.OpensName ∧ after.ClosesName := by
    rintro hone rfl
    have hrest : ∀ c ∈ rest.head?, isIdentifierChar c = false := fun c hc =>
      isIdentifierChar_of_isBoundary (Text.closesBefore_iff.mp hcloses c hc)
    obtain ⟨hname', rfl⟩ := eq_of_append_eq_append hchars hchars' h.ends hrest hone
    rw [hputBy.text_eq, hputBy.qualified_eq, hqualified, hname']
    exact ⟨rfl, rfl, rfl, Text.opensAfter_reverse_iff.mp hopens, Text.closesBefore_iff.mp hcloses⟩
  rcases List.append_eq_append_iff.mp haround with ⟨x, rfl, hx⟩ | ⟨x, rfl, hx⟩
  · rcases List.append_eq_append_iff.mp hx with ⟨y, rfl, -⟩ | ⟨y, rfl, -⟩
    · refine Or.inr (Or.inl ?_)
      simp only [List.length_append]
      omega
    · rcases List.eq_nil_or_concat' x with rfl | ⟨init, c, rfl⟩
      · exact Or.inr (Or.inr (hsame hx (List.append_nil before)))
      · rw [← List.append_assoc, List.reverse_concat] at hopens
        have hc := Spot.not_isIdentifierChar_of_opensAfter hopens
        rw [hchars c (by simp)] at hc
        cases hc
  · rcases List.append_eq_append_iff.mp hx with ⟨y, rfl, -⟩ | ⟨y, hy, -⟩
    · refine Or.inl ?_
      simp only [List.length_append]
      omega
    · rcases List.eq_nil_or_concat' x with rfl | ⟨init, c, rfl⟩
      · exact Or.inr (Or.inr (hsame hx.symm (List.append_nil outer).symm))
      · have hc := h.begins c (by simp)
        rw [hchars' c (by simp [hy])] at hc
        cases hc

section

variable {i : Nat} {s : Spot} {d : Declaration}

theorem IsMention.bindingAt_ne_none (h : IsMention code d.name before after)
    (hs : (spots code)[i]? = some s) (hd : s.declaration? = some d)
    (hin : InBlockOf code i before) (hopens : before.OpensName) (hcloses : after.ClosesName)
    {l m r : List Spot} {t : Spot} (hspots : spots code = l ++ (t :: m ++ r))
    (hl : Spot.text l = before) (hm : Spot.text (t :: m) = d.name) (hr : Spot.text r = after) :
    bindingAt ((l ++ [t]).foldl (Scopes.meet id) ⟨[], []⟩).top (t :: m ++ r) ≠ none := by
  obtain ⟨hname, hoffset⟩ := Spot.of_declaration? hd
  have hlength : l.length = before.length := by simp [← hl, Spot.text]
  have hle : i ≤ l.length := hlength ▸ hin.le
  have hcut : spots code = (l ++ [t]) ++ (m ++ r) := by simp [hspots]
  have hs' : (l ++ [t])[i]? = some s := by
    rwa [hcut, List.getElem?_append_left (by simp; omega)] at hs
  have ht : isIdentifierChar t.char = true :=
    isIdentifierChar_of_isIdentifier hname (by simp [← hm, Spot.text])
  have hstill : StillOpen l i := by
    have := hin.stillOpen
    rwa [hspots, ← hlength, List.take_left] at this
  have hsince : d.offset ≤ Text.width before := by
    rw [hoffset, ← hl]
    rcases Nat.lt_or_eq_of_le hle with hlt | rfl
    · rw [List.getElem?_append_left hlt] at hs'
      exact ((offset_of_spots_eq_append hspots).1 s (List.mem_of_getElem? hs')).le
    · obtain rfl : t = s := by simpa using hs'
      exact (spots_offset_eq hspots).le
  have hoccurs : (d.binding id).Occurs before after := by
    refine ⟨hsince, ⟨t.char, by simp [Declaration.binding, ← hm, Spot.text], ht⟩, ?_, hopens,
      hcloses⟩
    have hmarked := h.marked
    rwa [h.code_eq] at hmarked
  rw [← hl, ← hr] at hoccurs
  obtain ⟨hbegins, hsince', hcode, hlast⟩ := (occurs_iff hspots hm).mp hoccurs
  refine ScriptBundle.bindingAt_ne_none (b := d.binding id) ?_ hbegins hsince' ?_
  · rw [Scopes.top_foldl_meet, List.nil_append]
    exact mem_openBindings hs' hd hle hstill
      (not_isBrace_of_isNameChar (isNameChar_of_isIdentifierChar ht))
  · exact standsAt_iff_exists.mpr ⟨t :: m, r, rfl, hm, hcode, hlast⟩

theorem IsMention.replaces (h : IsMention code d.name before after) (id : ModuleId)
    (hs : (spots code)[i]? = some s) (hd : s.declaration? = some d)
    (hin : InBlockOf code i before) (hopens : before.OpensName) (hcloses : after.ClosesName) :
    Copy.Replaces (copies code id []) before d.name after (id.qualify d.name) := by
  have hname := (Spot.of_declaration? hd).1
  obtain ⟨l, m, r, hspots, hl, hm, hr, -⟩ := h.exists_spots
  have hlength : l.length = before.length := by simp [← hl, Spot.text]
  have hlength' : m.length = d.name.length := by simp [← hm, Spot.text]
  have hpos := List.length_pos_iff.mpr (Declaration.ne_nil_of_isIdentifier hname)
  have hsource : (copies code id []).flatMap Copy.source = l ++ (m ++ r) :=
    (source_copies code id []).trans hspots
  obtain ⟨front, back, hparts, hfront, hback⟩ := Copy.exists_cut hsource
    fun front name qualified back hparts => by
      rcases h.apart hname hparts with hbefore | hbehind | ⟨hsame, -⟩ <;> omega
  obtain ⟨t, m, rfl⟩ := List.exists_cons_of_ne_nil (List.length_pos_iff.mp (hlength' ▸ hpos))
  cases back with
  | nil => simp at hback
  | cons part back =>
    cases part with
    | kept u =>
      obtain ⟨l', r', hspots', hlength'', hnone⟩ := Scopes.bindingAt_of_kept hparts
      rw [hfront, Nat.zero_add] at hlength''
      obtain ⟨rfl, hrest⟩ := List.append_inj (hspots'.symm.trans hspots) hlength''
      obtain ⟨rfl, rfl⟩ := List.cons.inj hrest
      exact absurd hnone (h.bindingAt_ne_none hs hd hin hopens hcloses hspots hl hm hr)
    | put replaced qualified =>
      have hreplaced := List.length_pos_iff.mpr (ne_nil_of_put hparts)
      rcases h.apart hname hparts with hbefore | hbehind | ⟨-, htext, rfl, -⟩
      · rw [hfront] at hbefore
        omega
      · rw [hfront] at hbehind
        omega
      · have hlength'' : replaced.length = (t :: m).length := by
          rw [hlength', ← htext]
          simp [Spot.text]
        obtain ⟨-, hrest⟩ := List.append_inj (by simpa [Copy.source] using hback) hlength''
        exact ⟨front, replaced, back, hparts, by rw [hfront, hl], htext, by rw [hrest, hr]⟩

theorem IsMention.stands (h : IsMention code name before after) (id : ModuleId)
    (hname : isIdentifier name = true) (hnot : ¬ (before.OpensName ∧ after.ClosesName)) :
    Copy.Stands (copies code id []) before name after := by
  obtain ⟨l, m, r, hspots, hl, hm, hr, -⟩ := h.exists_spots
  have hlength : l.length = before.length := by simp [← hl, Spot.text]
  have hlength' : m.length = name.length := by simp [← hm, Spot.text]
  have hsource : (copies code id []).flatMap Copy.source = l ++ m ++ r :=
    (source_copies code id []).trans (by simp [hspots])
  obtain ⟨front, back, hparts, hfront, hback⟩ := Copy.exists_kept hsource
    fun front replaced qualified back hparts => by
      refine ⟨ne_nil_of_put hparts, ?_⟩
      rcases h.apart hname hparts with hbefore | hbehind | ⟨-, -, -, hbounded⟩
      · omega
      · omega
      · exact absurd hbounded hnot
  exact ⟨front, m, back, hparts, by rw [hfront, hl], hm, by rw [hback, hr]⟩

theorem isBrace_of_isWordChar {c : Char} (h : isWordChar c = true) : isBrace c = false := by
  rw [← Bool.not_eq_true]
  intro hbrace
  rcases eq_of_isBrace hbrace with rfl | rfl <;> cases h

theorem stillOpen_of_plain (l : List Spot) {x : List Spot}
    (hx : ∀ t ∈ x, isBrace t.char = false) : StillOpen (l ++ x) l.length := by
  have hnesting : ∀ y, (∀ t ∈ y, isBrace t.char = false) → nesting (l ++ y) = nesting l := by
    intro y hy
    induction y using List.reverseRecOn with
    | nil => simp
    | append_singleton y t ih =>
      have ht := hy t (by simp)
      have hplain : ∀ c, isBrace c = true → t.isCode c = false := fun c hc => by
        rw [← Bool.not_eq_true]
        intro hcode
        simp [Spot.isBrace_of_isCode hcode hc] at ht
      rw [← List.append_assoc, nesting_append_plain _ (hplain _ rfl) (hplain _ rfl),
        ih fun u hu => hy u (by simp [hu])]
  intro j hj _
  obtain ⟨k, rfl⟩ := Nat.exists_eq_add_of_le hj
  rw [List.take_left, List.take_length_add_append,
    hnesting _ fun t ht => hx t (List.mem_of_mem_take ht)]

theorem code_of_words {state : LexState} {before : Text} {offset : Nat} {l p r : List Spot}
    (h : spotsFrom state before offset code = l ++ (s :: p ++ r)) (hs : s.code = true)
    (hchar : isIdentifierChar s.char = true) (hp : ∀ t ∈ p, isWordChar t.char = true) :
    ∀ t ∈ p, t.code = true := by
  have hnext : ∀ {state : LexState} {p : List Spot} {before : Text} {offset : Nat} {code : Text},
      state.InCode → (∀ t ∈ p, isWordChar t.char = true) →
      spotsFrom state before offset code = p ++ r → ∀ t ∈ p, t.code = true := by
    intro state p
    induction p with
    | nil => simp
    | cons t p ih =>
      intro before offset code hstate hp h
      cases code with
      | nil => simp [spotsFrom] at h
      | cons c code =>
        obtain ⟨rfl, hrest⟩ := List.cons.inj h
        obtain ⟨hc, hp'⟩ := List.forall_mem_cons.mp hp
        rw [state.step_isWordChar hstate hc] at hrest
        refine List.forall_mem_cons.mpr ⟨?_, ih hstate hp' hrest⟩
        simp only [state.step_isWordChar hstate hc]
  induction l generalizing state before offset code with
  | nil =>
    cases code with
    | nil => simp [spotsFrom] at h
    | cons c code =>
      obtain ⟨rfl, hrest⟩ := List.cons.inj h
      have hname : isNameChar c = true := isNameChar_of_isIdentifierChar hchar
      have hstate : state.InCode := LexState.inCode_of_step hname hs
      rw [LexState.step_isNameChar hstate hname] at hrest
      exact hnext hstate hp hrest
  | cons t l ih =>
    cases code with
    | nil => simp [spotsFrom] at h
    | cons c code => exact ih (List.cons.inj h).2

theorem exists_mention (hs : (spots code)[i]? = some s) (hd : s.declaration? = some d) :
    ∃ gap after, (∀ c ∈ gap, isBlank c = true) ∧
      InBlockOf code i (code.take i ++ (d.keyword.text ++ gap)) ∧
      IsMention code d.name (code.take i ++ (d.keyword.text ++ gap)) after := by
  obtain ⟨hmark, -, -, rest, hkeyword, ⟨e, he, hblank⟩, hdeclares⟩ :=
    Spot.declaration?_eq_some_iff.mp hd
  obtain ⟨gap, back, rfl, hgap, hname, hback⟩ := hdeclares.exists_eq
  have hgap' : ∀ c ∈ gap.getLast?, isIdentifierChar c = false := fun c hc =>
    not_isIdentifierChar_of_isBlank (hgap c (List.mem_of_getLast? hc))
  have hne : gap ≠ [] := by
    rintro rfl
    rw [List.nil_append, List.head?_append_of_ne_nil _ (Declaration.ne_nil_of_isIdentifier hname)]
      at he
    rw [Declaration.not_isBlank_of_isIdentifier hname (List.mem_of_head? he)] at hblank
    cases hblank
  obtain ⟨hi, hsi⟩ := List.getElem?_eq_some_iff.mp hs
  have hcut : spots code = (spots code).take i ++ s :: (spots code).drop (i + 1) := by
    rw [← hsi, ← List.drop_eq_getElem_cons hi, List.take_append_drop]
  have hbefore : Spot.text ((spots code).take i) = code.take i := by
    rw [Spot.text, List.map_take, ← Spot.text, text_spots]
  have hbehind : Spot.text (s :: (spots code).drop (i + 1)) =
      d.keyword.text ++ gap ++ (d.name ++ back) := by
    rw [List.append_assoc, ← hkeyword, (spots_around hcut).2]
    rfl
  have hlength : ((spots code).take i).length = i := List.length_take_of_le hi.le
  generalize (spots code).take i = l at hcut hbefore hlength
  generalize (spots code).drop (i + 1) = r at hcut hbehind
  obtain ⟨x, y, hxy, hx, hy⟩ := List.map_eq_append_iff.mp hbehind
  obtain ⟨m, w, rfl, hm, rfl⟩ := List.map_eq_append_iff.mp hy
  obtain ⟨c, t, hc, hchar⟩ := d.keyword.exists_cons
  obtain ⟨u, x, rfl, hu, -⟩ := List.map_eq_cons_iff.mp (hx.trans (by rw [hc]; rfl))
  obtain ⟨rfl, rfl⟩ := List.cons.inj hxy
  have hwords : ∀ v ∈ s :: x, isWordChar v.char = true := by
    intro v hv
    have hmem : v.char ∈ d.keyword.text ++ gap := hx ▸ List.mem_map_of_mem hv
    rcases List.mem_append.mp hmem with hmem | hmem
    · exact isWordChar_keyword d.keyword hmem
    · exact isWordChar_of_isBlank (hgap _ hmem)
  have hfront : code.take i ++ (d.keyword.text ++ gap) = Spot.text (l ++ s :: x) := by
    rw [Spot.text_append, hbefore, Spot.text, hx]
  have hspots : spots code = (l ++ s :: x) ++ (m ++ w) := by simp [hcut]
  refine ⟨gap, Spot.text w, hgap, ⟨?_, ?_⟩, ?_⟩
  · simp [hfront, Spot.text, hlength]
  · rw [hfront, hspots, List.take_left' (by simp [Spot.text]), ← hlength]
    exact stillOpen_of_plain l fun v hv => isBrace_of_isWordChar (hwords v hv)
  · rw [hfront, ← hm]
    refine isMention_of_spots hspots (fun v hv => ?_) ?_ hback
    · refine code_of_words (p := x ++ m) (r := w) (by simpa [spots] using hcut) hmark (hu ▸ hchar)
        (fun v hv => ?_) v (by simp [hv])
      rcases List.mem_append.mp hv with hv | hv
      · exact hwords v (List.mem_cons_of_mem s hv)
      · exact isWordChar_of_isIdentifier hname (hm ▸ List.mem_map_of_mem hv)
    · rw [← hfront, ← List.append_assoc, List.getLast?_append_of_ne_nil _ hne]
      exact hgap'

end

/-- **A declared name is replaced wherever it stands between boundaries.** Take any mention of the
name, no earlier than the declaration and in its block or a block in that one. With a boundary on
each side, and before it no dot but the last of a spread, the mention is a part of the text that
gives way to the qualified name; else it is kept. The name in the declaration itself is such a
mention, whatever blanks stand before it. -/
theorem mentions_of_declaration (code : Text) (id : ModuleId) {i : Nat} {s : Spot} {d : Declaration}
    (hs : (spots code)[i]? = some s) (hd : s.declaration? = some d) :
    let parts := copies code id []
    parts.flatMap Copy.source = spots code ∧
      parts.flatMap Copy.text = (namespaceModule code id []).code ∧
      (∃ gap after, (∀ c ∈ gap, isBlank c = true) ∧
        InBlockOf code i (code.take i ++ (d.keyword.text ++ gap)) ∧
        IsMention code d.name (code.take i ++ (d.keyword.text ++ gap)) after) ∧
      ∀ before after, IsMention code d.name before after → InBlockOf code i before →
        (before.OpensName ∧ after.ClosesName →
          Copy.Replaces parts before d.name after (id.qualify d.name)) ∧
        (¬ (before.OpensName ∧ after.ClosesName) → Copy.Stands parts before d.name after) :=
  ⟨source_copies code id [], text_copies code id (by simp), exists_mention hs hd,
    fun _ _ h hin => ⟨fun hbounded => h.replaces id hs hd hin hbounded.1 hbounded.2,
      h.stands id (Spot.of_declaration? hd).1⟩⟩

/-- A use in a block inside, and one behind a dot. -/
theorem mentions_of_declaration_dotted :
    let code := "let x = 1; \x7bx\x7d a.x".toList
    ∃ s d, (spots code)[0]? = some s ∧ s.declaration? = some d ∧
      Copy.Replaces (copies code ⟨['M']⟩ []) "let x = 1; \x7b".toList ['x'] "\x7d a.x".toList
        "M_x".toList ∧
      Copy.Stands (copies code ⟨['M']⟩ []) "let x = 1; \x7bx\x7d a.".toList ['x'] [] := by
  intro code
  have hdeclared : (spots code)[0]?.bind Spot.declaration? = some ⟨.let, ['x'], 0⟩ := by
    decide +kernel
  obtain ⟨s, hs, hd⟩ := Option.bind_eq_some_iff.mp hdeclared
  obtain ⟨-, -, -, hmentions⟩ := mentions_of_declaration code ⟨['M']⟩ hs hd
  have hbounded := hmentions "let x = 1; \x7b".toList "\x7d a.x".toList
    (by decide +kernel) (by decide +kernel)
  have hdotted := hmentions "let x = 1; \x7bx\x7d a.".toList []
    (by decide +kernel) (by decide +kernel)
  exact ⟨s, _, hs, hd, hbounded.1 (by decide +kernel), hdotted.2 (by decide +kernel)⟩

/-- A blank that is no boundary: the declaration keeps the name that its use loses. -/
theorem mentions_of_declaration_blank :
    let code := "let\u00a0x = 1; x".toList
    ∃ s d, (spots code)[0]? = some s ∧ s.declaration? = some d ∧
      IsMention code d.name "let\u00a0".toList " = 1; x".toList ∧
      InBlockOf code 0 "let\u00a0".toList ∧
      (namespaceModule code ⟨['M']⟩ []).code = "let\u00a0x = 1; M_x".toList := by
  intro code
  have hdeclared : (spots code)[0]?.bind Spot.declaration? = some ⟨.let, ['x'], 0⟩ := by
    decide +kernel
  obtain ⟨s, hs, hd⟩ := Option.bind_eq_some_iff.mp hdeclared
  exact ⟨s, _, hs, hd, by decide +kernel, by decide +kernel, by decide +kernel⟩

end ScriptBundle
