import ScriptBundle.Proofs.Script.Copies

/-! The parts of a namespaced text for any seed. Where a name of the seed holds a brace, one pass
over the whole text may find it where the blocks do not; so the parts are those of the blocks. Each
is a spot that is kept, or a text in place of a name that stands in the source as a whole. -/
namespace ScriptBundle

/-- The parts that spots with their names replaced are made of, after `skip` that are left out. -/
def renameParts (bindings : List Binding) : Nat → List Spot → List Copy
  | _, [] => []
  | skip + 1, _ :: rest => renameParts bindings skip rest
  | 0, s :: rest =>
    match bindingAt bindings (s :: rest) with
    | some b =>
      .put ((s :: rest).take b.name.length) b.qualified ::
        renameParts bindings (b.name.length - 1) rest
    | none => .kept s :: renameParts bindings 0 rest

section

variable (bindings : List Binding) (skip : Nat) (spots : List Spot)

theorem text_renameParts :
    (renameParts bindings skip spots).flatMap Copy.text = renameFrom bindings skip spots := by
  induction spots generalizing skip with
  | nil => cases skip <;> rfl
  | cons s spots ih =>
    cases skip with
    | succ skip => exact ih skip
    | zero =>
      simp only [renameParts, renameFrom]
      cases bindingAt bindings (s :: spots) <;> simp [Copy.text, ih]

theorem source_renameParts :
    (renameParts bindings skip spots).flatMap Copy.source = spots.drop skip := by
  induction spots generalizing skip with
  | nil => cases skip <;> rfl
  | cons s spots ih =>
    cases skip with
    | succ skip => exact ih skip
    | zero =>
      simp only [renameParts]
      cases hb : bindingAt bindings (s :: spots) with
      | none => simp [Copy.source, ih]
      | some b =>
        obtain ⟨n, hn⟩ := Nat.exists_eq_succ_of_ne_zero
          (List.length_pos_iff.mpr (ne_nil_of_standsAt (of_bindingAt hb).2.2)).ne'
        simp [Copy.source, ih, hn]

variable {bindings skip spots} in
theorem putBy_of_mem_renameParts {name : List Spot} {qualified : Text}
    (h : .put name qualified ∈ renameParts bindings skip spots) :
    ∃ b ∈ bindings, Copy.PutBy b name qualified := by
  induction spots generalizing skip with
  | nil => cases skip <;> simp [renameParts] at h
  | cons s spots ih =>
    cases skip with
    | succ skip => exact ih h
    | zero =>
      simp only [renameParts] at h
      split at h
      · next b hb =>
        rcases List.mem_cons.mp h with h | h
        · obtain ⟨rfl, rfl⟩ := Copy.put.inj h
          exact ⟨b, (of_bindingAt hb).1, putBy_of_bindingAt hb⟩
        · exact ih h
      · exact ih (by simpa using h)

end

namespace Block

def parts (id : ModuleId) (all current : List Binding) : Block → List Copy
  | plain own => renameParts all 0 own
  | nest own inner rest =>
    let reached := current ++ Spot.bindings id own
    renameParts all 0 own ++ inner.parts id (reached ++ inner.bindings id) reached ++
      rest.parts id all reached

theorem text_parts (id : ModuleId) (all current : List Binding) (b : Block) :
    (b.parts id all current).flatMap Copy.text = b.renamed id all current := by
  induction b generalizing all current with
  | plain own => exact text_renameParts all 0 own
  | nest own inner rest ihinner ihrest =>
    simp only [parts, renamed, rename, List.flatMap_append, text_renameParts, ihinner, ihrest]

theorem source_parts (id : ModuleId) (all current : List Binding) (b : Block) :
    (b.parts id all current).flatMap Copy.source = b.spots := by
  induction b generalizing all current with
  | plain own => exact source_renameParts all 0 own
  | nest own inner rest ihinner ihrest =>
    simp only [parts, spots, List.flatMap_append, source_renameParts, ihinner, ihrest,
      List.drop_zero]

theorem mem_bindings_spots {id : ModuleId} {b : Block} {x : Binding} (h : x ∈ b.bindings id) :
    x ∈ Spot.bindings id b.spots := by
  induction b with
  | plain own => exact h
  | nest own inner rest _ ih =>
    simp only [spots, Spot.bindings_append, List.mem_append]
    rcases List.mem_append.mp h with h | h
    · exact Or.inl (Or.inl h)
    · exact Or.inr (ih h)

theorem putBy_of_mem_parts {P : Binding → Prop} {id : ModuleId} {all current : List Binding}
    {b : Block} (hall : ∀ x ∈ all, P x) (hcurrent : ∀ x ∈ current, P x)
    (hspots : ∀ x ∈ Spot.bindings id b.spots, P x) {name : List Spot} {qualified : Text}
    (h : .put name qualified ∈ b.parts id all current) :
    ∃ x, P x ∧ Copy.PutBy x name qualified := by
  induction b generalizing all current with
  | plain own => exact (putBy_of_mem_renameParts h).imp fun x hx => ⟨hall x hx.1, hx.2⟩
  | nest own inner rest ihinner ihrest =>
    simp only [spots, Spot.bindings_append, List.mem_append] at hspots
    have hreached : ∀ x ∈ current ++ Spot.bindings id own, P x := fun x hx =>
      (List.mem_append.mp hx).elim (hcurrent x) fun hx => hspots x (Or.inl (Or.inl hx))
    simp only [parts, List.mem_append] at h
    rcases h with (h | h) | h
    · exact (putBy_of_mem_renameParts h).imp fun x hx => ⟨hall x hx.1, hx.2⟩
    · refine ihinner (fun x hx => ?_) hreached (fun x hx => hspots x (Or.inl (Or.inr hx))) h
      exact (List.mem_append.mp hx).elim (hreached x) fun hx =>
        hspots x (Or.inl (Or.inr (mem_bindings_spots hx)))
    · exact ihrest hall hreached (fun x hx => hspots x (Or.inr hx)) h

end Block

def blockParts (code : Text) (id : ModuleId) (seed : List Binding) : List Copy :=
  let block := Block.whole (spots code)
  block.parts id (seed ++ block.bindings id) seed

section

variable (code : Text) (id : ModuleId) (seed : List Binding)

theorem text_blockParts :
    (blockParts code id seed).flatMap Copy.text = (namespaceModule code id seed).code :=
  Block.text_parts id _ _ _

theorem source_blockParts : (blockParts code id seed).flatMap Copy.source = spots code := by
  rw [blockParts, Block.source_parts, Block.spots_whole]

variable {code id seed}

theorem putBy_of_mem_blockParts {name : List Spot} {qualified : Text}
    (h : .put name qualified ∈ blockParts code id seed) :
    ∃ b, (b ∈ seed ∨ b ∈ Spot.bindings id (spots code)) ∧ Copy.PutBy b name qualified := by
  refine Block.putBy_of_mem_parts (fun b hb => ?_) (fun b => Or.inl) (fun b hb => Or.inr ?_) h
  · refine (List.mem_append.mp hb).imp_right fun hb => ?_
    simpa using Block.mem_bindings_spots hb
  · simpa using hb

end

theorem spotsFrom_around {s : LexState} {before : Text} {offset : Nat} {code : Text}
    {l r : List Spot} {t : Spot} (h : spotsFrom s before offset code = l ++ t :: r) :
    t.before = (Spot.text l).reverse ++ before ∧ t.after = Spot.text r := by
  induction l generalizing s before offset code with
  | nil =>
    cases code with
    | nil => simp [spotsFrom] at h
    | cons c code =>
      obtain ⟨rfl, rfl⟩ := List.cons.inj h
      exact ⟨rfl, (text_spotsFrom _ _ _ _).symm⟩
  | cons u l ih =>
    cases code with
    | nil => simp [spotsFrom] at h
    | cons c code =>
      obtain ⟨rfl, hrest⟩ := List.cons.inj h
      obtain ⟨hbefore, hafter⟩ := ih hrest
      exact ⟨by simpa [Spot.text] using hbefore, hafter⟩

theorem spots_around {code : Text} {l r : List Spot} {t : Spot} (h : spots code = l ++ t :: r) :
    t.before = (Spot.text l).reverse ∧ t.after = Spot.text r := by
  simpa using spotsFrom_around h

theorem Copy.PutBy.around {b : Binding} {name : List Spot} {qualified code : Text}
    (h : Copy.PutBy b name qualified) {l r : List Spot} (hcode : spots code = l ++ name ++ r) :
    code = Spot.text l ++ b.name ++ Spot.text r ∧
      Spot.opensAfter (Spot.text l).reverse = true ∧
      Spot.closesBefore (Spot.text r) = true := by
  refine ⟨?_, ?_, ?_⟩
  · rw [← text_spots code, hcode, ← h.text_eq]
    simp [Spot.text]
  · obtain ⟨s, rest, rfl, hopens⟩ := h.exists_cons
    rwa [(spots_around (l := l) (r := rest ++ r) (by simpa using hcode)).1] at hopens
  · obtain ⟨s, hs, hcloses⟩ := h.closes
    obtain ⟨front, rfl⟩ := List.getLast?_eq_some_iff.mp hs
    rwa [(spots_around (l := l ++ front) (r := r) (by simpa using hcode)).2] at hcloses

namespace Copy

/-- Parts whose names do not reach over a point of the source are cut there as the source is. -/
theorem exists_cut {parts : List Copy} {l r : List Spot} (hsource : parts.flatMap source = l ++ r)
    (hclear : ∀ front name qualified back, parts = front ++ put name qualified :: back →
      (front.flatMap source).length + name.length ≤ l.length ∨
        l.length ≤ (front.flatMap source).length) :
    ∃ front back, parts = front ++ back ∧ front.flatMap source = l ∧ back.flatMap source = r := by
  induction parts generalizing l with
  | nil =>
    obtain ⟨rfl, rfl⟩ := List.append_eq_nil_iff.mp hsource.symm
    exact ⟨[], [], rfl, rfl, rfl⟩
  | cons part parts ih =>
    by_cases hl : l = []
    · subst hl
      exact ⟨[], part :: parts, rfl, rfl, hsource⟩
    have hpos := List.length_pos_iff.mpr hl
    -- The first part lies before the point, all of it.
    have hfirst : part.source.length ≤ l.length := by
      cases part with
      | kept s => exact hpos
      | put name qualified =>
        have := hclear [] name qualified parts rfl
        simp only [List.flatMap_nil, List.length_nil] at this
        simp only [source]
        omega
    have hprefix : part.source <+: l ++ r := by
      rw [← hsource, List.flatMap_cons]
      exact List.prefix_append _ _
    obtain ⟨l', rfl⟩ := List.prefix_of_prefix_length_le hprefix (List.prefix_append l r) hfirst
    have hrest : parts.flatMap source = l' ++ r := by simpa using hsource
    obtain ⟨front, back, rfl, hfront, hback⟩ := ih hrest fun front name qualified back hparts => by
      have := hclear (part :: front) name qualified back (by rw [hparts]; rfl)
      simp only [List.flatMap_cons, List.length_append] at this
      omega
    exact ⟨part :: front, back, rfl, by rw [List.flatMap_cons, hfront], hback⟩

theorem exists_kept {parts : List Copy} {l m r : List Spot}
    (hsource : parts.flatMap source = l ++ m ++ r)
    (hclear : ∀ front name qualified back, parts = front ++ put name qualified :: back →
      name ≠ [] ∧ ((front.flatMap source).length + name.length ≤ l.length ∨
        l.length + m.length ≤ (front.flatMap source).length)) :
    ∃ front back, parts = front ++ m.map kept ++ back ∧ front.flatMap source = l ∧
      back.flatMap source = r := by
  obtain ⟨most, back, rfl, hmost, hback⟩ :=
    exists_cut hsource fun front name qualified back hparts => by
      have := (hclear front name qualified back hparts).2
      simp only [List.length_append]
      omega
  obtain ⟨front, middle, rfl, hfront, hmiddle⟩ :=
    exists_cut hmost fun front name qualified back' hparts => by
      have := (hclear front name qualified (back' ++ back) (by rw [hparts]; simp)).2
      omega
  refine ⟨front, back, ?_, hfront, hback⟩
  have hkept : ∀ x ∈ middle, ∃ s, x = kept s := by
    intro x hx
    obtain ⟨before, after, rfl⟩ := List.append_of_mem hx
    cases x with
    | kept s => exact ⟨s, rfl⟩
    | put name qualified =>
      obtain ⟨hname, hout⟩ := hclear (front ++ before) name qualified (after ++ back) (by simp)
      have hpos := List.length_pos_iff.mpr hname
      have hlength := congrArg List.length hmiddle
      rw [List.flatMap_append, hfront] at hout
      simp only [List.flatMap_append, List.flatMap_cons, List.length_append, source] at hout hlength
      omega
  have hmap : middle = (middle.flatMap source).map kept := by
    clear hmiddle hsource hmost hclear
    induction middle with
    | nil => rfl
    | cons x middle ih =>
      obtain ⟨s, rfl⟩ := hkept x List.mem_cons_self
      simpa [source] using ih fun y hy => hkept y (List.mem_cons_of_mem _ hy)
  rw [hmiddle] at hmap
  rw [hmap]

/-- A text stands in parts between those that come from two stretches of the source, and is kept. -/
def Stands (parts : List Copy) (before middle after : Text) : Prop :=
  ∃ (front : List Copy) (spots : List Spot) (back : List Copy),
    parts = front ++ spots.map kept ++ back ∧ Spot.text (front.flatMap source) = before ∧
      Spot.text spots = middle ∧ Spot.text (back.flatMap source) = after

end Copy
end ScriptBundle
