import Mathlib.Data.List.Basic
import Mathlib.Data.List.Range
import ScriptBundle.Proofs.Script.Renaming
import ScriptBundle.Script.Namespace

/-! A module's text is namespaced by one pass from left to right that keeps, for each open block,
the bindings made in it and around it. What the pass has at hand at a spot is the seed together with
the earlier declarations of the blocks that are open there. -/
namespace ScriptBundle

/-- The bindings at hand in the innermost open block, and in each block around it. -/
structure Scopes where
  top : List Binding
  below : List (List Binding)

namespace Scopes

def close : Scopes → Scopes
  | ⟨top, []⟩ => ⟨top, []⟩
  | ⟨_, outer :: more⟩ => ⟨outer, more⟩

def declare (id : ModuleId) (scopes : Scopes) (s : Spot) : Scopes :=
  match s.declaration? with
  | some d => ⟨scopes.top ++ [d.binding id], scopes.below⟩
  | none => scopes

/-- The scopes once a spot was met. An opening brace copies the innermost bindings, and a
declaration joins them. -/
def meet (id : ModuleId) (scopes : Scopes) (s : Spot) : Scopes :=
  if s.isCode '{' then ⟨scopes.top, scopes.top :: scopes.below⟩
  else if s.isCode '}' then scopes.close
  else scopes.declare id s

/-- The pass over the spots after `skip` of them that belong to a name already replaced. A
declaration is met there too. -/
def pass (id : ModuleId) : Scopes → Nat → List Spot → Text
  | _, _, [] => []
  | scopes, skip + 1, s :: rest => pass id (scopes.meet id s) skip rest
  | scopes, 0, s :: rest =>
    let scopes := scopes.meet id s
    match bindingAt scopes.top (s :: rest) with
    | some b => b.qualified ++ pass id scopes (b.name.length - 1) rest
    | none => s.char :: pass id scopes 0 rest

end Scopes

theorem isIdentifierChar_of_isIdentifier {t : Text} (h : isIdentifier t = true) {c : Char}
    (hc : c ∈ t) : isIdentifierChar c = true := by
  cases t with
  | nil => simp at hc
  | cons d t =>
    simp only [isIdentifier, Bool.and_eq_true, List.all_eq_true] at h
    rcases List.mem_cons.mp hc with rfl | hc
    · exact h.1.2
    · exact h.2 c hc

theorem Declaration.isIdentifier_of_name? {rest name : Text} (h : name? rest = some name) :
    isIdentifier name = true := by
  unfold name? at h
  simp only at h
  split at h
  · next hid => obtain rfl := Option.some.inj h; exact hid
  · split at h
    · split at h
      · next hid => obtain rfl := Option.some.inj h; exact hid.2
      · simp at h
    · simp at h

namespace Spot

theorem of_declaration? {s : Spot} {d : Declaration} (h : s.declaration? = some d) :
    isIdentifier d.name = true ∧ d.offset = s.offset := by
  unfold declaration? at h
  split at h
  · obtain ⟨p, -, hp⟩ := Option.bind_eq_some_iff.mp h
    obtain ⟨name, hname, rfl⟩ := Option.map_eq_some_iff.mp hp
    exact ⟨Declaration.isIdentifier_of_name? hname, rfl⟩
  · simp at h

theorem not_isBrace_of_declaration? {s : Spot} {d : Declaration} (h : s.declaration? = some d) :
    isBrace s.char = false := by
  unfold declaration? at h
  split at h
  · obtain ⟨⟨k, rest⟩, hp, -⟩ := Option.bind_eq_some_iff.mp h
    obtain ⟨k', -, hk⟩ := List.exists_of_findSome?_eq_some hp
    unfold Declaration.afterKeyword? at hk
    split at hk
    · next c more hafter =>
      have htext := Text.after?_eq_some_iff.mp hafter
      cases k' <;> simp only [Keyword.text, List.cons_append, List.cons.injEq] at htext <;>
        simp [htext.1, isBrace]
    · simp at hk
  · simp at h

theorem isBrace_of_isCode {s : Spot} {c : Char} (h : s.isCode c = true) (hc : isBrace c = true) :
    isBrace s.char = true := (isCode_iff.mp h).2 ▸ hc

theorem brace_cases (s : Spot) : s.isCode '{' = true ∨ s.isCode '}' = true ∨
    s.isCode '{' = false ∧ s.isCode '}' = false := by
  cases s.isCode '{' <;> cases s.isCode '}' <;> simp

theorem declaration?_eq_none {s : Spot} (h : isBrace s.char = true) : s.declaration? = none := by
  cases hd : s.declaration? with
  | none => rfl
  | some d => simp [not_isBrace_of_declaration? hd] at h

theorem bindings_cons (id : ModuleId) (s : Spot) (own : List Spot) :
    Spot.bindings id (s :: own) = Spot.bindings id [s] ++ Spot.bindings id own := by
  simp only [Spot.bindings, List.filterMap_cons, List.filterMap_nil]
  cases s.declaration? <;> simp

theorem bindings_append (id : ModuleId) (l r : List Spot) :
    Spot.bindings id (l ++ r) = Spot.bindings id l ++ Spot.bindings id r := by
  simp [Spot.bindings]

theorem bindings_brace (id : ModuleId) {s : Spot} (h : isBrace s.char = true) :
    Spot.bindings id [s] = [] := by simp [Spot.bindings, declaration?_eq_none h]

theorem bindingAt_brace (bindings : List Binding) {s : Spot} (rest : List Spot)
    (h : isBrace s.char = true) : bindingAt bindings (s :: rest) = none := by
  have hchar : isIdentifierChar s.char = false := by
    rcases Bool.or_eq_true_iff.mp h with h | h <;> rw [beq_iff_eq.mp h] <;> rfl
  simp [bindingAt, hchar]

theorem of_mem_bindings {id : ModuleId} {own : List Spot} {b : Binding}
    (h : b ∈ Spot.bindings id own) : b.Braceless ∧ ∃ s ∈ own, b.since = s.offset := by
  obtain ⟨d, hd, rfl⟩ := List.mem_map.mp h
  obtain ⟨s, hs, hsd⟩ := List.mem_filterMap.mp hd
  obtain ⟨hid, hoff⟩ := of_declaration? hsd
  have hno : ∀ c, isIdentifierChar c = false → c ∉ d.name := fun c hc hmem => by
    simp [isIdentifierChar_of_isIdentifier hid hmem] at hc
  exact ⟨⟨hno _ (by rfl), hno _ (by rfl)⟩, s, hs, hoff⟩

end Spot

namespace Scopes

def Braceless (scopes : Scopes) : Prop :=
  (∀ b ∈ scopes.top, b.Braceless) ∧ ∀ l ∈ scopes.below, ∀ b ∈ l, b.Braceless

def All (P : Binding → Prop) (scopes : Scopes) : Prop :=
  (∀ b ∈ scopes.top, P b) ∧ ∀ l ∈ scopes.below, ∀ b ∈ l, P b

theorem declare_eq (id : ModuleId) (scopes : Scopes) (s : Spot) :
    scopes.declare id s = ⟨scopes.top ++ Spot.bindings id [s], scopes.below⟩ := by
  cases h : s.declaration? <;> simp [declare, Spot.bindings, h]

theorem meet_open (id : ModuleId) (scopes : Scopes) {s : Spot} (h : s.isCode '{' = true) :
    scopes.meet id s = ⟨scopes.top, scopes.top :: scopes.below⟩ := by simp [meet, h]

theorem meet_close (id : ModuleId) (scopes : Scopes) {s : Spot} (h : s.isCode '}' = true) :
    scopes.meet id s = scopes.close := by
  have hopen : s.isCode '{' = false := by simp [Spot.isCode, (Spot.isCode_iff.mp h).2]
  simp [meet, h, hopen]

theorem meet_plain (id : ModuleId) (scopes : Scopes) {s : Spot} (hopen : s.isCode '{' = false)
    (hclose : s.isCode '}' = false) :
    scopes.meet id s = ⟨scopes.top ++ Spot.bindings id [s], scopes.below⟩ := by
  simp [meet, hopen, hclose, declare_eq]

theorem All.close {P : Binding → Prop} {scopes : Scopes} (h : scopes.All P) :
    scopes.close.All P := by
  rcases scopes with ⟨top, _ | ⟨outer, more⟩⟩
  · exact h
  · exact ⟨h.2 outer List.mem_cons_self, fun l hl => h.2 l (List.mem_cons_of_mem _ hl)⟩

theorem All.meet {P : Binding → Prop} {scopes : Scopes} (h : scopes.All P) {id : ModuleId}
    {s : Spot} (hs : ∀ b ∈ Spot.bindings id [s], P b) : (scopes.meet id s).All P := by
  rcases s.brace_cases with hopen | hclose | ⟨hopen, hclose⟩
  · rw [meet_open id scopes hopen]
    refine ⟨h.1, fun l hl => ?_⟩
    rcases List.mem_cons.mp hl with rfl | hl
    · exact h.1
    · exact h.2 l hl
  · rw [meet_close id scopes hclose]
    exact h.close
  · rw [meet_plain id scopes hopen hclose]
    refine ⟨fun b hb => ?_, h.2⟩
    rcases List.mem_append.mp hb with hb | hb
    · exact h.1 b hb
    · exact hs b hb

theorem Braceless.meet {scopes : Scopes} (h : scopes.Braceless) (id : ModuleId) (s : Spot) :
    (scopes.meet id s).Braceless :=
  All.meet h fun _ hb => (Spot.of_mem_bindings hb).1

theorem pass_brace (id : ModuleId) (scopes : Scopes) {s : Spot} (rest : List Spot)
    (h : isBrace s.char = true) :
    scopes.pass id 0 (s :: rest) = s.char :: (scopes.meet id s).pass id 0 rest := by
  simp [pass, Spot.bindingAt_brace _ rest h]

end Scopes

namespace Block

def lead : Block → List Spot
  | plain own => own
  | nest own _ _ => own

/-- The text of a block with names replaced, after `skip` spots of its first stretch. -/
def renamedFrom (id : ModuleId) (all current : List Binding) (skip : Nat) : Block → Text
  | plain own => renameFrom all skip own
  | nest own inner rest =>
    let reached := current ++ Spot.bindings id own
    renameFrom all skip own ++ inner.renamed id (reached ++ inner.bindings id) reached ++
      rest.renamed id all reached

theorem renamedFrom_zero (id : ModuleId) (all current : List Binding) (b : Block) :
    b.renamedFrom id all current 0 = b.renamed id all current := by
  cases b <;> simp [renamedFrom, renamed, rename]

theorem bindings_cons (id : ModuleId) (s : Spot) (b : Block) :
    (cons s b).bindings id = Spot.bindings id [s] ++ b.bindings id := by
  cases b with
  | plain own => simp only [cons, bindings, Spot.bindings_cons id s own]
  | nest own inner rest =>
    simp only [cons, bindings, Spot.bindings_cons id s own, List.append_assoc]

theorem renamedFrom_cons_succ (id : ModuleId) (all current : List Binding) (skip : Nat) (s : Spot)
    (b : Block) : (cons s b).renamedFrom id all current (skip + 1) =
      b.renamedFrom id all (current ++ Spot.bindings id [s]) skip := by
  cases b with
  | plain own => simp [cons, renamedFrom, renameFrom]
  | nest own inner rest =>
    simp only [cons, renamedFrom, renameFrom, Spot.bindings_cons id s own, List.append_assoc]

theorem renamedFrom_cons_zero (id : ModuleId) (all current : List Binding) (s : Spot) (b : Block) :
    (cons s b).renamedFrom id all current 0 =
      match bindingAt all (s :: b.lead) with
      | some x => x.qualified ++
          b.renamedFrom id all (current ++ Spot.bindings id [s]) (x.name.length - 1)
      | none => s.char :: b.renamedFrom id all (current ++ Spot.bindings id [s]) 0 := by
  cases b with
  | plain own =>
    cases h : bindingAt all (s :: own) <;> simp [cons, renamedFrom, renameFrom, lead, h]
  | nest own inner rest =>
    simp only [cons, renamedFrom, renameFrom, lead, Spot.bindings_cons id s own, List.append_assoc]
    cases bindingAt all (s :: own) <;> simp

theorem renamed_nest_brace (id : ModuleId) (all current : List Binding) {s : Spot}
    (inner rest : Block) (h : isBrace s.char = true) :
    (nest [s] inner rest).renamed id all current =
      s.char :: (inner.namespaced id current ++ rest.renamed id all current) := by
  simp [renamed, rename, renameFrom, Spot.bindingAt_brace _ _ h, Spot.bindings_brace id h,
    namespaced]

theorem namespaced_cons_brace (id : ModuleId) (current : List Binding) {s : Spot} (b : Block)
    (h : isBrace s.char = true) :
    (cons s b).namespaced id current = s.char :: b.namespaced id current := by
  rw [namespaced, ← renamedFrom_zero, renamedFrom_cons_zero, Spot.bindingAt_brace _ _ h,
    bindings_cons, Spot.bindings_brace id h]
  simp [renamedFrom_zero, namespaced]

@[simp] theorem renamed_empty (id : ModuleId) (all current : List Binding) :
    empty.renamed id all current = [] := by simp [empty, renamed, rename, renameFrom]

@[simp] theorem bindings_empty (id : ModuleId) : empty.bindings id = [] := rfl

theorem levels_open {s : Spot} (rest : List Spot) (h : s.isCode '{' = true) :
    levels (s :: rest) =
      (nest [s] (levels rest).1 ((levels rest).2.headD empty), (levels rest).2.tail) := by
  simp only [levels, h, if_true]
  split <;> simp_all

theorem levels_close {s : Spot} (rest : List Spot) (h : s.isCode '}' = true) :
    levels (s :: rest) = (empty, cons s (levels rest).1 :: (levels rest).2) := by
  have hopen : s.isCode '{' = false := by simp [Spot.isCode, (Spot.isCode_iff.mp h).2]
  simp [levels, h, hopen]

theorem levels_plain {s : Spot} (rest : List Spot) (hopen : s.isCode '{' = false)
    (hclose : s.isCode '}' = false) :
    levels (s :: rest) = (cons s (levels rest).1, (levels rest).2) := by
  simp [levels, hopen, hclose]

theorem exists_lead (spots : List Spot) :
    ∃ rest, spots = (levels spots).1.lead ++ rest ∧ BraceCut (levels spots).1.lead rest := by
  induction spots with
  | nil => exact ⟨[], rfl, Or.inl rfl⟩
  | cons s spots ih =>
    rcases s.brace_cases with hopen | hclose | ⟨hopen, hclose⟩
    · rw [levels_open spots hopen]
      exact ⟨spots, rfl, Or.inr (Or.inl ⟨s, rfl, Spot.isBrace_of_isCode hopen rfl⟩)⟩
    · rw [levels_close spots hclose]
      exact ⟨s :: spots, rfl, Or.inr (Or.inr ⟨s, spots, rfl, Spot.isBrace_of_isCode hclose rfl⟩)⟩
    · rw [levels_plain spots hopen hclose]
      obtain ⟨rest, hrest, hcut⟩ := ih
      have hlead : (cons s (levels spots).1).lead = s :: (levels spots).1.lead := by
        cases (levels spots).1 <;> rfl
      simp only [hlead]
      exact ⟨rest, by rw [List.cons_append, ← hrest], hcut.cons s⟩

theorem of_mem_bindings {id : ModuleId} {b : Block} {x : Binding} (h : x ∈ b.bindings id) :
    x.Braceless ∧ ∃ s ∈ b.spots, x.since = s.offset := by
  induction b with
  | plain own => exact Spot.of_mem_bindings h
  | nest own inner rest _ ih =>
    rcases List.mem_append.mp h with h | h
    · obtain ⟨hx, s, hs, hoff⟩ := Spot.of_mem_bindings h
      exact ⟨hx, s, by simp [spots, hs], hoff⟩
    · obtain ⟨hx, s, hs, hoff⟩ := ih h
      exact ⟨hx, s, by simp [spots, hs], hoff⟩

theorem mem_of_mem_levels {spots : List Spot} {s : Spot} (h : s ∈ (levels spots).1.spots) :
    s ∈ spots := by
  rw [← spots_levels spots]
  exact List.mem_append_left _ h

/-- The text of the blocks around, from the inside out, each begun by the brace that closes the one
before it. -/
def closedText (id : ModuleId) : Scopes → List Block → Text
  | _, [] => []
  | scopes, b :: more =>
    b.namespaced id scopes.close.top ++
      closedText id ⟨scopes.close.top ++ b.bindings id, scopes.close.below⟩ more

end Block

namespace Scopes

/-- What is found over all that follows is found within the first stretch, and by the bindings of
the whole block. -/
theorem bindingAt_levels (id : ModuleId) {s : Spot} {spots : List Spot}
    (hoff : (s :: spots).Pairwise (·.offset < ·.offset)) {bindings : List Binding}
    (hnames : ∀ b ∈ bindings, b.Braceless) :
    bindingAt bindings (s :: spots) =
      bindingAt (bindings ++ (Block.levels spots).1.bindings id)
        (s :: (Block.levels spots).1.lead) := by
  have hlater : ∀ b ∈ (Block.levels spots).1.bindings id, s.offset < b.since := by
    intro b hb
    obtain ⟨-, t, ht, hsince⟩ := Block.of_mem_bindings hb
    rw [hsince]
    exact (List.pairwise_cons.mp hoff).1 t (Block.mem_of_mem_levels ht)
  obtain ⟨rest, hrest, hcut⟩ := Block.exists_lead spots
  rw [bindingAt_append_of_later hlater]
  conv_lhs => rw [hrest]
  exact (Seam.of_braceCut (hcut.cons s) hnames).bindingAt_eq

theorem skip_eq_zero {skip : Nat} {s : Spot} {spots : List Spot} (hbrace : isBrace s.char = true)
    (hskip : ∀ t ∈ (s :: spots).take skip, isBrace t.char = false) : skip = 0 := by
  cases skip with
  | zero => rfl
  | succ skip => simp [hbrace] at hskip

/-- What the spots become when they are cut into blocks: the innermost block, after what is skipped
of it, and then those around it. -/
def levelled (id : ModuleId) (scopes : Scopes) (skip : Nat) (spots : List Spot) : Text :=
  let block := (Block.levels spots).1
  let all := scopes.top ++ block.bindings id
  block.renamedFrom id all scopes.top skip ++
    Block.closedText id ⟨all, scopes.below⟩ (Block.levels spots).2

section

variable (id : ModuleId) (scopes : Scopes) {s : Spot} (spots : List Spot)

theorem levelled_nil (skip : Nat) : scopes.levelled id skip [] = [] := by
  cases skip <;> simp [levelled, Block.levels, Block.empty, Block.renamedFrom, renameFrom,
    Block.closedText]

theorem levelled_open (h : s.isCode '{' = true) :
    scopes.levelled id 0 (s :: spots) = s.char :: (scopes.meet id s).levelled id 0 spots := by
  have hbrace := Spot.isBrace_of_isCode h rfl
  rw [meet_open id scopes h, levelled, levelled, Block.levels_open spots h]
  simp only [Block.renamedFrom_zero, Block.bindings, Spot.bindings_brace id hbrace,
    List.nil_append, Block.renamed_nest_brace id _ _ _ _ hbrace]
  cases (Block.levels spots).2 with
  | nil => simp [Block.closedText, Block.namespaced]
  | cons next more => simp [Block.closedText, close, Block.namespaced]

theorem levelled_close (h : s.isCode '}' = true) :
    scopes.levelled id 0 (s :: spots) = s.char :: (scopes.meet id s).levelled id 0 spots := by
  have hbrace := Spot.isBrace_of_isCode h rfl
  rw [meet_close id scopes h, levelled, levelled, Block.levels_close spots h]
  simp only [Block.renamedFrom_zero, Block.renamed_empty, Block.bindings_empty, List.append_nil,
    List.nil_append, Block.closedText, Block.namespaced_cons_brace id _ _ hbrace,
    Block.bindings_cons, Spot.bindings_brace id hbrace, List.cons_append]
  rfl

theorem levelled_plain_skip (ho : s.isCode '{' = false) (hc : s.isCode '}' = false) (skip : Nat) :
    scopes.levelled id (skip + 1) (s :: spots) = (scopes.meet id s).levelled id skip spots := by
  rw [meet_plain id scopes ho hc, levelled, levelled, Block.levels_plain spots ho hc]
  simp only [Block.bindings_cons, ← List.append_assoc, Block.renamedFrom_cons_succ]

theorem levelled_plain {scopes : Scopes} {spots : List Spot} (ho : s.isCode '{' = false)
    (hc : s.isCode '}' = false) (hoff : (s :: spots).Pairwise (·.offset < ·.offset))
    (hnames : (scopes.meet id s).Braceless) :
    scopes.levelled id 0 (s :: spots) =
      match bindingAt (scopes.meet id s).top (s :: spots) with
      | some b => b.qualified ++ (scopes.meet id s).levelled id (b.name.length - 1) spots
      | none => s.char :: (scopes.meet id s).levelled id 0 spots := by
  have hat := bindingAt_levels id hoff hnames.1
  rw [meet_plain id scopes ho hc] at hat ⊢
  rw [hat, levelled, Block.levels_plain spots ho hc]
  simp only [levelled, Block.bindings_cons, ← List.append_assoc, Block.renamedFrom_cons_zero]
  cases bindingAt (scopes.top ++ Spot.bindings id [s] ++ (Block.levels spots).1.bindings id)
    (s :: (Block.levels spots).1.lead) <;> simp

end

theorem not_isBrace_of_bindingAt {bindings : List Binding} (hnames : ∀ b ∈ bindings, b.Braceless)
    {s : Spot} {spots : List Spot} {b : Binding} (hb : bindingAt bindings (s :: spots) = some b) :
    ∀ t ∈ spots.take (b.name.length - 1), isBrace t.char = false := by
  obtain ⟨hmem, -, hstands⟩ := of_bindingAt hb
  intro t ht
  refine (hnames b hmem).not_isBrace (mem_of_standsAt hstands ?_)
  obtain ⟨n, hn⟩ := Nat.exists_eq_succ_of_ne_zero
    (List.length_pos_iff.mpr (ne_nil_of_standsAt hstands)).ne'
  rw [hn] at ht ⊢
  exact List.mem_cons_of_mem _ ht

/-- The pass writes the blocks from the inside out. The induction follows the spots, and what is
skipped holds no brace, so it stays within the first stretch. -/
theorem pass_eq_levelled (id : ModuleId) {spots : List Spot}
    (hoff : spots.Pairwise (·.offset < ·.offset)) {scopes : Scopes} (hnames : scopes.Braceless)
    {skip : Nat} (hskip : ∀ s ∈ spots.take skip, isBrace s.char = false) :
    scopes.pass id skip spots = scopes.levelled id skip spots := by
  induction spots generalizing scopes skip with
  | nil => rw [levelled_nil, pass]
  | cons s spots ih =>
    have hoff' := (List.pairwise_cons.mp hoff).2
    have hnames' := hnames.meet id s
    have hnext : (scopes.meet id s).pass id 0 spots = (scopes.meet id s).levelled id 0 spots :=
      ih hoff' hnames' (by simp)
    rcases s.brace_cases with hopen | hclose | ⟨hopen, hclose⟩
    · have hbrace := Spot.isBrace_of_isCode hopen rfl
      obtain rfl := skip_eq_zero hbrace hskip
      rw [pass_brace id scopes spots hbrace, hnext, levelled_open id scopes spots hopen]
    · have hbrace := Spot.isBrace_of_isCode hclose rfl
      obtain rfl := skip_eq_zero hbrace hskip
      rw [pass_brace id scopes spots hbrace, hnext, levelled_close id scopes spots hclose]
    · cases skip with
      | succ skip =>
        rw [pass, levelled_plain_skip id scopes spots hopen hclose]
        exact ih hoff' hnames' fun t ht => hskip t (by simp [ht])
      | zero =>
        rw [pass, levelled_plain id hopen hclose hoff hnames']
        cases hb : bindingAt (scopes.meet id s).top (s :: spots) with
        | none => simp only [hnext]
        | some b =>
          have hin := not_isBrace_of_bindingAt hnames'.1 hb
          simp only [ih hoff' hnames' hin]

end Scopes

theorem spotsFrom_offset (s : LexState) (before : Text) (offset : Nat) (code : Text) :
    (spotsFrom s before offset code).Pairwise (·.offset < ·.offset) ∧
      ∀ spot ∈ spotsFrom s before offset code, offset ≤ spot.offset := by
  induction code generalizing s before offset with
  | nil => simp [spotsFrom]
  | cons c code ih =>
    obtain ⟨hpair, hle⟩ := ih (s.step c code.head?).2 (c :: before) (offset + c.utf8Size)
    have hpos := c.utf8Size_pos
    simp only [spotsFrom, List.pairwise_cons, List.mem_cons, forall_eq_or_imp]
    refine ⟨⟨fun t ht => ?_, hpair⟩, le_rfl, fun t ht => ?_⟩
    · have := hle t ht
      omega
    · have := hle t ht
      omega

theorem spots_offset (code : Text) : (spots code).Pairwise (·.offset < ·.offset) :=
  (spotsFrom_offset .start [] 0 code).1

namespace Block

theorem renamed_append_of_later {id : ModuleId} {all current later : List Binding} {b : Block}
    (h : ∀ s ∈ b.spots, ∀ x ∈ later, s.offset < x.since) :
    b.renamed id (all ++ later) current = b.renamed id all current := by
  induction b generalizing current with
  | plain own => exact renameFrom_append_of_later h
  | nest own inner rest _ ih =>
    simp only [renamed, rename]
    rw [renameFrom_append_of_later fun s hs => h s (by simp [spots, hs]),
      ih fun s hs => h s (by simp [spots, hs])]

/-- The block begins with a brace, so no name runs into it from before. -/
def LedByBrace (b : Block) : Prop := ∃ s more, b.lead = s :: more ∧ isBrace s.char = true

theorem ledByBrace_of_mem_levels {spots : List Spot} {b : Block} (h : b ∈ (levels spots).2) :
    b.LedByBrace := by
  induction spots with
  | nil => simp [levels] at h
  | cons s spots ih =>
    rcases s.brace_cases with hopen | hclose | ⟨hopen, hclose⟩
    · rw [levels_open spots hopen] at h
      exact ih (List.mem_of_mem_tail h)
    · rw [levels_close spots hclose] at h
      rcases List.mem_cons.mp h with rfl | h
      · refine ⟨s, (levels spots).1.lead, ?_, Spot.isBrace_of_isCode hclose rfl⟩
        cases (levels spots).1 <;> rfl
      · exact ih h
    · rw [levels_plain spots hopen hclose] at h
      exact ih h

theorem LedByBrace.rename_append {b : Block} (h : b.LedByBrace) {all : List Binding}
    (hall : ∀ x ∈ all, x.Braceless) (own : List Spot) :
    rename all (own ++ b.lead) = rename all own ++ rename all b.lead := by
  obtain ⟨s, more, hlead, hbrace⟩ := h
  have hcut : BraceCut own b.lead := Or.inr (Or.inr ⟨s, more, hlead, hbrace⟩)
  exact renameFrom_append (Seam.of_braceCut hcut hall) (Nat.zero_le _)

theorem renamed_append (id : ModuleId) {all : List Binding} (hall : ∀ x ∈ all, x.Braceless)
    (current : List Binding) (a : Block) {b : Block} (hb : b.LedByBrace) :
    (append a b).renamed id all current =
      a.renamed id all current ++ b.renamed id all (current ++ a.bindings id) := by
  induction a generalizing current with
  | plain own =>
    have hcut := hb.rename_append hall own
    cases b with
    | plain more => simpa [append, prepend, renamed, lead] using hcut
    | nest more inner rest =>
      simp only [lead] at hcut
      simp only [append, prepend, renamed, hcut, bindings, Spot.bindings_append, List.append_assoc]
  | nest own inner rest _ ih =>
    simp only [append, renamed, ih, bindings, List.append_assoc]

theorem bindings_append (id : ModuleId) (a b : Block) :
    (append a b).bindings id = a.bindings id ++ b.bindings id := by
  induction a with
  | plain own => cases b <;> simp [append, prepend, bindings, Spot.bindings_append]
  | nest own inner rest _ ih => simp [append, bindings, ih]

theorem namespaced_append (id : ModuleId) {current : List Binding}
    (hcurrent : ∀ x ∈ current, x.Braceless) {a b : Block} (hb : b.LedByBrace)
    (hoff : ∀ s ∈ a.spots, ∀ t ∈ b.spots, s.offset < t.offset) :
    (append a b).namespaced id current =
      a.namespaced id current ++ b.namespaced id (current ++ a.bindings id) := by
  have hall : ∀ x ∈ current ++ (a.bindings id ++ b.bindings id), x.Braceless := by
    intro x hx
    rcases List.mem_append.mp hx with hx | hx
    · exact hcurrent x hx
    · rcases List.mem_append.mp hx with hx | hx <;> exact (of_mem_bindings hx).1
  have hlater : ∀ s ∈ a.spots, ∀ x ∈ b.bindings id, s.offset < x.since := by
    intro s hs x hx
    obtain ⟨-, t, ht, hsince⟩ := of_mem_bindings hx
    rw [hsince]
    exact hoff s hs t ht
  rw [namespaced, bindings_append, renamed_append id hall current a hb]
  simp only [← List.append_assoc]
  rw [renamed_append_of_later hlater]
  rfl

theorem namespaced_foldl_append (id : ModuleId) {current : List Binding}
    (hcurrent : ∀ x ∈ current, x.Braceless) {b : Block} {more : List Block}
    (hled : ∀ m ∈ more, m.LedByBrace)
    (hoff : (b.spots ++ more.flatMap Block.spots).Pairwise (·.offset < ·.offset)) :
    (more.foldl append b).namespaced id current =
      b.namespaced id current ++ closedText id ⟨current ++ b.bindings id, []⟩ more := by
  induction more generalizing b with
  | nil => simp [closedText]
  | cons next more ih =>
    have hpair := (List.pairwise_append.mp hoff).2.2
    rw [List.foldl_cons, ih (fun m hm => hled m (List.mem_cons_of_mem _ hm))
      (by simpa [List.append_assoc] using hoff),
      namespaced_append id hcurrent (hled next List.mem_cons_self)
        fun s hs t ht => hpair s hs t (by simp [ht]), bindings_append]
    simp [closedText, Scopes.close]

theorem namespaced_whole (id : ModuleId) {seed : List Binding} (hseed : ∀ b ∈ seed, b.Braceless)
    {spots : List Spot} (hoff : spots.Pairwise (·.offset < ·.offset)) :
    (whole spots).namespaced id seed = Scopes.pass id ⟨seed, []⟩ 0 spots := by
  rw [Scopes.pass_eq_levelled id hoff ⟨hseed, by simp⟩ (by simp), Scopes.levelled,
    renamedFrom_zero]
  exact namespaced_foldl_append id hseed (fun m => ledByBrace_of_mem_levels)
    (by rwa [spots_levels])

end Block

/-- How many blocks are open behind the spots. A closing brace without a partner closes none. -/
def nesting (spots : List Spot) : Nat :=
  spots.foldl (fun n s => if s.isCode '{' then n + 1 else if s.isCode '}' then n - 1 else n) 0

def StillOpen (spots : List Spot) (i : Nat) : Prop :=
  ∀ j, i ≤ j → j ≤ spots.length → nesting (spots.take i) ≤ nesting (spots.take j)

instance (spots : List Spot) (i : Nat) : Decidable (StillOpen spots i) :=
  inferInstanceAs (Decidable (∀ j, i ≤ j → j ≤ spots.length → _))

/-- The bindings made in blocks that are open behind the spots, no deeper than `level`. -/
def boundWithin (id : ModuleId) (level : Nat) (spots : List Spot) : List Binding :=
  (List.range spots.length).flatMap fun i =>
    if nesting (spots.take i) ≤ level ∧ StillOpen spots i then Spot.bindings id spots[i]?.toList
    else []

/-- The bindings made in the blocks that are open behind the spots. -/
def openBindings (id : ModuleId) (spots : List Spot) : List Binding :=
  (List.range spots.length).flatMap fun i =>
    if StillOpen spots i then Spot.bindings id spots[i]?.toList else []

theorem nesting_append_open {s : Spot} (spots : List Spot) (h : s.isCode '{' = true) :
    nesting (spots ++ [s]) = nesting spots + 1 := by simp [nesting, h]

theorem nesting_append_close {s : Spot} (spots : List Spot) (h : s.isCode '}' = true) :
    nesting (spots ++ [s]) = nesting spots - 1 := by
  have hopen : s.isCode '{' = false := by simp [Spot.isCode, (Spot.isCode_iff.mp h).2]
  simp [nesting, h, hopen]

theorem nesting_append_plain {s : Spot} (spots : List Spot) (hopen : s.isCode '{' = false)
    (hclose : s.isCode '}' = false) : nesting (spots ++ [s]) = nesting spots := by
  simp [nesting, hopen, hclose]

theorem StillOpen.nesting_le {spots : List Spot} {i : Nat} (h : StillOpen spots i)
    (hi : i ≤ spots.length) : nesting (spots.take i) ≤ nesting spots := by
  simpa using h spots.length hi le_rfl

theorem stillOpen_append_iff {spots : List Spot} {s : Spot} {i : Nat} (hi : i ≤ spots.length) :
    StillOpen (spots ++ [s]) i ↔
      StillOpen spots i ∧ nesting (spots.take i) ≤ nesting (spots ++ [s]) := by
  have htake : ∀ j, j ≤ spots.length → (spots ++ [s]).take j = spots.take j :=
    fun j hj => by rw [List.take_append_of_le_length hj]
  have hall : ∀ j, spots.length < j → (spots ++ [s]).take j = spots ++ [s] := fun j hj =>
    List.take_of_length_le (by simp only [List.length_append, List.length_singleton]; omega)
  constructor
  · intro h
    refine ⟨fun j hij hj => ?_, ?_⟩
    · have := h j hij (by simp only [List.length_append, List.length_singleton]; omega)
      rwa [htake i hi, htake j hj] at this
    · have := h (spots.length + 1) (by omega) (by simp)
      rwa [htake i hi, hall _ (by omega)] at this
  · rintro ⟨h, hend⟩ j hij hj
    rw [htake i hi]
    rcases Nat.lt_or_ge spots.length j with hlt | hge
    · rwa [hall j hlt]
    · rw [htake j hge]
      exact h j hij hge

theorem boundWithin_eq_openBindings {id : ModuleId} {level : Nat} {spots : List Spot}
    (h : nesting spots ≤ level) : boundWithin id level spots = openBindings id spots := by
  apply List.flatMap_congr
  intro i hi
  have hi' := List.mem_range.mp hi
  refine if_congr ⟨And.right, fun ho => ⟨?_, ho⟩⟩ rfl rfl
  exact (ho.nesting_le hi'.le).trans h

theorem boundWithin_append {id : ModuleId} {level : Nat} {spots : List Spot} {s : Spot}
    (h : level ≤ nesting (spots ++ [s])) :
    boundWithin id level (spots ++ [s]) =
      boundWithin id level spots ++
        if nesting spots ≤ level then Spot.bindings id [s] else [] := by
  have hlen : (spots ++ [s]).length = spots.length + 1 := by simp
  rw [boundWithin, hlen, List.range_succ, List.flatMap_append]
  congr 1
  · apply List.flatMap_congr
    intro i hi
    have hi' := List.mem_range.mp hi
    rw [List.take_append_of_le_length hi'.le, List.getElem?_append_left hi']
    refine if_congr (and_congr_right fun hle => ?_) rfl rfl
    rw [stillOpen_append_iff hi'.le]
    exact ⟨And.left, fun ho => ⟨ho, hle.trans h⟩⟩
  · have hself : StillOpen spots spots.length := fun j hij hj => by
      rw [Nat.le_antisymm hij hj]
    simp only [List.flatMap_cons, List.flatMap_nil, List.append_nil, List.take_left',
      stillOpen_append_iff le_rfl, List.take_length]
    refine if_congr ⟨And.left, fun hc => ⟨hc, hself, hc.trans h⟩⟩ (by simp) rfl

theorem boundWithin_append_brace {id : ModuleId} {level : Nat} {spots : List Spot} {s : Spot}
    (hbrace : isBrace s.char = true) (h : level ≤ nesting (spots ++ [s])) :
    boundWithin id level (spots ++ [s]) = boundWithin id level spots := by
  simp [boundWithin_append h, Spot.bindings_brace id hbrace]

namespace Scopes

/-- The scopes for a number of open blocks, given what is bound down to each level. -/
def ofLevels (bound : Nat → List Binding) (n : Nat) : Scopes :=
  ⟨bound n, (List.range n).reverse.map bound⟩

theorem ofLevels_congr {f g : Nat → List Binding} {n : Nat} (h : ∀ level ≤ n, f level = g level) :
    ofLevels f n = ofLevels g n := by
  have hbelow : (List.range n).reverse.map f = (List.range n).reverse.map g :=
    List.map_congr_left fun level hl => h level (by simp at hl; omega)
  rw [ofLevels, ofLevels, h n le_rfl, hbelow]

theorem ofLevels_succ (bound : Nat → List Binding) (n : Nat) :
    ofLevels bound (n + 1) = ⟨bound (n + 1), bound n :: (ofLevels bound n).below⟩ := by
  simp [ofLevels, List.range_succ]

/-- The stack behind the spots holds, for each open block, what is bound down to its level. -/
theorem foldl_meet (id : ModuleId) (seed : List Binding) (spots : List Spot) :
    spots.foldl (meet id) ⟨seed, []⟩ =
      ofLevels (fun level => seed ++ boundWithin id level spots) (nesting spots) := by
  induction spots using List.reverseRecOn with
  | nil => simp [nesting, boundWithin, ofLevels]
  | append_singleton spots s ih =>
    rw [List.foldl_append, List.foldl_cons, List.foldl_nil, ih]
    rcases s.brace_cases with hopen | hclose | ⟨hopen, hclose⟩
    · have hbrace := Spot.isBrace_of_isCode hopen rfl
      have hn := nesting_append_open spots hopen
      have hlevel : ∀ level ≤ nesting spots + 1,
          seed ++ boundWithin id level (spots ++ [s]) = seed ++ boundWithin id level spots :=
        fun level hl => by rw [boundWithin_append_brace hbrace (by omega)]
      rw [meet_open id _ hopen, hn, ofLevels_congr hlevel, ofLevels_succ]
      simp only [boundWithin_eq_openBindings (Nat.le_succ _),
        show boundWithin id (nesting spots) spots = openBindings id spots from
          boundWithin_eq_openBindings le_rfl, ofLevels]
    · have hbrace := Spot.isBrace_of_isCode hclose rfl
      have hn := nesting_append_close spots hclose
      have hlevel : ∀ level ≤ nesting spots - 1,
          seed ++ boundWithin id level (spots ++ [s]) = seed ++ boundWithin id level spots :=
        fun level hl => by rw [boundWithin_append_brace hbrace (by omega)]
      rw [meet_close id _ hclose, hn, ofLevels_congr hlevel]
      cases nesting spots with
      | zero => rfl
      | succ n =>
        rw [ofLevels_succ]
        rfl
    · have hn := nesting_append_plain spots hopen hclose
      rw [meet_plain id _ hopen hclose, hn]
      have hbelow : ∀ level ∈ (List.range (nesting spots)).reverse,
          seed ++ boundWithin id level spots = seed ++ boundWithin id level (spots ++ [s]) := by
        intro level hl
        have hlt : level < nesting spots := by simpa using hl
        rw [boundWithin_append (by omega), if_neg (by omega), List.append_nil]
      simp only [ofLevels, List.map_congr_left hbelow]
      rw [boundWithin_append hn.ge, if_pos le_rfl, List.append_assoc]

theorem length_foldl_meet (id : ModuleId) (seed : List Binding) (spots : List Spot) :
    (spots.foldl (meet id) ⟨seed, []⟩).below.length = nesting spots := by
  rw [foldl_meet]
  simp [ofLevels]

end Scopes

/-- **Namespacing is one pass.** Names without braces given, the blocks of a module need not be
told apart: a stack of binding lists gives the same text, and its top at each place is the seed with
the earlier declarations of the blocks that are open there. -/
theorem namespaceModule_eq_pass (code : Text) (id : ModuleId) (seed : List Binding)
    (hseed : ∀ b ∈ seed, b.Braceless) :
    (namespaceModule code id seed).code = Scopes.pass id ⟨seed, []⟩ 0 (spots code) ∧
      ∀ before after, spots code = before ++ after →
        (before.foldl (Scopes.meet id) ⟨seed, []⟩).top = seed ++ openBindings id before := by
  constructor
  · exact Block.namespaced_whole id hseed (spots_offset code)
  · intro before after _
    rw [Scopes.foldl_meet, Scopes.ofLevels, boundWithin_eq_openBindings le_rfl]

/-- A stray brace leaves the seed in effect, and the name of an inner block is gone behind it. -/
theorem namespaceModule_eq_pass_stray :
    (∀ b ∈ [(⟨['e'], ['M'], 0⟩ : Binding)], b.Braceless) ∧
      Scopes.pass ⟨['M']⟩ ⟨[⟨['e'], ['M'], 0⟩], []⟩ 0
          (spots "x\x7dlet x;\x7blet y;y;e=x\x7dy;x".toList) =
        "x\x7dlet M_x;\x7blet M_y;M_y;M=M_x\x7dy;M_x".toList := by
  have hseed : ∀ b ∈ [(⟨['e'], ['M'], 0⟩ : Binding)], b.Braceless := by simp [Binding.Braceless]
  refine ⟨hseed, ?_⟩
  rw [← (namespaceModule_eq_pass _ _ _ hseed).1]
  rfl

end ScriptBundle
