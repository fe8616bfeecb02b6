import Mathlib.Data.List.Forall2
import ScriptBundle.Proofs.Script.Counterparts
import ScriptBundle.Proofs.Script.Nesting

/-! What a block does to the text around it. No name reaches over a brace, and what is declared in
front of one is settled there. So the text in front of a block and the text behind it become the
same whatever the block holds. -/
namespace ScriptBundle

def Text.enclosed (t : Text) : Text := '{' :: (t ++ ['}'])

theorem Text.getLast?_enclosed (t : Text) : t.enclosed.getLast? = some '}' := by
  rw [enclosed, ← List.cons_append, List.getLast?_concat]

theorem Text.enclosed_append (t rest : Text) : t.enclosed ++ rest = '{' :: (t ++ '}' :: rest) := by
  simp [enclosed]

namespace Spot

/-- Two texts, the nearest character first, behind which the same may begin as a name or a word. -/
structure SameFront (front front' : Text) : Prop where
  opens : ∀ more, opensAfter (more ++ front) = opensAfter (more ++ front')
  alone : ∀ more,
    Declaration.standsAlone (more ++ front) = Declaration.standsAlone (more ++ front')

namespace SameFront

variable {front front' front'' : Text}

theorem symm (h : SameFront front front') : SameFront front' front :=
  ⟨fun more => (h.opens more).symm, fun more => (h.alone more).symm⟩

theorem trans (h : SameFront front front') (h' : SameFront front' front'') :
    SameFront front front'' :=
  ⟨fun more => (h.opens more).trans (h'.opens more),
    fun more => (h.alone more).trans (h'.alone more)⟩

theorem of_boundary {d : Char} (hd : isBoundary d = true) (hdot : d ≠ '.') (front : Text) :
    SameFront (d :: front) [] := by
  refine ⟨fun text => ?_, fun text => ?_⟩
  · -- No more than four characters are looked at, and no dots but those right before the place.
    rcases text with _ | ⟨a, _ | ⟨b, _ | ⟨c, _ | ⟨e, text⟩⟩⟩⟩
    · simp [opensAfter, hd, hdot]
    · by_cases ha : a = '.' <;> simp [opensAfter, ha, hdot]
    · by_cases ha : a = '.' <;> by_cases hb : b = '.' <;> simp [opensAfter, ha, hb, hdot]
    · by_cases ha : a = '.' <;> by_cases hb : b = '.' <;> by_cases hc : c = '.' <;>
        simp [opensAfter, ha, hb, hc, hdot]
    · by_cases ha : a = '.' <;> by_cases hb : b = '.' <;> by_cases hc : c = '.' <;>
        by_cases he : e = '.' <;> simp [opensAfter, ha, hb, hc, he]
  · cases text with
    | nil => simp [Declaration.standsAlone, isIdentifierChar_of_isBoundary hd, hdot]
    | cons c text => rfl

end SameFront

end Spot

theorem inOrder_eq : InOrder (· = ·) := by
  rintro m _ m' _ rfl rfl
  rfl

theorem matches_spotsBefore {d : Char} (hd : isBrace d = true) (rest rest' : Text) (s : LexState)
    (before : Text) (offset : Nat) (x : Text) :
    List.Forall₂ (Spot.Matches (· = ·)) (spotsBefore (d :: rest) s before offset x)
      (spotsBefore (d :: rest') s before offset x) := by
  induction x generalizing s before offset with
  | nil => exact .nil
  | cons c x ih =>
    refine .cons ⟨rfl, rfl, rfl, ?_, ?_, rfl⟩ (ih _ _ _)
    · cases x <;> rfl
    · exact congrArg _ (Spot.declaration?_append_brace hd before c x rest rest' offset _)

theorem Spot.SameFront.matches_spotsFrom {R : Nat → Nat → Prop} {front front' : Text}
    (h : Spot.SameFront front front') {w w' : Nat} (s : LexState) (more : Text) {x : Text}
    (hR : ∀ y c z, x = y ++ c :: z → R (w + Text.width y) (w' + Text.width y)) :
    List.Forall₂ (Spot.Matches R) (spotsFrom s (more ++ front) w x)
      (spotsFrom s (more ++ front') w' x) := by
  induction x generalizing s more w w' with
  | nil => exact .nil
  | cons c x ih =>
    refine .cons ⟨rfl, rfl, h.opens more, rfl, ?_, ?_⟩ ?_
    · simp only [Spot.declaration?, h.alone more]
      split_ifs
      · simp only [Option.map_bind, Function.comp_def, Option.map_map]
      · rfl
    · simpa using hR [] c x rfl
    · refine ih _ (c :: more) fun y d z hx => ?_
      have := hR (c :: y) d z (by rw [hx]; rfl)
      simpa only [Text.width_cons, Nat.add_assoc] using this

theorem matches_spotsFrom {R : Nat → Nat → Prop} (front front' : Text) {w w' : Nat} (s : LexState)
    (more : Text) {x : Text}
    (hR : ∀ y c z, x = y ++ c :: z → R (w + Text.width y) (w' + Text.width y)) :
    List.Forall₂ (Spot.Matches R) (spotsFrom s (more ++ '}' :: front) w x)
      (spotsFrom s (more ++ '}' :: front') w' x) := by
  have hbrace : ∀ front, Spot.SameFront ('}' :: front) [] :=
    Spot.SameFront.of_boundary rfl (by decide)
  exact ((hbrace front).trans (hbrace front').symm).matches_spotsFrom s more hR

namespace Scopes

def opened (scopes : Scopes) : Scopes := ⟨scopes.top, scopes.top :: scopes.below⟩

theorem eq_of_matches {scopes scopes' : Scopes} (h : scopes.Matches (· = ·) scopes') :
    scopes = scopes' := by
  have hbinding : ∀ b b' : Binding, b.Matches (· = ·) b' → b = b' := by
    rintro ⟨name, qualified, since⟩ ⟨name', qualified', since'⟩ ⟨hname, hqualified, hsince⟩
    simp only [Binding.mk.injEq]
    exact ⟨hname, hqualified,
      le_antisymm ((hsince _ _ rfl).mpr le_rfl) ((hsince _ _ rfl).mp le_rfl)⟩
  have hlist : ∀ l l' : List Binding, List.Forall₂ (Binding.Matches (· = ·)) l l' → l = l' :=
    fun l l' hl => List.forall₂_eq_eq_eq.le _ _ (hl.imp hbinding)
  obtain ⟨top, below⟩ := scopes
  obtain ⟨top', below'⟩ := scopes'
  rw [Scopes.mk.injEq]
  exact ⟨hlist _ _ h.top, List.forall₂_eq_eq_eq.le _ _ (h.below.imp hlist)⟩

theorem matches_self {R : Nat → Nat → Prop} {scopes : Scopes}
    (h : scopes.All fun b => ∀ m n, R m n → (b.since ≤ m ↔ b.since ≤ n)) :
    scopes.Matches R scopes := by
  have hlist : ∀ l : List Binding, (∀ b ∈ l, ∀ m n, R m n → (b.since ≤ m ↔ b.since ≤ n)) →
      List.Forall₂ (Binding.Matches R) l l :=
    fun l hl => List.forall₂_same.mpr fun b hb => ⟨rfl, rfl, hl b hb⟩
  exact ⟨hlist _ h.1, List.forall₂_same.mpr fun l hl => hlist l (h.2 l hl)⟩

theorem All.foldl_meet {P : Binding → Prop} {scopes : Scopes} (h : scopes.All P) {id : ModuleId}
    {spots : List Spot} (hspots : ∀ s ∈ spots, ∀ b ∈ Spot.bindings id [s], P b) :
    (spots.foldl (Scopes.meet id) scopes).All P := by
  induction spots generalizing scopes with
  | nil => exact h
  | cons s spots ih =>
    exact ih (h.meet (hspots s List.mem_cons_self)) fun t ht => hspots t (List.mem_cons_of_mem _ ht)

theorem pass_append_brace (id : ModuleId) {scopes : Scopes} (h : scopes.Braceless) {skip : Nat}
    {l : List Spot} (hskip : skip ≤ l.length) {s : Spot} (hs : isBrace s.char = true)
    (rest : List Spot) :
    scopes.pass id skip (l ++ s :: rest) = scopes.pass id skip l ++
      s.char :: ((l.foldl (meet id) scopes).meet id s).pass id 0 rest := by
  induction l generalizing scopes skip with
  | nil =>
    obtain rfl : skip = 0 := by simpa using hskip
    exact pass_brace id scopes rest hs
  | cons t l ih =>
    have hmeet := h.meet id t
    cases skip with
    | succ skip => exact ih hmeet (by simpa using hskip)
    | zero =>
      have hseam : Seam (scopes.meet id t).top (t :: l) (s :: rest) :=
        Seam.of_braceCut (Or.inr (Or.inr ⟨s, rest, rfl, hs⟩)) hmeet.1
      have hat := hseam.bindingAt_eq
      simp only [List.cons_append, pass, List.foldl_cons] at hat ⊢
      rw [hat]
      cases hb : bindingAt (scopes.meet id t).top (t :: l) with
      | none => simp [ih hmeet (Nat.zero_le _)]
      | some b =>
        have hlength := length_le_of_standsAt (of_bindingAt hb).2.2
        have hle : b.name.length - 1 ≤ l.length := by
          simp only [List.length_cons] at hlength
          omega
        simp [ih hmeet hle]

/-- What is written up to a brace, and the scopes there, do not depend on what follows it. -/
theorem pass_spotsFrom_append_brace (id : ModuleId) {scopes : Scopes} (h : scopes.Braceless)
    {d : Char} (hd : isBrace d = true) (s : LexState) (before : Text) (offset : Nat)
    (x rest : Text) :
    let front := spotsBefore [d] s before offset x
    let step := (s.behind x (some d)).step d none
    scopes.pass id 0 (spotsFrom s before offset (x ++ d :: rest)) = scopes.pass id 0 front ++
      d :: ((front.foldl (meet id) scopes).meet id
          ⟨x.reverse ++ before, d, [], offset + Text.width x, step.1⟩).pass id 0
        (spotsFrom step.2 (d :: (x.reverse ++ before)) (offset + Text.width x + d.utf8Size)
          rest) := by
  intro front step
  have hmatches := matches_spotsBefore hd rest [] s before offset x
  have hself : scopes.Matches (· = ·) scopes :=
    matches_self ⟨fun _ _ => by rintro m _ rfl; rfl, fun _ _ _ _ => by rintro m _ rfl; rfl⟩
  rw [spotsFrom_append, List.head?_cons, spotsFrom, LexState.step_isBrace hd,
    pass_append_brace id h (Nat.zero_le _) hd, hself.pass_eq inOrder_eq id hmatches,
    eq_of_matches (hself.foldl_meet inOrder_eq id hmatches)]
  congr 3
  exact meet_brace_congr id _ hd rfl rfl

end Scopes

theorem offset_lt_of_mem_spotsBefore {rest : Text} {s : LexState} {before : Text} {offset : Nat}
    {x : Text} {t : Spot} (h : t ∈ spotsBefore rest s before offset x) :
    t.offset < offset + Text.width x := by
  induction x generalizing s before offset with
  | nil => simp [spotsBefore] at h
  | cons c x ih =>
    have hpos := c.utf8Size_pos
    rw [Text.width_cons]
    rcases List.mem_cons.mp h with rfl | h
    · simp only
      omega
    · have := ih h
      omega

section

variable (front : Text) (id : ModuleId) {seed : List Binding}

def writtenBefore (seed : List Binding) : Text :=
  Scopes.pass id ⟨seed, []⟩ 0 (spotsBefore ['{'] .start [] 0 front)

/-- The scopes in front of a block. -/
def scopesBefore (seed : List Binding) : Scopes :=
  (spotsBefore ['{'] .start [] 0 front).foldl (Scopes.meet id) ⟨seed, []⟩

theorem scopesBefore_all {P : Binding → Prop} (hseed : ∀ b ∈ seed, P b)
    (hdeclared : ∀ b : Binding, b.Braceless → b.since < Text.width front → P b) :
    (scopesBefore front id seed).All P := by
  refine Scopes.All.foldl_meet ⟨hseed, by simp⟩ fun s hs b hb => ?_
  obtain ⟨hname, t, ht, hsince⟩ := Spot.of_mem_bindings hb
  obtain rfl := List.mem_singleton.mp ht
  exact hdeclared b hname (by simpa [hsince] using offset_lt_of_mem_spotsBefore hs)

variable {front} {block : Text} (hfront : (LexState.start.behind front none).mode = .code)
  (hnames : ∀ b ∈ seed, b.Braceless) (hblock : block.Balanced)

include hnames in
theorem code_eq_pass (code : Text) :
    (namespaceModule code id seed).code = Scopes.pass id ⟨seed, []⟩ 0 (spots code) := by
  rw [← Block.namespaced_whole id hnames (spots_offset code)]
  rfl

include hnames in
theorem scopesBefore_braceless : (scopesBefore front id seed).Braceless :=
  scopesBefore_all front id hnames fun _ h _ => h

include hfront hnames in
theorem code_open (rest : Text) : (namespaceModule (front ++ '{' :: rest) id seed).code =
    writtenBefore front id seed ++
      '{' :: (scopesBefore front id seed).opened.pass id 0
        (spotsFrom (LexState.start.within (LexState.start.behind front none).depths 0)
          ('{' :: front.reverse) (Text.width front + 1) rest) := by
  have hstep := LexState.step_open (LexState.inCode_behind hfront) none
  rw [code_eq_pass id hnames, spots,
    Scopes.pass_spotsFrom_append_brace id ⟨hnames, by simp⟩ (d := '{') rfl,
    LexState.behind_of_mode_code hfront, hstep, Scopes.meet_open id _ rfl, List.append_nil,
    Nat.zero_add]
  rfl

include hblock in
theorem meet_enclosed (scopes : Scopes) (base : List Nat) (before : Text) (offset : Nat)
    {brace : Spot} (hbrace : brace.isCode '}' = true) :
    (((spotsBefore ['}'] (LexState.start.within base 0) before offset block).foldl
      (Scopes.meet id) scopes.opened).meet id brace) = scopes := by
  have hbraces : Spot.braces (spotsBefore ['}'] (LexState.start.within base 0) before offset
      block) = blockBraces block := by
    rw [Spot.braces, map_spotsBefore, List.head?_cons, (hblock.within base).1,
      blockBraces_eq_bracesOf]
  obtain ⟨top, inner, hfold, hcount⟩ := Scopes.foldl_meet_nested id scopes.top []
    (scopes.top :: scopes.below) (hbraces ▸ hblock.nested)
  rw [hbraces, hblock.even] at hcount
  obtain rfl : inner = [] := List.length_eq_zero_iff.mp (by simpa using hcount)
  rw [List.nil_append] at hfold
  rw [Scopes.opened, hfold, Scopes.meet_close id _ hbrace, Scopes.close]

include hfront hnames hblock in
/-- A text with a block in it, in its three parts: what stands in front of the block becomes what it
becomes in front of any, and what stands behind is namespaced in the scopes from before it. -/
theorem code_enclosed : ∃ inner : Text, ∀ back,
    (namespaceModule (front ++ block.enclosed ++ back) id seed).code =
      writtenBefore front id seed ++ inner.enclosed ++
        (scopesBefore front id seed).pass id 0 (spotsFrom (LexState.start.behind front none)
          ('}' :: (block.reverse ++ '{' :: front.reverse))
          (Text.width (front ++ block.enclosed)) back) := by
  have hscopes : (scopesBefore front id seed).Braceless := scopesBefore_braceless id hnames
  have hopened : (scopesBefore front id seed).opened.Braceless :=
    ⟨hscopes.1, List.forall_mem_cons.mpr ⟨hscopes.1, hscopes.2⟩⟩
  refine ⟨(scopesBefore front id seed).opened.pass id 0
    (spotsBefore ['}'] (LexState.start.within (LexState.start.behind front none).depths 0)
      ('{' :: front.reverse) (Text.width front + 1) block), fun back => ?_⟩
  have hsplit : front ++ block.enclosed ++ back = front ++ '{' :: (block ++ '}' :: back) := by
    rw [List.append_assoc, Text.enclosed_append]
  have hwidth : Text.width (front ++ block.enclosed) =
      Text.width front + 1 + Text.width block + '}'.utf8Size := by
    simp only [Text.enclosed, Text.width_append, Text.width_cons, Text.width_nil, Nat.add_zero,
      Nat.add_assoc]
    rfl
  have hstep := LexState.step_close (LexState.inCode_behind hfront) none
  rw [hsplit, code_open id hfront hnames,
    Scopes.pass_spotsFrom_append_brace id hopened (d := '}') rfl, (hblock.within _).2, hstep,
    meet_enclosed id hblock _ _ _ _ rfl, ← hwidth]
  simp only [List.append_assoc, Text.enclosed_append]

end

/-- **A block has no influence on the text around it.** Of two blocks whose braces match, each in
the place of the other, what is in front of them and what is behind become the same, where each
binding of the seed is in effect at the same places behind either. -/
theorem code_around_block (front block block' back : Text) (id : ModuleId) (seed : List Binding)
    (hfront : (LexState.start.behind front none).mode = .code)
    (hblock : block.Balanced) (hblock' : block'.Balanced) (hnames : ∀ b ∈ seed, b.Braceless)
    (hsince : ∀ b ∈ seed, ∀ x c y, back = x ++ c :: y →
      (b.since ≤ Text.width (front ++ block.enclosed) + Text.width x ↔
        b.since ≤ Text.width (front ++ block'.enclosed) + Text.width x)) :
    ∃ before inner inner' after : Text,
      (namespaceModule (front ++ ['{']) id seed).code = before ++ ['{'] ∧
      (namespaceModule (front ++ block.enclosed) id seed).code = before ++ inner.enclosed ∧
      (namespaceModule (front ++ block'.enclosed) id seed).code = before ++ inner'.enclosed ∧
      (namespaceModule (front ++ block.enclosed ++ back) id seed).code =
        before ++ inner.enclosed ++ after ∧
      (namespaceModule (front ++ block'.enclosed ++ back) id seed).code =
        before ++ inner'.enclosed ++ after := by
  obtain ⟨inner, hinner⟩ := code_enclosed id hfront hnames hblock
  obtain ⟨inner', hinner'⟩ := code_enclosed id hfront hnames hblock'
  let R : Nat → Nat → Prop := fun m n => ∃ x c y, back = x ++ c :: y ∧
    m = Text.width (front ++ block.enclosed) + Text.width x ∧
    n = Text.width (front ++ block'.enclosed) + Text.width x
  have hR : InOrder R := by
    rintro _ _ _ _ ⟨x, -, -, -, rfl, rfl⟩ ⟨y, -, -, -, rfl, rfl⟩
    omega
  have hscopes : (scopesBefore front id seed).Matches R (scopesBefore front id seed) := by
    refine Scopes.matches_self (scopesBefore_all front id ?_ ?_)
    · rintro b hb _ _ ⟨x, c, y, hxy, rfl, rfl⟩
      exact hsince b hb x c y hxy
    · rintro b - hlt _ _ ⟨x, c, y, -, rfl, rfl⟩
      simp only [Text.width_append]
      omega
  refine ⟨writtenBefore front id seed, inner, inner', _, ?_, ?_, ?_, hinner back, ?_⟩
  · simpa [spotsFrom, Scopes.pass] using code_open id hfront hnames []
  · simpa [spotsFrom, Scopes.pass] using hinner []
  · simpa [spotsFrom, Scopes.pass] using hinner' []
  · rw [hinner' back]
    have hspots := matches_spotsFrom (R := R) (block.reverse ++ '{' :: front.reverse)
      (block'.reverse ++ '{' :: front.reverse) (.behind .start front none) []
      (x := back) fun x c y hxy => ⟨x, c, y, hxy, rfl, rfl⟩
    exact congrArg _ (hscopes.pass_eq hR id hspots 0).symm

/-- A block within an interpolation: it declares the name that is used behind it, and has an
interpolation of its own; in its place a brace within a comment. -/
theorem code_around_block_interpolated :
    let front : Text := "let x;e(\x60$\x7bx+".toList
    let block : Text := "let x;e=\x60$\x7b\x7bx\x7d\x7d\x60".toList
    let block' : Text := "/*\x7d*/".toList
    let back : Text := "+x\x7d\x60);x".toList
    let id : ModuleId := ⟨['M']⟩
    let seed := [Binding.ofExport ['e'] id]
    ((LexState.start.behind front none).mode = .code ∧ block.Balanced ∧ block'.Balanced) ∧
      ∃ before inner inner' after : Text,
        (namespaceModule (front ++ block.enclosed ++ back) id seed).code =
          before ++ inner.enclosed ++ after ∧
        (namespaceModule (front ++ block'.enclosed ++ back) id seed).code =
          before ++ inner'.enclosed ++ after := by
  intro front block block' back id seed
  have hfront : (LexState.start.behind front none).mode = .code := by decide +kernel
  have hblock : block.Balanced := by decide +kernel
  have hblock' : block'.Balanced := by decide +kernel
  have hnames : ∀ b ∈ seed, b.Braceless := by simp [seed, Binding.ofExport, Binding.Braceless]
  have hsince : ∀ b ∈ seed, b.since = 0 := by simp [seed, Binding.ofExport]
  refine ⟨⟨hfront, hblock, hblock'⟩, ?_⟩
  obtain ⟨before, inner, inner', after, -, -, -, hcode, hcode'⟩ :=
    code_around_block front block block' back id seed hfront hblock hblock' hnames
      fun b hb x c y _ => by rw [hsince b hb]; exact iff_of_true (Nat.zero_le _) (Nat.zero_le _)
  exact ⟨before, inner, inner', after, hcode, hcode'⟩

/-- A binding that is in effect from an offset on is moved over the text by what a block holds. -/
theorem code_around_block_since :
    let id : ModuleId := ⟨['M']⟩
    let seed : List Binding := [⟨['x'], ['Q'], 3⟩]
    let wide : Text := "      ".toList
    (LexState.start.behind [] none).mode = .code ∧ Text.Balanced [] ∧ wide.Balanced ∧
      (∀ b ∈ seed, b.Braceless) ∧
      ¬ ∃ before inner inner' after : Text,
        (namespaceModule ([] ++ Text.enclosed [] ++ ['x']) id seed).code =
          before ++ inner.enclosed ++ after ∧
        (namespaceModule ([] ++ wide.enclosed ++ ['x']) id seed).code =
          before ++ inner'.enclosed ++ after := by
  intro id seed wide
  refine ⟨rfl, by decide +kernel, by decide +kernel, by simp [seed, Binding.Braceless], ?_⟩
  rintro ⟨before, inner, inner', after, hcode, hcode'⟩
  have hnarrow : (namespaceModule ([] ++ Text.enclosed [] ++ ['x']) id seed).code =
      ['{', '}', 'x'] := by decide +kernel
  have hwide : (namespaceModule ([] ++ wide.enclosed ++ ['x']) id seed).code =
      wide.enclosed ++ ['Q'] := by decide +kernel
  rw [hnarrow] at hcode
  rw [hwide] at hcode'
  -- The last character behind the block would have to be both.
  rcases List.eq_nil_or_concat after with rfl | ⟨more, c, rfl⟩
  · have := congrArg List.getLast? hcode
    simp [Text.getLast?_enclosed] at this
  · have hx := congrArg List.getLast? hcode
    have hq := congrArg List.getLast? hcode'
    simp at hx hq
    simp [← hx] at hq

end ScriptBundle
