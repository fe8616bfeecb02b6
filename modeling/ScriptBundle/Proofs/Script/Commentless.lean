import ScriptBundle.Proofs.Script.Blanking

/-! Namespacing with and without comments. Comments and the spaces in their place are kept, and at
any other spot the same name is replaced with the comments and without them, if the same is
declared. So the two texts become the same but for the comments. -/
namespace ScriptBundle

section

variable {l r : List Spot} {t : Spot}

theorem Scopes.pass_spaces (id : ModuleId) (scopes : Scopes) (hl : ∀ t ∈ l, t.char = ' ')
    (r : List Spot) :
    scopes.pass id 0 (l ++ r) = List.replicate l.length ' ' ++ scopes.pass id 0 r := by
  have htext : Spot.text l = List.replicate l.length ' ' :=
    List.eq_replicate_iff.mpr ⟨by simp [Spot.text], by simpa [Spot.text] using hl⟩
  rw [pass_inert fun t ht => Spot.inert_space (hl t ht), htext]

theorem standsAt_space {name : Text} (hname : ∀ c ∈ name, isNameChar c = true)
    (ht : t.char = ' ') : standsAt name (t :: r) = false := by
  cases name with
  | nil => rfl
  | cons c name =>
    have hc : c ≠ ' ' := ne_of_isNameChar (hname c List.mem_cons_self) rfl
    cases name <;> simp [standsAt, Spot.isCode, ht, hc.symm]

end

section

variable {s : LexState} {c : Char} {rest x before before' : Text} {offset offset' : Nat}

theorem closesBefore_blank (hs : s.inComment x.head? = false) :
    Spot.closesBefore (blankFrom s x) = Spot.closesBefore x := by
  have hhead : ∀ y : Text, Spot.closesBefore y = y.head?.all isBoundary := by
    intro y
    cases y <;> rfl
  rw [hhead, hhead]
  rcases head?_blankFrom hs with hsame | ⟨hx, hx'⟩
  · rw [hsame]
  · rw [hx, hx']
    rfl

theorem exists_spaces_cons {l : List Spot} (hl : l.length = c.utf8Size) :
    ∃ t l', l = t :: l' :=
  List.exists_cons_of_length_pos (hl ▸ c.utf8Size_pos)

theorem standsAt_blank {name : Text} (hname : ∀ c ∈ name, isNameChar c = true)
    (hs : s.Fits x.head?) : standsAt name (uncommentedFrom s before' offset' x) =
      standsAt name (spotsFrom s before offset x) := by
  induction name generalizing s x before before' offset offset' with
  | nil => rfl
  | cons d name ih =>
    cases x with
    | nil => rfl
    | cons c rest =>
      cases hcomment : s.comments c rest.head? with
      | true =>
        obtain ⟨l, hl, hlength, hread⟩ := uncommentedFrom_comment hcomment before' offset'
        obtain ⟨t, l, rfl⟩ := exists_spaces_cons hlength
        have hmark := (LexState.step_comments hcomment).1
        rw [hread, List.cons_append, standsAt_space hname (hl t List.mem_cons_self), spotsFrom]
        cases name <;> simp [standsAt, Spot.isCode, hmark]
      | false =>
        have hcloses := closesBefore_blank (LexState.inComment_step hs hcomment)
        rw [uncommentedFrom_other hs hcomment, spotsFrom]
        cases name with
        | nil => simp [standsAt, Spot.isCode, hcloses]
        | cons e name =>
          have ih' := @ih (s.step c rest.head?).2 rest (c :: before) (c :: before')
            (offset + c.utf8Size) (offset' + c.utf8Size)
            (fun d hd => hname d (List.mem_cons_of_mem _ hd)) (s.fits_step c rest.head?)
          simp [standsAt, Spot.isCode, ih']

theorem bindingAt_blank (offset : Nat) {bindings : List Binding}
    (hnames : ∀ b ∈ bindings, ∀ c ∈ b.name, isNameChar c = true) (hs : s.Fits (some c))
    (hcomment : s.comments c rest.head? = false)
    (haligned : Aligned s (some c) before before') :
    bindingAt bindings (uncommentedFrom s before' offset (c :: rest)) =
      bindingAt bindings (spotsFrom s before offset (c :: rest)) := by
  have hstands : ∀ b ∈ bindings, standsAt b.name (uncommentedFrom s before' offset (c :: rest)) =
      standsAt b.name (spotsFrom s before offset (c :: rest)) :=
    fun b hb => standsAt_blank (hnames b hb) hs
  rw [uncommentedFrom_other hs hcomment, spotsFrom] at hstands ⊢
  rw [bindingAt, bindingAt]
  cases hchar : (s.step c rest.head?).1 && isIdentifierChar c with
  | false => simp
  | true =>
    obtain ⟨hmark, hidentifier⟩ := Bool.and_eq_true_iff.mp hchar
    have hcode := LexState.inCode_of_step (isNameChar_of_isIdentifierChar hidentifier) hmark
    rw [(haligned.alike hcode).opensAfter_eq, List.filter_congr fun b hb => by rw [hstands b hb]]

theorem Scopes.meet_congr (id : ModuleId) (scopes : Scopes) {t t' : Spot} (hchar : t.char = t'.char)
    (hcode : t.code = t'.code) (hdeclared : t.declaration? = t'.declaration?) :
    scopes.meet id t = scopes.meet id t' := by
  have hbound : Spot.bindings id [t] = Spot.bindings id [t'] := by
    simp [Spot.bindings, List.filterMap_cons, hdeclared]
  simp only [meet, declare_eq, Spot.isCode, hchar, hcode, hbound]

/-- What is declared behind a spot, when what is declared there without the comments is known to be
declared in the text. -/
theorem declared_tail {t t' : Spot} {r r' : List Spot} (hoffset : t.offset = t'.offset)
    (hr : ∀ u ∈ r, t.offset < u.offset) (hr' : ∀ u ∈ r', t.offset < u.offset)
    (hsame : ∀ d, t.declaration? = some d → t'.declaration? = some d)
    (h : (t' :: r').filterMap Spot.declaration? ⊆ (t :: r).filterMap Spot.declaration?) :
    t.declaration? = t'.declaration? ∧
      r'.filterMap Spot.declaration? ⊆ r.filterMap Spot.declaration? := by
  have hcases : ∀ d ∈ (t :: r).filterMap Spot.declaration?,
      t.declaration? = some d ∨ d ∈ r.filterMap Spot.declaration? ∧ t.offset < d.offset := by
    intro d hd
    obtain ⟨u, hu, hud⟩ := List.mem_filterMap.mp hd
    rcases List.mem_cons.mp hu with rfl | hu
    · exact Or.inl hud
    · exact Or.inr ⟨List.mem_filterMap.mpr ⟨u, hu, hud⟩, (Spot.of_declaration? hud).2 ▸ hr u hu⟩
  constructor
  · cases hd : t.declaration? with
    | some d => exact (hsame d hd).symm
    | none =>
      cases hd' : t'.declaration? with
      | none => rfl
      | some d' =>
        have hmem : d' ∈ (t' :: r').filterMap Spot.declaration? :=
          List.mem_filterMap.mpr ⟨t', List.mem_cons_self, hd'⟩
        have hat := (Spot.of_declaration? hd').2
        rcases hcases d' (h hmem) with hthis | ⟨-, hlt⟩
        · rw [hd] at hthis
          cases hthis
        · omega
  · intro d hd
    obtain ⟨u, hu, hud⟩ := List.mem_filterMap.mp hd
    have hlt : t.offset < d.offset := (Spot.of_declaration? hud).2 ▸ hr' u hu
    have hmem : d ∈ (t' :: r').filterMap Spot.declaration? :=
      List.mem_filterMap.mpr ⟨u, List.mem_cons_of_mem _ hu, hud⟩
    rcases hcases d (h hmem) with hthis | ⟨hthis, -⟩
    · have hat := (Spot.of_declaration? hthis).2
      omega
    · exact hthis

theorem declared_other (hs : s.Fits (some c)) (hcomment : s.comments c rest.head? = false)
    (haligned : Aligned s (some c) before before')
    (h : (uncommentedFrom s before' offset (c :: rest)).filterMap Spot.declaration? ⊆
      (spotsFrom s before offset (c :: rest)).filterMap Spot.declaration?) :
    (⟨before, c, rest, offset, (s.step c rest.head?).1⟩ : Spot).declaration? =
        (⟨before', c, blankFrom (s.step c rest.head?).2 rest, offset, (s.step c rest.head?).1⟩ :
          Spot).declaration? ∧
      (uncommentedFrom (s.step c rest.head?).2 (c :: before') (offset + c.utf8Size)
          rest).filterMap Spot.declaration? ⊆
        (spotsFrom (s.step c rest.head?).2 (c :: before) (offset + c.utf8Size)
          rest).filterMap Spot.declaration? := by
  have hlater : ∀ (s : LexState) (before x : Text),
      ∀ u ∈ spotsFrom s before (offset + c.utf8Size) x, offset < u.offset := fun s before x u hu =>
    Nat.lt_of_lt_of_le (Nat.lt_add_of_pos_right c.utf8Size_pos) ((spotsFrom_offset _ _ _ _).2 u hu)
  rw [uncommentedFrom_other hs hcomment, spotsFrom] at h
  refine declared_tail (by rfl) (hlater _ _ _) (hlater _ _ _) (fun d hd => ?_) h
  exact declaration?_blank (haligned.alike (inCode_of_declaration? hd).1) hd

/-- Over the `skip` characters of a name that is replaced already, code is read. -/
def NameLeft (s : LexState) (skip : Nat) (x : Text) : Prop :=
  ∃ name rest, x = name ++ rest ∧ name.length = skip ∧ (∀ c ∈ name, isNameChar c = true) ∧
    (name ≠ [] → s.InCode)

theorem nameLeft_zero (s : LexState) (x : Text) : NameLeft s 0 x :=
  ⟨[], x, rfl, rfl, by simp, fun h => absurd rfl h⟩

theorem NameLeft.succ {skip : Nat} (h : NameLeft s (skip + 1) (c :: rest)) :
    s.InCode ∧ isNameChar c = true ∧ NameLeft s skip rest := by
  obtain ⟨name, more, hx, hlength, hname, hcode⟩ := h
  cases name with
  | nil => simp at hlength
  | cons d name =>
    obtain ⟨rfl, rfl⟩ := List.cons.inj hx
    obtain ⟨hc, hname'⟩ := List.forall_mem_cons.mp hname
    have hs := hcode (List.cons_ne_nil c name)
    exact ⟨hs, hc, name, more, rfl, by simpa using hlength, hname', fun _ => hs⟩

theorem NameLeft.of_bindingAt {bindings : List Binding} {b : Binding}
    (h : bindingAt bindings (spotsFrom s before offset (c :: rest)) = some b) (hs : s.InCode)
    (hname : ∀ c ∈ b.name, isNameChar c = true) : NameLeft s (b.name.length - 1) rest := by
  have htext : (c :: rest).take b.name.length = b.name := by
    have hput := (putBy_of_bindingAt h).text_eq
    rwa [← spotsFrom, Spot.text, List.map_take, ← Spot.text, text_spotsFrom] at hput
  cases hb : b.name with
  | nil => exact nameLeft_zero s rest
  | cons d name =>
    rw [hb] at htext hname
    obtain ⟨rfl, htake⟩ := List.cons.inj htext
    refine ⟨name, rest.drop name.length, ?_, rfl, fun e he => hname e (List.mem_cons_of_mem _ he),
      fun _ => hs⟩
    have hlength : name.length ≤ rest.length := by
      rw [← htake, List.length_take]
      exact Nat.min_le_right _ _
    nth_rewrite 1 [← htake]
    exact (List.take_append_drop _ _).symm

theorem NameLeft.eq_zero {skip : Nat} (h : NameLeft s skip (c :: rest))
    (hcomment : s.comments c rest.head? = true) : skip = 0 := by
  cases skip with
  | zero => rfl
  | succ skip =>
    obtain ⟨hs, hc, -⟩ := h.succ
    rw [LexState.comments_of_ne (s.not_inComment hs _) (ne_of_isNameChar hc rfl)] at hcomment
    cases hcomment

theorem Scopes.pass_of_not_code (id : ModuleId) (scopes : Scopes) {t : Spot} (ht : t.code = false)
    (r : List Spot) : scopes.pass id 0 (t :: r) = t.char :: scopes.pass id 0 r :=
  pass_inert (List.forall_mem_singleton.mpr (Spot.inert_of_not_code ht)) r

theorem isIdentifierChar_of_bindingAt {bindings : List Binding} {b : Binding} {t : Spot}
    {r : List Spot} (h : bindingAt bindings (t :: r) = some b) :
    t.code = true ∧ isIdentifierChar t.char = true := by
  rw [bindingAt] at h
  split at h
  · next hbegins => exact Bool.and_eq_true_iff.mp (Bool.and_eq_true_iff.mp hbegins).1
  · cases h

section

variable {id : ModuleId} {scopes : Scopes}
  (hmade : ∀ own : List Spot, ∀ b ∈ Spot.bindings id own, b.Named)

include hmade

theorem Scopes.head?_pass (hscopes : scopes.All Binding.Named) (s : LexState) (before : Text)
    (offset : Nat) (x : Text) :
    (scopes.pass id 0 (spotsFrom s before offset x)).head? = x.head? ∨
      ∃ c d, x.head? = some c ∧ (scopes.pass id 0 (spotsFrom s before offset x)).head? = some d ∧
        isNameChar c = true ∧ isNameChar d = true := by
  cases x with
  | nil => exact Or.inl rfl
  | cons c rest =>
    rw [spotsFrom, pass]
    split
    · next b hb =>
      have hnamed := (hscopes.meet (hmade _)).1 b (of_bindingAt hb).1
      obtain ⟨d, qualified, hqualified⟩ := List.exists_cons_of_ne_nil hnamed.2.1
      refine Or.inr ⟨c, d, rfl, by rw [hqualified]; rfl, ?_, ?_⟩
      · exact isNameChar_of_isIdentifierChar (isIdentifierChar_of_bindingAt hb).2
      · exact hnamed.2.2 d (by rw [hqualified]; simp)
    · exact Or.inl rfl

theorem Scopes.pass_blank_comment (hscopes : scopes.All Binding.Named)
    (hcomment : s.comments c rest.head? = true)
    (hrest : blankFrom (s.step c rest.head?).2 (scopes.pass id 0
        (spotsFrom (s.step c rest.head?).2 (c :: before) (offset + c.utf8Size) rest)) =
      scopes.pass id 0 (uncommentedFrom (s.step c rest.head?).2
        (List.replicate c.utf8Size ' ' ++ before') (offset + c.utf8Size) rest)) :
    blankFrom s (scopes.pass id 0 (spotsFrom s before offset (c :: rest))) =
      scopes.pass id 0 (uncommentedFrom s before' offset (c :: rest)) := by
  obtain ⟨l, hl, hlength, hread⟩ := uncommentedFrom_comment hcomment before' offset
  have hmark := (LexState.step_comments hcomment).1
  obtain ⟨hstep, hcomments⟩ := s.step_congr_head c (head?_pass hmade hscopes
    (s.step c rest.head?).2 (c :: before) (offset + c.utf8Size) rest)
  rw [hread, pass_spaces id scopes hl, hlength, spotsFrom, pass_of_not_code id scopes hmark,
    blankFrom_comment (hcomments.trans hcomment), hstep, hrest]

theorem Scopes.pass_blank_other {skip : Nat} {t : Spot}
    (ht : t = ⟨before, c, rest, offset, (s.step c rest.head?).1⟩)
    (hscopes : (scopes.meet id t).All Binding.Named) (hs : s.Fits (some c))
    (hcomment : s.comments c rest.head? = false)
    (haligned : Aligned s (some c) before before') (hskip : NameLeft s skip (c :: rest))
    (hsame : t.declaration? =
      (⟨before', c, blankFrom (s.step c rest.head?).2 rest, offset, (s.step c rest.head?).1⟩ :
        Spot).declaration?)
    (hrest : ∀ {skip}, NameLeft (s.step c rest.head?).2 skip rest →
      blankFrom (s.step c rest.head?).2 ((scopes.meet id t).pass id skip
          (spotsFrom (s.step c rest.head?).2 (c :: before) (offset + c.utf8Size) rest)) =
        (scopes.meet id t).pass id skip (uncommentedFrom (s.step c rest.head?).2 (c :: before')
          (offset + c.utf8Size) rest)) :
    blankFrom s (scopes.pass id skip (spotsFrom s before offset (c :: rest))) =
      scopes.pass id skip (uncommentedFrom s before' offset (c :: rest)) := by
  have hmeet := meet_congr id scopes (by rw [ht]) (by rw [ht]) hsame
  have hbinding := bindingAt_blank offset (fun b hb => (hscopes.1 b hb).1) hs hcomment
    haligned
  rw [uncommentedFrom_other hs hcomment, spotsFrom, ← ht] at hbinding ⊢
  cases skip with
  | succ skip =>
    obtain ⟨hcode, hc, hleft⟩ := hskip.succ
    rw [s.step_isNameChar hcode hc] at hrest hmeet ⊢
    rw [pass, pass, ← hmeet]
    exact hrest hleft
  | zero =>
    simp only [pass, ← hmeet, hbinding]
    cases hb : bindingAt (scopes.meet id t).top (t :: spotsFrom (s.step c rest.head?).2
      (c :: before) (offset + c.utf8Size) rest) with
    | some b =>
      have hnamed := hscopes.1 b (of_bindingAt hb).1
      obtain ⟨hmark, hchar⟩ := isIdentifierChar_of_bindingAt hb
      rw [ht] at hb hmark hchar
      have hc := isNameChar_of_isIdentifierChar hchar
      have hcode := LexState.inCode_of_step hc hmark
      have hleft := NameLeft.of_bindingAt hb hcode hnamed.1
      have hword : ∀ c ∈ b.qualified, isWordChar c = true := fun c hc =>
        isWordChar_of_isNameChar (hnamed.2.2 c hc)
      simp only [blankFrom_append_words hcode hword]
      rw [s.step_isNameChar hcode hc] at hrest ⊢
      rw [hrest hleft]
    | none =>
      -- What comes next is rewritten too, but the lexer looks ahead for no character of a name.
      obtain ⟨hstep, hcomments⟩ := s.step_congr_head c (head?_pass hmade hscopes
        (s.step c rest.head?).2 (c :: before) (offset + c.utf8Size) rest)
      simp only [ht] at hrest hcomments hstep ⊢
      rw [blankFrom_other (hcomments.trans hcomment), hstep, hrest (nameLeft_zero _ _)]

theorem Scopes.pass_blank {skip : Nat} (hscopes : scopes.All Binding.Named)
    (hs : s.Fits x.head?) (haligned : Aligned s x.head? before before')
    (hskip : NameLeft s skip x)
    (hdeclared : (uncommentedFrom s before' offset x).filterMap Spot.declaration? ⊆
      (spotsFrom s before offset x).filterMap Spot.declaration?) :
    blankFrom s (scopes.pass id skip (spotsFrom s before offset x)) =
      scopes.pass id skip (uncommentedFrom s before' offset x) := by
  -- Both passes are in the same scopes and owe as much of a name before each character of the text.
  induction x generalizing s scopes skip before before' offset with
  | nil => cases skip <;> rfl
  | cons c rest ih =>
    have hfits := s.fits_step c rest.head?
    cases hcomment : s.comments c rest.head? with
    | true =>
      obtain rfl := hskip.eq_zero hcomment
      obtain ⟨hthis, hblank⟩ := declared_comment hcomment before before' offset
      rw [hthis, hblank] at hdeclared
      exact pass_blank_comment hmade hscopes hcomment
        (ih hscopes hfits (Aligned.comment hcomment before before') (nameLeft_zero _ _) hdeclared)
    | false =>
      obtain ⟨hsame, htail⟩ := declared_other hs hcomment haligned hdeclared
      have hnext := hscopes.meet (hmade [⟨before, c, rest, offset, (s.step c rest.head?).1⟩])
      exact pass_blank_other hmade rfl hnext hs hcomment haligned hskip hsame fun hskip =>
        ih hnext hfits (Or.inr (haligned.other hcomment)) hskip htail

end

/-- The declarations of a text, in its order. -/
def declarations (code : Text) : List Declaration := (spots code).filterMap Spot.declaration?

theorem spots_blankComments (code : Text) :
    spots (blankComments code) = uncommentedFrom .start [] 0 code := by
  rw [uncommentedFrom, LexState.uncommented_of_not_inComment (by rfl), blankComments, spots]

/-- **Comments do not influence what is renamed, but those in heads.** All that is declared is
declared without the comments too, and what is declared only without them has a comment in its head.
Where there is no such declaration, namespacing the text without the comments is the same as leaving
them out of the namespaced text. -/
theorem blankComments_namespaceModule (code : Text) (id : ModuleId) (seed : List Binding)
    (hne : id.text ≠ []) (hid : ∀ c ∈ id.text, isIdentifierChar c = true)
    (hseed : IsExportSeed id seed) :
    let blank := blankComments code
    declarations code ⊆ declarations blank ∧
      (∀ d ∈ declarations blank, d ∈ declarations code ∨ HeadCommented .start 0 code d) ∧
      (declarations blank ⊆ declarations code →
        blankComments (namespaceModule code id seed).code =
          (namespaceModule blank id seed).code) := by
  intro blank
  have hstart : LexState.start.Fits code.head? := LexState.fits_start _
  have haligned : Aligned .start code.head? [] [] := Or.inr .nil
  have hmade : ∀ own : List Spot, ∀ b ∈ Spot.bindings id own, b.Named := fun own b hb =>
    (Spot.made_of_mem_bindings [] hb).named hne hid (Or.inl rfl)
  have hscopes : Scopes.All Binding.Named ⟨seed, []⟩ :=
    ⟨fun b hb => Binding.Made.named hne hid hseed (Or.inl hb), by simp⟩
  rw [declarations, declarations, spots_blankComments]
  refine ⟨fun d hd => declared_blank hstart haligned hd,
    fun d hd => declared_or_headCommented hstart haligned hd, fun hdeclared => ?_⟩
  rw [(namespaceModule_eq_pass code id seed hseed.braceless).1]
  rw [(namespaceModule_eq_pass blank id seed hseed.braceless).1, spots_blankComments]
  exact Scopes.pass_blank hmade hscopes hstart haligned (nameLeft_zero _ _) hdeclared

/-- Comments next to names, before a keyword and behind a head. -/
theorem blankComments_namespaceModule_beside :
    let code := "/**/let x = /* x */ 1;//y\nmodule.exports/**/= x//x".toList
    let id : ModuleId := ⟨['M']⟩
    let seed := [Binding.ofExport "module.exports".toList id]
    (id.text ≠ [] ∧ (∀ c ∈ id.text, isIdentifierChar c = true) ∧ IsExportSeed id seed) ∧
      declarations (blankComments code) ⊆ declarations code ∧
      blankComments (namespaceModule code id seed).code =
        "    let M_x =         1;   \nM    = M_x   ".toList := by
  intro code id seed
  have hne : id.text ≠ [] := List.cons_ne_nil _ _
  have hid : ∀ c ∈ id.text, isIdentifierChar c = true := List.all_eq_true.mp (by decide +kernel)
  have hseed : IsExportSeed id seed := Or.inr ⟨_, List.all_eq_true.mp (by decide +kernel), rfl⟩
  have hdeclared : declarations (blankComments code) = declarations code := by decide +kernel
  obtain ⟨-, -, hsame⟩ := blankComments_namespaceModule code id seed hne hid hseed
  exact ⟨⟨hne, hid, hseed⟩, hdeclared ▸ List.Subset.refl _,
    (hsame (hdeclared ▸ List.Subset.refl _)).trans (by decide +kernel)⟩

/-- A comment in a head, without which a name is declared. -/
theorem blankComments_namespaceModule_head :
    let code := "let x /* c */ = 1; x".toList
    let id : ModuleId := ⟨['M']⟩
    let seed := [Binding.ofExport "module.exports".toList id]
    blankComments (namespaceModule code id seed).code = "let x         = 1; x".toList ∧
      (namespaceModule (blankComments code) id seed).code = "let M_x         = 1; M_x".toList ∧
      declarations code = [] ∧ declarations (blankComments code) = [⟨.let, ['x'], 0⟩] := by
  decide +kernel

end

end ScriptBundle
