import ScriptBundle.Proofs.Script.Comments

/-! The spots and the declarations of a text without its comments. Read side by side, a text and the
text without comments have the same spots but for the comments, where the one has spots that are no
code and the other has spaces. What is around a spot differs only where a comment stands next to it,
and there a slash is as good a boundary as a space. All that is declared in the text is declared
without the comments; what is declared only without them has a comment in its head. -/
namespace ScriptBundle

def uncommentedFrom (s : LexState) (before : Text) (offset : Nat) (x : Text) : List Spot :=
  spotsFrom (s.uncommented x.head?) before offset (blankFrom s x)

/-- Texts before a place, the nearest character first, that are the same up to where boundaries
stand in both. -/
inductive Alike : Text → Text → Prop
  | nil : Alike [] []
  | cons {before before' : Text} (c : Char) (h : Alike before before') :
    Alike (c :: before) (c :: before')
  | cut {c d : Char} {before before' : Text} (hc : isBoundary c = true ∧ c ≠ '.')
    (hd : isBoundary d = true ∧ d ≠ '.') : Alike (c :: before) (d :: before')

namespace Alike

variable {before before' : Text}

theorem standsAlone_eq (h : Alike before before') :
    Declaration.standsAlone before = Declaration.standsAlone before' := by
  cases h with
  | nil => rfl
  | cons c _ => rfl
  | cut hc hd =>
    simp only [Declaration.standsAlone, isIdentifierChar_of_isBoundary hc.1,
      isIdentifierChar_of_isBoundary hd.1, bne_iff_ne.mpr hc.2, bne_iff_ne.mpr hd.2]

theorem opensAfter_dots (n : Nat) {c : Char} (hc : c ≠ '.') (before : Text) :
    Spot.opensAfter (List.replicate n '.' ++ c :: before) =
      if n = 0 then isBoundary c else decide (n = 3) := by
  match n with
  | 0 | 1 | 2 | 3 => simp [List.replicate_succ, Spot.opensAfter, hc]
  | n + 4 => simp [List.replicate_succ, Spot.opensAfter]

theorem opensAfter_eq (h : Alike before before') :
    Spot.opensAfter before = Spot.opensAfter before' := by
  -- The dots that stand nearest are the same in both.
  suffices hdots : ∀ n, Spot.opensAfter (List.replicate n '.' ++ before) =
      Spot.opensAfter (List.replicate n '.' ++ before') from hdots 0
  induction h with
  | nil => exact fun n => rfl
  | @cons before before' c _ ih =>
    intro n
    by_cases hc : c = '.'
    · subst hc
      simpa only [List.replicate_succ', List.append_assoc, List.singleton_append] using ih (n + 1)
    · rw [opensAfter_dots n hc, opensAfter_dots n hc]
  | cut hc hd =>
    intro n
    rw [opensAfter_dots n hc.2, opensAfter_dots n hd.2, hc.1, hd.1]

end Alike

/-- Within a comment the two texts need not be alike. -/
def Aligned (s : LexState) (next : Option Char) (before before' : Text) : Prop :=
  s.inComment next = true ∨ Alike before before'

section

variable {s : LexState} {c : Char} {next : Option Char} {x rest before before' : Text}
  {offset : Nat} {d : Declaration}

theorem Aligned.alike (h : Aligned s next before before') (hs : s.InCode) : Alike before before' :=
  h.resolve_left (by simp [s.not_inComment hs])

theorem Aligned.other (haligned : Aligned s (some c) before before')
    (h : s.comments c next = false) : Alike (c :: before) (c :: before') := by
  rcases haligned with hcomment | halike
  · obtain rfl := LexState.eq_newline hcomment h
    exact .cut (by decide) (by decide)
  · exact .cons c halike

theorem Aligned.comment (h : s.comments c next = true) (before before' : Text) :
    Aligned (s.step c next).2 next (c :: before) (List.replicate c.utf8Size ' ' ++ before') := by
  refine (LexState.inComment_or_eq_slash h).imp_right ?_
  rintro rfl
  exact .cut (by decide) (by decide)

theorem uncommentedFrom_other (hs : s.Fits (some c)) (h : s.comments c rest.head? = false) :
    uncommentedFrom s before offset (c :: rest) =
      ⟨before, c, blankFrom (s.step c rest.head?).2 rest, offset, (s.step c rest.head?).1⟩ ::
        uncommentedFrom (s.step c rest.head?).2 (c :: before) (offset + c.utf8Size) rest := by
  have hbehind := LexState.inComment_step hs h
  have hstep := LexState.step_uncommented hs h (head?_blankFrom hbehind)
  rw [uncommentedFrom, blankFrom_other h, List.head?_cons, spotsFrom, hstep, uncommentedFrom,
    LexState.uncommented_of_not_inComment hbehind]

theorem exists_spaces (hs : s.InCode) (n : Nat) (before : Text) (offset : Nat) (y : Text) :
    ∃ l : List Spot, (∀ t ∈ l, t.char = ' ') ∧ l.length = n ∧
      spotsFrom s before offset (List.replicate n ' ' ++ y) =
        l ++ spotsFrom s (List.replicate n ' ' ++ before) (offset + n) y := by
  induction n generalizing before offset with
  | zero => exact ⟨[], by simp, rfl, rfl⟩
  | succ n ih =>
    obtain ⟨l, hl, hlength, hrest⟩ := ih (' ' :: before) (offset + 1)
    have hstep := s.step_isWordChar hs (show isWordChar ' ' = true from by decide +kernel)
    refine ⟨⟨before, ' ', List.replicate n ' ' ++ y, offset, true⟩ :: l, ?_, by simp [hlength], ?_⟩
    · simpa using hl
    · have hmore : List.replicate n ' ' ++ ' ' :: before =
          ' ' :: (List.replicate n ' ' ++ before) := by
        rw [List.append_cons, ← List.replicate_succ', List.replicate_succ, List.cons_append]
      rw [List.replicate_succ, List.cons_append, spotsFrom, hstep]
      rw [show ' '.utf8Size = 1 from rfl, hrest, hmore, Nat.add_assoc, Nat.add_comm 1 n]
      rfl

theorem uncommentedFrom_comment (h : s.comments c rest.head? = true)
    (before : Text) (offset : Nat) :
    ∃ l : List Spot, (∀ t ∈ l, t.char = ' ') ∧ l.length = c.utf8Size ∧
      uncommentedFrom s before offset (c :: rest) =
        l ++ uncommentedFrom (s.step c rest.head?).2 (List.replicate c.utf8Size ' ' ++ before)
          (offset + c.utf8Size) rest := by
  obtain ⟨-, hcode, hsame⟩ := LexState.step_comments h
  rw [uncommentedFrom, blankFrom_comment h, uncommentedFrom, hsame]
  exact exists_spaces hcode _ _ _ _

theorem Declaration.Declares.blank {x name : Text} (h : Declares x name) (hs : s.InCode) :
    Declares (blankFrom s x) name := by
  have hgap : ∀ {gap : Text}, IsGap gap → ∀ c ∈ gap, isWordChar c = true := fun hgap c hc =>
    isWordChar_of_isBlank (hgap c hc).1
  have hhead : ∀ {x : Text} {p : Char → Prop}, ¬ p '/' → (∀ c ∈ x.head?, p c) →
      ∀ c ∈ (blankFrom s x).head?, p c := by
    intro x p hslash hx c hc
    rcases head?_blankFrom (s.not_inComment hs x.head?) with hsame | ⟨hx', -⟩
    · exact hx c (hsame ▸ hc)
    · exact absurd (hx '/' hx') hslash
  cases h with
  | alone hgap₁ hname hgap₂ hrest =>
    rw [blankFrom_append_words hs (hgap hgap₁),
      blankFrom_append_words hs fun c => isWordChar_of_isIdentifier hname,
      blankFrom_append_words hs (hgap hgap₂)]
    exact .alone hgap₁ hname hgap₂ (hhead (by decide) hrest)
  | loop hgap₁ hname hgap₂ hne hword hrest =>
    have hword' := isIdentifier_of_loop hword
    rw [blankFrom_append_words hs (hgap hgap₁),
      blankFrom_append_words hs fun c => isWordChar_of_isIdentifier hname,
      blankFrom_append_words hs (hgap hgap₂),
      blankFrom_append_words hs fun c => isWordChar_of_isIdentifier hword']
    exact .loop hgap₁ hname hgap₂ hne hword (hhead (by decide) hrest)

theorem inCode_of_declaration? {next : Option Char} {after : Text}
    (h : (⟨before, c, after, offset, (s.step c next).1⟩ : Spot).declaration? = some d) :
    s.InCode ∧ isIdentifierChar c = true := by
  have hchar : isIdentifierChar c = true := Spot.isIdentifierChar_of_declaration? h
  have hmark : (s.step c next).1 = true := (Spot.declaration?_eq_some_iff.mp h).1
  exact ⟨LexState.inCode_of_step (isNameChar_of_isIdentifierChar hchar) hmark, hchar⟩

theorem declaration?_blank (halike : Alike before before')
    (h : (⟨before, c, rest, offset, (s.step c rest.head?).1⟩ : Spot).declaration? = some d) :
    (⟨before', c, blankFrom (s.step c rest.head?).2 rest, offset, (s.step c rest.head?).1⟩ :
      Spot).declaration? = some d := by
  obtain ⟨hs, hchar⟩ := inCode_of_declaration? h
  obtain ⟨hmark, halone, hoffset, more, hkeyword, ⟨e, he, hblank⟩, hdeclares⟩ :=
    Spot.declaration?_eq_some_iff.mp h
  have hbehind : c :: blankFrom (s.step c rest.head?).2 rest =
      d.keyword.text ++ blankFrom s more := by
    have hword := isWordChar_of_isNameChar (isNameChar_of_isIdentifierChar hchar)
    rw [← blankFrom_append_words hs fun c => isWordChar_keyword d.keyword, ← hkeyword,
      blankFrom_other (comments_of_isWordChar hs hword _)]
  refine Spot.declaration?_eq_some_iff.mpr ⟨hmark, halike.standsAlone_eq ▸ halone, hoffset,
    blankFrom s more, hbehind, ⟨e, ?_, hblank⟩, hdeclares.blank hs⟩
  obtain ⟨tail, rfl⟩ := List.head?_eq_some_iff.mp he
  have hspace : ∀ d ∈ [e], isWordChar d = true := by simpa using isWordChar_of_isBlank hblank
  have hmore := blankFrom_append_words hs hspace tail
  rw [List.singleton_append] at hmore
  rw [hmore]
  rfl

/-- A keyword of the text at the declaration's offset has a comment behind it, before the end of the
part in which the name is looked for. -/
def HeadCommented (s : LexState) (offset : Nat) (x : Text) (d : Declaration) : Prop :=
  ∃ front rest, x = front ++ (d.keyword.text ++ rest) ∧ offset + Text.width front = d.offset ∧
    true ∈ ((commentMarksFrom s x).drop (front ++ d.keyword.text).length).take
      (rest.takeWhile (!Declaration.endsHead ·)).length

theorem HeadCommented.cons
    (h : HeadCommented (s.step c rest.head?).2 (offset + c.utf8Size) rest d) :
    HeadCommented s offset (c :: rest) d := by
  obtain ⟨front, more, hrest, hoffset, hcomment⟩ := h
  exact ⟨c :: front, more, by rw [hrest]; rfl, by rw [Text.width_cons, ← hoffset, Nat.add_assoc],
    hcomment⟩

theorem declaration?_of_blank (hcomment : s.comments c rest.head? = false)
    (haligned : Aligned s (some c) before before')
    (h : (⟨before', c, blankFrom (s.step c rest.head?).2 rest, offset, (s.step c rest.head?).1⟩ :
      Spot).declaration? = some d) :
    (⟨before, c, rest, offset, (s.step c rest.head?).1⟩ : Spot).declaration? = some d ∨
      HeadCommented s offset (c :: rest) d := by
  have hcode := (inCode_of_declaration? h).1
  obtain ⟨hmark, halone, hoffset, more, hkeyword, ⟨e, he, hblank⟩, hdeclares⟩ :=
    Spot.declaration?_eq_some_iff.mp h
  have hkeyword' : blankFrom s (c :: rest) = d.keyword.text ++ more := by
    rw [blankFrom_other hcomment, ← hkeyword]
  obtain ⟨back, hback, rfl⟩ :=
    exists_of_blankFrom_eq_append hcode (isIdentifierChar_keyword d.keyword) hkeyword'
  rw [hback]
  -- The name is looked for in the head alone, and a head without comments stays as it is.
  by_cases hhead : true ∈ (commentMarksFrom s back).take
      (back.takeWhile (!Declaration.endsHead ·)).length
  · refine Or.inr ⟨[], back, rfl, hoffset.symm, ?_⟩
    rwa [List.nil_append, drop_commentMarksFrom hcode fun c => isWordChar_keyword d.keyword]
  · obtain ⟨hsame, hfirst⟩ := takeWhile_blankFrom rfl (LexState.fits_of_half hcode.2 _)
      (s.not_inComment hcode _) hhead
    refine Or.inl (Spot.declaration?_eq_some_iff.mpr ⟨hmark, ?_, hoffset, back, hback,
      ⟨e, hfirst ▸ he, hblank⟩, Declaration.name?_eq_some_iff.mp ?_⟩)
    · exact (haligned.alike hcode).standsAlone_eq.trans halone
    · have hname := Declaration.name?_eq_some_iff.mpr hdeclares
      rwa [Declaration.name?, hsame, ← Declaration.name?] at hname

theorem declared_comment (hcomment : s.comments c rest.head? = true)
    (before before' : Text) (offset : Nat) :
    (spotsFrom s before offset (c :: rest)).filterMap Spot.declaration? =
        (spotsFrom (s.step c rest.head?).2 (c :: before) (offset + c.utf8Size)
          rest).filterMap Spot.declaration? ∧
      (uncommentedFrom s before' offset (c :: rest)).filterMap Spot.declaration? =
        (uncommentedFrom (s.step c rest.head?).2 (List.replicate c.utf8Size ' ' ++ before')
          (offset + c.utf8Size) rest).filterMap Spot.declaration? := by
  constructor
  · have hmark := (LexState.step_comments hcomment).1
    rw [spotsFrom, List.filterMap_cons_none (by simp [Spot.declaration?, hmark])]
  · obtain ⟨l, hl, -, hread⟩ := uncommentedFrom_comment hcomment before' offset
    have hnone : l.filterMap Spot.declaration? = [] :=
      List.filterMap_eq_nil_iff.mpr fun t ht => (Spot.inert_space (hl t ht)).declaration?
    rw [hread, List.filterMap_append, hnone, List.nil_append]

theorem declared_blank (hs : s.Fits x.head?) (haligned : Aligned s x.head? before before')
    (h : d ∈ (spotsFrom s before offset x).filterMap Spot.declaration?) :
    d ∈ (uncommentedFrom s before' offset x).filterMap Spot.declaration? := by
  induction x generalizing s before before' offset with
  | nil => cases h
  | cons c rest ih =>
    have hfits := s.fits_step c rest.head?
    cases hcomment : s.comments c rest.head? with
    | true =>
      obtain ⟨hthis, hblank⟩ := declared_comment hcomment before before' offset
      rw [hthis] at h
      rw [hblank]
      exact ih hfits (Aligned.comment hcomment before before') h
    | false =>
      rw [uncommentedFrom_other hs hcomment]
      rw [spotsFrom] at h
      obtain ⟨t, ht, hd⟩ := List.mem_filterMap.mp h
      rcases List.mem_cons.mp ht with rfl | ht
      · have halike := haligned.alike (inCode_of_declaration? hd).1
        exact List.mem_filterMap.mpr ⟨_, List.mem_cons_self, declaration?_blank halike hd⟩
      · have hmem := ih hfits (Or.inr (haligned.other hcomment))
          (List.mem_filterMap.mpr ⟨t, ht, hd⟩)
        exact ((List.sublist_cons_self _ _).filterMap Spot.declaration?).subset hmem

theorem declared_or_headCommented (hs : s.Fits x.head?)
    (haligned : Aligned s x.head? before before')
    (h : d ∈ (uncommentedFrom s before' offset x).filterMap Spot.declaration?) :
    d ∈ (spotsFrom s before offset x).filterMap Spot.declaration? ∨ HeadCommented s offset x d := by
  induction x generalizing s before before' offset with
  | nil => cases h
  | cons c rest ih =>
    have hfits := s.fits_step c rest.head?
    have hcons : ∀ {t : Spot} {r : List Spot}, d ∈ r.filterMap Spot.declaration? →
        d ∈ (t :: r).filterMap Spot.declaration? := fun {t r} hd =>
      ((List.sublist_cons_self t r).filterMap Spot.declaration?).subset hd
    cases hcomment : s.comments c rest.head? with
    | true =>
      obtain ⟨hthis, hblank⟩ := declared_comment hcomment before before' offset
      rw [hblank] at h
      rw [hthis]
      exact (ih hfits (Aligned.comment hcomment before before') h).imp_right HeadCommented.cons
    | false =>
      rw [uncommentedFrom_other hs hcomment] at h
      rw [spotsFrom]
      obtain ⟨t, ht, hd⟩ := List.mem_filterMap.mp h
      rcases List.mem_cons.mp ht with rfl | ht
      · exact (declaration?_of_blank hcomment haligned hd).imp_left fun hd =>
          List.mem_filterMap.mpr ⟨_, List.mem_cons_self, hd⟩
      · exact (ih hfits (Or.inr (haligned.other hcomment))
          (List.mem_filterMap.mpr ⟨t, ht, hd⟩)).imp hcons HeadCommented.cons

end

end ScriptBundle
