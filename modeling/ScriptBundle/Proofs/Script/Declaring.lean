import Mathlib.Data.List.TakeWhile
import ScriptBundle.Proofs.Script.Heads
import ScriptBundle.Proofs.Script.Reading
import ScriptBundle.Proofs.Script.Relexing

/-! What a declaration looks like in the text. Behind the keyword and blanks comes the name, and
behind it, with blanks between, what ends the head of the declaration, or the word `of` or `in`. As
the keyword is code, so is all of this: words and blanks are read as code where code is read. -/
namespace ScriptBundle

theorem not_isIdentifierChar_of_isBlank {c : Char} (h : isBlank c = true) :
    isIdentifierChar c = false := by
  have hcodes : ∀ r ∈ blank.ranges, ∀ k < 11,
      r.1 + k ≤ r.2 → isIdentifierChar (Char.ofNat (r.1 + k)) = false := by decide +kernel
  have hwithin : ∀ {code : Nat} {ranges : List (Nat × Nat)}, Charset.within code ranges = true →
      ∃ r ∈ ranges, r.1 ≤ code ∧ code ≤ r.2 := by
    intro code ranges
    induction ranges with
    | nil => simp [Charset.within]
    | cons r ranges ih =>
      intro h
      rw [Charset.within] at h
      split at h
      · cases h
      · rcases Bool.or_eq_true_iff.mp h with h | h
        · exact ⟨r, List.mem_cons_self, by omega, of_decide_eq_true h⟩
        · exact (ih h).imp fun _ hr => ⟨List.mem_cons_of_mem _ hr.1, hr.2⟩
  obtain ⟨r, hr, hlow, hhigh⟩ := hwithin h
  have hshort : ∀ r ∈ blank.ranges, r.2 < r.1 + 11 := by decide
  have := hshort r hr
  have hcode := hcodes r hr (c.toNat - r.1) (by omega) (by omega)
  rwa [Nat.add_sub_cancel' hlow, Char.ofNat_toNat] at hcode

namespace Text

variable {p : Char → Bool} {t front rest word : Text} {more : List Text}

theorem span_spec (p : Char → Bool) (t : Text) : t.takeWhile p ++ t.dropWhile p = t ∧
    (∀ c ∈ t.takeWhile p, p c = true) ∧ ∀ c ∈ (t.dropWhile p).head?, p c = false := by
  refine ⟨List.takeWhile_append_dropWhile, fun c hc => List.mem_takeWhile_imp hc, fun c hc => ?_⟩
  have hnot := t.head?_dropWhile_not p
  rwa [Option.mem_def.mp hc] at hnot

theorem span_append (hfront : ∀ c ∈ front, p c = true) (hrest : ∀ c ∈ rest.head?, p c = false) :
    (front ++ rest).takeWhile p = front ∧ (front ++ rest).dropWhile p = rest := by
  rw [List.takeWhile_append_of_pos hfront, List.dropWhile_append_of_pos hfront]
  cases rest with
  | nil => simp
  | cons c rest => simp [hrest c rfl]

theorem words_append (hword : ∀ c ∈ word, isBlank c = false) (hne : word ≠ [])
    (hrest : ∀ c ∈ rest.head?, isBlank c = true) : words (word ++ rest) = word :: words rest := by
  induction word with
  | nil => exact absurd rfl hne
  | cons c word ih =>
    obtain ⟨hc, hword'⟩ := List.forall_mem_cons.mp hword
    cases word with
    | nil =>
      cases rest with
      | nil => simp [words, hc]
      | cons d rest =>
        have hd : isBlank d = true := hrest d rfl
        cases hwords : words (d :: rest) with
        | nil => exact words_singleton hc hwords
        | cons next more => exact (words_cons_cons hc hwords).trans (if_pos hd)
    | cons d word =>
      have hd : isBlank d = false := hword' d List.mem_cons_self
      have hwords := ih hword' (List.cons_ne_nil d word)
      exact (words_cons_cons hc hwords).trans (if_neg (by simp [hd]))

theorem words_append_of_blank (hfront : ∀ c ∈ front, isBlank c = true) (t : Text) :
    words (front ++ t) = words t := by
  induction front with
  | nil => rfl
  | cons c front ih =>
    obtain ⟨hc, hfront'⟩ := List.forall_mem_cons.mp hfront
    rw [List.cons_append, words_cons_blank hc, ih hfront']

theorem exists_of_words_eq_cons (h : words t = word :: more) :
    ∃ front rest, t = front ++ (word ++ rest) ∧ (∀ c ∈ front, isBlank c = true) ∧
      (∀ c ∈ word, isBlank c = false) ∧ (∀ c ∈ rest.head?, isBlank c = true) ∧
      words rest = more := by
  obtain ⟨hfront, hblank, hhead⟩ := span_spec isBlank t
  rw [← hfront, words_append_of_blank hblank] at h
  cases hdrop : t.dropWhile isBlank with
  | nil => simp [hdrop, words] at h
  | cons c rest =>
    have hc : isBlank c = false := hhead c (by simp [hdrop])
    obtain ⟨hword, hnot, hrest⟩ := span_spec (!isBlank ·) (c :: rest)
    have hne : (c :: rest).takeWhile (!isBlank ·) ≠ [] := by simp [hc]
    rw [hdrop, ← hword, words_append (by simpa using hnot) hne (by simpa using hrest)] at h
    obtain ⟨rfl, rfl⟩ := List.cons.inj h
    refine ⟨_, _, ?_, hblank, by simpa using hnot, by simpa using hrest, rfl⟩
    rw [hword, ← hdrop, hfront]

theorem exists_trim (t : Text) : ∃ front back, t = front ++ (trim t ++ back) ∧
    (∀ c ∈ front, isBlank c = true) ∧ ∀ c ∈ back, isBlank c = true := by
  obtain ⟨hfront, hblank, -⟩ := span_spec isBlank t
  obtain ⟨hback, hblank', -⟩ := span_spec isBlank (t.dropWhile isBlank).reverse
  refine ⟨_, _, ?_, hblank, fun c hc => hblank' c (List.mem_reverse.mp hc)⟩
  rw [trim, ← List.reverse_append, hback, List.reverse_reverse, hfront]

theorem words_append_blank {back : Text} (hback : ∀ c ∈ back, isBlank c = true) (t : Text) :
    words (t ++ back) = words t := by
  have hnil : words back = [] := by simpa [words] using words_append_of_blank hback []
  induction t with
  | nil => exact hnil
  | cons c t ih =>
    by_cases hc : isBlank c = true
    · rw [List.cons_append, words_cons_blank hc, words_cons_blank hc, ih]
    rw [Bool.not_eq_true] at hc
    cases t with
    | nil =>
      have hword : ∀ d ∈ [c], isBlank d = false := by simpa using hc
      rw [words_append hword (List.cons_ne_nil c []) fun d hd => hback d (List.mem_of_head? hd)]
      simp [words, hc, hnil]
    | cons d t =>
      rw [List.cons_append] at ih
      rw [List.cons_append, List.cons_append]
      cases hwords : words (d :: t) with
      | nil => rw [words_singleton hc hwords, words_singleton hc (ih.trans hwords)]
      | cons word more => rw [words_cons_cons hc hwords, words_cons_cons hc (ih.trans hwords)]

theorem words_trim (t : Text) : words (trim t) = words t := by
  obtain ⟨front, back, hsplit, hfront, hback⟩ := exists_trim t
  conv_rhs => rw [hsplit, words_append_of_blank hfront, words_append_blank hback]

theorem trim_eq {front back : Text} (hfront : ∀ c ∈ front, isBlank c = true)
    (hback : ∀ c ∈ back, isBlank c = true) (hhead : ∀ c ∈ t.head?, isBlank c = false)
    (hlast : ∀ c ∈ t.getLast?, isBlank c = false) (hne : t ≠ []) :
    trim (front ++ (t ++ back)) = t := by
  have hhead' : ∀ c ∈ (t ++ back).head?, isBlank c = false := by
    rwa [List.head?_append_of_ne_nil _ hne]
  have hback' : ∀ c ∈ back.reverse, isBlank c = true := by simpa using hback
  have hlast' : ∀ c ∈ t.reverse.head?, isBlank c = false := by simpa using hlast
  rw [trim, (span_append hfront hhead').2, List.reverse_append, (span_append hback' hlast').2,
    List.reverse_reverse]

end Text

theorem isIdentifierChar_keyword (k : Keyword) : ∀ c ∈ k.text, isIdentifierChar c = true := by
  cases k <;> exact List.all_eq_true.mp (by decide +kernel)

theorem Keyword.exists_cons (k : Keyword) :
    ∃ c t, k.text = c :: t ∧ isIdentifierChar c = true := by
  cases k <;> exact ⟨_, _, rfl, by decide +kernel⟩

namespace Declaration

theorem not_endsHead_of_isIdentifierChar {c : Char} (h : isIdentifierChar c = true) :
    endsHead c = false := by
  rw [← Bool.not_eq_true]
  intro hc
  simp only [endsHead, Bool.or_eq_true, beq_iff_eq] at hc
  rcases hc with ((rfl | rfl) | rfl) | rfl <;> exact absurd h (by decide +kernel)

def IsGap (t : Text) : Prop := ∀ c ∈ t, isBlank c = true ∧ endsHead c = false

/-- Behind the keyword stands the declaration of a name: alone in the head, or followed by `of` or
`in`. -/
inductive Declares : Text → Text → Prop
  | alone {gap name gap' rest : Text} (hgap : IsGap gap) (hname : isIdentifier name = true)
    (hgap' : IsGap gap') (hrest : ∀ c ∈ rest.head?, endsHead c = true) :
    Declares (gap ++ (name ++ (gap' ++ rest))) name
  | loop {gap name gap' word rest : Text} (hgap : IsGap gap) (hname : isIdentifier name = true)
    (hgap' : IsGap gap') (hne : gap' ≠ []) (hword : word = ['o', 'f'] ∨ word = ['i', 'n'])
    (hrest : ∀ c ∈ rest.head?, isBlank c = true ∨ endsHead c = true) :
    Declares (gap ++ (name ++ (gap' ++ (word ++ rest)))) name

variable {name rest : Text}

theorem not_isBlank_of_isIdentifier (h : isIdentifier name = true) {c : Char} (hc : c ∈ name) :
    isBlank c = false := by
  cases hblank : isBlank c with
  | false => rfl
  | true =>
    have hchar := isIdentifierChar_of_isIdentifier h hc
    rw [not_isIdentifierChar_of_isBlank hblank] at hchar
    cases hchar

theorem isIdentifier_of_loop {word : Text} (h : word = ['o', 'f'] ∨ word = ['i', 'n']) :
    isIdentifier word = true := by
  rcases h with rfl | rfl <;> decide +kernel

theorem ne_nil_of_isIdentifier (h : isIdentifier name = true) : name ≠ [] := by
  rintro rfl
  cases h

theorem declares_of_words {front back word : Text} {more : List Text}
    (hends : ∀ c ∈ front, endsHead c = false) (hback : ∀ c ∈ back.head?, endsHead c = true)
    (hname : isIdentifier name = true) (hword : word = ['o', 'f'] ∨ word = ['i', 'n'])
    (h : Text.words front = name :: word :: more) : Declares (front ++ back) name := by
  obtain ⟨gap, rest, rfl, hgap, -, hrest, hwords⟩ := Text.exists_of_words_eq_cons h
  obtain ⟨gap', rest', rfl, hgap', -, hrest', -⟩ := Text.exists_of_words_eq_cons hwords
  have hne : gap' ≠ [] := by
    rintro rfl
    rcases hword with rfl | rfl
    · exact absurd (hrest 'o' rfl) (by decide)
    · exact absurd (hrest 'i' rfl) (by decide)
  have hbehind : ∀ c ∈ (rest' ++ back).head?, isBlank c = true ∨ endsHead c = true := by
    intro c hc
    cases rest' with
    | nil => exact Or.inr (hback c hc)
    | cons d rest' => exact Or.inl (hrest' c hc)
  have hloop := Declares.loop (fun c hc => ⟨hgap c hc, hends c (by simp [hc])⟩) hname
    (fun c hc => ⟨hgap' c hc, hends c (by simp [hc])⟩) hne hword hbehind
  simpa using hloop

theorem declares_of_name? (h : name? rest = some name) : Declares rest name := by
  obtain ⟨hsplit, hends, hback⟩ := Text.span_spec (!endsHead ·) rest
  unfold name? at h
  generalize rest.takeWhile (!endsHead ·) = front at hsplit hends h
  generalize rest.dropWhile (!endsHead ·) = back at hsplit hback
  subst hsplit
  have hends' : ∀ c ∈ front, endsHead c = false := by simpa using hends
  have hback' : ∀ c ∈ back.head?, endsHead c = true := by simpa using hback
  simp only at h
  split at h
  · next hname =>
    obtain rfl := Option.some.inj h
    obtain ⟨gap, gap', htrim, hgap, hgap'⟩ := Text.exists_trim front
    generalize Text.trim front = name at htrim hname
    subst htrim
    have halone := Declares.alone (fun c hc => ⟨hgap c hc, hends' c (by simp [hc])⟩) hname
      (fun c hc => ⟨hgap' c hc, hends' c (by simp [hc])⟩) hback'
    simpa using halone
  · split at h
    · next first word more hwords =>
      split at h
      · next hword =>
        obtain rfl := Option.some.inj h
        rw [Text.words_trim] at hwords
        exact declares_of_words hends' hback' hword.2 hword.1 hwords
      · cases h
    · cases h

theorem of_mem_isIdentifier (h : isIdentifier name = true) {c : Char} (hc : c ∈ name) :
    isBlank c = false ∧ endsHead c = false :=
  ⟨not_isBlank_of_isIdentifier h hc,
    not_endsHead_of_isIdentifierChar (isIdentifierChar_of_isIdentifier h hc)⟩

theorem name?_of_alone {gap gap' : Text} (hgap : IsGap gap) (hname : isIdentifier name = true)
    (hgap' : IsGap gap') (hrest : ∀ c ∈ rest.head?, endsHead c = true) :
    name? (gap ++ (name ++ (gap' ++ rest))) = some name := by
  have hends : ∀ c ∈ gap ++ (name ++ gap'), (!endsHead c) = true := by
    simp only [List.mem_append]
    rintro c (hc | hc | hc)
    · simp [(hgap c hc).2]
    · simp [(of_mem_isIdentifier hname hc).2]
    · simp [(hgap' c hc).2]
  have hhead := (Text.span_append hends (by simpa using hrest)).1
  have htrim : Text.trim (gap ++ (name ++ gap')) = name :=
    Text.trim_eq (fun c hc => (hgap c hc).1) (fun c hc => (hgap' c hc).1)
      (fun c hc => (of_mem_isIdentifier hname (List.mem_of_head? hc)).1)
      (fun c hc => (of_mem_isIdentifier hname (List.mem_of_getLast? hc)).1)
      (ne_nil_of_isIdentifier hname)
  simp only [List.append_assoc] at hhead
  simp only [name?, hhead, htrim, hname, if_true]

theorem words_loop {gap gap' word more : Text} (hgap : IsGap gap) (hname : isIdentifier name = true)
    (hgap' : IsGap gap') (hne : gap' ≠ []) (hword : isIdentifier word = true)
    (hmore : ∀ c ∈ more.head?, isBlank c = true) :
    Text.words (gap ++ (name ++ (gap' ++ (word ++ more)))) = name :: word :: Text.words more := by
  have hbehind : ∀ c ∈ (gap' ++ (word ++ more)).head?, isBlank c = true := by
    rw [List.head?_append_of_ne_nil _ hne]
    exact fun c hc => (hgap' c (List.mem_of_head? hc)).1
  rw [Text.words_append_of_blank fun c hc => (hgap c hc).1,
    Text.words_append (fun c hc => (of_mem_isIdentifier hname hc).1) (ne_nil_of_isIdentifier hname)
      hbehind, Text.words_append_of_blank fun c hc => (hgap' c hc).1,
    Text.words_append (fun c hc => (of_mem_isIdentifier hword hc).1) (ne_nil_of_isIdentifier hword)
      hmore]

theorem not_isIdentifier_of_words {t first second : Text} {more : List Text}
    (h : Text.words t = first :: second :: more) : isIdentifier t = false := by
  rw [← Bool.not_eq_true]
  intro hone
  have hwords : Text.words (t ++ []) = t :: Text.words [] := Text.words_append
    (fun c hc => (of_mem_isIdentifier hone hc).1) (ne_nil_of_isIdentifier hone) (by simp)
  rw [List.append_nil, h] at hwords
  simp [Text.words] at hwords

theorem name?_of_loop {gap gap' word : Text} (hgap : IsGap gap) (hname : isIdentifier name = true)
    (hgap' : IsGap gap') (hne : gap' ≠ []) (hword : word = ['o', 'f'] ∨ word = ['i', 'n'])
    (hrest : ∀ c ∈ rest.head?, isBlank c = true ∨ endsHead c = true) :
    name? (gap ++ (name ++ (gap' ++ (word ++ rest)))) = some name := by
  obtain ⟨hsplit, hnot, hback⟩ := Text.span_spec (!endsHead ·) rest
  have hmore : ∀ c ∈ (rest.takeWhile (!endsHead ·)).head?, isBlank c = true := by
    intro c hc
    have hc' : c ∈ rest.head? := by
      rw [← hsplit, List.head?_append, Option.mem_def.mp hc]
      rfl
    refine (hrest c hc').resolve_right fun hends => ?_
    have := hnot c (List.mem_of_head? hc)
    simp [hends] at this
  generalize rest.takeWhile (!endsHead ·) = more at hsplit hnot hmore
  generalize rest.dropWhile (!endsHead ·) = back at hsplit hback
  subst hsplit
  have hword' := isIdentifier_of_loop hword
  have hends : ∀ c ∈ gap ++ (name ++ (gap' ++ (word ++ more))), (!endsHead c) = true := by
    simp only [List.mem_append]
    rintro c (hc | hc | hc | hc | hc)
    · simp [(hgap c hc).2]
    · simp [(of_mem_isIdentifier hname hc).2]
    · simp [(hgap' c hc).2]
    · simp [(of_mem_isIdentifier hword' hc).2]
    · exact hnot c hc
  have hhead := (Text.span_append hends hback).1
  simp only [List.append_assoc] at hhead
  have hwords := words_loop hgap hname hgap' hne hword' hmore
  rw [← Text.words_trim] at hwords
  simp [name?, hhead, not_isIdentifier_of_words hwords, hwords, hword, hname]

theorem not_isIdentifierChar_of_bounds {c : Char} (h : isBlank c = true ∨ endsHead c = true) :
    isIdentifierChar c = false := by
  rcases h with hblank | hends
  · exact not_isIdentifierChar_of_isBlank hblank
  · rw [← Bool.not_eq_true]
    intro hchar
    rw [not_endsHead_of_isIdentifierChar hchar] at hends
    cases hends

theorem Declares.exists_bounded (h : Declares rest name) : ∃ gap back,
    rest = gap ++ (name ++ back) ∧ (∀ c ∈ gap, isBlank c = true) ∧ isIdentifier name = true ∧
      ∀ c ∈ back.head?, isBlank c = true ∨ endsHead c = true := by
  have hgaps : ∀ {gap t : Text}, IsGap gap → gap ≠ [] →
      ∀ c ∈ (gap ++ t).head?, isBlank c = true ∨ endsHead c = true := by
    intro gap t hgap hne c hc
    rw [List.head?_append_of_ne_nil _ hne] at hc
    exact Or.inl (hgap c (List.mem_of_head? hc)).1
  cases h with
  | @alone gap _ gap' rest hgap hname hgap' hrest =>
    refine ⟨gap, gap' ++ rest, rfl, fun c hc => (hgap c hc).1, hname, fun c hc => ?_⟩
    cases gap' with
    | nil => exact Or.inr (hrest c hc)
    | cons d gap' => exact hgaps hgap' (List.cons_ne_nil d gap') c hc
  | @loop gap _ gap' word rest hgap hname hgap' hne hword hrest =>
    exact ⟨gap, gap' ++ (word ++ rest), rfl, fun c hc => (hgap c hc).1, hname, hgaps hgap' hne⟩

theorem Declares.exists_eq (h : Declares rest name) : ∃ gap back, rest = gap ++ (name ++ back) ∧
    (∀ c ∈ gap, isBlank c = true) ∧ isIdentifier name = true ∧
      ∀ c ∈ back.head?, isIdentifierChar c = false := by
  obtain ⟨gap, back, hrest, hgap, hname, hback⟩ := h.exists_bounded
  exact ⟨gap, back, hrest, hgap, hname, fun c hc => not_isIdentifierChar_of_bounds (hback c hc)⟩

theorem name?_eq_some_iff : name? rest = some name ↔ Declares rest name := by
  refine ⟨declares_of_name?, fun h => ?_⟩
  cases h with
  | alone hgap hname hgap' hrest => exact name?_of_alone hgap hname hgap' hrest
  | loop hgap hname hgap' hne hword hrest =>
    exact name?_of_loop hgap hname hgap' hne hword hrest

theorem afterKeyword?_eq_some_iff {text rest : Text} {k k' : Keyword} :
    afterKeyword? text k = some (k', rest) ↔
      k' = k ∧ text = k.text ++ rest ∧ ∃ c ∈ rest.head?, isBlank c = true := by
  unfold afterKeyword?
  cases hafter : Text.after? k.text text with
  | none =>
    simp only [reduceCtorEq, false_iff, not_and]
    rintro - rfl
    simp [Text.after?_eq_some_iff.mpr rfl] at hafter
  | some more =>
    rw [Text.after?_eq_some_iff] at hafter
    subst hafter
    rw [List.append_cancel_left_eq]
    cases more with
    | nil =>
      simp only [reduceCtorEq, false_iff, not_and]
      rintro - rfl
      simp
    | cons c more =>
      simp only [Option.ite_none_right_eq_some, Option.some.injEq, Prod.mk.injEq]
      constructor
      · rintro ⟨hc, rfl, rfl⟩
        exact ⟨rfl, rfl, c, rfl, hc⟩
      · rintro ⟨rfl, rfl, d, hd, hblank⟩
        obtain rfl := Option.some.inj hd
        exact ⟨hblank, rfl, rfl⟩

theorem keyword_eq_of_append {k k' : Keyword} {x y : Text} (h : k.text ++ x = k'.text ++ y) :
    k = k' := by
  cases k <;> cases k' <;> first | rfl | simp [Keyword.text] at h

end Declaration

open Declaration in
/-- A declaration begins at a spot that is code, with a keyword that stands alone, a blank behind
it, and the name. -/
theorem Spot.declaration?_eq_some_iff {s : Spot} {d : Declaration} : s.declaration? = some d ↔
    s.code = true ∧ standsAlone s.before = true ∧ d.offset = s.offset ∧
      ∃ rest, s.char :: s.after = d.keyword.text ++ rest ∧ (∃ c ∈ rest.head?, isBlank c = true) ∧
        Declares rest d.name := by
  unfold declaration?
  rw [Option.ite_none_right_eq_some, Bool.and_eq_true, and_assoc]
  refine and_congr_right fun _ => and_congr_right fun _ => ?_
  simp only [Option.bind_eq_some_iff, Option.map_eq_some_iff, Prod.exists, name?_eq_some_iff]
  constructor
  · rintro ⟨k, rest, hfind, name, hname, rfl⟩
    obtain ⟨k', -, hk⟩ := List.exists_of_findSome?_eq_some hfind
    obtain ⟨rfl, htext, hblank⟩ := afterKeyword?_eq_some_iff.mp hk
    exact ⟨rfl, rest, htext, hblank, hname⟩
  · rintro ⟨hoffset, rest, htext, hblank, hname⟩
    refine ⟨d.keyword, rest, ?_, d.name, hname, by rw [← hoffset]⟩
    have hother : ∀ k, k ≠ d.keyword → afterKeyword? (s.char :: s.after) k = none := by
      intro k hk
      by_contra hsome
      obtain ⟨p, hp⟩ := Option.ne_none_iff_exists'.mp hsome
      obtain ⟨-, htext', -⟩ := afterKeyword?_eq_some_iff.mp hp
      exact hk (keyword_eq_of_append (htext'.symm.trans htext))
    have hthis := afterKeyword?_eq_some_iff.mpr ⟨rfl, htext, hblank⟩
    cases hk : d.keyword <;> rw [hk] at hother hthis <;>
      simp [Keyword.all, List.findSome?, hother, hthis]

/-- A character of a name, or one between names. -/
def isWordChar (c : Char) : Bool := isNameChar c || isBlank c

theorem isWordChar_of_isBlank {c : Char} (h : isBlank c = true) : isWordChar c = true := by
  simp [isWordChar, h]

theorem isWordChar_of_isNameChar {c : Char} (h : isNameChar c = true) : isWordChar c = true := by
  simp [isWordChar, h]

theorem isWordChar_keyword (k : Keyword) {c : Char} (hc : c ∈ k.text) : isWordChar c = true :=
  isWordChar_of_isNameChar (isNameChar_of_isIdentifierChar (isIdentifierChar_keyword k c hc))

theorem isWordChar_of_isIdentifier {name : Text} (h : isIdentifier name = true) {c : Char}
    (hc : c ∈ name) : isWordChar c = true :=
  isWordChar_of_isNameChar (isNameChar_of_isIdentifierChar (isIdentifierChar_of_isIdentifier h hc))

namespace LexState

variable {s : LexState} {c : Char} {x : Text}

theorem step_isWordChar (hs : s.InCode) (hc : isWordChar c = true) (next : Option Char) :
    s.step c next = (true, s) := by
  have hne : ∀ {d}, isWordChar d = false → c ≠ d := by
    rintro d hd rfl
    simp [hc] at hd
  simp [step, stepCode, hs.1, hs.2, hne (d := '\'') rfl, hne (d := '"') rfl,
    hne (d := '\x60') rfl, hne (d := '/') rfl, hne (d := '{') rfl, hne (d := '}') rfl]

end LexState

namespace Spot

variable {t : Spot} {c : Char}

theorem isIdentifierChar_of_declaration? {d : Declaration} (h : t.declaration? = some d) :
    isIdentifierChar t.char = true := by
  obtain ⟨-, -, -, more, hkeyword, -⟩ := declaration?_eq_some_iff.mp h
  obtain ⟨k, text, hk, hchar⟩ := d.keyword.exists_cons
  rw [hk] at hkeyword
  exact (List.cons.inj hkeyword).1 ▸ hchar

theorem isCode_of_not_isBrace (h : isBrace t.char = false) (hc : isBrace c = true) :
    t.isCode c = false := by
  rw [← Bool.not_eq_true]
  intro hcode
  simp [isBrace_of_isCode hcode hc] at h

/-- Nothing is declared at the spot, no name begins there and no block begins or ends. -/
structure Inert (t : Spot) : Prop where
  isCode : ∀ {c}, isBrace c = true → t.isCode c = false
  declaration? : t.declaration? = none
  bindingAt : ∀ bindings rest, bindingAt bindings (t :: rest) = none

theorem inert_of_not_code (ht : t.code = false) : t.Inert where
  isCode _ := by simp [Spot.isCode, ht]
  declaration? := by simp [Spot.declaration?, ht]
  bindingAt bindings rest := by simp [ScriptBundle.bindingAt, ht]

theorem inert_of_not_isIdentifierChar (ht : isIdentifierChar t.char = false)
    (hbrace : isBrace t.char = false) : t.Inert where
  isCode := isCode_of_not_isBrace hbrace
  declaration? := by
    by_contra hsome
    obtain ⟨d, hd⟩ := Option.ne_none_iff_exists'.mp hsome
    simp [isIdentifierChar_of_declaration? hd] at ht
  bindingAt bindings rest := by simp [ScriptBundle.bindingAt, ht]

theorem inert_space (ht : t.char = ' ') : t.Inert :=
  inert_of_not_isIdentifierChar (ht ▸ rfl) (ht ▸ rfl)

theorem inert_of_within {before : Text} (hbefore : t.before = c :: before)
    (hc : isIdentifierChar c = true) (ht : isIdentifierChar t.char = true) : t.Inert where
  isCode := isCode_of_not_isBrace (not_isBrace_of_isNameChar (isNameChar_of_isIdentifierChar ht))
  declaration? := by simp [Spot.declaration?, hbefore, Declaration.standsAlone, hc]
  bindingAt bindings rest := by
    rw [← Option.not_isSome_iff_eq_none]
    intro hsome
    obtain ⟨b, hb⟩ := Option.isSome_iff_exists.mp hsome
    have hopens := opensAfter_of_bindingAt hb
    rw [hbefore] at hopens
    simp [not_isIdentifierChar_of_opensAfter hopens] at hc

end Spot

namespace Scopes

variable {id : ModuleId} {scopes : Scopes} {t : Spot} {l : List Spot}

theorem meet_of_not_isBrace (hcode : ∀ {c}, isBrace c = true → t.isCode c = false) :
    scopes.meet id t = ⟨scopes.top ++ Spot.bindings id [t], scopes.below⟩ :=
  meet_plain id scopes (hcode rfl) (hcode rfl)

theorem meet_of_declaration?_eq_none (hcode : ∀ {c}, isBrace c = true → t.isCode c = false)
    (hd : t.declaration? = none) : scopes.meet id t = scopes := by
  simp [meet_of_not_isBrace hcode, Spot.bindings, hd]

theorem pass_inert (hl : ∀ t ∈ l, t.Inert) (r : List Spot) :
    scopes.pass id 0 (l ++ r) = Spot.text l ++ scopes.pass id 0 r := by
  induction l with
  | nil => rfl
  | cons t l ih =>
    obtain ⟨ht, hl'⟩ := List.forall_mem_cons.mp hl
    rw [List.cons_append]
    simp only [pass, meet_of_declaration?_eq_none ht.isCode ht.declaration?, ht.bindingAt, ih hl']
    rfl

theorem pass_skip_inert (hl : ∀ t ∈ l, t.Inert) (r : List Spot) :
    scopes.pass id l.length (l ++ r) = scopes.pass id 0 r := by
  induction l with
  | nil => rfl
  | cons t l ih =>
    obtain ⟨ht, hl'⟩ := List.forall_mem_cons.mp hl
    rw [List.cons_append, List.length_cons]
    simp only [pass, meet_of_declaration?_eq_none ht.isCode ht.declaration?, ih hl']

end Scopes

end ScriptBundle
