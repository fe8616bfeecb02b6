import Mathlib.Data.List.Basic
import ScriptBundle.Proofs.Script.Scopes

/-! What is declared before a brace. The part of a declaration in which its name is looked for may
run on behind the brace, but the name itself is settled by what stands before it: a word with a
brace in it is no name, and neither is it `of` or `in`. -/
namespace ScriptBundle

section

variable {d : Char} (hd : isBrace d = true)

theorem eq_of_isBrace (hd : isBrace d = true) : d = '{' ∨ d = '}' := by
  simpa [isBrace] using hd

include hd

theorem isBlank_of_isBrace : isBlank d = false := by
  rcases eq_of_isBrace hd with rfl | rfl <;> rfl

theorem isIdentifierChar_of_isBrace : isIdentifierChar d = false := by
  rcases eq_of_isBrace hd with rfl | rfl <;> rfl

theorem not_mem_of_isBrace {word : Text} (hword : word.any isBrace = false) : d ∉ word :=
  fun hmem => List.any_eq_false.mp hword d hmem hd

end

namespace Text

theorem after?_append_cons {d : Char} {word : Text} (hword : d ∉ word) (text more : Text) :
    after? word (text ++ d :: more) = (after? word text).map (· ++ d :: more) := by
  induction word generalizing text with
  | nil => cases text <;> rfl
  | cons w word ih =>
    obtain ⟨hw, hrest⟩ : d ≠ w ∧ d ∉ word := by simpa using hword
    cases text with
    | nil => simp [after?, Ne.symm hw]
    | cons c text =>
      by_cases hc : w = c
      · simp only [List.cons_append, after?, hc, if_true, ih hrest]
      · simp [after?, hc]

theorem trim_append_cons {d : Char} (hd : isBlank d = false) (text more : Text) :
    trim (text ++ d :: more) =
      text.dropWhile isBlank ++ d :: (more.reverse.dropWhile isBlank).reverse := by
  have hleft : (text ++ d :: more).dropWhile isBlank = text.dropWhile isBlank ++ d :: more := by
    rw [List.dropWhile_append]
    split
    · next hempty => rw [List.isEmpty_iff.mp hempty, List.dropWhile_cons, hd]; rfl
    · rfl
  have hright : ((text.dropWhile isBlank ++ d :: more).reverse).dropWhile isBlank =
      more.reverse.dropWhile isBlank ++ d :: (text.dropWhile isBlank).reverse := by
    rw [List.reverse_append, List.reverse_cons, List.append_assoc, List.dropWhile_append]
    split
    · next hempty =>
      rw [List.isEmpty_iff.mp hempty, List.singleton_append, List.dropWhile_cons, hd]
      rfl
    · rfl
  rw [trim, hleft, hright]
  simp

theorem words_cons_blank {c : Char} (hc : isBlank c = true) (text : Text) :
    words (c :: text) = words text := by
  conv_lhs => unfold words
  exact if_pos hc

theorem words_cons_cons {c d : Char} (hc : isBlank c = false) {text word : Text}
    {more : List Text} (h : words (d :: text) = word :: more) :
    words (c :: d :: text) = if isBlank d then [c] :: word :: more else (c :: word) :: more := by
  conv_lhs => unfold words
  rw [hc, if_neg Bool.false_ne_true, h]

theorem words_singleton {c d : Char} (hc : isBlank c = false) {text : Text}
    (h : words (d :: text) = []) : words (c :: d :: text) = [[c]] := by
  conv_lhs => unfold words
  rw [hc, if_neg Bool.false_ne_true, h]

theorem words_append_cons {d : Char} (hd : isBlank d = false) (text : Text) :
    ∃ front, ∀ more, ∃ word back, words (text ++ d :: more) = front ++ word :: back ∧ d ∈ word := by
  induction text with
  | nil =>
    refine ⟨[], fun more => ?_⟩
    cases more with
    | nil => exact ⟨[d], [], by simp [words, hd], by simp⟩
    | cons e more =>
      cases hwords : words (e :: more) with
      | nil => exact ⟨[d], [], words_singleton hd hwords, by simp⟩
      | cons word back =>
        rw [List.nil_append, words_cons_cons hd hwords]
        split_ifs
        · exact ⟨[d], word :: back, rfl, by simp⟩
        · exact ⟨d :: word, back, rfl, by simp⟩
  | cons c text ih =>
    obtain ⟨front, hfront⟩ := ih
    by_cases hc : isBlank c = true
    · refine ⟨front, fun more => ?_⟩
      rw [List.cons_append, words_cons_blank hc]
      exact hfront more
    · rw [Bool.not_eq_true] at hc
      -- The character is a word of its own, or the first of the word behind it.
      obtain ⟨e, htail⟩ : ∃ e, ∀ more, ∃ tail, text ++ d :: more = e :: tail := by
        cases text with
        | nil => exact ⟨d, fun more => ⟨more, rfl⟩⟩
        | cons e text => exact ⟨e, fun more => ⟨text ++ d :: more, rfl⟩⟩
      have hjoin : ∀ more word back, words (text ++ d :: more) = word :: back →
          words (c :: text ++ d :: more) =
            if isBlank e then [c] :: word :: back else (c :: word) :: back := by
        intro more word back hwords
        obtain ⟨tail, htail⟩ := htail more
        rw [List.cons_append, htail]
        exact words_cons_cons hc (htail ▸ hwords)
      cases he : isBlank e with
      | true =>
        refine ⟨[c] :: front, fun more => ?_⟩
        obtain ⟨word, back, hwords, hmem⟩ := hfront more
        refine ⟨word, back, ?_, hmem⟩
        cases front with
        | nil => rw [hjoin more word back hwords, he]; rfl
        | cons first front => rw [hjoin more first _ hwords, he]; rfl
      | false =>
        cases front with
        | nil =>
          refine ⟨[], fun more => ?_⟩
          obtain ⟨word, back, hwords, hmem⟩ := hfront more
          exact ⟨c :: word, back, by rw [hjoin more word back hwords, he]; rfl, by simp [hmem]⟩
        | cons first front =>
          refine ⟨(c :: first) :: front, fun more => ?_⟩
          obtain ⟨word, back, hwords, hmem⟩ := hfront more
          exact ⟨word, back, by rw [hjoin more first _ hwords, he]; rfl, hmem⟩

end Text

namespace Declaration

variable {d : Char} (hd : isBrace d = true)

include hd

/-- The name is looked for in the part in front of the first character that ends it, and where a
brace comes first, in what is in front of the brace. -/
theorem name?_append_brace (text more more' : Text) :
    name? (text ++ d :: more) = name? (text ++ d :: more') := by
  have hblank := isBlank_of_isBrace hd
  by_cases hends : (text.takeWhile (!endsHead ·)).length = text.length
  · have hhead : ∀ more, ∃ more', Text.trim ((text ++ d :: more).takeWhile (!endsHead ·)) =
        text.dropWhile isBlank ++ d :: more' := by
      intro more
      have hd' : endsHead d = false := by rcases eq_of_isBrace hd with rfl | rfl <;> rfl
      rw [List.takeWhile_append, if_pos hends, List.takeWhile_cons, hd']
      exact ⟨_, Text.trim_append_cons hblank _ _⟩
    obtain ⟨front, hfront⟩ := Text.words_append_cons hblank (text.dropWhile isBlank)
    -- Neither the whole nor a word with the brace in it is a name, nor is such a word `of` or `in`.
    have hnot : ∀ t : Text, d ∈ t → isIdentifier t = false ∧ t ≠ ['o', 'f'] ∧ t ≠ ['i', 'n'] := by
      intro t ht
      refine ⟨?_, ?_, ?_⟩
      · cases hid : isIdentifier t with
        | false => rfl
        | true =>
          have hchar := isIdentifierChar_of_isIdentifier hid ht
          simp [isIdentifierChar_of_isBrace hd] at hchar
      · rintro rfl
        exact not_mem_of_isBrace hd rfl ht
      · rintro rfl
        exact not_mem_of_isBrace hd rfl ht
    obtain ⟨rest, hrest⟩ := hhead more
    obtain ⟨rest', hrest'⟩ := hhead more'
    obtain ⟨word, back, hwords, hmem⟩ := hfront rest
    obtain ⟨word', back', hwords', hmem'⟩ := hfront rest'
    simp only [name?, hrest, hrest', hwords, hwords']
    rw [(hnot _ (by simp)).1, (hnot _ (by simp)).1, if_neg Bool.false_ne_true,
      if_neg Bool.false_ne_true]
    -- Only words in front of that with the brace can be a name.
    cases front with
    | nil => cases back <;> cases back' <;> simp [(hnot word hmem).1, (hnot word' hmem').1]
    | cons name front =>
      cases front with
      | nil => simp [(hnot word hmem).2, (hnot word' hmem').2]
      | cons second front => rfl
  · simp only [name?, List.takeWhile_append, if_neg hends]

theorem afterKeyword?_append_brace (text more : Text) (k : Keyword) :
    afterKeyword? (text ++ d :: more) k =
      (afterKeyword? text k).map fun p => (p.1, p.2 ++ d :: more) := by
  have hword : d ∉ k.text := not_mem_of_isBrace hd (by cases k <;> rfl)
  unfold afterKeyword?
  rw [Text.after?_append_cons hword]
  cases Text.after? k.text text with
  | none => rfl
  | some rest =>
    cases rest with
    | nil => simp [isBlank_of_isBrace hd]
    | cons c rest =>
      simp only [Option.map_some, List.cons_append]
      split_ifs <;> rfl

end Declaration

/-- What is declared at a spot is settled by what stands before the next brace. -/
theorem Spot.declaration?_append_brace {d : Char} (hd : isBrace d = true) (before : Text) (c : Char)
    (text more more' : Text) (offset : Nat) (code : Bool) :
    (⟨before, c, text ++ d :: more, offset, code⟩ : Spot).declaration? =
      (⟨before, c, text ++ d :: more', offset, code⟩ : Spot).declaration? := by
  have hkeyword : ∀ more, Keyword.all.findSome?
      (Declaration.afterKeyword? (c :: (text ++ d :: more))) =
      (Keyword.all.findSome? (Declaration.afterKeyword? (c :: text))).map
        fun p => (p.1, p.2 ++ d :: more) := by
    intro more
    rw [List.map_findSome?]
    exact congrArg (Keyword.all.findSome? ·)
      (funext fun k => Declaration.afterKeyword?_append_brace hd (c :: text) more k)
  simp only [declaration?, hkeyword, Option.bind_map, Function.comp_def,
    Declaration.name?_append_brace hd _ more more']

end ScriptBundle
