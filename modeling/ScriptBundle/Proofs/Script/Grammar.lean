import Mathlib.Data.List.Infix
import ScriptBundle.Proofs.Script.Reading

/-! The grammar of scripts. Its rules say which characters are code, without a state: strings and
comments are given by their delimiters, templates and blocks hold phrases within them. Every text
has a reading by these rules, and each has the marks that reading character by character gives. -/
namespace ScriptBundle

/-- Characters, each with whether it is code. -/
abbrev Marked := List (Char × Bool)

namespace Grammar

def literal (t : Text) : Marked := t.map (·, false)

/-- The inside of a string. A backslash takes the next character with it; no other is the quote. -/
inductive Quoted (quote : Char) : Text → Prop
  | nil : Quoted quote []
  | char {c : Char} {t : Text} (hquote : c ≠ quote) (hescape : c ≠ '\\') (h : Quoted quote t) :
    Quoted quote (c :: t)
  | escaped (c : Char) {t : Text} (h : Quoted quote t) : Quoted quote ('\\' :: c :: t)

/-- Strings and comments that end within the text. A line comment ends before a line end, which is
code again. -/
inductive Whole : Marked → Prop
  | string {quote : Char} {inside : Text} (hquote : quote = '\'' ∨ quote = '"')
    (h : Quoted quote inside) : Whole (literal (quote :: (inside ++ [quote])))
  | lineComment {inside : Text} (h : '\n' ∉ inside) :
    Whole (literal ('/' :: '/' :: inside) ++ [('\n', true)])
  | blockComment {inside : Text} (h : ¬ ['*', '/'] <:+: inside) :
    Whole (literal ('/' :: '*' :: (inside ++ ['*', '/'])))

/-- Strings and comments that the end of the text cuts off. -/
inductive Cut : Text → Prop
  | string {quote : Char} {inside : Text} (hquote : quote = '\'' ∨ quote = '"')
    (h : Quoted quote inside) : Cut (quote :: inside)
  | escape {quote : Char} {inside : Text} (hquote : quote = '\'' ∨ quote = '"')
    (h : Quoted quote inside) : Cut (quote :: (inside ++ ['\\']))
  | lineComment {inside : Text} (h : '\n' ∉ inside) : Cut ('/' :: '/' :: inside)
  | blockComment {inside : Text} (h : ¬ ['*', '/'] <:+: inside) : Cut ('/' :: '*' :: inside)

/-- How far a phrase reaches: up to the delimiter that closes it, or to the end of the text. -/
inductive Reach
  | toCloser | toEnd

/-- What there are rules for: code in braces, the inside of a template, and a whole script. -/
inductive Phrase
  | code (reach : Reach)
  | template (reach : Reach)
  | script

/-- The character is no delimiter, and it is not the first of a delimiter of two characters of
which `next` is the second. -/
def Inert (delimiters : List Char) (first : Char) (seconds : List Char) (c : Char)
    (next : Option Char) : Prop :=
  c ∉ delimiters ∧ (c = first → ∀ d ∈ next, d ∉ seconds)

abbrev IsPlain : Char → Option Char → Prop := Inert ['\'', '"', '\x60', '{', '}'] '/' ['/', '*']

abbrev IsTemplateText : Char → Option Char → Prop := Inert ['\x60', '\\'] '$' ['{']

/-- The rules. Within code a brace that opens has the one that closes it, or the text ends between
them; so the brace that closes an interpolation is the first without a partner in it. Such a brace
in a script that is in no interpolation is code. -/
inductive Reads : Phrase → Marked → Prop
  | nil (reach : Reach) : Reads (.code reach) []
  | plain {reach : Reach} {c : Char} {l : Marked} (hc : IsPlain c (l.head?.map Prod.fst))
    (h : Reads (.code reach) l) : Reads (.code reach) ((c, true) :: l)
  | whole {reach : Reach} {x l : Marked} (hx : Whole x) (h : Reads (.code reach) l) :
    Reads (.code reach) (x ++ l)
  | cut {t : Text} (ht : Cut t) : Reads (.code .toEnd) (literal t)
  | block {reach : Reach} {inside l : Marked} (hinside : Reads (.code .toCloser) inside)
    (h : Reads (.code reach) l) : Reads (.code reach) (('{', true) :: (inside ++ ('}', true) :: l))
  | cutBlock {inside : Marked} (hinside : Reads (.code .toEnd) inside) :
    Reads (.code .toEnd) (('{', true) :: inside)
  | template {reach : Reach} {inside l : Marked} (hinside : Reads (.template .toCloser) inside)
    (h : Reads (.code reach) l) :
    Reads (.code reach) (('\x60', false) :: (inside ++ ('\x60', false) :: l))
  | cutTemplate {inside : Marked} (hinside : Reads (.template .toEnd) inside) :
    Reads (.code .toEnd) (('\x60', false) :: inside)
  | templateNil (reach : Reach) : Reads (.template reach) []
  | templateText {reach : Reach} {c : Char} {l : Marked}
    (hc : IsTemplateText c (l.head?.map Prod.fst)) (h : Reads (.template reach) l) :
    Reads (.template reach) ((c, false) :: l)
  | templateEscape {reach : Reach} (c : Char) {l : Marked} (h : Reads (.template reach) l) :
    Reads (.template reach) (('\\', false) :: (c, false) :: l)
  | cutEscape : Reads (.template .toEnd) [('\\', false)]
  | interpolation {reach : Reach} {inside l : Marked} (hinside : Reads (.code .toCloser) inside)
    (h : Reads (.template reach) l) :
    Reads (.template reach) (('$', false) :: ('{', false) :: (inside ++ ('}', false) :: l))
  | cutInterpolation {inside : Marked} (hinside : Reads (.code .toEnd) inside) :
    Reads (.template .toEnd) (('$', false) :: ('{', false) :: inside)
  | last {l : Marked} (h : Reads (.code .toEnd) l) : Reads .script l
  | stray {inside l : Marked} (hinside : Reads (.code .toCloser) inside) (h : Reads .script l) :
    Reads .script (inside ++ ('}', true) :: l)

/-- Read in the one state and before `next`, the characters have these marks and leave the other
state. -/
def Passes (next : Option Char) (s : LexState) (l : Marked) (s' : LexState) : Prop :=
  marksBefore next s (l.map Prod.fst) = l.map Prod.snd ∧ s.behind (l.map Prod.fst) next = s'

namespace Passes

variable {next : Option Char} {s u s' : LexState} {l l' : Marked} {c : Char} {mark : Bool}

theorem nil : Passes next s [] s := ⟨rfl, rfl⟩

theorem cons (hstep : s.step c ((l.head?.map Prod.fst).or next) = (mark, u))
    (h : Passes next u l s') : Passes next s ((c, mark) :: l) s' := by
  rw [← List.head?_map] at hstep
  simp only [Passes, List.map_cons, marksBefore, LexState.behind, hstep]
  exact ⟨congrArg _ h.1, h.2⟩

theorem append (h : Passes ((l'.head?.map Prod.fst).or next) s l u) (h' : Passes next u l' s') :
    Passes next s (l ++ l') s' := by
  rw [← List.head?_map] at h
  simp only [Passes, List.map_append, marksBefore_append, LexState.behind_append, h.1, h.2]
  exact ⟨congrArg _ h'.1, h'.2⟩

end Passes

variable {next : Option Char} {depths : List Nat} {inside t : Text} {l : Marked}

theorem passes_quoted {quote : Char} (h : Quoted quote inside) :
    Passes next ⟨.quoted quote false, depths, false⟩ (literal inside)
      ⟨.quoted quote false, depths, false⟩ := by
  induction h with
  | nil => exact .nil
  | char hquote hescape _ ih =>
    exact .cons (by simp [LexState.step, LexState.stepQuoted, hquote, hescape]) ih
  | escaped c _ ih =>
    refine .cons (u := ⟨.quoted quote true, depths, false⟩)
      (by simp [LexState.step, LexState.stepQuoted]) ?_
    exact .cons (by simp [LexState.step, LexState.stepQuoted]) ih

theorem passes_lineComment (h : '\n' ∉ inside) :
    Passes next ⟨.lineComment, depths, false⟩ (literal inside) ⟨.lineComment, depths, false⟩ := by
  induction inside with
  | nil => exact .nil
  | cons c inside ih =>
    obtain ⟨hc, hinside⟩ : '\n' ≠ c ∧ '\n' ∉ inside := by simpa using h
    exact .cons (by simp [LexState.step, hc.symm]) (ih hinside)

theorem passes_blockComment (h : ¬ ['*', '/'] <:+: inside) (hnext : next ≠ some '/') :
    Passes next ⟨.blockComment, depths, false⟩ (literal inside)
      ⟨.blockComment, depths, false⟩ := by
  induction inside with
  | nil => exact .nil
  | cons c inside ih =>
    have hinside : ¬ ['*', '/'] <:+: inside := fun hin =>
      h (hin.trans (List.infix_cons List.infix_rfl))
    refine .cons ?_ (ih hinside)
    have hopen : ¬ (c = '*' ∧ ((literal inside).head?.map Prod.fst).or next = some '/') := by
      rintro ⟨rfl, hslash⟩
      cases inside with
      | nil => exact hnext (by simpa [literal] using hslash)
      | cons d inside =>
        obtain rfl : d = '/' := by simpa [literal] using hslash
        exact h ⟨[], inside, rfl⟩
    simp only [LexState.step, Bool.false_eq_true, if_false]
    exact if_neg hopen

theorem literal_append (t t' : Text) : literal (t ++ t') = literal t ++ literal t' :=
  List.map_append

theorem passes_openQuote {quote : Char} (hquote : quote = '\'' ∨ quote = '"')
    {s : LexState} (h : Passes next ⟨.quoted quote false, depths, false⟩ l s) :
    Passes next ⟨.code, depths, false⟩ ((quote, false) :: l) s :=
  .cons (by simp [LexState.step, LexState.stepCode, hquote]) h

theorem passes_openComment {second : Char} {mode : Mode} {s : LexState}
    (hmode : second = '/' ∧ mode = .lineComment ∨ second = '*' ∧ mode = .blockComment)
    (h : Passes next ⟨mode, depths, false⟩ l s) :
    Passes next ⟨.code, depths, false⟩ (('/', false) :: (second, false) :: l) s := by
  refine .cons (u := ⟨mode, depths, true⟩) ?_ (.cons (by simp [LexState.step]) h)
  rcases hmode with ⟨rfl, rfl⟩ | ⟨rfl, rfl⟩ <;> simp [LexState.step, LexState.stepCode]

theorem passes_whole (h : Whole l) :
    Passes next ⟨.code, depths, false⟩ l ⟨.code, depths, false⟩ := by
  cases h with
  | @string quote inside hquote h =>
    refine passes_openQuote hquote ?_
    rw [← literal, literal_append]
    refine .append (passes_quoted h) (.cons ?_ .nil)
    have hescape : quote ≠ '\\' := by rcases hquote with rfl | rfl <;> decide
    simp [LexState.step, LexState.stepQuoted, hescape]
  | lineComment h =>
    refine passes_openComment (Or.inl ⟨rfl, rfl⟩) ?_
    exact .append (passes_lineComment h) (.cons (by simp [LexState.step]) .nil)
  | blockComment h =>
    refine passes_openComment (Or.inr ⟨rfl, rfl⟩) ?_
    rw [← literal, literal_append]
    refine .append (passes_blockComment h (by simp [literal])) ?_
    exact .cons (u := ⟨.code, depths, true⟩) (by simp [LexState.step])
      (.cons (by simp [LexState.step]) .nil)

theorem exists_passes_cut (h : Cut t) (depths : List Nat) :
    ∃ s, Passes none ⟨.code, depths, false⟩ (literal t) s := by
  cases h with
  | string hquote h => exact ⟨_, passes_openQuote hquote (passes_quoted h)⟩
  | @escape quote inside hquote h =>
    refine ⟨⟨.quoted quote true, depths, false⟩, passes_openQuote hquote ?_⟩
    rw [← literal, literal_append]
    exact .append (passes_quoted h) (.cons (by simp [LexState.step, LexState.stepQuoted]) .nil)
  | lineComment h => exact ⟨_, passes_openComment (Or.inl ⟨rfl, rfl⟩) (passes_lineComment h)⟩
  | blockComment h =>
    exact ⟨_, passes_openComment (Or.inr ⟨rfl, rfl⟩) (passes_blockComment h (by simp))⟩

namespace Phrase

def follower : Phrase → Option Char
  | .code .toCloser => some '}'
  | .template .toCloser => some '\x60'
  | _ => none

/-- The state in which a phrase is read that stands in such interpolations; a script is in none. -/
def state (depths : List Nat) : Phrase → LexState
  | .code _ => ⟨.code, depths, false⟩
  | .template _ => ⟨.template false, depths, false⟩
  | .script => .start

end Phrase

variable {c : Char}

section Inert

variable {delimiters seconds : List Char} {first : Char}

theorem Inert.or {closer : Option Char} (h : Inert delimiters first seconds c next)
    (hcloser : ∀ d ∈ closer, d ∉ seconds) : Inert delimiters first seconds c (next.or closer) := by
  cases next with
  | some d => exact h
  | none => exact ⟨h.1, fun _ => hcloser⟩

theorem Inert.congr {d : Option Char} (h : Inert delimiters first seconds c next)
    (hd : d = none ∨ d = next) : Inert delimiters first seconds c d := by
  rcases hd with rfl | rfl
  · exact ⟨h.1, fun _ => by simp⟩
  · exact h

theorem not_inert (h : ¬ Inert delimiters first seconds c next) :
    c ∈ delimiters ∨ c = first ∧ ∃ d ∈ seconds, next = some d := by
  by_contra hnot
  obtain ⟨hc, hnext⟩ := not_or.mp hnot
  exact h ⟨hc, fun hfirst d hd hmem => hnext ⟨hfirst, d, hmem, hd⟩⟩

end Inert

theorem step_isPlain (h : IsPlain c next) :
    LexState.step ⟨.code, depths, false⟩ c next = (true, ⟨.code, depths, false⟩) := by
  obtain ⟨hmem, hslash⟩ := h
  simp only [List.mem_cons, List.not_mem_nil, or_false, not_or] at hmem
  have hline : ¬ (c = '/' ∧ next = some '/') := fun h => hslash h.1 _ h.2 (by simp)
  have hblock : ¬ (c = '/' ∧ next = some '*') := fun h => hslash h.1 _ h.2 (by simp)
  simp only [LexState.step, LexState.stepCode, hmem, hline, hblock, Bool.false_eq_true, if_false,
    or_self]

theorem step_isTemplateText (h : IsTemplateText c next) :
    LexState.step ⟨.template false, depths, false⟩ c next =
      (false, ⟨.template false, depths, false⟩) := by
  obtain ⟨hmem, hdollar⟩ := h
  simp only [List.mem_cons, List.not_mem_nil, or_false, not_or] at hmem
  have hopen : ¬ (c = '$' ∧ next = some '{') := fun h => hdollar h.1 _ h.2 (by simp)
  simp only [LexState.step, LexState.stepTemplate, hmem, hopen, Bool.false_eq_true, if_false]

/-- A phrase is read with the marks it has, and one that is closed leaves the state before it. -/
theorem exists_passes {p : Phrase} (h : Reads p l) (depths : List Nat) :
    ∃ s, Passes p.follower (p.state depths) l s ∧ (p.follower ≠ none → s = p.state depths) := by
  induction h generalizing depths with
  | nil reach => exact ⟨_, .nil, fun _ => rfl⟩
  | @plain reach _ _ hc _ ih =>
    obtain ⟨s, hs, hclosed⟩ := ih depths
    have hcloser : ∀ d ∈ (Phrase.code reach).follower, d ∉ ['/', '*'] := by
      cases reach <;> simp [Phrase.follower]
    exact ⟨s, .cons (step_isPlain (hc.or hcloser)) hs, hclosed⟩
  | whole hx _ ih =>
    obtain ⟨s, hs, hclosed⟩ := ih depths
    exact ⟨s, .append (passes_whole hx) hs, hclosed⟩
  | cut ht =>
    obtain ⟨s, hs⟩ := exists_passes_cut ht depths
    exact ⟨s, hs, fun h => absurd rfl h⟩
  | block _ _ ihinside ih =>
    obtain ⟨s, hs, hclosed⟩ := ih depths
    obtain ⟨s', hs', hback⟩ := ihinside (LexState.deepen depths)
    obtain rfl := hback (by simp [Phrase.follower])
    refine ⟨s, .cons ?_ (.append hs' (.cons ?_ hs)), hclosed⟩
    · simp [Phrase.state, LexState.step, LexState.stepCode]
    · cases depths <;> simp [Phrase.state, LexState.step, LexState.stepCode, LexState.deepen]
  | cutBlock _ ih =>
    obtain ⟨s, hs, -⟩ := ih (LexState.deepen depths)
    refine ⟨s, .cons ?_ hs, fun h => absurd rfl h⟩
    simp [Phrase.state, LexState.step, LexState.stepCode]
  | template _ _ ihinside ih =>
    obtain ⟨s, hs, hclosed⟩ := ih depths
    obtain ⟨s', hs', hback⟩ := ihinside depths
    obtain rfl := hback (by simp [Phrase.follower])
    refine ⟨s, .cons ?_ (.append hs' (.cons ?_ hs)), hclosed⟩
    · simp [Phrase.state, LexState.step, LexState.stepCode]
    · simp [Phrase.state, LexState.step, LexState.stepTemplate]
  | cutTemplate _ ih =>
    obtain ⟨s, hs, -⟩ := ih depths
    refine ⟨s, .cons ?_ hs, fun h => absurd rfl h⟩
    simp [Phrase.state, LexState.step, LexState.stepCode]
  | templateNil reach => exact ⟨_, .nil, fun _ => rfl⟩
  | @templateText reach _ _ hc _ ih =>
    obtain ⟨s, hs, hclosed⟩ := ih depths
    have hcloser : ∀ d ∈ (Phrase.template reach).follower, d ∉ ['{'] := by
      cases reach <;> simp [Phrase.follower]
    exact ⟨s, .cons (step_isTemplateText (hc.or hcloser)) hs, hclosed⟩
  | templateEscape c _ ih =>
    obtain ⟨s, hs, hclosed⟩ := ih depths
    refine ⟨s, .cons (u := ⟨.template true, depths, false⟩) ?_ (.cons ?_ hs), hclosed⟩
    · simp [Phrase.state, LexState.step, LexState.stepTemplate]
    · simp [Phrase.state, LexState.step, LexState.stepTemplate]
  | cutEscape =>
    refine ⟨⟨.template true, depths, false⟩, .cons ?_ .nil, fun h => absurd rfl h⟩
    simp [Phrase.state, LexState.step, LexState.stepTemplate]
  | interpolation _ _ ihinside ih =>
    obtain ⟨s, hs, hclosed⟩ := ih depths
    obtain ⟨s', hs', hback⟩ := ihinside (0 :: depths)
    obtain rfl := hback (by simp [Phrase.follower])
    refine ⟨s, .cons (u := ⟨.code, 0 :: depths, true⟩) ?_
      (.cons ?_ (.append hs' (.cons ?_ hs))), hclosed⟩
    · simp [Phrase.state, LexState.step, LexState.stepTemplate]
    · simp [Phrase.state, LexState.step]
    · simp [Phrase.state, LexState.step, LexState.stepCode]
  | cutInterpolation _ ih =>
    obtain ⟨s, hs, -⟩ := ih (0 :: depths)
    refine ⟨s, .cons (u := ⟨.code, 0 :: depths, true⟩) ?_ (.cons ?_ hs), fun h => absurd rfl h⟩
    · simp [Phrase.state, LexState.step, LexState.stepTemplate]
    · simp [Phrase.state, LexState.step]
  | last _ ih =>
    obtain ⟨s, hs, -⟩ := ih []
    exact ⟨s, hs, fun h => absurd rfl h⟩
  | stray _ _ ihinside ih =>
    obtain ⟨s, hs, hclosed⟩ := ih []
    obtain ⟨s', hs', hback⟩ := ihinside []
    obtain rfl := hback (by simp [Phrase.follower])
    refine ⟨s, .append hs' (.cons ?_ hs), hclosed⟩
    simp [Phrase.state, LexState.step, LexState.stepCode, LexState.start]

theorem map_fst_literal (t : Text) : (literal t).map Prod.fst = t := by
  simp [literal, Function.comp_def]

theorem quoted_or_cut (quote : Char) : ∀ t : Text,
    (∃ inside rest, t = inside ++ quote :: rest ∧ Quoted quote inside) ∨ Quoted quote t ∨
      ∃ inside, t = inside ++ ['\\'] ∧ Quoted quote inside
  | [] => Or.inr (Or.inl .nil)
  | [c] => by
    by_cases hescape : c = '\\'
    · exact Or.inr (Or.inr ⟨[], by rw [hescape]; rfl, .nil⟩)
    · by_cases hquote : c = quote
      · exact Or.inl ⟨[], [], by rw [hquote]; rfl, .nil⟩
      · exact Or.inr (Or.inl (.char hquote hescape .nil))
  | c :: d :: t => by
    by_cases hescape : c = '\\'
    · subst hescape
      rcases quoted_or_cut quote t with ⟨inside, rest, rfl, h⟩ | h | ⟨inside, rfl, h⟩
      · exact Or.inl ⟨_, rest, rfl, .escaped d h⟩
      · exact Or.inr (Or.inl (.escaped d h))
      · exact Or.inr (Or.inr ⟨_, rfl, .escaped d h⟩)
    by_cases hquote : c = quote
    · exact Or.inl ⟨[], d :: t, by rw [hquote]; rfl, .nil⟩
    · rcases quoted_or_cut quote (d :: t) with ⟨inside, rest, h', h⟩ | h | ⟨inside, h', h⟩
      · exact Or.inl ⟨c :: inside, rest, by rw [h']; rfl, .char hquote hescape h⟩
      · exact Or.inr (Or.inl (.char hquote hescape h))
      · exact Or.inr (Or.inr ⟨c :: inside, by rw [h']; rfl, .char hquote hescape h⟩)

theorem comment_or_cut (t : Text) :
    (∃ inside rest, t = inside ++ '*' :: '/' :: rest ∧ ¬ ['*', '/'] <:+: inside) ∨
      ¬ ['*', '/'] <:+: t := by
  induction t with
  | nil => exact Or.inr (by simp)
  | cons c t ih =>
    by_cases hends : ['*', '/'] <+: c :: t
    · obtain ⟨rest, hrest⟩ := hends
      exact Or.inl ⟨[], rest, hrest.symm, by simp⟩
    rcases ih with ⟨inside, rest, rfl, h⟩ | h
    · refine Or.inl ⟨c :: inside, rest, rfl, fun hin => ?_⟩
      rcases List.infix_cons_iff.mp hin with hstart | hin
      · exact hends (hstart.trans (List.prefix_append _ _))
      · exact h hin
    · exact Or.inr fun hin => (List.infix_cons_iff.mp hin).elim hends h

/-- The text begins with a phrase that the closing character stands behind, or the whole of it is
one. -/
def Begins (phrase : Reach → Phrase) (closer : Char) (t : Text) : Prop :=
  (∃ l rest, t = l.map Prod.fst ++ closer :: rest ∧ Reads (phrase .toCloser) l) ∨
    ∃ l, t = l.map Prod.fst ∧ Reads (phrase .toEnd) l

theorem Begins.prepend {phrase : Reach → Phrase} {closer : Char} {x : Marked}
    (hx : ∀ reach l, l.head?.map Prod.fst = none ∨ l.head?.map Prod.fst = t.head? →
      Reads (phrase reach) l → Reads (phrase reach) (x ++ l))
    (h : Begins phrase closer t) : Begins phrase closer (x.map Prod.fst ++ t) := by
  rcases h with ⟨l, rest, rfl, h⟩ | ⟨l, rfl, h⟩
  · refine Or.inl ⟨x ++ l, rest, by simp, hx .toCloser l ?_ h⟩
    cases l with
    | nil => exact Or.inl rfl
    | cons y l => exact Or.inr rfl
  · exact Or.inr ⟨x ++ l, by simp, hx .toEnd l (Or.inr (by simp)) h⟩

theorem Begins.stretch {phrase : Reach → Phrase} {closer : Char}
    (ih : ∀ t' : Text, t'.length < t.length → Begins phrase closer t') (x : Marked) (rest : Text)
    (ht : t = x.map Prod.fst ++ rest) (hne : x ≠ [])
    (hx : ∀ reach l, Reads (phrase reach) l → Reads (phrase reach) (x ++ l)) :
    Begins phrase closer t := by
  have hpos := List.length_pos_iff.mpr hne
  have hlength : rest.length < t.length := by
    rw [ht, List.length_append, List.length_map]
    omega
  rw [ht]
  exact (ih rest hlength).prepend fun reach l _ => hx reach l

/-- All shorter texts begin with what the rules allow. -/
structure Shorter (t : Text) : Prop where
  code : ∀ t' : Text, t'.length < t.length → Begins .code '}' t'
  template : ∀ t' : Text, t'.length < t.length → Begins .template '\x60' t'

theorem begins_string (hquote : c = '\'' ∨ c = '"') (ih : Shorter (c :: t)) :
    Begins .code '}' (c :: t) := by
  rcases quoted_or_cut c t with ⟨inside, rest, rfl, h⟩ | h | ⟨inside, rfl, h⟩
  · exact .stretch ih.code (literal (c :: (inside ++ [c]))) rest (by simp [map_fst_literal])
      (by simp [literal]) fun _ _ => .whole (.string hquote h)
  · exact Or.inr ⟨_, (map_fst_literal _).symm, .cut (.string hquote h)⟩
  · exact Or.inr ⟨_, (map_fst_literal _).symm, .cut (.escape hquote h)⟩

theorem begins_lineComment (ih : Shorter ('/' :: '/' :: t)) :
    Begins .code '}' ('/' :: '/' :: t) := by
  by_cases hmem : '\n' ∈ t
  · obtain ⟨inside, rest, rfl, h⟩ := List.eq_append_cons_of_mem hmem
    exact .stretch ih.code (literal ('/' :: '/' :: inside) ++ [('\n', true)]) rest
      (by simp [map_fst_literal]) (by simp) fun _ _ => .whole (.lineComment h)
  · exact Or.inr ⟨_, (map_fst_literal _).symm, .cut (.lineComment hmem)⟩

theorem begins_blockComment (ih : Shorter ('/' :: '*' :: t)) :
    Begins .code '}' ('/' :: '*' :: t) := by
  rcases comment_or_cut t with ⟨inside, rest, rfl, h⟩ | h
  · exact .stretch ih.code (literal ('/' :: '*' :: (inside ++ ['*', '/']))) rest
      (by simp [map_fst_literal]) (by simp [literal]) fun _ _ => .whole (.blockComment h)
  · exact Or.inr ⟨_, (map_fst_literal _).symm, .cut (.blockComment h)⟩

theorem begins_block (ih : Shorter ('{' :: t)) : Begins .code '}' ('{' :: t) := by
  rcases ih.code t (by simp) with ⟨inside, rest, rfl, hinside⟩ | ⟨inside, rfl, hinside⟩
  · exact .stretch ih.code (('{', true) :: (inside ++ [('}', true)])) rest (by simp) (by simp)
      fun _ _ h => by simpa using Reads.block hinside h
  · exact Or.inr ⟨_, rfl, .cutBlock hinside⟩

theorem begins_template (ih : Shorter ('\x60' :: t)) : Begins .code '}' ('\x60' :: t) := by
  rcases ih.template t (by simp) with ⟨inside, rest, rfl, hinside⟩ | ⟨inside, rfl, hinside⟩
  · exact .stretch ih.code (('\x60', false) :: (inside ++ [('\x60', false)])) rest (by simp)
      (by simp) fun _ _ h => by simpa using Reads.template hinside h
  · exact Or.inr ⟨_, rfl, .cutTemplate hinside⟩

theorem begins_escape (ih : Shorter ('\\' :: t)) : Begins .template '\x60' ('\\' :: t) := by
  cases t with
  | nil => exact Or.inr ⟨_, rfl, .cutEscape⟩
  | cons c t =>
    exact .stretch ih.template [('\\', false), (c, false)] t rfl (by simp) fun _ _ =>
      .templateEscape c

theorem begins_interpolation (ih : Shorter ('$' :: '{' :: t)) :
    Begins .template '\x60' ('$' :: '{' :: t) := by
  have hlength : t.length < ('$' :: '{' :: t).length := by
    simp only [List.length_cons]
    omega
  rcases ih.code t hlength with ⟨inside, rest, rfl, hinside⟩ | ⟨inside, rfl, hinside⟩
  · exact .stretch ih.template (('$', false) :: ('{', false) :: (inside ++ [('}', false)]))
      rest (by simp) (by simp) fun _ _ h => by simpa using Reads.interpolation hinside h
  · exact Or.inr ⟨_, rfl, .cutInterpolation hinside⟩

theorem begins (t : Text) : Begins .code '}' t ∧ Begins .template '\x60' t := by
  induction hlength : t.length using Nat.strongRecOn generalizing t with
  | ind n hn =>
    subst hlength
    have ih : Shorter t :=
      ⟨fun t' ht' => (hn t'.length ht' t' rfl).1, fun t' ht' => (hn t'.length ht' t' rfl).2⟩
    cases t with
    | nil => exact ⟨Or.inr ⟨[], rfl, .nil _⟩, Or.inr ⟨[], rfl, .templateNil _⟩⟩
    | cons c t =>
      constructor
      · by_cases hplain : IsPlain c t.head?
        · exact (ih.code t (by simp)).prepend (x := [(c, true)])
            fun _ _ hl => .plain (hplain.congr hl)
        rcases not_inert hplain with hmem | ⟨rfl, d, hd, hnext⟩
        · simp only [List.mem_cons, List.not_mem_nil, or_false] at hmem
          rcases hmem with rfl | rfl | rfl | rfl | rfl
          · exact begins_string (Or.inl rfl) ih
          · exact begins_string (Or.inr rfl) ih
          · exact begins_template ih
          · exact begins_block ih
          · exact Or.inl ⟨[], t, rfl, .nil _⟩
        · obtain ⟨t, rfl⟩ := List.head?_eq_some_iff.mp hnext
          simp only [List.mem_cons, List.not_mem_nil, or_false] at hd
          rcases hd with rfl | rfl
          · exact begins_lineComment ih
          · exact begins_blockComment ih
      · by_cases htext : IsTemplateText c t.head?
        · exact (ih.template t (by simp)).prepend (x := [(c, false)])
            fun _ _ hl => .templateText (htext.congr hl)
        rcases not_inert htext with hmem | ⟨rfl, d, hd, hnext⟩
        · simp only [List.mem_cons, List.not_mem_nil, or_false] at hmem
          rcases hmem with rfl | rfl
          · exact Or.inl ⟨[], t, rfl, .templateNil _⟩
          · exact begins_escape ih
        · obtain ⟨t, rfl⟩ := List.head?_eq_some_iff.mp hnext
          obtain rfl := List.mem_singleton.mp hd
          exact begins_interpolation ih

theorem exists_reads (t : Text) : ∃ l, l.map Prod.fst = t ∧ Reads .script l := by
  induction hlength : t.length using Nat.strongRecOn generalizing t with
  | ind n ih =>
    subst hlength
    rcases (begins t).1 with ⟨inside, rest, rfl, hinside⟩ | ⟨l, rfl, h⟩
    · obtain ⟨l, rfl, h⟩ := ih rest.length (by simp; omega) rest rfl
      exact ⟨_, by simp, .stray hinside h⟩
    · exact ⟨l, rfl, .last h⟩

theorem marks_of_reads (h : Reads .script l) : marks (l.map Prod.fst) = l.map Prod.snd := by
  obtain ⟨s, ⟨hmarks, -⟩, -⟩ := exists_passes h []
  rw [← hmarks, marks, ← marksBefore_none]
  rfl

/-- **The marks are those of the grammar.** By its rules every text can be read as a script, and
however it is read, a character is code in the reading exactly if it is marked as code. -/
theorem marks_eq_iff_reads (text : Text) (m : List Bool) :
    marks text = m ↔ ∃ l, Reads .script l ∧ l.map Prod.fst = text ∧ l.map Prod.snd = m := by
  constructor
  · rintro rfl
    obtain ⟨l, rfl, h⟩ := exists_reads text
    exact ⟨l, h, rfl, (marks_of_reads h).symm⟩
  · rintro ⟨l, h, rfl, rfl⟩
    exact marks_of_reads h

end Grammar
end ScriptBundle
