import Mathlib.Data.List.Infix
import Mathlib.Order.Bounds.Basic
import Mathlib.Tactic.IntervalCases
import ScriptBundle.Proofs.Text.Offsets
import ScriptBundle.Require.Call

/-! What the scan of a text finds. It finds the calls that lie within no other call, each from the
place where it begins to the parenthesis that closes it. It stops where a call begins that nothing
closes; such a call lies within no other, since within the parentheses of a call all are closed. -/
namespace ScriptBundle

namespace Require

/-- As many parentheses are closed as are opened. -/
def Even (t : Text) : Prop := t.count '(' = t.count ')'

/-- What stands between a parenthesis and the first one behind it at which the parentheses, counted
from there, balance. -/
structure Enclosed (inner : Text) : Prop where
  even : Even ('(' :: (inner ++ [')']))
  first : ∀ front, front ++ [')'] <+: inner → ¬ Even ('(' :: (front ++ [')']))

/-- No parenthesis of the text closes more than are open, `depth` of them before it. -/
def Stays (depth : Nat) (t : Text) : Prop :=
  ∀ front, front ++ [')'] <+: t → front.count ')' ≠ depth + front.count '('

/-- Behind the text all that are open can be closed but not more, with `depth` open before it. -/
def Closes (depth : Nat) (t : Text) : Prop :=
  t.count ')' = depth + t.count '(' ∧ Stays depth t

variable {depth : Nat} {t inner : Text} {c : Char}

theorem enclosed_iff : Enclosed inner ↔ Closes 0 inner := by
  have heven : ∀ front : Text,
      Even ('(' :: (front ++ [')'])) ↔ front.count ')' = 0 + front.count '(' := by
    intro front
    simp only [Even, List.count_cons, List.count_append, List.count_nil]
    simp only [beq_self_eq_true, if_true, Char.reduceBEq, Bool.false_eq_true, if_false]
    omega
  constructor
  · rintro ⟨heven', hfirst⟩
    exact ⟨(heven inner).mp heven', fun front hfront => mt (heven front).mpr (hfirst front hfront)⟩
  · rintro ⟨heven', hfirst⟩
    exact ⟨(heven inner).mpr heven', fun front hfront => mt (heven front).mp (hfirst front hfront)⟩

theorem closes_cons {later : Nat} (hfirst : c = ')' → depth ≠ 0)
    (hcount : ∀ t : Text, (c :: t).count ')' = depth + (c :: t).count '(' ↔
      t.count ')' = later + t.count '(') : Closes depth (c :: t) ↔ Closes later t := by
  constructor
  · rintro ⟨heven, hstays⟩
    refine ⟨(hcount t).mp heven, fun front hfront => ?_⟩
    exact mt (hcount front).mpr (hstays (c :: front) (List.cons_prefix_cons.mpr ⟨rfl, hfront⟩))
  · rintro ⟨heven, hstays⟩
    refine ⟨(hcount t).mpr heven, fun front hfront => ?_⟩
    cases front with
    | nil =>
      have hc : c = ')' := by simpa using (List.cons_prefix_cons.mp hfront).1.symm
      simpa using (hfirst hc).symm
    | cons d front =>
      obtain ⟨rfl, hfront'⟩ := List.cons_prefix_cons.mp hfront
      exact mt (hcount front).mp (hstays front hfront')

theorem closes_nil : Closes depth [] ↔ depth = 0 :=
  ⟨fun h => h.1.symm, fun h => ⟨h.symm, by simp [Stays]⟩⟩

theorem not_closes_zero : ¬ Closes 0 (')' :: t) :=
  fun h => h.2 [] (by simp) rfl

theorem closes_close : Closes (depth + 1) (')' :: t) ↔ Closes depth t := by
  refine closes_cons (by simp) fun t => ?_
  simp only [List.count_cons]
  simp only [beq_self_eq_true, if_true, Char.reduceBEq, Bool.false_eq_true, if_false]
  omega

theorem closes_open : Closes depth ('(' :: t) ↔ Closes (depth + 1) t := by
  refine closes_cons (by simp) fun t => ?_
  simp only [List.count_cons]
  simp only [beq_self_eq_true, if_true, Char.reduceBEq, Bool.false_eq_true, if_false]
  omega

theorem closes_plain (hopen : c ≠ '(') (hclose : c ≠ ')') :
    Closes depth (c :: t) ↔ Closes depth t :=
  closes_cons (fun h => absurd h hclose) fun t => by
    rw [List.count_cons_of_ne hopen, List.count_cons_of_ne hclose]

theorem untilClosed_eq_some_iff :
    untilClosed depth t = some inner ↔ Closes depth inner ∧ inner ++ [')'] <+: t := by
  have hmap : ∀ {c : Char} {d : Nat} {t : Text},
      (∀ inner, untilClosed d t = some inner ↔ Closes d inner ∧ inner ++ [')'] <+: t) →
      ∀ depth, (∀ inner, Closes depth (c :: inner) ↔ Closes d inner) →
      ¬ (Closes depth [] ∧ c = ')') → ∀ inner, (untilClosed d t).map (c :: ·) = some inner ↔
        Closes depth inner ∧ inner ++ [')'] <+: c :: t := by
    intro c d t ih depth hstep hnil inner
    rw [Option.map_eq_some_iff]
    constructor
    · rintro ⟨more, hmore, rfl⟩
      obtain ⟨hcloses, hprefix⟩ := (ih more).mp hmore
      exact ⟨(hstep more).mpr hcloses, List.cons_prefix_cons.mpr ⟨rfl, hprefix⟩⟩
    · rintro ⟨hcloses, hprefix⟩
      cases inner with
      | nil => exact absurd ⟨hcloses, (List.cons_prefix_cons.mp hprefix).1.symm⟩ hnil
      | cons d inner =>
        obtain ⟨rfl, hprefix'⟩ := List.cons_prefix_cons.mp hprefix
        exact ⟨inner, (ih inner).mpr ⟨(hstep inner).mp hcloses, hprefix'⟩, rfl⟩
  induction t generalizing depth inner with
  | nil => simp [untilClosed]
  | cons c t ih =>
    unfold untilClosed
    split
    · next hclose =>
      subst hclose
      cases depth with
      | zero =>
        constructor
        · intro h
          obtain rfl := Option.some.inj h
          exact ⟨closes_nil.mpr rfl, by simp⟩
        · rintro ⟨hcloses, hprefix⟩
          cases inner with
          | nil => rfl
          | cons d inner =>
            obtain ⟨rfl, -⟩ := List.cons_prefix_cons.mp hprefix
            exact absurd hcloses not_closes_zero
      | succ depth => exact hmap (fun _ => ih) _ (fun _ => closes_close) (by simp [closes_nil]) _
    · next hclose =>
      split
      · next hopen =>
        subst hopen
        exact hmap (fun _ => ih) _ (fun _ => closes_open) (by simp) _
      · next hopen =>
        exact hmap (fun _ => ih) _ (fun _ => closes_plain hopen hclose) (fun h => hclose h.2) _

theorem Stays.count_le (h : Stays depth t) {front : Text} (hfront : front <+: t) :
    front.count ')' ≤ depth + front.count '(' := by
  induction front using List.reverseRecOn with
  | nil => simp
  | append_singleton front c ih =>
    have hle := ih ((List.prefix_append front [c]).trans hfront)
    by_cases hc : c = ')'
    · subst hc
      have hne := h front hfront
      simp only [List.count_append, List.count_singleton_self]
      simp
      omega
    · rw [List.count_append, List.count_append, List.count_singleton, beq_eq_false_iff_ne.mpr hc]
      simp
      omega

theorem stays_of_untilClosed_eq_none (h : untilClosed depth t = none) : Stays depth t := by
  intro front hfront heq
  induction hlength : front.length using Nat.strongRecOn generalizing front with
  | ind n ih =>
    subst hlength
    have hstays : Stays depth front := fun shorter hshorter heq' => by
      refine ih shorter.length ?_ shorter
        (hshorter.trans ((List.prefix_append front _).trans hfront)) heq' rfl
      have := hshorter.length_le
      simp only [List.length_append, List.length_singleton] at this
      omega
    rw [untilClosed_eq_some_iff.mpr ⟨⟨heq, hstays⟩, hfront⟩] at h
    cases h

/-- A call can begin at the offset: `require(` stands there, behind neither a character of an
identifier nor a dot. -/
def IsSite (text : Text) (start : Nat) : Prop :=
  ∃ before rest, text = before ++ (keyword ++ rest) ∧ Text.width before = start ∧
    ∀ c ∈ before.getLast?, isIdentifierChar c = false ∧ c ≠ '.'

/-- A call that can begin at one offset is closed before another; `inner` stands in between its
parentheses. -/
def IsCall (text : Text) (start stop : Nat) (inner : Text) : Prop :=
  ∃ before rest, text = before ++ (keyword ++ (inner ++ ')' :: rest)) ∧
    Text.width before = start ∧ start + Text.width (keyword ++ inner ++ [')']) = stop ∧
    (∀ c ∈ before.getLast?, isIdentifierChar c = false ∧ c ≠ '.') ∧ Enclosed inner

/-- The argument is the text without the pair of equal quotes at its ends, where it has one. -/
def Unquoted (t argument : Text) : Prop :=
  (∃ quote, isQuote quote = true ∧ t = quote :: (argument ++ [quote])) ∨
    argument = t ∧ ∀ quote inside, isQuote quote = true → t ≠ quote :: (inside ++ [quote])

theorem unquoted_unquote (t : Text) : Unquoted t (unquote t) := by
  cases t with
  | nil => exact Or.inr ⟨rfl, by simp⟩
  | cons c rest =>
    by_cases h : (isQuote c && rest.getLast? == some c) = true
    · obtain ⟨hquote, hlast⟩ := Bool.and_eq_true_iff.mp h
      obtain ⟨inside, rfl⟩ := List.getLast?_eq_some_iff.mp (beq_iff_eq.mp hlast)
      exact Or.inl ⟨c, hquote, by simp [unquote, hquote]⟩
    · refine Or.inr ⟨by rw [unquote, if_neg h], ?_⟩
      rintro quote inside hquote heq
      obtain ⟨rfl, rfl⟩ := List.cons.inj heq
      simp [hquote] at h

variable {before text rest source argument : Text} {start stop : Nat}

theorem opensAfter_iff : opensAfter before.reverse = true ↔
    ∀ c ∈ before.getLast?, isIdentifierChar c = false ∧ c ≠ '.' := by
  rcases List.eq_nil_or_concat' before with rfl | ⟨init, c, rfl⟩
  · simp [opensAfter]
  · simp [opensAfter]

theorem isSite_iff : IsSite (before ++ text) (Text.width before) ↔
    opensAfter before.reverse = true ∧ keyword <+: text := by
  rw [opensAfter_iff]
  constructor
  · rintro ⟨before', rest, htext, hwidth, hopens⟩
    obtain ⟨rfl, rfl⟩ := Text.append_inj_of_width htext hwidth.symm
    exact ⟨hopens, rest, rfl⟩
  · rintro ⟨hopens, rest, rfl⟩
    exact ⟨before, rest, rfl, rfl, hopens⟩

theorem not_prefix_of_siteAt_plain (h : siteAt before.reverse text = .plain)
    (hopens : opensAfter before.reverse = true) : ¬ keyword <+: text := by
  rintro ⟨rest, rfl⟩
  rw [siteAt, Text.after?_eq_some_iff.mpr rfl] at h
  simp only [hopens, if_true] at h
  split at h <;> cases h

theorem of_siteAt_unbalanced (h : siteAt before.reverse text = .unbalanced) :
    opensAfter before.reverse = true ∧ ∃ rest, text = keyword ++ rest ∧
      untilClosed 0 rest = none := by
  unfold siteAt at h
  split at h
  · next rest hrest =>
    split at h
    · next hopens =>
      split at h
      · cases h
      · next hnone => exact ⟨hopens, rest, Text.after?_eq_some_iff.mp hrest, hnone⟩
    · cases h
  · cases h

theorem exists_inner_of_siteAt (h : siteAt before.reverse text = .call source argument) :
    opensAfter before.reverse = true ∧ ∃ inner rest, source = keyword ++ inner ++ [')'] ∧
      text = source ++ rest ∧ Enclosed inner ∧ argument = unquote (Text.trim inner) := by
  unfold siteAt at h
  split at h
  · next rest hrest =>
    split at h
    · next hopens =>
      split at h
      · next inner hinner =>
        obtain ⟨rfl, rfl⟩ := Site.call.inj h
        obtain ⟨hcloses, more, rfl⟩ := untilClosed_eq_some_iff.mp hinner
        rw [Text.after?_eq_some_iff] at hrest
        exact ⟨hopens, inner, more, rfl, by simp [hrest], enclosed_iff.mpr hcloses, rfl⟩
      · cases h
    · cases h
  · cases h

theorem keyword_not_within {front : Text} (hne : front ≠ [])
    (hlength : front.length < keyword.length) (rest more : Text) :
    keyword ++ rest ≠ front ++ (keyword ++ more) := by
  intro h
  have htake : front = keyword.take front.length := by
    have := congrArg (List.take front.length) h
    rw [List.take_append_of_le_length hlength.le, List.take_left] at this
    exact this.symm
  have hpos := List.length_pos_iff.mpr hne
  have hlt : front.length < 8 := hlength
  generalize front.length = n at htake hpos hlt
  subst htake
  interval_cases n <;> simp [keyword] at h

theorem exists_tail_of_keyword {front more : Text}
    (h : inner ++ ')' :: rest = front ++ (keyword ++ more))
    (hwidth : Text.width front < Text.width (inner ++ [')'])) :
    ∃ tail, inner = front ++ (keyword ++ tail) ∧ more = tail ++ ')' :: rest := by
  rcases List.append_eq_append_iff.mp h with ⟨beyond, rfl, hbeyond⟩ | ⟨last, rfl, hlast⟩
  · cases beyond with
    | nil => simp [keyword] at hbeyond
    | cons c beyond =>
      obtain ⟨rfl, -⟩ := List.cons.inj hbeyond
      simp only [Text.width_append, Text.width_cons, Text.width_nil] at hwidth
      omega
  rcases List.append_eq_append_iff.mp hlast with ⟨tail, rfl, rfl⟩ | ⟨tail, hkeyword, htail⟩
  · exact ⟨tail, rfl, rfl⟩
  · cases tail with
    | nil => exact ⟨[], by simpa using hkeyword.symm, by simpa using htail.symm⟩
    | cons c tail =>
      obtain ⟨rfl, -⟩ := List.cons.inj htail
      have hmem : ')' ∈ keyword := by simp [hkeyword]
      exact absurd hmem (by decide)

theorem exists_isCall_iff (hopens : ∀ c ∈ before.getLast?, isIdentifierChar c = false ∧ c ≠ '.') :
    (∃ stop inner, IsCall (before ++ (keyword ++ rest)) (Text.width before) stop inner) ↔
      untilClosed 0 rest ≠ none := by
  rw [Option.ne_none_iff_exists']
  constructor
  · rintro ⟨stop, inner, before', rest', htext, hstart, -, -, henclosed⟩
    obtain ⟨rfl, hkeyword⟩ := Text.append_inj_of_width htext hstart.symm
    obtain rfl : rest = inner ++ ')' :: rest' := List.append_cancel_left hkeyword
    exact ⟨inner, untilClosed_eq_some_iff.mpr ⟨enclosed_iff.mp henclosed, rest', by simp⟩⟩
  · rintro ⟨inner, hinner⟩
    obtain ⟨hcloses, more, rfl⟩ := untilClosed_eq_some_iff.mp hinner
    exact ⟨_, inner, before, more, by simp, rfl, rfl, hopens, enclosed_iff.mpr hcloses⟩

theorem IsCall.closed_within (h : IsCall text start stop inner) {within : Nat}
    (hsite : IsSite text within) (hstart : start < within) (hstop : within < stop) :
    ∃ stop inner, IsCall text within stop inner := by
  obtain ⟨before, rest, htext, rfl, rfl, -, henclosed⟩ := h
  obtain ⟨before', rest', rfl, rfl, hopens⟩ := hsite
  obtain ⟨between, hne, rfl, hbetween⟩ := Text.exists_between htext.symm hstart
  -- The place lies behind the keyword of the outer call.
  obtain ⟨front, rfl, hfront⟩ : ∃ front, between = keyword ++ front ∧
      inner ++ ')' :: rest = front ++ (keyword ++ rest') := by
    rcases Nat.lt_or_ge between.length keyword.length with hlt | hge
    · exact absurd hbetween (keyword_not_within hne hlt _ _)
    · obtain ⟨front, rfl⟩ := List.prefix_of_prefix_length_le
        ⟨_, rfl⟩ (hbetween ▸ List.prefix_append between _) hge
      exact ⟨front, rfl, by simpa using hbetween⟩
  -- All of its own keyword lies before the parenthesis that closes the outer call.
  obtain ⟨tail, rfl, rfl⟩ := exists_tail_of_keyword hfront <| by
    simp only [Text.width_append] at hstop ⊢
    omega
  rw [exists_isCall_iff hopens]
  intro hnone
  obtain ⟨heven, hstays⟩ := enclosed_iff.mp henclosed
  have hbefore := hstays.count_le (List.prefix_append front _)
  have hbehind := (stays_of_untilClosed_eq_none hnone).count_le (List.prefix_append tail _)
  have hopen : keyword.count '(' = 1 := by decide
  have hclose : keyword.count ')' = 0 := by decide
  simp only [List.count_append] at heven
  omega

/-- What a scan has found of a text from the offset `start` on. -/
structure Finds (text : Text) (start : Nat) (s : Scan) : Prop where
  found : ∀ c ∈ Scan.callsFrom start s.pieces, start ≤ c.start ∧ c.start < c.stop ∧
    ∃ inner, IsCall text c.start c.stop inner ∧ Unquoted (Text.trim inner) c.argument
  apart : (Scan.callsFrom start s.pieces).Pairwise fun a b => a.stop ≤ b.start
  /-- A place where a call can begin and that the scan has reached lies within what it found. -/
  covered : ∀ site, start ≤ site → IsSite text site → (∀ o, s.unbalanced = some o → site < o) →
    ∃ c ∈ Scan.callsFrom start s.pieces, c.start ≤ site ∧ site < c.stop
  stuck : ∀ o, s.unbalanced = some o → IsSite text o ∧ ∀ stop inner, ¬ IsCall text o stop inner

theorem finds_nil (text : Text) : Finds text (Text.width text) ⟨[], none⟩ := by
  refine ⟨by simp [Scan.callsFrom], List.Pairwise.nil, ?_, by simp⟩
  rintro site hsite ⟨before, rest, rfl, rfl, -⟩ -
  have hkeyword : Text.width keyword = 8 := by decide
  simp only [Text.width_append, hkeyword] at hsite
  omega

theorem Finds.plain {s : Scan} {c : Char} {start : Nat} (hsite : ¬ IsSite text start)
    (hbetween : ∀ site, IsSite text site → start < site → start + c.utf8Size ≤ site)
    (h : Finds text (start + c.utf8Size) s) :
    Finds text start ⟨.plain c :: s.pieces, s.unbalanced⟩ where
  found d hd := by
    obtain ⟨hstart, hfound⟩ := h.found d hd
    exact ⟨by omega, hfound⟩
  apart := h.apart
  covered site hstart hsite' ho := by
    have hne : start ≠ site := by
      rintro rfl
      exact hsite hsite'
    exact h.covered site (hbetween site hsite' (by omega)) hsite' ho
  stuck := h.stuck

theorem Finds.call {s : Scan} {start : Nat} (hsource : source ≠ [])
    (hcall : IsCall text start (start + Text.width source) inner)
    (hargument : Unquoted (Text.trim inner) argument)
    (h : Finds text (start + Text.width source) s) :
    Finds text start ⟨.call source argument :: s.pieces, s.unbalanced⟩ where
  found d hd := by
    rcases List.mem_cons.mp hd with rfl | hd
    · have := Nat.pos_of_ne_zero (mt Text.width_eq_zero.mp hsource)
      exact ⟨le_refl _, by simp only; omega, inner, hcall, hargument⟩
    · obtain ⟨hstart, hfound⟩ := h.found d hd
      exact ⟨by omega, hfound⟩
  apart := List.Pairwise.cons (fun d hd => (h.found d hd).1) h.apart
  covered site hstart hsite ho := by
    rcases Nat.lt_or_ge site (start + Text.width source) with hlt | hge
    · exact ⟨_, List.mem_cons_self, hstart, hlt⟩
    · obtain ⟨d, hd, hcovered⟩ := h.covered site hge hsite ho
      exact ⟨d, List.mem_cons_of_mem _ hd, hcovered⟩
  stuck := h.stuck

theorem finds_unbalanced (hsite : IsSite text start)
    (hopen : ∀ stop inner, ¬ IsCall text start stop inner) :
    Finds text start ⟨[], some start⟩ where
  found := by simp [Scan.callsFrom]
  apart := List.Pairwise.nil
  covered site hstart _ ho := by
    have := ho start rfl
    omega
  stuck o ho := by
    obtain rfl := Option.some.inj ho
    exact ⟨hsite, hopen⟩

/-- From each place on the scan finds what there is; `skip` more characters belong to a call that is
already found. -/
theorem finds_scanFrom (before : Text) (skip : Nat) (text : Text) :
    Finds (before ++ text) (Text.width (before ++ text.take skip))
      (scanFrom before.reverse (Text.width before) skip text) := by
  induction text generalizing before skip with
  | nil => simpa [scanFrom] using finds_nil before
  | cons c text ih =>
    have hnext : ∀ skip, Finds (before ++ c :: text)
        (Text.width before + Text.width (c :: text.take skip))
        (scanFrom (c :: before.reverse) (Text.width before + c.utf8Size) skip text) := by
      intro skip
      simpa [Nat.add_assoc] using ih (before ++ [c]) skip
    cases skip with
    | succ skip => simpa [scanFrom] using hnext skip
    | zero =>
      rw [List.take_zero, List.append_nil]
      cases hs : siteAt before.reverse (c :: text) with
      | plain =>
        simp only [scanFrom, hs]
        refine Finds.plain (fun hsite => ?_) (fun site hsite hlt => ?_) (by simpa using hnext 0)
        · obtain ⟨hopens, hkeyword⟩ := isSite_iff.mp hsite
          exact not_prefix_of_siteAt_plain hs hopens hkeyword
        · obtain ⟨before', rest, htext, rfl, -⟩ := hsite
          obtain ⟨between, hne, rfl, hbetween⟩ := Text.exists_between htext hlt
          obtain ⟨d, between, rfl⟩ := List.exists_cons_of_ne_nil hne
          obtain ⟨rfl, -⟩ := List.cons.inj hbetween
          simp only [Text.width_append, Text.width_cons]
          omega
      | call source argument =>
        simp only [scanFrom, hs]
        obtain ⟨hopens, inner, rest, rfl, htext, henclosed, rfl⟩ := exists_inner_of_siteAt hs
        have htake : c :: text.take ((keyword ++ inner ++ [')']).length - 1) =
            keyword ++ inner ++ [')'] := by
          have := congrArg (List.take (keyword ++ inner ++ [')']).length) htext
          rw [List.take_left] at this
          rw [← this]
          simp [keyword]
        refine Finds.call (by simp) ⟨before, rest, by simp [htext], rfl, rfl,
          opensAfter_iff.mp hopens, henclosed⟩ (unquoted_unquote _) ?_
        have hfinds := hnext ((keyword ++ inner ++ [')']).length - 1)
        rwa [htake] at hfinds
      | unbalanced =>
        simp only [scanFrom, hs]
        obtain ⟨hopens, rest, htext, hnone⟩ := of_siteAt_unbalanced hs
        rw [htext]
        refine finds_unbalanced (isSite_iff.mpr ⟨hopens, rest, rfl⟩) fun stop inner hcall => ?_
        exact (exists_isCall_iff (opensAfter_iff.mp hopens)).mp ⟨stop, inner, hcall⟩ hnone

theorem finds_scan (text : Text) : Finds text 0 (scan text) :=
  finds_scanFrom [] 0 text

/-- A call can begin at the offset and is never closed, and no call that is closed lies around. -/
structure IsUnclosed (text : Text) (site : Nat) : Prop where
  isSite : IsSite text site
  never : ∀ stop inner, ¬ IsCall text site stop inner
  outside : ∀ start stop inner, IsCall text start stop inner → ¬ (start < site ∧ site < stop)

/-- **The scan finds every call and stops at the first that is not closed.** The calls that it finds
follow each other in the text. Each begins where a call can, ends with the parenthesis at which it
balances, and has what stands between without blanks and quotes as its argument; wherever a call can
begin, one of them begins or lies around. -/
theorem scan_finds_calls (text : Text) :
    ((scan text).unbalanced = none →
      (scan text).calls.Pairwise (fun a b => a.stop ≤ b.start) ∧
      (∀ c ∈ (scan text).calls, c.start < c.stop ∧
        ∃ inner, IsCall text c.start c.stop inner ∧ Unquoted (Text.trim inner) c.argument) ∧
      ∀ site, IsSite text site →
        ∃ c ∈ (scan text).calls, c.start = site ∨ c.start < site ∧ site < c.stop) ∧
    ∀ o, (scan text).unbalanced = some o ↔ IsLeast {site | IsUnclosed text site} o := by
  have h := finds_scan text
  have hcovered : ∀ site, IsSite text site → (∀ o, (scan text).unbalanced = some o → site < o) →
      ∃ c ∈ (scan text).calls, c.start = site ∨ c.start < site ∧ site < c.stop := by
    intro site hsite ho
    obtain ⟨c, hc, hstart, hstop⟩ := h.covered site (Nat.zero_le _) hsite ho
    exact ⟨c, hc, (Nat.eq_or_lt_of_le hstart).imp_right fun hlt => ⟨hlt, hstop⟩⟩
  have hreached : ∀ site, IsUnclosed text site →
      ¬ ∀ o, (scan text).unbalanced = some o → site < o := by
    intro site hsite ho
    obtain ⟨c, hc, hwhere⟩ := hcovered site hsite.isSite ho
    obtain ⟨-, -, inner, hcall, -⟩ := h.found c hc
    rcases hwhere with rfl | hwithin
    · exact hsite.never _ _ hcall
    · exact hsite.outside _ _ _ hcall hwithin
  have hleast : ∀ o, (scan text).unbalanced = some o → IsLeast {site | IsUnclosed text site} o := by
    intro o ho
    obtain ⟨hsite, hnever⟩ := h.stuck o ho
    refine ⟨⟨hsite, hnever, fun start stop inner hcall hwithin => ?_⟩, fun site hsite' => ?_⟩
    · obtain ⟨stop, inner, hclosed⟩ := hcall.closed_within hsite hwithin.1 hwithin.2
      exact hnever stop inner hclosed
    · by_contra hlt
      refine hreached site hsite' fun o' ho' => ?_
      obtain rfl := Option.some.inj (ho.symm.trans ho')
      exact Nat.lt_of_not_le hlt
  refine ⟨fun hnone => ⟨h.apart, fun c hc => (h.found c hc).2, fun site hsite =>
    hcovered site hsite (by simp [hnone])⟩, fun o => ⟨hleast o, fun ho => ?_⟩⟩
  cases hunbalanced : (scan text).unbalanced with
  | none => exact absurd (by simp [hunbalanced]) (hreached o ho.1)
  | some o' => rw [(hleast o' hunbalanced).unique ho]

end Require
end ScriptBundle
