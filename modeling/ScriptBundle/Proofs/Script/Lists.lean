import ScriptBundle.Proofs.Script.Enclosing
import ScriptBundle.Proofs.Script.Mentions

/-! Declarations of several names. What follows a keyword is taken as one name or as none: a name
alone is declared, and qualified there and in what follows. Several names with commas between them
are no name, so the list is kept as it is and what follows it is namespaced as if it were not
there. -/
namespace ScriptBundle

def furtherNames (names : List Text) : Text := names.flatMap fun name => ',' :: ' ' :: name

theorem furtherNames_cons (name : Text) (more : List Text) :
    furtherNames (name :: more) = [',', ' '] ++ (name ++ furtherNames more) := by
  simp [furtherNames]

namespace Declaration

variable {n name rest : Text} {c : Char}

theorem declares_iff_of_cons (hn : isIdentifier n = true) (hc : isIdentifierChar c = false)
    (hblank : isBlank c = false) :
    Declares (' ' :: (n ++ c :: rest)) name ↔ name = n ∧ endsHead c = true := by
  constructor
  · intro h
    obtain ⟨gap, back, heq, hgap, hname, hback⟩ := h.exists_bounded
    have hchars : ∀ {t : Text}, isIdentifier t = true → ∀ d ∈ t, isIdentifierChar d = true :=
      fun ht _ hd => isIdentifierChar_of_isIdentifier ht hd
    have hnot : ∀ d, isBlank d = true → isIdentifierChar d ≠ true := fun d hd => by
      simp [not_isIdentifierChar_of_isBlank hd]
    obtain ⟨d, tail, rfl⟩ := List.exists_cons_of_ne_nil (ne_nil_of_isIdentifier hname)
    obtain ⟨e, tail', rfl⟩ := List.exists_cons_of_ne_nil (ne_nil_of_isIdentifier hn)
    -- The gap is the space, since both names begin with characters that are no blanks.
    rcases gap with _ | ⟨g, _ | ⟨g', gap⟩⟩
    · obtain ⟨rfl, -⟩ := List.cons.inj heq
      exact absurd (hchars hname ' ' (by simp)) (hnot ' ' rfl)
    · have heq' := (List.cons.inj heq).2
      have hrest : ∀ x ∈ (c :: rest).head?, isIdentifierChar x = false := by simpa using hc
      obtain ⟨hsame, rfl⟩ := eq_of_append_eq_append (hchars hn) (hchars hname) hrest
        (fun x hx => not_isIdentifierChar_of_bounds (hback x hx)) heq'
      exact ⟨hsame.symm, (hback c rfl).resolve_left (by simp [hblank])⟩
    · obtain ⟨rfl, -⟩ := List.cons.inj (List.cons.inj heq).2
      exact absurd (hchars hn e (by simp)) (hnot e (hgap e (by simp)))
  · rintro ⟨rfl, hends⟩
    have hgap : IsGap [' '] := by
      intro d hd
      obtain rfl := List.mem_singleton.mp hd
      exact ⟨rfl, rfl⟩
    have halone : Declares ([' '] ++ (name ++ ([] ++ c :: rest))) name :=
      .alone hgap hn (by simp [IsGap]) fun d hd => Option.some.inj hd ▸ hends
    simpa using halone

end Declaration

section

variable {before gap w rest name : Text} {offset : Nat} {c : Char}

theorem inCode_start : LexState.start.InCode := ⟨rfl, rfl⟩

theorem spotsFrom_start_cons (hc : ∀ next, LexState.start.step c next = (true, .start)) :
    spotsFrom .start before offset (c :: rest) =
      ⟨before, c, rest, offset, true⟩ ::
        spotsFrom .start (c :: before) (offset + c.utf8Size) rest := by
  rw [spotsFrom, hc]

def isGapChar (c : Char) : Bool := c == ' ' || c == ',' || c == ';'

theorem of_isGapChar (hc : isGapChar c = true) : isIdentifierChar c = false ∧ isBrace c = false ∧
    isBoundary c = true ∧ ∀ next, LexState.start.step c next = (true, .start) := by
  simp only [isGapChar, Bool.or_eq_true, beq_iff_eq] at hc
  rcases hc with (rfl | rfl) | rfl
  all_goals exact ⟨rfl, rfl, rfl, fun next => by simp [LexState.step, LexState.stepCode,
    LexState.start]⟩

theorem exists_inert_gap (hgap : ∀ c ∈ gap, isGapChar c = true) :
    ∃ l, spotsFrom .start before offset (gap ++ rest) =
        l ++ spotsFrom .start (gap.reverse ++ before) (offset + Text.width gap) rest ∧
      Spot.text l = gap ∧ ∀ t ∈ l, t.Inert := by
  induction gap generalizing before offset with
  | nil => exact ⟨[], rfl, rfl, by simp⟩
  | cons c gap ih =>
    obtain ⟨hc, hgap'⟩ := List.forall_mem_cons.mp hgap
    obtain ⟨hchar, hbrace, -, hstep⟩ := of_isGapChar hc
    obtain ⟨l, hl, htext, hinert⟩ := @ih (c :: before) (offset + c.utf8Size) hgap'
    refine ⟨⟨before, c, gap ++ rest, offset, true⟩ :: l, ?_, by simp [Spot.text, ← htext],
      List.forall_mem_cons.mpr ⟨Spot.inert_of_not_isIdentifierChar hchar hbrace, hinert⟩⟩
    rw [List.cons_append, spotsFrom_start_cons hstep, hl]
    simp [Nat.add_assoc]

theorem exists_inert_tail (before : Text) (offset : Nat) (rest : Text)
    (hc : isIdentifierChar c = true) (hw : ∀ d ∈ w, isIdentifierChar d = true) :
    ∃ l, spotsFrom .start (c :: before) offset (w ++ rest) =
        l ++ spotsFrom .start (w.reverse ++ c :: before) (offset + Text.width w) rest ∧
      Spot.text l = w ∧ ∀ t ∈ l, t.Inert := by
  induction w generalizing c before offset with
  | nil => exact ⟨[], rfl, rfl, by simp⟩
  | cons d w ih =>
    obtain ⟨hd, hw'⟩ := List.forall_mem_cons.mp hw
    have hstep := LexState.step_isNameChar inCode_start (isNameChar_of_isIdentifierChar hd)
    obtain ⟨l, hl, htext, hinert⟩ := ih (c :: before) (offset + d.utf8Size) hd hw'
    refine ⟨⟨c :: before, d, w ++ rest, offset, true⟩ :: l, ?_, by simp [Spot.text, ← htext],
      List.forall_mem_cons.mpr ⟨Spot.inert_of_within rfl hc hd, hinert⟩⟩
    rw [List.cons_append, spotsFrom_start_cons hstep, hl]
    simp [Nat.add_assoc]

theorem standsAt_self (hw : ∀ d ∈ w, isIdentifierChar d = true) (hne : w ≠ [])
    (hrest : Spot.closesBefore rest = true) :
    standsAt w (spotsFrom .start before offset (w ++ rest)) = true := by
  induction w generalizing before offset with
  | nil => exact absurd rfl hne
  | cons c w ih =>
    obtain ⟨hc, hw'⟩ := List.forall_mem_cons.mp hw
    have hstep := LexState.step_isNameChar inCode_start (isNameChar_of_isIdentifierChar hc)
    rw [List.cons_append, spotsFrom_start_cons hstep]
    cases w with
    | nil => simp [standsAt, Spot.isCode, hrest]
    | cons d w => simpa [standsAt, Spot.isCode] using ih hw' (List.cons_ne_nil d w)

theorem eq_of_standsAt (hw : ∀ d ∈ w, isIdentifierChar d = true)
    (hrest : ∀ d ∈ rest.head?, isNameChar d = false) (hname : ∀ d ∈ name, isNameChar d = true)
    (h : standsAt name (spotsFrom .start before offset (w ++ rest)) = true) : name = w := by
  obtain ⟨front, last, r, hspots, rfl, -, -, hcloses⟩ := standsAt_iff.mp h
  have htext : w ++ rest = Spot.text front ++ [last.char] ++ Spot.text r := by
    rw [← text_spotsFrom .start before offset (w ++ rest), hspots]
    simp [Spot.text]
  rw [(spotsFrom_around hspots).2] at hcloses
  generalize Spot.text front ++ [last.char] = name at htext hname
  rcases List.append_eq_append_iff.mp htext with ⟨beyond, rfl, rfl⟩ | ⟨left, rfl, hafter⟩
  · cases beyond with
    | nil => exact List.append_nil w
    | cons d beyond =>
      have hd := hname d (by simp)
      simp [hrest d rfl] at hd
  · cases left with
    | nil => exact (List.append_nil name).symm
    | cons d left =>
      have hd := hw d (by simp)
      rw [hafter] at hcloses
      simp [isIdentifierChar_of_isBoundary hcloses] at hd

end

section

variable {id : ModuleId} {scopes : Scopes} {before gap w rest n : Text} {offset : Nat} {c : Char}

theorem declaration?_keyword (k : Keyword) {t : Spot} (hcode : t.code = true)
    (hbefore : Declaration.standsAlone t.before = true)
    (htext : t.char :: t.after = k.text ++ ' ' :: (n ++ c :: rest)) (hn : isIdentifier n = true)
    (hc : isIdentifierChar c = false) (hblank : isBlank c = false) :
    t.declaration? = if Declaration.endsHead c then some ⟨k, n, t.offset⟩ else none := by
  have hdeclares : ∀ d : Declaration, t.declaration? = some d ↔
      d = ⟨k, n, t.offset⟩ ∧ Declaration.endsHead c = true := by
    intro d
    rw [Spot.declaration?_eq_some_iff, htext]
    constructor
    · rintro ⟨-, -, hoffset, rest', hkeyword, -, hdeclares⟩
      have hk := Declaration.keyword_eq_of_append hkeyword
      rw [← hk] at hkeyword
      obtain rfl := List.append_cancel_left hkeyword
      obtain ⟨hname, hends⟩ := (Declaration.declares_iff_of_cons hn hc hblank).mp hdeclares
      exact ⟨by rw [hk, ← hname, ← hoffset], hends⟩
    · rintro ⟨rfl, hends⟩
      exact ⟨hcode, hbefore, rfl, _, rfl, ⟨' ', rfl, rfl⟩,
        (Declaration.declares_iff_of_cons hn hc hblank).mpr ⟨rfl, hends⟩⟩
  refine Option.ext fun d => ?_
  rw [hdeclares]
  split_ifs with hends <;> simp [hends, eq_comm]

theorem declaration?_name {t : Spot} (htext : t.char :: t.after = n ++ c :: rest)
    (hn : isIdentifier n = true) (hc : isIdentifierChar c = false) (hblank : isBlank c = false) :
    t.declaration? = none := by
  by_contra hsome
  obtain ⟨d, hd⟩ := Option.ne_none_iff_exists'.mp hsome
  obtain ⟨-, -, -, rest', hkeyword, ⟨b, hb, hb'⟩, -⟩ := Spot.declaration?_eq_some_iff.mp hd
  have hrest : ∀ x ∈ (c :: rest).head?, isIdentifierChar x = false := by simpa using hc
  obtain ⟨-, rfl⟩ := eq_of_append_eq_append
    (fun _ => isIdentifierChar_of_isIdentifier hn) (isIdentifierChar_keyword d.keyword) hrest
    (fun x hx => by
      obtain rfl := Option.some.inj (hb.symm.trans hx)
      exact not_isIdentifierChar_of_isBlank hb')
    (htext.symm.trans hkeyword)
  obtain rfl := Option.some.inj hb
  simp [hblank] at hb'

theorem Scopes.pass_gap (id : ModuleId) (scopes : Scopes) (before : Text) (offset : Nat)
    (rest : Text) (hgap : ∀ c ∈ gap, isGapChar c = true) :
    scopes.pass id 0 (spotsFrom .start before offset (gap ++ rest)) =
      gap ++ scopes.pass id 0
        (spotsFrom .start (gap.reverse ++ before) (offset + Text.width gap) rest) := by
  obtain ⟨l, hl, htext, hinert⟩ := exists_inert_gap hgap
  rw [hl, pass_inert hinert, htext]

variable (hw : ∀ d ∈ c :: w, isIdentifierChar d = true)

include hw

theorem exists_spots_word (before : Text) (offset : Nat) (rest : Text) :
    ∃ l, spotsFrom .start before offset (c :: w ++ rest) =
        ⟨before, c, w ++ rest, offset, true⟩ :: (l ++
          spotsFrom .start ((c :: w).reverse ++ before) (offset + Text.width (c :: w)) rest) ∧
      Spot.text l = w ∧ ∀ t ∈ l, t.Inert := by
  obtain ⟨hc, hw'⟩ := List.forall_mem_cons.mp hw
  have hstep := LexState.step_isNameChar inCode_start (isNameChar_of_isIdentifierChar hc)
  obtain ⟨l, hl, htext, hinert⟩ := exists_inert_tail before (offset + c.utf8Size) rest hc hw'
  refine ⟨l, ?_, htext, hinert⟩
  rw [List.cons_append, spotsFrom_start_cons hstep, hl]
  simp [Nat.add_assoc]

theorem name_eq_of_bindingAt {bindings : List Binding} {b : Binding}
    (hrest : ∀ d ∈ rest.head?, isNameChar d = false)
    (hnames : ∀ a ∈ bindings, ∀ d ∈ a.name, isNameChar d = true)
    (h : bindingAt bindings (spotsFrom .start before offset (c :: w ++ rest)) = some b) :
    b ∈ bindings ∧ b.name = c :: w := by
  obtain ⟨hb, -, hstands⟩ := of_bindingAt (show bindingAt bindings (_ :: _) = some b from h)
  exact ⟨hb, eq_of_standsAt hw hrest (hnames b hb) hstands⟩

theorem Scopes.pass_word_kept {scopes' : Scopes}
    (hmeet : scopes.meet id ⟨before, c, w ++ rest, offset, true⟩ = scopes')
    (hrest : ∀ d ∈ rest.head?, isNameChar d = false)
    (hnames : ∀ b ∈ scopes'.top, (∀ d ∈ b.name, isNameChar d = true) ∧ b.name ≠ c :: w) :
    scopes.pass id 0 (spotsFrom .start before offset (c :: w ++ rest)) =
      c :: w ++ scopes'.pass id 0 (spotsFrom .start ((c :: w).reverse ++ before)
        (offset + Text.width (c :: w)) rest) := by
  have hnone : bindingAt scopes'.top (spotsFrom .start before offset (c :: w ++ rest)) = none := by
    by_contra hsome
    obtain ⟨b, hb⟩ := Option.ne_none_iff_exists'.mp hsome
    obtain ⟨hmem, hname⟩ := name_eq_of_bindingAt hw hrest (fun a ha => (hnames a ha).1) hb
    exact (hnames b hmem).2 hname
  obtain ⟨l, hl, htext, hinert⟩ := exists_spots_word hw before offset rest
  rw [hl] at hnone ⊢
  simp only [pass, hmeet, hnone, pass_inert hinert, htext, List.cons_append]

theorem Scopes.pass_word_put {scopes' : Scopes} {b : Binding}
    (hmeet : scopes.meet id ⟨before, c, w ++ rest, offset, true⟩ = scopes')
    (hopens : Spot.opensAfter before = true)
    (hcloses : Spot.closesBefore rest = true) (hrest : ∀ d ∈ rest.head?, isNameChar d = false)
    (hnames : ∀ a ∈ scopes'.top, (∀ d ∈ a.name, isNameChar d = true) ∧ (a.name = c :: w → a = b))
    (hb : b ∈ scopes'.top) (hname : b.name = c :: w) (hsince : b.since ≤ offset) :
    scopes.pass id 0 (spotsFrom .start before offset (c :: w ++ rest)) =
      b.qualified ++ scopes'.pass id 0 (spotsFrom .start ((c :: w).reverse ++ before)
        (offset + Text.width (c :: w)) rest) := by
  have hsome :
      bindingAt scopes'.top (spotsFrom .start before offset (c :: w ++ rest)) = some b := by
    have hc := hw c List.mem_cons_self
    have hstep := LexState.step_isNameChar inCode_start (isNameChar_of_isIdentifierChar hc)
    have hstands : standsAt b.name (spotsFrom .start before offset (c :: w ++ rest)) = true := by
      rw [hname]
      exact standsAt_self hw (List.cons_ne_nil c w) hcloses
    have hne : bindingAt scopes'.top (spotsFrom .start before offset (c :: w ++ rest)) ≠ none := by
      rw [List.cons_append, spotsFrom_start_cons hstep] at hstands ⊢
      exact bindingAt_ne_none hb (by simp [hc, hopens]) hsince hstands
    obtain ⟨a, ha⟩ := Option.ne_none_iff_exists'.mp hne
    obtain ⟨hmem, hname'⟩ := name_eq_of_bindingAt hw hrest (fun a ha => (hnames a ha).1) ha
    rw [ha, (hnames a hmem).2 hname']
  obtain ⟨l, hl, htext, hinert⟩ := exists_spots_word hw before offset rest
  have hlength : b.name.length - 1 = l.length := by
    rw [hname, ← htext]
    simp [Spot.text]
  rw [hl] at hsome ⊢
  simp only [pass, hmeet, hsome, hlength, pass_skip_inert hinert]

end

section

variable {id : ModuleId} {before rest n : Text} {offset : Nat} {bindings seed : List Binding}
  {first : Text} {more : List Text}

/-- Behind a semicolon a text is namespaced as a text of its own, where all bindings are in effect
from the start. -/
theorem Scopes.pass_semicolon (hsince : ∀ b ∈ bindings, b.since = 0)
    (hnames : ∀ b ∈ bindings, b.Braceless) :
    pass id ⟨bindings, []⟩ 0 (spotsFrom .start before offset (';' :: rest)) =
      ';' :: (namespaceModule rest id bindings).code := by
  let R : Nat → Nat → Prop := fun m n => m = offset + 1 + n
  have hR : InOrder R := by
    rintro _ m _ n rfl rfl
    omega
  have hscopes : Scopes.Matches R ⟨bindings, []⟩ ⟨bindings, []⟩ :=
    matches_self ⟨fun b hb m n _ => by simp [hsince b hb], by simp⟩
  have hspots : List.Forall₂ (Spot.Matches R) (spotsFrom .start (';' :: before) (offset + 1) rest)
      (spots rest) := by
    have hfront : Spot.SameFront (';' :: before) [] := .of_boundary rfl (by decide) before
    exact hfront.matches_spotsFrom .start [] fun y _ _ _ => by simp only [R, Nat.zero_add]
  have hgap : ∀ c ∈ [';'], isGapChar c = true := by simp [isGapChar]
  rw [code_eq_pass id hnames, ← hscopes.pass_eq hR id hspots 0]
  exact pass_gap id ⟨bindings, []⟩ before offset rest hgap

/-- The binding is in effect from the start and replaces a name with dots, but none of the words. -/
structure Binding.Beside (words : List Text) (b : Binding) : Prop where
  since : b.since = 0
  isNameChar : ∀ c ∈ b.name, isNameChar c = true
  not_mem : b.name ∉ words

theorem Binding.Beside.mono {words words' : List Text} {b : Binding} (h : b.Beside words)
    (hsub : words' ⊆ words) : b.Beside words' :=
  ⟨h.since, h.isNameChar, fun hmem => h.not_mem (hsub hmem)⟩

theorem Binding.Beside.braceless {words : List Text} {b : Binding} (h : b.Beside words) :
    b.Braceless := by
  have hno : ∀ c, ScriptBundle.isNameChar c = false → c ∉ b.name := fun c hc hmem => by
    simp [h.isNameChar c hmem] at hc
  exact ⟨hno _ rfl, hno _ rfl⟩

theorem exists_cons_of_list (more : List Text) (rest : Text) : ∃ c tail,
    furtherNames more ++ ';' :: rest = c :: tail ∧
      isNameChar c = false ∧ isIdentifierChar c = false ∧ isBlank c = false ∧
      isBoundary c = true ∧ (Declaration.endsHead c = true ↔ more = []) := by
  cases more with
  | nil => exact ⟨';', rest, rfl, rfl, rfl, rfl, rfl, by simp [Declaration.endsHead]⟩
  | cons name more => exact ⟨',', _, rfl, rfl, rfl, rfl, rfl, by simp [Declaration.endsHead]⟩

theorem Scopes.pass_listed (hn : isIdentifier n = true) (more : List Text) (before rest : Text)
    (offset : Nat) (hbindings : ∀ b ∈ bindings, b.Beside [n]) :
    pass id ⟨bindings, []⟩ 0 (spotsFrom .start before offset
        (n ++ (furtherNames more ++ ';' :: rest))) =
      n ++ pass id ⟨bindings, []⟩ 0 (spotsFrom .start (n.reverse ++ before) (offset + Text.width n)
        (furtherNames more ++ ';' :: rest)) := by
  obtain ⟨c, tail, hcut, hname, hchar, hblank, -, -⟩ := exists_cons_of_list more rest
  obtain ⟨d, w, rfl⟩ := List.exists_cons_of_ne_nil (Declaration.ne_nil_of_isIdentifier hn)
  rw [hcut]
  refine pass_word_kept (fun _ => isIdentifierChar_of_isIdentifier hn)
    (meet_of_declaration?_eq_none (Spot.isCode_of_not_isBrace ?_)
      (declaration?_name rfl hn hchar hblank)) (by simpa using hname)
    fun b hb => ⟨(hbindings b hb).isNameChar, by simpa using (hbindings b hb).not_mem⟩
  exact not_isBrace_of_isNameChar
    (isNameChar_of_isIdentifierChar (isIdentifierChar_of_isIdentifier hn (by simp)))

theorem Scopes.pass_more (hmore : ∀ n ∈ more, isIdentifier n = true)
    (hbindings : ∀ b ∈ bindings, b.Beside more) :
    pass id ⟨bindings, []⟩ 0 (spotsFrom .start before offset
        (furtherNames more ++ ';' :: rest)) =
      furtherNames more ++ ';' :: (namespaceModule rest id bindings).code := by
  induction more generalizing before offset with
  | nil =>
    exact pass_semicolon (fun b hb => (hbindings b hb).since) fun b hb => (hbindings b hb).braceless
  | cons n more ih =>
    obtain ⟨hn, hmore'⟩ := List.forall_mem_cons.mp hmore
    have hgap : ∀ c ∈ [',', ' '], isGapChar c = true := by simp [isGapChar]
    rw [furtherNames_cons, List.append_assoc, List.append_assoc, List.append_assoc,
      pass_gap id _ before offset _ hgap,
      pass_listed hn more _ rest _ fun b hb => (hbindings b hb).mono (by simp),
      ih hmore' fun b hb => (hbindings b hb).mono (by simp), List.append_assoc]

/-- The binding that a keyword at the start of a text makes with the name behind it, if it is one
name. -/
def listBindings (id : ModuleId) (first : Text) (more : List Text) : List Binding :=
  if more = [] then [⟨first, id.qualify first, 0⟩] else []

theorem Scopes.pass_keyword (k : Keyword) (hfirst : isIdentifier first = true)
    (hseed : ∀ b ∈ seed ++ listBindings id first more, b.Beside [k.text]) :
    pass id ⟨seed, []⟩ 0 (spots (k.text ++ ' ' :: (first ++ (furtherNames more ++ ';' :: rest)))) =
      k.text ++ ' ' :: pass id ⟨seed ++ listBindings id first more, []⟩ 0
        (spotsFrom .start (' ' :: k.text.reverse) (Text.width k.text + ' '.utf8Size)
          (first ++ (furtherNames more ++ ';' :: rest))) := by
  obtain ⟨c, tail, hcut, hname, hchar, hblank, -, hends⟩ := exists_cons_of_list more rest
  obtain ⟨d, w, hk, -⟩ := k.exists_cons
  have hw : ∀ e ∈ d :: w, isIdentifierChar e = true := hk ▸ isIdentifierChar_keyword k
  have hdeclared : Spot.declaration? ⟨[], d, w ++ ' ' :: (first ++ c :: tail), 0, true⟩ =
      if Declaration.endsHead c then some ⟨k, first, 0⟩ else none :=
    declaration?_keyword k rfl rfl (by rw [hk]; rfl) hfirst hchar hblank
  have hmeet : meet id ⟨seed, []⟩ ⟨[], d, w ++ ' ' :: (first ++ c :: tail), 0, true⟩ =
      ⟨seed ++ listBindings id first more, []⟩ := by
    have hbrace := not_isBrace_of_isNameChar (isNameChar_of_isIdentifierChar (hw d (by simp)))
    rw [meet_of_not_isBrace (Spot.isCode_of_not_isBrace hbrace), Spot.bindings,
      List.filterMap_cons, hdeclared, listBindings]
    by_cases hmore : more = []
    · rw [if_pos (hends.mpr hmore), if_pos hmore]
      rfl
    · rw [if_neg (mt hends.mp hmore), if_neg hmore]
      rfl
  have hgap : ∀ c ∈ [' '], isGapChar c = true := by simp [isGapChar]
  have hspace : ∀ e ∈ (' ' :: (first ++ c :: tail)).head?, isNameChar e = false := by
    rintro e ⟨⟩
    rfl
  rw [hcut, hk, spots, pass_word_kept hw hmeet hspace fun b hb =>
    ⟨(hseed b hb).isNameChar, fun h => (hseed b hb).not_mem (by simp [hk, h])⟩]
  have hbehind := pass_gap id ⟨seed ++ listBindings id first more, []⟩ (d :: w).reverse
    (Text.width (d :: w)) (first ++ c :: tail) hgap
  simpa using hbehind

theorem Scopes.pass_declared (hn : isIdentifier n = true) (hopens : Spot.opensAfter before = true)
    (hseed : ∀ b ∈ seed, b.Beside [n]) :
    pass id ⟨seed ++ [⟨n, id.qualify n, 0⟩], []⟩ 0
        (spotsFrom .start before offset (n ++ ';' :: rest)) =
      id.qualify n ++ ';' :: (namespaceModule rest id (seed ++ [⟨n, id.qualify n, 0⟩])).code := by
  have hchars : ∀ {d}, d ∈ n → isIdentifierChar d = true := isIdentifierChar_of_isIdentifier hn
  have hall : ∀ b ∈ seed ++ [⟨n, id.qualify n, 0⟩], b.Beside [] := by
    intro b hb
    rcases List.mem_append.mp hb with hb | hb
    · exact (hseed b hb).mono (by simp)
    · obtain rfl := List.mem_singleton.mp hb
      exact ⟨rfl, fun d hd => isNameChar_of_isIdentifierChar (hchars hd), by simp⟩
  obtain ⟨c, w, rfl⟩ := List.exists_cons_of_ne_nil (Declaration.ne_nil_of_isIdentifier hn)
  have hbrace := not_isBrace_of_isNameChar
    (isNameChar_of_isIdentifierChar (hchars List.mem_cons_self))
  have hrest : ∀ d ∈ (';' :: rest).head?, isNameChar d = false := by
    rintro d ⟨⟩
    rfl
  rw [pass_word_put (fun _ => hchars)
    (meet_of_declaration?_eq_none (Spot.isCode_of_not_isBrace hbrace)
      (declaration?_name rfl hn rfl rfl)) hopens rfl hrest
    (fun a ha => ⟨(hall a ha).isNameChar, fun hname => ?_⟩)
    (List.mem_append_right seed (List.mem_singleton_self _)) rfl (Nat.zero_le _),
    pass_semicolon (fun b hb => (hall b hb).since) fun b hb => (hall b hb).braceless]
  rcases List.mem_append.mp ha with ha | ha
  · exact absurd (by simp [hname]) (hseed a ha).not_mem
  · exact List.mem_singleton.mp ha

/-- **Only a name alone is declared.** A keyword with one name behind it declares the name: it is
qualified there, and in what follows. With several names it declares none: all of them stay, and
what follows is namespaced as if no name stood there. -/
theorem code_list (k : Keyword) (id : ModuleId) (rest : Text)
    (hnames : ∀ n ∈ first :: more, isIdentifier n = true) (hkeyword : first ≠ k.text)
    (hseed : ∀ b ∈ seed, b.Beside (k.text :: first :: more)) :
    (namespaceModule (k.text ++ ' ' :: (first ++ (furtherNames more ++ ';' :: rest))) id
        seed).code =
      k.text ++ ' ' :: ((if more = [] then id.qualify first else first ++ furtherNames more) ++
        ';' :: (namespaceModule rest id (seed ++ listBindings id first more)).code) := by
  obtain ⟨hfirst, hmore⟩ := List.forall_mem_cons.mp hnames
  have hkept : ∀ b ∈ seed ++ listBindings id first more, b.Beside [k.text] := by
    intro b hb
    rcases List.mem_append.mp hb with hb | hb
    · exact (hseed b hb).mono (by simp)
    · obtain ⟨-, rfl⟩ : more = [] ∧ b = ⟨first, id.qualify first, 0⟩ := by
        simpa [listBindings] using hb
      exact ⟨rfl, fun _ hd => isNameChar_of_isIdentifierChar
        (isIdentifierChar_of_isIdentifier hfirst hd), by simpa using hkeyword⟩
  rw [code_eq_pass id fun b hb => (hseed b hb).braceless, Scopes.pass_keyword k hfirst hkept]
  by_cases hone : more = []
  · subst hone
    have hone : listBindings id first [] = [⟨first, id.qualify first, 0⟩] := rfl
    rw [hone, if_pos rfl]
    exact congrArg (k.text ++ ' ' :: ·)
      (Scopes.pass_declared hfirst rfl fun b hb => (hseed b hb).mono (by simp))
  · have hnone : listBindings id first more = [] := if_neg hone
    rw [hnone, List.append_nil, if_neg hone,
      Scopes.pass_listed hfirst more _ rest _ fun b hb => (hseed b hb).mono (by simp),
      Scopes.pass_more hmore fun b hb => (hseed b hb).mono (by simp), List.append_assoc]

end

/-- A name alone, and a list of which one name begins as a keyword does, before a use of the
names and of the export target. -/
theorem code_list_export :
    let id : ModuleId := ⟨['M']⟩
    let seed := [Binding.ofExport "module.exports".toList id]
    let rest := " module.exports = a+letter".toList
    (∀ n ∈ ["a".toList, "letter".toList], isIdentifier n = true) ∧ "a".toList ≠ Keyword.let.text ∧
      (∀ b ∈ seed, b.Beside [Keyword.let.text, "a".toList, "letter".toList]) ∧
      (namespaceModule ("let a;".toList ++ rest) id seed).code =
        "let M_a; M = M_a+letter".toList ∧
      (namespaceModule ("let a, letter;".toList ++ rest) id seed).code =
        "let a, letter; M = a+letter".toList := by
  intro id seed rest
  have hnames : ∀ n ∈ ["a".toList, "letter".toList], isIdentifier n = true := by decide +kernel
  have hkeyword : "a".toList ≠ Keyword.let.text := by decide
  have hseed : ∀ b ∈ seed, b.Beside [Keyword.let.text, "a".toList, "letter".toList] := by
    intro b hb
    obtain rfl := List.mem_singleton.mp hb
    exact ⟨rfl, List.all_eq_true.mp (by decide +kernel), by decide⟩
  have halone : ∀ n ∈ ["a".toList], isIdentifier n = true := by decide +kernel
  refine ⟨hnames, hkeyword, hseed, ?_, ?_⟩
  · have hone := code_list .let id rest halone hkeyword fun b hb => (hseed b hb).mono (by simp)
    exact hone.trans (by decide +kernel)
  · exact (code_list .let id rest hnames hkeyword hseed).trans (by decide +kernel)

/-- Two modules that declare the same two names in one list: the names stay the same in both. -/
theorem code_list_shared :
    (∀ n ∈ [['a'], ['b']], isIdentifier n = true ∧ n ∉ Keyword.all.map Keyword.text) ∧
      ∀ id ∈ [(⟨['M']⟩ : ModuleId), ⟨['N']⟩],
        (namespaceModule "let a, b; a".toList id []).code = "let a, b; a".toList := by
  decide +kernel

end ScriptBundle
