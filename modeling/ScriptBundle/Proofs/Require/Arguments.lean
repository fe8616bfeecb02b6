import ScriptBundle.Proofs.Require.Rescanning
import ScriptBundle.Proofs.Script.Grammar

/-! Which arguments are taken for paths. Only the two ends of an argument are looked at: a string
literal is a path when its content begins with a dot, and so is what begins with a dot itself. A
call whose argument begins in any other way stays as it is and cannot fail. -/
namespace ScriptBundle
namespace Require

variable {tree : FileTree} {file : Path} {extensions : List Text} {text t argument content : Text}
  {c : Call}

/-- The text is a single string literal with this content: no quote of its own is in between that
is not escaped. -/
def IsLiteral (t content : Text) : Prop :=
  ∃ quote, isQuote quote = true ∧ t = quote :: (content ++ [quote]) ∧ Grammar.Quoted quote content

theorem backslash_mem_of_quoted {quote : Char} {x y : Text} (hquote : quote ≠ '\\')
    (h : Grammar.Quoted quote (x ++ quote :: y)) : '\\' ∈ x := by
  induction x with
  | nil => cases h with
    | char hne _ _ => exact absurd rfl hne
    | escaped _ _ => exact absurd rfl hquote
  | cons d x ih =>
    rw [List.cons_append] at h
    generalize hrest : x ++ quote :: y = rest at h ih
    cases h with
    | char _ _ h => exact List.mem_cons_of_mem _ (ih h)
    | escaped _ _ => exact List.mem_cons_self

/-- The text can be taken for a path: it begins with a dot, or it begins with a quote before a dot
and ends with this quote. -/
inductive MayName : Text → Prop
  | bare (rest : Text) : MayName ('.' :: rest)
  | quoted {quote : Char} (hquote : isQuote quote = true) (inside : Text) :
    MayName (quote :: '.' :: (inside ++ [quote]))

theorem isRelative_iff : isRelative argument = true ↔ ∃ rest, argument = '.' :: rest := by
  cases argument with
  | nil => simp [isRelative]
  | cons d rest => simp [isRelative]

theorem Unquoted.mayName (h : Unquoted t argument) (hrelative : isRelative argument = true) :
    MayName t := by
  obtain ⟨rest, rfl⟩ := isRelative_iff.mp hrelative
  rcases h with ⟨quote, hquote, rfl⟩ | ⟨rfl, -⟩
  · exact .quoted hquote rest
  · exact .bare rest

theorem Unquoted.eq_content (h : Unquoted t argument) (ht : IsLiteral t content) :
    argument = content := by
  obtain ⟨quote, hquote, rfl, -⟩ := ht
  rcases h with ⟨quote', -, heq⟩ | ⟨-, hno⟩
  · obtain ⟨rfl, heq⟩ := List.cons.inj heq
    exact (List.append_cancel_right heq).symm
  · exact absurd rfl (hno quote content hquote)

theorem Unquoted.eq_self {rest : Text} (h : Unquoted ('.' :: rest) argument) :
    argument = '.' :: rest := by
  rcases h with ⟨quote, hquote, heq⟩ | ⟨rfl, -⟩
  · obtain ⟨rfl, -⟩ := List.cons.inj heq
    exact absurd hquote (by decide)
  · rfl

/-- The call stands in the code as it stood in the text, behind and before what becomes of the text
on its two sides. -/
def KeptIn (tree : FileTree) (file : Path) (extensions : List Text) (text : Text) (c : Call)
    (code : Text) : Prop :=
  ∃ before span after code₁ code₂ calls₁ calls₂, text = before ++ (span ++ after) ∧
    Text.width before = c.start ∧ c.start + Text.width span = c.stop ∧
    relativeCalls text = calls₁ ++ calls₂ ∧
    Substituted tree file extensions 0 before calls₁ code₁ ∧
    Substituted tree file extensions c.stop after calls₂ code₂ ∧ code = code₁ ++ (span ++ code₂)

theorem keptIn_of_ok {r : Resolution}
    (hr : (resolveRequires tree file text extensions).outcome = .ok r)
    (hc : c ∈ (scan text).calls) (hkept : ¬ isRelative c.argument = true) :
    KeptIn tree file extensions text c r.code := by
  have hfinds := finds_scan text
  obtain ⟨-, -, inner, ⟨before, after, htext, hstart, hstop, -, -⟩, -⟩ := hfinds.found c hc
  have hcut : text = before ++ (keyword ++ inner ++ [')'] ++ after) := by simp [htext]
  have hwidth : Text.width (before ++ (keyword ++ inner ++ [')'])) = c.stop := by
    rw [Text.width_append, hstart, hstop]
  -- Of two calls that are found one ends before the other begins.
  have hsymm : Std.Symm fun a b : Call => a.stop ≤ b.start ∨ b.stop ≤ a.start :=
    ⟨fun _ _ => Or.symm⟩
  have hapart : (scan text).calls.Pairwise fun a b => a.stop ≤ b.start ∨ b.stop ≤ a.start :=
    hfinds.apart.imp Or.inl
  obtain ⟨code₁, code₂, calls₁, calls₂, hcalls, h₁, h₂, hcode⟩ :=
    exists_stretch_of_ok hr hcut fun d hd => by
      rw [hwidth, hstart]
      by_cases hdc : d = c
      · exact .within (hdc ▸ le_rfl) (hdc ▸ le_rfl) (hdc ▸ hkept)
      · exact (hapart.forall hd hc hdc).elim .before .behind
  rw [hwidth] at h₂
  exact ⟨before, _, after, code₁, code₂, calls₁, calls₂, hcut, hstart, hstop, hcalls, h₁, h₂,
    hcode⟩

/-- **Only what begins with a dot is taken for a path.** A call is relative only where its trimmed
argument begins with a dot, or with a quote before a dot and ends with this quote; of one string
literal the argument is the content. A call with any other argument is put out as it stood, and does
not make the text fail: only a call that can name a path does, besides one that is not closed. -/
theorem resolveRequires_leaves (tree : FileTree) (file : Path) (extensions : List Text)
    (text : Text) :
    (∀ c ∈ (scan text).calls, ∃ inner, IsCall text c.start c.stop inner ∧
      (isRelative c.argument = true → MayName (Text.trim inner)) ∧
      (∀ content, IsLiteral (Text.trim inner) content → c.argument = content) ∧
      (∀ rest, Text.trim inner = '.' :: rest → c.argument = '.' :: rest) ∧
      (¬ MayName (Text.trim inner) → ∀ r,
        (resolveRequires tree file text extensions).outcome = .ok r →
          KeptIn tree file extensions text c r.code)) ∧
      (∀ e, (resolveRequires tree file text extensions).outcome = .error e →
        (∃ o, (scan text).unbalanced = some o) ∨
          ∃ c ∈ (scan text).calls, ∃ inner, IsCall text c.start c.stop inner ∧
            MayName (Text.trim inner) ∧
            (resolve tree file c.argument extensions).outcome = .error e) ∧
      ((∀ c ∈ (scan text).calls, ∀ inner, IsCall text c.start c.stop inner →
          ¬ MayName (Text.trim inner)) →
        (scan text).unbalanced = none →
          (resolveRequires tree file text extensions).outcome = .ok ⟨text, []⟩) := by
  have hrelative : ∀ c ∈ relativeCalls text, ∃ inner, IsCall text c.start c.stop inner ∧
      MayName (Text.trim inner) := by
    intro c hc
    obtain ⟨hcall, hdot⟩ := List.mem_filter.mp hc
    obtain ⟨-, -, inner, hinner, hunquoted⟩ := (finds_scan text).found c hcall
    exact ⟨inner, hinner, hunquoted.mayName hdot⟩
  refine ⟨fun c hc => ?_, fun e he => ?_, fun hno hbalanced => ?_⟩
  · obtain ⟨-, -, inner, hinner, hunquoted⟩ := (finds_scan text).found c hc
    refine ⟨inner, hinner, hunquoted.mayName, fun content => hunquoted.eq_content,
      fun rest htrim => (htrim ▸ hunquoted).eq_self, fun hnot r hr => ?_⟩
    exact keptIn_of_ok hr hc fun hdot => hnot (hunquoted.mayName hdot)
  · cases hbalanced : (scan text).unbalanced with
    | some o => exact Or.inl ⟨o, rfl⟩
    | none =>
      obtain ⟨c, hc, herror⟩ := exists_call_of_error hbalanced he
      obtain ⟨inner, hinner, hname⟩ := hrelative c hc
      exact Or.inr ⟨c, (List.mem_filter.mp hc).1, inner, hinner, hname, herror⟩
  · refine resolveRequires_of_relativeArguments_eq_nil tree file extensions hbalanced ?_
    rw [relativeArguments_eq, List.map_eq_nil_iff, List.eq_nil_iff_forall_not_mem]
    intro c hc
    obtain ⟨inner, hinner, hname⟩ := hrelative c hc
    exact hno c (List.mem_filter.mp hc).1 inner hinner hname

def TakenWrongly (text t : Text) : Prop :=
  ∃ c, (scan text).calls = [c] ∧ isRelative c.argument = true ∧ IsCall text c.start c.stop t ∧
    ∀ content, ¬ IsLiteral (Text.trim t) content

/-- Expressions that are taken for paths: one begins with a dot, the other with a literal that does
and ends with another. -/
theorem isRelative_expression :
    TakenWrongly "require(...args)".toList "...args".toList ∧
      TakenWrongly "require('./a' + './b')".toList "'./a' + './b'".toList := by
  have hclosed : ∀ {t}, untilClosed 0 (t ++ [')']) = some t → Enclosed t :=
    fun h => enclosed_iff.mpr (untilClosed_eq_some_iff.mp h).1
  constructor
  · refine ⟨⟨0, 16, "...args".toList⟩, by decide +kernel, by decide,
      ⟨[], [], by decide, rfl, by decide, by simp, hclosed (by decide)⟩, ?_⟩
    rintro content ⟨quote, hquote, htrim, -⟩
    have htrim' : Text.trim "...args".toList = '.' :: "..args".toList := by decide
    obtain ⟨rfl, -⟩ := List.cons.inj (htrim'.symm.trans htrim)
    exact absurd hquote (by decide)
  · refine ⟨⟨0, 22, "./a' + './b".toList⟩, by decide +kernel, by decide,
      ⟨[], [], by decide, rfl, by decide, by simp, hclosed (by decide)⟩, ?_⟩
    rintro content ⟨quote, -, htrim, hquoted⟩
    have htrim' : Text.trim "'./a' + './b'".toList =
        '\'' :: ("./a' + './b".toList ++ ['\'']) := by decide
    obtain ⟨rfl, hcontent⟩ := List.cons.inj (htrim'.symm.trans htrim)
    obtain rfl := List.append_cancel_right hcontent
    have hcut : "./a' + './b".toList = "./a".toList ++ '\'' :: " + './b".toList := by decide
    exact absurd (backslash_mem_of_quoted (by decide) (hcut ▸ hquoted)) (by decide)

end Require
end ScriptBundle
