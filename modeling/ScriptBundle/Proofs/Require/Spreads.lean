import ScriptBundle.Proofs.Require.Rescanning
import ScriptBundle.Proofs.Script.Replacement

/-! Calls where a name can begin. Names are looked for with one test of what stands before them and
calls with another. Both take a dot for the sign of a property, but the first knows the last dot of
a spread and the second does not: a call behind a spread is not found, and `require(` stays. -/
namespace ScriptBundle
namespace Require

variable {tree : FileTree} {file : Path} {extensions : List Text} {text before rest x y z : Text}
  {start stop site : Nat} {inner inner' : Text}

theorem IsCall.isSite (h : IsCall text start stop inner) : IsSite text start := by
  obtain ⟨before, rest, rfl, hstart, -, hopens, -⟩ := h
  exact ⟨before, _, rfl, hstart, hopens⟩

theorem IsCall.unique {stop' : Nat} (h : IsCall text start stop inner)
    (h' : IsCall text start stop' inner') : stop = stop' ∧ inner = inner' := by
  obtain ⟨before, rest, rfl, hstart, hstop, -, henclosed⟩ := h
  obtain ⟨before', rest', htext, hstart', hstop', -, henclosed'⟩ := h'
  obtain ⟨-, hkeyword⟩ := Text.append_inj_of_width htext (hstart.trans hstart'.symm)
  have hinner : untilClosed 0 (inner ++ ')' :: rest) = some inner :=
    untilClosed_eq_some_iff.mpr ⟨enclosed_iff.mp henclosed, rest, by simp⟩
  have hinner' : untilClosed 0 (inner' ++ ')' :: rest') = some inner' :=
    untilClosed_eq_some_iff.mpr ⟨enclosed_iff.mp henclosed', rest', by simp⟩
  rw [List.append_cancel_left hkeyword, hinner'] at hinner
  obtain rfl := Option.some.inj hinner
  exact ⟨hstop.symm.trans hstop', rfl⟩

/-- The scan comes to the offset: no call that it found lies around, and it did not stop before. -/
structure Reached (text : Text) (site : Nat) : Prop where
  clear : ∀ c ∈ (scan text).calls, c.start < site → c.stop ≤ site
  going : ∀ o ∈ (scan text).unbalanced, site ≤ o

theorem reached_iff : Reached text site ↔
    (∀ c ∈ (scan text).calls, c.start < site → c.stop ≤ site) ∧
      ∀ o ∈ (scan text).unbalanced, site ≤ o :=
  ⟨fun h => ⟨h.clear, h.going⟩, fun h => ⟨h.1, h.2⟩⟩

instance (text : Text) (site : Nat) : Decidable (Reached text site) :=
  decidable_of_iff _ reached_iff.symm

theorem Reached.found_or (h : Reached text site) (hsite : IsSite text site) :
    (∃ c ∈ (scan text).calls, c.start = site) ∨ (scan text).unbalanced = some site := by
  by_cases hstuck : (scan text).unbalanced = some site
  · exact Or.inr hstuck
  · obtain ⟨c, hc, hstart, hstop⟩ := (finds_scan text).covered site (Nat.zero_le _) hsite
      fun o ho => lt_of_le_of_ne (h.going o ho) fun heq => hstuck (heq ▸ ho)
    refine Or.inl ⟨c, hc, hstart.eq_or_lt.resolve_right fun hlt => ?_⟩
    have := h.clear c hc hlt
    omega

theorem not_found (hsite : ¬ IsSite text site) :
    (∀ c ∈ (scan text).calls, c.start ≠ site) ∧ (scan text).unbalanced ≠ some site := by
  constructor
  · rintro c hc rfl
    obtain ⟨-, -, inner, hcall, -⟩ := (finds_scan text).found c hc
    exact hsite hcall.isSite
  · exact fun ho => hsite ((finds_scan text).stuck site ho).1

theorem not_isSite_within (rest : Text) (hstart : Text.width before < site)
    (hstop : site < Text.width (before ++ keyword)) :
    ¬ IsSite (before ++ (keyword ++ rest)) site := by
  rintro ⟨before', rest', htext, rfl, -⟩
  obtain ⟨between, hne, rfl, hbetween⟩ := Text.exists_between htext hstart
  refine keyword_not_within hne ?_ _ _ hbetween
  have hlength : between.length ≤ Text.width between := by
    clear hne hbetween htext hstart hstop
    induction between with
    | nil => simp
    | cons c between ih =>
      have := c.utf8Size_pos
      simp only [List.length_cons, Text.width_cons]
      omega
  have hkeyword : Text.width keyword = keyword.length := by decide
  simp only [Text.width_append] at hstop
  omega

/-- Where a name can begin a call can, but not behind a dot: there a name is behind a spread. -/
theorem isSite_iff_of_opensAfter (rest : Text) (h : Spot.opensAfter before.reverse = true) :
    IsSite (before ++ (keyword ++ rest)) (Text.width before) ↔ before.getLast? ≠ some '.' := by
  rw [isSite_iff, opensAfter_iff]
  constructor
  · rintro ⟨hopens, -⟩ hdot
    exact (hopens '.' hdot).2 rfl
  · intro hdot
    refine ⟨fun c hc => ⟨?_, fun heq => hdot (heq ▸ hc)⟩, List.prefix_append _ _⟩
    obtain ⟨init, rfl⟩ := List.getLast?_eq_some_iff.mp hc
    rw [List.reverse_concat] at h
    exact Spot.not_isIdentifierChar_of_opensAfter h

theorem exists_keyword_of_ok {r : Resolution} (hreached : Reached (before ++ (keyword ++ rest))
    (Text.width before)) (hsite : ¬ IsSite (before ++ (keyword ++ rest)) (Text.width before))
    (hr : (resolveRequires tree file (before ++ (keyword ++ rest)) extensions).outcome = .ok r) :
    ∃ code₁ code₂ calls₁ calls₂, relativeCalls (before ++ (keyword ++ rest)) = calls₁ ++ calls₂ ∧
      Substituted tree file extensions 0 before calls₁ code₁ ∧
      Substituted tree file extensions (Text.width (before ++ keyword)) rest calls₂ code₂ ∧
      r.code = code₁ ++ (keyword ++ code₂) := by
  refine exists_stretch_of_ok hr rfl fun c hc => ?_
  rcases Nat.lt_trichotomy c.start (Text.width before) with hlt | heq | hgt
  · exact .before (hreached.clear c hc hlt)
  · exact absurd heq ((not_found hsite).1 c hc)
  · refine .behind (Nat.le_of_not_lt fun hlt => not_isSite_within rest hgt hlt ?_)
    obtain ⟨-, -, _, hcall, -⟩ := (finds_scan _).found c hc
    exact hcall.isSite

/-- **Calls are found where names are, but not behind spreads.** Let the scan come to a place where
`require(` stands. If a name could begin there and no dot is in front, a call is found when its
parentheses balance, and when they do not the scan stops with this place as its error. Behind a dot,
be it the last one of a spread, nothing is found and nothing is wrong: the keyword is put out as it
stood, between what becomes of the text before it and of the text behind it. -/
theorem scan_but_for_spreads (tree : FileTree) (file : Path) (extensions : List Text)
    {before rest : Text}
    (hreached : Reached (before ++ (keyword ++ rest)) (Text.width before)) :
    (Spot.opensAfter before.reverse = true → before.getLast? ≠ some '.' →
      (∀ inner after, rest = inner ++ ')' :: after → Enclosed inner →
        ∃ c ∈ (scan (before ++ (keyword ++ rest))).calls, c.start = Text.width before ∧
          c.stop = c.start + Text.width (keyword ++ inner ++ [')']) ∧
          Unquoted (Text.trim inner) c.argument) ∧
      ((∀ inner after, rest = inner ++ ')' :: after → ¬ Enclosed inner) →
        (scan (before ++ (keyword ++ rest))).unbalanced = some (Text.width before))) ∧
    (before.getLast? = some '.' →
      (∀ c ∈ (scan (before ++ (keyword ++ rest))).calls, c.start ≠ Text.width before) ∧
      (scan (before ++ (keyword ++ rest))).unbalanced ≠ some (Text.width before) ∧
      ∀ r, (resolveRequires tree file (before ++ (keyword ++ rest)) extensions).outcome = .ok r →
        ∃ code₁ code₂ calls₁ calls₂,
          relativeCalls (before ++ (keyword ++ rest)) = calls₁ ++ calls₂ ∧
          Substituted tree file extensions 0 before calls₁ code₁ ∧
          Substituted tree file extensions (Text.width (before ++ keyword)) rest calls₂ code₂ ∧
          r.code = code₁ ++ (keyword ++ code₂)) := by
  have hfinds := finds_scan (before ++ (keyword ++ rest))
  constructor
  · intro hopens hdot
    have hsite := (isSite_iff_of_opensAfter rest hopens).mpr hdot
    have hfound := hreached.found_or hsite
    refine ⟨?_, fun hopen => hfound.resolve_left ?_⟩
    · rintro inner after rfl henclosed
      have hcall : IsCall (before ++ (keyword ++ (inner ++ ')' :: after))) (Text.width before)
          (Text.width before + Text.width (keyword ++ inner ++ [')'])) inner :=
        ⟨before, after, rfl, rfl, rfl, opensAfter_iff.mp (isSite_iff.mp hsite).1, henclosed⟩
      obtain ⟨c, hc, hstart⟩ := hfound.resolve_right fun ho => (hfinds.stuck _ ho).2 _ _ hcall
      obtain ⟨-, -, inner', hcall', hunquoted⟩ := hfinds.found c hc
      rw [← hstart] at hcall
      obtain ⟨hstop, rfl⟩ := hcall'.unique hcall
      exact ⟨c, hc, hstart, hstop, hunquoted⟩
    · rintro ⟨c, hc, hstart⟩
      obtain ⟨-, -, inner, ⟨before', after, htext, hwidth, -, -, henclosed⟩, -⟩ := hfinds.found c hc
      obtain ⟨-, hkeyword⟩ := Text.append_inj_of_width htext (hstart.symm.trans hwidth.symm)
      exact hopen inner after (List.append_cancel_left hkeyword) henclosed
  · intro hdot
    have hsite : ¬ IsSite (before ++ (keyword ++ rest)) (Text.width before) := by
      rw [isSite_iff, opensAfter_iff]
      exact fun h => (h.1 '.' hdot).2 rfl
    obtain ⟨hcalls, hunbalanced⟩ := not_found hsite
    exact ⟨hcalls, hunbalanced, fun r hr => exists_keyword_of_ok hreached hsite hr⟩

/-- The scan comes to a spread, and nothing of the text is changed. -/
theorem scan_but_for_spreads_argument :
    Reached ("f(...".toList ++ (keyword ++ "'./x'))".toList)) (Text.width "f(...".toList) ∧
      ∃ code₁ code₂, Substituted ⟨[], []⟩ (Path.ofText ['/', 'm']) [] 0 "f(...".toList [] code₁ ∧
        Substituted ⟨[], []⟩ (Path.ofText ['/', 'm']) [] 13 "'./x'))".toList [] code₂ ∧
        code₁ ++ (keyword ++ code₂) = "f(...require('./x'))".toList := by
  have hcalls : (scan ("f(...".toList ++ (keyword ++ "'./x'))".toList))).calls = [] := by
    decide +kernel
  have hunbalanced :
      (scan ("f(...".toList ++ (keyword ++ "'./x'))".toList))).unbalanced = none := by
    decide +kernel
  have hreached : Reached ("f(...".toList ++ (keyword ++ "'./x'))".toList))
      (Text.width "f(...".toList) := by decide +kernel
  have hrelative : relativeCalls ("f(...".toList ++ (keyword ++ "'./x'))".toList)) = [] := by
    rw [relativeCalls, hcalls, List.filter_nil]
  have hr := resolveRequires_of_relativeArguments_eq_nil ⟨[], []⟩ (Path.ofText ['/', 'm']) []
    hunbalanced (by rw [relativeArguments_eq, hrelative, List.map_nil])
  obtain ⟨-, -, hkept⟩ := (scan_but_for_spreads ⟨[], []⟩ (Path.ofText ['/', 'm']) [] hreached).2
    (by decide)
  obtain ⟨code₁, code₂, calls₁, calls₂, hcut, h₁, h₂, hcode⟩ := hkept _ hr
  obtain ⟨rfl, rfl⟩ := List.append_eq_nil_iff.mp (hcut.symm.trans hrelative)
  exact ⟨hreached, code₁, code₂, h₁, h₂, hcode.symm⟩

/-- A name could begin behind the spread and the parentheses balance, but no call is found: the text
comes back with the relative call in it. -/
theorem scan_spread :
    Spot.opensAfter "f(...".toList.reverse = true ∧ Enclosed "'./x'".toList ∧
      isRelative (unquote (Text.trim "'./x'".toList)) = true ∧
      scan "f(...require('./x'))".toList = ⟨"f(...require('./x'))".toList.map .plain, none⟩ ∧
      ∀ tree file extensions, (resolveRequires tree file "f(...require('./x'))".toList
        extensions).outcome = .ok ⟨"f(...require('./x'))".toList, []⟩ := by
  refine ⟨by decide, ?_, by decide, by decide +kernel, fun tree file extensions => ?_⟩
  · exact enclosed_iff.mpr (untilClosed_eq_some_iff.mp
      (show untilClosed 0 "'./x')".toList = some "'./x'".toList by decide)).1
  · exact resolveRequires_of_relativeArguments_eq_nil tree file extensions (by decide +kernel)
      (by decide +kernel)

end Require
end ScriptBundle
