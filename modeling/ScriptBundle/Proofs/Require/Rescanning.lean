import ScriptBundle.Proofs.Require.Substitution

/-! What is left to replace where all relative calls gave way to ids: nothing. A scan of the new
text finds the calls that were kept and no other. No call begins in an id, which is an identifier,
and none begins before an id and reaches into it, since ids begin with a character that `require(`
lacks. Behind an id a call could be lost, but only one that stood right behind the replaced one. -/
namespace ScriptBundle
namespace Require

variable {tree : FileTree} {file : Path} {extensions : List Text} {before before' text rest : Text}
  {source argument : Text} {pieces : List Piece} {c : Char}

/-- What the scan of a text that stands behind another finds, when all its calls are closed. -/
inductive Scans : Text → Text → List Piece → Prop
  | nil {before : Text} : Scans before [] []
  | plain {before rest : Text} {c : Char} {pieces : List Piece}
    (hsite : siteAt before (c :: rest) = .plain) (h : Scans (c :: before) rest pieces) :
    Scans before (c :: rest) (.plain c :: pieces)
  | call {before source rest argument : Text} {pieces : List Piece}
    (hsite : siteAt before (source ++ rest) = .call source argument)
    (h : Scans (source.reverse ++ before) rest pieces) :
    Scans before (source ++ rest) (.call source argument :: pieces)

theorem scans_scanFrom {offset skip : Nat}
    (h : (scanFrom before offset skip text).unbalanced = none) :
    Scans ((text.take skip).reverse ++ before) (text.drop skip)
      (scanFrom before offset skip text).pieces := by
  induction text generalizing before offset skip with
  | nil => simpa [scanFrom] using Scans.nil
  | cons c text ih =>
    cases skip with
    | succ skip => simpa [scanFrom] using ih (by simpa [scanFrom] using h)
    | zero =>
      cases hs : siteAt before (c :: text) with
      | plain =>
        simp only [scanFrom, hs] at h ⊢
        exact .plain hs (by simpa using ih h)
      | call source argument =>
        simp only [scanFrom, hs] at h ⊢
        obtain ⟨hne, rest, hsource⟩ := siteAt_call hs
        obtain ⟨d, source, rfl⟩ := List.exists_cons_of_ne_nil hne
        obtain ⟨rfl, rfl⟩ : c = d ∧ text = source ++ rest := by simpa using hsource
        rw [← List.cons_append] at hs
        simpa using Scans.call hs (by simpa using ih h)
      | unbalanced => simp [scanFrom, hs] at h

theorem scanFrom_append (before : Text) (offset : Nat) (skipped rest : Text) :
    ∃ offset', scanFrom before offset skipped.length (skipped ++ rest) =
      scanFrom (skipped.reverse ++ before) offset' 0 rest := by
  induction skipped generalizing before offset with
  | nil => exact ⟨offset, rfl⟩
  | cons c skipped ih => simpa [scanFrom] using ih (c :: before) (offset + c.utf8Size)

theorem Scans.scanFrom_eq (h : Scans before text pieces) (offset : Nat) :
    scanFrom before offset 0 text = ⟨pieces, none⟩ := by
  induction h generalizing offset with
  | nil => rfl
  | plain hsite _ ih => simp only [scanFrom, hsite, ih]
  | @call before source rest argument pieces hsite _ ih =>
    obtain ⟨hne, -⟩ := siteAt_call hsite
    obtain ⟨c, source, rfl⟩ := List.exists_cons_of_ne_nil hne
    obtain ⟨offset', hskip⟩ := scanFrom_append (c :: before) (offset + c.utf8Size) source rest
    simp only [List.reverse_cons, List.append_assoc, List.singleton_append] at ih
    rw [List.cons_append] at hsite ⊢
    simp only [scanFrom, hsite, List.length_cons, Nat.add_sub_cancel, hskip, ih]

theorem scans_iff : Scans [] text pieces ↔ scan text = ⟨pieces, none⟩ := by
  refine ⟨fun h => h.scanFrom_eq 0, fun h => ?_⟩
  have hscans := scans_scanFrom (show (scanFrom [] 0 0 text).unbalanced = none from congrArg _ h)
  rw [show (scanFrom [] 0 0 text).pieces = pieces from congrArg _ h] at hscans
  simpa using hscans

theorem Scans.text_eq (h : Scans before text pieces) : pieces.flatMap Piece.text = text := by
  induction h with
  | nil => rfl
  | plain _ _ ih => simp [Piece.text, ih]
  | call _ _ ih => simp [Piece.text, ih]

theorem siteAt_eq_plain_iff :
    siteAt before text = .plain ↔ ¬ (opensAfter before = true ∧ keyword <+: text) := by
  unfold siteAt
  cases hafter : Text.after? keyword text with
  | none =>
    have hnot : ¬ keyword <+: text := by
      rintro ⟨rest, rfl⟩
      simp [Text.after?_eq_some_iff.mpr rfl] at hafter
    simp [hnot]
  | some rest =>
    rw [Text.after?_eq_some_iff] at hafter
    cases opensAfter before
    · simp
    · have hprefix : keyword <+: text := hafter ▸ List.prefix_append _ _
      simp only [if_true, hprefix, and_self, not_true_eq_false, iff_false]
      split <;> simp

theorem siteAt_call_append (hsite : siteAt before text = .call source argument)
    (hopens : opensAfter before' = true) (rest : Text) :
    siteAt before' (source ++ rest) = .call source argument := by
  rw [← List.reverse_reverse before] at hsite
  obtain ⟨-, inner, -, rfl, -, henclosed, rfl⟩ := exists_inner_of_siteAt hsite
  have hafter : Text.after? keyword (keyword ++ inner ++ [')'] ++ rest) =
      some (inner ++ ')' :: rest) := by
    rw [Text.after?_eq_some_iff]
    simp
  have hclosed : untilClosed 0 (inner ++ ')' :: rest) = some inner :=
    untilClosed_eq_some_iff.mpr ⟨enclosed_iff.mp henclosed, rest, by simp⟩
  simp only [siteAt, hafter, hopens, if_true, hclosed]

theorem Scans.identifier_append {t : Text} (ht : ∀ d ∈ t, isIdentifierChar d = true)
    (hc : isIdentifierChar c = true) (h : Scans (t.reverse ++ c :: before) rest pieces) :
    Scans (c :: before) (t ++ rest) (t.map .plain ++ pieces) := by
  induction t generalizing c before with
  | nil => exact h
  | cons d t ih =>
    obtain ⟨hd, ht'⟩ := List.forall_mem_cons.mp ht
    refine .plain (siteAt_eq_plain_iff.mpr fun hopens => ?_) (ih ht' hd (by simpa using h))
    simp [opensAfter, hc] at hopens

theorem exists_cons_ofPath (target : Path) : ∃ t, (ModuleId.ofPath target).text = '_' :: t := by
  obtain ⟨t, ht⟩ := ModuleId.lead_prefix target
  exact ⟨_, ht.symm⟩

theorem Scans.id_append {target : Path}
    (h : Scans ((ModuleId.ofPath target).text.reverse ++ before) rest pieces) :
    Scans before ((ModuleId.ofPath target).text ++ rest)
      ((ModuleId.ofPath target).text.map .plain ++ pieces) := by
  have hchars : ∀ d ∈ (ModuleId.ofPath target).text, isIdentifierChar d = true :=
    fun d hd => ModuleId.isIdentifierChar_of_mem hd
  obtain ⟨t, ht⟩ := exists_cons_ofPath target
  rw [ht] at h hchars ⊢
  obtain ⟨hfirst, ht'⟩ := List.forall_mem_cons.mp hchars
  refine .plain (siteAt_eq_plain_iff.mpr fun ⟨_, hkeyword⟩ => ?_)
    (identifier_append ht' hfirst (by simpa using h))
  exact absurd (List.cons_prefix_cons.mp hkeyword).1 (by decide)

theorem opensAfter_id (target : Path) :
    opensAfter ((ModuleId.ofPath target).text.reverse ++ before) = false := by
  obtain ⟨t, ht⟩ := exists_cons_ofPath target
  obtain ⟨init, c, hinit⟩ : ∃ init c, (ModuleId.ofPath target).text = init ++ [c] :=
    (List.eq_nil_or_concat' _).resolve_left (by simp [ht])
  have hc : isIdentifierChar c = true :=
    ModuleId.isIdentifierChar_of_mem (p := target) (by simp [hinit])
  simp [hinit, opensAfter, hc]

theorem prefix_text_of_prefix_linked {t : Text} (ht : '_' ∉ t)
    (h : t <+: pieces.flatMap (linked tree file extensions)) :
    t <+: pieces.flatMap Piece.text := by
  induction pieces generalizing t with
  | nil => exact h
  | cons piece pieces ih =>
    rw [List.flatMap_cons] at h ⊢
    have hkept : linked tree file extensions piece = piece.text →
        t <+: piece.text ++ pieces.flatMap Piece.text := by
      intro hpiece
      rw [hpiece] at h
      obtain ⟨after, hafter⟩ := h
      rcases List.append_eq_append_iff.mp hafter with ⟨more, hmore, -⟩ | ⟨more, rfl, hmore⟩
      · rw [hmore, List.append_assoc]
        exact List.prefix_append _ _
      · have hmem : '_' ∉ more := fun hmem => ht (by simp [hmem])
        exact (List.prefix_append_right_inj _).mpr (ih hmem ⟨after, hmore.symm⟩)
    cases piece with
    | plain c => exact hkept rfl
    | call source argument =>
      rcases @linked_call tree file extensions source argument with hsource | ⟨target, hid⟩
      · exact hkept hsource
      · obtain ⟨more, hmore⟩ := exists_cons_ofPath target
        rw [hid, hmore] at h
        cases t with
        | nil => exact List.nil_prefix
        | cons d t =>
          obtain ⟨rfl, -⟩ := List.cons_prefix_cons.mp h
          simp at ht

/-- What the scan finds where a piece was: a call that was kept, or the characters of an id. -/
def settled (tree : FileTree) (file : Path) (extensions : List Text) : Piece → List Piece
  | .plain c => [.plain c]
  | .call source argument =>
    if isRelative argument then (linked tree file extensions (.call source argument)).map .plain
    else [.call source argument]

theorem opensAfter_call (hsite : siteAt before text = .call source argument) :
    opensAfter (source.reverse ++ before') = true := by
  obtain ⟨inner, rfl⟩ := List.getLast?_eq_some_iff.mp (of_siteAt_call hsite).2
  rw [List.reverse_concat]
  rfl

theorem opensAfter_of_siteAt_call (hsite : siteAt before text = .call source argument)
    (hopens : opensAfter before' = opensAfter before ∨
      opensAfter before' = false ∧ ∀ d ∈ text.head?, isIdentifierChar d = false) :
    opensAfter before' = true := by
  rcases hopens with hsame | ⟨-, hhead⟩
  · rw [hsame, (of_siteAt_call hsite).1]
  · rw [← List.reverse_reverse before] at hsite
    obtain ⟨-, inner, rest, rfl, rfl, -, -⟩ := exists_inner_of_siteAt hsite
    exact absurd (hhead 'r' rfl) (by decide)

/-- Where the ids have been put, a scan finds what it found before, less what they replace. Behind
an id it is as behind a call, unless a name follows. -/
theorem Scans.settled {offset : Nat} (h : Scans before text pieces)
    (htargets : ∀ c ∈ Scan.callsFrom offset pieces, isRelative c.argument = true →
      ∃ target, (resolve tree file c.argument extensions).outcome = .ok target)
    (hfollowed : ∀ c ∈ Scan.callsFrom offset pieces, isRelative c.argument = true →
      ∀ front after, text = front ++ after → offset + Text.width front = c.stop →
        ∀ d ∈ after.head?, isIdentifierChar d = false)
    (hopens : opensAfter before' = opensAfter before ∨
      opensAfter before' = false ∧ ∀ d ∈ text.head?, isIdentifierChar d = false) :
    Scans before' (pieces.flatMap (linked tree file extensions))
      (pieces.flatMap (Require.settled tree file extensions)) := by
  induction h generalizing before' offset with
  | nil => exact .nil
  | @plain before rest c pieces hsite h ih =>
    refine .plain (siteAt_eq_plain_iff.mpr fun ⟨hopens', hkeyword⟩ => ?_)
      (ih htargets (fun d hd hrelative front after htext hwidth => ?_) (Or.inl rfl))
    · have hbefore : opensAfter before = true := by
        rcases hopens with hsame | ⟨hclosed, -⟩
        · rw [← hsame, hopens']
        · simp [hclosed] at hopens'
      have hkeyword' : keyword <+: (Piece.plain c :: pieces).flatMap Piece.text :=
        prefix_text_of_prefix_linked (by decide) hkeyword
      rw [← h.text_eq, siteAt_eq_plain_iff] at hsite
      exact hsite ⟨hbefore, hkeyword'⟩
    · refine hfollowed d hd hrelative (c :: front) after (by rw [htext]; rfl) ?_
      rw [← hwidth, Text.width_cons]
      omega
  | @call before source rest argument pieces hsite h ih =>
    have htail : ∀ d ∈ Scan.callsFrom (offset + Text.width source) pieces,
        d ∈ Scan.callsFrom offset (.call source argument :: pieces) :=
      fun d hd => List.mem_cons_of_mem _ hd
    have hrest : ∀ d ∈ Scan.callsFrom (offset + Text.width source) pieces,
        isRelative d.argument = true → ∀ front after, rest = front ++ after →
          offset + Text.width source + Text.width front = d.stop →
            ∀ e ∈ after.head?, isIdentifierChar e = false := by
      intro d hd hrelative front after htext hwidth
      refine hfollowed d (htail d hd) hrelative (source ++ front) after (by simp [htext]) ?_
      rw [← hwidth, Text.width_append, Nat.add_assoc]
    have ih' {before' : Text} := @ih before' _ (fun d hd => htargets d (htail d hd)) hrest
    rw [List.flatMap_cons, List.flatMap_cons, Require.settled]
    by_cases hrelative : isRelative argument = true
    · obtain ⟨target, htarget⟩ := htargets _ List.mem_cons_self hrelative
      rw [if_pos hrelative, linked_relative hrelative htarget]
      have hfollows := hfollowed _ List.mem_cons_self hrelative source rest rfl rfl
      exact .id_append (ih' (Or.inr ⟨opensAfter_id target, hfollows⟩))
    · have hkept : linked tree file extensions (.call source argument) = source := by
        rw [linked, if_neg hrelative]
      rw [if_neg hrelative, hkept]
      refine .call (siteAt_call_append hsite (opensAfter_of_siteAt_call hsite hopens) _) (ih' ?_)
      exact Or.inl ((opensAfter_call hsite).trans (opensAfter_call hsite).symm)

theorem arguments_settled (offset offset' : Nat) (pieces : List Piece) :
    (Scan.callsFrom offset' (pieces.flatMap (settled tree file extensions))).map (·.argument) =
      ((Scan.callsFrom offset pieces).map (·.argument)).filter (!isRelative ·) := by
  have hplain : ∀ (t : Text) (offset' : Nat) (more : List Piece), ∃ offset'',
      Scan.callsFrom offset' (t.map .plain ++ more) = Scan.callsFrom offset'' more := by
    intro t
    induction t with
    | nil => exact fun offset' more => ⟨offset', rfl⟩
    | cons c t ih => exact fun offset' more => ih (offset' + c.utf8Size) more
  induction pieces generalizing offset offset' with
  | nil => rfl
  | cons piece pieces ih =>
    cases piece with
    | plain c => exact ih _ _
    | call source argument =>
      rw [List.flatMap_cons, settled]
      by_cases hrelative : isRelative argument = true
      · obtain ⟨offset'', hskip⟩ := hplain (linked tree file extensions (.call source argument))
          offset' (pieces.flatMap (settled tree file extensions))
        rw [if_pos hrelative, hskip, ih (offset + Text.width source) offset'']
        simp [Scan.callsFrom, hrelative]
      · rw [if_neg hrelative, List.singleton_append]
        simp [Scan.callsFrom, hrelative, ih (offset + Text.width source)]

theorem resolveRequires_of_relativeArguments_eq_nil (tree : FileTree) (file : Path)
    (extensions : List Text) (hbalanced : (scan text).unbalanced = none)
    (h : relativeArguments text = []) :
    (resolveRequires tree file text extensions).outcome = .ok ⟨text, []⟩ := by
  have hcalls : relativeCalls text = [] := List.map_eq_nil_iff.mp (relativeArguments_eq text ▸ h)
  have hresolves : Resolves tree file extensions text
      ⟨(scan text).pieces.flatMap (linked tree file extensions), distinct []⟩ :=
    resolves_of_forall₂ hbalanced (by simp [hcalls]) (by rw [hcalls]; exact .nil)
  have htargets : (resolveAll tree file extensions (relativeArguments text)).outcome = .ok [] := by
    rw [h]
    rfl
  have htext : text = (scan text).pieces.flatMap (linked tree file extensions) :=
    (hresolves.code text).mp (hcalls ▸ .rest)
  rw [resolveRequires_of_targets hbalanced htargets, ← htext]
  rfl

/-- **One pass replaces all.** Where no name stands right behind a relative call, the text that
comes out has no relative calls. The calls that were kept are found in it and no other, and all of
them are closed; so, whatever module and tree it is taken for, it stays as it is. -/
theorem resolveRequires_settles {r : Resolution}
    (hr : (resolveRequires tree file text extensions).outcome = .ok r)
    (hfollowed : ∀ c ∈ relativeCalls text, ∀ before after, text = before ++ after →
      Text.width before = c.stop → ∀ d ∈ after.head?, isIdentifierChar d = false)
    (tree' : FileTree) (file' : Path) (extensions' : List Text) :
    (resolveRequires tree' file' r.code extensions').outcome = .ok ⟨r.code, []⟩ ∧
      (scan r.code).unbalanced = none ∧ (scan r.code).calls.map (·.argument) =
        ((scan text).calls.map (·.argument)).filter (!isRelative ·) := by
  obtain ⟨hbalanced, hcode⟩ := resolveRequires_ok hr
  have htargets : ∀ c ∈ relativeCalls text,
      ∃ target, (resolve tree file c.argument extensions).outcome = .ok target := by
    rw [resolveRequires_outcome, hbalanced] at hr
    cases htargets : (resolveAll tree file extensions (relativeArguments text)).outcome with
    | error e => simp [htargets, Except.map] at hr
    | ok targets => exact (resolveAll_calls_ensures tree file text extensions).of_ok htargets
  have hmem : ∀ c ∈ Scan.callsFrom 0 (scan text).pieces, isRelative c.argument = true →
      c ∈ relativeCalls text := fun c hc hrelative => List.mem_filter.mpr ⟨hc, hrelative⟩
  have hscans : Scans [] text (scan text).pieces := scans_iff.mpr (by rw [← hbalanced])
  have hscan : scan r.code =
      ⟨(scan text).pieces.flatMap (settled tree file extensions), none⟩ := by
    rw [hcode, ← scans_iff]
    refine hscans.settled (fun c hc hrelative => htargets c (hmem c hc hrelative))
      (fun c hc hrelative front after htext hwidth => ?_) (Or.inl rfl)
    exact hfollowed c (hmem c hc hrelative) front after htext (by simpa using hwidth)
  have harguments : (scan r.code).calls.map (·.argument) =
      ((scan text).calls.map (·.argument)).filter (!isRelative ·) := by
    rw [Scan.calls, hscan]
    exact arguments_settled 0 0 _
  have hrelative : relativeArguments r.code = [] := by
    rw [relativeArguments, harguments, List.filter_filter]
    simp
  have hbalanced' : (scan r.code).unbalanced = none := by rw [hscan]
  exact ⟨resolveRequires_of_relativeArguments_eq_nil tree' file' extensions' hbalanced' hrelative,
    hbalanced', harguments⟩

/-- An id that ends like the keyword, before a parenthesis. -/
theorem resolveRequires_settles_stem :
    let m := Path.ofText ['/', 'm']
    let b := Path.ofText "/require".toList
    let tree : FileTree := ⟨[], [([Utf8.encode "require".toList], .file [])]⟩
    let text := "require('./require')(require('fs'))".toList
    ∃ r, (resolveRequires tree m text []).outcome = .ok r ∧
      r.code = (ModuleId.ofPath b).text ++ "(require('fs'))".toList ∧
      (resolveRequires ⟨[], []⟩ b r.code []).outcome = .ok ⟨r.code, []⟩ := by
  intro m b tree text
  have hresolved : (resolveRequires tree m text []).Ensures (fun r =>
      r.code = (ModuleId.ofPath b).text ++ "(require('fs'))".toList) fun _ => False := by
    decide +kernel
  have hcalls : ∀ c ∈ relativeCalls text, c.stop = 20 := by decide +kernel
  obtain ⟨r, hr, hcode⟩ := hresolved.exists_ok
  refine ⟨r, hr, hcode, (resolveRequires_settles hr ?_ ⟨[], []⟩ b []).1⟩
  intro c hc before after htext hwidth
  have hcut : text = "require('./require')".toList ++ "(require('fs'))".toList := by decide
  obtain ⟨-, rfl⟩ := Text.append_inj_of_width (htext.symm.trans hcut) (by
    rw [hwidth, hcalls c hc]
    decide)
  intro d hd
  obtain rfl := Option.some.inj hd
  decide

end Require
end ScriptBundle
