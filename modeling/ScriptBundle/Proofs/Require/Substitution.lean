import ScriptBundle.Proofs.Require.CallSites
import ScriptBundle.Proofs.Require.Scanning

/-! What becomes of a module's text, said of its calls. Between the relative calls the text is kept,
and each of them gives way to the id of the path that it names. These paths are the dependencies,
each in the place of the first call that names it. -/
namespace ScriptBundle
namespace Require

variable {tree : FileTree} {file p q : Path} {extensions : List Text} {text : Text}

def relativeCalls (text : Text) : List Call := (scan text).calls.filter (isRelative ·.argument)

theorem relativeArguments_eq (text : Text) :
    relativeArguments text = (relativeCalls text).map (·.argument) := by
  simp [relativeArguments, relativeCalls, List.filter_map, Function.comp_def]

/-- The text from an offset on becomes another: each of the calls gives way to the id of the path
that it resolves to, and what stands between them is kept. -/
inductive Substituted (tree : FileTree) (file : Path) (extensions : List Text) :
    Nat → Text → List Call → Text → Prop
  | rest {start : Nat} {text : Text} : Substituted tree file extensions start text [] text
  | call {start : Nat} {c : Call} {more : List Call} {target : Path}
    {before span after code : Text} (hstart : start + Text.width before = c.start)
    (hstop : c.start + Text.width span = c.stop)
    (htarget : (resolve tree file c.argument extensions).outcome = .ok target)
    (h : Substituted tree file extensions c.stop after more code) :
    Substituted tree file extensions start (before ++ (span ++ after)) (c :: more)
      (before ++ ((ModuleId.ofPath target).text ++ code))

theorem Substituted.unique {start : Nat} {calls : List Call} {code code' : Text}
    (h : Substituted tree file extensions start text calls code)
    (h' : Substituted tree file extensions start text calls code') : code = code' := by
  induction h generalizing code' with
  | rest => cases h'; rfl
  | @call start c more target before span after code hstart hstop htarget _ ih =>
    generalize htext : before ++ (span ++ after) = text at h'
    cases h' with
    | call hstart' hstop' htarget' hrest =>
      obtain ⟨rfl, hafter⟩ := Text.append_inj_of_width htext (by omega)
      obtain ⟨rfl, rfl⟩ := Text.append_inj_of_width hafter (by omega)
      obtain rfl := Except.ok.inj (htarget.symm.trans htarget')
      rw [ih hrest]

theorem Substituted.prepend {start : Nat} {calls : List Call} {code : Text} (front : Text)
    (h : Substituted tree file extensions (start + Text.width front) text calls code) :
    Substituted tree file extensions start (front ++ text) calls (front ++ code) := by
  cases h with
  | rest => exact .rest
  | @call _ c more target before span after code hstart hstop htarget hrest =>
    have hwidth : start + Text.width (front ++ before) = c.start := by
      rw [Text.width_append]
      omega
    simpa using Substituted.call hwidth hstop htarget hrest

theorem substituted_linked {pieces : List Piece} {offset : Nat}
    (h : ∀ c ∈ (Scan.callsFrom offset pieces).filter (isRelative ·.argument),
      ∃ target, (resolve tree file c.argument extensions).outcome = .ok target) :
    Substituted tree file extensions offset (pieces.flatMap Piece.text)
      ((Scan.callsFrom offset pieces).filter (isRelative ·.argument))
      (pieces.flatMap (linked tree file extensions)) := by
  induction pieces generalizing offset with
  | nil => exact .rest
  | cons piece pieces ih =>
    cases piece with
    | plain c => exact (ih h).prepend [c]
    | call source argument =>
      simp only [Scan.callsFrom, List.filter_cons, List.flatMap_cons, Piece.text] at h ⊢
      split at h
      · next hrelative =>
        obtain ⟨target, htarget⟩ := h _ List.mem_cons_self
        rw [if_pos hrelative, linked_relative hrelative htarget]
        have hrest := ih fun c hc => h c (List.mem_cons_of_mem _ hc)
        exact Substituted.call (show offset + Text.width [] = offset from rfl) rfl htarget hrest
      · next hrelative =>
        rw [if_neg hrelative, linked, if_neg hrelative]
        exact (ih h).prepend source

/-- A relative call that begins at the offset resolves to the path. -/
def NamedAt (tree : FileTree) (file : Path) (extensions : List Text) (text : Text) (p : Path)
    (start : Nat) : Prop :=
  ∃ c ∈ relativeCalls text, c.start = start ∧
    (resolve tree file c.argument extensions).outcome = .ok p

/-- No call before the one at the offset resolves to the same path, however it is spelt. -/
def FirstNamedAt (tree : FileTree) (file : Path) (extensions : List Text) (text : Text) (p : Path)
    (start : Nat) : Prop :=
  NamedAt tree file extensions text p start ∧
    ∀ q i, Path.Same q p → NamedAt tree file extensions text q i → start ≤ i

/-- Of the numbered paths that are spellings of one, this one has the least number. -/
def IsFirst (numbered : List (Nat × Path)) (p : Path) (n : Nat) : Prop :=
  (n, p) ∈ numbered ∧ ∀ e ∈ numbered, Path.Same e.2 p → n ≤ e.1

theorem isFirst_concat {numbered : List (Nat × Path)} {last : Nat × Path} {n : Nat}
    (hlast : ∀ e ∈ numbered, e.1 < last.1) : IsFirst (numbered ++ [last]) p n ↔
      IsFirst numbered p n ∨ (n, p) = last ∧ ∀ e ∈ numbered, ¬ Path.Same e.2 p := by
  simp only [IsFirst, List.mem_append, List.mem_singleton, or_imp, forall_and, forall_eq]
  constructor
  · rintro ⟨hmem | rfl, hleast, -⟩
    · exact Or.inl ⟨hmem, hleast⟩
    · refine Or.inr ⟨rfl, fun e he hsame => ?_⟩
      have hlt := hlast e he
      have hle := hleast e he hsame
      simp only at hlt
      omega
  · rintro (⟨hmem, hleast⟩ | ⟨rfl, hnot⟩)
    · exact ⟨Or.inl hmem, hleast, fun _ => (hlast _ hmem).le⟩
    · exact ⟨Or.inr rfl, fun e he hsame => absurd hsame (hnot e he), fun _ => le_rfl⟩

theorem distinct_concat (paths : List Path) (p : Path) : distinct (paths ++ [p]) =
    if (distinct paths).any fun q => decide (Path.Same q p) then distinct paths
    else distinct paths ++ [p] := by
  simp [distinct]

theorem distinct_spec {numbered : List (Nat × Path)} (h : numbered.Pairwise fun a b => a.1 < b.1) :
    (∀ p, p ∈ distinct (numbered.map (·.2)) ↔ ∃ n, IsFirst numbered p n) ∧
      (distinct (numbered.map (·.2))).Pairwise fun p q =>
        ∃ m n, IsFirst numbered p m ∧ IsFirst numbered q n ∧ m < n := by
  induction numbered using List.reverseRecOn with
  | nil => simp [distinct, IsFirst]
  | append_singleton numbered last ih =>
    obtain ⟨hnumbered, -, hbelow⟩ := List.pairwise_append.mp h
    obtain ⟨hmem, horder⟩ := ih hnumbered
    have hlast : ∀ e ∈ numbered, e.1 < last.1 := fun e he => hbelow e he last (by simp)
    have hkept : ∀ {p n}, IsFirst numbered p n → IsFirst (numbered ++ [last]) p n :=
      fun hfirst => (isFirst_concat hlast).mpr (Or.inl hfirst)
    have horder' : (distinct (numbered.map (·.2))).Pairwise fun p q =>
        ∃ m n, IsFirst (numbered ++ [last]) p m ∧ IsFirst (numbered ++ [last]) q n ∧ m < n := by
      refine horder.imp fun hpair => ?_
      obtain ⟨m, n, hm, hn, hlt⟩ := hpair
      exact ⟨m, n, hkept hm, hkept hn, hlt⟩
    -- Whether the last path was met before is seen among those that are kept.
    have hseen : (∃ q ∈ distinct (numbered.map (·.2)), Path.Same q last.2) ↔
        ∃ e ∈ numbered, Path.Same e.2 last.2 := by
      obtain ⟨hsub, hcover⟩ := mem_distinct (numbered.map (·.2))
      constructor
      · rintro ⟨q, hq, hsame⟩
        obtain ⟨e, he, rfl⟩ := List.mem_map.mp (hsub q hq)
        exact ⟨e, he, hsame⟩
      · rintro ⟨e, he, hsame⟩
        obtain ⟨q, hq, hqe⟩ := hcover e.2 (List.mem_map_of_mem he)
        exact ⟨q, hq, hqe.trans hsame⟩
    rw [List.map_append, List.map_singleton, distinct_concat]
    split
    · next hany =>
      have hsame : ∃ e ∈ numbered, Path.Same e.2 last.2 := hseen.mp (by simpa using hany)
      refine ⟨fun p => (hmem p).trans ⟨Exists.imp fun n => hkept, ?_⟩, horder'⟩
      rintro ⟨n, hn⟩
      rcases (isFirst_concat hlast).mp hn with hn | ⟨rfl, hnot⟩
      · exact ⟨n, hn⟩
      · obtain ⟨e, he, hsame⟩ := hsame
        exact absurd hsame (hnot e he)
    · next hany =>
      have hnew : ∀ e ∈ numbered, ¬ Path.Same e.2 last.2 := fun e he hsame =>
        hany (by simpa using hseen.mpr ⟨e, he, hsame⟩)
      have hfirst : IsFirst (numbered ++ [last]) last.2 last.1 :=
        (isFirst_concat hlast).mpr (Or.inr ⟨rfl, hnew⟩)
      refine ⟨fun p => ?_, List.pairwise_append.mpr ⟨horder', by simp, fun p hp q hq => ?_⟩⟩
      · rw [List.mem_append, List.mem_singleton, hmem]
        constructor
        · rintro (⟨n, hn⟩ | rfl)
          · exact ⟨n, hkept hn⟩
          · exact ⟨last.1, hfirst⟩
        · rintro ⟨n, hn⟩
          rcases (isFirst_concat hlast).mp hn with hn | ⟨rfl, -⟩
          · exact Or.inl ⟨n, hn⟩
          · exact Or.inr rfl
      · obtain rfl := List.mem_singleton.mp hq
        obtain ⟨n, hn⟩ := (hmem p).mp hp
        exact ⟨n, last.1, hkept hn, hfirst, hlast _ hn.1⟩

theorem resolveAll_ok_iff {arguments : List Text} {targets : List Path} :
    (resolveAll tree file extensions arguments).outcome = .ok targets ↔
      List.Forall₂ (fun a t => (resolve tree file a extensions).outcome = .ok t) arguments
        targets := by
  induction arguments generalizing targets with
  | nil => simp [resolveAll, eq_comm]
  | cons argument more ih =>
    rw [resolveAll_cons_ok, List.forall₂_cons_left_iff]
    simp only [ih]
    constructor
    · rintro ⟨t, ts, ht, hts, rfl⟩
      exact ⟨t, ts, ht, hts, rfl⟩
    · rintro ⟨t, ts, ht, hts, rfl⟩
      exact ⟨t, ts, ht, hts, rfl⟩

theorem exists_numbered {calls : List Call} {targets : List Path}
    (h : List.Forall₂
      (fun (c : Call) t => (resolve tree file c.argument extensions).outcome = .ok t)
      calls targets) :
    ∃ numbered : List (Nat × Path), numbered.map (·.1) = calls.map (·.start) ∧
      numbered.map (·.2) = targets ∧ ∀ n p, (n, p) ∈ numbered ↔
        ∃ c ∈ calls, c.start = n ∧ (resolve tree file c.argument extensions).outcome = .ok p := by
  induction h with
  | nil => exact ⟨[], rfl, rfl, by simp⟩
  | @cons c t calls targets hct _ ih =>
    obtain ⟨numbered, hstarts, htargets, hmem⟩ := ih
    refine ⟨(c.start, t) :: numbered, by simp [hstarts], by simp [htargets], fun n p => ?_⟩
    simp only [List.mem_cons, hmem, exists_eq_or_imp, Prod.mk.injEq, hct, Except.ok.injEq]
    exact or_congr_left ⟨fun ⟨hn, hp⟩ => ⟨hn.symm, hp.symm⟩, fun ⟨hn, hp⟩ => ⟨hn.symm, hp.symm⟩⟩

theorem pairwise_relativeCalls (text : Text) :
    (relativeCalls text).Pairwise fun a b => a.start < b.start := by
  have hfinds := finds_scan text
  have hcalls : (scan text).calls.Pairwise fun a b => a.start < b.start := by
    refine hfinds.apart.imp_of_mem fun ha _ hab => ?_
    have := (hfinds.found _ ha).2.1
    omega
  exact hcalls.filter _

theorem lineOf_width (before rest : Text) :
    lineOf (Text.width before) (before ++ rest) = before.count '\n' + 1 := by
  induction before with
  | nil => cases rest <;> simp [lineOf]
  | cons c before ih =>
    have hpos := c.utf8Size_pos
    have hne : ¬ Text.width (c :: before) = 0 := by
      rw [Text.width_cons]
      omega
    have hwidth : Text.width (c :: before) - c.utf8Size = Text.width before := by
      rw [Text.width_cons]
      omega
    rw [List.cons_append, lineOf, if_neg hne, hwidth, ih, List.count_cons]
    simp only [beq_iff_eq]
    omega

/-- A text with its calls replaced, and dependencies, as the calls say them. -/
structure Resolves (tree : FileTree) (file : Path) (extensions : List Text) (text : Text)
    (r : Resolution) : Prop where
  code : ∀ code, Substituted tree file extensions 0 text (relativeCalls text) code ↔ code = r.code
  mem : ∀ p, p ∈ r.dependencies ↔ ∃ i, FirstNamedAt tree file extensions text p i
  inOrder : r.dependencies.Pairwise fun p q => ¬ Path.Same p q ∧ ∃ i j,
    FirstNamedAt tree file extensions text p i ∧ FirstNamedAt tree file extensions text q j ∧ i < j
  /-- Paths are compared by their components. -/
  named : ∀ p, (∃ q ∈ r.dependencies, Path.Same q p) ↔
    ∃ q i, Path.Same q p ∧ NamedAt tree file extensions text q i
  /-- Canonical paths have one spelling. -/
  spelt : tree.Grounded file →
    ∀ p, p ∈ r.dependencies ↔ ∃ i, NamedAt tree file extensions text p i

theorem firstNamedAt_iff_isFirst {numbered : List (Nat × Path)}
    (h : ∀ n p, (n, p) ∈ numbered ↔ NamedAt tree file extensions text p n) {n : Nat} :
    FirstNamedAt tree file extensions text p n ↔ IsFirst numbered p n := by
  simp only [FirstNamedAt, IsFirst, Prod.forall, h]
  exact and_congr_right fun _ =>
    ⟨fun hleast i q hq hsame => hleast q i hsame hq, fun hleast q i hsame hq => hleast i q hq hsame⟩

theorem resolves_of_forall₂ {targets : List Path} (hbalanced : (scan text).unbalanced = none)
    (hall : ∀ c ∈ relativeCalls text,
      ∃ target, (resolve tree file c.argument extensions).outcome = .ok target)
    (h : List.Forall₂
      (fun (c : Call) t => (resolve tree file c.argument extensions).outcome = .ok t)
      (relativeCalls text) targets) :
    Resolves tree file extensions text
      ⟨(scan text).pieces.flatMap (linked tree file extensions), distinct targets⟩ := by
  obtain ⟨numbered, hstarts, rfl, hmem⟩ := exists_numbered h
  have hsorted : numbered.Pairwise fun a b => a.1 < b.1 := by
    have hpair := List.pairwise_map.mpr (pairwise_relativeCalls text)
    rw [← hstarts] at hpair
    exact List.pairwise_map.mp hpair
  have hfirst : ∀ {p n}, FirstNamedAt tree file extensions text p n ↔ IsFirst numbered p n :=
    firstNamedAt_iff_isFirst hmem
  obtain ⟨hdistinct, horder⟩ := distinct_spec hsorted
  simp only [← hfirst] at hdistinct horder
  obtain ⟨hsub, hcover⟩ := mem_distinct (numbered.map (·.2))
  have hnamed : ∀ {q}, q ∈ numbered.map (·.2) ↔ ∃ i, NamedAt tree file extensions text q i := by
    intro q
    simp only [List.mem_map, Prod.exists, exists_eq_right]
    exact exists_congr fun i => hmem i q
  have hlinked : Substituted tree file extensions 0 text (relativeCalls text)
      ((scan text).pieces.flatMap (linked tree file extensions)) := by
    have hpieces := substituted_linked hall
    rwa [text_scan hbalanced] at hpieces
  constructor
  case code => exact fun code => ⟨fun hcode => hcode.unique hlinked, fun hcode => hcode ▸ hlinked⟩
  case mem => exact hdistinct
  case inOrder =>
    refine horder.imp fun ⟨i, j, hi, hj, hlt⟩ => ⟨fun hsame => ?_, i, j, hi, hj, hlt⟩
    have hle := hj.2 _ i hsame hi.1
    omega
  case named =>
    refine fun p => ⟨fun ⟨q, hq, hsame⟩ => ?_, fun ⟨q, i, hsame, hq⟩ => ?_⟩
    · obtain ⟨i, hi⟩ := hnamed.mp (hsub q hq)
      exact ⟨q, i, hsame, hi⟩
    · obtain ⟨r, hr, hrq⟩ := hcover q (hnamed.mpr ⟨i, hq⟩)
      exact ⟨r, hr, hrq.trans hsame⟩
  case spelt =>
    intro hfile p
    have hcanonical : ∀ {q}, q ∈ numbered.map (·.2) → tree.Canonical q := fun hq => by
      obtain ⟨i, c, -, -, hc⟩ := hnamed.mp hq
      exact (resolve_ensures tree file c.argument extensions).of_ok hc hfile
    rw [← hnamed]
    refine ⟨hsub p, fun hp => ?_⟩
    obtain ⟨q, hq, hsame⟩ := hcover p hp
    rwa [← (hcanonical (hsub q hq)).eq_of_same (hcanonical hp) hsame]

theorem resolveRequires_outcome (tree : FileTree) (file : Path) (text : Text)
    (extensions : List Text) : (resolveRequires tree file text extensions).outcome =
      match (scan text).unbalanced with
      | some offset => .error (.malformedRequire file (lineOf offset text) offset)
      | none =>
        (resolveAll tree file extensions (relativeArguments text)).outcome.map fun targets =>
          ⟨substitute (scan text).pieces targets, distinct targets⟩ := by
  unfold resolveRequires relativeArguments
  cases hbalanced : (scan text).unbalanced with
  | some offset =>
    simp only [hbalanced, Logged.outcome_bind, Logged.outcome_tellAll, Except.bind,
      Logged.outcome_fail]
  | none =>
    simp only [hbalanced, Logged.outcome_bind, Logged.outcome_tellAll, Except.bind,
      Logged.outcome_pure]
    rfl

theorem resolveRequires_of_targets {targets : List Path} (hbalanced : (scan text).unbalanced = none)
    (htargets : (resolveAll tree file extensions (relativeArguments text)).outcome = .ok targets) :
    (resolveRequires tree file text extensions).outcome =
      .ok ⟨(scan text).pieces.flatMap (linked tree file extensions), distinct targets⟩ := by
  rw [resolveRequires_outcome, hbalanced, htargets, ← substitute_eq_linked htargets]
  rfl

theorem resolveAll_calls_ensures (tree : FileTree) (file : Path) (text : Text)
    (extensions : List Text) : (resolveAll tree file extensions (relativeArguments text)).Ensures
      (fun _ => ∀ c ∈ relativeCalls text,
        ∃ t, (resolve tree file c.argument extensions).outcome = .ok t)
      fun e => ∃ c ∈ relativeCalls text,
        (resolve tree file c.argument extensions).outcome = .error e := by
  have harguments := resolveAll_ensures tree file extensions (relativeArguments text)
  simp only [relativeArguments_eq, List.mem_map, exists_exists_and_eq_and] at harguments ⊢
  exact harguments.imp (fun _ h c hc => (h.1 _ ⟨c, hc, rfl⟩).imp fun _ ht => ht.2) fun _ => id

theorem exists_target_of_ok {r : Resolution}
    (hr : (resolveRequires tree file text extensions).outcome = .ok r) :
    ∀ c ∈ relativeCalls text, ∃ t, (resolve tree file c.argument extensions).outcome = .ok t := by
  obtain ⟨hbalanced, -⟩ := resolveRequires_ok hr
  rw [resolveRequires_outcome, hbalanced] at hr
  cases htargets : (resolveAll tree file extensions (relativeArguments text)).outcome with
  | error e => simp [htargets, Except.map] at hr
  | ok targets => exact (resolveAll_calls_ensures tree file text extensions).of_ok htargets

theorem exists_call_of_error {e : BundleError} (hbalanced : (scan text).unbalanced = none)
    (he : (resolveRequires tree file text extensions).outcome = .error e) :
    ∃ c ∈ relativeCalls text, (resolve tree file c.argument extensions).outcome = .error e := by
  rw [resolveRequires_outcome, hbalanced] at he
  cases htargets : (resolveAll tree file extensions (relativeArguments text)).outcome with
  | error e' =>
    rw [htargets] at he
    obtain rfl := Except.error.inj he
    exact (resolveAll_calls_ensures tree file text extensions).of_error htargets
  | ok targets => simp [htargets, Except.map] at he

theorem callsFrom_append (offset : Nat) (l r : List Piece) : Scan.callsFrom offset (l ++ r) =
    Scan.callsFrom offset l ++ Scan.callsFrom (offset + Text.width (l.flatMap Piece.text)) r := by
  induction l generalizing offset with
  | nil => rfl
  | cons piece l ih =>
    cases piece with
    | plain c => simp [Scan.callsFrom, ih, Piece.text, Nat.add_assoc]
    | call source argument => simp [Scan.callsFrom, ih, Piece.text, Nat.add_assoc]

theorem bounds_of_mem_callsFrom {offset : Nat} {pieces : List Piece} {c : Call}
    (h : c ∈ Scan.callsFrom offset pieces) :
    offset ≤ c.start ∧ c.stop ≤ offset + Text.width (pieces.flatMap Piece.text) := by
  induction pieces generalizing offset with
  | nil => simp [Scan.callsFrom] at h
  | cons piece pieces ih =>
    rw [List.flatMap_cons, Text.width_append]
    cases piece with
    | plain d =>
      have := ih h
      simp only [Piece.text, Text.width_cons, Text.width_nil]
      omega
    | call source argument =>
      rcases List.mem_cons.mp h with rfl | h
      · simp only [Piece.text]
        omega
      · have := ih h
        simp only [Piece.text]
        omega

theorem exists_cut {pieces : List Piece} {x y : Text} (offset : Nat)
    (htext : pieces.flatMap Piece.text = x ++ y)
    (hclear : ∀ c ∈ Scan.callsFrom offset pieces,
      c.start < offset + Text.width x → c.stop ≤ offset + Text.width x) :
    ∃ l r, pieces = l ++ r ∧ l.flatMap Piece.text = x ∧ r.flatMap Piece.text = y := by
  induction pieces generalizing x offset with
  | nil =>
    obtain ⟨rfl, rfl⟩ := List.nil_eq_append_iff.mp htext
    exact ⟨[], [], rfl, rfl, rfl⟩
  | cons piece pieces ih =>
    rcases List.eq_nil_or_concat' x with rfl | ⟨init, last, hx⟩
    · exact ⟨[], piece :: pieces, rfl, rfl, htext⟩
    rw [List.flatMap_cons] at htext
    have hcut : ∀ x', x = piece.text ++ x' → pieces.flatMap Piece.text = x' ++ y →
        ∃ l r, piece :: pieces = l ++ r ∧ l.flatMap Piece.text = x ∧ r.flatMap Piece.text = y := by
      rintro x' rfl hrest
      obtain ⟨l, r, rfl, rfl, rfl⟩ := ih (offset + Text.width piece.text) hrest
        fun c hc hstart => by
          rw [Nat.add_assoc, ← Text.width_append] at hstart ⊢
          refine hclear c ?_ hstart
          cases piece with
          | plain d => exact hc
          | call source argument => exact List.mem_cons_of_mem _ hc
      exact ⟨piece :: l, r, rfl, List.flatMap_cons, rfl⟩
    rcases List.append_eq_append_iff.mp htext with ⟨x', hx', hrest⟩ | ⟨more, hpiece, hrest⟩
    · exact hcut x' hx' hrest
    · cases more with
      | nil => exact hcut [] (by simpa using hpiece.symm) (by simpa using hrest.symm)
      | cons d more =>
        -- The piece would reach over the cut, and only a call is long enough for that.
        cases piece with
        | plain e =>
          have hlength := congrArg List.length hpiece
          simp only [hx, Piece.text, List.length_append, List.length_cons,
            List.length_nil] at hlength
          omega
        | call source argument =>
          have hpos := d.utf8Size_pos
          have hne : Text.width x ≠ 0 := by
            rw [Ne, Text.width_eq_zero]
            simp [hx]
          have hover := hclear ⟨offset, offset + Text.width source, argument⟩ List.mem_cons_self
          simp only [show source = x ++ d :: more from hpiece, Text.width_append,
            Text.width_cons] at hover
          omega

/-- The call leaves a stretch of the text as it is: it lies outside, or inside and is kept. -/
inductive Spares (start stop : Nat) (c : Call) : Prop
  | before (h : c.stop ≤ start)
  | behind (h : stop ≤ c.start)
  | within (hstart : start ≤ c.start) (hstop : c.stop ≤ stop) (h : ¬ isRelative c.argument = true)

theorem exists_stretch_of_ok {r : Resolution} {x y z : Text}
    (hr : (resolveRequires tree file text extensions).outcome = .ok r)
    (htext : text = x ++ (y ++ z))
    (hspares : ∀ c ∈ (scan text).calls, Spares (Text.width x) (Text.width (x ++ y)) c) :
    ∃ code₁ code₂ calls₁ calls₂, relativeCalls text = calls₁ ++ calls₂ ∧
      Substituted tree file extensions 0 x calls₁ code₁ ∧
      Substituted tree file extensions (Text.width (x ++ y)) z calls₂ code₂ ∧
      r.code = code₁ ++ (y ++ code₂) := by
  obtain ⟨hbalanced, hcode⟩ := resolveRequires_ok hr
  have htargets := exists_target_of_ok hr
  have hle : Text.width x ≤ Text.width (x ++ y) := by simp
  have hpositive : ∀ c ∈ (scan text).calls, c.start < c.stop :=
    fun c hc => ((finds_scan text).found c hc).2.1
  obtain ⟨l, r', hpieces, hl, hr'⟩ := exists_cut 0 ((text_scan hbalanced).trans htext)
    fun c hc hstart => by
      cases hspares c hc <;> omega
  have hcalls : (scan text).calls = Scan.callsFrom 0 l ++ Scan.callsFrom (Text.width x) r' := by
    rw [Scan.calls, hpieces, callsFrom_append, hl, Nat.zero_add]
  obtain ⟨m, n, rfl, hm, hn⟩ := exists_cut (Text.width x) hr' fun c hc hstart => by
    rw [← Text.width_append] at hstart ⊢
    have := (bounds_of_mem_callsFrom hc).1
    cases hspares c (by simp [hcalls, hc]) <;> omega
  rw [callsFrom_append, hm, ← Text.width_append] at hcalls
  have hnone : (Scan.callsFrom (Text.width x) m).filter (isRelative ·.argument) = [] := by
    refine List.filter_eq_nil_iff.mpr fun c hc => ?_
    have hmem : c ∈ (scan text).calls := by simp [hcalls, hc]
    have hbounds := bounds_of_mem_callsFrom hc
    rw [hm, ← Text.width_append] at hbounds
    have := hpositive c hmem
    cases hspares c hmem with
    | before | behind => omega
    | within _ _ hkept => exact hkept
  have hrelative : relativeCalls text = (Scan.callsFrom 0 l).filter (isRelative ·.argument) ++
      (Scan.callsFrom (Text.width (x ++ y)) n).filter (isRelative ·.argument) := by
    rw [relativeCalls, hcalls, List.filter_append, List.filter_append, hnone, List.nil_append]
  have hstretch : m.flatMap (linked tree file extensions) = y := by
    have hsubstituted : Substituted tree file extensions (Text.width x) (m.flatMap Piece.text)
        ((Scan.callsFrom (Text.width x) m).filter (isRelative ·.argument)) _ :=
      substituted_linked (by simp [hnone])
    rw [hnone, hm] at hsubstituted
    exact hsubstituted.unique .rest
  refine ⟨l.flatMap (linked tree file extensions), n.flatMap (linked tree file extensions), _, _,
    hrelative, ?_, ?_, ?_⟩
  · rw [← hl]
    exact substituted_linked fun c hc => htargets c (hrelative ▸ List.mem_append_left _ hc)
  · rw [← hn]
    exact substituted_linked fun c hc => htargets c (hrelative ▸ List.mem_append_right _ hc)
  · rw [hcode, hpieces, List.flatMap_append, List.flatMap_append, hstretch]

/-- **Substitution is exact.** A call that is not closed is reported with its place and the number
of its line. A relative call that does not resolve makes the whole fail with the error of such a
call. Where all resolve, each gives way to the id of the path that it names and nothing else is
changed, and the dependencies are these paths, each once and in the order of their first calls. -/
theorem resolveRequires_exact (tree : FileTree) (file : Path) (text : Text) {extensions : List Text}
    (hextensions : ∀ x ∈ extensions, '/' ∉ x) :
    let outcome := (resolveRequires tree file text extensions).outcome
    (∀ o, (scan text).unbalanced = some o → ∃ before rest, text = before ++ rest ∧
      Text.width before = o ∧
      outcome = .error (.malformedRequire file (before.count '\n' + 1) o)) ∧
    ((scan text).unbalanced = none →
      (∃ c ∈ relativeCalls text, ∀ p, (resolve tree file c.argument extensions).outcome ≠ .ok p) →
        ∃ c ∈ relativeCalls text, ∃ path fault,
          (resolve tree file c.argument extensions).outcome = .error (.fileSystem path fault) ∧
          outcome = .error (.fileSystem path fault)) ∧
    ((scan text).unbalanced = none →
      (∀ c ∈ relativeCalls text, ∃ p, (resolve tree file c.argument extensions).outcome = .ok p) →
        ∃ r, outcome = .ok r ∧ Resolves tree file extensions text r) := by
  intro outcome
  have houtcome : outcome = _ := resolveRequires_outcome tree file text extensions
  have hensures := resolveAll_calls_ensures tree file text extensions
  refine ⟨fun o ho => ?_, fun hbalanced ⟨c, hc, hno⟩ => ?_, fun hbalanced hall => ?_⟩
  · obtain ⟨before, rest, htext, hwidth, -⟩ := ((finds_scan text).stuck o ho).1
    refine ⟨before, keyword ++ rest, htext, hwidth, ?_⟩
    have hline : lineOf o text = before.count '\n' + 1 := by
      rw [htext, ← hwidth]
      exact lineOf_width before (keyword ++ rest)
    rw [houtcome, ho, ← hline]
  · rw [hbalanced] at houtcome
    cases hresolved : (resolveAll tree file extensions (relativeArguments text)).outcome with
    | ok targets =>
      obtain ⟨t, ht⟩ := hensures.of_ok hresolved c hc
      exact absurd ht (hno t)
    | error e =>
      obtain ⟨d, hd, herror⟩ := hensures.of_error hresolved
      obtain ⟨path, fault, rfl⟩ := ((resolve_ensures tree file d.argument extensions).of_error
        herror).resolve_right (not_isExtensionFault hextensions e)
      exact ⟨d, hd, path, fault, herror, by rw [houtcome, hresolved]; rfl⟩
  · cases hresolved : (resolveAll tree file extensions (relativeArguments text)).outcome with
    | error e =>
      obtain ⟨d, hd, herror⟩ := hensures.of_error hresolved
      obtain ⟨p, hp⟩ := hall d hd
      simp [herror] at hp
    | ok targets =>
      have hforall := resolveAll_ok_iff.mp hresolved
      rw [relativeArguments_eq, List.forall₂_map_left_iff] at hforall
      exact ⟨_, resolveRequires_of_targets hbalanced hresolved,
        resolves_of_forall₂ hbalanced hall hforall⟩

/-- Two spellings of one file and a call that is kept. -/
theorem resolveRequires_exact_repeated :
    let m := Path.ofText ['/', 'm']
    let b := Path.ofText ['/', 'b', '.', 'j', 's']
    let tree : FileTree := ⟨[], [([Utf8.encode ['b', '.', 'j', 's']], .file [])]⟩
    let text := "f(require('./b'), require('fs'), require('./b.js'))".toList
    ∃ r, (resolveRequires tree m text [['j', 's']]).outcome = .ok r ∧
      Resolves tree m [['j', 's']] text r ∧ r.dependencies = [b] ∧
      r.code = "f(".toList ++ ((ModuleId.ofPath b).text ++ (", require('fs'), ".toList ++
        ((ModuleId.ofPath b).text ++ ")".toList))) := by
  intro m b tree text
  have hbalanced : (scan text).unbalanced = none := by decide +kernel
  have hcalls : ∀ c ∈ relativeCalls text,
      (resolve tree m c.argument [['j', 's']]).Ensures (· = b) fun _ => False := by decide +kernel
  have hresolved : (resolveRequires tree m text [['j', 's']]).Ensures (fun r =>
      r.dependencies = [b] ∧ r.code = "f(".toList ++ ((ModuleId.ofPath b).text ++
        (", require('fs'), ".toList ++ ((ModuleId.ofPath b).text ++ ")".toList))))
      fun _ => False := by
    decide +kernel
  have hextensions : ∀ x ∈ [['j', 's']], '/' ∉ x := by decide
  obtain ⟨-, -, hexact⟩ := resolveRequires_exact tree m text hextensions
  obtain ⟨r, hr, hresolves⟩ := hexact hbalanced fun c hc =>
    (hcalls c hc).exists_ok.imp fun _ h => h.1
  exact ⟨r, hr, hresolves, hresolved.of_ok hr⟩

end Require
end ScriptBundle
