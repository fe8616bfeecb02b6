import ScriptBundle.Proofs.ModuleId
import ScriptBundle.Proofs.Require.Loading
import ScriptBundle.Proofs.Script.Parts

/-! Where calls stood, ids stand. In a module's text each relative call becomes the id of the path
that it names, piece by piece. A name that reaches into such an id holds it as a whole: ids are
identifiers, and before them stands what can stand before a call, or another id. -/
namespace ScriptBundle

namespace Require

variable {tree : FileTree} {file : Path} {extensions : List Text}

theorem of_siteAt_call {before text source argument : Text}
    (h : siteAt before text = .call source argument) :
    opensAfter before = true ∧ source.getLast? = some ')' := by
  unfold siteAt at h
  split at h
  · split at h
    · next hopens =>
      split at h
      · cases h
        exact ⟨hopens, List.getLast?_concat⟩
      · cases h
    · cases h
  · cases h

theorem of_scanFrom_call {before : Text} {offset skip : Nat} {text : Text} {front back : List Piece}
    {source argument : Text}
    (h : (scanFrom before offset skip text).pieces = front ++ .call source argument :: back) :
    opensAfter ((front.flatMap Piece.text).reverse ++ ((text.take skip).reverse ++ before)) = true ∧
      source.getLast? = some ')' := by
  induction text generalizing before offset skip front with
  | nil => simp [scanFrom] at h
  | cons c text ih =>
    cases skip with
    | succ skip => simpa using ih (by simpa [scanFrom] using h)
    | zero =>
      cases hs : siteAt before (c :: text) with
      | plain =>
        simp only [scanFrom, hs] at h
        cases front with
        | nil => simp at h
        | cons piece front =>
          obtain ⟨rfl, hrest⟩ := List.cons.inj h
          simpa [Piece.text] using ih hrest
      | call source' argument' =>
        simp only [scanFrom, hs] at h
        cases front with
        | nil =>
          obtain ⟨hcall, -⟩ := List.cons.inj h
          obtain ⟨rfl, rfl⟩ := Piece.call.inj hcall
          simpa using of_siteAt_call hs
        | cons piece front =>
          obtain ⟨rfl, hrest⟩ := List.cons.inj h
          obtain ⟨hne, rest, hsource⟩ := siteAt_call hs
          obtain ⟨d, source', rfl⟩ := List.exists_cons_of_ne_nil hne
          obtain ⟨rfl, rfl⟩ : c = d ∧ text = source' ++ rest := by simpa using hsource
          simpa [Piece.text] using ih hrest
      | unbalanced => simp [scanFrom, hs] at h

theorem of_scan_call {text : Text} {front back : List Piece} {source argument : Text}
    (h : (scan text).pieces = front ++ .call source argument :: back) :
    opensAfter (front.flatMap Piece.text).reverse = true ∧ source.getLast? = some ')' := by
  simpa using of_scanFrom_call h

/-- What a piece of a text becomes: a relative call, the id of the path that it names. -/
def linked (tree : FileTree) (file : Path) (extensions : List Text) : Piece → Text
  | .plain c => [c]
  | .call source argument =>
    if isRelative argument then
      match (resolve tree file argument extensions).outcome with
      | .ok target => (ModuleId.ofPath target).text
      | .error _ => source
    else source

theorem linked_call (source argument : Text) :
    linked tree file extensions (.call source argument) = source ∨
      ∃ target, linked tree file extensions (.call source argument) =
        (ModuleId.ofPath target).text := by
  simp only [linked]
  split_ifs
  · cases (resolve tree file argument extensions).outcome with
    | ok target => exact Or.inr ⟨target, rfl⟩
    | error e => exact Or.inl rfl
  · exact Or.inl rfl

theorem linked_relative {source argument : Text} {target : Path}
    (hrelative : isRelative argument = true)
    (htarget : (resolve tree file argument extensions).outcome = .ok target) :
    linked tree file extensions (.call source argument) = (ModuleId.ofPath target).text := by
  simp only [linked, hrelative, if_true, htarget]

theorem resolveAll_cons_ok {argument : Text} {more : List Text} {targets : List Path} :
    (resolveAll tree file extensions (argument :: more)).outcome = .ok targets ↔
      ∃ target targets', (resolve tree file argument extensions).outcome = .ok target ∧
        (resolveAll tree file extensions more).outcome = .ok targets' ∧
        target :: targets' = targets := by
  simp [resolveAll, -Logged.outcome_bind, Logged.outcome_bind_ok]

theorem substitute_eq_linked {pieces : List Piece} {targets : List Path} {offset : Nat}
    (h : (resolveAll tree file extensions
      (((Scan.callsFrom offset pieces).map (·.argument)).filter isRelative)).outcome =
        .ok targets) :
    substitute pieces targets = pieces.flatMap (linked tree file extensions) := by
  induction pieces generalizing targets offset with
  | nil => rfl
  | cons piece pieces ih =>
    cases piece with
    | plain c => simpa [substitute, linked] using ih (by simpa [Scan.callsFrom] using h)
    | call source argument =>
      simp only [Scan.callsFrom, List.map_cons, List.filter_cons] at h
      split at h
      · next hrelative =>
        obtain ⟨target, more, htarget, hmore, rfl⟩ := resolveAll_cons_ok.mp h
        simp only [substitute, hrelative, if_true, List.flatMap_cons, linked, htarget, ih hmore]
      · next hrelative =>
        simp only [substitute, hrelative, List.flatMap_cons, linked, Bool.false_eq_true, if_false,
          ih h]

theorem resolveRequires_ok {text : Text} {r : Resolution}
    (h : (resolveRequires tree file text extensions).outcome = .ok r) :
    (scan text).unbalanced = none ∧
      r.code = (scan text).pieces.flatMap (linked tree file extensions) := by
  unfold resolveRequires at h
  cases hbalanced : (scan text).unbalanced with
  | some offset => simp [hbalanced, Except.bind] at h
  | none =>
    simp only [hbalanced, Logged.outcome_bind_ok, Logged.outcome_tellAll] at h
    obtain ⟨-, -, -, -, targets, htargets, -, -, hr⟩ := h
    obtain rfl := Except.ok.inj hr
    exact ⟨rfl, substitute_eq_linked htargets⟩

theorem mem_relativeArguments {text source argument : Text} {front back : List Piece}
    (h : (scan text).pieces = front ++ .call source argument :: back)
    (hrelative : isRelative argument = true) : argument ∈ relativeArguments text := by
  have hmem : ∀ (pieces : List Piece) (offset : Nat), .call source argument ∈ pieces →
      argument ∈ (Scan.callsFrom offset pieces).map (·.argument) := by
    intro pieces
    induction pieces with
    | nil => simp
    | cons piece pieces ih =>
      intro offset hpiece
      cases piece with
      | plain c => exact ih _ (by simpa using hpiece)
      | call source' argument' =>
        simp only [Scan.callsFrom, List.map_cons, List.mem_cons]
        rcases List.mem_cons.mp hpiece with hpiece | hpiece
        · exact Or.inl (Piece.call.inj hpiece).2
        · exact Or.inr (ih _ hpiece)
  exact List.mem_filter.mpr ⟨hmem _ 0 (by rw [h]; simp), hrelative⟩

/-- Behind the text stands an id in the place of a call: a call can begin there, or other such ids
stand right before it. -/
inductive IdBegins : Text → Prop
  | call {before : Text} (h : opensAfter before.reverse = true) : IdBegins before
  | behind {before : Text} (h : IdBegins before) (target : Path) :
    IdBegins (before ++ (ModuleId.ofPath target).text)

theorem idBegins_of_scan {text : Text} {front back : List Piece} {source argument : Text}
    (h : (scan text).pieces = front ++ .call source argument :: back) :
    IdBegins (front.flatMap (linked tree file extensions)) := by
  induction front using List.reverseRecOn generalizing source argument back with
  | nil => exact .call rfl
  | append_singleton front piece ih =>
    obtain ⟨hopens, -⟩ := of_scan_call h
    rw [List.append_assoc, List.singleton_append] at h
    rw [List.flatMap_append, List.flatMap_singleton]
    cases piece with
    | plain c => exact .call (by simpa [linked, Piece.text, opensAfter] using hopens)
    | call source' argument' =>
      obtain ⟨-, hlast⟩ := of_scan_call h
      rcases linked_call source' argument' with hkept | ⟨target, hid⟩
      · obtain ⟨inner, rfl⟩ := List.getLast?_eq_some_iff.mp hlast
        rw [hkept]
        exact .call (by simp only [← List.append_assoc, List.reverse_concat]; rfl)
      · rw [hid]
        exact .behind (ih h) target

/-- The lead of an id is in the name, at a place where a call can begin. -/
def HoldsId (name : Text) : Prop :=
  ∃ front rest, name = front ++ ModuleId.lead ++ rest ∧ opensAfter front.reverse = true

theorem holdsId_iff_of_isIdentifier {name : Text} (h : isIdentifier name = true) :
    HoldsId name ↔ ModuleId.lead <+: name := by
  constructor
  · rintro ⟨front, rest, rfl, hopens⟩
    rcases List.eq_nil_or_concat' front with rfl | ⟨init, c, rfl⟩
    · exact ⟨rest, rfl⟩
    · have hc := isIdentifierChar_of_isIdentifier h (c := c) (by simp)
      simp [opensAfter, hc] at hopens
  · rintro ⟨rest, rfl⟩
    exact ⟨[], rest, rfl, rfl⟩

theorem IdBegins.holdsId {before outer inner : Text} (h : IdBegins before) (rest : Text)
    (hbefore : before = outer ++ inner) (hopens : Spot.opensAfter outer.reverse = true) :
    HoldsId (inner ++ ModuleId.lead ++ rest) := by
  induction h generalizing inner rest with
  | call h =>
    refine ⟨inner, rest, rfl, ?_⟩
    rw [hbefore] at h
    rcases List.eq_nil_or_concat' inner with rfl | ⟨init, c, rfl⟩
    · rfl
    · simpa [opensAfter] using h
  | @behind before _ target ih =>
    obtain ⟨tail, htail⟩ := ModuleId.lead_prefix target
    have hwhole : ∀ more, before = outer ++ more → inner = more ++ (ModuleId.ofPath target).text →
        HoldsId (inner ++ ModuleId.lead ++ rest) := by
      rintro more hmore rfl
      simpa [← htail] using ih (tail ++ (ModuleId.lead ++ rest)) hmore
    rcases List.append_eq_append_iff.mp hbefore with ⟨more, rfl, hid⟩ | ⟨more, hmore, hinner⟩
    · -- The name would begin within the id before, and no name does.
      rcases List.eq_nil_or_concat' more with rfl | ⟨init, c, rfl⟩
      · exact hwhole [] (by simp) (by simpa using hid.symm)
      · have hc : isIdentifierChar c = true :=
          ModuleId.isIdentifierChar_of_mem (p := target) (by simp [hid])
        have hopens' : Spot.opensAfter (c :: (before ++ init).reverse) = true := by
          simpa using hopens
        simp [Spot.not_isIdentifierChar_of_opensAfter hopens'] at hc
    · exact hwhole more hmore hinner

theorem not_opensAfter_within {target : Path} {front tail : Text} {c : Char} (before : Text)
    (hid : (ModuleId.ofPath target).text = front ++ c :: tail) :
    Spot.opensAfter (before ++ front ++ [c]).reverse = false := by
  have hc : isIdentifierChar c = true :=
    ModuleId.isIdentifierChar_of_mem (p := target) (by simp [hid])
  rw [List.reverse_concat, ← Bool.not_eq_true]
  intro hopens
  simp [Spot.not_isIdentifierChar_of_opensAfter hopens] at hc

theorem not_closesBefore_within {target : Path} {front tail after : Text} {c : Char}
    (hid : (ModuleId.ofPath target).text = front ++ c :: tail) :
    Spot.closesBefore (c :: tail ++ after) = false := by
  have hc : isIdentifierChar c = true :=
    ModuleId.isIdentifierChar_of_mem (p := target) (by simp [hid])
  rw [← Bool.not_eq_true]
  intro hcloses
  simp [isIdentifierChar_of_isBoundary hcloses] at hc

theorem clear_of_not_holdsId {before after outer name rest : Text} {target : Path}
    (hbegins : IdBegins before)
    (hcode : before ++ ((ModuleId.ofPath target).text ++ after) = outer ++ (name ++ rest))
    (hopens : Spot.opensAfter outer.reverse = true) (hcloses : Spot.closesBefore rest = true)
    (hname : ¬ HoldsId name) :
    outer.length + name.length ≤ before.length ∨
      before.length + (ModuleId.ofPath target).text.length ≤ outer.length := by
  obtain ⟨tail, htail⟩ := ModuleId.lead_prefix target
  -- It does not begin within the id, so it begins behind it or not behind where the id begins.
  have hbegin : before.length + (ModuleId.ofPath target).text.length ≤ outer.length ∨
      ∃ inner, before = outer ++ inner ∧
        name ++ rest = inner ++ ((ModuleId.ofPath target).text ++ after) := by
    rcases List.append_eq_append_iff.mp hcode with ⟨inner, rfl, hrest⟩ | hinner
    · rcases List.append_eq_append_iff.mp hrest with ⟨more, rfl, -⟩ | ⟨more, hid, hmore⟩
      · left
        simp only [List.length_append]
        omega
      · rcases List.eq_nil_or_concat' inner with rfl | ⟨init, c, rfl⟩
        · exact Or.inr ⟨[], by simp, hrest.symm⟩
        · have hnot := not_opensAfter_within before (by simpa using hid)
          rw [← List.append_assoc, hnot] at hopens
          cases hopens
    · exact Or.inr hinner
  rcases hbegin with hbehind | ⟨inner, rfl, hend⟩
  · exact Or.inr hbehind
  rcases List.append_eq_append_iff.mp hend with ⟨more, rfl, -⟩ | ⟨more, rfl, hmore⟩
  · left
    simp only [List.length_append]
    omega
  -- It does not end within the id, so it would hold all of it.
  rcases List.append_eq_append_iff.mp hmore with ⟨last, rfl, -⟩ | ⟨last, hid, hrest⟩
  · refine absurd ?_ hname
    simpa [← htail] using hbegins.holdsId (tail ++ last) rfl hopens
  · cases last with
    | nil =>
      refine absurd ?_ hname
      rw [List.append_nil] at hid
      simpa [← htail, ← hid] using hbegins.holdsId tail rfl hopens
    | cons c last =>
      rw [hrest, not_closesBefore_within hid] at hcloses
      cases hcloses

/-- An id that stands in the place of a call is kept, where no name that is replaced holds one. -/
theorem exists_kept_id {before after : Text} {target : Path} (hbegins : IdBegins before)
    {id : ModuleId} {seed : List Binding} {code : Text}
    (hcode : code = before ++ (ModuleId.ofPath target).text ++ after)
    (hseed : ∀ b ∈ seed, ¬ HoldsId b.name)
    (hdeclared : ∀ b ∈ Spot.bindings id (spots code), ¬ HoldsId b.name) :
    Copy.Stands (blockParts code id seed) before (ModuleId.ofPath target).text after := by
  obtain ⟨lm, r, hspots, hlm, hr⟩ : ∃ lm r, spots code = lm ++ r ∧
      Spot.text lm = before ++ (ModuleId.ofPath target).text ∧ Spot.text r = after :=
    List.map_eq_append_iff.mp ((text_spots code).trans hcode)
  obtain ⟨l, m, rfl, hl, hm⟩ := List.map_eq_append_iff.mp hlm
  have hlength : ∀ {x : List Spot} {t : Text}, Spot.text x = t → x.length = t.length := by
    rintro x _ rfl
    exact (List.length_map ..).symm
  obtain ⟨front, back, hparts, hfront, hback⟩ := Copy.exists_kept (l := l) (m := m) (r := r)
    ((source_blockParts code id seed).trans hspots) fun front name qualified back hparts => by
      have hput : .put name qualified ∈ blockParts code id seed := by
        rw [hparts]
        simp
      obtain ⟨b, hb, hputBy⟩ := putBy_of_mem_blockParts hput
      have hsource := source_blockParts code id seed
      rw [hparts, List.flatMap_append, List.flatMap_cons, Copy.source,
        ← List.append_assoc] at hsource
      obtain ⟨haround, hopens, hcloses⟩ := hputBy.around hsource.symm
      have hclear := clear_of_not_holdsId hbegins (by simpa [hcode] using haround) hopens hcloses
        (hb.elim (hseed b) (hdeclared b))
      rw [hlength hl, hlength hm, hlength hputBy.text_eq]
      obtain ⟨s, rest, rfl, -⟩ := hputBy.exists_cons
      exact ⟨List.cons_ne_nil s rest, by simpa [Spot.text] using hclear⟩
  exact ⟨front, m, back, hparts, by rw [hfront]; exact hl, hm, by rw [hback]; exact hr⟩

end Require
end ScriptBundle
