import ScriptBundle.Proofs.Require.Scanning
import ScriptBundle.Proofs.Text.Offsets

/-! Scanning for calls by byte offsets. The scan goes from one `require` to the next. Where a call
begins, the parenthesis that closes it is looked for by going from one parenthesis to the next, and
the argument is sliced out of the text. What is found are the calls of the text. -/
namespace ScriptBundle

namespace Require

def name : Text := ['r', 'e', 'q', 'u', 'i', 'r', 'e']

/-- The search for a closing parenthesis: how many are open, and where it goes on. -/
structure Closing where
  depth : Nat
  cursor : Nat

/-- A scan for calls: where it goes on, and what it found. -/
structure Calling where
  index : Nat
  calls : List Call

section

variable (text : Text)

/-- Whether a call begins at the offset, with its parenthesis at the other. -/
def isCallSite? (start opened : Nat) : Option Bool := do
  let before ← text.upTo? start
  if opensAfter before.reverse then
    let behind ← text.from? opened
    return behind.head? == some '('
  else return false

def Closing.round (s : Closing) : Option (Round Closing (Option Nat)) :=
  if s.depth = 0 then some (.done (some (s.cursor - 1)))
  else do
    let rest ← text.from? s.cursor
    match rest.offsetOf? [')'], rest.offsetOf? ['('] with
    | none, _ => return .done none
    | some close, some opened =>
      if opened < close then return .next ⟨s.depth + 1, s.cursor + (opened + 1)⟩
      else return .next ⟨s.depth - 1, s.cursor + (close + 1)⟩
    | some close, none => return .next ⟨s.depth - 1, s.cursor + (close + 1)⟩

def closedAt? (opened : Nat) : Option (Option Nat) :=
  match Round.run (Closing.round text) (Text.width text + 1) ⟨1, opened + 1⟩ with
  | some (.done stop) => some stop
  | _ => none

def unquote? : Text → Option Text
  | [] => some []
  | c :: rest =>
    if isQuote c && rest.getLast? == some c then
      Text.slice? (c :: rest) 1 (Text.width (c :: rest) - 1)
    else some (c :: rest)

def callAt? (start opened : Nat) : Option (Option Call) := do
  match ← closedAt? text opened with
  | none => return none
  | some stop =>
    let inner ← text.slice? (opened + 1) stop
    let argument ← unquote? (Text.trim inner)
    return some ⟨start, stop + 1, argument⟩

def Calling.round (s : Calling) : Option (Round Calling (List Call × Option Nat)) := do
  let rest ← text.from? s.index
  match rest.offsetOf? name with
  | none => return .done (s.calls, none)
  | some found =>
    let start := s.index + found
    let opened := start + Text.width name
    if ← isCallSite? text start opened then
      match ← callAt? text start opened with
      | none => return .done (s.calls, some start)
      | some call => return .next ⟨call.stop, s.calls ++ [call]⟩
    else return .next ⟨opened, s.calls⟩

/-- The calls of the text, and where the scan stops short of its end. -/
def scan? : Option (List Call × Option Nat) :=
  match Round.run (Calling.round text) (Text.width text + 1) ⟨0, []⟩ with
  | some (.done result) => some result
  | _ => none

end

theorem unquote?_eq (t : Text) : unquote? t = some (unquote t) := by
  cases t with
  | nil => rfl
  | cons c rest =>
    rw [unquote?, unquote]
    split
    · next h =>
      obtain ⟨hquote, hlast⟩ := Bool.and_eq_true_iff.mp h
      obtain ⟨inside, rfl⟩ := List.getLast?_eq_some_iff.mp (beq_iff_eq.mp hlast)
      have hsize : c.utf8Size = 1 := by
        simp only [isQuote, Bool.or_eq_true, beq_iff_eq] at hquote
        rcases hquote with (rfl | rfl) | rfl <;> rfl
      have hslice := Text.slice?_append [c] inside [c]
      rw [List.dropLast_concat, ← hslice]
      simp only [Text.width_append, Text.width_cons, Text.width_nil, hsize, List.cons_append,
        List.nil_append]
      rfl
    · rfl

variable {text l r : Text} {depth : Nat}

theorem untilClosed_append (hl : '(' ∉ l ∧ ')' ∉ l) (depth : Nat) (r : Text) :
    untilClosed depth (l ++ r) = (untilClosed depth r).map (l ++ ·) := by
  induction l with
  | nil => simp
  | cons c l ih =>
    simp only [List.mem_cons, not_or] at hl
    obtain ⟨⟨hopen, hopens⟩, hclose, hcloses⟩ := hl
    rw [List.cons_append]
    conv_lhs => unfold untilClosed
    rw [if_neg (Ne.symm hclose), if_neg (Ne.symm hopen), ih ⟨hopens, hcloses⟩, Option.map_map]
    rfl

theorem untilClosed_eq_none (h : ')' ∉ r) (depth : Nat) : untilClosed depth r = none := by
  rw [Option.eq_none_iff_forall_not_mem]
  intro inner hinner
  obtain ⟨rest, rfl⟩ := append_of_untilClosed hinner
  exact h (by simp)

namespace Closing

/-- The search has read the text up to the cursor, and where it ends is told by what is left. -/
def Reads (text : Text) (result : Option Nat) (s : Closing) : Prop :=
  ∃ l r, text = l ++ r ∧ s.cursor = Text.width l ∧
    match s.depth with
    | 0 => result = some (s.cursor - 1)
    | depth + 1 => result = (untilClosed depth r).map fun inner => Text.width (l ++ inner)

theorem Reads.behind {x y : Text} {c : Char} {result : Option Nat} (hc : c.utf8Size = 1)
    (h : match depth with
      | 0 => result = some (Text.width (l ++ x))
      | depth + 1 =>
        result = (untilClosed depth y).map fun inner => Text.width (l ++ (x ++ c :: inner))) :
    Reads (l ++ (x ++ c :: y)) result ⟨depth, Text.width l + (Text.width x + 1)⟩ ∧
      Text.width (l ++ (x ++ c :: y)) - (Text.width l + (Text.width x + 1)) <
        Text.width (l ++ (x ++ c :: y)) - Text.width l := by
  refine ⟨⟨l ++ (x ++ [c]), y, by simp, by simp [hc], ?_⟩, ?_⟩
  · cases depth with
    | zero =>
      rw [Text.width_append] at h
      exact h
    | succ depth => simpa using h
  · simp only [Text.width_append, Text.width_cons, hc]
    omega

/-- The search for the closing parenthesis goes from one parenthesis to the next, and ends where the
text is closed, or when no closing parenthesis is left. -/
theorem advances (text : Text) (result : Option Nat) :
    Round.Advances (round text) (Reads text result) (fun s => Text.width text - s.cursor)
      result := by
  rintro ⟨depth, cursor⟩ ⟨l, r, rfl, rfl, hresult⟩
  cases depth with
  | zero => exact Or.inl (congrArg _ (congrArg _ hresult.symm))
  | succ depth =>
    simp only at hresult
    rw [round, if_neg (Nat.succ_ne_zero depth), Text.from?_append]
    simp only [Option.bind_eq_bind, Option.bind_some]
    rcases Text.offsetOf?_singleton_cases r ')' with ⟨hclose, hnot⟩ | ⟨x, y, rfl, hclose, hnot⟩
    · left
      rw [hresult, untilClosed_eq_none hnot, hclose]
      rfl
    right
    rw [hclose]
    -- What comes of the closing parenthesis when no other is opened before it.
    have hclosing : '(' ∉ x → Reads (l ++ (x ++ ')' :: y)) result
        ⟨depth, Text.width l + (Text.width x + 1)⟩ ∧
          Text.width (l ++ (x ++ ')' :: y)) - (Text.width l + (Text.width x + 1)) <
            Text.width (l ++ (x ++ ')' :: y)) - Text.width l := by
      intro hplain
      rw [untilClosed_append ⟨hplain, hnot⟩] at hresult
      refine Reads.behind rfl ?_
      cases depth with
      | zero => simpa [untilClosed] using hresult
      | succ depth => simpa [untilClosed, Function.comp_def] using hresult
    rcases Text.offsetOf?_singleton_cases (x ++ ')' :: y) '(' with
      ⟨hopen, hplain⟩ | ⟨x', y', hsplit, hopen, hplain⟩
    · rw [hopen]
      exact ⟨_, rfl, hclosing fun h => hplain (List.mem_append_left _ h)⟩
    · rw [hopen]
      by_cases hlt : Text.width x' < Text.width x
      · obtain ⟨between, -, rfl, -⟩ := Text.exists_between hsplit.symm hlt
        have hplain' : '(' ∉ x' ∧ ')' ∉ x' :=
          ⟨hplain, fun h => hnot (List.mem_append_left _ h)⟩
        rw [hsplit] at hresult ⊢
        rw [untilClosed_append hplain'] at hresult
        simp only [if_pos hlt]
        refine ⟨_, rfl, Reads.behind rfl ?_⟩
        simpa [untilClosed, Function.comp_def] using hresult
      · simp only [if_neg hlt]
        refine ⟨_, rfl, hclosing fun h => hplain ?_⟩
        rcases Nat.lt_or_eq_of_le (Nat.le_of_not_lt hlt) with hlt' | heq
        · obtain ⟨between, -, rfl, -⟩ := Text.exists_between hsplit hlt'
          exact List.mem_append_left _ h
        · exact (Text.append_inj_of_width hsplit heq).1 ▸ h

end Closing

theorem closedAt?_eq (l r : Text) :
    closedAt? (l ++ '(' :: r) (Text.width l) =
      some ((untilClosed 0 r).map fun inner => Text.width (l ++ '(' :: inner)) := by
  have hreads : Closing.Reads (l ++ '(' :: r)
      ((untilClosed 0 r).map fun inner => Text.width (l ++ '(' :: inner))
      ⟨1, Text.width l + 1⟩ :=
    ⟨l ++ ['('], r, by simp, by rw [Text.width_append]; rfl, by simp⟩
  have hdone := (Closing.advances _ _).done hreads (Nat.lt_succ_of_le (Nat.sub_le _ _))
  rw [closedAt?, hdone]

theorem callAt?_eq (l r : Text) :
    callAt? (l ++ (keyword ++ r)) (Text.width l) (Text.width l + Text.width name) =
      some ((untilClosed 0 r).map fun inner =>
        ⟨Text.width l, Text.width (l ++ (keyword ++ inner ++ [')'])),
          unquote (Text.trim inner)⟩) := by
  have hclosed := closedAt?_eq (l ++ name) r
  rw [Text.width_append, show l ++ name ++ '(' :: r = l ++ (keyword ++ r) by simp [name, keyword]]
    at hclosed
  rw [callAt?, hclosed, Option.bind_eq_bind, Option.bind_some]
  cases huntil : untilClosed 0 r with
  | none => rfl
  | some inner =>
    obtain ⟨z, rfl⟩ := append_of_untilClosed huntil
    have hstart : Text.width l + Text.width name + 1 = Text.width (l ++ keyword) := by
      rw [Text.width_append]
      rfl
    have hstop : l ++ name ++ '(' :: inner = l ++ keyword ++ inner := by simp [name, keyword]
    have hend : Text.width (l ++ keyword ++ inner) + 1 =
        Text.width (l ++ (keyword ++ inner ++ [')'])) := by
      simp only [Text.width_append, Nat.add_assoc]
      rfl
    have hslice := Text.slice?_append (l ++ keyword) inner (')' :: z)
    rw [List.append_assoc, List.append_assoc] at hslice
    simp only [Option.map_some, hstart, hstop, hslice, unquote?_eq, hend]
    rfl

theorem isCallSite?_eq (l r : Text) :
    isCallSite? (l ++ (name ++ r)) (Text.width l) (Text.width l + Text.width name) =
      some (opensAfter l.reverse && r.head? == some '(') := by
  have hbehind := Text.from?_append (l ++ name) r
  rw [Text.width_append, List.append_assoc] at hbehind
  rw [isCallSite?, Text.upTo?_append, hbehind, Option.bind_eq_bind, Option.bind_some]
  cases opensAfter l.reverse <;> rfl

section

variable {before source argument x y : Text} {c : Char}

/-- The calls that the scan finds from a place on, and where it stops. -/
def foundFrom (before rest : Text) : List Call × Option Nat :=
  let s := scanFrom before.reverse (Text.width before) 0 rest
  (Scan.callsFrom (Text.width before) s.pieces, s.unbalanced)

theorem siteAt_plain (h : ¬ keyword <+: r) (before : Text) : siteAt before r = .plain := by
  rw [siteAt]
  cases hafter : Text.after? keyword r with
  | none => rfl
  | some rest => exact absurd ⟨rest, (Text.after?_eq_some_iff.mp hafter).symm⟩ h

theorem foundFrom_plain (h : siteAt before.reverse (c :: r) = .plain) :
    foundFrom before (c :: r) = foundFrom (before ++ [c]) r := by
  rw [foundFrom, foundFrom, scanFrom, h]
  simp [Scan.callsFrom]

theorem foundFrom_append (before : Text)
    (h : ∀ u v, x = u ++ v → v ≠ [] → siteAt (before ++ u).reverse (v ++ r) = .plain) :
    foundFrom before (x ++ r) = foundFrom (before ++ x) r := by
  induction x generalizing before with
  | nil => rw [List.append_nil, List.nil_append]
  | cons c x ih =>
    have hfirst := h [] (c :: x) rfl (List.cons_ne_nil c x)
    rw [List.append_nil, List.cons_append] at hfirst
    have hmore := ih (before ++ [c]) fun u v huv hv => by
      simpa using h (c :: u) v (congrArg _ huv) hv
    rw [List.cons_append, foundFrom_plain hfirst, hmore]
    simp

theorem scanFrom_skip (before : Text) (x r : Text) :
    scanFrom before.reverse (Text.width before) x.length (x ++ r) =
      scanFrom (before ++ x).reverse (Text.width (before ++ x)) 0 r := by
  induction x generalizing before with
  | nil => rw [List.append_nil]; rfl
  | cons c x ih =>
    have hmore := ih (before ++ [c])
    simp only [List.append_assoc, List.cons_append, List.nil_append, Text.width_append,
      Text.width_cons, Text.width_nil, List.reverse_append, List.reverse_cons] at hmore ⊢
    exact hmore

theorem foundFrom_call (h : siteAt before.reverse (source ++ r) = .call source argument) :
    foundFrom before (source ++ r) =
      (⟨Text.width before, Text.width before + Text.width source, argument⟩ ::
          (foundFrom (before ++ source) r).1,
        (foundFrom (before ++ source) r).2) := by
  obtain ⟨hne, -⟩ := siteAt_call h
  obtain ⟨c, tail, rfl⟩ := List.exists_cons_of_ne_nil hne
  have hskip := scanFrom_skip (before ++ [c]) tail r
  rw [List.append_assoc, List.reverse_append, Text.width_append] at hskip
  rw [List.cons_append] at h
  rw [foundFrom, List.cons_append, scanFrom, h, foundFrom]
  simp only [List.length_cons, Nat.add_sub_cancel, Scan.callsFrom]
  have hmore : scanFrom (c :: before.reverse) (Text.width before + c.utf8Size) tail.length
      (tail ++ r) = _ := hskip
  rw [hmore]
  simp

theorem foundFrom_unbalanced (hne : r ≠ []) (h : siteAt before.reverse r = .unbalanced) :
    foundFrom before r = ([], some (Text.width before)) := by
  obtain ⟨c, r, rfl⟩ := List.exists_cons_of_ne_nil hne
  rw [foundFrom, scanFrom, h]
  rfl

theorem siteAt_plain_of_opensAfter (h : opensAfter before = false) (r : Text) :
    siteAt before r = .plain := by
  rw [siteAt]
  split
  · rw [h]
    rfl
  · rfl

theorem siteAt_closed (h : opensAfter before = true) {inner : Text}
    (hinner : untilClosed 0 r = some inner) :
    siteAt before (keyword ++ r) =
      .call (keyword ++ inner ++ [')']) (unquote (Text.trim inner)) := by
  rw [siteAt, Text.after?_eq_some_iff.mpr rfl]
  simp only [h, if_true, hinner]

theorem siteAt_unclosed (h : opensAfter before = true) (hnone : untilClosed 0 r = none) :
    siteAt before (keyword ++ r) = .unbalanced := by
  rw [siteAt, Text.after?_eq_some_iff.mpr rfl]
  simp only [h, if_true, hnone]

theorem foundFrom_none (h : ¬ name <:+: r) (before : Text) : foundFrom before r = ([], none) := by
  have hplain := foundFrom_append before (x := r) (r := []) fun u v huv _ =>
    siteAt_plain (fun hkeyword => h ?_) _
  · rw [List.append_nil] at hplain
    rw [hplain]
    rfl
  · rw [List.append_nil] at hkeyword
    rw [huv]
    exact ((List.prefix_append name ['(']).trans hkeyword).isInfix.trans
      (List.suffix_append u v).isInfix

theorem foundFrom_first (h : ∀ u v, x = u ++ v → v ≠ [] → ¬ name <+: v ++ (name ++ y))
    (before : Text) : foundFrom before (x ++ (name ++ y)) = foundFrom (before ++ x) (name ++ y) :=
  foundFrom_append before fun u v huv hv =>
    siteAt_plain (fun hkeyword => h u v huv hv ((List.prefix_append name ['(']).trans hkeyword)) _

/-- Where the name is not called it is passed over as a whole: another that begins within it has a
letter before. -/
theorem foundFrom_name (h : (opensAfter before.reverse && y.head? == some '(') = false) :
    foundFrom before (name ++ y) = foundFrom (before ++ name) y := by
  refine foundFrom_append before fun u v huv _ => ?_
  rcases List.eq_nil_or_concat' u with rfl | ⟨u, d, rfl⟩
  · rw [List.append_nil, ← List.nil_append v, ← huv]
    rcases Bool.and_eq_false_iff.mp h with hopens | hhead
    · exact siteAt_plain_of_opensAfter hopens _
    · refine siteAt_plain ?_ _
      rintro ⟨rest, hrest⟩
      have hname : name ++ '(' :: rest = name ++ y := hrest
      obtain rfl := List.append_cancel_left hname
      simp at hhead
  · have hd : isIdentifierChar d = true := by
      have hname : ∀ c ∈ name, isIdentifierChar c = true :=
        List.all_eq_true.mp (by decide +kernel)
      exact hname d (by rw [huv]; simp)
    refine siteAt_plain_of_opensAfter ?_ _
    rw [← List.append_assoc, List.reverse_append]
    simp [opensAfter, hd]

end

namespace Calling

def Reads (text : Text) (result : List Call × Option Nat) (s : Calling) : Prop :=
  ∃ l r, text = l ++ r ∧ s.index = Text.width l ∧
    result = (s.calls ++ (foundFrom l r).1, (foundFrom l r).2)

variable {calls : List Call} {result : List Call × Option Nat} {x y : Text}

theorem advances (text : Text) (result : List Call × Option Nat) :
    Round.Advances (round text) (Reads text result) (fun s => Text.width text - s.index)
      result := by
  rintro ⟨index, calls⟩ ⟨l, r, rfl, rfl, hresult⟩
  rw [round, Text.from?_append, Option.bind_eq_bind, Option.bind_some]
  rcases Text.offsetOf?_cases r name with ⟨hnone, hnot⟩ | ⟨x, y, rfl, hsome, hfirst⟩
  · left
    rw [hnone, hresult, foundFrom_none hnot, List.append_nil]
    rfl
  rw [foundFrom_first hfirst] at hresult
  have hsite := isCallSite?_eq (l ++ x) y
  rw [List.append_assoc, Text.width_append] at hsite
  simp only [hsome, hsite, Option.bind_eq_bind, Option.bind_some]
  cases hcall : opensAfter (l ++ x).reverse && y.head? == some '(' with
  | false =>
    right
    rw [foundFrom_name hcall] at hresult
    refine ⟨_, rfl, ⟨l ++ x ++ name, y, by simp, by simp [Nat.add_assoc], hresult⟩, ?_⟩
    have hpos : 0 < Text.width name := by decide
    simp only [Text.width_append]
    omega
  | true =>
    obtain ⟨hopens, hhead⟩ := Bool.and_eq_true_iff.mp hcall
    obtain ⟨y, rfl⟩ := List.head?_eq_some_iff.mp (beq_iff_eq.mp hhead)
    rw [show name ++ '(' :: y = keyword ++ y from rfl] at hresult ⊢
    have hcallAt := callAt?_eq (l ++ x) y
    rw [List.append_assoc, Text.width_append] at hcallAt
    simp only [hcallAt, Option.bind_some, if_true]
    cases huntil : untilClosed 0 y with
    | none =>
      left
      have hat := siteAt_unclosed hopens huntil
      rw [hresult, foundFrom_unbalanced (by simp [keyword]) hat, List.append_nil, Text.width_append]
      rfl
    | some inner =>
      right
      have hat := siteAt_closed hopens huntil
      obtain ⟨z, rfl⟩ := append_of_untilClosed huntil
      have hsource : keyword ++ (inner ++ ')' :: z) = keyword ++ inner ++ [')'] ++ z := by simp
      rw [hsource] at hat hresult ⊢
      rw [foundFrom_call hat, ← Text.width_append, Text.width_append l x] at hresult
      have hpos : 0 < Text.width keyword := by decide
      refine ⟨_, rfl, ⟨l ++ x ++ (keyword ++ inner ++ [')']), z, by simp, rfl, ?_⟩, ?_⟩
      · simp only [hresult, List.append_assoc, List.cons_append, List.nil_append]
      · simp only [Text.width_append]
        omega

end Calling

theorem scan?_eq (text : Text) : scan? text = some ((scan text).calls, (scan text).unbalanced) := by
  have hdone := (Calling.advances text ((scan text).calls, (scan text).unbalanced)).done
    (s := ⟨0, []⟩) ⟨[], text, rfl, rfl, rfl⟩ (Nat.lt_succ_of_le (Nat.sub_le _ _))
  rw [scan?, hdone]

theorem IsSite.isCut {text : Text} {start : Nat} (h : IsSite text start) : text.IsCut start := by
  obtain ⟨before, rest, rfl, rfl, -⟩ := h
  exact Text.isCut_append _ _

theorem IsCall.isCut {text inner : Text} {start stop : Nat} (h : IsCall text start stop inner) :
    text.IsCut start ∧ text.IsCut stop := by
  obtain ⟨before, rest, rfl, rfl, rfl, -⟩ := h
  refine ⟨Text.isCut_append _ _, before ++ (keyword ++ inner ++ [')']), rest, by simp, ?_⟩
  exact Text.width_append _ _

end Require
end ScriptBundle
