import ScriptBundle.Proofs.Script.ByteMarks

/-! Replacing names by byte offsets. A loop goes over a stretch of a text; where a name stands it
writes the qualified name and moves on by the width of the name, and otherwise it writes one
character. Each round moves on, also when names are empty: a name is looked for where a character of
an identifier stands, before which nothing can end. What the loop writes are the spots of the
stretch with their names replaced. -/
namespace ScriptBundle

def allCode (marks : List Bool) (start stop : Nat) : Bool :=
  (List.range' start (stop - start)).all (isCodeAt marks)

def widest : List Binding → Option Binding
  | [] => none
  | b :: more =>
    match widest more with
    | none => some b
    | some a => if Text.width b.name ≤ Text.width a.name then some a else some b

section

variable (code : Text) (marks : List Bool) (start stop : Nat)

/-- Whether the name of the binding stands at an offset of a stretch that ends at another: the
binding is in effect, all of the name is code, and a boundary follows. -/
def Binding.standsAt? (b : Binding) : Option Bool := do
  let rest ← code.slice? start stop
  if b.since ≤ start ∧ b.name <+: rest ∧ allCode marks start (start + Text.width b.name) then
    let after ← code.from? (start + Text.width b.name)
    return Spot.closesBefore after
  else return false

def standing? : List Binding → Option (List Binding)
  | [] => some []
  | b :: more => do
    let stands ← b.standsAt? code marks start stop
    let others ← standing? more
    return if stands then b :: others else others

def boundAt? (bindings : List Binding) : Option (Option Binding) := do
  let before ← code.upTo? start
  if Spot.opensAfter before.reverse then
    let found ← standing? code marks start stop bindings
    return widest found
  else return none

end

/-- The names of a stretch being replaced: how far, and what was written so far. -/
structure Replacing where
  cursor : Nat
  out : Text

namespace Replacing

variable (code : Text) (marks : List Bool) (bindings : List Binding) (stop : Nat)

/-- What replaces the name at the cursor, where the character `c` stands. -/
def found? (s : Replacing) (c : Char) : Option (Option Binding) :=
  if isCodeAt marks s.cursor && isIdentifierChar c then boundAt? code marks s.cursor stop bindings
  else some none

def round (s : Replacing) : Option (Round Replacing Text) := do
  match ← code.slice? s.cursor stop with
  | [] => return .done s.out
  | c :: _ =>
    match ← s.found? code marks bindings stop c with
    | some b => return .next ⟨s.cursor + Text.width b.name, s.out ++ b.qualified⟩
    | none => return .next ⟨s.cursor + c.utf8Size, s.out ++ [c]⟩

end Replacing

def renameWithin? (code : Text) (marks : List Bool) (bindings : List Binding) (start stop : Nat) :
    Option Text := do
  let stretch ← code.slice? start stop
  if bindings.isEmpty then return stretch
  else
    match Round.run (Replacing.round code marks bindings stop) (stop - start + 1) ⟨start, []⟩ with
    | some (.done out) => return out
    | _ => none

theorem Text.width_le_iff_of_prefix {x y t : Text} (hx : x <+: t) (hy : y <+: t) :
    width x ≤ width y ↔ x.length ≤ y.length := by
  have hmono : ∀ {x y : Text}, x <+: y → width x ≤ width y := by
    rintro x _ ⟨z, rfl⟩
    rw [width_append]
    exact Nat.le_add_right _ _
  constructor
  · intro hle
    by_contra hlt
    have hyx := List.prefix_of_prefix_length_le hy hx (by omega)
    have hne : y ≠ x := by
      rintro rfl
      exact hlt (Nat.le_refl _)
    obtain ⟨z, rfl⟩ := hyx
    cases z with
    | nil => exact hne (List.append_nil y).symm
    | cons c z =>
      have := c.utf8Size_pos
      rw [width_append, width_cons] at hle
      omega
  · exact fun hle => hmono (List.prefix_of_prefix_length_le hx hy hle)

theorem widest_eq_longest {t : Text} {bindings : List Binding}
    (h : ∀ b ∈ bindings, b.name <+: t) : widest bindings = longest bindings := by
  induction bindings with
  | nil => rfl
  | cons b more ih =>
    obtain ⟨hb, hmore⟩ := List.forall_mem_cons.mp h
    rw [widest, longest, ih hmore]
    cases ha : longest more with
    | none => rfl
    | some a =>
      simp only [Text.width_le_iff_of_prefix hb (hmore a (mem_of_longest ha))]

theorem allCode_eq {code : Text} {l m r : List Spot} (h : spots code = l ++ m ++ r) :
    allCode (byteMarks code) (Text.width (Spot.text l)) (Text.width (Spot.text (l ++ m))) =
      m.all Spot.code := by
  rw [Bool.eq_iff_iff, allCode, List.all_eq_true, List.all_eq_true]
  constructor
  · intro hall t ht
    obtain ⟨front, back, rfl⟩ := List.append_of_mem ht
    have hcode : spots code = (l ++ front) ++ t :: (back ++ r) := by simp [h]
    have hpos := t.char.utf8Size_pos
    rw [← isCodeAt_offset hcode]
    refine hall _ (List.mem_range'_1.mpr ?_)
    simp only [spots_offset_eq hcode, Spot.width_append, Spot.width_cons]
    omega
  · intro hall i hi
    have hmark : Spot.byteMarks m =
        List.replicate (Text.width (Spot.text m)) true := Spot.byteMarks_eq_replicate hall
    have hmarks : byteMarks code = Spot.byteMarks l ++
        (List.replicate (Text.width (Spot.text m)) true ++ Spot.byteMarks r) := by
      rw [byteMarks, h, Spot.byteMarks_append, Spot.byteMarks_append, hmark, List.append_assoc]
    rw [List.mem_range'_1, Spot.width_append] at hi
    have hle : (Spot.byteMarks l).length ≤ i := by
      rw [Spot.length_byteMarks]
      exact hi.1
    have hlt : i - (Spot.byteMarks l).length < Text.width (Spot.text m) := by
      rw [Spot.length_byteMarks]
      omega
    rw [isCodeAt, hmarks, List.getElem?_append_right hle,
      List.getElem?_append_left (by simpa using hlt), List.getElem?_replicate, if_pos hlt]
    rfl

section

variable {code : Text} {l more r : List Spot} {s : Spot} {b : Binding}

/-- Whether the text of the spots stands at their start as a name. An empty one does not: what
follows is a character of an identifier and no boundary. -/
theorem standsAt_text (h : spots code = l ++ more ++ r)
    (hfirst : ∃ s ∈ (more ++ r).head?, isIdentifierChar s.char = true) (tail : List Spot) :
    standsAt (Spot.text more) (more ++ tail) =
      (more.all Spot.code && Spot.closesBefore (Spot.text r)) := by
  rcases List.eq_nil_or_concat' more with rfl | ⟨front, last, rfl⟩
  · obtain ⟨s, hs, hidentifier⟩ := hfirst
    obtain ⟨rest, rfl⟩ := List.head?_eq_some_iff.mp hs
    have hboundary : isBoundary s.char = false := by
      cases hb : isBoundary s.char with
      | false => rfl
      | true => simp [isIdentifierChar_of_isBoundary hb] at hidentifier
    simp [Spot.text, standsAt, Spot.closesBefore, hboundary]
  · have hafter : last.after = Spot.text r := (spots_around (l := l ++ front) (by simpa using h)).2
    rw [Bool.eq_iff_iff, standsAt_iff_exists, Bool.and_eq_true, List.all_eq_true, ← hafter]
    constructor
    · rintro ⟨covered, rest, happend, htext, hcode, last', hlast, hcloses⟩
      have hlength := congrArg List.length htext
      obtain ⟨rfl, rfl⟩ := List.append_inj happend.symm (by simpa [Spot.text] using hlength)
      obtain rfl : last' = last := by simpa using hlast.symm
      exact ⟨hcode, hcloses⟩
    · rintro ⟨hcode, hcloses⟩
      exact ⟨front ++ [last], tail, rfl, rfl, hcode, last, by simp, hcloses⟩

theorem standsAt?_eq (h : spots code = l ++ (s :: more) ++ r)
    (hs : isIdentifierChar s.char = true) :
    b.standsAt? code (byteMarks code) (Text.width (Spot.text l))
        (Text.width (Spot.text (l ++ s :: more))) =
      some (b.since ≤ s.offset && standsAt b.name (s :: more)) := by
  have hoffset : s.offset = Text.width (Spot.text l) :=
    spots_offset_eq (by rw [h, List.append_assoc]; rfl)
  rw [Binding.standsAt?, slice?_spots h]
  by_cases hname : b.name <+: Spot.text (s :: more)
  · obtain ⟨rest, hrest⟩ := id hname
    obtain ⟨covered, tail, hcovered, htext, -⟩ := List.map_eq_append_iff.mp hrest.symm
    have hcode : spots code = l ++ covered ++ (tail ++ r) := by
      rw [h, hcovered]
      simp
    have hstop : Text.width (Spot.text l) + Text.width b.name =
        Text.width (Spot.text (l ++ covered)) := by
      rw [Spot.width_append, ← htext]
      rfl
    have hfirst : ∃ t ∈ (covered ++ (tail ++ r)).head?, isIdentifierChar t.char = true := by
      rw [← List.append_assoc, ← hcovered]
      exact ⟨s, rfl, hs⟩
    have hstands := standsAt_text hcode hfirst tail
    rw [← hcovered, show Spot.text covered = b.name from htext] at hstands
    rw [hstands, hoffset]
    simp only [Option.bind_eq_bind, Option.bind_some, hname, true_and, hstop, allCode_eq hcode,
      from?_spots hcode]
    by_cases hsince : b.since ≤ Text.width (Spot.text l) <;>
      cases covered.all Spot.code <;> simp [hsince]
  · have hstands : standsAt b.name (s :: more) = false := by
      rw [← Bool.not_eq_true, standsAt_iff_exists]
      rintro ⟨covered, tail, hcovered, htext, -⟩
      exact hname ⟨Spot.text tail, by rw [hcovered, Spot.text_append, htext]⟩
    simp [hname, hstands]

theorem standing?_eq (h : spots code = l ++ (s :: more) ++ r)
    (hs : isIdentifierChar s.char = true) (bindings : List Binding) :
    standing? code (byteMarks code) (Text.width (Spot.text l))
        (Text.width (Spot.text (l ++ s :: more))) bindings =
      some (bindings.filter fun b => b.since ≤ s.offset && standsAt b.name (s :: more)) := by
  induction bindings with
  | nil => rfl
  | cons b bindings ih =>
    rw [standing?, standsAt?_eq h hs, ih, List.filter_cons]
    rfl

/-- What replaces a name at the cursor is what replaces it at the start of the spots from there to
the end of the stretch. -/
theorem found?_eq (h : spots code = l ++ (s :: more) ++ r) (bindings : List Binding) (out : Text) :
    Replacing.found? code (byteMarks code) bindings (Text.width (Spot.text (l ++ s :: more)))
      ⟨Text.width (Spot.text l), out⟩ s.char = some (bindingAt bindings (s :: more)) := by
  have hcode : spots code = l ++ s :: (more ++ r) := by simpa using h
  have hmark := isCodeAt_offset hcode
  rw [spots_offset_eq hcode] at hmark
  rw [Replacing.found?, hmark, bindingAt]
  by_cases hs : (s.code && isIdentifierChar s.char) = true
  · have hidentifier : isIdentifierChar s.char = true := by
      simp only [Bool.and_eq_true] at hs
      exact hs.2
    rw [if_pos hs, hs, Bool.true_and, boundAt?, upTo?_spots hcode, (spots_around hcode).1]
    simp only [Option.bind_eq_bind, Option.bind_some, standing?_eq h hidentifier]
    cases Spot.opensAfter (Spot.text l).reverse with
    | false => rfl
    | true =>
      refine congrArg some (widest_eq_longest (t := Spot.text (s :: more)) fun b hb => ?_)
      have hstands := (List.mem_filter.mp hb).2
      rw [Bool.and_eq_true, standsAt_iff_exists] at hstands
      obtain ⟨-, covered, tail, hcovered, htext, -⟩ := hstands
      exact ⟨Spot.text tail, by rw [hcovered, Spot.text_append, htext]⟩
  · rw [if_neg hs, Bool.eq_false_iff.mpr hs]
    rfl

end

theorem renameFrom_length (bindings : List Binding) (x y : List Spot) :
    renameFrom bindings x.length (x ++ y) = renameFrom bindings 0 y := by
  induction x with
  | nil => rfl
  | cons s x ih => exact ih

namespace Replacing

/-- The stretch, of which the spots are `m` with `l` before it, is read up to the cursor, and what
was written is followed by what becomes of the rest. -/
def Reads (l m : List Spot) (bindings : List Binding) (s : Replacing) : Prop :=
  ∃ u v, m = u ++ v ∧ s.cursor = Text.width (Spot.text (l ++ u)) ∧
    s.out ++ renameFrom bindings 0 v = rename bindings m

variable {code : Text} {l m r : List Spot} {bindings : List Binding}

theorem reads_start : Reads l m bindings ⟨Text.width (Spot.text l), []⟩ :=
  ⟨[], m, rfl, by rw [List.append_nil], rfl⟩

theorem Reads.isCut {s : Replacing} (h : spots code = l ++ m ++ r)
    (hs : Reads l m bindings s) : code.IsCut s.cursor := by
  obtain ⟨u, v, rfl, hcursor, -⟩ := hs
  rw [hcursor]
  exact isCut_spots (r := v ++ r) (by rw [h]; simp)

theorem Reads.cursor_le {s : Replacing} (hs : Reads l m bindings s) :
    s.cursor ≤ Text.width (Spot.text (l ++ m)) := by
  obtain ⟨u, v, rfl, hcursor, -⟩ := hs
  simp only [hcursor, Spot.width_append]
  omega

theorem round_end (bindings : List Binding) (h : spots code = l ++ r) (out : Text) :
    round code (byteMarks code) bindings (Text.width (Spot.text l))
      ⟨Text.width (Spot.text l), out⟩ = some (.done out) := by
  have hslice := slice?_spots (l := l) (m := []) (r := r) (by simpa using h)
  rw [List.append_nil] at hslice
  rw [round, hslice]
  rfl

theorem round_cons (bindings : List Binding) {s : Spot} {more : List Spot}
    (h : spots code = l ++ (s :: more) ++ r) (out : Text) :
    round code (byteMarks code) bindings (Text.width (Spot.text (l ++ s :: more)))
        ⟨Text.width (Spot.text l), out⟩ =
      some (.next (match bindingAt bindings (s :: more) with
        | some b => ⟨Text.width (Spot.text l) + Text.width b.name, out ++ b.qualified⟩
        | none => ⟨Text.width (Spot.text l) + s.char.utf8Size, out ++ [s.char]⟩)) := by
  have htext : Spot.text (s :: more) = s.char :: Spot.text more := rfl
  rw [round, slice?_spots h]
  simp only [htext, Option.bind_eq_bind, Option.bind_some, found?_eq h]
  cases bindingAt bindings (s :: more) <;> rfl

theorem advances (bindings : List Binding) (h : spots code = l ++ m ++ r) :
    Round.Advances (round code (byteMarks code) bindings (Text.width (Spot.text (l ++ m))))
      (Reads l m bindings) (fun s => Text.width (Spot.text (l ++ m)) - s.cursor)
      (rename bindings m) := by
  rintro ⟨cursor, out⟩ ⟨u, v, rfl, rfl, hout⟩
  have hcode : spots code = l ++ u ++ v ++ r := by
    rw [h]
    simp
  cases v with
  | nil =>
    left
    have hround := round_end bindings (l := l ++ u) (by simpa using hcode) out
    rw [List.append_nil] at hout ⊢
    rw [hround, ← hout]
    simp [renameFrom]
  | cons s more =>
    right
    have hround := round_cons bindings hcode out
    rw [List.append_assoc l u] at hround
    have hpos := s.char.utf8Size_pos
    cases hat : bindingAt bindings (s :: more) with
    | none =>
      rw [hat] at hround
      refine ⟨_, hround, ⟨u ++ [s], more, by simp, ?_, ?_⟩, ?_⟩
      · simp only [Spot.width_append, Nat.add_assoc]
        rfl
      · rw [← hout, renameFrom, hat, List.append_assoc]
        rfl
      · simp only [Spot.width_append, Spot.width_cons]
        omega
    | some b =>
      rw [hat] at hround
      obtain ⟨-, -, hstands⟩ := of_bindingAt hat
      obtain ⟨covered, tail, hcovered, htext, -⟩ := standsAt_iff_exists.mp hstands
      cases covered with
      | nil => exact absurd htext.symm (ne_nil_of_standsAt hstands)
      | cons t covered =>
        obtain ⟨rfl, rfl⟩ : s = t ∧ more = covered ++ tail := List.cons.inj hcovered
        have hlength : b.name.length - 1 = covered.length := by simp [← htext, Spot.text]
        refine ⟨_, hround, ⟨u ++ s :: covered, tail, by simp, ?_, ?_⟩, ?_⟩
        · simp only [← htext, Spot.width_append, Nat.add_assoc]
        · rw [← hout, renameFrom, hat, List.append_assoc]
          simp only [hlength, renameFrom_length]
        · simp only [← htext, Spot.width_append, Spot.width_cons]
          omega

end Replacing

theorem renameWithin?_spots {code : Text} {l m r : List Spot} (h : spots code = l ++ m ++ r)
    (bindings : List Binding) : renameWithin? code (byteMarks code) bindings
      (Text.width (Spot.text l)) (Text.width (Spot.text (l ++ m))) = some (rename bindings m) := by
  rw [renameWithin?, slice?_spots h]
  cases bindings with
  | nil => simp [rename, renameFrom_nil_bindings]
  | cons b more =>
    have hdone := (Replacing.advances (b :: more) h).done Replacing.reads_start
      (Nat.lt_succ_self _)
    simp [hdone]

/-- **Replacing names always moves on.** Of a text, any stretch of it and any bindings: each round
moves the cursor on by a byte or more, to where the text can be cut and not beyond the stretch. So
the loop ends after no more rounds than the stretch has bytes, and has then written the stretch with
its names replaced. An empty name is found at no place where one is looked for. -/
theorem rename_advances (before range after : Text) (bindings : List Binding) :
    let code := before ++ range ++ after
    let marks := byteMarks code
    let start := Text.width before
    let stop := Text.width (before ++ range)
    let round := Replacing.round code marks bindings stop
    (∀ n s, Round.run round n ⟨start, []⟩ = some (.next s) →
      start + n ≤ s.cursor ∧ s.cursor ≤ stop ∧ code.IsCut s.cursor ∧
      ∀ s', round s = some (.next s') → s.cursor < s'.cursor ∧ s'.cursor ≤ stop) ∧
    Round.run round (Text.width range + 1) ⟨start, []⟩ =
      some (.done (rename bindings (Spot.range start stop (spots code)))) ∧
    ∀ b : Binding, b.name = [] → ∀ x c y, range = x ++ c :: y → isIdentifierChar c = true →
      b.standsAt? code marks (Text.width (before ++ x)) stop = some false := by
  intro code marks start stop round
  obtain ⟨l, m, r, h, hl, hm, -⟩ := exists_spots_eq before range after
  have hstop : stop = Text.width (Spot.text (l ++ m)) := by rw [Spot.text_append, hl, hm]
  have hstart : start = Text.width (Spot.text l) := by rw [hl]
  have hadvances := Replacing.advances bindings h
  have hbegin : Replacing.Reads l m bindings ⟨start, []⟩ := hstart ▸ Replacing.reads_start
  have hwidth : stop = start + Text.width range := Text.width_append before range
  rw [← hstop] at hadvances
  refine ⟨fun n s hrun => ?_, ?_, fun b hb x c y hrange hc => ?_⟩
  · obtain ⟨hs, hleft⟩ := hadvances.next hbegin hrun
    have hle := hs.cursor_le
    rw [← hstop] at hle
    simp only at hleft
    refine ⟨by omega, hle, hs.isCut h, fun s' hnext => ?_⟩
    rcases hadvances s hs with hdone | ⟨t, ht, htreads, hlt⟩
    · exact absurd (hdone.symm.trans hnext) (by simp)
    · obtain rfl : t = s' := by simpa using ht.symm.trans hnext
      have hle' := htreads.cursor_le
      rw [← hstop] at hle'
      simp only at hlt
      exact ⟨by omega, hle'⟩
  · have hspots : Spot.range start stop (spots code) = m := by
      rw [hstart, hstop]
      exact range_eq h
    rw [hspots]
    refine hadvances.done hbegin ?_
    simp only
    omega
  · obtain ⟨u, v, rfl, rfl, hv⟩ := List.map_eq_append_iff.mp (hm.trans hrange)
    obtain ⟨s, more, rfl, rfl, -⟩ := List.map_eq_cons_iff.mp hv
    have hcode : spots code = l ++ u ++ (s :: more) ++ r := by
      rw [h]
      simp
    have hstands := standsAt?_eq (b := b) hcode hc
    have hempty : standsAt b.name (s :: more) = false := by rw [hb, standsAt]
    rw [hempty, Bool.and_false] at hstands
    rw [hstop, ← hl, ← hstands, ← List.append_assoc]
    exact congrArg (b.standsAt? code marks · _)
      (congrArg Text.width (Spot.text_append l u).symm)

/-- The empty name replaces nothing, and the first letter begins another name. -/
example : renameWithin? "xé x".toList (byteMarks "xé x".toList)
    [⟨[], ['M'], 0⟩, ⟨['x'], ['M'], 0⟩] 0 5 = some "xé M".toList := by decide +kernel

end ScriptBundle
