import ScriptBundle.Proofs.Script.BlockEnds

/-! Interpolations and blocks. For each interpolation that is open the lexer counts the braces that
are open in it. Together the counters from one interpolation on to the innermost say by how many
more braces were opened than closed since it began. So the code of an interpolation closes no block
but those that it opens, and where it ends as many blocks are open as where it began. -/
namespace ScriptBundle

namespace LexState

/-- What reading a character does to the counters of the open interpolations. A brace that is code
is counted in the innermost one; `${` begins another, and a brace that is not code ends it. -/
inductive Turn (s : LexState) : Char → Option Char → Bool → LexState → Prop
  | kept {c : Char} {next : Option Char} {mark : Bool} {s' : LexState}
    (hmark : mark = true → isBrace c = false) (h : s'.depths = s.depths) : Turn s c next mark s'
  | opened {next : Option Char} {s' : LexState} (h : s'.depths = deepen s.depths) :
    Turn s '{' next true s'
  | closed {depth : Nat} {outer : List Nat} {next : Option Char} {s' : LexState}
    (h : s.depths = (depth + 1) :: outer) (h' : s'.depths = depth :: outer) :
    Turn s '}' next true s'
  | outermost {next : Option Char} {s' : LexState} (h : s.depths = []) (h' : s'.depths = []) :
    Turn s '}' next true s'
  | began {s' : LexState} (h : s'.depths = 0 :: s.depths) (hhalf : s'.half = true) :
    Turn s '$' (some '{') false s'
  | ended {outer : List Nat} {next : Option Char} {s' : LexState} (h : s.depths = 0 :: outer)
    (h' : s'.depths = outer) : Turn s '}' next false s'

theorem step_turn (s : LexState) (c : Char) (next : Option Char) :
    s.Turn c next (s.step c next).1 (s.step c next).2 := by
  obtain ⟨mode, depths, half⟩ := s
  cases half with
  | true => exact .kept (fun h => by simp [step] at h) rfl
  | false =>
    cases mode with
    | code =>
      by_cases hopen : c = '{'
      · subst hopen
        simp only [step, stepCode, Bool.false_eq_true, if_false]
        exact .opened rfl
      by_cases hclose : c = '}'
      · subst hclose
        rcases depths with _ | ⟨_ | depth, outer⟩
        · exact .outermost rfl rfl
        · exact .ended rfl rfl
        · exact .closed rfl rfl
      · have hbrace : isBrace c = false := by simp [isBrace, hopen, hclose]
        simp only [step, stepCode, hopen, hclose, Bool.false_eq_true, if_false]
        split_ifs <;> exact .kept (fun _ => hbrace) rfl
    | quoted quote escaped =>
      simp only [step, stepQuoted, Bool.false_eq_true, if_false]
      split_ifs <;> exact .kept (fun h => by cases h) rfl
    | template escaped =>
      simp only [step, stepTemplate, Bool.false_eq_true, if_false]
      split_ifs with _ _ _ hbegins
      · exact .kept (fun h => by cases h) rfl
      · exact .kept (fun h => by cases h) rfl
      · exact .kept (fun h => by cases h) rfl
      · obtain ⟨rfl, rfl⟩ := hbegins
        exact .began rfl rfl
      · exact .kept (fun h => by cases h) rfl
    | lineComment =>
      simp only [step, Bool.false_eq_true, if_false]
      split_ifs with hline
      · exact .kept (fun _ => by subst hline; rfl) rfl
      · exact .kept (fun h => by cases h) rfl
    | blockComment =>
      simp only [step, Bool.false_eq_true, if_false]
      split_ifs <;> exact .kept (fun h => by cases h) rfl

structure Counted (inner : List Nat) (braces : Text) (inner' : List Nat) : Prop where
  ne_nil : inner' ≠ []
  nested : Nested inner.sum braces
  sum : inner'.sum + braces.count '}' = inner.sum + braces.count '{'

namespace Counted

variable {inner inner' inner'' : List Nat} {l r : Text}

theorem refl (h : inner ≠ []) : Counted inner [] inner := ⟨h, .nil _, rfl⟩

theorem trans (hl : Counted inner l inner') (hr : Counted inner' r inner'') :
    Counted inner (l ++ r) inner'' := by
  refine ⟨hr.ne_nil, hl.nested.append hl.sum hr.nested, ?_⟩
  have hsum := hl.sum
  have hsum' := hr.sum
  simp only [List.count_append]
  omega

end Counted

namespace Turn

variable {s s' : LexState} {c : Char} {next : Option Char} {mark : Bool} {inner base : List Nat}

theorem bracesOf_kept (hmark : mark = true → isBrace c = false) : bracesOf [(c, mark)] = [] := by
  cases mark with
  | false => simp [bracesOf]
  | true => simp [bracesOf, hmark rfl]

theorem above (h : s.Turn c next mark s') (hs : s.depths = inner ++ base) (hinner : inner ≠ []) :
    (∃ inner', s'.depths = inner' ++ base ∧ Counted inner (bracesOf [(c, mark)]) inner') ∨
      s'.depths = base ∧ inner = [0] ∧ c = '}' ∧ mark = false := by
  obtain ⟨depth, inner, rfl⟩ := List.exists_cons_of_ne_nil hinner
  have hmarkless : bracesOf [(c, false)] = [] := bracesOf_kept (by simp)
  cases h with
  | kept hmark h =>
    rw [bracesOf_kept hmark]
    exact Or.inl ⟨_, h.trans hs, .refl hinner⟩
  | opened h =>
    refine Or.inl ⟨(depth + 1) :: inner, by rw [h, hs]; rfl, by simp, (Nested.nil _).cons_open, ?_⟩
    simp [bracesOf, isBrace, Nat.add_right_comm]
  | @closed depth' _ _ _ h h' =>
    obtain ⟨rfl, rfl⟩ := List.cons.inj (h.symm.trans hs)
    refine Or.inl ⟨depth' :: inner, h', by simp, ?_, ?_⟩
    · rw [List.sum_cons, Nat.add_right_comm]
      exact (Nested.nil _).cons_close
    · simp [bracesOf, isBrace, Nat.add_right_comm]
  | outermost h => simp [hs] at h
  | began h =>
    rw [hmarkless]
    exact Or.inl ⟨0 :: depth :: inner, by rw [h, hs]; rfl, by simp, .nil _, by simp⟩
  | ended h h' =>
    obtain ⟨rfl, rfl⟩ := List.cons.inj (h.symm.trans hs)
    rcases List.eq_nil_or_concat' inner with rfl | ⟨init, last, rfl⟩
    · exact Or.inr ⟨h', rfl, rfl, rfl⟩
    · rw [hmarkless]
      exact Or.inl ⟨init ++ [last], h', by simp, .nil _, by simp⟩

theorem before (h : s.Turn c next mark s') (hs : s'.depths = inner ++ base) (hinner : inner ≠ []) :
    (∃ inner', inner' ≠ [] ∧ s.depths = inner' ++ base) ∨
      (c = '$' ∧ next = some '{' ∧ inner = [0] ∧ s.depths = base) ∧ s'.half = true := by
  obtain ⟨depth, inner, rfl⟩ := List.exists_cons_of_ne_nil hinner
  cases h with
  | kept _ h => exact Or.inl ⟨_, hinner, h.symm.trans hs⟩
  | opened h =>
    rw [h] at hs
    cases hdepths : s.depths with
    | nil => simp [hdepths, deepen] at hs
    | cons depth' outer =>
      obtain ⟨-, rfl⟩ := List.cons.inj (by simpa [hdepths, deepen] using hs)
      exact Or.inl ⟨depth' :: inner, by simp, rfl⟩
  | @closed depth' _ _ _ h h' =>
    obtain ⟨-, rfl⟩ := List.cons.inj (h'.symm.trans hs)
    exact Or.inl ⟨(depth' + 1) :: inner, by simp, h⟩
  | outermost _ h' => simp [h'] at hs
  | began h hhalf =>
    obtain ⟨rfl, hdepths⟩ := List.cons.inj (h.symm.trans hs)
    cases inner with
    | nil => exact Or.inr ⟨⟨rfl, rfl, rfl, hdepths⟩, hhalf⟩
    | cons depth inner => exact Or.inl ⟨depth :: inner, by simp, hdepths⟩
  | ended h h' => exact Or.inl ⟨0 :: depth :: inner, by simp, by rw [h, ← h', hs]; rfl⟩

end Turn

theorem behind_counted {s : LexState} {x : Text} (next : Option Char) {inner base : List Nat}
    (hs : s.depths = inner ++ base) (hinner : inner ≠ [])
    (h : ∀ y z, x = y ++ z → base.length < (s.behind y (z.head?.or next)).depths.length) :
    ∃ inner', (s.behind x next).depths = inner' ++ base ∧
      Counted inner (bracesOf (x.zip (marksBefore next s x))) inner' := by
  induction x generalizing s inner with
  | nil => exact ⟨inner, hs, .refl hinner⟩
  | cons c x ih =>
    rcases (s.step_turn c (x.head?.or next)).above hs hinner with ⟨inner₁, h₁, hstep⟩ | ⟨hbase, -⟩
    · obtain ⟨inner₂, h₂, hrun⟩ := ih h₁ hstep.ne_nil fun y z hx => by
        have := h (c :: y) z (by simp [hx])
        rwa [behind, ← Option.or_assoc, ← List.head?_append, ← hx] at this
      refine ⟨inner₂, h₂, ?_⟩
      simp only [marksBefore, List.zip_cons_cons]
      rw [bracesOf_cons]
      exact hstep.trans hrun
    · have := h [c] x rfl
      rw [behind, behind, List.head?_nil, Option.none_or, hbase] at this
      omega

theorem behind_begun {s : LexState} (h : (s.step '$' (some '{')).2.depths = 0 :: s.depths)
    (next : Option Char) : (s.behind ['$', '{'] next).depths = 0 :: s.depths ∧
      bracesOf (['$', '{'].zip (marksBefore next s ['$', '{'])) = [] := by
  have hhalf : (s.step '$' (some '{')).2.half = true := by
    have hturn := s.step_turn '$' (some '{')
    generalize (s.step '$' (some '{')).1 = mark at hturn
    cases hturn with
    | kept _ hkept => simp [hkept] at h
    | began _ hhalf => exact hhalf
  have hbrace : (s.step '$' (some '{')).2.step '{' next =
      (false, { (s.step '$' (some '{')).2 with half := false }) := by
    rw [step, if_pos hhalf]
  refine ⟨?_, ?_⟩
  · simpa [behind, hbrace] using h
  · simp [marksBefore, hbrace, bracesOf, isBrace]

end LexState

theorem bracesWithin_eq (x y z : Text) :
    bracesWithin (x ++ (y ++ z)) (Text.width x) (Text.width (x ++ y)) =
      bracesOf (y.zip (marksBefore z.head? (LexState.start.behind x (y ++ z).head?) y)) := by
  have hspots : spots (x ++ (y ++ z)) = _ := (spotsFrom_append .start [] 0 x (y ++ z)).trans
    ((congrArg _ (spotsFrom_append _ _ _ y z)).trans (List.append_assoc _ _ _).symm)
  have hrange := range_eq hspots
  simp only [Spot.text_append, text_spotsBefore] at hrange
  rw [bracesWithin, hrange, Spot.braces, map_spotsBefore]

theorem nesting_append_nested (l m : List Spot) (h : Nested (nesting l) (Spot.braces m)) :
    nesting (l ++ m) + (Spot.braces m).count '}' = nesting l + (Spot.braces m).count '{' := by
  -- The depth is the height of the stack of scopes, whatever is bound in them.
  have hstack := Scopes.length_foldl_meet ⟨[]⟩ [] l
  obtain ⟨top, inner, hfold, hcount⟩ := Scopes.foldl_meet_nested ⟨[]⟩
    (l.foldl (Scopes.meet ⟨[]⟩) ⟨[], []⟩).top (l.foldl (Scopes.meet ⟨[]⟩) ⟨[], []⟩).below []
    (hstack.symm ▸ h)
  rw [List.append_nil, List.append_nil] at hfold
  rw [hstack] at hcount
  rw [← Scopes.length_foldl_meet ⟨[]⟩ [] (l ++ m), List.foldl_append, hfold, hcount]

/-- How many blocks are open at an offset. -/
def depthAt (code : Text) (offset : Nat) : Nat := nesting (Spot.range 0 offset (spots code))

/-- A stretch closes none of the blocks that are open where it begins: the depth changes by what its
own braces open and close, and no block that begins in front of it ends in it. -/
structure KeepsBlocks (code : Text) (front back : Nat) : Prop where
  depth : depthAt code back + (bracesWithin code front back).count '}' =
    depthAt code front + (bracesWithin code front back).count '{'
  ends : ∀ before rest id outer depth, code = before ++ rest → Text.width before ≤ front →
    blockEnd code id outer depth (Text.width before) < front ∨
      back ≤ blockEnd code id outer depth (Text.width before)

theorem KeepsBlocks.of_nested {code : Text} {front back : Nat} (hle : front ≤ back)
    (hback : back ≤ Text.width code) (h : Nested 0 (bracesWithin code front back)) :
    KeepsBlocks code front back := by
  constructor
  · have hnested := nesting_append_nested (Spot.range 0 front (spots code)) _
      (h.mono (Nat.zero_le _))
    rwa [range_append code (Nat.zero_le front) hle] at hnested
  · rintro before rest id outer depth rfl hbefore
    obtain ⟨l, r, hspots, rfl, -⟩ := List.map_eq_append_iff.mp (text_spots (before ++ rest))
    cases depth with
    | zero => exact Or.inr (hback.trans_eq (blockEnd_zero hspots id outer).symm)
    | succ depth =>
      rcases blockEnd_succ_spec hspots id outer depth with hcloses | ⟨hend, -⟩
      · exact hcloses.not_within hbefore h
      · exact Or.inr (hback.trans_eq hend.symm)

/-- The braces open in each interpolation that is open behind a text, the innermost first. -/
def countersAt (before : Text) (next : Option Char) : List Nat :=
  (LexState.start.behind before next).depths

def interpolated (front inside : Text) : Text := front ++ '$' :: '{' :: inside

/-- An interpolation begins behind `front`, and is open from there to where `rest` begins. -/
structure InterpolationOpen (front inside rest : Text) : Prop where
  begins : countersAt (front ++ ['$']) (some '{') = 0 :: countersAt front (some '$')
  stays : ∀ x y, inside = x ++ y → (countersAt front (some '$')).length <
    (countersAt (interpolated front x) (y ++ rest).head?).length

namespace InterpolationOpen

variable {front inside rest : Text} {c : Char}

instance (front inside rest : Text) : Decidable (InterpolationOpen front inside rest) :=
  decidable_of_iff
    (countersAt (front ++ ['$']) (some '{') = 0 :: countersAt front (some '$') ∧
      ∀ n < inside.length + 1, (countersAt front (some '$')).length <
        (countersAt (interpolated front (inside.take n)) (inside.drop n ++ rest).head?).length)
    ⟨fun h => ⟨h.1, fun x y hxy => by
        have := h.2 x.length (by rw [hxy, List.length_append]; omega)
        simpa [hxy] using this⟩,
      fun h => ⟨h.begins, fun n _ => h.stays _ _ (List.take_append_drop n inside).symm⟩⟩

theorem snoc (h : InterpolationOpen front inside (c :: rest))
    (hc : (countersAt front (some '$')).length <
      (countersAt (interpolated front (inside ++ [c])) rest.head?).length) :
    InterpolationOpen front (inside ++ [c]) rest := by
  refine ⟨h.begins, fun x y hxy => ?_⟩
  rcases List.eq_nil_or_concat' y with rfl | ⟨y, d, rfl⟩
  · rwa [← hxy.trans (List.append_nil x)]
  · obtain ⟨hinside, hd⟩ := List.append_inj' (hxy.trans (List.append_assoc x y [d]).symm) rfl
    rw [← hd, List.append_assoc]
    exact h.stays x y hinside

theorem interpolated_eq (front inside : Text) :
    interpolated front inside = interpolated front [] ++ inside := by
  simp [interpolated]

theorem begun (h : InterpolationOpen front inside rest) (next : Option Char) :
    countersAt (interpolated front []) next = 0 :: countersAt front (some '$') ∧
      bracesOf (['$', '{'].zip (marksBefore next (LexState.start.behind front (some '$'))
        ['$', '{'])) = [] := by
  have hbegins := h.begins
  rw [countersAt, LexState.behind_append] at hbegins
  obtain ⟨hdepths, hbraces⟩ := LexState.behind_begun hbegins next
  rw [countersAt, interpolated, LexState.behind_append]
  exact ⟨hdepths, hbraces⟩

theorem counted (h : InterpolationOpen front inside rest) :
    ∃ inner, countersAt (interpolated front inside) rest.head? =
        inner ++ countersAt front (some '$') ∧
      LexState.Counted [0] (bracesWithin (interpolated front inside ++ rest)
        (Text.width (interpolated front [])) (Text.width (interpolated front inside))) inner := by
  have hbehind : ∀ y z, inside = y ++ z → LexState.start.behind (interpolated front y)
      (z ++ rest).head? = (LexState.start.behind (interpolated front [])
        (inside ++ rest).head?).behind y (z.head?.or rest.head?) := by
    rintro y z rfl
    rw [interpolated_eq, LexState.behind_append, ← List.head?_append, ← List.head?_append,
      List.append_assoc]
  have hbegun : (LexState.start.behind (interpolated front []) (inside ++ rest).head?).depths =
      [0] ++ countersAt front (some '$') := (h.begun _).1
  obtain ⟨inner, hcounters, hcounted⟩ := LexState.behind_counted rest.head? hbegun (by simp)
    fun y z hxy => by
      rw [← hbehind y z hxy]
      exact h.stays y z hxy
  refine ⟨inner, ?_, ?_⟩
  · have := hbehind inside [] (List.append_nil inside).symm
    rw [List.nil_append, List.head?_nil, Option.none_or] at this
    rw [countersAt, this, hcounters, countersAt]
  · rwa [interpolated_eq front inside, List.append_assoc, bracesWithin_eq]

theorem bracesWithin_delimiter (h : InterpolationOpen front inside rest) {stop : Nat}
    (hstop : Text.width (interpolated front []) ≤ stop) :
    bracesWithin (interpolated front inside ++ rest) (Text.width front) stop =
      bracesWithin (interpolated front inside ++ rest) (Text.width (interpolated front []))
        stop := by
  have hnone : bracesWithin (interpolated front inside ++ rest) (Text.width front)
      (Text.width (interpolated front [])) = [] := by
    have hcut : interpolated front inside ++ rest = front ++ (['$', '{'] ++ (inside ++ rest)) := by
      simp [interpolated]
    rw [hcut, interpolated, bracesWithin_eq]
    exact (h.begun _).2
  have hwidth : Text.width front ≤ Text.width (interpolated front []) := by simp [interpolated]
  rw [← bracesWithin_append _ hwidth hstop, hnone, List.nil_append]

theorem ends (h : InterpolationOpen front inside (c :: rest))
    (hc : (countersAt (interpolated front inside ++ [c]) rest.head?).length ≤
      (countersAt front (some '$')).length) :
    c = '}' ∧ countersAt (interpolated front inside) (some c) = 0 :: countersAt front (some '$') ∧
      bracesWithin (interpolated front inside ++ c :: rest) (Text.width (interpolated front inside))
        (Text.width (interpolated front inside ++ [c])) = [] := by
  obtain ⟨inner, hcounters, hcounted⟩ := h.counted
  rw [countersAt, LexState.behind_append] at hc
  have hturn := (LexState.start.behind (interpolated front inside) (some c)).step_turn c rest.head?
  rcases hturn.above hcounters hcounted.ne_nil with ⟨inner', hinner', hstep⟩ | ⟨-, rfl, rfl, hmark⟩
  · have hlen := List.length_pos_iff.mpr hstep.ne_nil
    rw [LexState.behind, LexState.behind, List.head?_nil, Option.none_or, List.head?_cons,
      Option.some_or, hinner', List.length_append] at hc
    omega
  · refine ⟨rfl, hcounters, ?_⟩
    rw [← List.singleton_append, bracesWithin_eq]
    simp only [marksBefore, List.head?_nil, Option.none_or, List.singleton_append, List.head?_cons,
      hmark]
    rfl

theorem width_le (front inside : Text) :
    Text.width front ≤ Text.width (interpolated front inside) ∧
      Text.width (interpolated front []) ≤ Text.width (interpolated front inside) := by
  rw [interpolated_eq front inside, interpolated, Text.width_append, Text.width_append]
  omega

theorem keepsBlocks (h : InterpolationOpen front inside rest) :
    KeepsBlocks (interpolated front inside ++ rest) (Text.width front)
      (Text.width (interpolated front inside)) := by
  obtain ⟨_, _, hcounted⟩ := h.counted
  refine .of_nested (width_le front inside).1 (by simp) ?_
  rw [h.bracesWithin_delimiter (width_le front inside).2]
  exact hcounted.nested

theorem closed (h : InterpolationOpen front inside (c :: rest))
    (hc : (countersAt (interpolated front inside ++ [c]) rest.head?).length ≤
      (countersAt front (some '$')).length) :
    Matched (bracesWithin (interpolated front inside ++ c :: rest)
        (Text.width (interpolated front [])) (Text.width (interpolated front inside))) ∧
      KeepsBlocks (interpolated front inside ++ c :: rest) (Text.width front)
        (Text.width (interpolated front inside ++ [c])) ∧
      depthAt (interpolated front inside ++ c :: rest)
          (Text.width (interpolated front inside ++ [c])) =
        depthAt (interpolated front inside ++ c :: rest) (Text.width front) := by
  obtain ⟨-, hzero, hnone⟩ := h.ends hc
  obtain ⟨inner, hcounters, hcounted⟩ := h.counted
  obtain rfl : inner = [0] := List.append_cancel_right (hcounters.symm.trans hzero)
  have hmatched : Matched (bracesWithin (interpolated front inside ++ c :: rest)
      (Text.width (interpolated front [])) (Text.width (interpolated front inside))) :=
    ⟨hcounted.nested, by simpa using hcounted.sum⟩
  have hlast : Text.width (interpolated front inside) ≤
      Text.width (interpolated front inside ++ [c]) := by
    rw [Text.width_append]
    omega
  -- Neither of the delimiters is code.
  have hbraces : bracesWithin (interpolated front inside ++ c :: rest) (Text.width front)
      (Text.width (interpolated front inside ++ [c])) =
        bracesWithin (interpolated front inside ++ c :: rest)
          (Text.width (interpolated front [])) (Text.width (interpolated front inside)) := by
    rw [← bracesWithin_append _ (width_le front inside).1 hlast, hnone, List.append_nil,
      h.bracesWithin_delimiter (width_le front inside).2]
  have hkeeps : KeepsBlocks (interpolated front inside ++ c :: rest) (Text.width front)
      (Text.width (interpolated front inside ++ [c])) :=
    .of_nested ((width_le front inside).1.trans hlast) (by simp) (hbraces ▸ hmatched.nested)
  have hdepth := hkeeps.depth
  rw [hbraces, hmatched.even] at hdepth
  exact ⟨hmatched, hkeeps, Nat.add_right_cancel hdepth⟩

end InterpolationOpen

/-- Each counter belongs to an interpolation that is open, or whose delimiter is half read. -/
theorem exists_interpolation {before rest : Text} {inner outer : List Nat} (hinner : inner ≠ [])
    (h : countersAt before rest.head? = inner ++ outer) :
    (∃ front inside, before = interpolated front inside ∧ InterpolationOpen front inside rest ∧
        countersAt front (some '$') = outer) ∨
      ∃ front, before = front ++ ['$'] ∧ rest.head? = some '{' ∧
        countersAt front (some '$') = outer ∧ countersAt before (some '{') = 0 :: outer ∧
        (LexState.start.behind before rest.head?).half = true := by
  induction before using List.reverseRecOn generalizing rest inner with
  | nil =>
    rcases List.nil_eq_append_iff.mp h with ⟨rfl, -⟩
    exact absurd rfl hinner
  | append_singleton before c ih =>
    have hlen : outer.length < (countersAt (before ++ [c]) rest.head?).length := by
      have := List.length_pos_iff.mpr hinner
      rw [h, List.length_append]
      omega
    have hstep : LexState.start.behind (before ++ [c]) rest.head? =
        ((LexState.start.behind before (some c)).step c rest.head?).2 :=
      LexState.behind_append _ _ _ _
    rw [countersAt, hstep] at h
    have hturn := (LexState.start.behind before (some c)).step_turn c rest.head?
    rcases hturn.before h hinner with
      ⟨inner', hinner', hbefore⟩ | ⟨⟨rfl, hrest, rfl, hbefore⟩, hhalf⟩
    · rcases @ih (c :: rest) _ hinner' hbefore with
        ⟨front, inside, rfl, hopen, rfl⟩ | ⟨front, rfl, hnext, rfl, hbegins, -⟩
      · have hcut : interpolated front inside ++ [c] = interpolated front (inside ++ [c]) := by
          simp [interpolated]
        rw [hcut] at hlen ⊢
        exact Or.inl ⟨front, inside ++ [c], rfl, hopen.snoc hlen, rfl⟩
      · obtain rfl : c = '{' := by simpa using hnext
        have hcut : front ++ ['$'] ++ ['{'] = interpolated front [] := by simp [interpolated]
        rw [hcut] at hlen ⊢
        refine Or.inl ⟨front, [], rfl, ⟨hbegins, fun x y hxy => ?_⟩, rfl⟩
        obtain ⟨rfl, rfl⟩ := List.nil_eq_append_iff.mp hxy
        exact hlen
    · have hbegins : countersAt (before ++ ['$']) (some '{') = 0 :: outer := by
        rw [countersAt, ← hrest, hstep]
        exact h
      exact Or.inr ⟨before, rfl, hrest, hbefore, hbegins, by rwa [hstep]⟩

/-- **Interpolations keep blocks as they are.** At each place of a text: an interpolation that is
open there has closed no blocks but those opened in it, and the counters from it to the innermost
sum up to the braces still open in it; no block that begins in front of it ends in it. If the next
character ends it, that is its closing brace, the braces in it match, and as many blocks are open
behind it as in front of it. And between two steps of the lexer each counter belongs to such an
interpolation, whose braces it counts together with those further in. -/
theorem interpolations_keep_blocks (before rest : Text) :
    (∀ front inside, before = interpolated front inside → InterpolationOpen front inside rest →
      (∃ inner, countersAt before rest.head? = inner ++ countersAt front (some '$') ∧
        LexState.Counted [0] (bracesWithin (before ++ rest) (Text.width (interpolated front []))
          (Text.width before)) inner) ∧
      KeepsBlocks (before ++ rest) (Text.width front) (Text.width before) ∧
      ∀ c more, rest = c :: more → (countersAt (before ++ [c]) more.head?).length ≤
          (countersAt front (some '$')).length →
        c = '}' ∧
        Matched (bracesWithin (before ++ rest) (Text.width (interpolated front []))
          (Text.width before)) ∧
        KeepsBlocks (before ++ rest) (Text.width front) (Text.width (before ++ [c])) ∧
        depthAt (before ++ rest) (Text.width (before ++ [c])) =
          depthAt (before ++ rest) (Text.width front)) ∧
    ((LexState.start.behind before rest.head?).half = false → ∀ inner outer, inner ≠ [] →
      countersAt before rest.head? = inner ++ outer →
      ∃ front inside, before = interpolated front inside ∧ InterpolationOpen front inside rest ∧
        countersAt front (some '$') = outer ∧
        LexState.Counted [0] (bracesWithin (before ++ rest) (Text.width (interpolated front []))
          (Text.width before)) inner) := by
  constructor
  · rintro front inside rfl h
    refine ⟨h.counted, h.keepsBlocks, ?_⟩
    rintro c more rfl hc
    exact ⟨(h.ends hc).1, h.closed hc⟩
  · intro hhalf inner outer hinner hcounters
    rcases exists_interpolation hinner hcounters with
      ⟨front, inside, rfl, h, rfl⟩ | ⟨-, -, -, -, -, htrue⟩
    · obtain ⟨inner', hcounters', hcounted⟩ := h.counted
      obtain rfl := List.append_cancel_right (hcounters'.symm.trans hcounters)
      exact ⟨front, inside, rfl, h, rfl, hcounted⟩
    · simp [hhalf] at htrue

/-- A block in an interpolation, and in it a template with one of its own. -/
theorem interpolations_keep_blocks_template :
    InterpolationOpen "\x7b\x60".toList "\x7b\x60$\x7bx\x7d\x60\x7d".toList "\x7d\x60\x7d".toList ∧
      bracesWithin "\x7b\x60$\x7b\x7b\x60$\x7bx\x7d\x60\x7d\x7d\x60\x7d".toList 4 12 = ['{', '}'] ∧
      Matched ['{', '}'] ∧
      depthAt "\x7b\x60$\x7b\x7b\x60$\x7bx\x7d\x60\x7d\x7d\x60\x7d".toList 13 =
        depthAt "\x7b\x60$\x7b\x7b\x60$\x7bx\x7d\x60\x7d\x7d\x60\x7d".toList 2 := by
  have hopen : InterpolationOpen "\x7b\x60".toList "\x7b\x60$\x7bx\x7d\x60\x7d".toList
      "\x7d\x60\x7d".toList := by decide +kernel
  have hbraces : bracesWithin "\x7b\x60$\x7b\x7b\x60$\x7bx\x7d\x60\x7d\x7d\x60\x7d".toList 4 12 =
      ['{', '}'] := by decide +kernel
  obtain ⟨-, -, hends⟩ := (interpolations_keep_blocks _ _).1 _ _ rfl hopen
  obtain ⟨-, hmatched, -, hdepth⟩ := hends '}' _ rfl (by decide +kernel)
  exact ⟨hopen, hbraces, hbraces ▸ hmatched, hdepth⟩

end ScriptBundle
