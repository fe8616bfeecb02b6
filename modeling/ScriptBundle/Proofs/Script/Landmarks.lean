import ScriptBundle.Proofs.Script.Declaring
import ScriptBundle.Proofs.Script.Parts

/-! The landmarks of a script: the braces that are code, and the keywords of declarations. Between
two of them a script is plain, and a block is made up of what lies up to the next landmark and of
the blocks behind it. -/
namespace ScriptBundle

/-- What the scan of a block stops at. -/
inductive Landmark
  | opening
  | closing
  | declaration (k : Keyword)

namespace Spot

def keyword? (s : Spot) : Option Keyword :=
  if s.code && Declaration.standsAlone s.before then
    (Keyword.all.findSome? (Declaration.afterKeyword? (s.char :: s.after))).map (·.1)
  else none

def landmark? (s : Spot) : Option Landmark :=
  if s.isCode '{' then some .opening
  else if s.isCode '}' then some .closing
  else s.keyword?.map .declaration

variable {s : Spot}

theorem of_landmark?_opening (h : s.landmark? = some .opening) : s.isCode '{' = true := by
  unfold landmark? at h
  split at h
  · assumption
  · split at h
    · cases h
    · simp at h

theorem of_landmark?_closing (h : s.landmark? = some .closing) : s.isCode '}' = true := by
  unfold landmark? at h
  split at h
  · cases h
  · split at h
    · assumption
    · simp at h

theorem of_landmark?_declaration {k : Keyword} (h : s.landmark? = some (.declaration k)) :
    s.isCode '{' = false ∧ s.isCode '}' = false ∧ s.keyword? = some k := by
  unfold landmark? at h
  split at h
  · cases h
  · next hopen =>
    split at h
    · cases h
    · next hclose => exact ⟨by simpa using hopen, by simpa using hclose, by simpa using h⟩

theorem of_landmark?_none (h : s.landmark? = none) :
    s.isCode '{' = false ∧ s.isCode '}' = false ∧ s.keyword? = none := by
  unfold landmark? at h
  split at h
  · cases h
  · next hopen =>
    split at h
    · cases h
    · next hclose => exact ⟨by simpa using hopen, by simpa using hclose, by simpa using h⟩

theorem declaration?_of_keyword?_none (h : s.keyword? = none) : s.declaration? = none := by
  unfold keyword? at h
  unfold declaration?
  split
  · next hs =>
    rw [if_pos hs, Option.map_eq_none_iff] at h
    rw [h]
    rfl
  · rfl

theorem of_keyword? {k : Keyword} (h : s.keyword? = some k) :
    ∃ behind, s.char :: s.after = k.text ++ behind ∧
      s.declaration? = (Declaration.name? behind).map (⟨k, ·, s.offset⟩) := by
  unfold keyword? at h
  unfold declaration?
  split at h
  · next hs =>
    obtain ⟨⟨k', behind⟩, hfind, rfl⟩ := Option.map_eq_some_iff.mp h
    obtain ⟨k'', -, hk⟩ := List.exists_of_findSome?_eq_some hfind
    obtain ⟨rfl, htext, -⟩ := Declaration.afterKeyword?_eq_some_iff.mp hk
    refine ⟨behind, htext, ?_⟩
    rw [if_pos hs, hfind]
    rfl
  · cases h

theorem keyword?_of_before {c : Char} {before : Text} (hbefore : s.before = c :: before)
    (hc : isIdentifierChar c = true) : s.keyword? = none := by
  simp [keyword?, hbefore, Declaration.standsAlone, hc]

theorem utf8Size_of_isCode {c : Char} (h : s.isCode c = true) :
    s.char.utf8Size = c.utf8Size := by
  rw [(isCode_iff.mp h).2]

theorem not_brace_of_isIdentifierChar (h : isIdentifierChar s.char = true) :
    s.isCode '{' = false ∧ s.isCode '}' = false := by
  have hne : ∀ {d}, isIdentifierChar d = false → s.isCode d = false := by
    intro d hd
    rw [isCode, Bool.and_eq_false_iff]
    refine Or.inr (beq_eq_false_iff_ne.mpr ?_)
    rintro heq
    simp [heq, hd] at h
  exact ⟨hne (by rfl), hne (by rfl)⟩

/-- A stretch without landmarks. -/
def Quiet (spots : List Spot) : Prop := ∀ s ∈ spots, s.landmark? = none

variable {q r : List Spot}

theorem Quiet.not_brace (h : Quiet q) : ∀ s ∈ q, s.isCode '{' = false ∧ s.isCode '}' = false := by
  intro s hs
  obtain ⟨hopen, hclose, -⟩ := of_landmark?_none (h s hs)
  exact ⟨hopen, hclose⟩

theorem Quiet.declaration? (h : Quiet q) : ∀ s ∈ q, s.declaration? = none := fun s hs =>
  declaration?_of_keyword?_none (of_landmark?_none (h s hs)).2.2

theorem Quiet.bindings (h : Quiet q) (id : ModuleId) : Spot.bindings id q = [] := by
  rw [Spot.bindings, List.filterMap_eq_nil_iff.mpr h.declaration?]
  rfl

theorem Quiet.events (h : Quiet q) (id : ModuleId) (depth : Nat) :
    q.filterMap (Block.event? id depth) = [] := by
  refine List.filterMap_eq_nil_iff.mpr fun s hs => ?_
  rw [Block.event?, (h.not_brace s hs).2, h.declaration? s hs]
  rfl

theorem quiet_or_exists (r : List Spot) :
    Quiet r ∨ ∃ q s more mark, r = q ++ s :: more ∧ Quiet q ∧ s.landmark? = some mark := by
  induction r with
  | nil => exact Or.inl fun s hs => absurd hs List.not_mem_nil
  | cons s r ih =>
    cases hs : s.landmark? with
    | some mark => exact Or.inr ⟨[], s, r, mark, rfl, fun t ht => absurd ht List.not_mem_nil, hs⟩
    | none =>
      rcases ih with hr | ⟨q, t, more, mark, rfl, hq, ht⟩
      · exact Or.inl (List.forall_mem_cons.mpr ⟨hs, hr⟩)
      · exact Or.inr ⟨s :: q, t, more, mark, rfl, List.forall_mem_cons.mpr ⟨hs, hq⟩, ht⟩

end Spot

theorem exists_of_landmark?_declaration {code : Text} {l r : List Spot} {s : Spot} {k : Keyword}
    (h : spots code = l ++ s :: r) (hs : s.landmark? = some (.declaration k)) :
    ∃ tail rest, r = tail ++ rest ∧ Spot.text (s :: tail) = k.text ∧ Spot.Quiet tail ∧
      s.declaration? = (Declaration.name? (Spot.text rest)).map (⟨k, ·, s.offset⟩) := by
  obtain ⟨-, -, hk⟩ := Spot.of_landmark?_declaration hs
  obtain ⟨behind, htext, hdeclares⟩ := Spot.of_keyword? hk
  rw [(spots_around h).2] at htext
  obtain ⟨word, rest, hsplit, hword, rfl⟩ := List.map_eq_append_iff.mp
    (show (s :: r).map Spot.char = k.text ++ behind from htext)
  cases word with
  | nil => cases k <;> cases hword
  | cons t tail =>
    obtain ⟨rfl, rfl⟩ : s = t ∧ r = tail ++ rest := List.cons.inj hsplit
    refine ⟨tail, rest, rfl, hword, fun t ht => ?_, hdeclares⟩
    have hchar : ∀ t ∈ s :: tail, isIdentifierChar t.char = true := fun t ht =>
      isIdentifierChar_keyword k _ (hword ▸ List.mem_map_of_mem ht)
    obtain ⟨x, y, rfl⟩ := List.append_of_mem ht
    -- The character before is of the keyword too, so none stands alone here.
    obtain ⟨front, last, hlast⟩ := List.eq_nil_or_concat' (s :: x) |>.resolve_left (by simp)
    have hcode : spots code = (l ++ front ++ [last]) ++ t :: (y ++ rest) := by
      rw [h, List.append_assoc l, ← hlast]
      simp
    have hbefore : t.before = last.char :: (Spot.text (l ++ front)).reverse := by
      rw [(spots_around hcode).1]
      simp [Spot.text]
    have hmem : last ∈ s :: x := by
      rw [hlast]
      exact List.mem_append_right _ (List.mem_singleton_self last)
    have hnone := Spot.keyword?_of_before hbefore (hchar last (List.mem_append_left (t :: y) hmem))
    obtain ⟨hopen, hclose⟩ := Spot.not_brace_of_isIdentifierChar
      (hchar t (List.mem_cons_of_mem _ ht))
    rw [Spot.landmark?, hopen, hclose, hnone]
    rfl

namespace Block

variable {id : ModuleId} {depth : Nat} {s : Spot} {q r : List Spot}

/-- The block at the start of the spots; at depth 0 no brace ends it. -/
def ofDepth (depth : Nat) (spots : List Spot) : Block :=
  if depth = 0 then whole spots else inside spots

theorem prepend_nil (b : Block) : prepend [] b = b := by cases b <;> rfl

theorem cons_eq_prepend (s : Spot) (b : Block) : cons s b = prepend [s] b := by cases b <;> rfl

theorem prepend_prepend (l m : List Spot) (b : Block) :
    prepend l (prepend m b) = prepend (l ++ m) b := by
  cases b <;> simp [prepend]

theorem prepend_nest (l own : List Spot) (inner rest : Block) :
    prepend l (nest own inner rest) = nest (l ++ own) inner rest := rfl

theorem prepend_empty (l : List Spot) : prepend l empty = plain l := by simp [empty, prepend]

theorem append_prepend (l : List Spot) (a b : Block) :
    append (prepend l a) b = prepend l (append a b) := by
  cases a with
  | plain own => exact (prepend_prepend l own b).symm
  | nest own inner rest => rfl

theorem foldl_append_prepend (l : List Spot) (b : Block) (more : List Block) :
    more.foldl append (prepend l b) = prepend l (more.foldl append b) := by
  induction more generalizing b with
  | nil => rfl
  | cons next more ih => rw [List.foldl_cons, append_prepend, ih, List.foldl_cons]

theorem foldl_append_nest (own : List Spot) (inner b : Block) (more : List Block) :
    more.foldl append (nest own inner b) = nest own inner (more.foldl append b) := by
  induction more generalizing b with
  | nil => rfl
  | cons next more ih => exact ih _

theorem bindings_prepend (id : ModuleId) (l : List Spot) (b : Block) :
    (prepend l b).bindings id = Spot.bindings id l ++ b.bindings id := by
  cases b <;> simp [prepend, bindings, Spot.bindings_append]

theorem events_prepend (id : ModuleId) (depth : Nat) (l : List Spot) (b : Block) :
    (prepend l b).events id depth false =
      l.filterMap (event? id depth) ++ b.events id depth false := by
  cases b <;> simp [prepend, events]

theorem events_prepend_closing (id : ModuleId) (depth : Nat) (s : Spot) (b : Block) :
    (prepend [s] b).events id depth true = b.events id depth false := by
  cases b <;> rfl

theorem ofDepth_nil (depth : Nat) : ofDepth depth [] = empty := by
  unfold ofDepth
  split <;> rfl

theorem ofDepth_cons (depth : Nat) (r : List Spot) (hopen : s.isCode '{' = false)
    (hclose : s.isCode '}' = false) : ofDepth depth (s :: r) = prepend [s] (ofDepth depth r) := by
  unfold ofDepth
  split
  · rw [whole, levels_plain r hopen hclose, cons_eq_prepend, foldl_append_prepend]
    rfl
  · rw [inside, levels_plain r hopen hclose, cons_eq_prepend]
    rfl

theorem ofDepth_append (depth : Nat) (r : List Spot)
    (hq : ∀ s ∈ q, s.isCode '{' = false ∧ s.isCode '}' = false) :
    ofDepth depth (q ++ r) = prepend q (ofDepth depth r) := by
  induction q with
  | nil => exact (prepend_nil _).symm
  | cons s q ih =>
    obtain ⟨⟨hopen, hclose⟩, hq'⟩ := List.forall_mem_cons.mp hq
    rw [List.cons_append, ofDepth_cons depth _ hopen hclose, ih hq', prepend_prepend]
    rfl

theorem ofDepth_zero_close (r : List Spot) (h : s.isCode '}' = true) :
    ofDepth 0 (s :: r) = prepend [s] (ofDepth 0 r) := by
  rw [ofDepth, if_pos rfl, whole, levels_close r h, List.foldl_cons, cons_eq_prepend,
    empty, append, prepend_prepend, List.nil_append, foldl_append_prepend]
  rfl

theorem ofDepth_close (r : List Spot) (hdepth : 0 < depth) (h : s.isCode '}' = true) :
    ofDepth depth (s :: r) = empty := by
  rw [ofDepth, if_neg hdepth.ne', inside, levels_close r h]

/-- The first of the blocks that the spots finish takes all of them, or ends before a closing brace,
with which the blocks behind it begin. -/
theorem levels_cases (r : List Spot) :
    (levels r).2 = [] ∧ (levels r).1.spots = r ∨
      ∃ brace rest, brace.isCode '}' = true ∧ r = (levels r).1.spots ++ brace :: rest ∧
        (levels r).2 = cons brace (levels rest).1 :: (levels rest).2 := by
  induction hn : r.length using Nat.strong_induction_on generalizing r with
  | _ n ih =>
    cases r with
    | nil => exact Or.inl ⟨rfl, rfl⟩
    | cons s r =>
      have hlength : r.length < n := by rw [← hn]; exact Nat.lt_succ_self _
      rcases s.brace_cases with hopen | hclose | ⟨hopen, hclose⟩
      · rw [levels_open r hopen]
        rcases ih _ hlength r rfl with ⟨hnone, hall⟩ | ⟨brace, rest, hbrace, hr, houter⟩
        · exact Or.inl ⟨by simp [hnone], by simp [hnone, spots, hall, empty]⟩
        · -- The block that is opened here ends, and what follows it ends the one around it.
          have hrest : rest.length < n := by
            have := congrArg List.length hr
            simp only [List.length_append, List.length_cons] at this
            omega
          simp only [houter, List.headD_cons, List.tail_cons, spots, spots_cons]
          rcases ih _ hrest rest rfl with ⟨hnone, hall⟩ | ⟨brace', rest', hbrace', hr', houter'⟩
          · refine Or.inl ⟨hnone, ?_⟩
            rw [hall, List.append_assoc, ← hr]
            rfl
          · refine Or.inr ⟨brace', rest', hbrace', ?_, houter'⟩
            conv_lhs => rw [hr, hr']
            simp
      · rw [levels_close r hclose]
        exact Or.inr ⟨s, r, hclose, rfl, rfl⟩
      · rw [levels_plain r hopen hclose]
        rcases ih _ hlength r rfl with ⟨hnone, hall⟩ | ⟨brace, rest, hbrace, hr, houter⟩
        · exact Or.inl ⟨hnone, by rw [spots_cons, hall]⟩
        · refine Or.inr ⟨brace, rest, hbrace, ?_, houter⟩
          rw [spots_cons, List.cons_append, ← hr]

theorem ofDepth_cases (depth : Nat) (r : List Spot) : (ofDepth depth r).spots = r ∨
    ∃ brace rest, brace.isCode '}' = true ∧ r = (ofDepth depth r).spots ++ brace :: rest := by
  unfold ofDepth
  split
  · exact Or.inl (spots_whole r)
  · rcases levels_cases r with ⟨-, hall⟩ | ⟨brace, rest, hbrace, hr, -⟩
    · exact Or.inl hall
    · exact Or.inr ⟨brace, rest, hbrace, hr⟩

theorem exists_append_ofDepth (depth : Nat) (r : List Spot) :
    ∃ rest, r = (ofDepth depth r).spots ++ rest := by
  rcases ofDepth_cases depth r with hall | ⟨brace, rest, -, hr⟩
  · exact ⟨[], by rw [hall, List.append_nil]⟩
  · exact ⟨brace :: rest, hr⟩

/-- Behind an opening brace lies a block, and the block around it goes on with the brace that closes
that one, if there is such a brace. -/
theorem ofDepth_open (depth : Nat) (r : List Spot) (h : s.isCode '{' = true) :
    ∃ lead rest, (lead = [] ∧ rest = [] ∨ ∃ brace, brace.isCode '}' = true ∧ lead = [brace]) ∧
      r = (inside r).spots ++ (lead ++ rest) ∧
      ofDepth depth (s :: r) = nest [s] (inside r) (prepend lead (ofDepth depth rest)) := by
  rcases levels_cases r with ⟨hnone, hall⟩ | ⟨brace, rest, hbrace, hr, houter⟩
  · refine ⟨[], [], Or.inl ⟨rfl, rfl⟩, by rw [inside, hall]; simp, ?_⟩
    rw [ofDepth_nil, prepend_nil, ofDepth, whole, inside, levels_open r h, hnone]
    split <;> rfl
  · refine ⟨[brace], rest, Or.inr ⟨brace, hbrace, rfl⟩, hr, ?_⟩
    rw [ofDepth, ofDepth, whole, inside, whole, inside, levels_open r h, houter]
    split
    · rw [foldl_append_nest, List.headD_cons, List.tail_cons, cons_eq_prepend, foldl_append_prepend]
    · rw [List.headD_cons, cons_eq_prepend]
      rfl

end Block

end ScriptBundle
