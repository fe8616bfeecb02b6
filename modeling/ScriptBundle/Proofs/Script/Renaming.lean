import Mathlib.Data.List.Basic
import ScriptBundle.Script.Rename

/-! Where a bound name stands, and when a stretch may be cut in two before its names are replaced.
Braces are such cuts for every name that holds none. -/
namespace ScriptBundle

theorem Spot.isCode_iff {s : Spot} {c : Char} : s.isCode c = true ↔ s.code = true ∧ s.char = c := by
  simp [Spot.isCode]

/-- A name stands at the start of the spots when it is their text up to a last spot, all of it
code, and a boundary follows. -/
theorem standsAt_iff {name : Text} {spots : List Spot} :
    standsAt name spots = true ↔
      ∃ front last rest, spots = front ++ last :: rest ∧ name = Spot.text front ++ [last.char] ∧
        (∀ s ∈ front, s.code = true) ∧ last.code = true ∧ Spot.closesBefore last.after = true := by
  induction name generalizing spots with
  | nil => simp [standsAt]
  | cons c name ih =>
    cases spots with
    | nil => simp [standsAt]
    | cons s spots =>
      cases name with
      | nil =>
        simp only [standsAt, Bool.and_eq_true, Spot.isCode_iff]
        constructor
        · rintro ⟨⟨hcode, rfl⟩, hend⟩
          exact ⟨[], s, spots, rfl, rfl, by simp, hcode, hend⟩
        · rintro ⟨front, last, rest, hs, hname, -, hcode, hend⟩
          cases front with
          | nil =>
            obtain ⟨rfl, rfl⟩ := List.cons.inj hs
            exact ⟨⟨hcode, by simpa [Spot.text] using hname.symm⟩, hend⟩
          | cons t front => simp [Spot.text] at hname
      | cons d name =>
        simp only [standsAt, Bool.and_eq_true, Spot.isCode_iff, ih]
        constructor
        · rintro ⟨⟨hcode, rfl⟩, front, last, rest, rfl, hname, hfront, hlast, hend⟩
          refine ⟨s :: front, last, rest, rfl, by simp [Spot.text, hname], ?_, hlast, hend⟩
          intro t ht
          rcases List.mem_cons.mp ht with rfl | ht
          · exact hcode
          · exact hfront t ht
        · rintro ⟨front, last, rest, hs, hname, hfront, hlast, hend⟩
          cases front with
          | nil => simp [Spot.text] at hname
          | cons t front =>
            obtain ⟨rfl, rfl⟩ := List.cons.inj hs
            have hn : c = s.char ∧ d :: name = Spot.text front ++ [last.char] := by
              simpa [Spot.text] using hname
            exact ⟨⟨hfront s (by simp), hn.1.symm⟩, front, last, rest, rfl, hn.2,
              fun t ht => hfront t (by simp [ht]), hlast, hend⟩

theorem standsAt_append {name : Text} {l : List Spot} (r : List Spot)
    (h : standsAt name l = true) : standsAt name (l ++ r) = true := by
  obtain ⟨front, last, rest, rfl, hname, hfront, hlast, hend⟩ := standsAt_iff.mp h
  exact standsAt_iff.mpr ⟨front, last, rest ++ r, by simp, hname, hfront, hlast, hend⟩

theorem length_le_of_standsAt {name : Text} {spots : List Spot} (h : standsAt name spots = true) :
    name.length ≤ spots.length := by
  obtain ⟨front, last, rest, rfl, rfl, -⟩ := standsAt_iff.mp h
  simp [Spot.text]

theorem take_text (front : List Spot) (last : Spot) (rest : List Spot) :
    (front ++ last :: rest).take (Spot.text front ++ [last.char]).length = front ++ [last] := by
  have hlen : (Spot.text front ++ [last.char]).length = (front ++ [last]).length := by
    simp [Spot.text]
  rw [hlen, List.append_cons front last rest, List.take_left]

theorem mem_of_standsAt {name : Text} {spots : List Spot} (h : standsAt name spots = true)
    {s : Spot} (hs : s ∈ spots.take name.length) : s.char ∈ name := by
  obtain ⟨front, last, rest, rfl, rfl, -⟩ := standsAt_iff.mp h
  rw [take_text] at hs
  rcases List.mem_append.mp hs with hs | hs
  · exact List.mem_append_left _ (List.mem_map_of_mem hs)
  · simp [List.mem_singleton.mp hs]

/-- No bound name lies across the point between the two stretches. -/
def Seam (bindings : List Binding) (l r : List Spot) : Prop :=
  ∀ front s back, l = front ++ s :: back → ∀ b ∈ bindings,
    standsAt b.name (s :: back ++ r) = true → standsAt b.name (s :: back) = true

theorem Seam.behind {bindings : List Binding} {front l r : List Spot}
    (h : Seam bindings (front ++ l) r) : Seam bindings l r :=
  fun more t back hl => h (front ++ more) t back (by simp [hl])

theorem Seam.filter_eq {bindings : List Binding} {s : Spot} {l r : List Spot}
    (h : Seam bindings (s :: l) r) :
    bindings.filter (fun b => b.since ≤ s.offset && standsAt b.name (s :: l ++ r)) =
      bindings.filter (fun b => b.since ≤ s.offset && standsAt b.name (s :: l)) := by
  apply List.filter_congr
  intro b hb
  have hiff : standsAt b.name (s :: l ++ r) = true ↔ standsAt b.name (s :: l) = true :=
    ⟨h [] s l rfl b hb, standsAt_append r⟩
  rw [Bool.eq_iff_iff.mpr hiff]

theorem Seam.bindingAt_eq {bindings : List Binding} {s : Spot} {l r : List Spot}
    (h : Seam bindings (s :: l) r) :
    bindingAt bindings (s :: l ++ r) = bindingAt bindings (s :: l) := by
  simp only [List.cons_append, bindingAt]
  rw [← List.cons_append, h.filter_eq]

theorem mem_of_longest {bindings : List Binding} {b : Binding} (h : longest bindings = some b) :
    b ∈ bindings := by
  induction bindings generalizing b with
  | nil => simp [longest] at h
  | cons a bindings ih =>
    unfold longest at h
    split at h
    · obtain rfl := Option.some.inj h
      exact List.mem_cons_self
    · next c hc =>
      split at h
      · obtain rfl := Option.some.inj h
        exact List.mem_cons_of_mem _ (ih hc)
      · obtain rfl := Option.some.inj h
        exact List.mem_cons_self

theorem of_bindingAt {bindings : List Binding} {s : Spot} {rest : List Spot} {b : Binding}
    (h : bindingAt bindings (s :: rest) = some b) :
    b ∈ bindings ∧ b.since ≤ s.offset ∧ standsAt b.name (s :: rest) = true := by
  simp only [bindingAt] at h
  split at h
  · simpa using List.mem_filter.mp (mem_of_longest h)
  · simp at h

/-- A stretch and what follows it have their names replaced apart when at each place of the stretch
the same is chosen with what follows and without. -/
theorem renameFrom_append_of_bindingAt {bindings : List Binding} {skip : Nat} {l r : List Spot}
    (h : ∀ front s back, l = front ++ s :: back →
      bindingAt bindings (s :: back ++ r) = bindingAt bindings (s :: back))
    (hskip : skip ≤ l.length) :
    renameFrom bindings skip (l ++ r) = renameFrom bindings skip l ++ renameFrom bindings 0 r := by
  induction l generalizing skip with
  | nil =>
    obtain rfl : skip = 0 := by simpa using hskip
    simp [renameFrom]
  | cons s l ih =>
    have htail : ∀ front t back, l = front ++ t :: back →
        bindingAt bindings (t :: back ++ r) = bindingAt bindings (t :: back) :=
      fun front t back hl => h (s :: front) t back (by simp [hl])
    cases skip with
    | succ skip => exact ih htail (by simpa using hskip)
    | zero =>
      have hat := h [] s l rfl
      simp only [List.cons_append] at hat ⊢
      simp only [renameFrom, hat]
      cases hb : bindingAt bindings (s :: l) with
      | none => simp [ih htail (Nat.zero_le _)]
      | some b =>
        have hlen := length_le_of_standsAt (of_bindingAt hb).2.2
        have hle : b.name.length - 1 ≤ l.length := by simp only [List.length_cons] at hlen; omega
        simp [ih htail hle]

theorem renameFrom_append {bindings : List Binding} {skip : Nat} {l r : List Spot}
    (hseam : Seam bindings l r) (hskip : skip ≤ l.length) :
    renameFrom bindings skip (l ++ r) = renameFrom bindings skip l ++ renameFrom bindings 0 r := by
  refine renameFrom_append_of_bindingAt (fun front s back hl => ?_) hskip
  rw [hl] at hseam
  exact hseam.behind.bindingAt_eq

theorem renameFrom_congr {bindings others : List Binding} {skip : Nat} {spots : List Spot}
    (h : ∀ front s back, spots = front ++ s :: back →
      bindingAt bindings (s :: back) = bindingAt others (s :: back)) :
    renameFrom bindings skip spots = renameFrom others skip spots := by
  induction spots generalizing skip with
  | nil => cases skip <;> rfl
  | cons s spots ih =>
    have ih' := fun k => @ih k fun front t back hspots => h (s :: front) t back (by simp [hspots])
    cases skip with
    | succ skip => exact ih' skip
    | zero => simp only [renameFrom, h [] s spots rfl, ih']

def isBrace (c : Char) : Bool := c == '{' || c == '}'

/-- The name holds no brace, so it lies within one stretch. -/
def Binding.Braceless (b : Binding) : Prop := '{' ∉ b.name ∧ '}' ∉ b.name

theorem Binding.Braceless.not_isBrace {b : Binding} (h : b.Braceless) {c : Char} (hc : c ∈ b.name) :
    isBrace c = false := by
  have h1 : c ≠ '{' := fun he => h.1 (he ▸ hc)
  have h2 : c ≠ '}' := fun he => h.2 (he ▸ hc)
  simp [isBrace, h1, h2]

/-- A brace on one side of a cut. -/
def BraceCut (l r : List Spot) : Prop :=
  r = [] ∨ (∃ s, l.getLast? = some s ∧ isBrace s.char = true) ∨
    ∃ s rest, r = s :: rest ∧ isBrace s.char = true

theorem BraceCut.cons {l r : List Spot} (h : BraceCut l r) (s : Spot) : BraceCut (s :: l) r := by
  rcases h with hnil | ⟨t, ht, hbrace⟩ | hhead
  · exact Or.inl hnil
  · exact Or.inr (Or.inl ⟨t, by simp [List.getLast?_cons, ht], hbrace⟩)
  · exact Or.inr (Or.inr hhead)

theorem Seam.of_braceCut {bindings : List Binding} {l r : List Spot} (hcut : BraceCut l r)
    (hb : ∀ b ∈ bindings, b.Braceless) : Seam bindings l r := by
  intro front s back hl b hmem h
  have hnot : ∀ t ∈ (s :: back ++ r).take b.name.length, isBrace t.char = false :=
    fun t ht => (hb b hmem).not_isBrace (mem_of_standsAt h ht)
  obtain ⟨inner, last, rest, hsplit, hname, hfront, hlast, hend⟩ := standsAt_iff.mp h
  rw [hsplit, hname, take_text] at hnot
  -- The name ends within the first part, or else it runs over the brace at the cut.
  rcases List.append_eq_append_iff.mp (show (s :: back) ++ r = (inner ++ [last]) ++ rest by
    simp [hsplit]) with ⟨more, hmore, hr⟩ | ⟨more, hmore, -⟩
  · have hin : ∀ t, t ∈ s :: back → isBrace t.char = false := fun t ht =>
      hnot t (by rw [hmore]; exact List.mem_append_left _ ht)
    cases more with
    | nil =>
      rw [List.append_nil] at hmore
      exact standsAt_iff.mpr
        ⟨inner, last, [], by simpa using hmore.symm, hname, hfront, hlast, hend⟩
    | cons t more =>
      rcases hcut with hcut | ⟨u, hu, hbrace⟩ | ⟨u, tail, hu, hbrace⟩
      · simp [hcut] at hr
      · have hmemu : u ∈ s :: back := by
          rw [hl, List.getLast?_append_of_ne_nil _ (by simp)] at hu
          exact List.mem_of_getLast? hu
        simp [hin u hmemu] at hbrace
      · rw [hu] at hr
        obtain ⟨rfl, -⟩ := List.cons.inj hr
        have := hnot u (by rw [hmore]; simp)
        simp [this] at hbrace
  · rw [hmore]
    exact standsAt_iff.mpr ⟨inner, last, more, by simp, hname, hfront, hlast, hend⟩

theorem bindingAt_append_of_later {bindings later : List Binding} {s : Spot} {rest : List Spot}
    (h : ∀ b ∈ later, s.offset < b.since) :
    bindingAt (bindings ++ later) (s :: rest) = bindingAt bindings (s :: rest) := by
  have hnil : later.filter (fun b => b.since ≤ s.offset && standsAt b.name (s :: rest)) = [] := by
    rw [List.filter_eq_nil_iff]
    intro b hb
    have := h b hb
    simp only [Bool.and_eq_true, decide_eq_true_eq, not_and]
    omega
  simp only [bindingAt, List.filter_append, hnil, List.append_nil]

theorem renameFrom_append_of_later {bindings later : List Binding} {skip : Nat} {spots : List Spot}
    (h : ∀ s ∈ spots, ∀ b ∈ later, s.offset < b.since) :
    renameFrom (bindings ++ later) skip spots = renameFrom bindings skip spots := by
  refine renameFrom_congr fun front s back hspots => ?_
  exact bindingAt_append_of_later (h s (by simp [hspots]))

end ScriptBundle
