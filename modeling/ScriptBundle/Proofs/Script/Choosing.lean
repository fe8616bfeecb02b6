import ScriptBundle.Proofs.Script.Replacement

/-! Choosing among bindings. Names that are found at one place all begin the text there, so those of
one length are one name, and the chosen binding is the last one found of its name. What is chosen
therefore depends on the bindings of each name and their order, but not on how the names are
interleaved, nor on names that are found nowhere. -/
namespace ScriptBundle

def bindingsOf (name : Text) (bindings : List Binding) : List Binding :=
  bindings.filter (·.name = name)

/-- Each name that is found in the stretch, of either list, has the same bindings in both. -/
def BindAlike (code : Text) (start stop : Nat) (bindings others : List Binding) : Prop :=
  ∀ b ∈ bindings ++ others, (∃ i, b.FoundAt code start stop i) →
    bindingsOf b.name bindings = bindingsOf b.name others

variable {code : Text} {start stop i : Nat} {bindings others : List Binding} {a b : Binding}

theorem mem_bindingsOf : b ∈ bindingsOf b.name bindings ↔ b ∈ bindings := by
  simp [bindingsOf]

/-- Where two lists have the same bindings of a name, one that is in both has the same bindings of
its name behind it. -/
theorem exists_append_of_bindingsOf_eq {front back : List Binding}
    (h : bindingsOf b.name (front ++ b :: back) = bindingsOf b.name others) :
    ∃ front' back', others = front' ++ b :: back' ∧
      bindingsOf b.name back = bindingsOf b.name back' := by
  have hsplit : bindingsOf b.name others =
      bindingsOf b.name front ++ b :: bindingsOf b.name back := by
    rw [← h]
    simp [bindingsOf]
  obtain ⟨x, rest, rfl, -, hrest⟩ := List.filter_eq_append_iff.mp hsplit
  obtain ⟨y, back', rfl, -, -, hback⟩ := List.filter_eq_cons_iff.mp hrest
  exact ⟨x ++ y, back', by simp, hback.symm⟩

theorem Binding.FoundAt.name_eq (ha : a.FoundAt code start stop i)
    (hb : b.FoundAt code start stop i) (hlength : a.name.length = b.name.length) :
    a.name = b.name := by
  obtain ⟨before, after, hcode, hi, -⟩ := ha
  obtain ⟨before', after', hcode', hi', -⟩ := hb
  obtain ⟨-, hrest⟩ := List.append_inj (hcode.symm.trans hcode') (hi.trans hi'.symm)
  exact (List.append_inj hrest hlength).1

/-- A binding that is chosen in one list is chosen in another with the same bindings of its name,
when no longer name is found there. -/
theorem Binding.ChosenAt.of_bindingsOf_eq (hb : b.ChosenAt code start stop bindings i)
    (hsame : bindingsOf b.name bindings = bindingsOf b.name others)
    (hlength : ∀ a ∈ others, a.FoundAt code start stop i → a.name.length ≤ b.name.length) :
    b.ChosenAt code start stop others i := by
  obtain ⟨hfound, front, back, rfl, -, hback⟩ := hb
  obtain ⟨front', back', rfl, hbehind⟩ := exists_append_of_bindingsOf_eq hsame
  refine ⟨hfound, front', back', rfl, fun a ha => hlength a (by simp [ha]), fun a ha hfa => ?_⟩
  have hle := hlength a (by simp [ha]) hfa
  refine hle.lt_of_ne fun heq => ?_
  -- An equally long name is the same one, and then it also stands behind in the first list.
  have hname := hfa.name_eq hfound heq
  have hmem : a ∈ bindingsOf b.name back := by
    rw [hbehind, ← hname]
    exact mem_bindingsOf.mpr ha
  have hlt := hback a (List.mem_of_mem_filter hmem) hfa
  omega

namespace BindAlike

theorem symm (h : BindAlike code start stop bindings others) :
    BindAlike code start stop others bindings := by
  intro b hb hfound
  exact (h b (by simpa [or_comm] using hb) hfound).symm

theorem mem (h : BindAlike code start stop bindings others) (hb : b ∈ others)
    (hfound : b.FoundAt code start stop i) : b ∈ bindings := by
  rw [← mem_bindingsOf, h b (List.mem_append_right _ hb) ⟨i, hfound⟩, mem_bindingsOf]
  exact hb

theorem chosenAt (h : BindAlike code start stop bindings others)
    (hb : b.ChosenAt code start stop bindings i) : b.ChosenAt code start stop others i := by
  have hsame := h b (List.mem_append_left _ hb.mem) ⟨i, hb.1⟩
  exact hb.of_bindingsOf_eq hsame fun a ha hfa => hb.length_le (h.mem ha hfa) hfa

end BindAlike

section

variable {l more r : List Spot} {s : Spot} (hcode : spots code = l ++ (s :: more) ++ r)
  (hstart : start ≤ l.length) (hstop : stop = (l ++ (s :: more)).length)

include hcode hstart hstop

theorem bindingAt_eq_some_iff : bindingAt bindings (s :: more) = some b ↔
    b.ChosenAt code start stop bindings l.length := by
  constructor
  · exact chosenAt_of_bindingAt hcode hstart hstop
  · intro hb
    cases ha : bindingAt bindings (s :: more) with
    | some a => rw [hb.unique (chosenAt_of_bindingAt hcode hstart hstop ha)]
    | none => exact absurd hb.1 (not_foundAt_of_bindingAt hcode hstart hstop ha hb.mem)

theorem BindAlike.bindingAt_eq (h : BindAlike code start stop bindings others) :
    bindingAt bindings (s :: more) = bindingAt others (s :: more) := by
  apply Option.ext
  intro b
  rw [bindingAt_eq_some_iff hcode hstart hstop, bindingAt_eq_some_iff hcode hstart hstop]
  exact ⟨h.chosenAt, h.symm.chosenAt⟩

end

theorem BindAlike.rename_eq {l m r : List Spot} (hcode : spots code = l ++ m ++ r)
    (hstart : start ≤ l.length) (hstop : stop = (l ++ m).length)
    (h : BindAlike code start stop bindings others) : rename bindings m = rename others m := by
  refine renameFrom_congr fun front s back hm => ?_
  subst hm
  have hfront : spots code = (l ++ front) ++ (s :: back) ++ r := by simpa using hcode
  refine h.bindingAt_eq hfront ?_ ?_
  · rw [List.length_append]
    omega
  · rw [hstop, List.append_assoc]

/-- **Names are replaced name by name.** Of a text and any stretch of it, two lists of bindings give
the same when they have the same bindings of each name in the same order, in whatever way the names
are interleaved. Names that are found nowhere in the stretch do not count: their bindings may be
added, left out and moved. -/
theorem rename_name_by_name (before range after : Text) (bindings others : List Binding) :
    let code := before ++ range ++ after
    let stretch := Spot.range (Text.width before) (Text.width (before ++ range)) (spots code)
    ((∀ name, bindingsOf name bindings = bindingsOf name others) →
      rename bindings stretch = rename others stretch) ∧
    (BindAlike code before.length (before ++ range).length bindings others →
      rename bindings stretch = rename others stretch) := by
  intro code stretch
  obtain ⟨l, m, r, hcode, hl, hm, -⟩ := exists_spots_eq before range after
  have hstretch : stretch = m := by
    have hrange := range_eq hcode
    rwa [Spot.text_append, hl, hm] at hrange
  have hstart : before.length = l.length := by simp [← hl, Spot.text]
  have hstop : (before ++ range).length = (l ++ m).length := by simp [← hl, ← hm, Spot.text]
  have halike : BindAlike code before.length (before ++ range).length bindings others →
      rename bindings stretch = rename others stretch := by
    rw [hstretch]
    exact BindAlike.rename_eq hcode hstart.le hstop
  exact ⟨fun hsame => halike fun b _ _ => hsame b.name, halike⟩

/-- Two lists with the same names in other places, and a third with one that the text does not
hold. -/
theorem rename_name_by_name_dotted :
    let before := "f(".toList
    let range := "module.exports(x), module, x".toList
    let after := ".k)".toList
    let outer : Binding := ⟨"x".toList, "A".toList, 0⟩
    let inner : Binding := ⟨"x".toList, "B".toList, 20⟩
    let target : Binding := ⟨"module.exports".toList, "M".toList, 0⟩
    let object : Binding := ⟨"module".toList, "N".toList, 0⟩
    let stray : Binding := ⟨"y".toList, "C".toList, 0⟩
    let stretch := Spot.range (Text.width before) (Text.width (before ++ range))
      (spots (before ++ range ++ after))
    (∀ name, bindingsOf name [object, outer, target, inner] =
        bindingsOf name [outer, inner, target, object]) ∧
      BindAlike (before ++ range ++ after) before.length (before ++ range).length
        [object, outer, target, inner] [stray, target, outer, object, inner] ∧
      rename [outer, inner, target, object] stretch = "M(A), N, B".toList ∧
      rename [stray, target, outer, object, inner] stretch = "M(A), N, B".toList := by
  intro before range after outer inner target object stray stretch
  have hsame : ∀ name, bindingsOf name [object, outer, target, inner] =
      bindingsOf name [outer, inner, target, object] := by
    intro name
    by_cases hx : outer.name = name
    · subst hx
      decide
    · by_cases hobject : object.name = name
      · subst hobject
        decide
      · have hinner : inner.name ≠ name := hx
        simp [bindingsOf, List.filter_cons, hx, hinner, hobject]
  have halike : BindAlike (before ++ range ++ after) before.length (before ++ range).length
      [object, outer, target, inner] [stray, target, outer, object, inner] := by
    rintro b hb ⟨i, front, back, hcode, -⟩
    by_cases hstray : b = stray
    · have hmem : 'y' ∈ before ++ range ++ after := by
        rw [hcode, hstray]
        simp [stray]
      exact absurd hmem (by decide)
    · have hother : b = object ∨ b = outer ∨ b = target ∨ b = inner := by
        simpa [hstray, or_comm, or_left_comm, or_assoc] using hb
      rcases hother with rfl | rfl | rfl | rfl <;> decide
  have hout : rename [object, outer, target, inner] stretch = "M(A), N, B".toList := by
    decide +kernel
  have h := rename_name_by_name before range after
  exact ⟨hsame, halike, ((h _ _).1 hsame).symm.trans hout, ((h _ _).2 halike).symm.trans hout⟩

end ScriptBundle
