import ScriptBundle.Proofs.Script.Copies

/-! Undoing the namespacing of a module. Without a seed, all that is put into the text is the id and
an underscore in front of whole names. Where that word did not occur before, it then occurs just
where it was put in, and erasing it gives the source back. -/
namespace ScriptBundle

namespace Text

/-- The text without the occurrences of a word, which are looked for from left to right and do not
overlap, after `skip` characters that belong to an occurrence already found. -/
def eraseFrom (word : Text) : Nat → Text → Text
  | _, [] => []
  | skip + 1, _ :: rest => eraseFrom word skip rest
  | 0, c :: rest =>
    if word.isPrefixOf (c :: rest) then eraseFrom word (word.length - 1) rest
    else c :: eraseFrom word 0 rest

def erase (word text : Text) : Text := eraseFrom word 0 text

theorem eraseFrom_append (word front rest : Text) :
    eraseFrom word front.length (front ++ rest) = erase word rest := by
  induction front with
  | nil => rfl
  | cons c front ih => exact ih

theorem erase_append_self {word : Text} (hword : word ≠ []) (rest : Text) :
    erase word (word ++ rest) = erase word rest := by
  obtain ⟨c, word, rfl⟩ := List.exists_cons_of_ne_nil hword
  have hfound : (c :: word).isPrefixOf (c :: word ++ rest) = true :=
    List.isPrefixOf_iff_prefix.mpr (List.prefix_append _ _)
  rw [List.cons_append] at hfound ⊢
  rw [erase, eraseFrom, if_pos hfound]
  exact eraseFrom_append (c :: word) word rest

theorem erase_cons {word : Text} {c : Char} {rest : Text} (h : ¬ word <+: c :: rest) :
    erase word (c :: rest) = c :: erase word rest := by
  have hnot : ¬ word.isPrefixOf (c :: rest) = true := mt List.isPrefixOf_iff_prefix.mp h
  rw [erase, eraseFrom, if_neg hnot]
  rfl

end Text

/-- Spots, some of them with a word to be put in front. -/
abbrev Stamped := List (Spot × Bool)

namespace Stamped

def source (l : Stamped) : Text := l.map fun x => x.1.char

def text (word : Text) (l : Stamped) : Text :=
  l.flatMap fun x => if x.2 then word ++ [x.1.char] else [x.1.char]

/-- The word is put in only behind what is no character of an identifier. -/
def Spaced (l : Stamped) : Prop :=
  l.IsChain fun x y => y.2 = true → isIdentifierChar x.1.char = false

theorem text_cons (word : Text) (x : Spot × Bool) (l : Stamped) :
    text word (x :: l) = if x.2 then word ++ x.1.char :: text word l
      else x.1.char :: text word l := by
  cases hx : x.2 <;> simp [text, hx]

/-- Characters of identifiers that follow one after the other are those of the source, up to where
the word is put in again. -/
theorem prefix_source {word u : Text} (hu : ∀ c ∈ u, isIdentifierChar c = true) {x : Spot × Bool}
    {l : Stamped} (hspaced : Spaced (x :: l)) (h : u <+: x.1.char :: text word l) :
    u <+: source (x :: l) := by
  induction l generalizing u x with
  | nil => simpa [text, source] using h
  | cons y l ih =>
    cases u with
    | nil => exact List.nil_prefix
    | cons c u =>
      obtain ⟨rfl, hrest⟩ := List.cons_prefix_cons.mp h
      obtain ⟨hxy, hspaced⟩ := List.isChain_cons_cons.mp hspaced
      have hy : y.2 = false := by
        cases hy : y.2 with
        | false => rfl
        | true => simp [hu _ List.mem_cons_self] at hxy; simp [hxy] at hy
      rw [text_cons, hy] at hrest
      exact List.cons_prefix_cons.mpr
        ⟨rfl, ih (fun d hd => hu d (List.mem_cons_of_mem _ hd)) hspaced (by simpa using hrest)⟩

theorem erase_text {word : Text} (hword : word ≠ [])
    (hchars : ∀ c ∈ word, isIdentifierChar c = true) {l : Stamped} (hspaced : Spaced l)
    (hfresh : ¬ word <:+: source l) : Text.erase word (text word l) = source l := by
  induction l with
  | nil => rfl
  | cons x l ih =>
    have hrest : Text.erase word (text word l) = source l := by
      refine ih (List.IsChain.tail hspaced) fun hinfix => hfresh ?_
      exact hinfix.trans (List.suffix_cons _ _).isInfix
    have hkept : Text.erase word (x.1.char :: text word l) = source (x :: l) := by
      rw [Text.erase_cons fun h => hfresh (prefix_source hchars hspaced h).isInfix, hrest]
      rfl
    rw [text_cons]
    split
    · rw [Text.erase_append_self hword, hkept]
    · exact hkept

end Stamped

theorem spotsFrom_isChain (s : LexState) (before : Text) (offset : Nat) (code : Text) :
    (spotsFrom s before offset code).IsChain fun x y => y.before = x.char :: x.before := by
  induction code generalizing s before offset with
  | nil => exact .nil
  | cons c code ih =>
    refine List.isChain_cons.mpr ⟨fun y hy => ?_, ih _ _ _⟩
    cases code with
    | nil => simp [spotsFrom] at hy
    | cons d code =>
      obtain rfl := Option.some.inj hy
      rfl

namespace Copy

def stamped : Copy → Stamped
  | kept s => [(s, false)]
  | put [] _ => []
  | put (s :: name) _ => (s, true) :: name.map (·, false)

/-- The qualified name is the name with the word in front. -/
def Prefixes (word : Text) : Copy → Prop
  | kept _ => True
  | put name qualified => ∃ b, isIdentifier b.name = true ∧ b.qualified = word ++ b.name ∧
      PutBy b name qualified

variable {word : Text} {part : Copy}

theorem map_stamped (part : Copy) : part.stamped.map (·.1) = part.source := by
  rcases part with s | ⟨_ | ⟨s, name⟩, qualified⟩ <;> simp [stamped, source, Function.comp_def]

theorem text_stamped (h : part.Prefixes word) : Stamped.text word part.stamped = part.text := by
  cases part with
  | kept s => simp [stamped, Stamped.text, text]
  | put name qualified =>
    obtain ⟨b, -, hqualified, hput⟩ := h
    obtain ⟨s, rest, rfl, -⟩ := hput.exists_cons
    have hrest : Stamped.text word (rest.map (·, false)) = Spot.text rest := by
      rw [Stamped.text, List.flatMap_map]
      simp [Spot.text, ← List.map_eq_flatMap]
    rw [stamped, Stamped.text_cons, hrest, text, hput.qualified_eq, hqualified, ← hput.text_eq]
    rfl

theorem opens_of_mem_stamped (h : part.Prefixes word) {x : Spot × Bool} (hx : x ∈ part.stamped)
    (hflag : x.2 = true) : Spot.opensAfter x.1.before = true := by
  cases part with
  | kept s =>
    obtain rfl := List.mem_singleton.mp hx
    simp at hflag
  | put name qualified =>
    obtain ⟨b, -, -, hput⟩ := h
    obtain ⟨s, rest, rfl, hopens⟩ := hput.exists_cons
    rcases List.mem_cons.mp hx with rfl | hx
    · exact hopens
    · obtain ⟨t, -, rfl⟩ := List.mem_map.mp hx
      simp at hflag

end Copy

namespace ModuleId

/-- What qualified names begin with. -/
def stamp (id : ModuleId) : Text := id.text ++ ['_']

theorem qualify_eq_append (id : ModuleId) (name : Text) : id.qualify name = id.stamp ++ name := by
  simp [qualify, stamp]

end ModuleId

section

variable (code : Text) (id : ModuleId)

theorem prefixes_of_mem_copies : ∀ part ∈ copies code id [], part.Prefixes id.stamp := by
  intro part hpart
  cases part with
  | kept s => trivial
  | put name qualified =>
    obtain ⟨b, hb, hput⟩ := putBy_of_mem_copies code id hpart
    obtain ⟨hname, hqualified⟩ := hb.resolve_left List.not_mem_nil
    exact ⟨b, hname, hqualified.trans (id.qualify_eq_append b.name), hput⟩

def stampedCopies : Stamped := (copies code id []).flatMap Copy.stamped

theorem map_stampedCopies : (stampedCopies code id).map (·.1) = spots code := by
  rw [stampedCopies, List.map_flatMap, ← source_copies code id []]
  exact List.flatMap_congr fun part _ => part.map_stamped

theorem source_stampedCopies : (stampedCopies code id).source = code := by
  have h := congrArg (List.map Spot.char) (map_stampedCopies code id)
  rw [List.map_map] at h
  exact h.trans (text_spots code)

theorem text_stampedCopies :
    (stampedCopies code id).text id.stamp = (namespaceModule code id []).code := by
  rw [← text_copies code id (by simp), stampedCopies, Stamped.text, List.flatMap_assoc]
  exact List.flatMap_congr fun part hpart =>
    Copy.text_stamped (prefixes_of_mem_copies code id part hpart)

theorem spaced_stampedCopies : (stampedCopies code id).Spaced := by
  have hchain := spotsFrom_isChain .start [] 0 code
  rw [show spotsFrom .start [] 0 code = spots code from rfl, ← map_stampedCopies code id,
    List.isChain_map] at hchain
  refine hchain.imp_of_mem_imp fun x y _ hy hxy hflag => ?_
  obtain ⟨part, hpart, hy⟩ := List.mem_flatMap.mp hy
  have hopens := Copy.opens_of_mem_stamped (prefixes_of_mem_copies code id part hpart) hy hflag
  rw [hxy] at hopens
  exact Spot.not_isIdentifierChar_of_opensAfter hopens

end

/-- **Namespacing is undone by erasing the stamp.** Where the stamp of a module does not occur in
its text, the namespaced text with all stamps erased is that text. The pass puts the stamp in front
of whole names and changes nothing else, and two names stay two. -/
theorem erase_namespaceModule (code : Text) (id : ModuleId)
    (hid : ∀ c ∈ id.text, isIdentifierChar c = true) (hfresh : ¬ id.stamp <:+: code) :
    Text.erase id.stamp (namespaceModule code id []).code = code ∧
      (copies code id []).flatMap Copy.source = spots code ∧
      (copies code id []).flatMap Copy.text = (namespaceModule code id []).code ∧
      (∀ part ∈ copies code id [], part.Prefixes id.stamp) ∧
      ∀ x y, x <:+: code → y <:+: code → ∀ x' ∈ [x, id.qualify x], ∀ y' ∈ [y, id.qualify y],
        x' = y' → x = y := by
  have hchars : ∀ c ∈ id.stamp, isIdentifierChar c = true := by
    intro c hc
    rcases List.mem_append.mp hc with hc | hc
    · exact hid c hc
    · obtain rfl := List.mem_singleton.mp hc
      rfl
  refine ⟨?_, source_copies code id [], text_copies code id (by simp),
    prefixes_of_mem_copies code id, fun x y hx hy => ?_⟩
  · rw [← text_stampedCopies, Stamped.erase_text (by simp [ModuleId.stamp]) hchars
      (spaced_stampedCopies code id) (by rwa [source_stampedCopies]), source_stampedCopies]
  · have hstamp : ∀ {z z'}, z <:+: code → z ≠ id.qualify z' := by
      rintro _ z' hz rfl
      rw [id.qualify_eq_append] at hz
      exact hfresh ((List.prefix_append _ _).isInfix.trans hz)
    simp only [List.mem_cons, List.not_mem_nil, or_false, forall_eq_or_imp, forall_eq]
    refine ⟨⟨fun h => h, fun h => absurd h (hstamp hx)⟩, fun h => absurd h.symm (hstamp hy),
      fun h => ?_⟩
    rwa [id.qualify_eq_append, id.qualify_eq_append, List.append_cancel_left_eq] at h

/-- A name that is part of the stamp: only the two characters put in are taken out again. -/
theorem erase_namespaceModule_underscore :
    let code := "\x7b let _ = 1;f(..._)\x7d _ \x7b\x7d\x7d".toList
    let id : ModuleId := ⟨['_']⟩
    ((∀ c ∈ id.text, isIdentifierChar c = true) ∧ ¬ id.stamp <:+: code) ∧
      Text.erase ['_', '_'] "\x7b let ___ = 1;f(...___)\x7d _ \x7b\x7d\x7d".toList = code := by
  intro code id
  have hid : ∀ c ∈ id.text, isIdentifierChar c = true := List.all_eq_true.mp (by decide +kernel)
  have hfresh : ¬ id.stamp <:+: code := by decide +kernel
  have hout : (namespaceModule code id []).code =
      "\x7b let ___ = 1;f(...___)\x7d _ \x7b\x7d\x7d".toList := by decide +kernel
  refine ⟨⟨hid, hfresh⟩, ?_⟩
  rw [← hout]
  exact (erase_namespaceModule code id hid hfresh).1

end ScriptBundle
