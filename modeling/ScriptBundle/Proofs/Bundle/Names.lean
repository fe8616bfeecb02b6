import ScriptBundle.Proofs.Bundle.Identities

/-! The names that a bundle brings in. A module owns its id and what its locals are called by that
id. All of these are identifiers, whatever the path is made of, and none is owned by two modules
whose paths' digests begin with different digits: the digits are of one length and stand in front of
all that could make up for the difference. -/
namespace ScriptBundle

theorem isIdentifier_append {x y : Text} (hx : isIdentifier x = true)
    (hy : ∀ c ∈ y, isIdentifierChar c = true) : isIdentifier (x ++ y) = true := by
  cases x with
  | nil => cases hx
  | cons c x =>
    simp only [isIdentifier, List.cons_append, List.all_append, Bool.and_eq_true,
      List.all_eq_true] at hx ⊢
    exact ⟨hx.1, hx.2, hy⟩

namespace ModuleId

variable {p q : Path} {x : Text}

/-- A module's own names: its id, and the names of its locals. -/
inductive Owns (id : ModuleId) : Text → Prop
  | self : id.Owns id.text
  | ofLocal {name : Text} (h : isIdentifier name = true) : id.Owns (id.qualify name)

theorem isIdentifier_ofPath (p : Path) : isIdentifier (ofPath p).text = true := by
  have hchars : ∀ c ∈ (ofPath p).text, isIdentifierChar c = true := fun c => isIdentifierChar_of_mem
  obtain ⟨tail, htail⟩ := lead_prefix p
  rw [← htail] at hchars ⊢
  exact isIdentifier_append (by rfl) fun c hc => hchars c (List.mem_append_right _ hc)

theorem Owns.isIdentifier (h : (ofPath p).Owns x) : isIdentifier x = true := by
  cases h with
  | self => exact isIdentifier_ofPath p
  | ofLocal hname =>
    refine isIdentifier_append (isIdentifier_ofPath p) fun c hc => ?_
    rcases List.mem_cons.mp hc with rfl | hc
    · rfl
    · exact isIdentifierChar_of_isIdentifier hname hc

theorem Owns.hash_prefix (h : (ofPath p).Owns x) : lead ++ hash p <+: x := by
  cases h with
  | self => exact ModuleId.hash_prefix p
  | ofLocal _ => exact (ModuleId.hash_prefix p).trans (List.prefix_append _ _)

theorem Owns.hash_eq (hp : (ofPath p).Owns x) (hq : (ofPath q).Owns x) : hash p = hash q :=
  hash_eq_of_prefix hp.hash_prefix hq.hash_prefix

end ModuleId

theorem isIdentifier_of_mem_declaredNames {code name : Text} (h : name ∈ declaredNames code) :
    isIdentifier name = true := by
  obtain ⟨d, hd, rfl⟩ := List.mem_map.mp h
  obtain ⟨s, -, hs⟩ := List.mem_filterMap.mp hd
  exact (Spot.of_declaration? hs).1

theorem Crafted.owns {tree : FileTree} {settings : Settings} {m : ReadyModule} {text : Text}
    {resolution : Resolution} {parts : List Copy}
    (h : Crafted tree settings m text resolution parts) {x : Text} (hx : x ∈ Copy.names parts) :
    m.id.Owns x := by
  obtain ⟨name, hput⟩ := Copy.mem_names.mp hx
  rcases h.replaced name x hput with ⟨-, rfl⟩ | ⟨hname, rfl⟩
  · exact .self
  · exact .ofLocal (isIdentifier_of_mem_declaredNames hname)

/-- **Names are identifiers, and modules of different digits share none.** This holds of all names
that two modules can own, and so of those that are put in place of declared names and of the export
target in the chunks of a bundle. -/
theorem bundle_names_owned {p q : Path} (hhash : ModuleId.hash p ≠ ModuleId.hash q) :
    (∀ x, (ModuleId.ofPath p).Owns x ∨ (ModuleId.ofPath q).Owns x → isIdentifier x = true) ∧
      (∀ x, (ModuleId.ofPath p).Owns x → ¬ (ModuleId.ofPath q).Owns x) ∧
      ∀ tree settings entry b, (bundle tree settings entry).outcome = .ok b →
        ∃ order : List ReadyModule, b.code = joinChunks (order.map ReadyModule.code) ∧
          (∀ p id, (p, id) ∈ b.registry.entries ↔ ∃ m ∈ order, m.path = p ∧ m.id = id) ∧
          (∀ m ∈ order, ∃ text resolution parts, Crafted tree settings m text resolution parts) ∧
          ∀ m ∈ order, m.path = p → ∀ d ∈ order, d.path = q →
            ∀ text resolution parts text' resolution' parts',
              Crafted tree settings m text resolution parts →
              Crafted tree settings d text' resolution' parts' →
              (∀ x ∈ Copy.names parts, (ModuleId.ofPath p).Owns x) ∧
                (∀ x ∈ Copy.names parts', (ModuleId.ofPath q).Owns x) ∧
                (Copy.names parts).Disjoint (Copy.names parts') := by
  have hapart : ∀ x, (ModuleId.ofPath p).Owns x → ¬ (ModuleId.ofPath q).Owns x :=
    fun x hp hq => hhash (hp.hash_eq hq)
  refine ⟨fun x h => h.elim ModuleId.Owns.isIdentifier ModuleId.Owns.isIdentifier, hapart, ?_⟩
  intro tree settings entry b hb
  obtain ⟨c, f, hf⟩ := Bundle.exists_grown hb
  refine ⟨f.order, hf.code_eq, hf.mem_entries, fun m hm => ?_, ?_⟩
  · obtain ⟨-, resolution, -, -, hload, hself, -⟩ := hf.of_mem_order hm
    obtain ⟨text, hcrafted⟩ := crafted_of_load hload hself
    exact ⟨text, resolution, _, hcrafted⟩
  · rintro m hm rfl d hd rfl text resolution parts text' resolution' parts' hcrafted hcrafted'
    rw [← hf.id_eq hm, ← hf.id_eq hd] at hapart ⊢
    exact ⟨fun x hx => hcrafted.owns hx, fun x hx => hcrafted'.owns hx,
      fun x hx hx' => hapart x (hcrafted.owns hx) (hcrafted'.owns hx')⟩

/-- A path that is no text and one whose stem is a number: each of the modules has a local `x`. -/
theorem bundle_names_owned_number :
    let p : Path := ⟨[Name.slash, 255]⟩
    let q := Path.ofText ['/', '2']
    let tree : FileTree := ⟨[], [
      ([[255]], .file (Utf8.encode "let x = require('./2')".toList)),
      ([Utf8.encode ['2']], .file (Utf8.encode "let x = 1; module.exports = x".toList))]⟩
    ModuleId.hash p ≠ ModuleId.hash q ∧
      isIdentifier ((ModuleId.ofPath q).qualify ['x']) = true ∧
      ¬ (ModuleId.ofPath q).Owns ((ModuleId.ofPath p).qualify ['x']) ∧
      ∃ (out : Bundle) (order : List ReadyModule), (bundle tree {} p).outcome = .ok out ∧
        out.code = joinChunks (order.map ReadyModule.code) ∧
        ∃ m ∈ order, ∃ d ∈ order, m.path = p ∧ d.path = q ∧
          ∃ parts parts', parts.flatMap Copy.text = m.code ∧ parts'.flatMap Copy.text = d.code ∧
            (Copy.names parts).Disjoint (Copy.names parts') := by
  intro p q tree
  have hhash : ModuleId.hash p ≠ ModuleId.hash q := by decide +kernel
  have hbundle : (bundle tree {} p).Ensures (fun out => (p, .ofPath p) ∈ out.registry.entries ∧
      (q, .ofPath q) ∈ out.registry.entries) fun _ => False := by decide +kernel
  obtain ⟨out, hout, hp, hq⟩ := hbundle.exists_ok
  obtain ⟨hidentifier, hapart, hnames⟩ := bundle_names_owned hhash
  obtain ⟨order, hcode, hentries, hcrafted, hdisjoint⟩ := hnames tree {} p out hout
  obtain ⟨m, hm, hmp, -⟩ := (hentries _ _).mp hp
  obtain ⟨d, hd, hdq, -⟩ := (hentries _ _).mp hq
  obtain ⟨_, _, parts, hparts⟩ := hcrafted m hm
  obtain ⟨_, _, parts', hparts'⟩ := hcrafted d hd
  obtain ⟨-, -, hboth⟩ := hdisjoint m hm hmp d hd hdq _ _ _ _ _ _ hparts hparts'
  exact ⟨hhash, hidentifier _ (Or.inr (.ofLocal rfl)), hapart _ (.ofLocal rfl), out, order, hout,
    hcode, m, hm, d, hd, hmp, hdq, parts, parts', hparts.code, hparts'.code, hboth⟩

end ScriptBundle
