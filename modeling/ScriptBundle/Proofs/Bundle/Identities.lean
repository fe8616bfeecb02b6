import ScriptBundle.Proofs.Bundle.Linking

/-! How far the modules of a bundle are told apart. Every name that a module brings into the bundle
begins with the six digits of its path's digest, so modules share names only where these digits
agree; where they do and the stems agree too, the modules share their id and with it all names. -/
namespace ScriptBundle

namespace ModuleId

variable {p q : Path}

theorem hash_prefix (p : Path) : lead ++ hash p <+: (ofPath p).text := by
  rw [text_ofPath, ← List.append_assoc]
  exact List.prefix_append _ _

theorem hash_eq_of_prefix {x : Text} (hp : lead ++ hash p <+: x) (hq : lead ++ hash q <+: x) :
    hash p = hash q := by
  have hlength : (lead ++ hash p).length = (lead ++ hash q).length := by
    rw [List.length_append, List.length_append, length_hash, length_hash]
  have hpre := List.prefix_of_prefix_length_le hp hq hlength.le
  exact List.append_cancel_left (hpre.eq_of_length hlength)

end ModuleId

namespace Copy

def put? : Copy → Option Text
  | kept _ => none
  | put _ qualified => some qualified

/-- The names that the parts bring in. -/
def names (parts : List Copy) : List Text := parts.filterMap put?

theorem mem_names {parts : List Copy} {x : Text} :
    x ∈ names parts ↔ ∃ name, put name x ∈ parts := by
  rw [names, List.mem_filterMap]
  constructor
  · rintro ⟨part, hpart, hx⟩
    cases part with
    | kept s => cases hx
    | put name qualified =>
      obtain rfl := Option.some.inj hx
      exact ⟨name, hpart⟩
  · rintro ⟨name, hname⟩
    exact ⟨_, hname, rfl⟩

end Copy

theorem Crafted.hash_prefix {tree : FileTree} {settings : Settings} {m : ReadyModule} {text : Text}
    {resolution : Resolution} {parts : List Copy}
    (h : Crafted tree settings m text resolution parts) (hid : m.id = .ofPath m.path) {x : Text}
    (hx : x ∈ Copy.names parts) : ModuleId.lead ++ ModuleId.hash m.path <+: x := by
  obtain ⟨name, hput⟩ := Copy.mem_names.mp hx
  have hpre := ModuleId.hash_prefix m.path
  rw [← hid] at hpre
  rcases h.replaced name x hput with ⟨-, rfl⟩ | ⟨-, rfl⟩
  · exact hpre
  · exact hpre.trans (List.prefix_append _ _)

/-- **Modules share names only where their digits agree.** Of two modules of a bundle the ids are
equal exactly when both the six digits of their paths' digests and their stems are. Where the digits
differ, no export target and no local of the one is put out under a name of the other. -/
theorem bundle_names_apart {tree : FileTree} {settings : Settings} {entry : Path} {b : Bundle}
    (hb : (bundle tree settings entry).outcome = .ok b) :
    ∃ order : List ReadyModule, b.code = joinChunks (order.map ReadyModule.code) ∧
      (∀ p id, (p, id) ∈ b.registry.entries ↔ ∃ m ∈ order, m.path = p ∧ m.id = id) ∧
      (∀ m ∈ order, ∃ text resolution parts, Crafted tree settings m text resolution parts) ∧
      ∀ m ∈ order, ∀ d ∈ order,
        (m.id = d.id ↔ ModuleId.hash m.path = ModuleId.hash d.path ∧
          ModuleId.stem m.path = ModuleId.stem d.path) ∧
        (ModuleId.hash m.path ≠ ModuleId.hash d.path →
          ∀ text resolution parts text' resolution' parts',
            Crafted tree settings m text resolution parts →
            Crafted tree settings d text' resolution' parts' →
            (Copy.names parts).Disjoint (Copy.names parts')) := by
  obtain ⟨c, f, hf⟩ := Bundle.exists_grown hb
  refine ⟨f.order, hf.code_eq, hf.mem_entries, fun m hm => ?_, fun m hm d hd => ⟨?_, ?_⟩⟩
  · obtain ⟨-, resolution, -, -, hload, hself, -⟩ := hf.of_mem_order hm
    obtain ⟨text, hcrafted⟩ := crafted_of_load hload hself
    exact ⟨text, resolution, _, hcrafted⟩
  · rw [hf.id_eq hm, hf.id_eq hd]
    exact ModuleId.ofPath_eq_iff
  · intro hhash text resolution parts text' resolution' parts' hcrafted hcrafted' x hx hx'
    exact hhash (ModuleId.hash_eq_of_prefix (hcrafted.hash_prefix (hf.id_eq hm) hx)
      (hcrafted'.hash_prefix (hf.id_eq hd) hx'))

/-- Two modules of one stem: their digits differ, and so do their ids and the names of their
locals. -/
theorem bundle_names_apart_stem :
    let m := Path.ofText ['/', 'm']
    let a := Path.ofText "/x.1".toList
    let b := Path.ofText "/x.2".toList
    let tree : FileTree := ⟨[], [
      ([Utf8.encode ['m']], .file (Utf8.encode "require('./x.1')(require('./x.2'))".toList)),
      ([Utf8.encode "x.1".toList], .file (Utf8.encode "let x = 1".toList)),
      ([Utf8.encode "x.2".toList], .file (Utf8.encode "let x = 2".toList))]⟩
    ModuleId.stem a = ModuleId.stem b ∧
      ∃ (out : Bundle) (order : List ReadyModule), (bundle tree {} m).outcome = .ok out ∧
        out.code = joinChunks (order.map ReadyModule.code) ∧
        ∃ x ∈ order, ∃ y ∈ order, x.path = a ∧ y.path = b ∧ x.id ≠ y.id ∧
          ∃ parts parts', parts.flatMap Copy.text = x.code ∧ parts'.flatMap Copy.text = y.code ∧
            (Copy.names parts).Disjoint (Copy.names parts') := by
  intro m a b tree
  have hbundle : (bundle tree {} m).Ensures (fun out => (a, .ofPath a) ∈ out.registry.entries ∧
      (b, .ofPath b) ∈ out.registry.entries) fun _ => False := by decide +kernel
  have hhash : ModuleId.hash a ≠ ModuleId.hash b := by decide +kernel
  obtain ⟨out, hout, ha, hb⟩ := hbundle.exists_ok
  obtain ⟨order, hcode, hentries, hcrafted, hapart⟩ := bundle_names_apart hout
  obtain ⟨x, hx, hxa, -⟩ := (hentries _ _).mp ha
  obtain ⟨y, hy, hyb, -⟩ := (hentries _ _).mp hb
  obtain ⟨_, _, parts, hparts⟩ := hcrafted x hx
  obtain ⟨_, _, parts', hparts'⟩ := hcrafted y hy
  obtain ⟨hid, hnames⟩ := hapart x hx y hy
  rw [hxa, hyb] at hid hnames
  exact ⟨by decide +kernel, out, order, hout, hcode, x, hx, y, hy, hxa, hyb,
    fun h => hhash (hid.mp h).1, parts, parts', hparts.code, hparts'.code,
    hnames hhash _ _ _ _ _ _ hparts hparts'⟩

/-- Two modules whose paths differ, but neither their stems nor their digits: they are registered
under one id, and what the second exports takes the place of what the first does. -/
theorem bundle_names_shared :
    let m := Path.ofText ['/', 'm']
    let a := Path.ofText "/m.219".toList
    let b := Path.ofText "/m.1199".toList
    let id : ModuleId := ⟨"__knit_4c5709_m".toList⟩
    let tree : FileTree := ⟨[], [
      ([Utf8.encode ['m']], .file (Utf8.encode "require('./m.219') + require('./m.1199')".toList)),
      ([Utf8.encode "m.219".toList], .file (Utf8.encode "module.exports = 1".toList)),
      ([Utf8.encode "m.1199".toList], .file (Utf8.encode "module.exports = 2".toList))]⟩
    ¬ Path.Same a b ∧ (bundle tree {} m).Ensures (fun out =>
      (a, id) ∈ out.registry.entries ∧ (b, id) ∈ out.registry.entries ∧
        out.code = joinChunks ["__knit_4c5709_m = 1".toList, "__knit_4c5709_m = 2".toList,
          "__knit_4c5709_m + __knit_4c5709_m".toList]) fun _ => False := by
  decide +kernel

end ScriptBundle
