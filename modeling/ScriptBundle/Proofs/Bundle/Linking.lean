import ScriptBundle.Proofs.Bundle.EmissionOrder
import ScriptBundle.Proofs.Bundle.Interleaving
import ScriptBundle.Proofs.Require.CallSites

/-! How the modules of a bundle are linked. What stands at the place of a relative call is the id
under which the module it names is registered and by which that module exports, and the text of that
module comes first. -/
namespace ScriptBundle

open Relation

variable {tree : FileTree} {settings : Settings} {c p : Path} {ps : List Path} {f : Forest}

theorem Registry.get?_eq_of_mem {r : Registry} (h : r.paths.Pairwise fun p q => ¬ Path.Same p q)
    {id : ModuleId} (hp : (p, id) ∈ r.entries) : r.get? p = some id := by
  obtain ⟨e, he⟩ : ∃ e, r.entries.find? (fun e => decide (Path.Same e.1 p)) = some e :=
    Option.isSome_iff_exists.mp (List.find?_isSome.mpr ⟨_, hp, by simp [Path.Same.refl]⟩)
  have hsame : Path.Same e.1 p := by simpa using List.find?_some he
  have hentries : r.entries.Pairwise fun d e => ¬ Path.Same d.1 e.1 := List.pairwise_map.mp h
  have hsymm : Std.Symm fun d e : Path × ModuleId => ¬ Path.Same d.1 e.1 :=
    ⟨fun _ _ hnot hsame => hnot hsame.symm⟩
  obtain rfl : e = (p, id) := by
    by_contra hne
    exact hentries.forall (List.mem_of_find?_eq_some he) hp hne hsame
  simp [get?, he]

namespace Grows

variable {n : ReadyModule × Forest}

theorem of_mem (h : Grows tree settings ps f) (hn : n ∈ f.nodes) :
    ∃ resolution, (load tree settings n.1.path).outcome = .ok resolution ∧
      n.1 = ⟨n.1.path, .ofPath n.1.path, chunkOf settings n.1.path resolution⟩ ∧
      Grows tree settings resolution.dependencies n.2 := by
  induction h with
  | nil => simp [Forest.nodes] at hn
  | cons hload hneeds _ ihneeds ihrest =>
    rcases List.mem_cons.mp hn with rfl | hn
    · exact ⟨_, hload, rfl, hneeds⟩
    · exact (List.mem_append.mp hn).elim ihneeds ihrest

theorem exists_mem (h : Grows tree settings ps f) (hp : p ∈ ps) : ∃ n ∈ f.nodes, n.1.path = p := by
  induction h with
  | nil => simp at hp
  | @cons q _ needs rest more _ _ _ _ ihrest =>
    rcases List.mem_cons.mp hp with rfl | hp
    · exact ⟨_, List.mem_cons_self, rfl⟩
    · obtain ⟨n, hn, hpath⟩ := ihrest hp
      exact ⟨n, by simp [hn], hpath⟩

theorem requires_iff {resolution : Resolution} (hc : c.isAbsolute = true)
    (hp : Reached tree settings c p)
    (hload : (load tree settings p).outcome = .ok resolution) (q : Path) :
    Requires tree settings p q ↔ q ∈ resolution.dependencies :=
  ((load_ensures (Run.isAbsolute_of_reached hc hp)).of_ok hload).2 q

theorem reached (hc : c.isAbsolute = true) (h : Grows tree settings ps f)
    (hps : ∀ p ∈ ps, Reached tree settings c p) (hn : n ∈ f.nodes) :
    Reached tree settings c n.1.path := by
  induction h with
  | nil => simp [Forest.nodes] at hn
  | @cons p resolution _ _ _ hload _ _ ihneeds ihrest =>
    have hp := hps p List.mem_cons_self
    rcases List.mem_cons.mp hn with rfl | hn
    · exact hp
    · rcases List.mem_append.mp hn with hn | hn
      · exact ihneeds (fun q hq => hp.tail ((requires_iff hc hp hload q).mpr hq)) hn
      · exact ihrest (fun q hq => hps q (List.mem_cons_of_mem _ hq)) hn

theorem exists_of_reached (hc : c.isAbsolute = true) (h : Grows tree settings [c] f)
    (hp : Reached tree settings c p) : ∃ n ∈ f.nodes, n.1.path = p := by
  induction hp with
  | refl => exact h.exists_mem (List.mem_singleton_self c)
  | @tail p q hp hpq ih =>
    obtain ⟨n, hn, rfl⟩ := ih
    obtain ⟨resolution, hload, -, hneeds⟩ := h.of_mem hn
    obtain ⟨k, hk, rfl⟩ := hneeds.exists_mem ((requires_iff hc hp hload q).mp hpq)
    exact ⟨k, Forest.nodes_subset hn hk, rfl⟩

theorem coherent (hc : c.isAbsolute = true) (h : Grows tree settings [c] f)
    (hsame : ∀ p q, Reached tree settings c p → Reached tree settings c q → Path.Same p q → p = q) :
    f.Coherent := by
  intro a ha b hb hab
  have hreached : ∀ n ∈ f.nodes, Reached tree settings c n.1.path :=
    fun n hn => h.reached hc (by simp [Reached, ReflTransGen.refl]) hn
  have hpath := hsame _ _ (hreached a ha) (hreached b hb) hab
  obtain ⟨r, hr, ha', hneeds⟩ := h.of_mem ha
  obtain ⟨r', hr', hb', hneeds'⟩ := h.of_mem hb
  rw [hpath] at hr ha'
  obtain rfl := Except.ok.inj (hr.symm.trans hr')
  exact Prod.ext (ha'.trans hb'.symm) (hneeds.deterministic hneeds')

end Grows

namespace Forest

/-- The modules of a forest in the order in which it puts them out. -/
def order (f : Forest) : List ReadyModule := (f.walk []).filterMap Turn.left?

theorem chunks_eq_order (f : Forest) : f.chunks = f.order.map ReadyModule.code := by
  have hemit : f.emit .start = Emission.ofTurns (f.walk []) := emit_ofTurns f []
  rw [chunks, hemit]
  rfl

theorem mem_order (hco : f.Coherent) {m : ReadyModule} :
    m ∈ f.order ↔ ∃ needs, (m, needs) ∈ f.nodes := by
  rw [order, Turn.mem_filterMap_left, ← mem_modules]
  constructor
  · intro hm
    rcases leave_mem_walk hm with hm | ⟨-, hm⟩
    · simp at hm
    · exact hm
  · exact fun hm => (finished_of_mem hco (settled_nil f) hm).2

end Forest

/-- The bundle is made of what the entry grows into: its text is that of the forest, and its modules
are those reached from the entry. -/
structure Bundle.Grown (tree : FileTree) (settings : Settings) (c : Path) (f : Forest)
    (b : Bundle) : Prop where
  absolute : c.isAbsolute = true
  grows : Grows tree settings [c] f
  coherent : f.Coherent
  code : b.code = f.bundleText
  apart : b.registry.paths.Pairwise fun p q => ¬ Path.Same p q
  entries : ∀ p id, (p, id) ∈ b.registry.entries ↔ Reached tree settings c p ∧ id = .ofPath p

namespace Bundle

theorem exists_grown {entry : Path} {b : Bundle}
    (hb : (bundle tree settings entry).outcome = .ok b) : ∃ c f, b.Grown tree settings c f := by
  have hcomes : ComesTo tree settings entry (bundle tree settings entry).outcome :=
    comesTo_bundle entry
  rw [hb] at hcomes
  cases hcomes with
  | @ran c _ s _ hc hsteps hends =>
    have habsolute := FileTree.isAbsolute_of_canonicalize hc
    obtain ⟨rfl, hs⟩ := hsteps.consistent habsolute
    obtain ⟨-, -, hentries, f, hgrows, hcode⟩ := hs.of_ends_ok habsolute hends
    have hregistry : b.registry = s.registry := by
      cases hends
      rfl
    have hapart := hs.apart
    rw [← hregistry] at hapart
    have hpaths : ∀ p, Reached tree settings s.entry p → p ∈ b.registry.paths :=
      fun p hp => List.mem_map_of_mem ((hentries p (.ofPath p)).mpr ⟨hp, rfl⟩)
    have hcoherent := hgrows.coherent habsolute fun p q hp hq =>
      Path.eq_of_apart hapart (hpaths p hp) (hpaths q hq)
    exact ⟨s.entry, f, habsolute, hgrows, hcoherent, hcode, hapart, hentries⟩

variable {b : Bundle} {m : ReadyModule}

theorem Grown.code_eq (h : b.Grown tree settings c f) :
    b.code = joinChunks (f.order.map ReadyModule.code) := by
  rw [h.code, Forest.bundleText, Forest.chunks_eq_order]

theorem Grown.of_mem_order (h : b.Grown tree settings c f) (hm : m ∈ f.order) :
    ∃ needs resolution, (m, needs) ∈ f.nodes ∧ Reached tree settings c m.path ∧
      (load tree settings m.path).outcome = .ok resolution ∧
      m = ⟨m.path, .ofPath m.path, chunkOf settings m.path resolution⟩ ∧
      Grows tree settings resolution.dependencies needs := by
  obtain ⟨needs, hn⟩ := (Forest.mem_order h.coherent).mp hm
  obtain ⟨resolution, hload, hm, hneeds⟩ := h.grows.of_mem hn
  have hreached := h.grows.reached h.absolute (by simp [Reached, ReflTransGen.refl]) hn
  exact ⟨needs, resolution, hn, hreached, hload, hm, hneeds⟩

theorem Grown.id_eq (h : b.Grown tree settings c f) (hm : m ∈ f.order) : m.id = .ofPath m.path := by
  obtain ⟨-, _, -, -, -, hself, -⟩ := h.of_mem_order hm
  rw [hself]

theorem Grown.mem_entries (h : b.Grown tree settings c f) (p : Path) (id : ModuleId) :
    (p, id) ∈ b.registry.entries ↔ ∃ m ∈ f.order, m.path = p ∧ m.id = id := by
  rw [h.entries]
  constructor
  · rintro ⟨hp, rfl⟩
    obtain ⟨⟨m, needs⟩, hm, rfl⟩ := h.grows.exists_of_reached h.absolute hp
    have hm' := (Forest.mem_order h.coherent).mpr ⟨needs, hm⟩
    exact ⟨m, hm', rfl, h.id_eq hm'⟩
  · rintro ⟨m, hm, rfl, rfl⟩
    obtain ⟨-, _, -, hreached, -⟩ := h.of_mem_order hm
    exact ⟨hreached, h.id_eq hm⟩

end Bundle

/-- The names that a text declares. -/
def declaredNames (code : Text) : List Text :=
  ((spots code).filterMap Spot.declaration?).map Declaration.name

theorem name_mem_declaredNames {id : ModuleId} {code : Text} {b : Binding}
    (h : b ∈ Spot.bindings id (spots code)) :
    b.name ∈ declaredNames code ∧ isIdentifier b.name = true ∧ b.qualified = id.qualify b.name := by
  obtain ⟨d, hd, rfl⟩ := List.mem_map.mp h
  obtain ⟨s, -, hs⟩ := List.mem_filterMap.mp hd
  exact ⟨List.mem_map_of_mem hd, (Spot.of_declaration? hs).1, rfl⟩

/-- The module in the bundle: its text, what this is without relative calls, and the parts that its
chunk is made of. -/
structure Crafted (tree : FileTree) (settings : Settings) (m : ReadyModule) (text : Text)
    (resolution : Resolution) (parts : List Copy) : Prop where
  read : tree.readText m.path = .ok text
  resolved : (Require.resolveRequires tree m.path text settings.extensions).outcome = .ok resolution
  /-- The module exports by its id. -/
  chunk : m.code =
    (namespaceModule resolution.code m.id [Binding.ofExport settings.exportTarget m.id]).code
  source : parts.flatMap Copy.source = spots resolution.code
  code : parts.flatMap Copy.text = m.code
  /-- What is put in place of a name is the module's id, for the export target, or the qualified
  name of a local. -/
  replaced : ∀ name qualified, .put name qualified ∈ parts →
    Spot.text name = settings.exportTarget ∧ qualified = m.id.text ∨
      Spot.text name ∈ declaredNames resolution.code ∧ qualified = m.id.qualify (Spot.text name)

theorem crafted_of_load {m : ReadyModule} {resolution : Resolution}
    (hload : (load tree settings m.path).outcome = .ok resolution)
    (hm : m = ⟨m.path, .ofPath m.path, chunkOf settings m.path resolution⟩) :
    ∃ text, Crafted tree settings m text resolution
      (blockParts resolution.code m.id [Binding.ofExport settings.exportTarget m.id]) := by
  simp only [load, Logged.outcome_bind_ok, Run.readText_ok] at hload
  obtain ⟨text, hread, hresolved⟩ := hload
  have hchunk : m.code = (namespaceModule resolution.code m.id
      [Binding.ofExport settings.exportTarget m.id]).code := by
    rw [hm]
    rfl
  refine ⟨text, hread, hresolved, hchunk, source_blockParts _ _ _,
    by rw [text_blockParts, hchunk], fun name qualified hput => ?_⟩
  obtain ⟨b, hb, hputBy⟩ := putBy_of_mem_blockParts hput
  rw [hputBy.text_eq, hputBy.qualified_eq]
  rcases hb with hb | hb
  · rw [List.mem_singleton.mp hb]
    exact Or.inl ⟨rfl, rfl⟩
  · obtain ⟨hname, -, hqualified⟩ := name_mem_declaredNames hb
    exact Or.inr ⟨hname, hqualified⟩

/-- **Calls are linked to definitions that come before.** The chunks of a bundle are those of its
modules, each once and under the id that is registered for its path. What stands at the place of a
relative call is the id of the module that the call resolves to; by this id that module is
registered, with it that module replaces its export target, and its chunk comes before. In the
chunk of the calling module the id stands where the call stood, unless a name is replaced in which
an id can begin. -/
theorem bundle_links {tree : FileTree} {settings : Settings} {entry : Path} {b : Bundle}
    (hb : (bundle tree settings entry).outcome = .ok b) :
    ∃ order : List ReadyModule, b.code = joinChunks (order.map ReadyModule.code) ∧
      order.Pairwise (fun m d => ¬ Path.Same m.path d.path) ∧
      (∀ p id, (p, id) ∈ b.registry.entries ↔ ∃ m ∈ order, m.path = p ∧ m.id = id) ∧
      ∀ m ∈ order, ∃ text resolution parts, Crafted tree settings m text resolution parts ∧
        ∀ front source argument back,
          (Require.scan text).pieces = front ++ .call source argument :: back →
          isRelative argument = true →
          ∃ d ∈ order,
            (Require.resolve tree m.path argument settings.extensions).outcome = .ok d.path ∧
            b.registry.get? d.path = some d.id ∧ List.Sublist [d, m] order ∧
            let linked := Require.linked tree m.path settings.extensions
            resolution.code = front.flatMap linked ++ d.id.text ++ back.flatMap linked ∧
            ((∀ name ∈ declaredNames resolution.code, ¬ ModuleId.lead <+: name) →
              ¬ Require.HoldsId settings.exportTarget →
              Copy.Stands parts (front.flatMap linked) d.id.text (back.flatMap linked)) := by
  obtain ⟨c, f, hf⟩ := Bundle.exists_grown hb
  refine ⟨f.order, hf.code_eq, (orderly_walk f).left_once, hf.mem_entries, fun m hm => ?_⟩
  obtain ⟨needs, resolution, hn, hreached, hload, hself, hneeds⟩ := hf.of_mem_order hm
  obtain ⟨text, hcrafted⟩ := crafted_of_load hload hself
  refine ⟨text, resolution, _, hcrafted, fun front source argument back hpieces hrelative => ?_⟩
  -- The module that the call names grew where this module's needs did, so it was left before.
  have habsolute := Run.isAbsolute_of_reached hf.absolute hreached
  have hloads := (resolveRequires_ensures habsolute hcrafted.read).of_ok hcrafted.resolved
  have hargument := Require.mem_relativeArguments hpieces hrelative
  obtain ⟨target, htarget⟩ := hloads.1.resolved argument hargument
  obtain ⟨⟨d, needs'⟩, hd, rfl⟩ :=
    hneeds.exists_mem ((hloads.2 target).mp ⟨text, hloads.1, argument, hargument, htarget⟩)
  have hd' : d ∈ f.order := (Forest.mem_order hf.coherent).mpr ⟨needs', Forest.nodes_subset hn hd⟩
  have hlinked : Require.linked tree m.path settings.extensions (.call source argument) =
      d.id.text := by
    rw [Require.linked_relative hrelative htarget, hf.id_eq hd']
  have hresolved : resolution.code =
      front.flatMap (Require.linked tree m.path settings.extensions) ++ d.id.text ++
        back.flatMap (Require.linked tree m.path settings.extensions) := by
    rw [(Require.resolveRequires_ok hcrafted.resolved).2, hpieces, List.flatMap_append,
      List.flatMap_cons, hlinked, List.append_assoc]
  have hentry := (hf.mem_entries _ _).mpr ⟨d, hd', rfl, rfl⟩
  refine ⟨d, hd', htarget, Registry.get?_eq_of_mem hf.apart hentry,
    sublist_of_needs hf.coherent hn (Forest.mem_modules.mpr ⟨needs', hd⟩), hresolved,
    fun hnames htargetName => ?_⟩
  rw [hf.id_eq hd'] at hresolved ⊢
  refine Require.exists_kept_id (Require.idBegins_of_scan hpieces) hresolved ?_ fun b hb => ?_
  · rintro b hb
    rwa [List.mem_singleton.mp hb]
  · obtain ⟨hname, hidentifier, -⟩ := name_mem_declaredNames hb
    exact mt (Require.holdsId_iff_of_isIdentifier hidentifier).mp (hnames _ hname)

/-- A module's local takes what another module exports. -/
theorem bundle_links_local :
    let m := Path.ofText ['/', 'm']
    let b := Path.ofText ['/', 'b']
    let tree : FileTree := ⟨[], [
      ([Utf8.encode ['m']], .file (Utf8.encode "let x = require('./b') + x".toList)),
      ([Utf8.encode ['b']], .file (Utf8.encode "module.exports = 1".toList))]⟩
    ∃ out order, (bundle tree {} m).outcome = .ok out ∧
      out.code = joinChunks (order.map ReadyModule.code) ∧
      ∃ caller ∈ order, caller.path = m ∧ ∃ d ∈ order, d.path = b ∧
        out.registry.get? b = some d.id ∧ List.Sublist [d, caller] order ∧
        ∃ parts, parts.flatMap Copy.text = caller.code ∧
          Copy.Stands parts "let x = ".toList d.id.text " + x".toList := by
  intro m b tree
  have hbundle : (bundle tree {} m).Ensures (fun out => (m, .ofPath m) ∈ out.registry.entries ∧
      out.registry.get? b = some (.ofPath b)) fun _ => False := by decide +kernel
  have hm : (tree.readText m).toOption = some "let x = require('./b') + x".toList := by
    decide +kernel
  have hb : (Require.resolve tree m "./b".toList ({} : Settings).extensions).Ensures (· = b)
      fun _ => False := by decide +kernel
  obtain ⟨out, hout, hregistered, hget⟩ := hbundle.exists_ok
  obtain ⟨order, hcode, -, hentries, hlinks⟩ := bundle_links hout
  obtain ⟨caller, hcaller, hpath, -⟩ := (hentries _ _).mp hregistered
  obtain ⟨text, resolution, parts, hcrafted, hcalls⟩ := hlinks caller hcaller
  have hread := hcrafted.read
  rw [hpath] at hread hcalls
  rw [hread] at hm
  obtain rfl := Option.some.inj hm
  obtain ⟨d, hd, hresolved, hget', hbefore, hcode', hstands⟩ :=
    hcalls ("let x = ".toList.map .plain) "require('./b')".toList "./b".toList
      (" + x".toList.map .plain) (by decide +kernel) (by decide)
  have hdb : d.path = b := hb.of_ok hresolved
  rw [hdb] at hget'
  have hid : ModuleId.ofPath b = d.id := Option.some.inj (hget.symm.trans hget')
  refine ⟨out, order, hout, hcode, caller, hcaller, hpath, d, hd, hdb, hget', hbefore, parts,
    hcrafted.code, hstands ?_ ?_⟩
  · rw [hcode', ← hid]
    decide +kernel
  · rintro ⟨front, rest, hname, -⟩
    have hinfix : ModuleId.lead <:+: ({} : Settings).exportTarget := ⟨front, rest, hname.symm⟩
    revert hinfix
    decide

/-- No name begins with the lead of an id, and yet no id is left of the call: with what stands
before it, the id makes up the export target. -/
theorem bundle_links_target :
    let m := Path.ofText ['/', 'm']
    let b := Path.ofText ['/', 'b']
    let tree : FileTree := ⟨[], [
      ([Utf8.encode ['m']], .file (Utf8.encode "x=require('./b')".toList)),
      ([Utf8.encode ['b']], .file (Utf8.encode ['1']))]⟩
    let settings : Settings := { exportTarget := "x=".toList ++ (ModuleId.ofPath b).text }
    (Require.scan "x=require('./b')".toList).pieces =
        [.plain 'x', .plain '=', .call "require('./b')".toList "./b".toList] ∧
      Require.linked tree m settings.extensions (.call "require('./b')".toList "./b".toList) =
        (ModuleId.ofPath b).text ∧
      (∀ name ∈ declaredNames ("x=".toList ++ (ModuleId.ofPath b).text),
        ¬ ModuleId.lead <+: name) ∧
      ¬ ModuleId.lead <+: settings.exportTarget ∧
      (bundle tree settings m).Ensures (fun out =>
        out.code = joinChunks [['1'], (ModuleId.ofPath m).text] ∧
          ¬ (ModuleId.ofPath b).text <:+: out.code) fun _ => False := by
  decide +kernel

end ScriptBundle
