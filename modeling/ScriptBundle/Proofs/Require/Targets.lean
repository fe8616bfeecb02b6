import ScriptBundle.Bundle.Graph
import ScriptBundle.Bundle.Registry
import ScriptBundle.ModuleId
import ScriptBundle.Proofs.FileTree.Naming
import ScriptBundle.Proofs.Require.Loading

/-! What a specifier is resolved to. It is the place of the exact path, or else the place of the
first path probed that leads anywhere: nobody looks what is there, so that place can be a directory
too. Either way the path is the one that `canonicalize` finds, so each place has one. -/
namespace ScriptBundle

namespace FileTree

variable {tree : FileTree} {p : Path} {l : Location}

def firstPlace (tree : FileTree) (paths : List Path) : Option Location :=
  paths.findSome? fun p => (tree.locate p).toOption

theorem firstPlace_cons (tree : FileTree) (p : Path) (paths : List Path) :
    tree.firstPlace (p :: paths) =
      match tree.locate p with
      | .ok l => some l
      | .error _ => tree.firstPlace paths := by
  rw [firstPlace, List.findSome?_cons]
  cases tree.locate p <;> rfl

theorem exists_of_firstPlace {paths : List Path} (h : tree.firstPlace paths = some l) :
    ∃ p ∈ paths, tree.locate p = .ok l := by
  obtain ⟨p, hp, hl⟩ := List.exists_of_findSome?_eq_some h
  refine ⟨p, hp, ?_⟩
  cases hlocate : tree.locate p with
  | error fault => simp [hlocate, Except.toOption] at hl
  | ok m => simpa [hlocate, Except.toOption] using hl

/-- A file is at the place. -/
def IsFile (tree : FileTree) (l : Location) : Prop := ∃ content, tree.node? l = some (.file content)

theorem Standing.isFile_or (h : tree.Standing l) : tree.IsFile l ∨ tree.isDirectory l = true := by
  obtain ⟨node, hnode⟩ := Option.isSome_iff_exists.mp h.isSome_node
  cases node with
  | file content => exact Or.inl ⟨content, hnode⟩
  | directory => exact Or.inr (by simp [isDirectory, hnode])
  | link target => simpa [isLink, hnode] using h.not_isLink

end FileTree

namespace Require

variable {tree : FileTree} {file : Path} {specifier : Text} {extensions : List Text}

/-- The place of the exact path, where something else than a directory is. -/
def exactPlace? (tree : FileTree) (file : Path) (specifier : Text) : Option Location :=
  match tree.locate (target file specifier) with
  | .ok l => if tree.isDirectory l then none else some l
  | .error _ => none

/-- The paths that are tried in place of the exact one: for a directory the indexes in it, and where
nothing is and no extension is spelt, the path with each of the extensions. -/
def probed (tree : FileTree) (file : Path) (specifier : Text) (extensions : List Text) :
    List Path :=
  match tree.locate (target file specifier) with
  | .ok l => if tree.isDirectory l then extensions.map (indexPath l.path) else []
  | .error _ =>
    if (target file specifier).extension?.isNone then
      extensions.map fun e => (target file specifier).withExtension (Utf8.encode e)
    else []

theorem indexOf_eq (tree : FileTree) (directory : Path) (extensions : List Text) :
    indexOf tree directory extensions =
      (tree.firstPlace (extensions.map (indexPath directory))).map Location.path := by
  induction extensions with
  | nil => rfl
  | cons extension more ih =>
    rw [indexOf, List.map_cons, FileTree.firstPlace_cons, FileTree.canonicalize]
    cases tree.locate (indexPath directory extension) with
    | ok l => rfl
    | error fault => exact ih

/-- The path of the place is found, or the file system is at fault for there being none. -/
def LeadsTo (x : Logged Path) (place : Option Location) : Prop :=
  x.Ensures (fun p => place.map Location.path = some p) fun e => IsFileFault e ∧ place = none

theorem resolveDirectory_leadsTo (tree : FileTree) (directory : Path) (extensions : List Text) :
    LeadsTo (resolveDirectory tree directory extensions)
      (tree.firstPlace (extensions.map (indexPath directory))) := by
  unfold resolveDirectory
  rw [indexOf_eq]
  cases tree.firstPlace (extensions.map (indexPath directory)) with
  | some l => exact Logged.ensures_tell_bind.mpr (Logged.ensures_pure.mpr rfl)
  | none => exact Logged.ensures_fail.mpr ⟨⟨_, _, rfl⟩, rfl⟩

theorem withExtensions_leadsTo (hextensions : ∀ x ∈ extensions, '/' ∉ x) (tree : FileTree)
    (specifier : Text) (exact : Path) (fault : Fault) :
    LeadsTo (withExtensions tree specifier exact fault extensions)
      (tree.firstPlace (extensions.map fun e => exact.withExtension (Utf8.encode e))) := by
  induction extensions with
  | nil => exact Logged.ensures_fail.mpr ⟨⟨_, _, rfl⟩, rfl⟩
  | cons extension more ih =>
    obtain ⟨hslash, hmore⟩ := List.forall_mem_cons.mp hextensions
    rw [withExtensions, if_neg (by simpa using hslash), List.map_cons, FileTree.firstPlace_cons,
      FileTree.canonicalize]
    cases tree.locate (exact.withExtension (Utf8.encode extension)) with
    | ok l => exact Logged.ensures_tell_bind.mpr (Logged.ensures_pure.mpr rfl)
    | error _ => exact ih hmore

theorem resolve_leadsTo (hextensions : ∀ x ∈ extensions, '/' ∉ x) (tree : FileTree) (file : Path)
    (specifier : Text) :
    LeadsTo (resolve tree file specifier extensions)
      ((exactPlace? tree file specifier).or
        (tree.firstPlace (probed tree file specifier extensions))) := by
  unfold resolve exactPlace? probed
  refine Logged.ensures_tell_bind.mpr ?_
  cases tree.locate (target file specifier) with
  | ok l =>
    cases hdirectory : tree.isDirectory l with
    | true => simpa [LeadsTo, hdirectory] using resolveDirectory_leadsTo tree l.path extensions
    | false => simp [hdirectory]
  | error fault =>
    cases hnone : (target file specifier).extension?.isNone with
    | true => simpa [LeadsTo, hnone] using withExtensions_leadsTo hextensions tree specifier _ fault
    | false => exact Logged.ensures_fail.mpr ⟨⟨_, _, rfl⟩, rfl⟩

theorem isFile_of_exactPlace? {l : Location} (hfile : tree.Grounded file)
    (h : exactPlace? tree file specifier = some l) : tree.Standing l ∧ tree.IsFile l := by
  unfold exactPlace? at h
  split at h
  · next m hlocate =>
    split at h
    · contradiction
    · next hdirectory =>
      obtain rfl := Option.some.inj h
      have hstanding := FileTree.standing_of_locate (grounded_target hfile specifier) hlocate
      exact ⟨hstanding, hstanding.isFile_or.resolve_right hdirectory⟩
  · contradiction

theorem grounded_of_mem_probed {p : Path} (hfile : tree.Grounded file)
    (hp : p ∈ probed tree file specifier extensions) : tree.Grounded p := by
  unfold probed at hp
  split at hp
  · next l _ =>
    split at hp
    · obtain ⟨e, -, rfl⟩ := List.mem_map.mp hp
      exact Or.inl (Path.isAbsolute_join l.isAbsolute_path _)
    · simp at hp
  · split at hp
    · obtain ⟨e, -, rfl⟩ := List.mem_map.mp hp
      exact (grounded_target hfile specifier).imp_left fun h => Path.isAbsolute_withExtension h _
    · simp at hp

/-- **A specifier names a file, or what is first probed.** A specifier is resolved to the path of a
place that is there: the exact one, if a file is there, or else the one to which the first path that
leads anywhere leads of those probed. At that one a directory can be, too, and is then not passed
over. Where there is no such place, the file system is at fault. -/
theorem resolve_reaches (hextensions : ∀ x ∈ extensions, '/' ∉ x) (hfile : tree.Grounded file)
    (specifier : Text) :
    (resolve tree file specifier extensions).Ensures
      (fun p => ∃ l, l.path = p ∧ tree.Standing l ∧
        (exactPlace? tree file specifier = some l ∧ tree.IsFile l ∨
          exactPlace? tree file specifier = none ∧
            tree.firstPlace (probed tree file specifier extensions) = some l ∧
            (tree.IsFile l ∨ tree.isDirectory l = true)))
      fun e => IsFileFault e ∧ exactPlace? tree file specifier = none ∧
        tree.firstPlace (probed tree file specifier extensions) = none := by
  refine (resolve_leadsTo hextensions tree file specifier).imp (fun p hp => ?_) fun e he => ?_
  · obtain ⟨l, hl, rfl⟩ := Option.map_eq_some_iff.mp hp
    refine ⟨l, rfl, ?_⟩
    rcases Option.or_eq_some_iff.mp hl with hexact | ⟨hexact, hprobed⟩
    · obtain ⟨hstanding, hisFile⟩ := isFile_of_exactPlace? hfile hexact
      exact ⟨hstanding, Or.inl ⟨hexact, hisFile⟩⟩
    · obtain ⟨q, hq, hlocate⟩ := FileTree.exists_of_firstPlace hprobed
      have hstanding := FileTree.standing_of_locate (grounded_of_mem_probed hfile hq) hlocate
      exact ⟨hstanding, Or.inr ⟨hexact, hprobed, hstanding.isFile_or⟩⟩
  · exact ⟨he.1, Option.or_eq_none_iff.mp he.2⟩

/-- A directory is spelt, and the second index in it is found. -/
theorem resolve_reaches_index :
    let lib := Utf8.encode "lib".toList
    let index := Utf8.encode "index.mjs".toList
    let tree : FileTree := ⟨[], [([lib], .directory), ([lib, index], .file [])]⟩
    let file := Path.ofText "/main.js".toList
    let extensions := ["js".toList, "mjs".toList]
    (∀ x ∈ extensions, '/' ∉ x) ∧ tree.Grounded file ∧
      ∃ p l, (resolve tree file "./lib".toList extensions).outcome = .ok p ∧ l.path = p ∧
        tree.firstPlace (probed tree file "./lib".toList extensions) = some l ∧ tree.IsFile l := by
  intro lib index tree file extensions
  have hextensions : ∀ x ∈ extensions, '/' ∉ x := by decide
  have hfile : tree.Grounded file := Or.inl rfl
  have hok : (resolve tree file "./lib".toList extensions).Ensures
      (fun p => p = Location.path [lib, index]) fun _ => False := by decide +kernel
  obtain ⟨p, hp, hpath⟩ := hok.exists_ok
  obtain ⟨l, hl, -, hcase⟩ := (resolve_reaches hextensions hfile "./lib".toList).of_ok hp
  refine ⟨hextensions, hfile, p, l, hp, hl, ?_⟩
  rcases hcase with ⟨hexact, -⟩ | ⟨-, hprobed, hisFile | hdirectory⟩
  · have hnone : exactPlace? tree file "./lib".toList = none := by decide +kernel
    exact absurd (hnone.symm.trans hexact) (by simp)
  · exact ⟨hprobed, hisFile⟩
  · have hfirst : tree.firstPlace (probed tree file "./lib".toList extensions) =
        some [lib, index] := by decide +kernel
    obtain rfl := Option.some.inj (hfirst.symm.trans hprobed)
    exact absurd hdirectory (by decide +kernel)

/-- A directory whose name ends as a script's does is taken for one, though a script that could be
tried next is there. -/
theorem resolve_directory_taken :
    let util := Utf8.encode "util.js".toList
    let tree : FileTree :=
      ⟨[], [([util], .directory), ([Utf8.encode "util.mjs".toList], .file [])]⟩
    let file := Path.ofText "/main.js".toList
    let extensions := ["js".toList, "mjs".toList]
    (∀ x ∈ extensions, '/' ∉ x) ∧ tree.isDirectory [util] = true ∧
      (resolve tree file "./util".toList extensions).Ensures (fun p => p = Location.path [util])
        fun _ => False := by
  decide +kernel

end Require

open Require

/-- The paths that are found: for a path that was given, or for a specifier in a file. -/
inductive Found (tree : FileTree) (p : Path) : Prop
  | given (q : Path) (h : tree.canonicalize q = .ok p)
  | resolved (file : Path) (specifier : Text) (extensions : List Text)
    (h : (resolve tree file specifier extensions).outcome = .ok p)

variable {tree : FileTree} {p q : Path}

theorem Found.exists_given (h : Found tree p) : ∃ q, tree.canonicalize q = .ok p := by
  cases h with
  | given q h => exact ⟨q, h⟩
  | resolved file specifier extensions h =>
    obtain ⟨q, -, hq⟩ := (resolve_ledFrom tree file specifier extensions).of_ok h
    exact ⟨q, hq⟩

theorem Found.exists_place (h : Found tree p) (htree : tree.Sound) :
    ∃ l, tree.Standing l ∧ l.path = p ∧ tree.locate p = .ok l := by
  obtain ⟨q, hq⟩ := h.exists_given
  obtain ⟨l, hl, rfl⟩ := FileTree.locate_of_canonicalize hq
  have hstanding := FileTree.standing_of_locate (Or.inr htree.standing) hl
  exact ⟨l, hstanding, rfl, FileTree.locate_path hstanding (FileTree.fits_of_locate htree hl)⟩

/-- **One place, one path.** What is found, in whichever way, is a straight path with no link on it.
Whatever leads to where it leads is canonically this path, which therefore is what is found for
itself. Of two that are found, the same are those that lead to one place, and they are equal: they
have one id, one place in any registry and one node in any graph. -/
theorem found_one_path (htree : tree.Sound) (hp : Found tree p) :
    p.Straight ∧ (∀ m, m <+: p.components.names → tree.isLink m = false) ∧
      tree.canonicalize p = .ok p ∧
      (∀ r, tree.locate r = tree.locate p → tree.canonicalize r = .ok p) ∧
      ∀ q, Found tree q →
        (tree.locate q = tree.locate p ↔ q = p) ∧ (Path.Same q p ↔ q = p) ∧
          (tree.locate q = tree.locate p → ModuleId.ofPath q = ModuleId.ofPath p ∧
            (∀ r : Registry, r.get? q = r.get? p) ∧ ∀ g : RequireGraph, g.node? q = g.node? p) := by
  obtain ⟨l, hstanding, rfl, hl⟩ := hp.exists_place htree
  have hcanonical : ∀ r, tree.locate r = tree.locate l.path → tree.canonicalize r = .ok l.path := by
    intro r hr
    rw [FileTree.canonicalize, hr, hl]
    rfl
  have hone : ∀ q, Found tree q → tree.locate q = tree.locate l.path → q = l.path := by
    intro q hq hsame
    obtain ⟨m, -, rfl, hm⟩ := hq.exists_place htree
    rw [hm, hl] at hsame
    exact congrArg Location.path (Except.ok.inj hsame)
  refine ⟨Location.straight_path hstanding.proper, fun m hm => ?_, hcanonical _ rfl, hcanonical,
    fun q hq => ⟨⟨hone q hq, fun h => by rw [h]⟩, ⟨fun hsame => ?_, fun h => h ▸ .refl _⟩,
      fun h => ?_⟩⟩
  · rw [Location.components_path hstanding.proper] at hm
    exact (hstanding.of_prefix hm).not_isLink
  · obtain ⟨m, hm, rfl, -⟩ := hq.exists_place htree
    rw [hm.eq_of_same hstanding hsame]
  · rw [hone q hq h]
    exact ⟨rfl, fun _ => rfl, fun _ => rfl⟩

/-- A file that is found through a link and `..`, and as the index of the directory that a link
leads to: it has one path. -/
theorem found_one_path_linked :
    let lib := Utf8.encode "lib".toList
    let index := Utf8.encode "index.js".toList
    let tree : FileTree := ⟨[], [([lib], .directory), ([lib, index], .file []),
      ([Utf8.encode "alias".toList], .link (Path.ofText "./lib/".toList))]⟩
    let through := Path.ofText "/alias/..//lib/./index.js".toList
    let main := Path.ofText "/main.js".toList
    tree.Sound ∧ ∃ p q, tree.canonicalize through = .ok p ∧
      (resolve tree main "./alias".toList ["js".toList]).outcome = .ok q ∧
      p ≠ through ∧ p.Straight ∧ tree.canonicalize p = .ok p ∧ q = p := by
  intro lib index tree through main
  have htree : tree.Sound := by
    have hroot : Location.Fits [] := ⟨by decide, List.forall_mem_nil _, List.forall_mem_nil _⟩
    refine ⟨FileTree.standing_root tree, hroot, fun l target hmem => ?_⟩
    rcases List.mem_cons.mp hmem with h | hmem
    · exact absurd (Prod.mk.inj h).2 nofun
    rcases List.mem_cons.mp hmem with h | hmem
    · exact absurd (Prod.mk.inj h).2 nofun
    obtain rfl := Node.link.inj (Prod.mk.inj (List.mem_singleton.mp hmem)).2
    decide +kernel
  have hgiven : tree.canonicalize through = .ok (Location.path [lib, index]) := by decide +kernel
  have hresolved : (resolve tree main "./alias".toList ["js".toList]).Ensures
      (fun q => tree.locate q = tree.locate (Location.path [lib, index])) fun _ => False := by
    decide +kernel
  obtain ⟨q, hq, hsame⟩ := hresolved.exists_ok
  obtain ⟨hstraight, -, hfixed, -, hone⟩ := found_one_path htree (.given through hgiven)
  exact ⟨htree, _, q, hgiven, hq, by decide +kernel, hstraight, hfixed,
    (hone q (.resolved _ _ _ hq)).1.mp hsame⟩

end ScriptBundle
