import Mathlib.Data.List.Dedup
import Mathlib.Data.List.Perm.Subperm
import ScriptBundle.FileTree.Canonical

/-! The places to which paths lead. A path read from the root leads to a place that is there, below
directories only, by names that are steps; so its canonical path says the place and nothing else. -/
namespace ScriptBundle

structure Name.Proper (name : Name) : Prop where
  whole : Name.slash ∉ name
  moves : name.isIdle = false
  down : name ≠ Name.up

namespace Path

theorem isAbsolute_spell_root (names : List Name) : (spell .root names).isAbsolute = true := rfl

theorem spelling_of_isAbsolute {p : Path} (h : p.isAbsolute = true) : p.spelling.1 = .root := by
  unfold spelling
  split
  · next hp => exact absurd hp (pieces_ne_nil _ _)
  · rw [if_pos h]

theorem isAbsolute_join {p : Path} (h : p.isAbsolute = true) (q : Path) :
    (p.join q).isAbsolute = true := by
  obtain ⟨rest, hrest⟩ : ∃ rest, p.bytes = Name.slash :: rest := by
    cases hp : p.bytes with
    | nil => simp [isAbsolute, hp] at h
    | cons b rest => exact ⟨rest, by simpa [isAbsolute, hp] using h⟩
  unfold join
  split
  · assumption
  · split <;> simp [isAbsolute, hrest]

theorem isAbsolute_parent {p q : Path} (h : p.isAbsolute = true) (hq : p.parent? = some q) :
    q.isAbsolute = true := by
  unfold parent? at hq
  rw [spelling_of_isAbsolute h] at hq
  split at hq
  · contradiction
  · simp at hq
  · obtain rfl := Option.some.inj hq
    exact isAbsolute_spell_root _

theorem isAbsolute_withExtension {p : Path} (h : p.isAbsolute = true) (extension : Name) :
    (p.withExtension extension).isAbsolute = true := by
  unfold withExtension
  rw [spelling_of_isAbsolute h]
  split
  · exact h
  · exact isAbsolute_spell_root _

end Path

namespace Location

theorem isAbsolute_path (l : Location) : l.path.isAbsolute = true := rfl

theorem components_path {l : Location} (h : ∀ name ∈ l, name.Proper) :
    l.path.components = ⟨.root, l⟩ := by
  have hspelling : l.path.spelling = (.root, pieces Name.slash (joinPieces Name.slash l)) := rfl
  have hfilter :
      (pieces Name.slash (joinPieces Name.slash l)).filter (fun name => !Name.isIdle name) = l := by
    by_cases hl : l = []
    · subst hl
      rfl
    · rw [pieces_joinPieces hl fun name hname => (h name hname).whole]
      exact List.filter_eq_self.mpr fun name hname => by simp [(h name hname).moves]
  rw [Path.components, hspelling, hfilter]

end Location

namespace FileTree

variable {tree : FileTree} {here l m : Location} {name : Name} {names rest : List Name}

/-- A place that is there, is no link, and has directories above it. -/
structure Standing (tree : FileTree) (l : Location) : Prop where
  proper : ∀ name ∈ l, name.Proper
  above : ∀ m, m <+: l → m ≠ l → tree.isDirectory m = true
  isSome_node : (tree.node? l).isSome
  not_isLink : tree.isLink l = false

theorem standing_root (tree : FileTree) : tree.Standing [] where
  proper := by simp
  above := fun m hm hne => absurd (List.prefix_nil.mp hm) hne
  isSome_node := rfl
  not_isLink := rfl

theorem node?_of_isDirectory (h : tree.isDirectory l = true) : tree.node? l = some .directory := by
  simpa [isDirectory] using h

theorem mem_entries_of_node? (hl : l ≠ []) (h : (tree.node? l).isSome) :
    l ∈ tree.entries.map (·.1) := by
  obtain ⟨node, hnode⟩ := Option.isSome_iff_exists.mp h
  rw [node?, if_neg hl] at hnode
  obtain ⟨before, after, hentries, -⟩ := List.lookup_eq_some_iff.mp hnode
  simp [hentries]

theorem Standing.of_prefix (h : tree.Standing l) (hm : m <+: l) : tree.Standing m := by
  by_cases hne : m = l
  · rwa [hne]
  have hnode := node?_of_isDirectory (h.above m hm hne)
  refine ⟨fun name hname => h.proper name (hm.subset hname), fun k hk _ => ?_, ?_, ?_⟩
  · exact h.above k (hk.trans hm) fun heq => hne (hm.eq_of_length_le (heq ▸ hk.length_le))
  · simp [hnode]
  · simp [isLink, hnode]

theorem step_eq_place_iff : tree.step here name rest = .ok (.place l) ↔
    l = here ++ [name] ∧ l.width + (wantsDirectory rest && !tree.isLink l).toNat < pathLimit ∧
      tree.isDirectory here = true ∧ name.length ≤ nameLimit ∧ (tree.node? l).isSome ∧
      tree.isLink l = false := by
  have hlink : tree.isLink l = false ↔ ∀ target, tree.node? l ≠ some (.link target) := by
    unfold isLink
    split
    · next target htarget => simp [htarget]
    · next hno => simpa using hno
  unfold step
  constructor
  · intro h
    simp only at h
    split at h
    · contradiction
    next hwidth =>
    split at h
    · contradiction
    next hdirectory =>
    split at h
    · contradiction
    next hname =>
    split at h
    · contradiction
    · simp at h
    next node hnot hnode =>
    obtain rfl := Step.place.inj (Except.ok.inj h)
    refine ⟨rfl, Nat.lt_of_not_le hwidth, by simpa using hdirectory, Nat.le_of_not_lt hname,
      by simp [hnode], hlink.mpr fun target htarget => ?_⟩
    exact hnot target (Option.some.inj (hnode.symm.trans htarget))
  · rintro ⟨rfl, hwidth, hdirectory, hname, hnode, hnot⟩
    obtain ⟨node, hnode⟩ := Option.isSome_iff_exists.mp hnode
    simp only [Nat.not_le.mpr hwidth, hdirectory, Nat.not_lt.mpr hname, if_false, hnode,
      Bool.not_true, Bool.false_eq_true]
    cases node with
    | link target => exact absurd hnode (hlink.mp hnot target)
    | file content => rfl
    | directory => rfl

theorem node?_of_step_link {target : Path} (h : tree.step here name rest = .ok (.link target)) :
    tree.node? (here ++ [name]) = some (.link target) := by
  unfold step at h
  simp only at h
  split at h
  · contradiction
  split at h
  · contradiction
  split at h
  · contradiction
  split at h
  · contradiction
  · next found hnode =>
    obtain rfl := Step.link.inj (Except.ok.inj h)
    exact hnode
  · simp at h

/-- A property that a walk keeps of its place, where all names on its way have one of their own. -/
structure Kept (tree : FileTree) (P : Location → Prop) (Q : Name → Prop) : Prop where
  root : P []
  up : ∀ {l}, P l → P l.dropLast
  down : ∀ {here name rest l}, P here → Q name → name.isIdle = false → name ≠ Name.up →
    tree.step here name rest = .ok (.place l) → P l
  link : ∀ {l target}, tree.node? l = some (.link target) → ∀ n ∈ steps target, Q n

namespace Kept

variable {P : Location → Prop} {Q : Name → Prop}

theorem walkWith {jump : Location → List Name → Except Fault Location} (h : tree.Kept P Q)
    (hjump : ∀ {here names l}, P here → (∀ n ∈ names, Q n) → jump here names = .ok l → P l)
    (hhere : P here) (hnames : ∀ n ∈ names, Q n) (hl : tree.walkWith jump here names = .ok l) :
    P l := by
  induction names generalizing here with
  | nil =>
    obtain rfl := Except.ok.inj hl
    exact hhere
  | cons name rest ih =>
    obtain ⟨hname, hrest⟩ := List.forall_mem_cons.mp hnames
    rw [FileTree.walkWith] at hl
    split at hl
    · split at hl
      · exact ih (h.up hhere) hrest hl
      · contradiction
    · next hup =>
      split at hl
      · split at hl
        · contradiction
        · exact ih hhere hrest hl
      · next hidle =>
        split at hl
        · contradiction
        · next l' hstep => exact ih (h.down hhere hname (by simpa using hidle) hup hstep) hrest hl
        · next target hstep =>
          refine hjump ?_ (fun n hn => ?_) hl
          · split
            · exact h.root
            · exact hhere
          · exact (List.mem_append.mp hn).elim (h.link (node?_of_step_link hstep) n) (hrest n)

theorem walk {links : Nat} (h : tree.Kept P Q) (hhere : P here) (hnames : ∀ n ∈ names, Q n)
    (hl : tree.walk links here names = .ok l) : P l := by
  induction links generalizing here names l with
  | zero => exact h.walkWith (fun _ _ hno => by simp at hno) hhere hnames hl
  | succ links ih => exact h.walkWith ih hhere hnames hl

theorem locate {p : Path} (h : tree.Kept P Q)
    (hbegin : p.isAbsolute = true ∨ P tree.workingDirectory)
    (hnames : 0 ∉ p.bytes → ∀ n ∈ steps p, Q n) (hl : tree.locate p = .ok l) : P l := by
  unfold FileTree.locate at hl
  split at hl
  · contradiction
  next hzero =>
  split at hl
  · contradiction
  refine h.walk ?_ (hnames (by simpa using hzero)) hl
  split
  · exact h.root
  · next hp => exact hbegin.resolve_left hp

end Kept

theorem Standing.down (h : tree.Standing here) (hname : name.Proper)
    (hl : tree.step here name rest = .ok (.place l)) : tree.Standing l := by
  obtain ⟨rfl, -, hdirectory, -, hnode, hlink⟩ := step_eq_place_iff.mp hl
  refine ⟨fun n hn => ?_, fun m hm hne => ?_, hnode, hlink⟩
  · rcases List.mem_append.mp hn with hn | hn
    · exact h.proper n hn
    · rwa [List.mem_singleton.mp hn]
  · rcases List.prefix_concat_iff.mp hm with heq | hm
    · exact absurd heq hne
    · by_cases hhere : m = here
      · rwa [hhere]
      · exact h.above m hm hhere

theorem standing_kept (tree : FileTree) : tree.Kept tree.Standing (Name.slash ∉ ·) where
  root := standing_root tree
  up h := h.of_prefix (List.dropLast_prefix _)
  down hhere hname hidle hup hstep := hhere.down ⟨hname, hidle, hup⟩ hstep
  link _ _ := not_mem_of_mem_pieces

/-- The path is read from a standing place: the root, or a working directory that stands. -/
def Grounded (tree : FileTree) (p : Path) : Prop :=
  p.isAbsolute = true ∨ tree.Standing tree.workingDirectory

theorem standing_of_locate {p : Path} (h : tree.Grounded p) (hl : tree.locate p = .ok l) :
    tree.Standing l :=
  (standing_kept tree).locate h (fun _ _ => not_mem_of_mem_pieces) hl

theorem isDirectory_of_walkWith {jump : Location → List Name → Except Fault Location}
    (hnames : names ≠ []) (hl : tree.walkWith jump here names = .ok l) :
    tree.isDirectory here = true := by
  induction names with
  | nil => exact absurd rfl hnames
  | cons name rest ih =>
    rw [walkWith] at hl
    split at hl
    · split at hl
      · assumption
      · contradiction
    split at hl
    · split at hl
      · contradiction
      · next hgo =>
        by_cases hrest : rest = []
        · simpa [hrest] using hgo
        · exact ih hrest hl
    · cases hdirectory : tree.isDirectory here with
      | true => rfl
      | false =>
        have hstep : ∃ fault, tree.step here name rest = .error fault := by
          unfold step
          simp only [hdirectory]
          split
          · exact ⟨_, rfl⟩
          · exact ⟨_, rfl⟩
        obtain ⟨fault, hfault⟩ := hstep
        simp [hfault] at hl

theorem isDirectory_workingDirectory {p : Path} (hp : ¬ p.isAbsolute = true)
    (hl : tree.locate p = .ok l) : tree.isDirectory tree.workingDirectory = true := by
  unfold locate at hl
  split at hl
  · contradiction
  split at hl
  · contradiction
  exact isDirectory_of_walkWith (pieces_ne_nil _ _) hl

theorem Standing.eq_of_same (hl : tree.Standing l) (hm : tree.Standing m)
    (h : Path.Same l.path m.path) : l = m := by
  have hcomponents : l.path.components = m.path.components := h
  rw [Location.components_path hl.proper, Location.components_path hm.proper] at hcomponents
  exact congrArg Components.names hcomponents

/-- The path of a standing place. -/
def Canonical (tree : FileTree) (p : Path) : Prop := ∃ l, tree.Standing l ∧ l.path = p

theorem Canonical.isAbsolute {p : Path} (h : tree.Canonical p) : p.isAbsolute = true := by
  obtain ⟨l, -, rfl⟩ := h
  exact l.isAbsolute_path

theorem Canonical.eq_of_same {p q : Path} (hp : tree.Canonical p) (hq : tree.Canonical q)
    (h : Path.Same p q) : p = q := by
  obtain ⟨l, hl, rfl⟩ := hp
  obtain ⟨m, hm, rfl⟩ := hq
  rw [hl.eq_of_same hm h]

theorem locate_of_canonicalize {p q : Path} (h : tree.canonicalize p = .ok q) :
    ∃ l, tree.locate p = .ok l ∧ l.path = q := by
  unfold canonicalize at h
  cases hl : tree.locate p with
  | error fault => simp [hl, Except.map] at h
  | ok l => exact ⟨l, rfl, by simpa [hl, Except.map] using h⟩

theorem isAbsolute_of_canonicalize {p q : Path} (h : tree.canonicalize p = .ok q) :
    q.isAbsolute = true := by
  obtain ⟨l, -, rfl⟩ := locate_of_canonicalize h
  exact l.isAbsolute_path

theorem canonical_of_canonicalize {p q : Path} (hp : tree.Grounded p)
    (h : tree.canonicalize p = .ok q) : tree.Canonical q := by
  obtain ⟨l, hl, rfl⟩ := locate_of_canonicalize h
  exact ⟨l, standing_of_locate hp hl, rfl⟩

theorem readText_root (tree : FileTree) : tree.readText (Location.path []) = .error .isADirectory :=
  rfl

/-- The places below the root at which a file or a directory is. -/
def solid (tree : FileTree) : List Location :=
  ((tree.entries.map (·.1)).filter fun l => l != [] && !tree.isLink l).dedup

/-- The number of files and directories in the tree, the root included. -/
def population (tree : FileTree) : Nat := tree.solid.length + 1

theorem population_le_size (tree : FileTree) : tree.population ≤ tree.size := by
  have hdedup := (List.dedup_sublist
    ((tree.entries.map (·.1)).filter fun l => l != [] && !tree.isLink l)).length_le
  have hfilter := List.length_filter_le (fun l : Location => l != [] && !tree.isLink l)
    (tree.entries.map (·.1))
  rw [List.length_map] at hfilter
  exact Nat.succ_le_succ (Nat.le_trans hdedup hfilter)

theorem mem_solid (hl : l ≠ []) (h : (tree.node? l).isSome) (hlink : tree.isLink l = false) :
    l ∈ tree.solid := by
  exact List.mem_dedup.mpr
    (List.mem_filter.mpr ⟨mem_entries_of_node? hl h, by simp [hl, hlink]⟩)

theorem Canonical.exists_entry {p : Path} (h : tree.Canonical p) {text : Text}
    (hread : tree.readText p = .ok text) :
    ∃ l ∈ tree.solid, tree.Standing l ∧ l.path = p := by
  obtain ⟨l, hl, rfl⟩ := h
  have hne : l ≠ [] := by
    rintro rfl
    simp [readText_root] at hread
  exact ⟨l, mem_solid hne hl.isSome_node hl.not_isLink, hl, rfl⟩

def places (tree : FileTree) : List Path :=
  ([] :: tree.entries.map (·.1)).map Location.path

theorem length_places (tree : FileTree) : tree.places.length = tree.size := by
  simp [places, size]

theorem Canonical.mem_places {p : Path} (h : tree.Canonical p) : p ∈ tree.places := by
  obtain ⟨l, hl, rfl⟩ := h
  refine List.mem_map_of_mem ?_
  by_cases hne : l = []
  · rw [hne]
    exact List.mem_cons_self
  · exact List.mem_cons_of_mem _ (mem_entries_of_node? hne hl.isSome_node)

/-- There are fewer readable files than files and directories, also when one of them is found from a
working directory that no path leads to. -/
theorem length_lt_population {entry c : Path} (hc : tree.canonicalize entry = .ok c)
    {paths : List Path} (hnodup : paths.Nodup) (hpaths : ∀ p ∈ paths, p = c ∨ tree.Canonical p)
    (hread : ∀ p ∈ paths, ∃ text, tree.readText p = .ok text) :
    paths.length < tree.population := by
  have hcount : ∀ places : List Path, paths ⊆ places → places.length ≤ tree.solid.length →
      paths.length < tree.population := by
    intro places hsub hlength
    have := (List.subperm_of_subset hnodup hsub).length_le
    unfold population
    omega
  by_cases hcanonical : tree.Canonical c
  · refine hcount (tree.solid.map Location.path) (fun p hp => ?_) (by simp)
    obtain ⟨text, htext⟩ := hread p hp
    have hp' : tree.Canonical p := (hpaths p hp).elim (fun h => h ▸ hcanonical) id
    obtain ⟨l, hl, -, rfl⟩ := hp'.exists_entry htext
    exact List.mem_map_of_mem hl
  · -- The place of the working directory is left to `c`: it is a directory, but not standing.
    have hrelative : ¬ entry.isAbsolute = true :=
      fun h => hcanonical (canonical_of_canonicalize (Or.inl h) hc)
    have hstray : ¬ tree.Standing tree.workingDirectory :=
      fun h => hcanonical (canonical_of_canonicalize (Or.inr h) hc)
    have hmem : tree.workingDirectory ∈ tree.solid := by
      obtain ⟨l, hl⟩ := locate_of_canonicalize hc
      have hnode := node?_of_isDirectory (isDirectory_workingDirectory hrelative hl.1)
      refine mem_solid (fun h => hstray (h ▸ standing_root tree)) ?_ ?_
      · rw [hnode]
        rfl
      · rw [isLink, hnode]
    refine hcount (c :: (tree.solid.erase tree.workingDirectory).map Location.path)
      (fun p hp => ?_) ?_
    · rcases hpaths p hp with rfl | hp'
      · exact List.mem_cons_self
      · obtain ⟨text, htext⟩ := hread p hp
        obtain ⟨l, hl, hstanding, rfl⟩ := hp'.exists_entry htext
        have hne : l ≠ tree.workingDirectory := fun h => hstray (h ▸ hstanding)
        exact List.mem_cons_of_mem _ (List.mem_map_of_mem ((List.mem_erase_of_ne hne).mpr hl))
    · have hpos := List.length_pos_of_mem hmem
      rw [List.length_cons, List.length_map, List.length_erase_of_mem hmem]
      omega

end FileTree
end ScriptBundle
