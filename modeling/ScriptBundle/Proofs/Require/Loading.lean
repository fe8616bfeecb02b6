import ScriptBundle.Proofs.FileTree.Standing
import ScriptBundle.Require.Substitution
import ScriptBundle.Settings

/-! Loading a module: its text is read, its require calls are found, and the relative ones are
resolved. What it requires are the canonical paths that these calls name; when it does not load, the
error tells which of the three went wrong. -/
namespace ScriptBundle

variable {tree : FileTree} {settings : Settings} {extensions : List Text} {file p q : Path}
  {text : Text}

namespace Require

def relativeArguments (text : Text) : List Text :=
  ((scan text).calls.map (·.argument)).filter isRelative

theorem isAbsolute_target (hfile : file.isAbsolute = true) (specifier : Text) :
    (target file specifier).isAbsolute = true := by
  refine Path.isAbsolute_join ?_ _
  cases hparent : file.parent? with
  | none => exact hfile
  | some parent => exact Path.isAbsolute_parent hfile hparent

theorem grounded_target (hfile : tree.Grounded file) (specifier : Text) :
    tree.Grounded (target file specifier) :=
  hfile.imp_left fun h => isAbsolute_target h specifier

/-- The path of a place to which some path leads that is read from where `base` is, or the root. -/
def LedFrom (tree : FileTree) (base q : Path) : Prop :=
  ∃ p, (tree.Grounded base → tree.Grounded p) ∧ tree.canonicalize p = .ok q

theorem LedFrom.canonical {base : Path} (h : LedFrom tree base q) (hbase : tree.Grounded base) :
    tree.Canonical q := by
  obtain ⟨p, hp, hq⟩ := h
  exact FileTree.canonical_of_canonicalize (hp hbase) hq

theorem ledFrom_of_indexOf {directory : Path} (hdirectory : directory.isAbsolute = true)
    (base : Path) (h : indexOf tree directory extensions = some q) : LedFrom tree base q := by
  induction extensions with
  | nil => simp [indexOf] at h
  | cons extension more ih =>
    rw [indexOf] at h
    split at h
    · next found hfound =>
      obtain rfl := Option.some.inj h
      exact ⟨_, fun _ => Or.inl (Path.isAbsolute_join hdirectory _), hfound⟩
    · exact ih h

def IsFileFault (e : BundleError) : Prop := ∃ path fault, e = .fileSystem path fault

def IsExtensionFault (extensions : List Text) (e : BundleError) : Prop :=
  ∃ extension ∈ extensions, '/' ∈ extension ∧ e = .separatorInExtension extension

theorem not_isExtensionFault (hextensions : ∀ x ∈ extensions, '/' ∉ x) (e : BundleError) :
    ¬ IsExtensionFault extensions e :=
  fun ⟨x, hx, hslash, _⟩ => hextensions x hx hslash

theorem resolveDirectory_ensures {directory : Path} (hdirectory : directory.isAbsolute = true)
    (base : Path) :
    (resolveDirectory tree directory extensions).Ensures (LedFrom tree base) IsFileFault := by
  unfold resolveDirectory
  cases hindex : indexOf tree directory extensions with
  | none => exact Logged.ensures_fail.mpr ⟨_, _, rfl⟩
  | some found =>
    simp only [Logged.ensures_tell_bind, Logged.ensures_pure]
    exact ledFrom_of_indexOf hdirectory base hindex

theorem withExtensions_ensures (exact : Path) (specifier : Text) (fault : Fault) :
    (withExtensions tree specifier exact fault extensions).Ensures (LedFrom tree exact)
      fun e => IsFileFault e ∨ IsExtensionFault extensions e := by
  induction extensions with
  | nil => exact Logged.ensures_fail.mpr (Or.inl ⟨_, _, rfl⟩)
  | cons extension more ih =>
    rw [withExtensions]
    split
    · next hslash =>
      exact Logged.ensures_fail.mpr (Or.inr ⟨extension, by simp, by simpa using hslash, rfl⟩)
    · split
      · next found hfound =>
        simp only [Logged.ensures_tell_bind, Logged.ensures_pure]
        exact ⟨_, fun h => h.imp_left fun h => Path.isAbsolute_withExtension h _, hfound⟩
      · refine ih.imp (fun _ => id) fun e he => he.imp_right ?_
        rintro ⟨x, hx, hslash, rfl⟩
        exact ⟨x, List.mem_cons_of_mem _ hx, hslash, rfl⟩

theorem resolve_ledFrom (tree : FileTree) (file : Path) (specifier : Text)
    (extensions : List Text) :
    (resolve tree file specifier extensions).Ensures (LedFrom tree file)
      fun e => IsFileFault e ∨ IsExtensionFault extensions e := by
  have hexact : tree.Grounded file → tree.Grounded (target file specifier) :=
    fun hfile => grounded_target hfile specifier
  unfold resolve
  rw [Logged.ensures_tell_bind]
  split
  · next l hl =>
    split
    · exact (resolveDirectory_ensures l.isAbsolute_path file).imp (fun _ => id) fun _ => Or.inl
    · refine Logged.ensures_pure.mpr ⟨_, hexact, ?_⟩
      rw [FileTree.canonicalize, hl]
      rfl
  · split
    · refine (withExtensions_ensures _ specifier _).imp (fun q hq => ?_) fun _ => id
      obtain ⟨p, hp, hq⟩ := hq
      exact ⟨p, fun h => hp (hexact h), hq⟩
    · exact Logged.ensures_fail.mpr (Or.inl ⟨_, _, rfl⟩)

theorem resolve_ensures (tree : FileTree) (file : Path) (specifier : Text)
    (extensions : List Text) :
    (resolve tree file specifier extensions).Ensures
      (fun q => tree.Grounded file → tree.Canonical q)
      fun e => IsFileFault e ∨ IsExtensionFault extensions e :=
  (resolve_ledFrom tree file specifier extensions).imp (fun _ hq hfile => hq.canonical hfile)
    fun _ => id

theorem resolveAll_ensures (tree : FileTree) (file : Path) (extensions : List Text)
    (arguments : List Text) :
    (resolveAll tree file extensions arguments).Ensures
      (fun targets =>
        (∀ a ∈ arguments, ∃ t ∈ targets, (resolve tree file a extensions).outcome = .ok t) ∧
        ∀ t ∈ targets, ∃ a ∈ arguments, (resolve tree file a extensions).outcome = .ok t)
      fun e => ∃ a ∈ arguments, (resolve tree file a extensions).outcome = .error e := by
  induction arguments with
  | nil => simp [resolveAll]
  | cons argument more ih =>
    have hfirst : (resolve tree file argument extensions).Ensures (fun _ => True)
        fun e => ∃ a ∈ argument :: more, (resolve tree file a extensions).outcome = .error e := by
      exact ⟨fun _ => trivial, fun h => ⟨argument, by simp, h⟩⟩
    refine hfirst.bind fun target htarget _ => ?_
    refine (ih.imp (fun _ => id) fun e he => ?_).bind ?_
    · obtain ⟨a, ha, herror⟩ := he
      exact ⟨a, List.mem_cons_of_mem _ ha, herror⟩
    · rintro targets - ⟨hall, hback⟩
      rw [Logged.ensures_pure]
      constructor
      · intro a ha
        rcases List.mem_cons.mp ha with rfl | ha
        · exact ⟨target, by simp, htarget⟩
        · obtain ⟨t, ht, hok⟩ := hall a ha
          exact ⟨t, List.mem_cons_of_mem _ ht, hok⟩
      · intro t ht
        rcases List.mem_cons.mp ht with rfl | ht
        · exact ⟨argument, by simp, htarget⟩
        · obtain ⟨a, ha, hok⟩ := hback t ht
          exact ⟨a, List.mem_cons_of_mem _ ha, hok⟩

theorem mem_distinct (paths : List Path) :
    (∀ p ∈ distinct paths, p ∈ paths) ∧ ∀ p ∈ paths, ∃ q ∈ distinct paths, Path.Same q p := by
  have hfold : ∀ seen : List Path, ∃ more, paths.foldl (fun seen p =>
      if seen.any fun q => decide (Path.Same q p) then seen else seen ++ [p]) seen = seen ++ more ∧
      (∀ p ∈ more, p ∈ paths) ∧ ∀ p ∈ paths, ∃ q ∈ seen ++ more, Path.Same q p := by
    induction paths with
    | nil => exact fun seen => ⟨[], by simp⟩
    | cons first paths ih =>
      intro seen
      rw [List.foldl_cons]
      split
      · next hseen =>
        obtain ⟨more, hmore, hsub, hall⟩ := ih seen
        refine ⟨more, hmore, fun p hp => List.mem_cons_of_mem _ (hsub p hp), fun p hp => ?_⟩
        rcases List.mem_cons.mp hp with rfl | hp
        · obtain ⟨q, hq, hqp⟩ := List.any_eq_true.mp hseen
          exact ⟨q, List.mem_append_left _ hq, by simpa using hqp⟩
        · exact hall p hp
      · obtain ⟨more, hmore, hsub, hall⟩ := ih (seen ++ [first])
        refine ⟨first :: more, by rw [hmore]; simp, fun p hp => ?_, fun p hp => ?_⟩
        · exact (List.mem_cons.mp hp).elim (by rintro rfl; simp) fun hp =>
            List.mem_cons_of_mem _ (hsub p hp)
        · rcases List.mem_cons.mp hp with rfl | hp
          · exact ⟨p, by simp, .refl p⟩
          · simpa using hall p hp
  obtain ⟨more, hmore, hsub, hall⟩ := hfold []
  rw [distinct, hmore]
  exact ⟨by simpa using hsub, hall⟩

end Require

open Require

/-- The text of a module whose calls are balanced and whose relative calls all resolve. -/
structure Loads (tree : FileTree) (settings : Settings) (p : Path) (text : Text) : Prop where
  read : tree.readText p = .ok text
  balanced : (scan text).unbalanced = none
  resolved : ∀ a ∈ relativeArguments text,
    ∃ t, (resolve tree p a settings.extensions).outcome = .ok t

/-- A module that loads requires what its relative calls resolve to. -/
def Requires (tree : FileTree) (settings : Settings) (p q : Path) : Prop :=
  ∃ text, Loads tree settings p text ∧
    ∃ a ∈ relativeArguments text, (resolve tree p a settings.extensions).outcome = .ok q

/-- What keeps a module from being loaded, as the error says it. -/
inductive LoadFault (tree : FileTree) (settings : Settings) (p : Path) : BundleError → Prop
  | unread {fault : Fault} (h : tree.readText p = .error fault) :
    LoadFault tree settings p (.fileSystem p fault)
  | unbalanced {text : Text} {offset : Nat} (hread : tree.readText p = .ok text)
    (h : (scan text).unbalanced = some offset) :
    LoadFault tree settings p (.malformedRequire p (lineOf offset text) offset)
  | unresolved {text a : Text} {path : Path} {fault : Fault} (hread : tree.readText p = .ok text)
    (hbalanced : (scan text).unbalanced = none) (ha : a ∈ relativeArguments text)
    (h : (resolve tree p a settings.extensions).outcome = .error (.fileSystem path fault)) :
    LoadFault tree settings p (.fileSystem path fault)

theorem LoadFault.not_loads {e : BundleError} (h : LoadFault tree settings p e) :
    ¬ Loads tree settings p text := by
  intro hloads
  cases h with
  | unread h => simp [hloads.read] at h
  | unbalanced hread h =>
    obtain rfl := Except.ok.inj (hread.symm.trans hloads.read)
    simp [hloads.balanced] at h
  | unresolved hread _ ha h =>
    obtain rfl := Except.ok.inj (hread.symm.trans hloads.read)
    obtain ⟨t, ht⟩ := hloads.resolved _ ha
    simp [ht] at h

theorem Requires.canonical (hp : p.isAbsolute = true) (h : Requires tree settings p q) :
    tree.Canonical q := by
  obtain ⟨text, -, a, -, hq⟩ := h
  exact (resolve_ensures tree p a settings.extensions).of_ok hq (Or.inl hp)

theorem resolveRequires_ensures (hp : p.isAbsolute = true) (hread : tree.readText p = .ok text) :
    (resolveRequires tree p text settings.extensions).Ensures
      (fun r => Loads tree settings p text ∧ ∀ q, Requires tree settings p q ↔ q ∈ r.dependencies)
      fun e => LoadFault tree settings p e ∨ IsExtensionFault settings.extensions e := by
  unfold resolveRequires
  simp only [Logged.ensures_tellAll_bind]
  cases hbalanced : (scan text).unbalanced with
  | some offset => exact Logged.ensures_fail.mpr (Or.inl (.unbalanced hread hbalanced))
  | none =>
    simp only [Logged.ensures_tellAll_bind]
    refine ((resolveAll_ensures tree p settings.extensions (relativeArguments text)).imp
      (fun _ => id) fun e he => ?_).bind ?_
    · obtain ⟨a, ha, herror⟩ := he
      refine ((resolve_ensures tree p a settings.extensions).of_error herror).imp_left ?_
      rintro ⟨path, fault, rfl⟩
      exact .unresolved hread hbalanced ha herror
    · rintro targets - ⟨hall, hback⟩
      simp only [Logged.ensures_tellAll_bind, Logged.ensures_pure]
      have hloads : Loads tree settings p text :=
        ⟨hread, hbalanced, fun a ha => (hall a ha).imp fun _ ht => ht.2⟩
      have hrequires : ∀ {t}, t ∈ targets → Requires tree settings p t :=
        fun ht => ⟨text, hloads, hback _ ht⟩
      obtain ⟨hsub, hcover⟩ := mem_distinct targets
      refine ⟨hloads, fun q => ⟨fun hq => ?_, fun hq => hrequires (hsub q hq)⟩⟩
      have hcanonical := hq.canonical hp
      obtain ⟨text', hloads', a, ha, hok⟩ := hq
      obtain rfl := Except.ok.inj (hread.symm.trans hloads'.read)
      obtain ⟨t, ht, hok'⟩ := hall a ha
      obtain rfl := Except.ok.inj (hok'.symm.trans hok)
      obtain ⟨q', hq', hsame⟩ := hcover t ht
      have hcanonical' := (hrequires (hsub q' hq')).canonical hp
      rwa [← hcanonical'.eq_of_same hcanonical hsame]

end ScriptBundle
