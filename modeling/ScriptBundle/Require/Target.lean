import ScriptBundle.FileTree.Canonical
import ScriptBundle.Log.Logged

/-! The file that a relative specifier names: the exact path; or, where that is not there and has no
extension, the path with one of the given extensions; for a directory, the index inside it. -/
namespace ScriptBundle
namespace Require

def indexName : Text := ['i', 'n', 'd', 'e', 'x', '.']

def indexPath (directory : Path) (extension : Text) : Path :=
  directory.join (Path.ofText (indexName ++ extension))

/-- The extension named when no index is found and none was to be tried. -/
def usualExtension : Text := ['j', 's']

def indexOf (tree : FileTree) (directory : Path) : List Text → Option Path
  | [] => none
  | extension :: more =>
    match tree.canonicalize (indexPath directory extension) with
    | .ok found => some found
    | .error _ => indexOf tree directory more

def resolveDirectory (tree : FileTree) (directory : Path) (extensions : List Text) :
    Logged Path :=
  match indexOf tree directory extensions with
  | some found => do
    Logged.tell (.resolvedByIndex directory found)
    return found
  | none =>
    let named := extensions.head?.getD usualExtension
    Logged.fail (.fileSystem (indexPath directory named) .noIndex)

/-- The first file that the target with an extension after it names. -/
def withExtensions (tree : FileTree) (specifier : Text) (target : Path) (fault : Fault) :
    List Text → Logged Path
  | [] => Logged.fail (.fileSystem target fault)
  | extension :: more =>
    if extension.contains '/' then Logged.fail (.separatorInExtension extension)
    else
      match tree.canonicalize (target.withExtension (Utf8.encode extension)) with
      | .ok found => do
        Logged.tell (.resolvedByExtension specifier found extension)
        return found
      | .error _ => withExtensions tree specifier target fault more

/-- The path that a specifier spells when it is read from the directory of a file. -/
def target (file : Path) (specifier : Text) : Path :=
  (file.parent?.getD file).join (Path.ofText specifier)

def candidates (file : Path) (specifier : Text) (extensions : List Text) : List Path :=
  let exact := target file specifier
  exact :: extensions.flatMap fun e => [exact.withExtension (Utf8.encode e), indexPath exact e]

/-- The path of the file that `specifier` names in the module at `file`. -/
def resolve (tree : FileTree) (file : Path) (specifier : Text) (extensions : List Text) :
    Logged Path := do
  let exact := target file specifier
  Logged.tell (.resolving specifier file)
  match tree.locate exact with
  | .ok l =>
    if tree.isDirectory l then resolveDirectory tree l.path extensions else return l.path
  | .error fault =>
    if exact.extension?.isNone then withExtensions tree specifier exact fault extensions
    else Logged.fail (.fileSystem exact fault)

end Require
end ScriptBundle
