import ScriptBundle.Require.Call
import ScriptBundle.Require.Target

/-! Replacing a module's relative require calls by the ids of the modules they name. -/
namespace ScriptBundle

/-- A module's text without relative calls, and the paths they named, each once and in the order of
the first call. -/
structure Resolution where
  code : Text
  dependencies : List Path
  deriving DecidableEq

namespace Require

def lineOf : Nat → Text → Nat
  | _, [] => 1
  | offset, c :: rest =>
    if offset = 0 then 1
    else lineOf (offset - c.utf8Size) rest + if c = '\n' then 1 else 0

def resolveAll (tree : FileTree) (file : Path) (extensions : List Text) :
    List Text → Logged (List Path)
  | [] => return []
  | argument :: more => do
    let target ← resolve tree file argument extensions
    let targets ← resolveAll tree file extensions more
    return target :: targets

/-- The text of the pieces, with a target's id for each relative call in turn. -/
def substitute : List Piece → List Path → Text
  | .call source argument :: rest, targets =>
    if isRelative argument then
      match targets with
      | target :: more => (ModuleId.ofPath target).text ++ substitute rest more
      | [] => source ++ substitute rest []
    else source ++ substitute rest targets
  | .plain c :: rest, targets => c :: substitute rest targets
  | [], _ => []

/-- The paths without those that name again what an earlier one did. -/
def distinct (paths : List Path) : List Path :=
  paths.foldl
    (fun seen p => if seen.any fun q => decide (Path.Same q p) then seen else seen ++ [p]) []

/-- The module's text with its relative calls replaced, and its dependencies. -/
def resolveRequires (tree : FileTree) (file : Path) (text : Text) (extensions : List Text) :
    Logged Resolution := do
  let s := scan text
  Logged.tellAll s.events
  match s.unbalanced with
  | some offset => Logged.fail (.malformedRequire file (lineOf offset text) offset)
  | none =>
    let arguments := s.calls.map (·.argument)
    let relative := arguments.filter isRelative
    Logged.tellAll ((arguments.filter (!isRelative ·)).map (.kept · file))
    let targets ← resolveAll tree file extensions relative
    Logged.tellAll ((relative.zip targets).map fun (argument, target) =>
      .replaced file argument (ModuleId.ofPath target))
    return ⟨substitute s.pieces targets, distinct targets⟩

end Require
end ScriptBundle
