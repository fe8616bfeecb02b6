import ScriptBundle.Settings
import ScriptBundle.Path
import ScriptBundle.Text.Pieces

/-! The arguments of the command: one entry, extensions to try, and how much to log. They are
taken from left to right, and the first that settles what to do ends the reading. -/
namespace ScriptBundle

structure Command where
  entry : Text
  extensions : List Text
  verbosity : Nat
  deriving DecidableEq

inductive Invocation
  | bundle (command : Command)
  | version
  | help
  /-- The arguments are wrong. -/
  | refused
  deriving DecidableEq

namespace Arguments

/-- What has been read: the entry, the extensions and the number of `-v`. -/
structure Gathered where
  entry : Option Text
  extensions : List Text
  verbosity : Nat

def nothing : Gathered := ⟨none, [], 0⟩

namespace Gathered

/-- An empty entry is found to be wrong as soon as an option follows it. -/
def hasEmptyEntry (g : Gathered) : Bool := g.entry == some []

def addExtensions (g : Gathered) (value : Text) : Gathered :=
  { g with extensions := g.extensions ++ pieces ',' value }

def finish (g : Gathered) : Invocation :=
  match g.entry with
  | none | some [] => .refused
  | some entry => .bundle ⟨entry, g.extensions, g.verbosity⟩

end Gathered

def letters (g : Gathered) : List Char → Except Invocation Gathered
  | [] => .ok g
  | 'v' :: rest => letters { g with verbosity := g.verbosity + 1 } rest
  | 'V' :: _ => .error .version
  | 'h' :: _ => .error .help
  | _ => .error .refused

def longExtension : Text := ['-', '-', 'e', 'x', 't']
def longVerbose : Text := ['-', '-', 'v', 'e', 'r', 'b', 'o', 's', 'e']
def longVersion : Text := ['-', '-', 'v', 'e', 'r', 's', 'i', 'o', 'n']
def longHelp : Text := ['-', '-', 'h', 'e', 'l', 'p']

/-- Whether an argument is an option, so that it cannot be the value of one. -/
def isOption : Text → Bool
  | '-' :: _ :: _ => true
  | _ => false

/-- An option that needs no value of its own, with the value in it if there is one. -/
def option (g : Gathered) (argument : Text) : Except Invocation Gathered :=
  if argument = longVerbose then .ok { g with verbosity := g.verbosity + 1 }
  else if argument = longVersion then .error .version
  else if argument = longHelp then .error .help
  else match Text.after? (longExtension ++ ['=']) argument with
    | some value => .ok (g.addExtensions value)
    | none =>
      match argument with
      | '-' :: '-' :: _ => .error .refused
      | _ => letters g (argument.drop 1)

def entries (g : Gathered) : List Text → Invocation
  | [] => g.finish
  | argument :: rest =>
    if g.entry.isSome then .refused else entries { g with entry := some argument } rest

def read (g : Gathered) : List Text → Invocation
  | [] => g.finish
  | argument :: rest =>
    if argument = ['-', '-'] then entries g rest
    else if argument = longExtension then
      if g.hasEmptyEntry then .refused
      else match rest with
        | value :: rest => if isOption value then .refused else read (g.addExtensions value) rest
        | [] => .refused
    else if isOption argument then
      if g.hasEmptyEntry then .refused
      else match option g argument with
        | .ok g => read g rest
        | .error invocation => invocation
    else if g.entry.isSome then .refused
    else read { g with entry := some argument } rest

end Arguments

def Invocation.ofArguments (arguments : List Text) : Invocation :=
  Arguments.read Arguments.nothing arguments

def Command.settings (c : Command) : Settings :=
  if c.extensions.isEmpty then {} else { extensions := c.extensions }

end ScriptBundle
