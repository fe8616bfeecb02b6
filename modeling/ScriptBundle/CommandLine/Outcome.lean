import ScriptBundle.Bundle.Run
import ScriptBundle.CommandLine.Arguments
import ScriptBundle.Text.Plain

/-! What the command prints and how it exits. -/
namespace ScriptBundle

structure CommandResult where
  exit : Nat
  out : String
  err : String
  /-- The entries of the log, of the levels that were asked for. -/
  log : List Text

namespace CommandResult

def versionText : String := "knit 0.1.0\n"

def helpText : String :=
  "Script bundler that inlines a tree of relative require() calls into a single file\n\n" ++
  "Usage: knit [OPTIONS] <ENTRY>\n\n" ++
  "Arguments:\n  <ENTRY>  Entry script to bundle\n\n" ++
  "Options:\n" ++
  "      --ext <EXT>   Extensions tried, in order, for requires without one [default: js]\n" ++
  "  -v, --verbose...  Increase log verbosity (-v info, -vv debug, -vvv trace)\n" ++
  "  -h, --help        Print help\n" ++
  "  -V, --version     Print version\n"

def refusedText : String :=
  "error: the arguments are wrong\n\nUsage: knit [OPTIONS] <ENTRY>\n\n" ++
  "For more information, try '--help'.\n"

def indented (indent : Nat) (message : String) : String :=
  String.ofList (Text.indentLines indent message.toList)

/-- The causes of a failure, numbered if there are several. -/
def causes (messages : List String) : List String :=
  match messages with
  | [message] => ["    " ++ indented 4 message]
  | _ => messages.zipIdx.map fun (message, i) => s!"    {i}: " ++ indented 7 message

def failureText (entry : Path) (e : BundleError) : String :=
  s!"error: failed to bundle {entry}\n\nCaused by:\n" ++ "\n".intercalate (causes e.chain) ++ "\n"

def shown (verbosity : Nat) (e : Event) : Bool := e.level.rank ≤ verbosity

/-- How an event is written: plainly, its lines after the first indented. A terminal sequence that
is still open can take in the end of the entry. -/
def written (e : Event) : Text := plain (Text.indentLines 4 e.line.toList ++ ['\n'])

def standardError (r : CommandResult) : Text := r.log.flatten ++ r.err.toList

/-- The exit code of a failed run: 101 for one that could not be carried on. -/
def exitOf : BundleError → Nat
  | .separatorInExtension _ | .stalled _ => 101
  | _ => 1

def ofBundling (tree : FileTree) (c : Command) : CommandResult :=
  let entry := Path.ofText c.entry
  let result := bundle tree c.settings entry
  let log := (result.events.filter (shown c.verbosity)).map written
  match result.outcome with
  | .ok b => ⟨0, String.ofList b.code ++ "\n", "", log⟩
  | .error e => ⟨exitOf e, "", failureText entry e, log⟩

end CommandResult

def runCommand (tree : FileTree) (arguments : List Text) : CommandResult :=
  match Invocation.ofArguments arguments with
  | .bundle c => .ofBundling tree c
  | .version => ⟨0, CommandResult.versionText, "", []⟩
  | .help => ⟨0, CommandResult.helpText, "", []⟩
  | .refused => ⟨2, "", CommandResult.refusedText, []⟩

end ScriptBundle
