import ScriptBundle.Text.Alphabetic
import ScriptBundle.Text.Basic
import ScriptBundle.Text.Numeric

/-! Identifiers of a script: letters, numbers, `_` and `$`, not beginning with a number. -/
namespace ScriptBundle

def isIdentifierChar (c : Char) : Bool :=
  isAlphabetic c || isNumeric c || c == '_' || c == '$'

def isIdentifier : Text → Bool
  | [] => false
  | first :: rest => !isNumeric first && isIdentifierChar first && rest.all isIdentifierChar

/-- The text with `_` in place of each character that no identifier holds. -/
def sanitize (t : Text) : Text := t.map fun c => if isIdentifierChar c then c else '_'

theorem isIdentifierChar_of_mem_sanitize {t : Text} {c : Char} (h : c ∈ sanitize t) :
    isIdentifierChar c = true := by
  obtain ⟨d, _, rfl⟩ := List.mem_map.mp h
  split
  · assumption
  · decide

end ScriptBundle
