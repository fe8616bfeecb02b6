import ScriptBundle.Text.Basic

/-! Why a path could not be followed or a file not be read. -/
namespace ScriptBundle

inductive Fault
  | missing
  | notADirectory
  | isADirectory
  | nameTooLong
  | linkLoop
  | zeroByte
  | notText
  /-- Nothing to be found, for a stated reason. -/
  | absent (reason : Text)
  deriving DecidableEq

namespace Fault

def noIndex : Fault := .absent "directory has no index module".toList

def message : Fault → String
  | missing => "No such file or directory (os error 2)"
  | notADirectory => "Not a directory (os error 20)"
  | isADirectory => "Is a directory (os error 21)"
  | nameTooLong => "File name too long (os error 36)"
  | linkLoop => "Too many levels of symbolic links (os error 40)"
  | zeroByte => "file name contained an unexpected NUL byte"
  | notText => "stream did not contain valid UTF-8"
  | absent reason => String.ofList reason

end Fault
end ScriptBundle
