import ScriptBundle.Text.Basic

/-! What a bundling run can be told. -/
namespace ScriptBundle

structure Settings where
  /-- The expression to which a module assigns what it exports. -/
  exportTarget : Text := ['m', 'o', 'd', 'u', 'l', 'e', '.', 'e', 'x', 'p', 'o', 'r', 't', 's']
  /-- Extensions to try, in this order, where a specifier has none. -/
  extensions : List Text := [['j', 's']]

end ScriptBundle
