import ScriptBundle.Text.Basic

/-! UTF-8 in both directions. Decoding never stops at a fault: each maximal run of bytes that
begins a character but does not complete it, and each byte that cannot begin one, is one fault. -/
namespace ScriptBundle
namespace Utf8

def encode (t : Text) : List UInt8 := t.flatMap String.utf8EncodeChar

/-- A character of which some bytes were read: its value so far, how many bytes are missing, and
the range in which the next one has to lie. -/
structure Partial where
  value : Nat
  missing : Nat
  low : UInt8
  high : UInt8

def begin (b : UInt8) : List (Option Char) × Option Partial :=
  if b < 0x80 then ([some (Char.ofNat b.toNat)], none)
  else if b < 0xC2 then ([none], none)
  else if b < 0xE0 then ([], some ⟨b.toNat - 0xC0, 1, 0x80, 0xBF⟩)
  else if b = 0xE0 then ([], some ⟨0, 2, 0xA0, 0xBF⟩)
  else if b = 0xED then ([], some ⟨0xD, 2, 0x80, 0x9F⟩)
  else if b < 0xF0 then ([], some ⟨b.toNat - 0xE0, 2, 0x80, 0xBF⟩)
  else if b = 0xF0 then ([], some ⟨0, 3, 0x90, 0xBF⟩)
  else if b < 0xF4 then ([], some ⟨b.toNat - 0xF0, 3, 0x80, 0xBF⟩)
  else if b = 0xF4 then ([], some ⟨4, 3, 0x80, 0x8F⟩)
  else ([none], none)

/-- A byte outside the expected range ends the character as a fault and begins anew. -/
def next (state : Option Partial) (b : UInt8) : List (Option Char) × Option Partial :=
  match state with
  | none => begin b
  | some p =>
    if p.low ≤ b ∧ b ≤ p.high then
      let value := p.value * 64 + (b.toNat - 0x80)
      if p.missing ≤ 1 then ([some (Char.ofNat value)], none)
      else ([], some ⟨value, p.missing - 1, 0x80, 0xBF⟩)
    else
      (none :: (begin b).1, (begin b).2)

def decodeFrom (state : Option Partial) : List UInt8 → List (Option Char)
  | [] => if state.isSome then [none] else []
  | b :: rest => (next state b).1 ++ decodeFrom (next state b).2 rest

/-- The characters of a byte string, with `none` for each fault. -/
def decode (bytes : List UInt8) : List (Option Char) := decodeFrom none bytes

def decode? (bytes : List UInt8) : Option Text := (decode bytes).mapM id

/-- The text with U+FFFD for each fault. -/
def decodeLossy (bytes : List UInt8) : Text := (decode bytes).map (·.getD (Char.ofNat 0xFFFD))

end Utf8
end ScriptBundle
