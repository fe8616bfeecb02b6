import ScriptBundle.ModuleId

/-! What an id tells of its path. An id is an identifier throughout; it begins with the lead that
all ids have, then come six digits of the path's digest and the stem of its last name. -/
namespace ScriptBundle

namespace Sha256

theorem length_bigEndian (count n : Nat) : (bigEndian count n).length = count := by
  induction count generalizing n with
  | zero => rfl
  | succ count ih => simp [bigEndian, ih]

theorem length_digest (message : List UInt8) : (digest message).length = 32 := by
  simp [digest, length_bigEndian]

theorem length_hex (bytes : List UInt8) : (hex bytes).length = 2 * bytes.length := by
  induction bytes with
  | nil => rfl
  | cons b bytes ih =>
    rw [hex] at ih
    simp only [hex, List.flatMap_cons, List.length_append, ih, List.length_cons, List.length_nil]
    omega

theorem isIdentifierChar_hexDigit : ∀ n < 16, isIdentifierChar (hexDigit n) = true := by
  decide +kernel

theorem isIdentifierChar_of_mem_hex {bytes : List UInt8} {c : Char} (h : c ∈ hex bytes) :
    isIdentifierChar c = true := by
  obtain ⟨b, -, hc⟩ := List.mem_flatMap.mp h
  have hb := b.toNat_lt
  simp only [List.mem_cons, List.not_mem_nil, or_false] at hc
  rcases hc with rfl | rfl
  · exact isIdentifierChar_hexDigit _ (by omega)
  · exact isIdentifierChar_hexDigit _ (by omega)

end Sha256

namespace ModuleId

variable {p q : Path} {c : Char}

theorem length_hash (p : Path) : (hash p).length = 6 := by
  simp [hash, Sha256.length_hex, Sha256.length_digest]

theorem text_ofPath (p : Path) : (ofPath p).text =
    lead ++ (hash p ++ if (stem p).isEmpty then [] else '_' :: stem p) := by
  unfold ofPath
  split <;> simp

theorem lead_prefix (p : Path) : lead <+: (ofPath p).text := by
  rw [text_ofPath]
  exact List.prefix_append _ _

theorem isIdentifierChar_of_mem (h : c ∈ (ofPath p).text) : isIdentifierChar c = true := by
  rw [text_ofPath, List.mem_append, List.mem_append] at h
  rcases h with h | h | h
  · exact List.all_eq_true.mp (by rfl : lead.all isIdentifierChar = true) c h
  · exact Sha256.isIdentifierChar_of_mem_hex (List.mem_of_mem_take h)
  · split at h
    · simp at h
    · rcases List.mem_cons.mp h with rfl | h
      · rfl
      · exact isIdentifierChar_of_mem_sanitize h

/-- An id is as good as the hash and the stem that are in it. -/
theorem ofPath_eq_iff : ofPath p = ofPath q ↔ hash p = hash q ∧ stem p = stem q := by
  constructor
  · intro h
    have htext := congrArg text h
    rw [text_ofPath, text_ofPath, List.append_cancel_left_eq] at htext
    obtain ⟨hhash, hrest⟩ := List.append_inj htext (by rw [length_hash, length_hash])
    refine ⟨hhash, ?_⟩
    cases hp : stem p <;> cases hq : stem q <;> simp_all
  · rintro ⟨hhash, hstem⟩
    rw [ofPath, ofPath, hhash, hstem]

end ModuleId
end ScriptBundle
