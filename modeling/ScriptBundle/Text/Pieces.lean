/-! Cutting a list at a separator. -/
namespace ScriptBundle

variable {α : Type} [DecidableEq α]

/-- The stretches between the occurrences of a separator, empty ones kept. -/
def pieces (separator : α) : List α → List (List α)
  | [] => [[]]
  | a :: rest =>
    if a = separator then [] :: pieces separator rest
    else match pieces separator rest with
      | [] => [[a]]
      | piece :: more => (a :: piece) :: more

def joinPieces (separator : α) : List (List α) → List α
  | [] => []
  | [piece] => piece
  | piece :: more => piece ++ separator :: joinPieces separator more

theorem pieces_ne_nil (separator : α) (l : List α) : pieces separator l ≠ [] := by
  cases l with
  | nil => simp [pieces]
  | cons a l =>
    by_cases h : a = separator
    · simp [pieces, h]
    · simp only [pieces, h, if_false]
      split <;> simp

omit [DecidableEq α] in
theorem joinPieces_cons_cons (separator a : α) (piece : List α) (more : List (List α)) :
    joinPieces separator ((a :: piece) :: more) = a :: joinPieces separator (piece :: more) := by
  cases more <;> simp [joinPieces]

@[simp] theorem joinPieces_pieces (separator : α) (l : List α) :
    joinPieces separator (pieces separator l) = l := by
  induction l with
  | nil => rfl
  | cons a l ih =>
    obtain ⟨piece, more, h⟩ := List.exists_cons_of_ne_nil (pieces_ne_nil separator l)
    rw [h] at ih
    by_cases ha : a = separator
    · simp [pieces, ha, h, joinPieces, ih]
    · simp [pieces, ha, h, joinPieces_cons_cons, ih]

theorem not_mem_of_mem_pieces {separator : α} {l piece : List α}
    (h : piece ∈ pieces separator l) : separator ∉ piece := by
  induction l generalizing piece with
  | nil =>
    obtain rfl : piece = [] := by simpa [pieces] using h
    exact List.not_mem_nil
  | cons a l ih =>
    by_cases ha : a = separator
    · simp only [pieces, ha, if_true, List.mem_cons] at h
      rcases h with rfl | h
      · exact List.not_mem_nil
      · exact ih h
    · obtain ⟨first, more, hl⟩ := List.exists_cons_of_ne_nil (pieces_ne_nil separator l)
      simp only [pieces, ha, if_false, hl, List.mem_cons] at h ih
      rcases h with rfl | h
      · simpa [Ne.symm ha] using ih (Or.inl rfl)
      · exact ih (Or.inr h)

theorem pieces_of_not_mem {separator : α} {l : List α} (h : separator ∉ l) :
    pieces separator l = [l] := by
  induction l with
  | nil => rfl
  | cons a l ih =>
    obtain ⟨ha, hl⟩ : separator ≠ a ∧ separator ∉ l := by simpa using h
    simp [pieces, Ne.symm ha, ih hl]

theorem mem_pieces_of_mem {separator a : α} {l : List α} (h : a ∈ l) (ha : a ≠ separator) :
    ∃ piece ∈ pieces separator l, a ∈ piece := by
  induction l with
  | nil => simp at h
  | cons b l ih =>
    by_cases hb : b = separator
    · obtain ⟨piece, hpiece, hmem⟩ := ih ((List.mem_cons.mp h).resolve_left (hb ▸ ha))
      exact ⟨piece, by simp [pieces, hb, hpiece], hmem⟩
    obtain ⟨first, more, hl⟩ := List.exists_cons_of_ne_nil (pieces_ne_nil separator l)
    simp only [pieces, hb, if_false, hl, List.mem_cons, exists_eq_or_imp] at ih ⊢
    rcases List.mem_cons.mp h with rfl | h
    · exact Or.inl (Or.inl rfl)
    · exact (ih h).imp_left Or.inr

theorem pieces_append_separator (separator : α) (l r : List α) :
    pieces separator (l ++ separator :: r) = pieces separator l ++ pieces separator r := by
  induction l with
  | nil => simp [pieces]
  | cons a l ih =>
    by_cases ha : a = separator
    · simp [pieces, ha, ih]
    · obtain ⟨piece, more, hl⟩ := List.exists_cons_of_ne_nil (pieces_ne_nil separator l)
      simp [pieces, ha, ih, hl]

theorem pieces_joinPieces {separator : α} {l : List (List α)} (hl : l ≠ [])
    (h : ∀ piece ∈ l, separator ∉ piece) : pieces separator (joinPieces separator l) = l := by
  induction l with
  | nil => exact absurd rfl hl
  | cons piece more ih =>
    cases more with
    | nil => exact pieces_of_not_mem (h piece (by simp))
    | cons next more =>
      have hmore := ih (List.cons_ne_nil next more) fun p hp => h p (List.mem_cons_of_mem _ hp)
      have hjoin : joinPieces separator (piece :: next :: more) =
          piece ++ separator :: joinPieces separator (next :: more) := rfl
      rw [hjoin, pieces_append_separator, pieces_of_not_mem (h piece (by simp)), hmore]
      rfl

end ScriptBundle
