import Mathlib.Data.List.Basic

/-!
# Lines

The pieces of a text between separators.
-/

namespace Text

universe u

variable {α : Type u} [BEq α] [LawfulBEq α] {sep : α}

/-- No piece has the separator. -/
theorem not_mem_of_mem_splitOn :
    ∀ {s piece : List α}, piece ∈ s.splitOn sep → sep ∉ piece
  | [], piece, h => by
      obtain rfl := List.mem_singleton.mp (List.splitOn_nil sep ▸ h)
      exact List.not_mem_nil
  | a :: s, piece, h => by
      rw [List.splitOn_cons_eq_if_modifyHead] at h
      split at h
      next =>
        rcases List.mem_cons.mp h with rfl | h
        · exact List.not_mem_nil
        · exact not_mem_of_mem_splitOn h
      next ha =>
        obtain ⟨first, rest, hsplit⟩ :=
          List.exists_cons_of_ne_nil (List.splitOn_ne_nil sep s)
        rw [hsplit, List.modifyHead_cons] at h
        rcases List.mem_cons.mp h with rfl | h
        · rw [List.mem_cons, not_or]
          refine ⟨?_, not_mem_of_mem_splitOn (hsplit ▸ List.mem_cons_self)⟩
          rintro rfl
          exact ha (beq_self_eq_true sep)
        · exact not_mem_of_mem_splitOn (hsplit ▸ List.mem_cons_of_mem _ h)

end Text
