import Mathlib.Data.List.Infix
/-!
# Occurrences of a word in a list

The positions at which one list stands inside another, over appends, and the first of them.
-/

namespace Occurrence

variable {α : Type*} {d u v w : List α} {i j : Nat}

/-- `d` stands in `w` at position `i`. -/
def At (d w : List α) (i : Nat) : Prop := d <+: w.drop i

instance [DecidableEq α] : Decidable (At d w i) := inferInstanceAs (Decidable (d <+: w.drop i))

/-- `i` is the first position at which `d` stands in `w`. -/
def First (d w : List α) (i : Nat) : Prop := At d w i ∧ ∀ j < i, ¬ At d w j

theorem at_iff_take : At d w i ↔ (w.drop i).take d.length = d := by
  rw [At, List.prefix_iff_eq_take, eq_comm]

theorem At.add_length_le (h : At d w i) (hd : d ≠ []) : i + d.length ≤ w.length := by
  have hle := List.IsPrefix.length_le h
  have hpos := List.length_pos_iff.mpr hd
  rw [List.length_drop] at hle
  omega

/-- What stands in the first part stands there in the whole. -/
theorem at_append_left (h : i + d.length ≤ u.length) : At d (u ++ v) i ↔ At d u i := by
  have hdrop : (u ++ v).drop i = u.drop i ++ v := List.drop_append_of_le_length (by omega)
  rw [at_iff_take, at_iff_take, hdrop, List.take_append_of_le_length]
  rw [List.length_drop]
  omega

/-- Positions in the second part move by the length of the first. -/
theorem at_append_right : At d (u ++ v) (u.length + i) ↔ At d v i := by
  rw [At, At, List.drop_length_add_append]

/-- The first member with a property splits the list. -/
theorem exists_first_mem {P : α → Prop} (h : ∃ x ∈ w, P x) :
    ∃ u x v, w = u ++ x :: v ∧ P x ∧ ∀ y ∈ u, ¬ P y := by
  induction w with
  | nil =>
      obtain ⟨x, hx, -⟩ := h
      cases hx
  | cons y w ih =>
      by_cases hy : P y
      · exact ⟨[], y, w, rfl, hy, nofun⟩
      · obtain ⟨x, hx, hP⟩ := h
        have hx := (List.mem_cons.mp hx).resolve_left fun hxy => hy (hxy ▸ hP)
        obtain ⟨u, z, v, rfl, hz, hu⟩ := ih ⟨x, hx, hP⟩
        exact ⟨y :: u, z, v, rfl, hz, List.forall_mem_cons.mpr ⟨hy, hu⟩⟩

end Occurrence
