import Mathlib.Data.List.Basic

/-!
# A list cut at a separator

The pieces between the separators, read from the left: `joined` are the pieces of what is still to come
when some elements of the first of them have been read already.
-/

namespace SystemsProjects

variable {α : Type*} [DecidableEq α] {sep : α}

/-- The pieces of a list between the separators; there is one more than there are separators. -/
def pieces (sep : α) (xs : List α) : List (List α) := xs.splitOnP fun x => x = sep

/-- The pieces of `xs`, with `cur` before the first of them. -/
def joined (sep : α) (cur xs : List α) : List (List α) := (pieces sep xs).modifyHead (cur ++ ·)

theorem pieces_sep (xs : List α) : pieces sep (sep :: xs) = [] :: pieces sep xs := by
  simp [pieces, List.splitOnP_cons_eq_if_modifyHead]

theorem pieces_cons {x : α} (hx : x ≠ sep) (xs : List α) :
    pieces sep (x :: xs) = (pieces sep xs).modifyHead (x :: ·) := by
  simp [pieces, List.splitOnP_cons_eq_if_modifyHead, hx]

theorem exists_pieces_eq_cons (sep : α) (xs : List α) : ∃ c cs, pieces sep xs = c :: cs :=
  List.exists_cons_of_ne_nil (List.splitOnP_ne_nil _ xs)

theorem length_pieces [BEq α] [LawfulBEq α] (xs : List α) : (pieces sep xs).length = xs.count sep + 1 := by
  induction xs with
  | nil => rfl
  | cons x xs ih =>
    by_cases hx : x = sep
    · rw [hx, pieces_sep, List.length_cons, ih, List.count_cons_self]
    · rw [pieces_cons hx, List.length_modifyHead, ih, List.count_cons_of_ne hx]

theorem joined_nil (cur : List α) : joined sep cur [] = [cur] := by simp [joined, pieces]

theorem joined_sep (cur xs : List α) : joined sep cur (sep :: xs) = cur :: pieces sep xs := by
  simp [joined, pieces_sep]

theorem joined_cons (cur : List α) {x : α} (hx : x ≠ sep) (xs : List α) :
    joined sep cur (x :: xs) = joined sep (cur ++ [x]) xs := by
  obtain ⟨c, cs, hcs⟩ := exists_pieces_eq_cons sep xs
  rw [joined, joined, pieces_cons hx, hcs]
  simp

theorem nil_joined (xs : List α) : joined sep [] xs = pieces sep xs := by
  obtain ⟨c, cs, hcs⟩ := exists_pieces_eq_cons sep xs
  rw [joined, hcs]
  rfl

/-- The first piece begins with the elements that have been read. -/
theorem exists_append_mem_joined (cur xs : List α) : ∃ c, cur ++ c ∈ joined sep cur xs := by
  obtain ⟨c, cs, hcs⟩ := exists_pieces_eq_cons sep xs
  refine ⟨c, ?_⟩
  rw [joined, hcs]
  exact List.mem_cons_self

end SystemsProjects
