import Mathlib.Data.List.TakeWhile

/-!
# C strings in buffers

A buffer is the list of its characters.  The string in it ends before the first `NUL`; a buffer without
one holds no string, and reading it would go on behind its end.  `read_strcat` and `exists_strcat` say what
`strcat` leaves in a buffer, and when it stays inside.
-/

namespace SystemsProjects.CString

/-- The characters before the first `NUL`. -/
def text (s : List Char) : List Char := s.takeWhile fun c => c ≠ '\x00'

/-- The string in a buffer; `none` if it has no terminator. -/
def read (b : List Char) : Option (List Char) := if '\x00' ∈ b then some (text b) else none

/-- `strcat(b, s)`; `none` if it leaves the buffer. -/
def strcat (b s : List Char) : Option (List Char) :=
  (read b).bind fun t =>
    if t.length + (text s).length < b.length then
      some (t ++ text s ++ '\x00' :: b.drop (t.length + (text s).length + 1))
    else none

variable {b s t : List Char}

theorem nul_not_mem_text (s : List Char) : '\x00' ∉ text s := by
  intro h
  have hne := List.mem_takeWhile_imp h
  simp at hne

theorem text_eq_self (h : '\x00' ∉ s) : text s = s := by
  apply List.takeWhile_eq_self_iff.2
  intro c hc
  rw [decide_eq_true_eq]
  rintro rfl
  exact h hc

theorem text_append_nul (h : '\x00' ∉ t) (rest : List Char) : text (t ++ '\x00' :: rest) = t := by
  unfold text
  rw [List.takeWhile_append_of_pos, List.takeWhile_cons_of_neg, List.append_nil]
  · simp
  · intro c hc
    rw [decide_eq_true_eq]
    rintro rfl
    exact h hc

theorem read_append_nul (h : '\x00' ∉ t) (rest : List Char) : read (t ++ '\x00' :: rest) = some t := by
  unfold read
  rw [if_pos (List.mem_append_right t List.mem_cons_self), text_append_nul h]

/-- The string of a buffer stands at its start, before its terminator. -/
theorem eq_append_of_read (h : read b = some t) : '\x00' ∉ t ∧ ∃ rest, b = t ++ '\x00' :: rest := by
  unfold read at h
  split_ifs at h with hmem
  obtain rfl := Option.some.inj h
  refine ⟨nul_not_mem_text b, ?_⟩
  have hsplit := List.takeWhile_append_dropWhile (p := fun c => decide (c ≠ '\x00')) (l := b)
  cases hdrop : b.dropWhile fun c => decide (c ≠ '\x00') with
  | nil =>
    rw [hdrop, List.append_nil] at hsplit
    rw [← hsplit] at hmem
    exact absurd hmem (nul_not_mem_text b)
  | cons c rest =>
    have hhead : c = '\x00' := by
      have hnot := List.head_dropWhile_not (fun c => decide (c ≠ '\x00')) (l := b)
        (by rw [hdrop]; exact List.cons_ne_nil c rest)
      simp only [hdrop, List.head_cons] at hnot
      simpa using hnot
    refine ⟨rest, ?_⟩
    rw [hdrop, hhead] at hsplit
    exact hsplit.symm

theorem read_length_lt (h : read b = some t) : t.length < b.length := by
  obtain ⟨-, rest, rfl⟩ := eq_append_of_read h
  rw [List.length_append, List.length_cons]
  omega

/-- A buffer holds the empty string if it begins with a `NUL`. -/
theorem read_eq_nil_iff : read b = some [] ↔ b.head? = some '\x00' := by
  constructor
  · intro h
    obtain ⟨-, rest, rfl⟩ := eq_append_of_read h
    rfl
  · intro h
    obtain ⟨rest, rfl⟩ := List.head?_eq_some_iff.1 h
    exact read_append_nul (t := []) List.not_mem_nil rest

/-- A `NUL` written into a string ends it there. -/
theorem read_set_nul (h : read b = some t) {k : ℕ} (hk : k < t.length) :
    read (b.set k '\x00') = some (t.take k) := by
  obtain ⟨hnul, rest, rfl⟩ := eq_append_of_read h
  have hset : (t ++ '\x00' :: rest).set k '\x00' =
      t.take k ++ '\x00' :: (t.drop (k + 1) ++ '\x00' :: rest) := by
    rw [List.set_append_left k _ hk, List.set_eq_take_append_cons_drop, if_pos hk, List.append_assoc,
      List.cons_append]
  rw [hset]
  exact read_append_nul (fun hmem => hnul (List.mem_of_mem_take hmem)) _

/-- If there is room for the string and its terminator, `strcat` appends it. -/
theorem exists_strcat (h : read b = some t) (hroom : t.length + (text s).length < b.length) :
    ∃ b', strcat b s = some b' ∧ read b' = some (t ++ text s) ∧ b'.length = b.length := by
  have hnul := (eq_append_of_read h).1
  unfold strcat
  rw [h, Option.bind_some, if_pos hroom]
  refine ⟨_, rfl, read_append_nul ?_ _, ?_⟩
  · rw [List.mem_append, not_or]
    exact ⟨hnul, nul_not_mem_text s⟩
  · simp only [List.length_append, List.length_cons, List.length_drop]
    omega

/-- `strcat` that stays in its buffer has appended the string to the one that was there. -/
theorem read_strcat {b' : List Char} (h : strcat b s = some b') :
    ∃ t, read b = some t ∧ read b' = some (t ++ text s) ∧ b'.length = b.length := by
  cases hread : read b with
  | none =>
    rw [strcat, hread] at h
    cases h
  | some t =>
    by_cases hroom : t.length + (text s).length < b.length
    · obtain ⟨b₁, hcat, hb₁⟩ := exists_strcat hread hroom
      obtain rfl := Option.some.inj (hcat.symm.trans h)
      exact ⟨t, rfl, hb₁⟩
    · rw [strcat, hread, Option.bind_some, if_neg hroom] at h
      cases h

end SystemsProjects.CString
