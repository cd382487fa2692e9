import Mathlib.Data.List.ProdSigma

/-!
# Loops in loops

A loop of `n` rounds of `m` steps runs through the pairs of `List.product`; step `i` of round `g` is number
`g * m + i` of all steps.
-/

namespace SystemsProjects.Rounds

variable {α : Type*} {n m g i : ℕ}

theorem flatMap_range_add (f : ℕ → List α) (a b : ℕ) :
    (List.range (a + b)).flatMap f =
      (List.range a).flatMap f ++ (List.range b).flatMap fun i => f (a + i) := by
  rw [List.range_add, List.flatMap_append, List.flatMap_map]

/-- A loop of `a` rounds of `m` is a loop of `m * a`. -/
theorem flatMap_range_rounds (m : ℕ) (f : ℕ → List α) (a : ℕ) :
    ((List.range a).flatMap fun r => (List.range m).flatMap fun j => f (m * r + j)) =
      (List.range (m * a)).flatMap f := by
  induction a with
  | zero => rfl
  | succ a ih =>
    rw [List.range_succ (n := a), List.flatMap_append, ih, List.flatMap_singleton, Nat.mul_succ,
      flatMap_range_add]

/-- The steps of `n` rounds of `m`. -/
def steps (n m : ℕ) : List (ℕ × ℕ) := List.range n ×ˢ List.range m

theorem steps_succ (n m : ℕ) : steps (n + 1) m = steps n m ++ (List.range m).map fun i => (n, i) := by
  show List.product _ _ = List.product _ _ ++ _
  unfold List.product
  rw [List.range_succ, List.flatMap_append, List.flatMap_singleton]

theorem length_steps (n m : ℕ) : (steps n m).length = n * m := by
  rw [steps, List.length_product, List.length_range, List.length_range]

theorem getElem?_steps (hg : g < n) (hi : i < m) : (steps n m)[g * m + i]? = some (g, i) := by
  induction n with
  | zero => cases hg
  | succ n ih =>
    rw [steps_succ]
    rcases Nat.lt_succ_iff_lt_or_eq.1 hg with hlt | rfl
    · have hbound : g * m + i < (steps n m).length := by
        rw [length_steps]
        calc g * m + i < g * m + m := Nat.add_lt_add_left hi _
          _ = (g + 1) * m := (Nat.succ_mul g m).symm
          _ ≤ n * m := Nat.mul_le_mul_right m hlt
      rw [List.getElem?_append_left hbound, ih hlt]
    · rw [List.getElem?_append_right (by rw [length_steps]; exact Nat.le_add_right _ i), length_steps,
        Nat.add_sub_cancel_left, List.getElem?_map, List.getElem?_range hi, Option.map_some]

theorem eq_of_mul_add_eq {g' i' : ℕ} (hi : i < m) (hi' : i' < m) (h : g * m + i = g' * m + i') :
    g = g' ∧ i = i' := by
  have hpos : 0 < m := Nat.lt_of_le_of_lt (Nat.zero_le i) hi
  have hdiv : ∀ a b, b < m → (a * m + b) / m = a := by
    intro a b hb
    rw [Nat.mul_comm, Nat.mul_add_div hpos, Nat.div_eq_of_lt hb, Nat.add_zero]
  have hg : g = g' := by rw [← hdiv g i hi, h, hdiv g' i' hi']
  subst hg
  exact ⟨rfl, Nat.add_left_cancel h⟩

/-- Every step has its round. -/
theorem exists_of_getElem?_steps {k : ℕ} {s : ℕ × ℕ} (h : (steps n m)[k]? = some s) :
    s.1 < n ∧ s.2 < m ∧ k = s.1 * m + s.2 := by
  have hk : k < n * m := by
    have hlt := (List.getElem?_eq_some_iff.1 h).1
    rwa [length_steps] at hlt
  have hm : 0 < m := by
    rcases Nat.eq_zero_or_pos m with rfl | hm
    · exact absurd hk (Nat.not_lt_zero k)
    · exact hm
  have hg : k / m < n := Nat.div_lt_of_lt_mul (by rwa [Nat.mul_comm] at hk)
  have hi : k % m < m := Nat.mod_lt k hm
  have hsplit : k / m * m + k % m = k := Nat.div_add_mod' k m
  have hget := getElem?_steps hg hi
  rw [hsplit, h] at hget
  obtain rfl := Option.some.inj hget
  exact ⟨hg, hi, hsplit.symm⟩

/-- The steps in front of step `i` of round `g`. -/
theorem mem_take_steps (hg : g < n) (hi : i < m) {t : ℕ × ℕ} :
    t ∈ (steps n m).take (g * m + i) ↔ t.2 < m ∧ (t.1 < g ∨ t.1 = g ∧ t.2 < i) := by
  rw [List.mem_iff_getElem?]
  constructor
  · rintro ⟨j, hj⟩
    have hlt : j < g * m + i := by
      have hlen := (List.getElem?_eq_some_iff.1 hj).1
      rw [List.length_take] at hlen
      omega
    rw [List.getElem?_take_of_lt hlt] at hj
    obtain ⟨-, hm, rfl⟩ := exists_of_getElem?_steps hj
    refine ⟨hm, ?_⟩
    rcases Nat.lt_trichotomy t.1 g with h | h | h
    · exact Or.inl h
    · rw [h] at hlt
      exact Or.inr ⟨h, by omega⟩
    · have hround : (g + 1) * m ≤ t.1 * m := Nat.mul_le_mul_right m h
      rw [Nat.succ_mul] at hround
      omega
  · rintro ⟨hm, h⟩
    have hlt : t.1 * m + t.2 < g * m + i := by
      rcases h with h | ⟨rfl, h⟩
      · have hround : (t.1 + 1) * m ≤ g * m := Nat.mul_le_mul_right m h
        rw [Nat.succ_mul] at hround
        omega
      · omega
    have hn : t.1 < n := by omega
    exact ⟨_, by rw [List.getElem?_take_of_lt hlt, getElem?_steps hn hm]⟩

end SystemsProjects.Rounds
