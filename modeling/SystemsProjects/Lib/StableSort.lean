import Mathlib.Data.List.Sort
import Mathlib.Order.Basic

/-!
# Stable sorting by a key

`SameRuns key l l'` says that for every key the elements with that key come in the same order in `l`
and `l'`; a stable sort of `l` is a list sorted by key with the same runs.  It is unique, and a
permutation of `l`.  `StableSort.merge` is the step of a merge sort.
-/

namespace SystemsProjects.Sorting

variable {α κ : Type*} [LinearOrder κ] (key : α → κ)

/-- For every key, the elements with that key are the same in both lists, in the same order. -/
def SameRuns (l l' : List α) : Prop :=
  ∀ k, l.filter (fun x => decide (key x = k)) = l'.filter fun x => decide (key x = k)

/-- `l'` is the stable sort of `l` by `key`. -/
structure StableSort (l l' : List α) : Prop where
  sorted : l'.Pairwise fun x y => key x ≤ key y
  runs : SameRuns key l l'

variable {key}

theorem SameRuns.refl (l : List α) : SameRuns key l l := fun _ => rfl

theorem SameRuns.trans {l₁ l₂ l₃ : List α} (h : SameRuns key l₁ l₂) (h' : SameRuns key l₂ l₃) :
    SameRuns key l₁ l₃ := fun k => (h k).trans (h' k)

theorem SameRuns.append {l₁ l₁' l₂ l₂' : List α} (h₁ : SameRuns key l₁ l₁')
    (h₂ : SameRuns key l₂ l₂') : SameRuns key (l₁ ++ l₂) (l₁' ++ l₂') := fun k => by
  rw [List.filter_append, List.filter_append, h₁ k, h₂ k]

/-- An element occurs in a list as often as in the run of its key. -/
theorem SameRuns.perm {l l' : List α} (h : SameRuns key l l') : l.Perm l' := by
  classical
  rw [List.perm_iff_count]
  intro a
  have hcount : ∀ m : List α, (m.filter fun x => decide (key x = key a)).count a = m.count a :=
    fun m => List.count_filter (by simp)
  rw [← hcount l, ← hcount l', h]

theorem StableSort.perm {l l' : List α} (h : StableSort key l l') : l.Perm l' := h.runs.perm

theorem StableSort.length_eq {l l' : List α} (h : StableSort key l l') : l'.length = l.length :=
  h.perm.length_eq.symm

theorem stableSort_of_length_le_one {l : List α} (h : l.length ≤ 1) : StableSort key l l := by
  refine ⟨?_, SameRuns.refl l⟩
  match l, h with
  | [], _ => exact List.Pairwise.nil
  | [_], _ => exact List.pairwise_singleton _ _

/-- Sorting a list with the same runs gives a stable sort of the first one. -/
theorem StableSort.of_sameRuns {l l₁ l' : List α} (h : SameRuns key l l₁)
    (hsort : StableSort key l₁ l') : StableSort key l l' :=
  ⟨hsort.sorted, h.trans hsort.runs⟩

theorem SameRuns.flatten {L L' : List (List α)} (h : List.Forall₂ (SameRuns key) L L') :
    SameRuns key L.flatten L'.flatten := by
  induction h with
  | nil => exact SameRuns.refl []
  | cons h _ ih => exact h.append ih

/-- Sorting commutes with a map that keeps the keys. -/
theorem StableSort.map {β : Type*} {f : β → α} {l l' : List β}
    (h : StableSort (fun x => key (f x)) l l') : StableSort key (l.map f) (l'.map f) := by
  refine ⟨List.pairwise_map.2 h.sorted, fun k => ?_⟩
  rw [List.filter_map, List.filter_map]
  exact congrArg (List.map f) (h.runs k)

/-- The head of a sorted list is the first element with the least key of its runs. -/
theorem StableSort.unique {l l₁ l₂ : List α} (h₁ : StableSort key l l₁) (h₂ : StableSort key l l₂) :
    l₁ = l₂ := by
  have hruns : SameRuns key l₁ l₂ := fun k => (h₁.runs k).symm.trans (h₂.runs k)
  have hs₁ := h₁.sorted
  have hs₂ := h₂.sorted
  clear h₁ h₂
  induction l₁ generalizing l₂ with
  | nil => exact hruns.perm.nil_eq
  | cons a l₁ ih =>
    cases l₂ with
    | nil => exact hruns.perm.eq_nil
    | cons b l₂ =>
      rw [List.pairwise_cons] at hs₁ hs₂
      -- Each head is in the other list, so the keys of the heads are equal.
      have hab : key a ≤ key b := by
        rcases List.mem_cons.1 (hruns.perm.mem_iff.2 List.mem_cons_self) with h | h
        · exact h ▸ le_rfl
        · exact hs₁.1 b h
      have hba : key b ≤ key a := by
        rcases List.mem_cons.1 (hruns.perm.mem_iff.1 List.mem_cons_self) with h | h
        · exact h ▸ le_rfl
        · exact hs₂.1 a h
      have hkey : key b = key a := le_antisymm hba hab
      have hrun := hruns (key a)
      rw [List.filter_cons_of_pos (by simp), List.filter_cons_of_pos (by simpa using hkey)] at hrun
      obtain rfl : a = b := (List.cons.inj hrun).1
      have htail : SameRuns key l₁ l₂ := by
        intro k
        by_cases hk : key a = k
        · subst hk
          exact (List.cons.inj hrun).2
        · have := hruns k
          rwa [List.filter_cons_of_neg (by simpa using hk),
            List.filter_cons_of_neg (by simpa using hk)] at this
      rw [ih htail hs₁.2 hs₂.2]

/-! ## Merging -/

/-- The comparison of a stable merge: the left element goes first when the keys are equal. -/
def keyLE (key : α → κ) (x y : α) : Bool := decide (key x ≤ key y)

/-- In a merge, the run of a key is the left run followed by the right run. -/
theorem filter_merge (k : κ) : ∀ (l r : List α), l.Pairwise (fun x y => key x ≤ key y) →
    (List.merge l r (keyLE key)).filter (fun x => decide (key x = k)) =
      l.filter (fun x => decide (key x = k)) ++ r.filter fun x => decide (key x = k)
  | [], r, _ => by simp
  | x :: l, [], _ => by simp
  | x :: l, y :: r, hl => by
    by_cases hxy : key x ≤ key y
    · rw [List.cons_merge_cons_pos (keyLE key) l r (by simpa [keyLE] using hxy), List.filter_cons,
        List.filter_cons (x := x), filter_merge k l (y :: r) hl.of_cons]
      split_ifs <;> simp
    · rw [List.cons_merge_cons_neg (keyLE key) l r (by simpa [keyLE] using hxy), List.filter_cons,
        filter_merge k (x :: l) r hl]
      split_ifs with hy
      · -- The key of `y` is below every key on the left, so the left run is empty.
        have hempty : (x :: l).filter (fun z => decide (key z = k)) = [] := by
          rw [List.filter_eq_nil_iff]
          intro z hz
          have hyk : key y = k := by simpa using hy
          have hxz : key x ≤ key z := by
            rcases List.mem_cons.1 hz with rfl | hz
            · exact le_rfl
            · exact (List.pairwise_cons.1 hl).1 z hz
          simpa using (hyk ▸ (lt_of_not_ge hxy).trans_le hxz).ne'
        rw [hempty, List.filter_cons, if_pos hy]
        simp
      · rw [List.filter_cons (x := y), if_neg hy]

/-- Merging the stable sorts of two lists sorts their concatenation. -/
theorem StableSort.merge {l₁ l₁' l₂ l₂' : List α} (h₁ : StableSort key l₁ l₁')
    (h₂ : StableSort key l₂ l₂') :
    StableSort key (l₁ ++ l₂) (List.merge l₁' l₂' (keyLE key)) := by
  constructor
  · have : (List.merge l₁' l₂' (keyLE key)).Pairwise fun a b => keyLE key a b = true :=
      List.pairwise_merge
        (fun a b c hab hbc => by simp only [keyLE, decide_eq_true_eq] at *; exact hab.trans hbc)
        (fun a b => by simpa [keyLE] using le_total (key a) (key b)) l₁' l₂'
        (h₁.sorted.imp fun h => by simpa [keyLE] using h)
        (h₂.sorted.imp fun h => by simpa [keyLE] using h)
    exact this.imp fun h => by simpa [keyLE] using h
  · intro k
    rw [filter_merge k l₁' l₂' h₁.sorted, List.filter_append, h₁.runs k, h₂.runs k]

end SystemsProjects.Sorting
