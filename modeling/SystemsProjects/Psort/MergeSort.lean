import Mathlib.Algebra.Order.Ring.Int
import Mathlib.Tactic.Ring
import SystemsProjects.Lib.StableSort

/-!
# The in-place merge sort of psort

`merge` and `mergeSort` of `P6/psort.c` as programs: a `Prog` is a sequence of reads and writes of
the array `arr`, which other threads can see, and everything else (the temporary arrays `L` and `R`,
the counters) is local to the running call.  Arrays are lists of cells that `malloc` leaves
uninitialised; an access outside an array, or a read of an uninitialised cell, is the program `fault`.
The code after a call is passed as a continuation, as a thread's stack would hold it.
-/

namespace SystemsProjects.Psort

open Sorting

/-! ## Arrays -/

/-- An array of pointers; `none` is a cell that has not been written. -/
abbrev Cells (α : Type*) := List (Option α)

variable {α : Type*}

/-- `malloc` of `n` cells. -/
def malloc (n : ℤ) : Cells α := List.replicate n.toNat none

/-- `a[i]`; `none` if the cell is outside the array or uninitialised. -/
def Cells.read (a : Cells α) (i : ℤ) : Option α := if i < 0 then none else (a[i.toNat]?).join

/-- `a[i] = v`; `none` if the cell is outside the array. -/
def Cells.write (a : Cells α) (i : ℤ) (v : α) : Option (Cells α) :=
  if i < 0 ∨ (a.length : ℤ) ≤ i then none else some (a.set i.toNat (some v))

/-! ## Programs -/

inductive Prog (α : Type*) where
  | done
  | fault
  | read (i : ℤ) (k : α → Prog α)
  | write (i : ℤ) (v : α) (k : Prog α)

/-- One step of a program on its array: one access. -/
def Prog.next : Prog α → Cells α → Option (Prog α × Cells α)
  | .done, _ => none
  | .fault, _ => none
  | .read i k, a =>
    match a.read i with
    | some v => some (k v, a)
    | none => some (.fault, a)
  | .write i v k, a =>
    match a.write i v with
    | some a' => some (k, a')
    | none => some (.fault, a)

/-- A program run to its end; `none` if it faults. -/
def Prog.exec : Prog α → Cells α → Option (Cells α)
  | .done, a => some a
  | .fault, _ => none
  | .read i k, a => (a.read i).bind fun v => (k v).exec a
  | .write i v k, a => (a.write i v).bind fun a' => k.exec a'

/-- A read of a local array. -/
def fetch (a : Cells α) (i : ℤ) (k : α → Prog α) : Prog α :=
  match a.read i with
  | some v => k v
  | none => .fault

/-- A write to a local array. -/
def store (a : Cells α) (i : ℤ) (v : α) (k : Cells α → Prog α) : Prog α :=
  match a.write i v with
  | some a' => k a'
  | none => .fault

/-! ## The source -/

/-- `for (i = 0; i < n; i++) T[i] = arr[base + i]`, with the iterations left as first argument. -/
def copyLoop (base : ℤ) : ℕ → ℤ → Cells α → (Cells α → Prog α) → Prog α
  | 0, _, T, k => k T
  | n + 1, i, T, k => .read (base + i) fun v => store T i v fun T => copyLoop base n (i + 1) T k

/-- `while (i < n) { arr[k] = T[i]; i++; k++; }` -/
def drainLoop (T : Cells α) (n i k : ℤ) (rest : ℤ → Prog α) : Prog α :=
  if i < n then fetch T i fun v => .write k v (drainLoop T n (i + 1) (k + 1) rest) else rest k
termination_by (n - i).toNat

variable (key : α → ℤ)

/-- The loop of `merge` over both temporary arrays. -/
def mergeLoop (L R : Cells α) (n1 n2 i j k : ℤ) (rest : ℤ → ℤ → ℤ → Prog α) : Prog α :=
  if i < n1 ∧ j < n2 then
    fetch L i fun x => fetch R j fun y =>
      if key x ≤ key y then .write k x (mergeLoop L R n1 n2 (i + 1) j (k + 1) rest)
      else .write k y (mergeLoop L R n1 n2 i (j + 1) (k + 1) rest)
  else rest i j k
termination_by ((n1 - i) + (n2 - j)).toNat

def merge (l m r : ℤ) (rest : Prog α) : Prog α :=
  let n1 := m - l + 1
  let n2 := r - m
  copyLoop l n1.toNat 0 (malloc n1) fun L =>
    copyLoop (m + 1) n2.toNat 0 (malloc n2) fun R =>
      mergeLoop key L R n1 n2 0 0 l fun i j k =>
        drainLoop L n1 i k fun k => drainLoop R n2 j k fun _ => rest

def mergeSort (l r : ℤ) (rest : Prog α) : Prog α :=
  if l < r then
    let m := l + (r - l) / 2
    mergeSort l m (mergeSort (m + 1) r (merge key l m r rest))
  else rest
termination_by (r - l).toNat

/-! ## Accesses to an initialised array -/

theorem read_map_some (l : List α) (i : ℕ) : Cells.read (l.map some) i = l[i]? := by
  unfold Cells.read
  rw [if_neg (by omega), Int.toNat_natCast, List.getElem?_map]
  cases l[i]? <;> rfl

theorem fetch_map_some {l : List α} {i : ℕ} {v : α} (h : l[i]? = some v) (k : α → Prog α) :
    fetch (l.map some) i k = k v := by
  unfold fetch
  rw [read_map_some, h]

/-- Writing at the end of a prefix. -/
theorem write_append_cons (p : List α) (c v : α) (q : List α) :
    Cells.write ((p ++ c :: q).map some) p.length v = some ((p ++ v :: q).map some) := by
  unfold Cells.write
  rw [if_neg (by simp), Int.toNat_natCast]
  simp

/-- Writing the next uninitialised cell of a temporary array. -/
theorem write_map_some_append (p : List α) (v : α) (q : Cells α) :
    Cells.write (p.map some ++ none :: q) p.length v = some ((p ++ [v]).map some ++ q) := by
  unfold Cells.write
  rw [if_neg (by simp), Int.toNat_natCast]
  simp

theorem exec_read {i : ℤ} {v : α} {a : Cells α} (h : a.read i = some v) (k : α → Prog α) :
    (Prog.read i k).exec a = (k v).exec a := by
  rw [Prog.exec, h, Option.bind_some]

theorem exec_write {i : ℤ} {v : α} {a a' : Cells α} (h : a.write i v = some a') (k : Prog α) :
    (Prog.write i v k).exec a = k.exec a' := by
  rw [Prog.exec, h, Option.bind_some]

/-! ## Specifications of the loops -/

/-- The copy loop fills the temporary array with a segment of `arr`. -/
theorem exec_copyLoop (p xs q done : List α) (k : Cells α → Prog α) :
    (copyLoop p.length xs.length done.length
        (done.map some ++ List.replicate xs.length none) fun T => k T).exec
          ((p ++ done ++ xs ++ q).map some) =
      (k ((done ++ xs).map some)).exec ((p ++ done ++ xs ++ q).map some) := by
  induction xs generalizing done with
  | nil => simp [copyLoop]
  | cons x xs ih =>
    rw [List.length_cons, copyLoop]
    have hread : Cells.read ((p ++ done ++ x :: xs ++ q).map some)
        ((p.length : ℤ) + done.length) = some x := by
      rw [← Nat.cast_add, read_map_some]
      simp
    rw [exec_read hread]
    unfold store
    rw [List.replicate_succ, write_map_some_append]
    have := ih (done ++ [x])
    simpa [List.append_assoc] using this

/-- A drain loop appends the rest of a temporary array to what has been merged. -/
theorem exec_drainLoop (t p old q : List α) (i : ℕ) (hold : i + old.length = t.length)
    (rest : ℤ → Prog α) :
    (drainLoop (t.map some) t.length i p.length rest).exec ((p ++ old ++ q).map some) =
      (rest (p.length + old.length)).exec ((p ++ t.drop i ++ q).map some) := by
  induction old generalizing p i with
  | nil =>
    simp only [List.length_nil, Nat.add_zero] at hold
    rw [drainLoop, if_neg (by omega), List.drop_eq_nil_of_le hold.ge]
    simp
  | cons c old ih =>
    rw [List.length_cons] at hold
    have hi : i < t.length := by omega
    rw [drainLoop, if_pos (by omega), fetch_map_some (List.getElem?_eq_getElem hi),
      List.append_assoc, List.cons_append, exec_write (write_append_cons p c _ (old ++ q))]
    have hstep := ih (p ++ [t[i]]) (i + 1) (by omega)
    have hpos : ((p ++ [t[i]]).length : ℤ) = (p.length : ℤ) + 1 := by simp
    have hend : (p.length : ℤ) + 1 + old.length = p.length + (old.length + 1 : ℕ) := by
      push_cast
      ring
    have harr : p ++ [t[i]] ++ old ++ q = p ++ t[i] :: (old ++ q) := by simp
    have hres : p ++ [t[i]] ++ t.drop (i + 1) ++ q = p ++ t.drop i ++ q := by
      rw [List.drop_eq_getElem_cons hi]
      simp
    rw [hpos, hend, harr, hres, Nat.cast_add, Nat.cast_one] at hstep
    rw [hstep, List.length_cons]

theorem append_split (p l q : List α) (n : ℕ) :
    p ++ l ++ q = p ++ l.take n ++ (l.drop n ++ q) := by
  nth_rewrite 1 [← List.take_append_drop n l]
  simp only [List.append_assoc]

/-- The two drain loops append the rests of both temporary arrays. -/
theorem exec_drainLoop_drainLoop (a b p old q : List α) (i j : ℕ) (hi : i ≤ a.length)
    (hj : j ≤ b.length) (hold : i + j + old.length = a.length + b.length) (rest : Prog α) :
    (drainLoop (a.map some) a.length i p.length fun k =>
        drainLoop (b.map some) b.length j k fun _ => rest).exec ((p ++ old ++ q).map some) =
      rest.exec ((p ++ (a.drop i ++ b.drop j) ++ q).map some) := by
  have hlen : (old.take (a.length - i)).length = a.length - i := by
    rw [List.length_take]
    omega
  rw [append_split p old q (a.length - i),
    exec_drainLoop a p (old.take (a.length - i)) _ i (by omega)]
  have hpos : (p.length : ℤ) + (old.take (a.length - i)).length = (p ++ a.drop i).length := by
    rw [hlen]
    simp
  rw [hpos, ← List.append_assoc, exec_drainLoop b (p ++ a.drop i) _ q j (by simp; omega)]
  simp [List.append_assoc]

/-- The merge loop and the two drain loops replace the rest of the segment by the merge of the rests
of the temporary arrays. -/
theorem exec_mergeLoop (a b p old q : List α) (i j : ℕ) (hi : i ≤ a.length) (hj : j ≤ b.length)
    (hold : i + j + old.length = a.length + b.length) (rest : Prog α) :
    (mergeLoop key (a.map some) (b.map some) a.length b.length i j p.length fun i j k =>
        drainLoop (a.map some) a.length i k fun k =>
          drainLoop (b.map some) b.length j k fun _ => rest).exec ((p ++ old ++ q).map some) =
      rest.exec ((p ++ List.merge (a.drop i) (b.drop j) (keyLE key) ++ q).map some) := by
  induction old generalizing p i j with
  | nil =>
    rw [List.length_nil] at hold
    rw [mergeLoop, if_neg (by omega), exec_drainLoop_drainLoop a b p [] q i j hi hj hold,
      List.drop_eq_nil_of_le (by omega : a.length ≤ i),
      List.drop_eq_nil_of_le (by omega : b.length ≤ j)]
    simp
  | cons c old ih =>
    by_cases hboth : i < a.length ∧ j < b.length
    · obtain ⟨hia, hjb⟩ := hboth
      rw [List.length_cons] at hold
      have harr : ∀ v : α, p ++ [v] ++ old ++ q = p ++ v :: (old ++ q) := by simp
      have hpos : ∀ v : α, ((p ++ [v]).length : ℤ) = (p.length : ℤ) + 1 := by simp
      rw [mergeLoop, if_pos (by omega), fetch_map_some (List.getElem?_eq_getElem hia),
        fetch_map_some (List.getElem?_eq_getElem hjb), List.drop_eq_getElem_cons hia,
        List.drop_eq_getElem_cons hjb, List.append_assoc, List.cons_append]
      split_ifs with hle
      · have hstep := ih (p ++ [a[i]]) (i + 1) j hia hj (by omega)
        rw [hpos, harr, Nat.cast_add, Nat.cast_one] at hstep
        rw [exec_write (write_append_cons p c _ (old ++ q)), hstep,
          List.cons_merge_cons_pos (keyLE key) _ _ (by simpa [keyLE] using hle),
          List.drop_eq_getElem_cons hjb]
        simp
      · have hstep := ih (p ++ [b[j]]) i (j + 1) hi hjb (by omega)
        rw [hpos, harr, Nat.cast_add, Nat.cast_one] at hstep
        rw [exec_write (write_append_cons p c _ (old ++ q)), hstep,
          List.cons_merge_cons_neg (keyLE key) _ _ (by simpa [keyLE] using hle),
          List.drop_eq_getElem_cons hia]
        simp
    · rw [mergeLoop, if_neg (by omega), exec_drainLoop_drainLoop a b p _ q i j hi hj hold]
      -- One of the rests is empty, so merging is appending.
      by_cases hia : i < a.length
      · rw [List.drop_eq_nil_of_le (by omega : b.length ≤ j)]
        simp
      · rw [List.drop_eq_nil_of_le (by omega : a.length ≤ i)]
        simp

/-! ## Specifications of `merge` and `mergeSort` -/

/-- `merge` replaces two adjacent segments by their merge. -/
theorem exec_merge (p a b q : List α) (rest : Prog α) :
    (merge key p.length (p.length + a.length - 1) (p.length + a.length + b.length - 1) rest).exec
        ((p ++ a ++ b ++ q).map some) =
      rest.exec ((p ++ List.merge a b (keyLE key) ++ q).map some) := by
  unfold merge
  have hn1 : (p.length : ℤ) + a.length - 1 - p.length + 1 = a.length := by ring
  have hn2 : (p.length : ℤ) + a.length + b.length - 1 - (p.length + a.length - 1) = b.length := by
    ring
  have hbase : (p.length : ℤ) + a.length - 1 + 1 = (p ++ a).length := by
    rw [List.length_append]
    push_cast
    ring
  simp only [hn1, hn2, hbase, malloc, Int.toNat_natCast]
  have hL := exec_copyLoop p a (b ++ q) [] (k := fun L =>
    copyLoop (p ++ a).length b.length 0 (List.replicate b.length none) fun R =>
      mergeLoop key L R a.length b.length 0 0 p.length fun i j k =>
        drainLoop L a.length i k fun k => drainLoop R b.length j k fun _ => rest)
  have hR := exec_copyLoop (p ++ a) b q [] (k := fun R =>
    mergeLoop key (a.map some) R a.length b.length 0 0 p.length fun i j k =>
      drainLoop (a.map some) a.length i k fun k => drainLoop R b.length j k fun _ => rest)
  have hM := exec_mergeLoop key a b p (a ++ b) q 0 0 (Nat.zero_le _) (Nat.zero_le _) (by simp) rest
  simp only [List.append_nil, List.nil_append, List.map_nil, List.length_nil, Nat.cast_zero,
    List.append_assoc, List.drop_zero] at hL hR hM ⊢
  rw [hL, hR, hM]

/-- `mergeSort` on the segment `arr[l..r]` leaves its stable sort there and everything else
unchanged. -/
theorem exec_mergeSort (seg : List α) : ∃ seg', StableSort key seg seg' ∧
    ∀ (p q : List α) (rest : Prog α),
      (mergeSort key p.length (p.length + seg.length - 1) rest).exec ((p ++ seg ++ q).map some) =
        rest.exec ((p ++ seg' ++ q).map some) := by
  induction hn : seg.length using Nat.strong_induction_on generalizing seg with
  | _ n ih =>
    subst hn
    by_cases hshort : seg.length ≤ 1
    · refine ⟨seg, stableSort_of_length_le_one hshort, fun p q rest => ?_⟩
      rw [mergeSort, if_neg (by omega)]
    · -- The middle splits the segment after `(r - l) / 2 + 1` elements.
      let h := (seg.length - 1) / 2 + 1
      have hlo : (seg.take h).length = h := by
        rw [List.length_take]
        omega
      have hhi : (seg.drop h).length = seg.length - h := List.length_drop
      obtain ⟨a, ha, hsorta⟩ := ih _ (by omega) (seg.take h) rfl
      obtain ⟨b, hb, hsortb⟩ := ih _ (by omega) (seg.drop h) rfl
      have hla : a.length = h := by rw [ha.length_eq, hlo]
      have hlb : b.length = seg.length - h := by rw [hb.length_eq, hhi]
      refine ⟨List.merge a b (keyLE key), ?_, fun p q rest => ?_⟩
      · have := ha.merge hb
        rwa [List.take_append_drop] at this
      · have hm : (p.length : ℤ) + (p.length + seg.length - 1 - p.length) / 2 =
            p.length + (seg.take h).length - 1 := by omega
        have hr : (p.length : ℤ) + seg.length - 1 =
            (p ++ a).length + (seg.drop h).length - 1 := by
          rw [List.length_append]
          omega
        have hl : (p.length : ℤ) + (seg.take h).length - 1 + 1 = (p ++ a).length := by
          rw [List.length_append]
          omega
        rw [mergeSort, if_pos (by omega)]
        simp only [hm]
        rw [append_split p seg q h, hsorta, hl, ← List.append_assoc, hr, hsortb]
        have hmerge := exec_merge key p a b q rest
        have hm' : (p.length : ℤ) + (seg.take h).length - 1 = p.length + a.length - 1 := by omega
        have hr' : ((p ++ a).length : ℤ) + (seg.drop h).length - 1 =
            p.length + a.length + b.length - 1 := by
          rw [List.length_append]
          omega
        rw [hm', hr', hmerge]

/-! ## Any segment of an array -/

/-- The elements `arr[l..r]`. -/
def segment (l r : ℤ) (arr : List α) : List α := (arr.drop l.toNat).take (r + 1 - l).toNat

theorem segment_eq_nil {l r : ℤ} (h : r < l) (arr : List α) : segment l r arr = [] := by
  unfold segment
  rw [show (r + 1 - l).toNat = 0 by omega, List.take_zero]

theorem length_segment {l r : ℤ} {arr : List α} (hl : 0 ≤ l) (hr : r < arr.length) :
    (segment l r arr).length = (r + 1 - l).toNat := by
  unfold segment
  rw [List.length_take, List.length_drop]
  omega

/-- An array is what comes before a segment, the segment, and what comes after it. -/
theorem take_segment_drop {l r : ℤ} (hl : 0 ≤ l) (hlr : l ≤ r) (arr : List α) :
    arr.take l.toNat ++ segment l r arr ++ arr.drop (r + 1).toNat = arr := by
  unfold segment
  have hend : (r + 1).toNat = l.toNat + (r + 1 - l).toNat := by omega
  rw [hend, ← List.drop_drop, List.append_assoc, List.take_append_drop, List.take_append_drop]

/-- The segment that stands between `l` elements and the rest of an array. -/
theorem segment_append {l r : ℤ} {p seg q : List α} (hp : p.length = l.toNat)
    (hseg : seg.length = (r + 1 - l).toNat) : segment l r (p ++ seg ++ q) = seg := by
  unfold segment
  rw [← hp, ← hseg, List.append_assoc, List.drop_left, List.take_left]

/-- Replacing a segment by one of the same length leaves the elements outside of it. -/
theorem getElem?_append_of_outside {l r : ℤ} {p seg seg' q : List α} (hl : 0 ≤ l)
    (hp : p.length = l.toNat) (hseg : seg.length = (r + 1 - l).toNat)
    (hlen : seg'.length = seg.length) {i : ℕ} (hi : ¬ (l ≤ i ∧ (i : ℤ) ≤ r)) :
    (p ++ seg' ++ q)[i]? = (p ++ seg ++ q)[i]? := by
  by_cases hbefore : i < p.length
  · rw [List.append_assoc, List.append_assoc, List.getElem?_append_left hbefore,
      List.getElem?_append_left hbefore]
  · have hafter : (p ++ seg).length ≤ i := by
      rw [List.length_append]
      omega
    have hafter' : (p ++ seg').length ≤ i := by
      rw [List.length_append, hlen, ← List.length_append]
      exact hafter
    rw [List.getElem?_append_right hafter, List.getElem?_append_right hafter', List.length_append,
      List.length_append, hlen]

/-- `mergeSort(arr, l, r)` ends without an access outside `arr` or a temporary array, leaves in
`arr[l..r]` the stable sort of what was there, and touches nothing else. -/
theorem mergeSort_in_place (arr : List α) {l r : ℤ} (hl : 0 ≤ l) (hr : r < arr.length) :
    ∃ arr' : List α, (mergeSort key l r .done).exec (arr.map some) = some (arr'.map some) ∧
      arr'.length = arr.length ∧ StableSort key (segment l r arr) (segment l r arr') ∧
      ∀ i : ℕ, ¬ (l ≤ i ∧ (i : ℤ) ≤ r) → arr'[i]? = arr[i]? := by
  by_cases hlr : l ≤ r
  · have hp : (arr.take l.toNat).length = l.toNat := by
      rw [List.length_take]
      omega
    have hseg := length_segment hl hr
    obtain ⟨seg', hsort, hexec⟩ := exec_mergeSort key (segment l r arr)
    have hrun := hexec (arr.take l.toNat) (arr.drop (r + 1).toNat) .done
    have hstart : ((arr.take l.toNat).length : ℤ) = l := by omega
    have hstop : l + (segment l r arr).length - 1 = r := by omega
    rw [hstart, hstop, take_segment_drop hl hlr, Prog.exec] at hrun
    have hlen := hsort.length_eq
    have hsplit := take_segment_drop hl hlr arr
    refine ⟨_, hrun, ?_, ?_, fun i hi => ?_⟩
    · conv_rhs => rw [← hsplit]
      simp only [List.length_append, hlen]
    · rwa [segment_append hp (hlen.trans hseg)]
    · rw [getElem?_append_of_outside hl hp hseg hlen hi, hsplit]
  · refine ⟨arr, ?_, rfl, ?_, fun i _ => rfl⟩
    · rw [mergeSort, if_neg (by omega), Prog.exec]
    · rw [segment_eq_nil (by omega)]
      exact stableSort_of_length_le_one (by simp)

/-- The three elements in the middle of five. -/
theorem mergeSort_in_place_middle : (0 : ℤ) ≤ 1 ∧ (3 : ℤ) < ([5, 4, 3, 2, 1] : List ℤ).length ∧
    ∃ arr' : List ℤ, (mergeSort id 1 3 .done).exec (([5, 4, 3, 2, 1] : List ℤ).map some) =
        some (arr'.map some) ∧ arr'.length = ([5, 4, 3, 2, 1] : List ℤ).length ∧
      StableSort id (segment 1 3 [5, 4, 3, 2, 1]) (segment 1 3 arr') ∧
      ∀ i : ℕ, ¬ ((1 : ℤ) ≤ i ∧ (i : ℤ) ≤ 3) → arr'[i]? = ([5, 4, 3, 2, 1] : List ℤ)[i]? :=
  ⟨by decide, by decide, mergeSort_in_place id _ (by decide) (by decide)⟩

end SystemsProjects.Psort
