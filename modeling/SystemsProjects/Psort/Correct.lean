import SystemsProjects.Psort.Main

/-!
# Correctness of psort

The distribution loop cuts the lines into chunks, the threads sort the chunks whatever their
interleaving, and sorting the concatenation of the sorted chunks and the remainder sorts the input,
because a chunk keeps the runs of equal keys in order.
-/

namespace SystemsProjects.Psort

open Sorting MachineInt

variable {α : Type*}

/-! ## Chunks -/

/-- The `j`-th chunk of `m` elements. -/
def chunk (xs : List α) (m j : ℕ) : List α := (xs.drop (j * m)).take m

theorem flatten_chunks (xs : List α) (m : ℕ) : ∀ n,
    ((List.range n).map (chunk xs m)).flatten = xs.take (n * m)
  | 0 => by simp
  | n + 1 => by
    rw [List.range_succ, List.map_append, List.flatten_append, flatten_chunks xs m n, Nat.succ_mul,
      List.take_add]
    simp [chunk]

theorem length_chunk {xs : List α} {m n j : ℕ} (h : n * m ≤ xs.length) (hj : j < n) :
    (chunk xs m j).length = m := by
  have : j * m + m ≤ n * m := by
    rw [← Nat.succ_mul]
    exact Nat.mul_le_mul_right m hj
  unfold chunk
  rw [List.length_take, List.length_drop]
  omega

/-- One more element goes to the end of the chunk that is being filled. -/
theorem chunk_append_singleton {xs : List α} {m j k : ℕ} (hlen : xs.length = j * m + k) (hk : k < m)
    (v : α) (i : ℕ) :
    chunk (xs ++ [v]) m i = if i = j then chunk xs m i ++ [v] else chunk xs m i := by
  unfold chunk
  split_ifs with hij
  · subst hij
    rw [List.drop_append_of_le_length (by omega), List.take_of_length_le, List.take_of_length_le]
    · rw [List.length_drop]
      omega
    · rw [List.length_append, List.length_drop, List.length_singleton]
      omega
  · rcases Nat.lt_or_gt_of_ne hij with hlt | hgt
    · have : i * m + m ≤ j * m := by
        rw [← Nat.succ_mul]
        exact Nat.mul_le_mul_right m hlt
      rw [List.drop_append_of_le_length (by omega), List.take_append_of_le_length]
      rw [List.length_drop]
      omega
    · have : j * m + m ≤ i * m := by
        rw [← Nat.succ_mul]
        exact Nat.mul_le_mul_right m hgt
      rw [List.drop_eq_nil_of_le (by simp; omega), List.drop_eq_nil_of_le (by omega)]

/-! ## Distribution -/

/-- A child array of `m` cells that holds `c`. -/
def row (m : ℕ) (c : List KeyValuePair) : Cells KeyValuePair :=
  c.map some ++ List.replicate (m - c.length) none

/-- `parent_array` with `n` child arrays after the lines `xs` have been distributed. -/
def grid (xs : List KeyValuePair) (m n : ℕ) : Grid := (List.range n).map fun j => row m (chunk xs m j)

theorem write_row {m : ℕ} {c : List KeyValuePair} (h : c.length < m) (v : KeyValuePair) :
    Cells.write (row m c) c.length v = some (row m (c ++ [v])) := by
  have hsucc : m - c.length = (m - (c ++ [v]).length) + 1 := by
    rw [List.length_append, List.length_singleton]
    omega
  unfold row
  rw [hsucc, List.replicate_succ, write_map_some_append]

theorem write_grid {xs : List KeyValuePair} {m n j k : ℕ} (hlen : xs.length = j * m + k)
    (hk : k < m) (hj : j < n) (v : KeyValuePair) :
    (grid xs m n).write j k v = some (grid (xs ++ [v]) m n) := by
  have hchunk : (chunk xs m j).length = k := by
    unfold chunk
    rw [List.length_take, List.length_drop]
    omega
  have hrow : (grid xs m n).getD j [] = row m (chunk xs m j) := by
    rw [List.getD_eq_getElem?_getD]
    simp [grid, hj]
  unfold Grid.write
  have hglen : (grid xs m n).length = n := by simp [grid]
  rw [if_neg (by omega), Int.toNat_natCast, hrow]
  have hw := write_row (m := m) (c := chunk xs m j) (by omega) v
  rw [hchunk] at hw
  rw [hw, Option.map_some, Option.some.injEq]
  apply List.ext_getElem?
  intro i
  rw [List.getElem?_set]
  by_cases hij : j = i
  · subst hij
    rw [if_pos rfl, if_pos (by omega)]
    simp [grid, hj, chunk_append_singleton hlen hk]
  · rw [if_neg hij]
    by_cases hi : i < n
    · simp [grid, hi, chunk_append_singleton hlen hk, Ne.symm hij]
    · simp [grid, hi]

/-- The distribution loop fills the child arrays with the chunks, and stays inside them. -/
theorem distribute_eq_some (lines : List KeyValuePair) {m T : ℕ} (hm : 0 < m)
    (hT : T * m ≤ lines.length) : ∀ (n i j k : ℕ), i = j * m + k → k < m → i + n = T * m →
      distribute lines m n i j k (grid (lines.take i) m T) = some (grid (lines.take (T * m)) m T)
  | 0, i, j, k, _, _, hn => by
    rw [Nat.add_zero] at hn
    rw [distribute, hn]
  | n + 1, i, j, k, hi, hk, hn => by
    have hlt : i < lines.length := by omega
    have hj : j < T := by
      by_contra hge
      have : T * m ≤ j * m := Nat.mul_le_mul_right m (by omega)
      omega
    have htake : lines.take (i + 1) = lines.take i ++ [lines[i]] := (List.take_concat_get' _ _ hlt).symm
    have hlen : (lines.take i).length = j * m + k := by
      rw [List.length_take]
      omega
    rw [distribute, read_map_some, List.getElem?_eq_getElem hlt, Option.bind_some,
      write_grid hlen hk hj, Option.bind_some, ← htake]
    split_ifs with hlast
    · have := distribute_eq_some lines hm hT n (i + 1) (j + 1) 0
        (by rw [Nat.succ_mul]; omega) hm (by omega)
      simpa using this
    · have := distribute_eq_some lines hm hT n (i + 1) j (k + 1) (by omega) (by omega) (by omega)
      simpa using this

/-! ## The plan -/

/-- The counters of a plan for `L` lines with `m` lines for each thread. -/
structure PlanFor (p : Plan) (L m : ℕ) : Prop where
  numThread : p.numThread = p.numThread.toNat
  linesEachThread : p.linesEachThread = m
  numLines : p.numLines = (p.numThread.toNat * m : ℕ)
  remainder : p.remainder = (L - p.numThread.toNat * m : ℕ)
  le : p.numThread.toNat * m ≤ L

theorem plan_planFor (L : ℕ) {t : ℕ} (ht : 1 ≤ t) :
    PlanFor (plan L t) L ((plan L t).linesEachThread.toNat) := by
  obtain ⟨n, hn, hpos⟩ : ∃ n : ℕ, (plan L t).numThread = n ∧ 0 < n := by
    unfold plan
    by_cases h : (L : ℤ) / t = 0
    · exact ⟨2, by simp [h], by omega⟩
    · exact ⟨t, by simp [h], by omega⟩
  have heach : (plan L t).linesEachThread = (L / n : ℕ) := by
    rw [show (plan L t).linesEachThread = (L : ℤ) / (plan L t).numThread from rfl, hn]
    rfl
  have hrem : (plan L t).remainder = (L % n : ℕ) := by
    rw [show (plan L t).remainder = (L : ℤ) % (plan L t).numThread from rfl, hn]
    rfl
  have hlines : (plan L t).numLines = L - (plan L t).remainder := rfl
  have hdiv := Nat.div_add_mod L n
  have hn' : (plan L t).numThread.toNat = n := by rw [hn, Int.toNat_natCast]
  have heach' : (plan L t).linesEachThread.toNat = L / n := by rw [heach, Int.toNat_natCast]
  refine ⟨?_, ?_, ?_, ?_, ?_⟩ <;> simp only [hn', heach'] <;> omega

variable {lines : List KeyValuePair} {p : Plan} {m : ℕ}

/-- The state in which the threads start: every child array holds its chunk. -/
theorem PlanFor.start_eq_some (h : PlanFor p lines.length m) :
    ∃ pool, start lines p = some pool ∧
      (∀ i, pool.control i = mergeSort KeyValuePair.key 0 (m - 1) .done) ∧
      ∀ j < p.numThread.toNat, pool.heap j = (chunk lines m j).map some := by
  have hgrid : distribute lines m (p.numThread.toNat * m) 0 0 0
      (List.replicate p.numThread.toNat (malloc m)) =
        some (grid (lines.take (p.numThread.toNat * m)) m p.numThread.toNat) := by
    have hempty : List.replicate p.numThread.toNat (malloc m) = grid (lines.take 0) m p.numThread.toNat := by
      simp [grid, chunk, row, malloc, List.map_const']
    rw [hempty]
    cases m with
    | zero => simp [distribute]
    | succ m =>
      have := distribute_eq_some lines (Nat.succ_pos m) h.le (p.numThread.toNat * (m + 1)) 0 0 0
        (by simp) (by omega) (by simp)
      simpa using this
  refine ⟨_, by rw [start, h.linesEachThread, h.numLines, Int.toNat_natCast, hgrid]; rfl,
    fun _ => rfl, fun j hj => ?_⟩
  have hle := h.le
  have hchunk : chunk (lines.take (p.numThread.toNat * m)) m j = chunk lines m j := by
    have : j * m + m ≤ p.numThread.toNat * m := by
      rw [← Nat.succ_mul]
      exact Nat.mul_le_mul_right m hj
    unfold chunk
    rw [List.drop_take, List.take_take, Nat.min_eq_left (by omega)]
  simp only [List.getD_eq_getElem?_getD]
  rw [grid, List.getElem?_map, List.getElem?_range hj]
  simp [row, hchunk, length_chunk h.le hj]

/-! ## The threads -/

/-- A program that runs to its end alone halts there and never faults on the way. -/
theorem solo_of_exec {prog : Prog α} {a a' : Cells α} (h : prog.exec a = some a') :
    (∃ N, Interleaving.solo Prog.next (prog, a) N = (.done, a')) ∧
      ∀ n, (Interleaving.solo Prog.next (prog, a) n).1 ≠ .fault := by
  induction prog generalizing a with
  | done =>
    obtain rfl : a = a' := Option.some.inj h
    have hstay : ∀ n, Interleaving.solo Prog.next (Prog.done, a) n = (.done, a) := fun n =>
      Interleaving.solo_eq_of_none (m := 0) rfl (Nat.zero_le n)
    exact ⟨⟨0, rfl⟩, fun n => by simp [hstay n]⟩
  | fault => cases h
  | read i k ih =>
    obtain ⟨v, hv, hk⟩ := Option.bind_eq_some_iff.1 h
    have hnext : Prog.next (.read i k) a = some (k v, a) := by simp [Prog.next, hv]
    obtain ⟨⟨N, hN⟩, hsafe⟩ := ih v hk
    refine ⟨⟨N + 1, by rw [Interleaving.solo_succ_of_eq_some _ hnext, hN]⟩, fun n => ?_⟩
    cases n with
    | zero => simp [Interleaving.solo]
    | succ n =>
      rw [Interleaving.solo_succ_of_eq_some _ hnext]
      exact hsafe n
  | write i v k ih =>
    obtain ⟨b, hb, hk⟩ := Option.bind_eq_some_iff.1 h
    have hnext : Prog.next (.write i v k) a = some (k, b) := by simp [Prog.next, hb]
    obtain ⟨⟨N, hN⟩, hsafe⟩ := ih hk
    refine ⟨⟨N + 1, by rw [Interleaving.solo_succ_of_eq_some _ hnext, hN]⟩, fun n => ?_⟩
    cases n with
    | zero => simp [Interleaving.solo]
    | succ n =>
      rw [Interleaving.solo_succ_of_eq_some _ hnext]
      exact hsafe n

/-- `mergeSort` of a whole array. -/
theorem exec_mergeSort_all (key : α → ℤ) (xs : List α) : ∃ xs', StableSort key xs xs' ∧
    (mergeSort key 0 ((xs.length : ℤ) - 1) .done).exec (xs.map some) = some (xs'.map some) := by
  obtain ⟨xs', hsort, hexec⟩ := exec_mergeSort key xs
  refine ⟨xs', hsort, ?_⟩
  have := hexec [] [] .done
  simpa [Prog.exec] using this

/-! ## Gathering and writing -/

theorem row_of_length_eq {c : List KeyValuePair} (h : c.length = m) : row m c = c.map some := by
  simp [row, h]

/-- Element `k` of the `j`-th list of a concatenation of lists of length `m`. -/
theorem getElem?_flatten_of_length {m : ℕ} : ∀ (L : List (List α)), (∀ l ∈ L, l.length = m) →
    ∀ {j k : ℕ} {l : List α}, L[j]? = some l → k < m → L.flatten[j * m + k]? = l[k]?
  | [], _, _, _, _, h, _ => by simp at h
  | x :: L, hL, 0, k, l, h, hk => by
    obtain rfl : x = l := by simpa using h
    have hx := hL x List.mem_cons_self
    rw [List.flatten_cons, Nat.zero_mul, Nat.zero_add, List.getElem?_append_left (by omega)]
  | x :: L, hL, j + 1, k, l, h, hk => by
    have hx := hL x List.mem_cons_self
    rw [List.flatten_cons, List.getElem?_append_right (by rw [Nat.succ_mul]; omega)]
    have hidx : (j + 1) * m + k - x.length = j * m + k := by
      rw [Nat.succ_mul]
      omega
    rw [hidx]
    exact getElem?_flatten_of_length L (fun l hl => hL l (List.mem_cons_of_mem x hl))
      (by simpa using h) hk

/-- The gathering loop copies the concatenation `C` of the child arrays `c`. -/
theorem gather_eq_some {T L : ℕ} (t : Threads T) (c : ℕ → List KeyValuePair) (hm : 0 < m)
    (hc : ∀ j < T, (c j).length = m ∧ t.heap j = (c j).map some) (hL : T * m ≤ L) :
    ∀ (n i j k : ℕ), i = j * m + k → k < m → i + n = T * m →
      gather t m n i j k (row L (((List.range T).map c).flatten.take i)) =
        some (row L ((List.range T).map c).flatten)
  | 0, i, j, k, _, _, hn => by
    have hlen : ((List.range T).map c).flatten.length ≤ i := by
      rw [List.length_flatten, List.map_map, List.map_congr_left (g := fun _ => m)]
      · simp
        omega
      · intro j hj
        exact (hc j (List.mem_range.1 hj)).1
    rw [gather, List.take_of_length_le hlen]
  | n + 1, i, j, k, hi, hk, hn => by
    have hj : j < T := by
      by_contra hge
      have : T * m ≤ j * m := Nat.mul_le_mul_right m (by omega)
      omega
    obtain ⟨hlenj, hheap⟩ := hc j hj
    have hkj : k < (c j).length := by omega
    have hrow : ((List.range T).map c)[j]? = some (c j) := by simp [hj]
    have hall : ∀ l ∈ (List.range T).map c, l.length = m := by
      intro l hl
      obtain ⟨j, hj, rfl⟩ := List.mem_map.1 hl
      exact (hc j (List.mem_range.1 hj)).1
    have hget := getElem?_flatten_of_length _ hall hrow hk
    rw [← hi, List.getElem?_eq_getElem hkj] at hget
    obtain ⟨hlt, hval⟩ := List.getElem?_eq_some_iff.1 hget
    have hread : t.read j k = some (c j)[k] := by
      unfold Threads.read
      rw [if_neg (by omega), Int.toNat_natCast, hheap, read_map_some, List.getElem?_eq_getElem hkj]
    have htake : ((List.range T).map c).flatten.take (i + 1) =
        ((List.range T).map c).flatten.take i ++ [(c j)[k]] := by
      rw [← hval, List.take_concat_get' _ _ hlt]
    have hlen : (((List.range T).map c).flatten.take i).length = i := by
      rw [List.length_take]
      omega
    have hwrite := write_row (m := L) (c := ((List.range T).map c).flatten.take i) (by omega) (c j)[k]
    rw [hlen, ← htake] at hwrite
    rw [gather, hread, Option.bind_some, hwrite, Option.bind_some]
    split_ifs with hlast
    · have := gather_eq_some t c hm hc hL n (i + 1) (j + 1) 0
        (by rw [Nat.succ_mul]; omega) hm (by omega)
      simpa using this
    · have := gather_eq_some t c hm hc hL n (i + 1) j (k + 1) (by omega) (by omega) (by omega)
      simpa using this

theorem addRemainder_eq_some (lines : List KeyValuePair) : ∀ (n i : ℕ) (xs : List KeyValuePair),
    xs.length = i → i + n = lines.length →
      addRemainder lines n i (row lines.length xs) = some ((xs ++ lines.drop i).map some)
  | 0, i, xs, hxs, hn => by
    rw [addRemainder, List.drop_eq_nil_of_le (by omega), List.append_nil, row_of_length_eq (by omega)]
  | n + 1, i, xs, hxs, hn => by
    have hlt : i < lines.length := by omega
    have hwrite := write_row (m := lines.length) (c := xs) (by omega) lines[i]
    rw [hxs] at hwrite
    rw [addRemainder, read_map_some, List.getElem?_eq_getElem hlt, Option.bind_some, hwrite,
      Option.bind_some, List.drop_eq_getElem_cons hlt]
    have := addRemainder_eq_some lines n (i + 1) (xs ++ [lines[i]]) (by simp [hxs]) (by omega)
    simpa using this

theorem writeLines_eq_some (xs : List KeyValuePair) : ∀ (n i : ℕ), i + n = xs.length →
    writeLines (xs.map some) n i = some ((xs.drop i).flatMap (·.value))
  | 0, i, hn => by
    rw [writeLines, List.drop_eq_nil_of_le (by omega)]
    rfl
  | n + 1, i, hn => by
    have hlt : i < xs.length := by omega
    have := writeLines_eq_some xs n (i + 1) (by omega)
    rw [Nat.cast_add, Nat.cast_one] at this
    rw [writeLines, read_map_some, List.getElem?_eq_getElem hlt, Option.bind_some, this,
      Option.map_some, List.drop_eq_getElem_cons hlt, List.flatMap_cons]

/-- After the threads have sorted their chunks, the output is the stable sort of all lines. -/
theorem PlanFor.finish_eq_some (h : PlanFor p lines.length m) (t : Threads p.numThread.toNat)
    (c : ℕ → List KeyValuePair)
    (hc : ∀ j < p.numThread.toNat, StableSort KeyValuePair.key (chunk lines m j) (c j) ∧
      t.heap j = (c j).map some) :
    ∃ out, StableSort KeyValuePair.key lines out ∧
      finish lines p t = some (out.flatMap (·.value)) := by
  have hlen : ∀ j < p.numThread.toNat, (c j).length = m := fun j hj => by
    rw [(hc j hj).1.length_eq, length_chunk h.le hj]
  have hle := h.le
  let C := ((List.range p.numThread.toNat).map c).flatten
  have hruns : SameRuns KeyValuePair.key (lines.take (p.numThread.toNat * m)) C := by
    rw [← flatten_chunks]
    refine SameRuns.flatten (List.forall₂_map_left_iff.2 (List.forall₂_map_right_iff.2 ?_))
    rw [List.forall₂_same]
    exact fun j hj => (hc j (List.mem_range.1 hj)).1.runs
  have hC : C.length = p.numThread.toNat * m := by
    rw [← hruns.perm.length_eq, List.length_take]
    omega
  have hgather : gather t m (p.numThread.toNat * m) 0 0 0 (malloc lines.length) =
      some (row lines.length C) := by
    have hempty : (malloc lines.length : Cells KeyValuePair) = row lines.length (C.take 0) := by
      simp [malloc, row]
    rw [hempty]
    rcases Nat.eq_zero_or_pos m with hm | hm
    · have hnil : C = [] := List.length_eq_zero_iff.1 (by rw [hC, hm, Nat.mul_zero])
      simp [hm, gather, hnil]
    · have := gather_eq_some t c hm (fun j hj => ⟨hlen j hj, (hc j hj).2⟩) h.le
        (p.numThread.toNat * m) 0 0 0 (by simp) hm (by simp)
      simpa using this
  have hrest := addRemainder_eq_some lines (lines.length - p.numThread.toNat * m)
    (p.numThread.toNat * m) C hC (by omega)
  obtain ⟨out, hout, hexec⟩ := exec_mergeSort_all KeyValuePair.key
    (C ++ lines.drop (p.numThread.toNat * m))
  have hall : SameRuns KeyValuePair.key lines (C ++ lines.drop (p.numThread.toNat * m)) := by
    have := hruns.append (SameRuns.refl (lines.drop (p.numThread.toNat * m)))
    rwa [List.take_append_drop] at this
  have hsort : StableSort KeyValuePair.key lines out := StableSort.of_sameRuns hall hout
  refine ⟨out, hsort, ?_⟩
  have hnum : p.numLines + p.remainder = lines.length := by
    rw [h.numLines, h.remainder]
    omega
  have hwrite := writeLines_eq_some out lines.length 0 (by rw [hsort.length_eq, Nat.zero_add])
  rw [← hall.perm.length_eq] at hexec
  unfold finish
  simp only [hnum]
  simp only [h.linesEachThread, h.numLines, h.remainder, Int.toNat_natCast]
  rw [hgather, Option.bind_some, hrest, Option.bind_some, hexec, Option.bind_some]
  simpa using hwrite

/-! ## The whole program -/

/-- A line of the input file. -/
abbrev Record := {line : List UInt8 // line.length = LINE_LENGTH}

/-- The key psort sorts by: bytes 0 to 3 as a signed little-endian integer. -/
def Record.key (r : Record) : ℤ := keyOf r.1

def Record.pair (r : Record) : KeyValuePair := ⟨r.key, r.1⟩

/-- The input file: the records one after the other. -/
def fileOf (records : List Record) : List UInt8 := records.flatMap (·.1)

/-- The records are read one by one, whatever the buffer held before. -/
theorem readLines_fileOf : ∀ (buffer : List UInt8) (records : List Record),
    buffer.length = LINE_LENGTH → readLines buffer (fileOf records) = records.map Record.pair
  | buffer, [], _ => by
    rw [readLines]
    rfl
  | buffer, r :: records, hbuf => by
    have hfile : fileOf (r :: records) = r.1 ++ fileOf records := rfl
    have htake : (fileOf (r :: records)).take LINE_LENGTH = r.1 := by
      rw [hfile, List.take_left' r.2]
    have hdrop : (fileOf (r :: records)).drop LINE_LENGTH = fileOf records := by
      rw [hfile, List.drop_left' r.2]
    have hover : r.1 ++ buffer.drop r.1.length = r.1 := by
      rw [List.drop_eq_nil_of_le (by rw [r.2, hbuf]), List.append_nil]
    have hne : fileOf (r :: records) ≠ [] := by
      apply List.ne_nil_of_length_pos
      rw [hfile, List.length_append, r.2]
      exact Nat.add_pos_left (by decide) _
    rw [readLines, if_neg hne]
    simp only [htake, hdrop, hover]
    rw [readLines_fileOf r.1 records r.2]
    rfl

/-- The threads `start` creates sort their chunks: whatever the interleaving, none of them leaves its
array, all of them come to an end, and then every child array holds its chunk sorted. -/
theorem PlanFor.threads (h : PlanFor p lines.length m) :
    ∃ pool, start lines p = some pool ∧
      (∃ bound, ∀ q n, Interleaving.Reaches Prog.next Fin.val pool q n →
        n ≤ bound ∧ ∀ i, q.control i ≠ .fault) ∧
      ∃ c : ℕ → List KeyValuePair, ∀ q n, Interleaving.Reaches Prog.next Fin.val pool q n →
        Interleaving.Finished Prog.next Fin.val q → (∀ i, q.control i = .done) ∧
          ∀ j < p.numThread.toNat, StableSort KeyValuePair.key (chunk lines m j) (c j) ∧
            q.heap j = (c j).map some := by
  obtain ⟨pool, hstart, hcontrol, hheap⟩ := h.start_eq_some
  choose c hsort hexec using fun j => exec_mergeSort_all KeyValuePair.key (chunk lines m j)
  have hsolo : ∀ i : Fin p.numThread.toNat,
      (∃ N, Interleaving.solo Prog.next (pool.control i, pool.heap i) N = (.done, (c i).map some)) ∧
        ∀ n, (Interleaving.solo Prog.next (pool.control i, pool.heap i) n).1 ≠ .fault := by
    intro i
    rw [hcontrol i, hheap i i.2]
    apply solo_of_exec
    rw [← hexec i, length_chunk h.le i.2]
  choose N hN using fun i => (hsolo i).1
  have halts : ∀ i : Fin p.numThread.toNat,
      Prog.next (Interleaving.solo Prog.next (pool.control i, pool.heap i) (N i)).1
        (Interleaving.solo Prog.next (pool.control i, pool.heap i) (N i)).2 = none := by
    intro i
    rw [hN i]
    rfl
  refine ⟨pool, hstart, ⟨∑ i, N i, fun q n hq => ⟨?_, fun i => ?_⟩⟩, c, fun q n hq hfin => ?_⟩
  · exact hq.length_le Fin.val_injective halts
  · obtain ⟨k, -, hk, -⟩ := hq.solo Fin.val_injective
    rw [show q.control i = _ from congrArg Prod.fst (hk i)]
    exact (hsolo i).2 (k i)
  · have hfinal : ∀ i : Fin p.numThread.toNat,
        (q.control i, q.heap i) = (.done, (c i).map some) := fun i => by
      rw [hq.final Fin.val_injective halts hfin i, hN i]
    refine ⟨fun i => congrArg Prod.fst (hfinal i), fun j hj => ⟨hsort j, ?_⟩⟩
    exact congrArg Prod.snd (hfinal ⟨j, hj⟩)

/-- psort writes the stable sort of its input records by their keys, for every number of threads and
every interleaving of them, and no access leaves its array. -/
theorem psort_writes_stableSort (buffer : List UInt8) (hbuf : buffer.length = LINE_LENGTH)
    (records : List Record) :
    ∃ sorted, StableSort Record.key records sorted ∧ records.Perm sorted ∧ ∀ t : ℕ, 1 ≤ t →
      let lines := readLines buffer (fileOf records)
      let p := plan lines.length t
      ∃ pool, start lines p = some pool ∧
        (∃ bound, ∀ q n, Interleaving.Reaches Prog.next Fin.val pool q n →
          n ≤ bound ∧ ∀ i, q.control i ≠ .fault) ∧
        ∀ q n, Interleaving.Reaches Prog.next Fin.val pool q n →
          Interleaving.Finished Prog.next Fin.val q →
            (∀ i, q.control i = .done) ∧ finish lines p q = some (fileOf sorted) := by
  obtain ⟨sorted, hsorted, -⟩ := exec_mergeSort_all Record.key records
  have hpairs : StableSort KeyValuePair.key (records.map Record.pair) (sorted.map Record.pair) :=
    StableSort.map hsorted
  refine ⟨sorted, hsorted, hsorted.perm, fun t ht => ?_⟩
  intro lines
  have hlines : lines = records.map Record.pair := readLines_fileOf buffer records hbuf
  clear_value lines
  subst hlines
  have hplan := plan_planFor (records.map Record.pair).length ht
  obtain ⟨pool, hstart, hsafe, c, hdone⟩ := hplan.threads
  refine ⟨pool, hstart, hsafe, fun q n hq hfin => ?_⟩
  obtain ⟨hcontrol, hc⟩ := hdone q n hq hfin
  obtain ⟨out, hout, hfinish⟩ := hplan.finish_eq_some q c hc
  refine ⟨hcontrol, ?_⟩
  rw [hfinish, hout.unique hpairs, List.flatMap_map]
  rfl

/-- A record with the given first and last byte and zeros between them. -/
def recordOf (first last : UInt8) : Record := ⟨first :: List.replicate 98 0 ++ [last], rfl⟩

/-- Three records and two threads: the least key comes first, and the two equal keys stay in order. -/
theorem psort_writes_stableSort_threeRecords :
    ∃ pool, start ([recordOf 5 1, recordOf 5 0, recordOf 3 0].map Record.pair) (plan 3 2) = some pool ∧
      ∀ q n, Interleaving.Reaches Prog.next Fin.val pool q n →
        Interleaving.Finished Prog.next Fin.val q →
          finish ([recordOf 5 1, recordOf 5 0, recordOf 3 0].map Record.pair) (plan 3 2) q =
            some (fileOf [recordOf 3 0, recordOf 5 1, recordOf 5 0]) := by
  obtain ⟨sorted, hsorted, -, h⟩ := psort_writes_stableSort (List.replicate 100 0) rfl
    [recordOf 5 1, recordOf 5 0, recordOf 3 0]
  have hkeys : (recordOf 5 1).key = 5 ∧ (recordOf 5 0).key = 5 ∧ (recordOf 3 0).key = 3 := by decide
  have hexpected : StableSort Record.key [recordOf 5 1, recordOf 5 0, recordOf 3 0]
      [recordOf 3 0, recordOf 5 1, recordOf 5 0] := by
    refine ⟨by simp [hkeys], fun k => ?_⟩
    by_cases h3 : k = 3
    · simp [hkeys, h3]
    · simp [hkeys, Ne.symm h3, List.filter_cons]
  rw [hsorted.unique hexpected] at h
  specialize h 2 (by decide)
  rw [readLines_fileOf _ _ rfl] at h
  obtain ⟨pool, hstart, -, hall⟩ := h
  exact ⟨pool, hstart, fun q n hq hfin => (hall q n hq hfin).2⟩

end SystemsProjects.Psort
