import Mathlib.Algebra.Order.Ring.Nat
import Mathlib.Data.List.Basic
import Mathlib.Tactic.Ring

/-!
# Pipelines of the shell

`spawn_proc`, `fork_pipes` and `piping` of `P3/smash.c`, as the tree of processes that a pipeline gives
rise to.  `main` forks a process for the whole pipeline; that process forks one child for each stage but
the last, which it executes itself.  When the `exec` of a stage fails, `spawn_proc` returns in the child,
which then goes on in its copy of the caller's loop: from there on two processes run the rest of the
pipeline.  `starts_forkPipes` counts the processes that start a stage, and `stagesOnce_iff` says when
each stage is started once.
-/

namespace SystemsProjects.Smash

/-! ## The processes of a pipeline -/

/-- What the system decides during a pipeline. -/
structure World where
  /-- The `exec` of the stage returns `-1`. -/
  execFails : ℕ → Bool
  /-- `fd[0]` of the pipe made in iteration `i`. -/
  readEnd : ℕ → ℕ
  /-- The output file of a redirected last stage cannot be opened. -/
  openFails : Bool

/-- A process that is executing `fork_pipes`, or a copy of it: the stages whose `exec` has returned in
it, and those whose `exec` had returned in the processes it was forked from. -/
structure Running where
  failed : List ℕ
  before : List ℕ

/-- A process at its end: it runs the program of stage `started`, or it has left through `exit(0)`. -/
structure Process where
  failed : List ℕ
  before : List ℕ
  started : Option ℕ
  deriving DecidableEq

/-- The child that `fork` makes of a process. -/
def Running.child (r : Running) : Running := ⟨[], r.failed ++ r.before⟩

/-- The `exec` of stage `k` in a process that leaves when it fails. -/
def Running.exec (w : World) (r : Running) (k : ℕ) : Process :=
  if w.execFails k then ⟨r.failed ++ [k], r.before, none⟩ else ⟨r.failed, r.before, some k⟩

/-- The processes that `spawn_proc` ends, and those that return from it: the parent, and the child if
its `exec` fails. -/
def spawnProc (w : World) (i : ℕ) (r : Running) : List Process × List Running :=
  if w.execFails i then ([], [⟨r.child.failed ++ [i], r.child.before⟩, r])
  else ([⟨r.child.failed, r.child.before, some i⟩], [r])

/-- `fork_pipes` after its loop: the last stage, with its output redirected if the second last argument
is `>`. -/
def lastStage (w : World) (args : List String) (inFd i : ℕ) (r : Running) : Process :=
  if inFd ≠ 0 ∧ args[args.length - 2]? = some ">" then
    if w.openFails then ⟨r.failed, r.before, none⟩ else r.exec w i
  else r.exec w i

/-- The loop of `fork_pipes` from iteration `i` on, with `rest` iterations to go, in one process and all
its copies. -/
def forkPipesLoop (w : World) (args : List String) : ℕ → ℕ → ℕ → Running → List Process
  | 0, i, inFd, r => [lastStage w args inFd i r]
  | rest + 1, i, _, r =>
    (spawnProc w i r).1 ++
      (spawnProc w i r).2.flatMap (forkPipesLoop w args rest (i + 1) (w.readEnd i))

/-- All processes of a pipeline of `n` stages, from the process that `main` forked. -/
def forkPipes (w : World) (n : ℕ) (args : List String) : List Process :=
  forkPipesLoop w args (n - 1) 0 0 ⟨[], []⟩

/-- The commands of a pipeline. -/
def commands (args : List String) : List (List String) := args.splitOnP fun a => a = "|"

def piping (w : World) (args : List String) : List Process :=
  forkPipes w (commands args).length args

/-! ## Starting each stage once -/

/-- How many processes start stage `k`. -/
def starts (k : ℕ) (ps : List Process) : ℕ := ps.countP fun p => p.started = some k

/-- The last stage can be executed. -/
def lastStarts (w : World) (args : List String) (inFd i : ℕ) : Bool :=
  !w.execFails i && !(decide (inFd ≠ 0 ∧ args[args.length - 2]? = some ">") && w.openFails)

/-- A process that comes to stage `k` of `n` can execute its program. -/
def stageStarts (w : World) (args : List String) (n k : ℕ) : Bool :=
  if k + 1 < n then !w.execFails k else lastStarts w args (w.readEnd (n - 2)) k

/-- Each stage is started by at most one process, and no process starts a stage after the `exec` of an
earlier one has returned in it or in a process it was forked from. -/
def StagesOnce (n : ℕ) (ps : List Process) : Prop :=
  (∀ k < n, starts k ps ≤ 1) ∧
    ∀ p ∈ ps, ∀ i ∈ p.failed ++ p.before, ∀ k, p.started = some k → k ≤ i

/-- The number of stages from `i` on and before `k` whose `exec` fails. -/
def failsBetween (w : World) (i k : ℕ) : ℕ := (List.range' i (k - i)).countP w.execFails

theorem failsBetween_self (w : World) (i : ℕ) : failsBetween w i i = 0 := by
  simp [failsBetween]

theorem failsBetween_of_lt (w : World) {i k : ℕ} (h : i < k) :
    failsBetween w i k = failsBetween w (i + 1) k + if w.execFails i then 1 else 0 := by
  unfold failsBetween
  have hlen : k - i = (k - (i + 1)) + 1 := by omega
  rw [hlen, List.range'_succ, List.countP_cons]

theorem failsBetween_pos {w : World} {i j : ℕ} (h : i < j) (hi : w.execFails i = true) :
    0 < failsBetween w 0 j := by
  unfold failsBetween
  rw [List.countP_pos_iff]
  exact ⟨i, by simpa using h, hi⟩

/-- The descriptor the last stage reads from. -/
def lastIn (w : World) : ℕ → ℕ → ℕ → ℕ
  | 0, _, inFd => inFd
  | rest + 1, i, _ => lastIn w rest (i + 1) (w.readEnd i)

theorem lastIn_succ (w : World) (rest i inFd : ℕ) :
    lastIn w (rest + 1) i inFd = w.readEnd (i + rest) := by
  induction rest generalizing i inFd with
  | zero => rfl
  | succ rest ih =>
    rw [lastIn, ih]
    congr 1
    omega

/-- A process that comes to stage `k` of the loop can execute its program. -/
def reaches (w : World) (args : List String) (rest i inFd k : ℕ) : Bool :=
  if k < i + rest then !w.execFails k else lastStarts w args (lastIn w rest i inFd) k

variable {w : World} {args : List String}

theorem starts_append (k : ℕ) (ps qs : List Process) :
    starts k (ps ++ qs) = starts k ps + starts k qs := List.countP_append

/-- What the last stage does in a process. -/
theorem lastStage_cases (w : World) (args : List String) (inFd i : ℕ) (r : Running) :
    (lastStarts w args inFd i = true ∧ lastStage w args inFd i r = ⟨r.failed, r.before, some i⟩) ∨
    lastStarts w args inFd i = false ∧ (lastStage w args inFd i r).started = none ∧
      (lastStage w args inFd i r).before = r.before ∧
      ((lastStage w args inFd i r).failed = r.failed ∨
        w.execFails i = true ∧ (lastStage w args inFd i r).failed = r.failed ++ [i]) := by
  unfold lastStarts lastStage Running.exec
  cases hexec : w.execFails i <;> cases hopen : w.openFails <;>
    by_cases hredirect : inFd ≠ 0 ∧ args[args.length - 2]? = some ">" <;>
    simp [hredirect]

theorem starts_lastStage (k inFd i : ℕ) (r : Running) :
    starts k (forkPipesLoop w args 0 i inFd r) =
      if k = i ∧ lastStarts w args inFd i = true then 1 else 0 := by
  rcases lastStage_cases w args inFd i r with ⟨hstarts, heq⟩ | ⟨hstarts, heq, -⟩
  · simp [forkPipesLoop, starts, heq, hstarts, List.countP_cons, eq_comm]
  · simp [forkPipesLoop, starts, heq, hstarts]

/-- One iteration: the child runs its stage or the rest of the loop, the parent the rest. -/
theorem starts_loop_succ (k rest i inFd : ℕ) (r : Running) :
    starts k (forkPipesLoop w args (rest + 1) i inFd r) =
      (if w.execFails i then
        starts k (forkPipesLoop w args rest (i + 1) (w.readEnd i)
          ⟨r.child.failed ++ [i], r.child.before⟩)
      else if k = i then 1 else 0) +
      starts k (forkPipesLoop w args rest (i + 1) (w.readEnd i) r) := by
  rw [forkPipesLoop, spawnProc]
  cases w.execFails i with
  | true => simp [starts_append]
  | false =>
    simp [starts, List.countP_cons, eq_comm]
    omega

/-- The loop starts no stage that lies behind it. -/
theorem starts_loop_of_lt {k i : ℕ} (h : k < i) (rest inFd : ℕ) (r : Running) :
    starts k (forkPipesLoop w args rest i inFd r) = 0 := by
  induction rest generalizing i inFd r with
  | zero =>
    rw [starts_lastStage, if_neg]
    omega
  | succ rest ih =>
    rw [starts_loop_succ, ih (Nat.lt_succ_of_lt h), ih (Nat.lt_succ_of_lt h), if_neg h.ne]
    split_ifs <;> rfl

/-- Every failed stage before `k` doubles the number of processes that come to `k`. -/
theorem starts_loop {k i : ℕ} (rest inFd : ℕ) (r : Running) (hi : i ≤ k) (hk : k ≤ i + rest) :
    starts k (forkPipesLoop w args rest i inFd r) =
      if reaches w args rest i inFd k then 2 ^ failsBetween w i k else 0 := by
  induction rest generalizing i inFd r with
  | zero =>
    obtain rfl : k = i := by omega
    simp [starts_lastStage, failsBetween_self, reaches, lastIn]
  | succ rest ih =>
    rw [starts_loop_succ]
    by_cases hki : k = i
    · subst hki
      have hreach : reaches w args (rest + 1) k inFd k = !w.execFails k :=
        if_pos (Nat.lt_add_of_pos_right (Nat.succ_pos rest))
      rw [starts_loop_of_lt (Nat.lt_succ_self k), starts_loop_of_lt (Nat.lt_succ_self k),
        failsBetween_self, hreach]
      cases w.execFails k <;> simp
    · have hlt : i < k := by omega
      have hreach : reaches w args (rest + 1) i inFd k =
          reaches w args rest (i + 1) (w.readEnd i) k := by
        have heq : k < i + (rest + 1) ↔ k < i + 1 + rest := by omega
        simp only [reaches, heq, lastIn]
      rw [ih _ _ hlt (by omega), ih _ _ hlt (by omega), hreach, failsBetween_of_lt w hlt, if_neg hki]
      cases w.execFails i with
      | false => simp
      | true =>
        simp only [if_true, pow_succ]
        split_ifs
        · ring
        · rfl

theorem reaches_eq_stageStarts {n : ℕ} (hn : 2 ≤ n) (k : ℕ) :
    reaches w args (n - 1) 0 0 k = stageStarts w args n k := by
  obtain ⟨m, rfl⟩ : ∃ m, n = m + 2 := ⟨n - 2, by omega⟩
  have heq : k < 0 + (m + 1) ↔ k + 1 < m + 2 := by omega
  simp only [reaches, stageStarts, Nat.add_sub_cancel, Nat.add_one_sub_one, heq]
  rw [lastIn_succ, Nat.zero_add]

/-- The number of processes that start stage `k` of a pipeline. -/
theorem starts_forkPipes {n k : ℕ} (hn : 2 ≤ n) (hk : k < n) :
    starts k (forkPipes w n args) =
      if stageStarts w args n k then 2 ^ failsBetween w 0 k else 0 := by
  rw [forkPipes, starts_loop _ _ _ (Nat.zero_le k) (by omega), reaches_eq_stageStarts hn]

/-- The processes of the loop only carry failures of stages that fail, and start stages that can be
executed. -/
theorem loop_process {rest i inFd : ℕ} {r : Running}
    (hr : ∀ j ∈ r.failed ++ r.before, w.execFails j = true) {p : Process}
    (hp : p ∈ forkPipesLoop w args rest i inFd r) :
    (∀ j ∈ p.failed ++ p.before, w.execFails j = true) ∧
      ∀ k, p.started = some k → i ≤ k ∧ k ≤ i + rest ∧ reaches w args rest i inFd k = true := by
  induction rest generalizing i inFd r with
  | zero =>
    obtain rfl := List.mem_singleton.1 hp
    rcases lastStage_cases w args inFd i r with ⟨hstarts, heq⟩ | ⟨-, hnone, hbefore, hfailed⟩
    · rw [heq]
      refine ⟨hr, fun k hk => ?_⟩
      obtain rfl : i = k := Option.some.inj hk
      exact ⟨le_rfl, le_rfl, by simpa [reaches, lastIn] using hstarts⟩
    · rw [hnone, hbefore]
      refine ⟨fun j hj => ?_, fun k hk => nomatch hk⟩
      rcases hfailed with hfailed | ⟨hexec, hfailed⟩ <;> rw [hfailed] at hj
      · exact hr j hj
      · rcases List.mem_append.1 hj with hj | hj
        · rcases List.mem_append.1 hj with hj | hj
          · exact hr j (List.mem_append_left _ hj)
          · rw [List.mem_singleton.1 hj]
            exact hexec
        · exact hr j (List.mem_append_right _ hj)
  | succ rest ih =>
    have later : ∀ {r : Running}, (∀ j ∈ r.failed ++ r.before, w.execFails j = true) →
        p ∈ forkPipesLoop w args rest (i + 1) (w.readEnd i) r →
        (∀ j ∈ p.failed ++ p.before, w.execFails j = true) ∧
          ∀ k, p.started = some k → i ≤ k ∧ k ≤ i + (rest + 1) ∧
            reaches w args (rest + 1) i inFd k = true := by
      intro r hr hp
      obtain ⟨hfailed, hstarted⟩ := ih hr hp
      refine ⟨hfailed, fun k hk => ?_⟩
      obtain ⟨hle, hge, hreach⟩ := hstarted k hk
      have heq : k < i + (rest + 1) ↔ k < i + 1 + rest := by omega
      refine ⟨by omega, by omega, ?_⟩
      simpa only [reaches, heq, lastIn] using hreach
    rw [forkPipesLoop, spawnProc] at hp
    cases hexec : w.execFails i with
    | true =>
      simp only [hexec, if_true, List.nil_append, List.flatMap_cons, List.flatMap_nil,
        List.append_nil, List.mem_append] at hp
      rcases hp with hp | hp
      · refine later (fun j hj => ?_) hp
        rcases List.mem_append.1 hj with hj | hj
        · rw [show j = i by simpa [Running.child] using hj]
          exact hexec
        · exact hr j hj
      · exact later hr hp
    | false =>
      simp only [hexec, Bool.false_eq_true, if_false, List.flatMap_cons, List.flatMap_nil,
        List.append_nil, List.mem_append, List.mem_singleton] at hp
      rcases hp with rfl | hp
      · refine ⟨hr, fun k hk => ?_⟩
        obtain rfl : i = k := Option.some.inj hk
        refine ⟨le_rfl, by omega, ?_⟩
        rw [reaches, if_pos (Nat.lt_add_of_pos_right (Nat.succ_pos rest)), hexec]
        rfl
      · exact later hr hp

/-- For every pipeline of at least two stages and every choice of the stages whose `exec` fails: each
stage is started by at most one process and no process starts a stage after a failed `exec`, if and only
if no stage whose `exec` fails comes before one that can be executed. -/
theorem stagesOnce_iff (w : World) (n : ℕ) (args : List String) (hn : 2 ≤ n) :
    StagesOnce n (forkPipes w n args) ↔
      ∀ i k, i < k → k < n → w.execFails i = true → stageStarts w args n k = false := by
  constructor
  · rintro ⟨honce, -⟩ i k hik hkn hfails
    have hcount := honce k hkn
    rw [starts_forkPipes hn hkn] at hcount
    cases hstarts : stageStarts w args n k with
    | false => rfl
    | true =>
      -- The failed stage has at least doubled the processes that start stage `k`.
      rw [hstarts, if_pos rfl] at hcount
      have htwo : 2 ^ 1 ≤ 2 ^ failsBetween w 0 k :=
        Nat.pow_le_pow_right (by decide) (failsBetween_pos hik hfails)
      omega
  · intro h
    refine ⟨fun k hkn => ?_, fun p hp i hi k hk => ?_⟩
    · rw [starts_forkPipes hn hkn]
      split_ifs with hstarts
      · have hnone : failsBetween w 0 k = 0 := by
          rw [failsBetween, List.countP_eq_zero]
          intro i hi hfails
          have hik : i < k := by simpa using hi
          rw [h i k hik hkn hfails] at hstarts
          cases hstarts
        rw [hnone]
        rfl
      · exact Nat.zero_le 1
    · obtain ⟨hfailed, hstarted⟩ := loop_process (fun j hj => absurd hj List.not_mem_nil) hp
      obtain ⟨-, hle, hreach⟩ := hstarted k hk
      rw [reaches_eq_stageStarts hn] at hreach
      by_contra hlt
      rw [h i k (by omega) (by omega) (hfailed i hi)] at hreach
      cases hreach

/-- In `cat nosuchfile | wc` both programs can be executed. -/
theorem stagesOnce_bothFound :
    StagesOnce 2 (piping ⟨fun _ => false, fun i => 3 + i, false⟩ ["cat", "nosuchfile", "|", "wc"]) := by
  have hlength : (commands ["cat", "nosuchfile", "|", "wc"]).length = 2 := by decide
  rw [piping, hlength]
  exact (stagesOnce_iff _ 2 _ le_rfl).2 fun _ _ _ _ h => absurd h Bool.false_ne_true

/-- In `nosuchprogram | wc` the program of the second stage is started by two processes. -/
theorem not_stagesOnce_missingFirst :
    ¬ StagesOnce 2 (piping ⟨fun k => k = 0, fun i => 3 + i, false⟩ ["nosuchprogram", "|", "wc"]) := by
  have hlength : (commands ["nosuchprogram", "|", "wc"]).length = 2 := by decide
  rw [piping, hlength]
  rintro ⟨honce, -⟩
  exact absurd (honce 1 (by decide)) (by decide)

end SystemsProjects.Smash
