import SystemsProjects.Lib.FdTable
import SystemsProjects.Smash.Redirect
import SystemsProjects.Smash.Split

/-!
# Descriptors of a pipeline

`spawn_proc`, `fork_pipes` and `piping` of `P3/smash.c` when every `pipe`, `fork` and `exec` succeeds, as
the descriptor tables of the processes.  The process that `main` has forked makes a pipe for each stage
but the last, hands it to a child and keeps the read end for the next one; its own table grows and
shrinks between the forks, and each child inherits it as it is then.  `forkPipes_wired` says that the
stages are connected and that each write end is left with its writer alone.  A read end is closed
nowhere but in the stage that reads from it: `onlyReaders_iff` says when no other stage has one.
-/

namespace SystemsProjects.Smash.Descriptors

/-- What a descriptor refers to: a file that the shell had open, an end of the pipe made in some
iteration, or the output file of a redirected last stage. -/
inductive File where
  | opened (k : ℕ)
  | readEnd (p : ℕ)
  | writeEnd (p : ℕ)
  | output
  deriving DecidableEq

/-- A stage when its program runs. -/
structure Stage where
  argv : List Text
  table : FdTable File
  deriving DecidableEq

/-- The child of `spawn_proc`. -/
def spawnProc (inFd out : ℕ) (argv : List Text) (t : FdTable File) : Stage :=
  let t := if inFd ≠ 0 then (t.dup2 inFd 0).close inFd else t
  let t := if out ≠ 1 then (t.dup2 out 1).close out else t
  ⟨argv, t⟩

/-- The loop of `fork_pipes` from iteration `i` on, for the commands it spawns: the children, and the
parent's `in` and table afterwards. -/
def forkPipesLoop : List (List Text) → ℕ → ℕ → FdTable File → List Stage × ℕ × FdTable File
  | [], _, inFd, t => ([], inFd, t)
  | argv :: cmds, i, inFd, t =>
    let piped := t.pipe (.readEnd i) (.writeEnd i)
    let fd := piped.1
    let rest := forkPipesLoop cmds (i + 1) fd.1 (piped.2.close fd.2)
    (spawnProc inFd fd.2 argv piped.2 :: rest.1, rest.2)

/-- The last stage, in the parent.  With a `>` as the second last argument its output goes to the file
behind its first `>`, and the vector ends there, unless the `>` is its first word.  `none` if it is not
executed: there is no `>` in it, no file behind, or the file cannot be opened. -/
def lastStage (opens : Text → Bool) (args argv : List Text) (inFd : ℕ) (t : FdTable File) :
    Option Stage :=
  if inFd ≠ 0 then
    let t := t.dup2 inFd 0
    if args[args.length - 2]? = some redirectWord then
      let i := argv.findIdx fun w => w = redirectWord
      (argv[i + 1]?).bind fun path =>
        if opens path then
          let opened := t.install .output
          some ⟨if i = 0 then argv else argv.take i, opened.2.dup2 opened.1 1⟩
        else none
    else some ⟨argv, t⟩
  else some ⟨argv, t⟩

/-- The stages of a pipeline; `none` if the last one is not executed. -/
def forkPipes (opens : Text → Bool) (args : List Text) (cmds : List (List Text)) (t : FdTable File) :
    Option (List Stage) :=
  let spawned := forkPipesLoop cmds.dropLast 0 0 t
  (lastStage opens args (cmds.getLastD []) spawned.2.1 spawned.2.2).map fun s => spawned.1 ++ [s]

/-- The loop of `piping` over the words that are left, when `done` are the vectors that are complete and
`cur` are the words of the next one.  `none` if a write falls outside what is allocated: ten vectors, of
ten pointers each with the `NULL` at the end, to strings of 256 bytes. -/
def pipingLoop : List Text → List (List Text) → List Text → Option (List (List Text))
  | [], done, cur => if cur.length < 10 then some (done ++ [cur]) else none
  | w :: ws, done, cur =>
    if w = pipeWord then
      if cur.length < 10 ∧ done.length + 1 < 10 then pipingLoop ws (done ++ [cur]) [] else none
    else if cur.length < 10 ∧ w.length < 256 then pipingLoop ws done (cur ++ [w]) else none

def piping (opens : Text → Bool) (args : List Text) (t : FdTable File) : Option (List Stage) :=
  (pipingLoop args [] []).bind fun cmds => forkPipes opens args cmds t

/-! ## Who holds what -/

/-- The table of the shell, which has no pipe open. -/
def shell (init : List (Option ℕ)) : FdTable File := ⟨init.map (Option.map .opened)⟩

/-- What a descriptor of a process refers to when all stages have been started; `none` is the shell. -/
def holds (init : List (Option ℕ)) (stages : List Stage) : Option ℕ → ℕ → Option File
  | none, fd => (shell init).get fd
  | some i, fd => (stages[i]?).bind fun s => s.table.get fd

/-- The stages run the commands and each is connected with the next, the first and the last with what
the shell has at `0` and `1`; each write end is open in its writer alone, at `1`, so that no process has
it open when the writer is gone. -/
structure Wired (init : List (Option ℕ)) (cmds : List (List Text)) (stages : List Stage) : Prop where
  argv : stages.map Stage.argv = cmds
  firstIn : holds init stages (some 0) 0 = (shell init).get 0
  nextIn : ∀ i, i + 1 < cmds.length → holds init stages (some (i + 1)) 0 = some (.readEnd i)
  lastOut : holds init stages (some (cmds.length - 1)) 1 = (shell init).get 1
  writers : ∀ p, p + 1 < cmds.length → ∀ who fd,
    holds init stages who fd = some (.writeEnd p) ↔ who = some p ∧ fd = 1
  endOfFile : ∀ p, p + 1 < cmds.length → ∀ who, who ≠ some p → ∀ fd,
    holds init stages who fd ≠ some (.writeEnd p)

/-- The read end of each pipe is open in no process but the next stage. -/
def OnlyReaders (init : List (Option ℕ)) (stages : List Stage) : Prop :=
  ∀ who fd p, holds init stages who fd = some (.readEnd p) → who = some (p + 1)

theorem shell_get (init : List (Option ℕ)) (fd : ℕ) {f : File} (h : (shell init).get fd = some f) :
    ∃ k, f = .opened k := by
  unfold shell FdTable.get at h
  rw [List.getElem?_map] at h
  cases hfd : init[fd]? with
  | none =>
    rw [hfd] at h
    cases h
  | some o =>
    rw [hfd] at h
    cases o with
    | none => cases h
    | some k => exact ⟨k, (Option.some.inj h).symm⟩

theorem holds_stage {init : List (Option ℕ)} {stages : List Stage} {i : ℕ} {s : Stage}
    (h : stages[i]? = some s) (fd : ℕ) : holds init stages (some i) fd = s.table.get fd := by
  rw [holds, h, Option.bind_some]

theorem holds_none_stage {init : List (Option ℕ)} {stages : List Stage} {i : ℕ}
    (h : stages.length ≤ i) (fd : ℕ) : holds init stages (some i) fd = none := by
  rw [holds, List.getElem?_eq_none h, Option.bind_none]

/-! ## One iteration -/

variable {t₀ t t' : FdTable File} {i inFd r w : ℕ}

/-- What stage `i` reads from, when the first one reads from what `t₀` has at `0`. -/
def inputOf (t₀ : FdTable File) : ℕ → Option File
  | 0 => t₀.get 0
  | i + 1 => some (.readEnd i)

/-- The parent before iteration `i`: `in` is the input of stage `i`, and no write end is open. -/
structure LoopInv (t₀ : FdTable File) (i inFd : ℕ) (t : FdTable File) : Prop where
  stdin : t.get 0 ≠ none
  stdout : t.get 1 = t₀.get 1
  input : t.get inFd = inputOf t₀ i
  inFd_ne : inFd ≠ 1
  noWriter : ∀ fd p, t.get fd ≠ some (.writeEnd p)

/-- A child that was spawned for stage `i`. -/
structure StageOk (t₀ : FdTable File) (i : ℕ) (s : Stage) : Prop where
  stdin : s.table.get 0 = inputOf t₀ i
  writer : ∀ fd p, s.table.get fd = some (.writeEnd p) ↔ p = i ∧ fd = 1

theorem inputOf_ne_none (h0 : t₀.get 0 ≠ none) (i : ℕ) : inputOf t₀ i ≠ none := by
  cases i with
  | zero => exact h0
  | succ i => exact Option.some_ne_none _

/-- The table of a child whose two descriptors are open. -/
theorem get_spawnProc {out : ℕ} {f g : File} (hin : t.get inFd = some f) (hout : t.get out = some g)
    (hne : out ≠ inFd) (hout0 : out ≠ 0) (hout1 : out ≠ 1) (argv : List Text) (k : ℕ) :
    (spawnProc inFd out argv t).table.get k =
      if k = out then none else if k = 1 then some g else if k = 0 then some f else
        if k = inFd then none else t.get k := by
  have hmoved : ∀ j, (if inFd ≠ 0 then (t.dup2 inFd 0).close inFd else t).get j =
      if j = 0 then some f else if j = inFd then none else t.get j := by
    intro j
    by_cases hin0 : inFd = 0
    · subst hin0
      rw [if_neg (not_not.2 rfl)]
      split_ifs with hj
      · rw [hj, hin]
      · rfl
    · rw [if_pos hin0, FdTable.get_close_dup2 t hin]
      by_cases hj : j = 0
      · rw [if_pos hj, if_pos hj, if_neg fun h => hin0 (h.symm.trans hj)]
      · rw [if_neg hj, if_neg hj]
  have hout' := hmoved out
  rw [if_neg hout0, if_neg hne, hout] at hout'
  unfold spawnProc
  simp only [ne_eq, hout1, not_false_eq_true, if_true]
  rw [FdTable.get_close_dup2 _ hout', hmoved]

/-- Each iteration leaves the parent ready for the next one, and starts a stage. -/
theorem LoopInv.step (h : LoopInv t₀ i inFd t) (h0 : t₀.get 0 ≠ none) (h1 : t₀.get 1 ≠ none)
    (hpipe : FdTable.Piped t (.readEnd i) (.writeEnd i) r w t') (argv : List Text) :
    StageOk t₀ i (spawnProc inFd w argv t') ∧ LoopInv t₀ (i + 1) r (t'.close w) := by
  have hopen1 : t.get 1 ≠ none := fun hnone => h1 (h.stdout ▸ hnone)
  -- The ends of the new pipe are none of the descriptors that are open.
  have hr0 : r ≠ 0 := by
    rintro rfl
    exact h.stdin hpipe.read_free
  have hr1 : r ≠ 1 := by
    rintro rfl
    exact hopen1 hpipe.read_free
  have hw0 : w ≠ 0 := by
    rintro rfl
    exact h.stdin hpipe.write_free
  have hw1 : w ≠ 1 := by
    rintro rfl
    exact hopen1 hpipe.write_free
  have hinput : t.get inFd ≠ none := by
    rw [h.input]
    exact inputOf_ne_none h0 i
  have hwin : w ≠ inFd := by
    rintro rfl
    exact hinput hpipe.write_free
  have hrin : r ≠ inFd := by
    rintro rfl
    exact hinput hpipe.read_free
  obtain ⟨f, hf⟩ := Option.ne_none_iff_exists'.1 hinput
  have hin' : t'.get inFd = some f := by rw [hpipe.get, if_neg hwin.symm, if_neg hrin.symm, hf]
  have hout' : t'.get w = some (.writeEnd i) := by rw [hpipe.get, if_pos rfl]
  have hget := get_spawnProc hin' hout' hwin hw0 hw1 argv
  refine ⟨⟨?_, fun fd p => ?_⟩, ⟨?_, ?_, ?_, hr1, fun fd p => ?_⟩⟩
  · rw [hget, if_neg hw0.symm, if_neg Nat.zero_ne_one, if_pos rfl, ← hf, h.input]
  · rw [hget, hpipe.get]
    constructor
    · intro hwrite
      split_ifs at hwrite with _ hfd
      · exact ⟨File.writeEnd.inj (Option.some.inj hwrite).symm, hfd⟩
      · rw [← hf] at hwrite
        exact absurd hwrite (h.noWriter inFd p)
      · cases hwrite
      · exact absurd hwrite (h.noWriter fd p)
    · rintro ⟨rfl, rfl⟩
      rw [if_neg hw1.symm, if_pos rfl]
  · rw [FdTable.get_close, if_neg hw0.symm, hpipe.get, if_neg hw0.symm, if_neg hr0.symm]
    exact h.stdin
  · rw [FdTable.get_close, if_neg hw1.symm, hpipe.get, if_neg hw1.symm, if_neg hr1.symm, h.stdout]
  · rw [FdTable.get_close, if_neg hpipe.ne.symm, hpipe.get, if_neg hpipe.ne.symm, if_pos rfl]
    rfl
  · rw [FdTable.get_close, hpipe.get]
    intro hwrite
    split_ifs at hwrite
    · cases hwrite
    · exact h.noWriter fd p hwrite

/-- All iterations. -/
theorem LoopInv.run (h0 : t₀.get 0 ≠ none) (h1 : t₀.get 1 ≠ none) (cmds : List (List Text)) :
    ∀ {i inFd : ℕ} {t : FdTable File}, LoopInv t₀ i inFd t →
      (forkPipesLoop cmds i inFd t).1.map Stage.argv = cmds ∧
      (∀ k s, (forkPipesLoop cmds i inFd t).1[k]? = some s → StageOk t₀ (i + k) s) ∧
      LoopInv t₀ (i + cmds.length) (forkPipesLoop cmds i inFd t).2.1
        (forkPipesLoop cmds i inFd t).2.2 := by
  induction cmds with
  | nil =>
    intro i inFd t h
    refine ⟨rfl, fun k s hs => ?_, h⟩
    rw [forkPipesLoop, List.getElem?_nil] at hs
    cases hs
  | cons argv cmds ih =>
    intro i inFd t h
    obtain ⟨hstage, hnext⟩ := h.step h0 h1 (FdTable.piped_pipe t (.readEnd i) (.writeEnd i)) argv
    obtain ⟨hargv, hstages, hlast⟩ := ih hnext
    rw [forkPipesLoop]
    refine ⟨?_, fun k s hs => ?_, ?_⟩
    · exact congrArg (argv :: ·) hargv
    · cases k with
      | zero =>
        rw [List.getElem?_cons_zero] at hs
        exact Option.some.inj hs ▸ hstage
      | succ k =>
        rw [List.getElem?_cons_succ] at hs
        rw [Nat.add_succ, ← Nat.succ_add]
        exact hstages k s hs
    · rw [List.length_cons, Nat.add_succ, ← Nat.succ_add]
      exact hlast

/-! ## The last stage -/

/-- The last stage, number `i`: it reads what is left for it and writes where the shell does. -/
structure LastOk (t₀ : FdTable File) (i : ℕ) (s : Stage) : Prop where
  stdin : s.table.get 0 = inputOf t₀ i
  stdout : s.table.get 1 = t₀.get 1
  noWriter : ∀ fd p, s.table.get fd ≠ some (.writeEnd p)

theorem LoopInv.last (h : LoopInv t₀ i inFd t) (h0 : t₀.get 0 ≠ none) (opens : Text → Bool)
    {args : List Text} (hplain : redirectWord ∉ args) (argv : List Text) :
    ∃ s, lastStage opens args argv inFd t = some s ∧ s.argv = argv ∧ LastOk t₀ i s := by
  have hlast : args[args.length - 2]? ≠ some redirectWord :=
    fun h => hplain (List.mem_of_getElem? h)
  unfold lastStage
  simp only [if_neg hlast]
  by_cases hin0 : inFd = 0
  · subst hin0
    rw [if_neg (not_not.2 rfl)]
    exact ⟨_, rfl, rfl, h.input, h.stdout, h.noWriter⟩
  · obtain ⟨f, hf⟩ := Option.ne_none_iff_exists'.1 (inputOf_ne_none h0 i)
    have hget := FdTable.get_dup2 t (h.input.trans hf) 0
    rw [if_pos hin0]
    refine ⟨_, rfl, rfl, ?_, ?_, fun fd p hwrite => ?_⟩
    · rw [hget, if_pos rfl, hf]
    · rw [hget, if_neg Nat.one_ne_zero, h.stdout]
    · obtain ⟨k, hk⟩ := FdTable.exists_get_of_get_dup2 hwrite
      exact h.noWriter k p hk

/-- The stages are connected if each is as it was started. -/
theorem wired_of_stages {init : List (Option ℕ)} {cmds : List (List Text)} {front : List Stage}
    {last : Stage} {m : ℕ} (hargv : (front ++ [last]).map Stage.argv = cmds)
    (hlength : front.length = m + 1) (hfront : ∀ k s, front[k]? = some s → StageOk (shell init) k s)
    (hlast : LastOk (shell init) (m + 1) last) : Wired init cmds (front ++ [last]) := by
  have hcmds : cmds.length = m + 2 := by
    rw [← hargv, List.length_map, List.length_append, hlength, List.length_singleton]
  have hlt : ∀ k, k < m + 1 → ∃ s, (front ++ [last])[k]? = some s ∧ StageOk (shell init) k s := by
    intro k hk
    have hget : front[k]? = some front[k] := List.getElem?_eq_getElem (by omega)
    exact ⟨front[k], by rw [List.getElem?_append_left (by omega), hget], hfront k _ hget⟩
  have hend : (front ++ [last])[m + 1]? = some last := by
    rw [← hlength, List.getElem?_append_right le_rfl, Nat.sub_self, List.getElem?_cons_zero]
  have hwriters : ∀ p, p + 1 < cmds.length → ∀ who fd,
      holds init (front ++ [last]) who fd = some (.writeEnd p) ↔ who = some p ∧ fd = 1 := by
    intro p hp who fd
    cases who with
    | none =>
      refine ⟨fun hwrite => ?_, fun h => nomatch h.1⟩
      obtain ⟨k, hk⟩ := shell_get init fd hwrite
      cases hk
    | some k =>
      rw [Option.some.injEq]
      rcases Nat.lt_trichotomy k (m + 1) with hk | rfl | hk
      · obtain ⟨s, hs, hok⟩ := hlt k hk
        rw [holds_stage hs, hok.writer, eq_comm (a := p)]
      · rw [holds_stage hend]
        exact ⟨fun hwrite => absurd hwrite (hlast.noWriter fd p), fun h => by omega⟩
      · rw [holds_none_stage (by rw [List.length_append, hlength]; exact hk)]
        exact ⟨fun hwrite => absurd hwrite.symm (Option.some_ne_none _), fun h => by omega⟩
  refine ⟨hargv, ?_, fun i hi => ?_, ?_, hwriters, fun p hp who hwho fd hwrite => ?_⟩
  · obtain ⟨s, hs, hok⟩ := hlt 0 (Nat.succ_pos m)
    rw [holds_stage hs]
    exact hok.stdin
  · rcases Nat.lt_or_ge (i + 1) (m + 1) with hi' | hi'
    · obtain ⟨s, hs, hok⟩ := hlt (i + 1) hi'
      rw [holds_stage hs]
      exact hok.stdin
    · obtain rfl : i = m := by omega
      rw [holds_stage hend]
      exact hlast.stdin
  · have hm : cmds.length - 1 = m + 1 := by omega
    rw [hm, holds_stage hend]
    exact hlast.stdout
  · exact hwho ((hwriters p hp who fd).1 hwrite).1

/-- The stages of a pipeline of any length, when `0` and `1` are open in the shell. -/
theorem forkPipes_wired (opens : Text → Bool) {init : List (Option ℕ)} {args : List Text}
    {cmds : List (List Text)} (h0 : (shell init).get 0 ≠ none) (h1 : (shell init).get 1 ≠ none)
    (hn : 2 ≤ cmds.length) (hplain : redirectWord ∉ args) :
    ∃ stages, forkPipes opens args cmds (shell init) = some stages ∧ Wired init cmds stages := by
  have hstart : LoopInv (shell init) 0 0 (shell init) := by
    refine ⟨h0, rfl, rfl, Nat.zero_ne_one, fun fd p hwrite => ?_⟩
    obtain ⟨k, hk⟩ := shell_get init fd hwrite
    cases hk
  obtain ⟨hargv, hstages, hend⟩ := hstart.run h0 h1 cmds.dropLast
  obtain ⟨last, hlast, hlastArgv, hok⟩ := hend.last h0 opens hplain (cmds.getLastD [])
  have hlength := congrArg List.length hargv
  rw [List.length_map, List.length_dropLast] at hlength
  obtain ⟨m, hm⟩ : ∃ m, cmds.length = m + 2 := ⟨cmds.length - 2, by omega⟩
  have hne : cmds ≠ [] := by
    rintro rfl
    cases hn
  have hall : ((forkPipesLoop cmds.dropLast 0 0 (shell init)).1 ++ [last]).map Stage.argv = cmds := by
    rw [List.map_append, hargv, List.map_singleton, hlastArgv, List.getLastD_eq_getLast?,
      List.getLast?_eq_getLast_of_ne_nil hne, Option.getD_some, List.dropLast_append_getLast]
  rw [Nat.zero_add, List.length_dropLast, hm] at hok
  refine ⟨_, by rw [forkPipes, hlast, Option.map_some], wired_of_stages hall (by omega) ?_ hok⟩
  intro k s hs
  have hstage := hstages k s hs
  rwa [Nat.zero_add] at hstage

/-! ## What `piping` hands over -/

/-- The words that `main` has for a command fit, if there is a command before and behind each `|`. -/
theorem pipingLoop_eq {ws : List Text} (hlt : ∀ w ∈ ws, w.length < 256) :
    ∀ {done : List (List Text)} {cur : List Text},
      2 * done.length + cur.length + ws.length ≤ 10 → 1 ≤ done.length ∨ pipeWord ∈ ws →
      (∀ c ∈ joined pipeWord cur ws, c ≠ []) →
      pipingLoop ws done cur = some (done ++ joined pipeWord cur ws) := by
  induction ws with
  | nil =>
    intro done cur hlen hpipe _
    have hdone : 1 ≤ done.length := hpipe.resolve_right List.not_mem_nil
    rw [pipingLoop, joined_nil, if_pos (by omega)]
  | cons w ws ih =>
    intro done cur hlen hpipe hne
    obtain ⟨hw256, hlt'⟩ := List.forall_mem_cons.1 hlt
    rw [List.length_cons] at hlen
    by_cases hw : w = pipeWord
    · subst hw
      rw [joined_sep] at hne ⊢
      obtain ⟨hcur, hne'⟩ := List.forall_mem_cons.1 hne
      have hpos := List.length_pos_iff.2 hcur
      rw [pipingLoop, if_pos rfl, if_pos (by omega), ih hlt' ?_ ?_ ?_, nil_joined, List.append_assoc]
      · rfl
      · rw [List.length_append, List.length_singleton, List.length_nil]
        omega
      · rw [List.length_append, List.length_singleton]
        exact Or.inl (Nat.le_add_left 1 _)
      · rwa [nil_joined]
    · rw [joined_cons _ hw] at hne ⊢
      have hpipe' : 1 ≤ done.length ∨ pipeWord ∈ ws :=
        hpipe.imp_right fun h => (List.mem_cons.1 h).resolve_left (Ne.symm hw)
      have hten : cur.length < 10 := by
        rcases hpipe' with h | h
        · omega
        · have := List.length_pos_of_mem h
          omega
      rw [pipingLoop, if_neg hw, if_pos ⟨hten, hw256⟩, ih hlt' ?_ hpipe' hne]
      rw [List.length_append, List.length_singleton]
      omega

theorem piping_eq (opens : Text → Bool) {args : List Text} (t : FdTable File) (hfit : WordsFit args)
    (hn : 2 ≤ (pieces pipeWord args).length) (hcmds : ∀ c ∈ pieces pipeWord args, c ≠ []) :
    piping opens args t = forkPipes opens args (pieces pipeWord args) t := by
  have hpipe : pipeWord ∈ args := by
    rw [length_pieces] at hn
    exact List.count_pos_iff.1 (by omega)
  rw [piping, pipingLoop_eq hfit.2 (by simpa using hfit.1) (Or.inr hpipe) (by rwa [nil_joined]),
    nil_joined, List.nil_append, Option.bind_some]

/-- For every pipeline of at least two commands that are not empty and without `>`, started by a shell
that has `0` and `1` open: `fork_pipes` starts all stages with their descriptors wired, and `piping` hands
it these commands if the words fit the strings that `main` copies them into. -/
theorem pipeline_wired (opens : Text → Bool) (init : List (Option ℕ)) (args : List Text)
    (h0 : (shell init).get 0 ≠ none) (h1 : (shell init).get 1 ≠ none)
    (hcmds : ∀ c ∈ pieces pipeWord args, c ≠ []) (hn : 2 ≤ (pieces pipeWord args).length)
    (hplain : redirectWord ∉ args) :
    ∃ stages, forkPipes opens args (pieces pipeWord args) (shell init) = some stages ∧
      Wired init (pieces pipeWord args) stages ∧
      (WordsFit args → piping opens args (shell init) = some stages) := by
  obtain ⟨stages, hstages, hwired⟩ := forkPipes_wired opens h0 h1 hn hplain
  exact ⟨stages, hstages, hwired, fun hfit => (piping_eq opens _ hfit hn hcmds).trans hstages⟩

/-- `ls | wc` from a shell with three descriptors. -/
theorem pipeline_wired_ls :
    ∃ stages, forkPipes (fun _ => true) ["ls".toList, pipeWord, "wc".toList]
        (pieces pipeWord ["ls".toList, pipeWord, "wc".toList]) (shell [some 0, some 1, some 2]) =
          some stages ∧
      Wired [some 0, some 1, some 2] (pieces pipeWord ["ls".toList, pipeWord, "wc".toList]) stages ∧
      (WordsFit ["ls".toList, pipeWord, "wc".toList] →
        piping (fun _ => true) ["ls".toList, pipeWord, "wc".toList] (shell [some 0, some 1, some 2]) =
          some stages) :=
  pipeline_wired _ _ _ (by decide) (by decide) (by decide) (by decide) (by decide)

/-! ## Who has the read ends -/

/-- The first child inherits the end it should not have, unless the pipe's read end is `1`, where it
puts its own output. -/
theorem get_spawnProc_first (hpipe : FdTable.Piped t (.readEnd i) (.writeEnd i) r w t') (hr : r ≠ 1)
    (argv : List Text) : (spawnProc 0 w argv t').table.get r = some (.readEnd i) := by
  have hread : t'.get r = some (.readEnd i) := by rw [hpipe.get, if_neg hpipe.ne.symm, if_pos rfl]
  have hwrite : t'.get w = some (.writeEnd i) := by rw [hpipe.get, if_pos rfl]
  unfold spawnProc
  simp only [ne_eq, not_true_eq_false, if_false]
  split_ifs with hw
  · exact hread
  · rw [FdTable.get_close_dup2 t' hwrite, if_neg hpipe.ne.symm, if_neg hr, hread]

/-- With the read end at `1` the first child is left with its write end and what the shell has. -/
theorem get_spawnProc_closed (hpipe : FdTable.Piped t (.readEnd i) (.writeEnd i) 1 w t')
    (argv : List Text) (k : ℕ) : (spawnProc 0 w argv t').table.get k =
      if k = w then none else if k = 1 then some (.writeEnd i) else t.get k := by
  have hwrite : t'.get w = some (.writeEnd i) := by rw [hpipe.get, if_pos rfl]
  unfold spawnProc
  simp only [ne_eq, not_true_eq_false, if_false]
  rw [if_pos hpipe.ne, FdTable.get_close_dup2 t' hwrite, hpipe.get]
  split_ifs <;> rfl

/-- A later child inherits the read end of its own pipe as well. -/
theorem get_spawnProc_later {f : File} (h0 : t.get 0 ≠ none) (h1 : t.get 1 = some f)
    (hpipe : FdTable.Piped t (.readEnd i) (.writeEnd i) r w t') (argv : List Text) :
    (spawnProc 1 w argv t').table.get r = some (.readEnd i) := by
  have hne : ∀ {k}, t.get k ≠ none → k ≠ r ∧ k ≠ w := by
    intro k hk
    constructor
    · rintro rfl
      exact hk hpipe.read_free
    · rintro rfl
      exact hk hpipe.write_free
  obtain ⟨hr0, hw0⟩ := hne h0
  obtain ⟨hr1, hw1⟩ := hne (h1 ▸ Option.some_ne_none f)
  have hin : t'.get 1 = some f := by rw [hpipe.get, if_neg hw1, if_neg hr1, h1]
  have hout : t'.get w = some (.writeEnd i) := by rw [hpipe.get, if_pos rfl]
  rw [get_spawnProc hin hout hw1.symm hw0.symm hw1.symm, if_neg hpipe.ne.symm, if_neg hr1.symm,
    if_neg hr0.symm, if_neg hr1.symm, hpipe.get, if_neg hpipe.ne.symm, if_pos rfl]

/-- The last stage opens no pipe. -/
theorem exists_get_of_lastStage {opens : Text → Bool} {args argv : List Text} {s : Stage} {fd p : ℕ}
    (hs : lastStage opens args argv inFd t = some s) (hread : s.table.get fd = some (.readEnd p)) :
    ∃ k, t.get k = some (.readEnd p) := by
  unfold lastStage at hs
  split_ifs at hs
  · obtain ⟨path, -, hpath⟩ := Option.bind_eq_some_iff.1 hs
    cases hopen : opens path with
    | false =>
      rw [hopen] at hpath
      cases hpath
    | true =>
      rw [hopen, if_pos rfl] at hpath
      rw [← Option.some.inj hpath] at hread
      obtain ⟨k, hk⟩ := FdTable.exists_get_of_get_dup2 hread
      rw [FdTable.get_install] at hk
      split_ifs at hk
      · cases hk
      · exact FdTable.exists_get_of_get_dup2 hk
  · rw [← Option.some.inj hs] at hread
    exact FdTable.exists_get_of_get_dup2 hread
  · rw [← Option.some.inj hs] at hread
    exact ⟨fd, hread⟩

/-- The stages are the children of the loop and the last one. -/
theorem exists_of_forkPipes {opens : Text → Bool} {args : List Text} {cmds : List (List Text)}
    {stages : List Stage} (h : forkPipes opens args cmds t = some stages) :
    ∃ last, lastStage opens args (cmds.getLastD []) (forkPipesLoop cmds.dropLast 0 0 t).2.1
        (forkPipesLoop cmds.dropLast 0 0 t).2.2 = some last ∧
      stages = (forkPipesLoop cmds.dropLast 0 0 t).1 ++ [last] := by
  obtain ⟨last, hlast, heq⟩ := Option.map_eq_some_iff.1 h
  exact ⟨last, hlast, heq.symm⟩

theorem shell_get_ne_readEnd (init : List (Option ℕ)) (fd p : ℕ) :
    (shell init).get fd ≠ some (.readEnd p) := by
  intro hread
  obtain ⟨k, hk⟩ := shell_get init fd hread
  cases hk

/-- The second of three stages or more has the read end of its own pipe, if the first pipe's is `1`. -/
theorem exists_second_readEnd {opens : Text → Bool} {args c₀ c₁ c₂ : List Text}
    {cmds : List (List Text)} {stages : List Stage} (h0 : t.get 0 ≠ none) (hlow : t.lowest = 1)
    (h : forkPipes opens args (c₀ :: c₁ :: c₂ :: cmds) t = some stages) :
    ∃ s fd, stages[1]? = some s ∧ s.table.get fd = some (.readEnd 1) := by
  obtain ⟨last, -, rfl⟩ := exists_of_forkPipes h
  have hfirst := FdTable.piped_pipe t (.readEnd 0) (.writeEnd 0)
  rw [hfirst.lowest, hlow] at hfirst
  have hzero : ∀ {k}, t.get k = none → k ≠ 0 := by
    rintro k hk rfl
    exact h0 hk
  have hstdin : ((t.pipe (.readEnd 0) (.writeEnd 0)).2.close
      (t.pipe (.readEnd 0) (.writeEnd 0)).1.2).get 0 ≠ none := by
    rw [FdTable.get_close, if_neg (hzero hfirst.write_free).symm, hfirst.get,
      if_neg (hzero hfirst.write_free).symm, if_neg Nat.zero_ne_one]
    exact h0
  have hcarried : ((t.pipe (.readEnd 0) (.writeEnd 0)).2.close
      (t.pipe (.readEnd 0) (.writeEnd 0)).1.2).get 1 = some (.readEnd 0) := by
    rw [FdTable.get_close, if_neg hfirst.ne.symm, hfirst.get, if_neg hfirst.ne.symm, if_pos rfl]
  have hlow' : (t.pipe (.readEnd 0) (.writeEnd 0)).1.1 = 1 := hlow
  refine ⟨_, _, ?_,
    get_spawnProc_later hstdin hcarried (FdTable.piped_pipe _ (File.readEnd 1) (File.writeEnd 1)) c₁⟩
  rw [List.dropLast_cons_cons, List.dropLast_cons_cons, forkPipesLoop, forkPipesLoop, hlow']
  rfl

/-- Only one file number keeps the first read end from the first stage, and then a second pipe has none. -/
theorem OnlyReaders.two_stages {opens : Text → Bool} {init : List (Option ℕ)} {args c₀ c₁ : List Text}
    {rest : List (List Text)} {stages : List Stage}
    (hstages : forkPipes opens args (c₀ :: c₁ :: rest) (shell init) = some stages)
    (h : OnlyReaders init stages) :
    rest = [] ∧ (shell init).get 0 ≠ none ∧ (shell init).lowest = 1 := by
  have hpipe := FdTable.piped_pipe (shell init) (.readEnd 0) (.writeEnd 0)
  obtain ⟨last, -, heq⟩ := exists_of_forkPipes hstages
  rw [List.dropLast_cons_cons, forkPipesLoop] at heq
  have hfirst : stages[0]? = some (spawnProc 0 ((shell init).pipe (.readEnd 0) (.writeEnd 0)).1.2 c₀
      ((shell init).pipe (.readEnd 0) (.writeEnd 0)).2) := by
    rw [heq]
    rfl
  have hlow : (shell init).lowest = 1 := by
    by_contra hne
    have hheld := get_spawnProc_first hpipe hne c₀
    rw [← holds_stage hfirst] at hheld
    exact absurd (h _ _ _ hheld) (by decide)
  have hopen : (shell init).get 0 ≠ none := by
    have hsome := FdTable.get_isSome_of_lt_lowest (t := shell init) (hlow ▸ Nat.zero_lt_one)
    exact Option.isSome_iff_ne_none.1 hsome
  refine ⟨?_, hopen, hlow⟩
  cases rest with
  | nil => rfl
  | cons c₂ rest =>
    obtain ⟨s, fd, hs, hheld⟩ := exists_second_readEnd hopen hlow hstages
    rw [← holds_stage hs] at hheld
    exact absurd (h _ _ _ hheld) (by decide)

/-- With two stages and the numbers 0 and 1 as they have to be, only the second one has the read end. -/
theorem onlyReaders_two {opens : Text → Bool} {init : List (Option ℕ)} {args c₀ c₁ : List Text}
    {stages : List Stage} (hstages : forkPipes opens args [c₀, c₁] (shell init) = some stages)
    (hlow : (shell init).lowest = 1) : OnlyReaders init stages := by
  have hpipe := FdTable.piped_pipe (shell init) (.readEnd 0) (.writeEnd 0)
  obtain ⟨last, hlast, heq⟩ := exists_of_forkPipes hstages
  rw [List.dropLast_cons_cons, List.dropLast_singleton, forkPipesLoop, forkPipesLoop] at heq hlast
  rw [hpipe.lowest, hlow] at hpipe
  subst heq
  intro who fd p hheld
  rcases who with _ | _ | _ | i
  · exact absurd hheld (shell_get_ne_readEnd init fd p)
  · -- The first stage has its write end and what the shell has open.
    rw [holds_stage rfl, get_spawnProc_closed hpipe] at hheld
    split_ifs at hheld
    · cases hheld
    · exact absurd hheld (shell_get_ne_readEnd init fd p)
  · -- The second one only has the read end of the one pipe there is.
    rw [holds_stage (s := last) rfl] at hheld
    obtain ⟨k, hk⟩ := exists_get_of_lastStage hlast hheld
    rw [FdTable.get_close, hpipe.get] at hk
    split_ifs at hk
    · rw [File.readEnd.inj (Option.some.inj hk)]
    · exact absurd hk (shell_get_ne_readEnd init k p)
  · rw [holds_none_stage (Nat.le_add_left 2 i)] at hheld
    cases hheld

/-- For every pipeline of at least two commands whose stages have all been started, from a shell with any
descriptors: each read end is left with its reader alone if and only if there are two stages and the
shell had its standard input open and its standard output closed. -/
theorem onlyReaders_iff (opens : Text → Bool) (init : List (Option ℕ)) (args : List Text)
    (cmds : List (List Text)) (stages : List Stage) (hn : 2 ≤ cmds.length)
    (hstages : forkPipes opens args cmds (shell init) = some stages) :
    OnlyReaders init stages ↔
      cmds.length = 2 ∧ (shell init).get 0 ≠ none ∧ (shell init).get 1 = none := by
  obtain ⟨c₀, c₁, rest, rfl⟩ : ∃ c₀ c₁ rest, cmds = c₀ :: c₁ :: rest := by
    rcases cmds with _ | ⟨c₀, _ | ⟨c₁, rest⟩⟩
    · cases hn
    · simp at hn
    · exact ⟨c₀, c₁, rest, rfl⟩
  constructor
  · intro h
    obtain ⟨rfl, hopen, hlow⟩ := h.two_stages hstages
    exact ⟨rfl, hopen, hlow ▸ FdTable.get_lowest (shell init)⟩
  · rintro ⟨htwo, hopen, hclosed⟩
    obtain rfl : rest = [] := by simpa using htwo
    exact onlyReaders_two hstages (FdTable.lowest_eq_one (Option.isSome_iff_ne_none.2 hopen) hclosed)

/-- `ls | wc` from a shell whose standard output is closed. -/
theorem onlyReaders_closedStdout : ∃ stages,
    forkPipes (fun _ => true) [] [["ls".toList], ["wc".toList]] (shell [some 0, none, some 2]) =
      some stages ∧ OnlyReaders [some 0, none, some 2] stages :=
  ⟨_, rfl, (onlyReaders_iff (fun _ => true) [some 0, none, some 2] [] [["ls".toList], ["wc".toList]] _
    le_rfl rfl).2 ⟨rfl, by decide, by decide⟩⟩

/-- In `yes | head` the first stage has the read end of its own pipe open, at `3`. -/
theorem not_onlyReaders_yes : ∃ stages,
    piping (fun _ => true) ["yes".toList, pipeWord, "head".toList] (shell [some 0, some 1, some 2]) =
      some stages ∧ ¬ OnlyReaders [some 0, some 1, some 2] stages :=
  ⟨_, rfl, fun h => absurd (h (some 0) 3 0 rfl) (by decide)⟩

end SystemsProjects.Smash.Descriptors
