import SystemsProjects.Smash.Main

/-!
# Redirection in the shell

`exec_prog` and `redirect` of `P3/smash.c`, in the process that `main` forks for a command.  The list
is accepted by two scans that know nothing of each other: the first looks for any `>`, the second only
at the second last word, so a list with another `>` before that place is executed with the `>` among
the arguments.  `followsGrammar_iff` says on which lists the two scans accept the grammar.
-/

namespace SystemsProjects.Smash

/-- The words that `exec_prog` compares with. -/
def pipeWord : Text := "|".toList
def redirectWord : Text := ">".toList

/-- The system calls that `exec_prog` makes itself. -/
inductive SysCall where
  /-- `open` for writing. -/
  | openOut (path : Text)
  /-- `dup2(fd, 1)` with the descriptor of the file opened last. -/
  | redirectStdout
  /-- `execv(argv[0], argv)`; the path is `none` if the vector is empty. -/
  | execv (path : Option Text) (argv : List Text)
  deriving DecidableEq

/-- What the system answers: whether a file can be opened, and whether a program can be executed. -/
structure Answers where
  opens : Text → Bool
  execs : List Text → Bool

/-- The end of `exec_prog`: it goes on in `piping`, or it has made some calls and returns a value,
`none` if the last call has replaced the process. -/
inductive Outcome where
  | piping (args : List Text)
  | ended (calls : List SysCall) (ret : Option ℤ)
  deriving DecidableEq

/-- `execv` after some calls. -/
def execv (w : Answers) (calls : List SysCall) (argv : List Text) : Outcome :=
  .ended (calls ++ [.execv argv.head? argv]) (if w.execs argv then none else some (-1))

/-- The words before the second last one are the parameters, the last one is the file. -/
def redirect (w : Answers) (args : List Text) : Outcome :=
  let parmList := args.take (args.length - 2)
  let path := args.getD (args.length - 1) []
  if w.opens path then execv w [.openOut path, .redirectStdout] parmList
  else .ended [.openOut path] (some (-1))

/-- Both scans begin behind the first word. -/
def execProg (w : Answers) (args : List Text) : Outcome :=
  if pipeWord ∈ args.tail then .piping args
  else if redirectWord ∈ args.tail then
    if args[args.length - 2]? ≠ some redirectWord then .ended [] (some (-1)) else redirect w args
  else execv w [] args

/-! ## The grammar -/

/-- The list is `c1 ... cm > f` with no other `>`. -/
structure Redirection (args command : List Text) (file : Text) : Prop where
  eq : args = command ++ [redirectWord, file]
  nonempty : command ≠ []
  command : redirectWord ∉ command
  file : file ≠ redirectWord

def Outcome.calls : Outcome → List SysCall
  | .piping _ => []
  | .ended calls _ => calls

/-- An output file is opened and a program is executed. -/
def Outcome.RunsToFile (o : Outcome) : Prop :=
  (∃ path, .openOut path ∈ o.calls) ∧ ∃ path argv, .execv path argv ∈ o.calls

/-- `exec_prog` accepts the grammar: a program is run with its output in a file exactly for a
redirection, and then it is the program and the file of the list; every other list with a `>` is
refused, and a list without one is executed. -/
structure FollowsGrammar (w : Answers) (args : List Text) : Prop where
  runsToFile : (execProg w args).RunsToFile ↔ ∃ command file, Redirection args command file
  redirection : ∀ command file, Redirection args command file → (execProg w args).calls =
    [.openOut file, .redirectStdout, .execv command.head? command]
  refused : redirectWord ∈ args → (∀ command file, ¬ Redirection args command file) →
    execProg w args = .ended [] (some (-1))
  plain : redirectWord ∉ args → (execProg w args).calls = [.execv args.head? args]

variable {w : Answers} {args command : List Text} {file : Text}

theorem Redirection.secondLast (h : Redirection args command file) :
    args[args.length - 2]? = some redirectWord := by
  rw [h.eq]
  simp

theorem Redirection.count (h : Redirection args command file) : args.count redirectWord = 1 := by
  rw [h.eq, List.count_append, List.count_eq_zero_of_not_mem h.command]
  simp [h.file]

/-- A list with one `>`, in the second last place behind other words, is a redirection. -/
theorem exists_redirection (hfirst : args.head? ≠ some redirectWord)
    (hlast : args[args.length - 2]? = some redirectWord) (hcount : args.count redirectWord = 1) :
    ∃ command file, Redirection args command file := by
  obtain ⟨hlt, hget⟩ := List.getElem?_eq_some_iff.1 hlast
  have hlen : 2 ≤ args.length := by
    by_contra hshort
    refine hfirst ?_
    have hzero : args.length - 2 = 0 := by omega
    rw [hzero] at hlast
    rwa [List.head?_eq_getElem?]
  -- The words before the second last place, that place, and the last one.
  have hsplit : args = args.take (args.length - 2) ++ [redirectWord, args[args.length - 1]] := by
    conv_lhs => rw [← List.take_append_drop (args.length - 2) args]
    rw [List.drop_eq_getElem_cons hlt, hget, List.drop_eq_getElem_cons (by omega),
      List.drop_eq_nil_of_le (by omega)]
    have hsucc : args.length - 2 + 1 = args.length - 1 := by omega
    simp only [hsucc]
  have hcount' := hcount
  rw [hsplit, List.count_append, List.count_cons_self] at hcount'
  have hbefore : (args.take (args.length - 2)).count redirectWord = 0 := by omega
  have hafter : [args[args.length - 1]].count redirectWord = 0 := by omega
  refine ⟨_, _, hsplit, ?_, List.count_eq_zero.1 hbefore, ?_⟩
  · intro hempty
    rw [hempty] at hsplit
    rw [hsplit] at hfirst
    exact hfirst rfl
  · intro hfile
    rw [hfile] at hafter
    simp at hafter

/-- On a list without `|` whose first word is not `>` the scans see every `>`. -/
theorem execProg_of_mem (hfirst : args.head? ≠ some redirectWord) (hpipe : pipeWord ∉ args)
    (hmem : redirectWord ∈ args) :
    execProg w args = if args[args.length - 2]? ≠ some redirectWord then .ended [] (some (-1))
      else redirect w args := by
  have htail : redirectWord ∈ args.tail := by
    cases args with
    | nil => cases hmem
    | cons a rest =>
      rcases List.mem_cons.1 hmem with rfl | hrest
      · exact absurd rfl hfirst
      · exact hrest
  rw [execProg, if_neg fun h => hpipe (List.mem_of_mem_tail h), if_pos htail]

theorem execProg_of_not_mem (hpipe : pipeWord ∉ args) (hmem : redirectWord ∉ args) :
    execProg w args = execv w [] args := by
  rw [execProg, if_neg fun h => hpipe (List.mem_of_mem_tail h),
    if_neg fun h => hmem (List.mem_of_mem_tail h)]

theorem redirect_calls_of_opens (h : w.opens (args.getD (args.length - 1) []) = true) :
    (redirect w args).calls = [.openOut (args.getD (args.length - 1) []), .redirectStdout,
      .execv (args.take (args.length - 2)).head? (args.take (args.length - 2))] := by
  unfold redirect
  simp only [h, if_true]
  rfl

theorem redirect_calls_of_not_opens (h : w.opens (args.getD (args.length - 1) []) = false) :
    (redirect w args).calls = [.openOut (args.getD (args.length - 1) [])] := by
  unfold redirect
  simp only [h, Bool.false_eq_true, if_false]
  rfl

/-- The last word and the words before the second last one, in a redirection. -/
theorem Redirection.parts (h : Redirection args command file) :
    args.getD (args.length - 1) [] = file ∧ args.take (args.length - 2) = command := by
  rw [h.eq]
  constructor <;> simp

theorem Redirection.mem (h : Redirection args command file) : redirectWord ∈ args := by
  rw [h.eq]
  simp

theorem ne_nil_of_redirect_calls (w : Answers) (args : List Text) : (redirect w args).calls ≠ [] := by
  intro hcalls
  cases hopen : w.opens (args.getD (args.length - 1) []) with
  | true =>
    rw [redirect_calls_of_opens hopen] at hcalls
    cases hcalls
  | false =>
    rw [redirect_calls_of_not_opens hopen] at hcalls
    cases hcalls

/-- The second scan looks at one place, so a list with a second `>` can get through it. -/
theorem FollowsGrammar.count_eq_one (h : FollowsGrammar w args) (hfirst : args.head? ≠ some redirectWord)
    (hpipe : pipeWord ∉ args) (hlast : args[args.length - 2]? = some redirectWord) :
    args.count redirectWord = 1 := by
  have hmem : redirectWord ∈ args := List.mem_of_getElem? hlast
  by_contra hcount
  have hnone : ∀ command file, ¬ Redirection args command file := fun _ _ hred => hcount hred.count
  have hrefused := h.refused hmem hnone
  rw [execProg_of_mem hfirst hpipe hmem, if_neg (not_not.2 hlast)] at hrefused
  exact ne_nil_of_redirect_calls w args (congrArg Outcome.calls hrefused)

theorem FollowsGrammar.opens (h : FollowsGrammar w args) (hfirst : args.head? ≠ some redirectWord)
    (hpipe : pipeWord ∉ args) (hred : Redirection args command file) : w.opens file = true := by
  have hcalls := h.redirection command file hred
  rw [execProg_of_mem hfirst hpipe hred.mem, if_neg (not_not.2 hred.secondLast)] at hcalls
  cases hopen : w.opens file with
  | true => rfl
  | false =>
    rw [redirect_calls_of_not_opens (by rw [hred.parts.1, hopen])] at hcalls
    cases hcalls

/-- For every list without `|` that does not begin with `>`, and every answer of the system:
`exec_prog` accepts the grammar of redirections if and only if the list has no second `>` where the
second last word is one, and the output file of a redirection can be opened. -/
theorem followsGrammar_iff (w : Answers) (args : List Text)
    (hfirst : args.head? ≠ some redirectWord) (hpipe : pipeWord ∉ args) :
    FollowsGrammar w args ↔
      (args[args.length - 2]? = some redirectWord → args.count redirectWord = 1) ∧
        ∀ command file, Redirection args command file → w.opens file = true := by
  constructor
  · intro h
    exact ⟨h.count_eq_one hfirst hpipe, fun command file hred => h.opens hfirst hpipe hred⟩
  · rintro ⟨honce, hopens⟩
    have hredirection : ∀ command file, Redirection args command file → (execProg w args).calls =
        [.openOut file, .redirectStdout, .execv command.head? command] := by
      intro command file hred
      obtain ⟨hfile, hcommand⟩ := hred.parts
      rw [execProg_of_mem hfirst hpipe hred.mem, if_neg (not_not.2 hred.secondLast),
        redirect_calls_of_opens (by rw [hfile]; exact hopens command file hred), hfile, hcommand]
    have hrefused : redirectWord ∈ args → (∀ command file, ¬ Redirection args command file) →
        execProg w args = .ended [] (some (-1)) := by
      intro hmem hnone
      rw [execProg_of_mem hfirst hpipe hmem, if_pos]
      intro hlast
      obtain ⟨command, file, hred⟩ := exists_redirection hfirst hlast (honce hlast)
      exact hnone command file hred
    have hplain : redirectWord ∉ args → (execProg w args).calls = [.execv args.head? args] := by
      intro hmem
      rw [execProg_of_not_mem hpipe hmem]
      rfl
    refine ⟨⟨?_, ?_⟩, hredirection, hrefused, hplain⟩
    · rintro ⟨⟨path, hopen⟩, -⟩
      by_contra hno
      have hnone : ∀ command file, ¬ Redirection args command file :=
        fun command file hred => hno ⟨command, file, hred⟩
      by_cases hmem : redirectWord ∈ args
      · rw [hrefused hmem hnone] at hopen
        cases hopen
      · rw [hplain hmem] at hopen
        simp at hopen
    · rintro ⟨command, file, hred⟩
      unfold Outcome.RunsToFile
      rw [hredirection command file hred]
      exact ⟨⟨file, by simp⟩, ⟨command.head?, command, by simp⟩⟩

/-- Every file can be opened and every program executed. -/
def willing : Answers := ⟨fun _ => true, fun _ => true⟩

/-- `/bin/ls > out`. -/
theorem followsGrammar_ls :
    FollowsGrammar willing ["/bin/ls".toList, redirectWord, "out".toList] :=
  (followsGrammar_iff willing _ (by decide) (by decide)).2
    ⟨fun _ => by decide, fun _ _ _ => rfl⟩

/-- `/bin/ls > a > b` opens `b` and executes `/bin/ls` with the arguments `>` and `a`. -/
theorem not_followsGrammar_twoFiles :
    ¬ FollowsGrammar willing
      ["/bin/ls".toList, redirectWord, "a".toList, redirectWord, "b".toList] := by
  intro h
  have hnone : ∀ command file, ¬ Redirection
      ["/bin/ls".toList, redirectWord, "a".toList, redirectWord, "b".toList] command file :=
    fun _ _ hred => absurd hred.count (by decide)
  have hrefused := h.refused (by decide) hnone
  exact absurd hrefused (by decide)

end SystemsProjects.Smash
