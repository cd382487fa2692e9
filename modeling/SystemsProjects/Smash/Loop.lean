import Mathlib.Algebra.Group.Nat.Defs
import SystemsProjects.Smash.Split

/-!
# Looped commands in the shell

The loop of `main` in `P3/smash.c` over one command after its words have been stored, with the `loop`
prefix, and `exec_builtin`.  A count with characters behind its digits is accepted, and one above
`INT_MAX` is cut to an `int`.  `loops_iff` says for which counts and commands the loop does what it is
for.
-/

namespace SystemsProjects.Smash

open MachineInt

def cdWord : Text := "cd".toList
def pwdWord : Text := "pwd".toList

/-! ## The source functions -/

/-- What the system answers in each iteration of the loop. -/
structure Turns where
  /-- `fork` does not fail. -/
  forks : ℕ → Bool
  /-- The value that `chdir` returns. -/
  chdir : ℕ → ℤ
  /-- `0` if the directory can be printed, else `-1`. -/
  pwd : ℕ → ℤ

/-- What `main` does for a command. -/
inductive Effect where
  /-- `exec_builtin` in the shell itself. -/
  | builtin (c : Command)
  /-- `exec_prog` in a child. -/
  | child (c : Command)
  /-- The error message. -/
  | error
  deriving DecidableEq

/-- `exec_builtin` in iteration `j`; `none` if it ends the shell. -/
def execBuiltin (w : Turns) (j : ℕ) (c : Command) : Option ℤ :=
  if c.name = exitWord then if c.args.length ≠ 1 then some (-1) else none
  else if c.name = cdWord then if c.args.length ≠ 2 then some (-1) else some (w.chdir j)
  else if c.name = pwdWord then if c.args.length ≠ 1 then some (-1) else some (w.pwd j)
  else some (-1)

/-- The pointers of the counted arguments. -/
def pointers (row : Row) (n : ℤ) : Option (List Text) := (row.take n.toNat).mapM id

/-- What is executed with some pointers: `cmds[i][0]` and the counted arguments. -/
def commandOf (row : Row) (argnum : ℤ) : Option Command :=
  (row[0]?).join.bind fun name => (pointers row argnum).map fun args => ⟨name, args⟩

/-- The command is one of `exec_builtin`. -/
def Command.isBuiltin (c : Command) : Bool :=
  c.name = exitWord || c.name = cdWord || c.name = pwdWord

/-- One iteration of the loop that executes a command, and whether it ends the shell. -/
def iteration (w : Turns) (row : Row) (argnum : ℤ) (j : ℕ) : Option (List Effect × Bool) :=
  (commandOf row argnum).map fun c =>
    if c.isBuiltin then
      match execBuiltin w j c with
      | none => ([.builtin c], true)
      | some ret => if ret = -1 then ([.builtin c, .error], false) else ([.builtin c], false)
    else if w.forks j then ([.child c], false) else ([.error], false)

/-- `n` iterations from `j` on, or fewer if the shell ends. -/
def iterate (w : Turns) (row : Row) (argnum : ℤ) : (n j : ℕ) → Option (List Effect × Bool)
  | 0, _ => some ([], false)
  | n + 1, j =>
    (iteration w row argnum j).bind fun (effects, exited) =>
      if exited then some (effects, true)
      else (iterate w row argnum n (j + 1)).map fun (later, exited) => (effects ++ later, exited)

/-- `cmds[i][j] = cmds[i][j + 2]` for the pointers behind `loop` and its count. -/
def shift (row : Row) (n : ℕ) : Row :=
  (List.range n).foldl (fun row j => row.set j (row[j + 2]?).join) row

/-- What `main` does with a command: its pointers and `argnumArray[i]`. -/
def examine (w : Turns) (row : Row) (argnum : ℕ) : Option (List Effect × Bool) :=
  if argnum = 0 then some ([], false)
  else
    (row[0]?).join.bind fun first =>
      if first = loopWord then
        (row[1]?).join.bind fun str =>
          match strtol str with
          | none => some ([.error], false)
          | some val =>
            iterate w (shift row (argnum - 2)) ((argnum : ℤ) - 2) (toInt32 val).toNat 0
      else iterate w row argnum 1 0

/-- A command from the copying of its words into `cmds[i]` on; `none` if they do not fit. -/
def runCommand (w : Turns) (unwritten : ℕ → Text) (words : List Text) :
    Option (List Effect × Bool) :=
  if WordsFit words then examine w (rowFor unwritten words) words.length else none

/-! ## What a loop is for -/

/-- The value of some digits. -/
def natOf (digits : Text) : ℤ := digits.foldl (fun v c => 10 * v + (c.toNat - '0'.toNat)) 0

/-- The text is a decimal integer: digits, with a sign or without one. -/
inductive Decimal : Text → ℤ → Prop where
  | unsigned {digits : Text} (hne : digits ≠ []) (h : ∀ c ∈ digits, c.isDigit = true) :
    Decimal digits (natOf digits)
  | plus {digits : Text} (hne : digits ≠ []) (h : ∀ c ∈ digits, c.isDigit = true) :
    Decimal ('+' :: digits) (natOf digits)
  | minus {digits : Text} (hne : digits ≠ []) (h : ∀ c ∈ digits, c.isDigit = true) :
    Decimal ('-' :: digits) (-natOf digits)

/-- The commands that have been executed. -/
def executed (effects : List Effect) : List Command :=
  effects.filterMap fun
    | .builtin c => some c
    | .child c => some c
    | .error => none

/-- The words of `loop T c1 ... cm`. -/
def loopOf (T : Text) (cs : List Text) : List Text := loopWord :: T :: cs

/-- A loop executes its command as often as its count says, and one with a count that is no decimal
integer is an error. -/
structure Loops (w : Turns) (unwritten : ℕ → Text) (T : Text) (cs : List Text) : Prop where
  counted : ∀ N : ℕ, Decimal T N → strtol T = some (N : ℤ) →
    ∃ effects exited, runCommand w unwritten (loopOf T cs) = some (effects, exited) ∧
      executed effects = List.replicate N ⟨cs.headD [], cs⟩
  refused : (∀ v, ¬ Decimal T v) → runCommand w unwritten (loopOf T cs) = some ([.error], false)

/-! ## The arguments of the command -/

variable {w : Turns} {row : Row} {argnum : ℤ} {c : Command}

/-- Shifting moves each of the pointers two places down. -/
theorem shift_get (row : Row) : ∀ n, n + 2 ≤ row.length → (shift row n).length = row.length ∧
    ∀ i, (shift row n)[i]? = if i < n then row[i + 2]? else row[i]?
  | 0, _ => ⟨rfl, fun i => by simp [shift]⟩
  | n + 1, hn => by
    obtain ⟨hlen, hget⟩ := shift_get row n (by omega)
    have hstep : shift row (n + 1) = (shift row n).set n ((shift row n)[n + 2]?).join := by
      rw [shift, List.range_succ, List.foldl_append]
      rfl
    have hnext : (shift row n)[n + 2]? = row[n + 2]? := by rw [hget, if_neg (by omega)]
    rw [hstep, hnext]
    refine ⟨by rw [List.length_set, hlen], fun i => ?_⟩
    rw [List.getElem?_set, hlen]
    by_cases hi : n = i
    · subst hi
      rw [if_pos rfl, if_pos (by omega), if_pos (Nat.lt_succ_self n)]
      obtain ⟨p, hp⟩ : ∃ p, row[n + 2]? = some p := ⟨_, List.getElem?_eq_getElem (by omega)⟩
      rw [hp]
      rfl
    · have hiff : i < n + 1 ↔ i < n := by omega
      rw [if_neg hi, hget]
      simp only [hiff]

theorem mapM_id_map_some (l : List Text) : (l.map some).mapM id = some l := by
  induction l with
  | nil => rfl
  | cons a l ih => simp [ih]

/-- Behind `loop` and its count the pointers are those of the command. -/
theorem commandOf_shift (u : ℕ → Text) (T : Text) {cs : List Text} (hcs : cs ≠ [])
    (hfit : WordsFit (loopOf T cs)) :
    commandOf (shift (rowFor u (loopOf T cs)) cs.length) cs.length = some ⟨cs.headD [], cs⟩ := by
  have hlen : (rowFor u (loopOf T cs)).length = 32 := by
    have := hfit.1
    simp [rowFor, freshRow]
    omega
  have hten : cs.length + 2 ≤ 10 := by
    have := hfit.1
    rwa [loopOf, List.length_cons, List.length_cons] at this
  obtain ⟨hlength, hget⟩ := shift_get (rowFor u (loopOf T cs)) cs.length (by omega)
  have hword : ∀ i, i < cs.length → (rowFor u (loopOf T cs))[i + 2]? = (cs.map some)[i]? := by
    intro i hi
    unfold rowFor
    rw [List.getElem?_append_left (by simpa [loopOf] using hi)]
    rfl
  have htake : (shift (rowFor u (loopOf T cs)) cs.length).take cs.length = cs.map some := by
    refine List.ext_getElem? fun i => ?_
    rw [List.getElem?_take]
    split_ifs with hi
    · rw [hget, if_pos hi, hword i hi]
    · rw [List.getElem?_eq_none]
      simpa using hi
  obtain ⟨a, rest, rfl⟩ := List.exists_cons_of_ne_nil hcs
  have hfirst : (shift (rowFor u (loopOf T (a :: rest))) (a :: rest).length)[0]? = some (some a) := by
    rw [hget, if_pos (by simp), hword 0 (by simp)]
    rfl
  rw [commandOf, hfirst, pointers, Int.toNat_natCast, htake, mapM_id_map_some]
  rfl

/-! ## How often the command is executed -/

theorem Command.isBuiltin_of_exits (h : c.exits = true) : c.isBuiltin = true := by
  unfold Command.exits at h
  have hname := (Bool.and_eq_true _ _).mp h |>.1
  simp [Command.isBuiltin, of_decide_eq_true hname]

/-- `exec_builtin` ends the shell for `exit` without arguments, and returns for every other command. -/
theorem execBuiltin_eq_none_iff (w : Turns) (j : ℕ) (c : Command) :
    execBuiltin w j c = none ↔ c.exits = true := by
  unfold execBuiltin Command.exits
  split_ifs <;> simp_all

/-- One iteration executes the command, unless `fork` fails. -/
theorem iteration_eq_some (w : Turns) (j : ℕ) (hc : commandOf row argnum = some c) :
    ∃ effects, iteration w row argnum j = some (effects, c.exits) ∧
      executed effects = if c.isBuiltin ∨ w.forks j then [c] else [] := by
  rw [iteration, hc, Option.map_some]
  cases hb : c.isBuiltin with
  | true =>
    have hexits := execBuiltin_eq_none_iff w j c
    cases hret : execBuiltin w j c with
    | none =>
      rw [hexits.1 hret]
      exact ⟨[.builtin c], rfl, rfl⟩
    | some ret =>
      have hgoes : c.exits = false := by
        cases he : c.exits with
        | false => rfl
        | true => rw [hexits.2 he] at hret; cases hret
      rw [hgoes]
      by_cases hr : ret = -1
      · exact ⟨[.builtin c, .error], by simp [hr], rfl⟩
      · exact ⟨[.builtin c], by simp [hr], rfl⟩
  | false =>
    have hgoes : c.exits = false := by
      cases he : c.exits with
      | false => rfl
      | true => rw [Command.isBuiltin_of_exits he] at hb; cases hb
    rw [hgoes]
    cases hf : w.forks j with
    | true => exact ⟨[.child c], rfl, rfl⟩
    | false => exact ⟨[.error], rfl, rfl⟩

/-- How many of `n` iterations from `j` on execute the command. -/
def times (w : Turns) (c : Command) (n j : ℕ) : ℕ :=
  if c.exits then min n 1
  else if c.isBuiltin then n
  else (List.range' j n).countP w.forks

theorem times_succ (w : Turns) (c : Command) (n j : ℕ) : times w c (n + 1) j =
    if c.exits then 1 else (if c.isBuiltin ∨ w.forks j then 1 else 0) + times w c n (j + 1) := by
  unfold times
  split_ifs with hexits hb hor hor
  · simp
  · omega
  · exact absurd (Or.inl hb) hor
  · rw [List.range'_succ, List.countP_cons_of_pos (hor.resolve_left hb)]
    omega
  · rw [List.range'_succ, List.countP_cons_of_neg fun h => hor (Or.inr h)]
    omega

theorem executed_append (a b : List Effect) : executed (a ++ b) = executed a ++ executed b :=
  List.filterMap_append

/-- The loop executes the command with the same arguments every time. -/
theorem iterate_eq_some (w : Turns) (hc : commandOf row argnum = some c) (n j : ℕ) :
    ∃ effects exited, iterate w row argnum n j = some (effects, exited) ∧
      executed effects = List.replicate (times w c n j) c := by
  induction n generalizing j with
  | zero => exact ⟨[], false, rfl, by simp [executed, times]⟩
  | succ n ih =>
    obtain ⟨effects, hstep, heffects⟩ := iteration_eq_some w j hc
    obtain ⟨later, exited, hlater, hexecuted⟩ := ih (j + 1)
    rw [iterate, hstep, Option.bind_some, times_succ]
    cases hexits : c.exits with
    | true =>
      refine ⟨effects, true, by simp, ?_⟩
      rw [heffects, if_pos (Or.inl (Command.isBuiltin_of_exits hexits)), if_pos rfl]
      rfl
    | false =>
      refine ⟨effects ++ later, exited, by simp [hlater], ?_⟩
      rw [executed_append, heffects, hexecuted, if_neg Bool.false_ne_true]
      split_ifs
      · rw [Nat.add_comm 1, List.replicate_succ]
        rfl
      · rw [Nat.zero_add, List.nil_append]

theorem times_le (w : Turns) (c : Command) (n j : ℕ) : times w c n j ≤ n := by
  unfold times
  split_ifs
  · exact Nat.min_le_left n 1
  · exact le_rfl
  · simpa using List.countP_le_length (p := w.forks) (l := List.range' j n)

/-- Every iteration executes the command. -/
theorem times_eq_self_iff (w : Turns) (c : Command) (n : ℕ) : times w c n 0 = n ↔
    (c.exits = true → n ≤ 1) ∧ (c.isBuiltin = false → ∀ j < n, w.forks j = true) := by
  unfold times
  split_ifs with hexits hb
  · have hb := Command.isBuiltin_of_exits hexits
    simp only [hexits, hb, true_implies, reduceCtorEq, false_implies, and_true]
    omega
  · simp [hexits, hb]
  · have hlen : (List.range' 0 n).countP w.forks = n ↔
        (List.range' 0 n).countP w.forks = (List.range' 0 n).length := by simp
    rw [hlen, List.countP_eq_length]
    simp [hexits, hb]

/-! ## The count -/

theorem isDigit_ne {c : Char} (h : c.isDigit = true) : isSpace c = false ∧ c ≠ '-' ∧ c ≠ '+' := by
  have hle : '0'.toNat ≤ c.toNat := by
    simp only [Char.isDigit, Bool.and_eq_true, decide_eq_true_eq] at h
    exact h.1
  have hspace : ¬ c ≤ '\r' := fun hc => absurd (hle.trans hc) (by decide)
  refine ⟨?_, ?_, ?_⟩
  · have hne : c ≠ ' ' := by rintro rfl; exact absurd hle (by decide)
    simp [isSpace, hne, hspace]
  · rintro rfl
    exact absurd hle (by decide)
  · rintro rfl
    exact absurd hle (by decide)

theorem takeWhile_isDigit {digits : Text} (h : ∀ c ∈ digits, c.isDigit = true) :
    digits.takeWhile Char.isDigit = digits := List.takeWhile_eq_self_iff.2 h

/-- `strtol` accepts every decimal integer that a `long` can hold. -/
theorem Decimal.strtol_eq {T : Text} {v : ℤ} (h : Decimal T v) :
    strtol T = if v < -2 ^ 63 ∨ 2 ^ 63 ≤ v then none else some v := by
  cases h with
  | @unsigned digits hne hdigits =>
    obtain ⟨d, rest, rfl⟩ := List.exists_cons_of_ne_nil hne
    obtain ⟨hspace, hminus, hplus⟩ := isDigit_ne (hdigits d List.mem_cons_self)
    have hdrop : (d :: rest).dropWhile isSpace = d :: rest := by simp [hspace]
    simp only [strtol, hdrop, List.head?_cons, Option.some.injEq, hminus, hplus, or_self, if_false,
      takeWhile_isDigit hdigits, reduceCtorEq, false_or]
    rfl
  | @plus digits hne hdigits =>
    have hdrop : ('+' :: digits).dropWhile isSpace = '+' :: digits := rfl
    have hminus : ¬ '+' = '-' := by decide
    simp only [strtol, hdrop, List.head?_cons, Option.some.injEq, hminus, or_true, if_true, if_false,
      List.tail_cons, takeWhile_isDigit hdigits, hne, false_or]
    rfl
  | @minus digits hne hdigits =>
    have hdrop : ('-' :: digits).dropWhile isSpace = '-' :: digits := rfl
    simp only [strtol, hdrop, List.head?_cons, true_or, if_true,
      List.tail_cons, takeWhile_isDigit hdigits, hne, false_or]
    rfl

theorem Decimal.strtol_natCast {T : Text} {N : ℕ} (h : Decimal T N) (hlt : N < 2 ^ 63) :
    strtol T = some (N : ℤ) := by
  rw [h.strtol_eq, if_neg (by omega)]

/-- What `main` does with a loop whose words fit. -/
theorem runCommand_loopOf (w : Turns) (unwritten : ℕ → Text) (T : Text) {cs : List Text} (hcs : cs ≠ [])
    (hfit : WordsFit (loopOf T cs)) :
    (strtol T = none ∧ runCommand w unwritten (loopOf T cs) = some ([.error], false)) ∨
      ∃ val row argnum, strtol T = some val ∧ commandOf row argnum = some ⟨cs.headD [], cs⟩ ∧
        runCommand w unwritten (loopOf T cs) = iterate w row argnum (toInt32 val).toNat 0 := by
  have hfirst : ((rowFor unwritten (loopOf T cs))[0]?).join = some loopWord := rfl
  have hsecond : ((rowFor unwritten (loopOf T cs))[1]?).join = some T := rfl
  have hlen : (loopOf T cs).length = cs.length + 2 := rfl
  have hnum : ((cs.length + 2 : ℕ) : ℤ) - 2 = cs.length := by omega
  rw [runCommand, if_pos hfit, examine, hlen, if_neg (Nat.succ_ne_zero _), hfirst, Option.bind_some,
    if_pos rfl, hsecond, Option.bind_some, Nat.add_sub_cancel, hnum]
  cases hval : strtol T with
  | none => exact Or.inl ⟨rfl, rfl⟩
  | some val => exact Or.inr ⟨val, _, _, rfl, commandOf_shift unwritten T hcs hfit, rfl⟩

/-- Without a built-in command each iteration has one effect. -/
theorem length_iterate (w : Turns) (hc : commandOf row argnum = some c) (hb : c.isBuiltin = false)
    (n j : ℕ) {effects : List Effect} {exited : Bool}
    (h : iterate w row argnum n j = some (effects, exited)) : effects.length = n := by
  have hstep : ∀ j, ∃ effect, iteration w row argnum j = some ([effect], false) := fun j => by
    rw [iteration, hc, Option.map_some, hb]
    cases w.forks j with
    | true => exact ⟨.child c, rfl⟩
    | false => exact ⟨.error, rfl⟩
  induction n generalizing j effects exited with
  | zero =>
    obtain ⟨rfl, -⟩ := Prod.mk.inj (Option.some.inj h)
    rfl
  | succ n ih =>
    obtain ⟨effect, heffect⟩ := hstep j
    rw [iterate, heffect, Option.bind_some] at h
    simp only [Bool.false_eq_true, if_false] at h
    obtain ⟨⟨later, exited'⟩, hlater, heq⟩ := Option.map_eq_some_iff.1 h
    obtain ⟨rfl, -⟩ := Prod.mk.inj heq
    rw [List.length_append, ih (j + 1) hlater, List.length_singleton, Nat.add_comm]

/-- The loop writes one error and executes nothing: it has one iteration, whose `fork` fails. -/
theorem iterate_eq_error_iff (w : Turns) (hc : commandOf row argnum = some c) (n : ℕ) :
    iterate w row argnum n 0 = some ([.error], false) ↔
      n = 1 ∧ c.isBuiltin = false ∧ w.forks 0 = false := by
  constructor
  · intro h
    obtain ⟨effects, exited, hrun, hexecuted⟩ := iterate_eq_some w hc n 0
    rw [h] at hrun
    obtain ⟨rfl, -⟩ := Prod.mk.inj (Option.some.inj hrun)
    have hzero : times w c n 0 = 0 := by simpa [executed] using hexecuted
    have hn : n ≠ 0 := by
      rintro rfl
      cases h
    have hb : c.isBuiltin = false := by
      cases hb : c.isBuiltin with
      | false => rfl
      | true =>
        unfold times at hzero
        simp only [hb, if_true] at hzero
        split_ifs at hzero <;> omega
    obtain rfl : n = 1 := (length_iterate w hc hb n 0 h).symm
    refine ⟨rfl, hb, ?_⟩
    cases hf : w.forks 0 with
    | false => rfl
    | true =>
      have hgoes : c.exits = false := by
        cases he : c.exits with
        | false => rfl
        | true => rw [Command.isBuiltin_of_exits he] at hb; cases hb
      rw [times_succ, hgoes, if_neg Bool.false_ne_true, if_pos (Or.inr hf)] at hzero
      omega
  · rintro ⟨rfl, hb, hf⟩
    simp [iterate, iteration, hc, hb, hf]

/-- A count that is cut to 1, and a child that cannot be forked. -/
def OneFailedFork (w : Turns) (T : Text) (c : Command) : Prop :=
  (∃ val, strtol T = some val ∧ toInt32 val = 1) ∧ c.isBuiltin = false ∧ w.forks 0 = false

theorem wordsFit_of_runCommand {w : Turns} {unwritten : ℕ → Text} {words : List Text}
    {r : List Effect × Bool} (h : runCommand w unwritten words = some r) : WordsFit words := by
  by_contra hno
  rw [runCommand, if_neg hno] at h
  cases h

/-- When a loop executes its command as often as its count says. -/
theorem executes_iff (w : Turns) (unwritten : ℕ → Text) {T : Text} {cs : List Text} (hcs : cs ≠ []) {N : ℕ}
    (hstr : strtol T = some (N : ℤ)) :
    (∃ effects exited, runCommand w unwritten (loopOf T cs) = some (effects, exited) ∧
        executed effects = List.replicate N ⟨cs.headD [], cs⟩) ↔
      WordsFit (loopOf T cs) ∧ N ≤ INT_MAX ∧
        ((⟨cs.headD [], cs⟩ : Command).exits = true → N ≤ 1) ∧
        ((⟨cs.headD [], cs⟩ : Command).isBuiltin = false → ∀ j < N, w.forks j = true) := by
  constructor
  · rintro ⟨effects, exited, hrun, hexecuted⟩
    have hfits := wordsFit_of_runCommand hrun
    refine ⟨hfits, ?_⟩
    obtain ⟨hval, -⟩ | ⟨val, row, argnum, hval, hc, hiterate⟩ := runCommand_loopOf w unwritten T hcs hfits
    · rw [hstr] at hval
      cases hval
    · obtain rfl := Option.some.inj (hstr.symm.trans hval)
      obtain ⟨effects', exited', hrun', hexecuted'⟩ := iterate_eq_some w hc (toInt32 N).toNat 0
      rw [← hiterate, hrun] at hrun'
      obtain ⟨rfl, -⟩ := Prod.mk.inj (Option.some.inj hrun')
      have htimes : times w ⟨cs.headD [], cs⟩ (toInt32 N).toNat 0 = N := by
        have := congrArg List.length (hexecuted'.symm.trans hexecuted)
        simpa using this
      have hle := times_le w ⟨cs.headD [], cs⟩ (toInt32 N).toNat 0
      have hmax := toInt32_le N
      have hpos : 0 ≤ INT_MAX := by decide
      have hN' : (N : ℤ) ≤ INT_MAX := by omega
      rw [toInt32_eq_self (by omega) hN', Int.toNat_natCast] at htimes
      exact ⟨hN', (times_eq_self_iff w _ N).1 htimes⟩
  · rintro ⟨hfits, hmax, htimes⟩
    obtain ⟨hval, -⟩ | ⟨val, row, argnum, hval, hc, hiterate⟩ := runCommand_loopOf w unwritten T hcs hfits
    · rw [hstr] at hval
      cases hval
    · obtain rfl := Option.some.inj (hstr.symm.trans hval)
      rw [toInt32_eq_self (by omega) hmax, Int.toNat_natCast] at hiterate
      obtain ⟨effects, exited, hrun, hexecuted⟩ := iterate_eq_some w hc N 0
      rw [(times_eq_self_iff w _ N).2 htimes] at hexecuted
      exact ⟨effects, exited, hiterate.trans hrun, hexecuted⟩

/-- When a loop is refused. -/
theorem refuses_iff (w : Turns) (unwritten : ℕ → Text) (T : Text) {cs : List Text} (hcs : cs ≠ []) :
    runCommand w unwritten (loopOf T cs) = some ([.error], false) ↔
      WordsFit (loopOf T cs) ∧ (strtol T = none ∨ OneFailedFork w T ⟨cs.headD [], cs⟩) := by
  constructor
  · intro hrun
    have hfits := wordsFit_of_runCommand hrun
    refine ⟨hfits, ?_⟩
    obtain ⟨hval, -⟩ | ⟨val, row, argnum, hval, hc, hiterate⟩ := runCommand_loopOf w unwritten T hcs hfits
    · exact Or.inl hval
    · rw [hiterate, iterate_eq_error_iff w hc] at hrun
      exact Or.inr ⟨⟨val, hval, by omega⟩, hrun.2⟩
  · rintro ⟨hfits, hnothing⟩
    obtain ⟨-, hrun⟩ | ⟨val, row, argnum, hval, hc, hiterate⟩ := runCommand_loopOf w unwritten T hcs hfits
    · exact hrun
    · rcases hnothing with hnothing | ⟨⟨val', hval', hone⟩, hfails⟩
      · rw [hval] at hnothing
        cases hnothing
      · obtain rfl := Option.some.inj (hval.symm.trans hval')
        rw [hiterate, iterate_eq_error_iff w hc, hone]
        exact ⟨rfl, hfails⟩

/-- For every loop with a command and every answer of the system: it executes the command as often as
it says, and refuses a count that is no decimal integer, if and only if its words fit their strings
whenever one of the two is due; a count is at most `INT_MAX`, every `fork` succeeds and `exit` is not
repeated; and a text that is no decimal integer does not begin with one.  (By accident, one failed `fork`
looks like a refusal.) -/
theorem loops_iff (w : Turns) (unwritten : ℕ → Text) (T : Text) (cs : List Text) (hcs : cs ≠ []) :
    Loops w unwritten T cs ↔
      (∀ N : ℕ, Decimal T N → N < 2 ^ 63 → WordsFit (loopOf T cs) ∧ N ≤ INT_MAX ∧
        ((⟨cs.headD [], cs⟩ : Command).exits = true → N ≤ 1) ∧
        ((⟨cs.headD [], cs⟩ : Command).isBuiltin = false → ∀ j < N, w.forks j = true)) ∧
      ((∀ v, ¬ Decimal T v) → WordsFit (loopOf T cs) ∧
        (strtol T = none ∨ OneFailedFork w T ⟨cs.headD [], cs⟩)) := by
  constructor
  · rintro ⟨counted, refused⟩
    refine ⟨fun N hN hlt => ?_, fun hnone => ?_⟩
    · have hstr := hN.strtol_natCast hlt
      exact (executes_iff w unwritten hcs hstr).1 (counted N hN hstr)
    · exact (refuses_iff w unwritten T hcs).1 (refused hnone)
  · rintro ⟨counted, refused⟩
    refine ⟨fun N hN hstr => ?_, fun hnone => ?_⟩
    · have hlt : N < 2 ^ 63 := by
        rw [hN.strtol_eq] at hstr
        split_ifs at hstr
        omega
      exact (executes_iff w unwritten hcs hstr).2 (counted N hN hlt)
    · exact (refuses_iff w unwritten T hcs).2 (refused hnone)

/-- Every `fork` succeeds. -/
def forking : Turns := ⟨fun _ => true, fun _ => 0, fun _ => 0⟩

theorem Decimal.sign_or_digit {T : Text} {v : ℤ} (h : Decimal T v) :
    ∀ c ∈ T.tail, c.isDigit = true := by
  cases h with
  | unsigned _ h => exact fun c hc => h c (List.mem_of_mem_tail hc)
  | plus _ h => exact h
  | minus _ h => exact h

/-- `loop 3 pwd` executes `pwd` three times. -/
theorem loops_pwd : Loops forking (fun _ => []) "3".toList [pwdWord] := by
  have hdigit : ∀ c ∈ "3".toList, c.isDigit = true := by
    intro c hc
    obtain rfl : c = '3' := List.mem_singleton.1 hc
    rfl
  have hthree : Decimal "3".toList 3 := Decimal.unsigned (List.cons_ne_nil _ _) hdigit
  refine (loops_iff forking _ "3".toList [pwdWord] (List.cons_ne_nil _ _)).2
    ⟨fun N hN hlt => ?_, fun hnone => absurd hthree (hnone 3)⟩
  have hN3 : strtol "3".toList = some (N : ℤ) := hN.strtol_natCast hlt
  have hval : strtol "3".toList = some 3 := by decide
  obtain rfl : N = 3 := by
    have := Option.some.inj (hN3.symm.trans hval)
    omega
  exact ⟨by decide, by decide, fun h => absurd h (by decide), fun h => absurd h (by decide)⟩

/-- `loop 2x pwd` executes `pwd` twice. -/
theorem not_loops_trailing : ¬ Loops forking (fun _ => []) "2x".toList [pwdWord] := by
  intro h
  have hnone : ∀ v, ¬ Decimal "2x".toList v := fun v hv =>
    absurd (hv.sign_or_digit 'x' (by decide)) (by decide)
  have hrun := h.refused hnone
  exact absurd hrun (by decide)

end SystemsProjects.Smash
