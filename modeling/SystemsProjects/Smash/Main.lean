import Mathlib.Algebra.Group.Int.Defs
import Mathlib.Data.List.TakeWhile
import SystemsProjects.Lib.MachineInt

/-!
# The main loop of the shell

`lexer` and `main` of `P3/smash.c`.  `main` never looks at what `getline` returns, so at the end of the
input it works on what is left in the buffer: `strtok` has cut the last line behind its first word, and
that word is executed as a command again, in every further iteration.  `run_lines` says that each line
of the input is executed once, `mainLoop_endOfInput` what every iteration after that does, and
`not_consumesOnce` that the shell stops on no input without `exit`.
-/

namespace SystemsProjects.Smash

open MachineInt

/-- A C string, without its terminator. -/
abbrev Text := List Char

/-! ## The lexer -/

/-- The delimiters of `strtok`. -/
def isDelim (c : Char) : Bool := c = ' ' || c = '\t' || c = '\n'

/-- The words of a line. -/
def tokens (line : Text) : List Text := (line.splitOnP isDelim).filter fun w => !w.isEmpty

/-- What `strtok` leaves of the line: the terminator it writes behind the first word ends the string. -/
def cut (line : Text) : Text :=
  line.takeWhile isDelim ++ (line.dropWhile isDelim).takeWhile fun c => !isDelim c

/-- The words of a line, and the line as it is left. -/
def lexer (line : Text) : List Text × Text := (tokens line, cut line)

/-! ## Commands -/

/-- The words that `main` compares with. -/
def semicolon : Text := ";".toList
def loopWord : Text := "loop".toList
def exitWord : Text := "exit".toList

/-- A command as `main` runs it: `cmds[i][0]` and the arguments that are counted. -/
structure Command where
  name : Text
  args : List Text
  deriving DecidableEq

/-- The words between the `;`s of a line. -/
def cmds (words : List Text) : List (List Text) := words.splitOnP fun w => w = semicolon

/-- `isspace`. -/
def isSpace (c : Char) : Bool := c = ' ' || ('\t' ≤ c && c ≤ '\r')

/-- `strtol` with base 10; `none` if nothing is converted or the value is out of range. -/
def strtol (str : Text) : Option ℤ :=
  let str := str.dropWhile isSpace
  let negative := str.head? = some '-'
  let digits := (if negative ∨ str.head? = some '+' then str.tail else str).takeWhile Char.isDigit
  let val : ℤ := digits.foldl (fun v c => 10 * v + (c.toNat - '0'.toNat)) 0
  let val := if negative then -val else val
  if digits = [] ∨ val < -2 ^ 63 ∨ 2 ^ 63 ≤ val then none else some val

/-- How often the command of some words is executed; `unwritten` is what the string of the second word
holds if there is none.  A count that cannot be read is an error. -/
def numLoop (unwritten : Text) (words : List Text) : Option ℤ :=
  if words.head? = some loopWord then (strtol (words[1]?.getD unwritten)).map toInt32 else some 1

/-- The command of some words, without a `loop` and its count. -/
def command (words : List Text) : Command :=
  if words.head? = some loopWord then ⟨(words.drop 2).headD loopWord, words.drop 2⟩
  else ⟨words.headD [], words⟩

/-- The commands that the words of a line make `main` execute, in order. -/
def executions (unwritten : ℕ → Text) (words : List Text) : List Command :=
  (cmds words).zipIdx.flatMap fun (words, i) =>
    if words = [] then []
    else match numLoop (unwritten i) words with
      | none => []
      | some n => List.replicate n.toNat (command words)

/-- The command ends the shell in `exec_builtin`. -/
def Command.exits (c : Command) : Bool := c.name = exitWord && c.args.length = 1

/-- The commands up to the first that ends the shell, and whether there is one. -/
def runCommands : List Command → List Command × Bool
  | [] => ([], false)
  | c :: cs => if c.exits then ([c], true) else (c :: (runCommands cs).1, (runCommands cs).2)

/-! ## The main loop -/

structure Shell where
  buf : Option Text
  /-- The lines `getline` has not read yet. -/
  input : List Text
  /-- The commands executed so far. -/
  executed : List Command
  iteration : ℕ
  exited : Bool

def Shell.init (lines : List Text) : Shell where
  buf := none
  input := lines
  executed := []
  iteration := 0
  exited := false

/-- `getline`: at the end of the input the buffer is left as it is. -/
def getline (s : Shell) : Shell :=
  match s.input with
  | line :: rest => { s with buf := some line, input := rest }
  | [] => s

/-- The words fit the ten strings of 256 bytes that `main` allocates for a command. -/
def Fits (words : List Text) : Prop :=
  ∀ c ∈ cmds words, c.length ≤ 10 ∧ ∀ w ∈ c, w.length < 256

instance (words : List Text) : Decidable (Fits words) := inferInstanceAs (Decidable (∀ _ ∈ _, _))

/-- One iteration of the `while` loop; `none` is undefined behaviour, a null buffer or an overflow of
`cmds`. -/
def mainLoop (unwritten : ℕ → ℕ → Text) (s : Shell) : Option Shell :=
  let s := getline s
  s.buf.bind fun line =>
    let (words, line) := lexer line
    if Fits words then
      let (done, exited) := runCommands (executions (unwritten s.iteration) words)
      some { s with buf := some line, executed := s.executed ++ done, exited := exited,
                    iteration := s.iteration + 1 }
    else none

/-- `n` iterations, or fewer if the shell exits. -/
def run (unwritten : ℕ → ℕ → Text) : ℕ → Shell → Option Shell
  | 0, s => some s
  | n + 1, s => if s.exited then some s else (mainLoop unwritten s).bind (run unwritten n)

/-- The shell executes the commands of each line once, in order, and stops. -/
def ConsumesOnce (unwritten : ℕ → ℕ → Text) (lines : List Text) : Prop :=
  ∃ n s, run unwritten n (Shell.init lines) = some s ∧ s.exited = true ∧
    s.executed = lines.zipIdx.flatMap fun (line, i) => executions (unwritten i) (tokens line)

/-- No command of the line is `exit`, also not one that is looped. -/
def NoExit (words : List Text) : Prop :=
  ∀ c ∈ cmds words, c ≠ [] → (command c).name ≠ exitWord

/-! ## What is left in the buffer -/

theorem tokens_cons_delim {c : Char} (h : isDelim c = true) (line : Text) :
    tokens (c :: line) = tokens line := by
  simp [tokens, List.splitOnP_cons_eq_if_modifyHead, h]

theorem tokens_word {w : Text} (hw : ∀ c ∈ w, isDelim c = false) (hne : w ≠ []) :
    tokens w = [w] := by
  simp [tokens, List.splitOnP_eq_singleton hw, hne]

theorem tokens_word_append {w rest : Text} {d : Char} (hw : ∀ c ∈ w, isDelim c = false)
    (hne : w ≠ []) (hd : isDelim d = true) : tokens (w ++ d :: rest) = w :: tokens rest := by
  simp [tokens, List.splitOnP_append_cons _ _ hd, List.splitOnP_eq_singleton hw, hne]

theorem isDelim_of_mem_takeWhile {c : Char} {line : Text}
    (h : c ∈ line.takeWhile fun c => !isDelim c) : isDelim c = false := by
  simpa using List.mem_takeWhile_imp h

/-- A line that begins with a word: its tokens are that word and those behind the character that ends
it. -/
theorem tokens_eq_cons {c : Char} (hc : isDelim c = false) (line : Text) :
    tokens (c :: line) = (c :: line).takeWhile (fun c => !isDelim c) ::
      tokens (((c :: line).dropWhile fun c => !isDelim c).drop 1) := by
  have hword : ∀ x ∈ (c :: line).takeWhile (fun c => !isDelim c), isDelim x = false :=
    fun x hx => isDelim_of_mem_takeWhile hx
  have hne : (c :: line).takeWhile (fun c => !isDelim c) ≠ [] := by simp [hc]
  have hsplit := List.takeWhile_append_dropWhile (p := fun c => !isDelim c) (l := c :: line)
  cases hrest : (c :: line).dropWhile (fun c => !isDelim c) with
  | nil =>
    rw [hrest, List.append_nil] at hsplit
    conv_lhs => rw [← hsplit]
    exact tokens_word hword hne
  | cons d rest =>
    rw [hrest] at hsplit
    have hd : isDelim d = true := by
      have := List.dropWhile_get_zero_not (p := fun c => !isDelim c) (c :: line) (by simp [hrest])
      simpa [hrest] using this
    conv_lhs => rw [← hsplit]
    exact tokens_word_append hword hne hd

/-- The first word of a line is all that the next `lexer` finds in the buffer. -/
theorem tokens_cut (line : Text) : tokens (cut line) = (tokens line).take 1 := by
  induction line with
  | nil => rfl
  | cons c line ih =>
    cases hc : isDelim c with
    | true =>
      have hcut : cut (c :: line) = c :: cut line := by simp [cut, hc]
      rw [hcut, tokens_cons_delim hc, tokens_cons_delim hc, ih]
    | false =>
      have hcut : cut (c :: line) = (c :: line).takeWhile fun c => !isDelim c := by simp [cut, hc]
      rw [tokens_eq_cons hc, hcut, List.take_succ_cons, List.take_zero]
      exact tokens_word (fun x hx => isDelim_of_mem_takeWhile hx) (by simp [hc])

/-- Words that are not `;` stay together: the first command begins with the first word. -/
theorem cmds_cons {w : Text} (hw : w ≠ semicolon) (ws : List Text) :
    ∃ c ∈ cmds (w :: ws), ∃ rest, c = w :: rest := by
  have hsplit : cmds (w :: ws) = (cmds ws).modifyHead (w :: ·) := by
    simp [cmds, List.splitOnP_cons_eq_if_modifyHead, hw]
  obtain ⟨c, cs, hcs⟩ := List.exists_cons_of_ne_nil (List.splitOnP_ne_nil (fun w => w = semicolon) ws)
  refine ⟨w :: c, ?_, c, rfl⟩
  rw [hsplit, cmds, hcs]
  exact List.mem_cons_self

/-- The first word of a line without `exit` is not `exit`. -/
theorem NoExit.take_one {words : List Text} (h : NoExit words) : NoExit (words.take 1) := by
  cases words with
  | nil => exact h
  | cons w ws =>
    intro c hc hne hexit
    by_cases hw : w = semicolon
    · have hempty : cmds [w] = [[], []] := by
        rw [hw]
        rfl
      rw [List.take_succ_cons, List.take_zero, hempty] at hc
      simp at hc
      exact hne hc
    · have hsingle : cmds [w] = [[w]] := by simp [cmds, List.splitOnP_cons_eq_if_modifyHead, hw]
      rw [List.take_succ_cons, List.take_zero, hsingle] at hc
      obtain rfl := List.mem_singleton.1 hc
      obtain ⟨d, hd, rest, rfl⟩ := cmds_cons hw ws
      refine h _ hd (List.cons_ne_nil _ _) ?_
      by_cases hloop : w = loopWord
      · rw [hloop] at hexit
        exact absurd hexit (by decide)
      · simpa [command, hloop] using hexit

/-! ## One iteration -/

/-- Without `exit` all commands are executed and the shell goes on. -/
theorem runCommands_eq {cs : List Command} (h : ∀ c ∈ cs, c.name ≠ exitWord) :
    runCommands cs = (cs, false) := by
  induction cs with
  | nil => rfl
  | cons c cs ih =>
    have hc : c.exits = false := by simp [Command.exits, h c List.mem_cons_self]
    rw [runCommands, hc, ih fun d hd => h d (List.mem_cons_of_mem c hd)]
    rfl

theorem NoExit.executions {words : List Text} (h : NoExit words) (unwritten : ℕ → Text) :
    ∀ c ∈ executions unwritten words, c.name ≠ exitWord := by
  intro c hc
  obtain ⟨⟨ws, i⟩, hws, hc⟩ := List.mem_flatMap.1 hc
  have hmem : ws ∈ cmds words := by
    have := List.mem_map_of_mem (f := Prod.fst) hws
    rwa [List.zipIdx_map_fst] at this
  simp only at hc
  split_ifs at hc with hempty
  · cases hc
  · cases hn : numLoop (unwritten i) ws with
    | none =>
      rw [hn] at hc
      cases hc
    | some n =>
      rw [hn] at hc
      rw [List.eq_of_mem_replicate hc]
      exact h ws hmem hempty

variable {unwritten : ℕ → ℕ → Text} {s s' : Shell}

/-- What an iteration does with the line in the buffer after `getline`. -/
theorem mainLoop_eq {line : Text} (hbuf : (getline s).buf = some line)
    (hexit : NoExit (tokens line)) (hfits : Fits (tokens line)) :
    mainLoop unwritten s = some { getline s with
      buf := some (cut line)
      executed := (getline s).executed ++ executions (unwritten (getline s).iteration) (tokens line)
      exited := false
      iteration := (getline s).iteration + 1 } := by
  simp only [mainLoop, hbuf, Option.bind_some, lexer, if_pos hfits,
    runCommands_eq (hexit.executions _)]

/-- After the end of the input an iteration executes what the buffer still holds, which is the first
word of the last line. -/
theorem mainLoop_endOfInput {line : Text} (hinput : s.input = []) (hbuf : s.buf = some (cut line))
    (hexit : NoExit (tokens line)) (hfits : Fits (tokens (cut line))) :
    mainLoop unwritten s = some { s with
      buf := some (cut (cut line))
      executed := s.executed ++ executions (unwritten s.iteration) ((tokens line).take 1)
      exited := false
      iteration := s.iteration + 1 } := by
  have hgetline : getline s = s := by simp [getline, hinput]
  have hcut : NoExit (tokens (cut line)) := by
    rw [tokens_cut]
    exact hexit.take_one
  rw [mainLoop_eq (by rw [hgetline, hbuf]) hcut hfits, hgetline, tokens_cut]

/-- No `exit` is in the lines to come nor in the buffer. -/
structure Continues (s : Shell) : Prop where
  exited : s.exited = false
  input : ∀ line ∈ s.input, NoExit (tokens line)
  buf : ∀ line, s.buf = some line → NoExit (tokens line)

theorem Continues.getline (h : Continues s) : Continues (Smash.getline s) := by
  unfold Smash.getline
  cases hinput : s.input with
  | nil => exact h
  | cons line rest =>
    refine ⟨h.exited, fun l hl => h.input l (hinput ▸ List.mem_cons_of_mem line hl), fun l hl => ?_⟩
    rw [← Option.some.inj hl]
    exact h.input line (hinput ▸ List.mem_cons_self)

theorem Continues.mainLoop (h : Continues s) (hstep : mainLoop unwritten s = some s') :
    Continues s' := by
  cases hbuf : (Smash.getline s).buf with
  | none => simp [Smash.mainLoop, hbuf] at hstep
  | some line =>
    have hexit := h.getline.buf line hbuf
    by_cases hfits : Fits (tokens line)
    · rw [mainLoop_eq hbuf hexit hfits] at hstep
      obtain rfl := Option.some.inj hstep
      refine ⟨rfl, h.getline.input, fun l hl => ?_⟩
      rw [← Option.some.inj hl, tokens_cut]
      exact hexit.take_one
    · simp [Smash.mainLoop, hbuf, lexer, hfits] at hstep

/-! ## Runs -/

theorem Continues.run (h : Continues s) {n : ℕ} (hrun : run unwritten n s = some s') :
    Continues s' := by
  induction n generalizing s with
  | zero => exact Option.some.inj hrun ▸ h
  | succ n ih =>
    rw [Smash.run, h.exited, if_neg (by decide)] at hrun
    obtain ⟨t, ht, hrun⟩ := Option.bind_eq_some_iff.1 hrun
    exact ih (h.mainLoop ht) hrun

theorem continues_init {lines : List Text} (h : ∀ line ∈ lines, NoExit (tokens line)) :
    Continues (Shell.init lines) :=
  ⟨rfl, h, fun _ hl => nomatch hl⟩

/-- The lines of the input are executed once each, in order. -/
theorem run_lines (unwritten : ℕ → ℕ → Text) {lines : List Text}
    (hexit : ∀ line ∈ lines, NoExit (tokens line)) (hfits : ∀ line ∈ lines, Fits (tokens line))
    (s : Shell) (hs : s.exited = false) (hinput : s.input = lines) :
    ∃ s', run unwritten lines.length s = some s' ∧ s'.input = [] ∧ s'.exited = false ∧
      s'.executed = s.executed ++ (lines.zipIdx s.iteration).flatMap
        fun (line, i) => executions (unwritten i) (tokens line) := by
  induction lines generalizing s with
  | nil => exact ⟨s, rfl, hinput, hs, (List.append_nil _).symm⟩
  | cons line lines ih =>
    have hgetline : getline s = { s with buf := some line, input := lines } := by
      simp [getline, hinput]
    have hfirst : ∃ t, mainLoop unwritten s = some t ∧ t.input = lines ∧ t.exited = false ∧
        t.executed = s.executed ++ executions (unwritten s.iteration) (tokens line) ∧
        t.iteration = s.iteration + 1 := by
      rw [mainLoop_eq (by rw [hgetline]) (hexit line List.mem_cons_self)
        (hfits line List.mem_cons_self), hgetline]
      exact ⟨_, rfl, rfl, rfl, rfl, rfl⟩
    obtain ⟨t, hstep, htinput, htexited, htexecuted, htiteration⟩ := hfirst
    obtain ⟨s', hrun, hdone, hgoes, hexecuted⟩ :=
      ih (fun l hl => hexit l (List.mem_cons_of_mem line hl))
        (fun l hl => hfits l (List.mem_cons_of_mem line hl)) t htexited htinput
    refine ⟨s', ?_, hdone, hgoes, ?_⟩
    · rw [List.length_cons, run, hs, if_neg (by decide), hstep]
      exact hrun
    · rw [hexecuted, htexecuted, htiteration, List.zipIdx_cons, List.flatMap_cons, List.append_assoc]

/-- On no input without the `exit` command does the shell execute each line once and stop: it never
stops. -/
theorem not_consumesOnce (unwritten : ℕ → ℕ → Text) (lines : List Text)
    (hexit : ∀ line ∈ lines, NoExit (tokens line)) : ¬ ConsumesOnce unwritten lines := by
  rintro ⟨n, s, hrun, hstopped, -⟩
  have hgoes := ((continues_init hexit).run hrun).exited
  rw [hgoes] at hstopped
  cases hstopped

/-- The input `pwd`. -/
def pwdLine : List Text := ["pwd\n".toList]

theorem pwdLine_noExit : ∀ line ∈ pwdLine, NoExit (tokens line) := by
  intro line hline
  obtain rfl := List.mem_singleton.1 hline
  have hcmds : cmds (tokens "pwd\n".toList) = [["pwd".toList]] := by decide
  intro c hc _
  rw [hcmds] at hc
  obtain rfl := List.mem_singleton.1 hc
  decide

theorem not_consumesOnce_pwdLine : ¬ ConsumesOnce (fun _ _ => []) pwdLine :=
  not_consumesOnce (fun _ _ => []) pwdLine pwdLine_noExit

/-- After the one line has been executed and the input is at its end, `pwd` is executed again. -/
theorem pwd_executedTwice :
    (∃ s, run (fun _ _ => []) 2 (Shell.init pwdLine) = some s ∧ s.input = [] ∧ s.exited = false ∧
      s.executed = [⟨"pwd".toList, ["pwd".toList]⟩, ⟨"pwd".toList, ["pwd".toList]⟩]) ∧
    ¬ ConsumesOnce (fun _ _ => []) pwdLine := by
  refine ⟨⟨_, rfl, rfl, by decide, by decide⟩, ?_⟩
  rintro ⟨n, s, hrun, hstopped, -⟩
  have hgoes := ((continues_init pwdLine_noExit).run hrun).exited
  rw [hgoes] at hstopped
  cases hstopped

end SystemsProjects.Smash
