import SystemsProjects.Fortune.Load

/-!
# Printing fortunes

`main` of `P1/badger_fortune.c`: the flags, and the four modes in which a number from the command line or
numbers from a batch file select fortunes that go to `stdout` or to a file.  Each mode has its own copy of
the range check, and each batch mode its own way with a last line that has no newline.  `validates_iff` and
`sameOutput_iff` say where the copies agree.
-/

namespace SystemsProjects.Fortune

open MachineInt CString Smash

/-! ## Range checks -/

inductive Mode where
  | numberStdout
  | batchStdout
  | numberFile
  | batchFile
  deriving DecidableEq

/-- What a mode does with a number. -/
inductive Reaction where
  | report (message : Text)
  /-- `fortune[index]` is used. -/
  | select (index : ℤ)
  deriving DecidableEq

def invalidNumber : Text := "ERROR: Invalid Fortune Number\n".toList

def react : Mode → (num0 fortuneIndex : ℤ) → Reaction
  | .numberStdout, num0, fortuneIndex =>
    if fortuneIndex < 0 ∨ fortuneIndex > num0 then .report invalidNumber else .select (fortuneIndex - 1)
  | .batchStdout, num0, fortuneIndex =>
    if fortuneIndex < 0 ∨ fortuneIndex > num0 then .report (invalidNumber ++ "\n".toList)
    else .select (fortuneIndex - 1)
  | .numberFile, _, fortuneIndex => .select (fortuneIndex - 1)
  | .batchFile, num0, fortuneIndex =>
    if fortuneIndex ≤ 0 ∨ fortuneIndex > num0 then .report (invalidNumber ++ "\n".toList)
    else .select (fortuneIndex - 1)

/-! ## The modes -/

/-- How the process ends: its exit code, and what it has written to `stdout` and to the output file. -/
structure Result where
  code : ℕ
  stdout : Text
  newFile : Text
  deriving DecidableEq

/-- `fortune[i]`, as `printf` and `fputs` read it; `none` if there is no such string. -/
def fortuneAt (fortune : List Text) (i : ℤ) : Option Text :=
  if i < 0 then none else stringAt fortune i.toNat

/-- The number modes; `write` is where the fortune goes. -/
def numberMode (mode : Mode) (write : Text → Result) (num0 : ℤ) (fortune : List Text) (str : Text) :
    Option Result :=
  match react mode num0 (atoi str) with
  | .report message => some ⟨1, message, []⟩
  | .select i => (fortuneAt fortune i).map write

def numberStdout : (num0 : ℤ) → List Text → Text → Option Result :=
  numberMode .numberStdout fun s => ⟨0, s, []⟩

def numberFile : (num0 : ℤ) → List Text → Text → Option Result :=
  numberMode .numberFile fun s => ⟨0, [], s⟩

/-- `strcmp(&buf[strlen(buf) - 1], "\n") == 0`; `none` if the string is empty. -/
def endsLine (buf : Text) : Option Bool := (text buf).getLast?.map fun c => c = '\n'

/-- `fortune[i][len] = '\0'` -/
def cutAt (fortune : List Text) (i len : ℤ) : Option (List Text) :=
  if len < 0 then none
  else (fortune[i.toNat]?).map fun b => fortune.set i.toNat (b.set len.toNat '\x00')

/-- The loop over a batch file, with what is written and `batchCounter`; `last` is what is written for a line
without a newline, and what this leaves in the buffers. -/
def batchLoop (mode : Mode) (last : List Text → ℤ → Text → Option (Text × List Text)) (num0 : ℤ) :
    List Text → List Text → Option (Text × ℕ)
  | _, [] => some ([], 0)
  | fortune, buf :: rest =>
    match react mode num0 (atoi buf) with
    | .report message =>
      (batchLoop mode last num0 fortune rest).map fun r => (message ++ r.1, r.2)
    | .select i =>
      (endsLine buf).bind fun newline => (fortuneAt fortune i).bind fun s =>
        if newline then
          (batchLoop mode last num0 fortune rest).map fun r => (s ++ "\n\n".toList ++ r.1, r.2 + 1)
        else
          (last fortune i s).bind fun p =>
            (batchLoop mode last num0 p.2 rest).map fun r => (p.1 ++ r.1, r.2 + 1)

/-- On `stdout` a fortune for a line without a newline is cut by two characters in its buffer. -/
def lastStdout (fortune : List Text) (i : ℤ) (s : Text) : Option (Text × List Text) :=
  (cutAt fortune i ((s.length : ℤ) - 2)).bind fun fortune =>
    (fortuneAt fortune i).map fun s => (s, fortune)

def lastFile (fortune : List Text) (_ : ℤ) (s : Text) : Option (Text × List Text) := some (s, fortune)

def batchEmpty : Text := "ERROR: Batch File Empty\n".toList

def batchStdout (num0 : ℤ) (fortune lines : List Text) : Option Result :=
  (batchLoop .batchStdout lastStdout num0 fortune lines).map fun r =>
    if r.2 = 0 then ⟨1, r.1 ++ batchEmpty, []⟩ else ⟨0, r.1, []⟩

def batchFile (num0 : ℤ) (fortune lines : List Text) : Option Result :=
  (batchLoop .batchFile lastFile num0 fortune lines).map fun r =>
    if r.2 = 0 then ⟨1, batchEmpty, r.1⟩ else ⟨0, [], r.1⟩

/-! ## `main` -/

/-- What the process finds: the files that can be opened, those that can be created, and its memory. -/
structure World where
  files : Text → Option Text
  creates : Text → Bool
  heap : ∀ n l : ℕ, Buffers n l
  num1 : ℤ

def usageError : Text := ("USAGE: \n\tbadger-fortune -f <file> -n <number> (optionally: -o <output file>) \n" ++
  "\t\t OR \n\tbadger-fortune -f <file> -b <batch file> (optionally: -o <output file>)\n").toList
def flagTypeError : Text := "ERROR: Invalid Flag Types\n".toList
def doubleUsageError1 : Text :=
  "ERROR: You can't specify a specific fortune number in conjunction with batch mode\n".toList
def doubleUsageError2 : Text :=
  "ERROR: You can't use batch mode when specifying a fortune number using -n\n".toList

def fFlag : Text := "-f".toList
def nFlag : Text := "-n".toList
def bFlag : Text := "-b".toList
def oFlag : Text := "-o".toList

/-- The flags that have been seen, and where. -/
structure Flags where
  f : Option ℕ
  n : Option ℕ
  b : Option ℕ
  o : Option ℕ

/-- The loop over the arguments from `argv[i]` on. -/
def scanFlags : (i : ℕ) → Flags → List Text → Except Text Flags
  | _, flags, [] => .ok flags
  | i, flags, arg :: rest =>
    if arg = fFlag then scanFlags (i + 1) { flags with f := some i } rest
    else if arg = nFlag then
      if flags.b.isSome then .error doubleUsageError1
      else scanFlags (i + 1) { flags with n := some i } rest
    else if arg = bFlag then
      if flags.n.isSome then .error doubleUsageError2
      else scanFlags (i + 1) { flags with b := some i } rest
    else if arg = oFlag then scanFlags (i + 1) { flags with o := some i } rest
    else scanFlags (i + 1) flags rest

/-- The process prints a message and ends. -/
def fail (message : Text) : Option Result := some ⟨1, message, []⟩

/-- `main` from the modes on.  The output file is emptied before the batch file is opened. -/
def modes (w : World) (argv : List Text) (flags : Flags) (num0 : ℤ) (fortune : List Text) :
    Option Result :=
  if argv.length = 5 then
    match flags.n, flags.b with
    | some nNum, _ => (argv[nNum + 1]?).bind (numberStdout num0 fortune)
    | none, some bNum =>
      (argv[bNum + 1]?).bind fun name =>
        match w.files name with
        | none => fail "ERROR: Can't open batch file\n".toList
        | some file => batchStdout num0 fortune (getlines file)
    | none, none => some ⟨0, [], []⟩
  else
    match flags.o with
    | none => some ⟨0, [], []⟩
    | some oNum =>
      (argv[oNum + 1]?).bind fun out =>
        if w.creates out then
          match flags.n, flags.b with
          | some nNum, _ => (argv[nNum + 1]?).bind (numberFile num0 fortune)
          | none, some bNum =>
            (argv[bNum + 1]?).bind fun name =>
              match if name = out then some [] else w.files name with
              | none => fail "cannot open file\n".toList
              | some file => batchFile num0 fortune (getlines file)
          | none, none => some ⟨0, [], []⟩
        else fail "cannot open file\n".toList

/-- `none` if the process accesses something outside its objects; the file closes without an error. -/
def main (w : World) (argv : List Text) : Option Result :=
  if argv.length < 5 then fail usageError
  else
    match scanFlags 1 ⟨none, none, none, none⟩ argv.tail with
    | .error message => fail message
    | .ok flags =>
      if flags.n = none ∧ flags.b = none then fail flagTypeError
      else if flags.n.isSome ∧ flags.f = none ∧ flags.b = none ∧ flags.o = none then fail flagTypeError
      else
        match flags.f with
        | none => fail "ERROR: No fortune file was provided\n".toList
        | some fNum =>
          (argv[fNum + 1]?).bind fun name =>
            match w.files name with
            | none => fail "ERROR: Can't open fortune file\n".toList
            | some file =>
              match load w.heap w.num1 file with
              | .error message => fail message
              | .fault => none
              | .fortunes num0 fortune => modes w argv flags num0 fortune

/-- The word behind a flag that was seen at `i`. -/
def wordBehind (argv : List Text) (i : Option ℕ) : Option Text := i.bind fun i => argv[i + 1]?

/-- The arguments have these flags, and ask for batch mode with the fortune file `F` and the batch file `B`. -/
structure AsksBatch (argv : List Text) (flags : Flags) (F B : Text) : Prop where
  scanned : scanFlags 1 ⟨none, none, none, none⟩ argv.tail = .ok flags
  noNumber : flags.n = none
  fortunes : wordBehind argv flags.f = some F
  batch : wordBehind argv flags.b = some B

section

variable {w : World} {argv : List Text} {flags : Flags} {F B O fortuneFile file : Text} {num0 : ℤ}
  {fortune : List Text}

/-- `main` behind the flags, if the fortune file can be read. -/
theorem AsksBatch.main_eq_modes (h : AsksBatch argv flags F B) (hargc : 5 ≤ argv.length)
    (hfile : w.files F = some fortuneFile) (hload : load w.heap w.num1 fortuneFile = .fortunes num0 fortune) :
    main w argv = modes w argv flags num0 fortune := by
  obtain ⟨fNum, hf, hname⟩ := Option.bind_eq_some_iff.1 h.fortunes
  obtain ⟨bNum, hb, -⟩ := Option.bind_eq_some_iff.1 h.batch
  unfold main
  rw [if_neg (by omega), h.scanned]
  simp only [h.noNumber, hb, hf, reduceCtorEq, and_false, if_false, Option.isSome_none,
    Bool.false_eq_true, false_and, hname, Option.bind_some, hfile, hload]

theorem AsksBatch.main_eq_batchStdout (h : AsksBatch argv flags F B) (hargc : argv.length = 5)
    (hfile : w.files F = some fortuneFile) (hload : load w.heap w.num1 fortuneFile = .fortunes num0 fortune)
    (hbatch : w.files B = some file) : main w argv = batchStdout num0 fortune (getlines file) := by
  obtain ⟨bNum, hb, hname⟩ := Option.bind_eq_some_iff.1 h.batch
  rw [h.main_eq_modes hargc.ge hfile hload]
  unfold modes
  rw [if_pos hargc]
  simp only [h.noNumber, hb, hname, Option.bind_some, hbatch]

/-- A batch file that is the output file as well is empty when it is read. -/
theorem AsksBatch.main_eq_batchFile (h : AsksBatch argv flags F B) (hargc : 5 < argv.length)
    (hout : wordBehind argv flags.o = some O) (hfile : w.files F = some fortuneFile)
    (hload : load w.heap w.num1 fortuneFile = .fortunes num0 fortune) (hbatch : w.files B = some file)
    (hcreates : w.creates O = true) :
    main w argv = batchFile num0 fortune (getlines (if B = O then [] else file)) := by
  obtain ⟨bNum, hb, hname⟩ := Option.bind_eq_some_iff.1 h.batch
  obtain ⟨oNum, ho, hnewFile⟩ := Option.bind_eq_some_iff.1 hout
  rw [h.main_eq_modes hargc.le hfile hload]
  unfold modes
  rw [if_neg hargc.ne']
  simp only [h.noNumber, hb, ho, hname, hnewFile, Option.bind_some, if_pos hcreates, hbatch]
  by_cases hBO : B = O
  · rw [if_pos hBO, if_pos hBO]
  · rw [if_neg hBO, if_neg hBO]

end

/-! ## Numbers -/

/-- A line, or the text of an argument, that is a decimal integer. -/
def NumberLine (line : Text) (k : ℤ) : Prop := ∃ T, Decimal T k ∧ (line = T ∨ line = T ++ ['\n'])

theorem asInt_eq_self {k : ℤ} (h0 : 0 ≤ k) (h1 : k ≤ INT_MAX) : asInt k = k := by
  unfold asInt
  have hclamp : max (-9223372036854775808) (min k 9223372036854775807) = k := by
    unfold INT_MAX at h1
    omega
  rw [hclamp, toInt32_eq_self h0 h1]

theorem takeWhile_isDigit_append {digits tail : Text} (h : ∀ c ∈ digits, c.isDigit = true)
    (htail : tail = [] ∨ tail = ['\n']) : (digits ++ tail).takeWhile Char.isDigit = digits := by
  rcases htail with rfl | rfl
  · rw [List.append_nil, takeWhile_isDigit h]
  · rw [List.takeWhile_append_of_pos h]
    simp

/-- `atoi` of a number. -/
theorem atoi_numberLine {line : Text} {k : ℤ} (h : NumberLine line k) : atoi line = asInt k := by
  obtain ⟨T, hT, hline⟩ := h
  obtain ⟨tail, htail, rfl⟩ : ∃ tail : Text, (tail = [] ∨ tail = ['\n']) ∧ line = T ++ tail := by
    rcases hline with rfl | rfl
    · exact ⟨[], Or.inl rfl, (List.append_nil _).symm⟩
    · exact ⟨['\n'], Or.inr rfl, rfl⟩
  cases hT with
  | @unsigned digits hne hdigits =>
    have htake := takeWhile_isDigit_append hdigits htail
    obtain ⟨d, rest, rfl⟩ := List.exists_cons_of_ne_nil hne
    obtain ⟨hspace, hminus, hplus⟩ := isDigit_ne (hdigits d List.mem_cons_self)
    have hdrop : (d :: rest ++ tail).dropWhile isSpace = d :: rest ++ tail := by simp [hspace]
    have hhead : (d :: rest ++ tail).head? = some d := rfl
    simp only [atoi, hdrop, hhead, Option.some.injEq, hminus, hplus, or_self, if_false, htake]
  | @plus digits hne hdigits =>
    have htake := takeWhile_isDigit_append hdigits htail
    have hdrop : ('+' :: digits ++ tail).dropWhile isSpace = '+' :: (digits ++ tail) := rfl
    have hminus : ¬ '+' = '-' := by decide
    simp only [atoi, hdrop, List.head?_cons, Option.some.injEq, hminus, or_true, if_true, if_false,
      List.tail_cons, htake]
  | @minus digits hne hdigits =>
    have htake := takeWhile_isDigit_append hdigits htail
    have hdrop : ('-' :: digits ++ tail).dropWhile isSpace = '-' :: (digits ++ tail) := rfl
    simp only [atoi, hdrop, List.head?_cons, true_or, if_true, List.tail_cons, htake]

/-! ## Which numbers are valid -/

/-- A number in `1..num0` selects its fortune; every other one is reported, and selects none. -/
def Validates (mode : Mode) (num0 : ℤ) (line : Text) (k : ℤ) : Prop :=
  (1 ≤ k ∧ k ≤ num0) ∧ react mode num0 (atoi line) = .select (k - 1) ∨
    ¬ (1 ≤ k ∧ k ≤ num0) ∧
      ∃ message, react mode num0 (atoi line) = .report message ∧ invalidNumber <+: message

/-- The numbers for which a mode does so: those in range, and those that its own check refuses. -/
def Guarded (num0 k : ℤ) : Mode → Prop
  | .numberStdout | .batchStdout => (1 ≤ k ∧ k ≤ num0) ∨ asInt k < 0 ∨ asInt k > num0
  | .numberFile => 1 ≤ k ∧ k ≤ num0
  | .batchFile => (1 ≤ k ∧ k ≤ num0) ∨ asInt k < 1 ∨ asInt k > num0

theorem atoi_le (str : Text) : atoi str ≤ INT_MAX := toInt32_le _

theorem header_num0_le {num1 num0 num1' : ℤ} {lines rest : List Text}
    (h : header num1 lines = some (num0, num1', rest)) : num0 ≤ INT_MAX := by
  rcases lines with _ | ⟨first, _ | ⟨second, lines⟩⟩
  · cases h
  · obtain ⟨rfl, -⟩ := Prod.mk.inj (Option.some.inj h)
    exact atoi_le first
  · obtain ⟨rfl, -⟩ := Prod.mk.inj (Option.some.inj h)
    exact atoi_le first

/-- `num[0]` is an `int`. -/
theorem load_num0_le {heap : ∀ n l : ℕ, Buffers n l} {num1 num0 : ℤ} {file : Text} {fortune : List Text}
    (h : load heap num1 file = .fortunes num0 fortune) : num0 ≤ INT_MAX := by
  unfold load at h
  cases hheader : header num1 (getlines file) with
  | none =>
    rw [hheader] at h
    cases h
  | some parts =>
    obtain ⟨n0, n1, rest⟩ := parts
    simp only [hheader] at h
    split_ifs at h
    cases hloop : recordLoop (heap n0.toNat n1.toNat).cells 0 (rest.drop 1) with
    | none =>
      rw [hloop] at h
      cases h
    | some fortune' =>
      rw [hloop] at h
      obtain ⟨rfl, -⟩ := Loaded.fortunes.inj h
      exact header_num0_le hheader

theorem react_of_inRange (mode : Mode) {num0 i : ℤ} (h0 : 1 ≤ i) (h1 : i ≤ num0) :
    react mode num0 i = .select (i - 1) := by
  cases mode with
  | numberStdout => rw [react, if_neg (by omega)]
  | batchStdout => rw [react, if_neg (by omega)]
  | numberFile => rw [react]
  | batchFile => rw [react, if_neg (by omega)]

/-- A number that a mode reports is one that it does not use. -/
theorem exists_report_iff (mode : Mode) (num0 i : ℤ) :
    (∃ message, react mode num0 i = .report message ∧ invalidNumber <+: message) ↔
      match mode with
      | .numberStdout | .batchStdout => i < 0 ∨ i > num0
      | .numberFile => False
      | .batchFile => i < 1 ∨ i > num0 := by
  cases mode with
  | numberStdout =>
    simp only [react]
    split_ifs with hi
    · exact iff_of_true ⟨_, rfl, List.prefix_refl _⟩ hi
    · exact iff_of_false (fun ⟨_, h, _⟩ => by cases h) hi
  | batchStdout =>
    simp only [react]
    split_ifs with hi
    · exact iff_of_true ⟨_, rfl, List.prefix_append _ _⟩ hi
    · exact iff_of_false (fun ⟨_, h, _⟩ => by cases h) hi
  | numberFile => exact iff_of_false (fun ⟨_, h, _⟩ => by cases h) id
  | batchFile =>
    simp only [react]
    split_ifs with hi
    · exact iff_of_true ⟨_, rfl, List.prefix_append _ _⟩ (by omega)
    · exact iff_of_false (fun ⟨_, h, _⟩ => by cases h) (by omega)

/-- For every fortune file, every mode and every integer: it is validated as the range of the fortunes says if
and only if it is in range or refused by the mode's own check, which lets 0 pass to `stdout`, and everything
in the mode for one number and a file. -/
theorem validates_iff (mode : Mode) {heap : ∀ n l : ℕ, Buffers n l} {num1 num0 : ℤ} {file : Text}
    {fortune : List Text} (hload : load heap num1 file = .fortunes num0 fortune) {line : Text} {k : ℤ}
    (h : NumberLine line k) : Validates mode num0 line k ↔ Guarded num0 k mode := by
  have hint := load_num0_le hload
  unfold Validates
  rw [atoi_numberLine h]
  by_cases hrange : 1 ≤ k ∧ k ≤ num0
  · rw [asInt_eq_self (by omega) (Int.le_trans hrange.2 hint)]
    refine iff_of_true (Or.inl ⟨hrange, react_of_inRange mode hrange.1 hrange.2⟩) ?_
    cases mode with
    | numberStdout => exact Or.inl hrange
    | batchStdout => exact Or.inl hrange
    | numberFile => exact hrange
    | batchFile => exact Or.inl hrange
  · rw [exists_report_iff]
    unfold Guarded
    cases mode with
    | numberStdout => simp only [hrange, false_and, false_or, not_false_eq_true, true_and]
    | batchStdout => simp only [hrange, false_and, false_or, not_false_eq_true, true_and]
    | numberFile => simp only [hrange, false_and, false_or, and_false]
    | batchFile => simp only [hrange, false_and, false_or, not_false_eq_true, true_and]

/-- A file with one fortune. -/
def oneFortune : Text := "1\n9\n%\nab\n".toList

/-- Its buffer, if that was full of zeros. -/
def oneBuffer : Text := "ab\n".toList ++ List.replicate 6 '\x00'

theorem load_oneFortune : load zeros 0 oneFortune = .fortunes 1 [oneBuffer] := by decide

theorem numberLine_digit {c : Char} (hc : c.isDigit = true) :
    NumberLine [c] (natOf [c]) ∧ NumberLine [c, '\n'] (natOf [c]) := by
  have hdigits : ∀ d ∈ [c], d.isDigit = true := by
    intro d hd
    rw [List.mem_singleton.1 hd]
    exact hc
  have hdecimal : Decimal [c] (natOf [c]) := .unsigned (List.cons_ne_nil c []) hdigits
  exact ⟨⟨[c], hdecimal, Or.inl rfl⟩, ⟨[c], hdecimal, Or.inr rfl⟩⟩

theorem validates_iff_one : load zeros 0 oneFortune = .fortunes 1 [oneBuffer] ∧
    NumberLine ['1', '\n'] 1 ∧
      (Validates .batchFile 1 ['1', '\n'] 1 ↔ Guarded 1 1 .batchFile) :=
  ⟨load_oneFortune, (numberLine_digit rfl).2,
    validates_iff .batchFile load_oneFortune (numberLine_digit rfl).2⟩

/-- With one fortune, 0 selects `fortune[-1]` on `stdout`, and 2 selects `fortune[1]` for a file. -/
theorem not_validates_zero : load zeros 0 oneFortune = .fortunes 1 [oneBuffer] ∧
    (NumberLine ['0', '\n'] 0 ∧ ¬ Validates .batchStdout 1 ['0', '\n'] 0) ∧
      NumberLine ['2'] 2 ∧ ¬ Validates .numberFile 1 ['2'] 2 := by
  refine ⟨load_oneFortune, ⟨(numberLine_digit rfl).2, ?_⟩, (numberLine_digit rfl).1, ?_⟩
  · rintro (⟨hrange, -⟩ | ⟨-, message, hreport, -⟩)
    · exact absurd hrange (by decide)
    · have hselect : react .batchStdout 1 (atoi ['0', '\n']) = .select (-1) := by decide
      rw [hselect] at hreport
      cases hreport
  · rintro (⟨hrange, -⟩ | ⟨-, message, hreport, -⟩)
    · exact absurd hrange (by decide)
    · have hselect : react .numberFile 1 (atoi ['2']) = .select 1 := by decide
      rw [hselect] at hreport
      cases hreport

/-! ## Batch files -/

def InRange (num0 i : ℤ) : Prop := 1 ≤ i ∧ i ≤ num0

/-- A batch file of numbers in range or too large, with one in range. -/
structure BatchFile (num0 : ℤ) (file : Text) : Prop where
  numbers : ∀ line ∈ getlines file, ∃ k, NumberLine line k ∧ 1 ≤ k
  valid : ∃ line ∈ getlines file, ∃ k, NumberLine line k ∧ InRange num0 k

/-- With `argv'` the output file gets what `stdout` gets with `argv`. -/
def SameOutput (w : World) (argv argv' : List Text) : Prop :=
  ∃ out, main w argv = some ⟨0, out, []⟩ ∧ main w argv' = some ⟨0, [], out⟩

/-- No number becomes 0, each that is in range selects a string, and the last line has its newline if its
number is in range. -/
structure Agrees (num0 : ℤ) (fortune lines : List Text) : Prop where
  nonzero : ∀ line ∈ lines, atoi line ≠ 0
  stored : ∀ line ∈ lines, InRange num0 (atoi line) → ∃ s, stringAt fortune (atoi line - 1).toNat = some s
  ended : ∀ line, lines.getLast? = some line → InRange num0 (atoi line) → line.getLast? = some '\n'

theorem getlines_newline (file : Text) : ∀ line ∈ (getlines file).dropLast, line.getLast? = some '\n' := by
  induction file with
  | nil => exact fun _ h => absurd h List.not_mem_nil
  | cons c file ih =>
    rw [getlines]
    cases hlines : getlines file with
    | nil =>
      split_ifs
      · exact fun _ h => absurd h List.not_mem_nil
      · exact fun _ h => absurd h List.not_mem_nil
    | cons l ls =>
      rw [hlines] at ih
      split_ifs with hc
      · rw [List.dropLast_cons_of_ne_nil (List.cons_ne_nil l ls), List.forall_mem_cons]
        exact ⟨congrArg some hc, ih⟩
      · cases ls with
        | nil => exact fun _ h => absurd h List.not_mem_nil
        | cons l' ls =>
          have hne := List.cons_ne_nil l' ls
          simp only [List.dropLast_cons_of_ne_nil hne, List.forall_mem_cons] at ih ⊢
          refine ⟨?_, ih.2⟩
          rw [List.getLast?_cons, ih.1]
          rfl

/-- A line with a number is a string that is not empty. -/
theorem NumberLine.ne_nil {line : Text} {k : ℤ} (h : NumberLine line k) : line ≠ [] := by
  obtain ⟨T, hT, hline⟩ := h
  have hne : T ≠ [] := by
    cases hT with
    | unsigned hne _ => exact hne
    | plus _ _ => exact List.cons_ne_nil _ _
    | minus _ _ => exact List.cons_ne_nil _ _
  rcases hline with rfl | rfl
  · exact hne
  · exact List.append_ne_nil_of_left_ne_nil hne _

theorem NumberLine.noNul {line : Text} {k : ℤ} (h : NumberLine line k) : '\x00' ∉ line := by
  obtain ⟨T, hT, hline⟩ := h
  have hdigits : ∀ digits : Text, (∀ c ∈ digits, c.isDigit = true) → '\x00' ∉ digits :=
    fun digits h hmem => absurd (h _ hmem) (by decide)
  have hnul : '\x00' ∉ T := by
    cases hT with
    | unsigned _ h => exact hdigits _ h
    | plus _ h =>
      rw [List.mem_cons, not_or]
      exact ⟨by decide, hdigits _ h⟩
    | minus _ h =>
      rw [List.mem_cons, not_or]
      exact ⟨by decide, hdigits _ h⟩
  rcases hline with rfl | rfl
  · exact hnul
  · rw [List.mem_append, not_or]
    exact ⟨hnul, by decide⟩

theorem endsLine_eq {line : Text} (hnul : '\x00' ∉ line) (hne : line ≠ []) :
    endsLine line = some (decide (line.getLast? = some '\n')) := by
  unfold endsLine
  rw [text_eq_self hnul, List.getLast?_eq_some_getLast hne, Option.map_some]
  simp only [Option.some.injEq]

/-! ## The loop over a batch file -/

section

variable {mode : Mode} {last : List Text → ℤ → Text → Option (Text × List Text)} {num0 : ℤ}
  {fortune : List Text} {line : Text} {lines : List Text}

theorem batchLoop_report {message : Text} (h : react mode num0 (atoi line) = .report message) :
    batchLoop mode last num0 fortune (line :: lines) =
      (batchLoop mode last num0 fortune lines).map fun r => (message ++ r.1, r.2) := by
  rw [batchLoop, h]

/-- A line with a newline whose number is in range. -/
theorem batchLoop_select {s : Text} (hnul : '\x00' ∉ line) (hend : line.getLast? = some '\n')
    (h : InRange num0 (atoi line)) (hs : stringAt fortune (atoi line - 1).toNat = some s) :
    batchLoop mode last num0 fortune (line :: lines) =
      (batchLoop mode last num0 fortune lines).map fun r => (s ++ "\n\n".toList ++ r.1, r.2 + 1) := by
  have hne : line ≠ [] := by
    rintro rfl
    cases hend
  have hindex : ¬ atoi line - 1 < 0 := by
    have := h.1
    omega
  rw [batchLoop, react_of_inRange mode h.1 h.2]
  simp only [endsLine_eq hnul hne, hend, fortuneAt, if_neg hindex, hs, Option.bind_some, decide_true,
    if_true]

/-- A line without one. -/
theorem batchLoop_last {s : Text} (hnul : '\x00' ∉ line) (hne : line ≠ [])
    (hend : line.getLast? ≠ some '\n') (h : InRange num0 (atoi line))
    (hs : stringAt fortune (atoi line - 1).toNat = some s) :
    batchLoop mode last num0 fortune [line] =
      (last fortune (atoi line - 1) s).map fun p => (p.1, 1) := by
  have hindex : ¬ atoi line - 1 < 0 := by
    have := h.1
    omega
  rw [batchLoop, react_of_inRange mode h.1 h.2]
  simp only [endsLine_eq hnul hne, hend, fortuneAt, if_neg hindex, hs, Option.bind_some, decide_false,
    Bool.false_eq_true, if_false, batchLoop, Option.map_some, List.append_nil, Nat.zero_add]
  cases last fortune (atoi line - 1) s with
  | none => rfl
  | some p => rfl

/-- A number in range whose buffer has no string. -/
theorem batchLoop_eq_none (h : InRange num0 (atoi line))
    (hs : stringAt fortune (atoi line - 1).toNat = none) :
    batchLoop mode last num0 fortune (line :: lines) = none := by
  rw [batchLoop, react_of_inRange mode h.1 h.2]
  simp only [fortuneAt, hs, ite_self, Option.bind_none, Option.bind_fun_none]

/-- A number that is selected is counted. -/
theorem batchCounter_pos {r : Text × ℕ} (h : batchLoop mode last num0 fortune lines = some r)
    (hvalid : ∃ line ∈ lines, InRange num0 (atoi line)) : 0 < r.2 := by
  induction lines generalizing fortune r with
  | nil =>
    obtain ⟨line, hline, -⟩ := hvalid
    cases hline
  | cons line lines ih =>
    rw [batchLoop] at h
    cases hreact : react mode num0 (atoi line) with
    | report message =>
      rw [hreact] at h
      obtain ⟨r', hr', rfl⟩ := Option.map_eq_some_iff.1 h
      obtain ⟨line', hline', hrange⟩ := hvalid
      rcases List.mem_cons.1 hline' with rfl | hline'
      · rw [react_of_inRange mode hrange.1 hrange.2] at hreact
        cases hreact
      · have hpos : 0 < r'.2 := ih hr' ⟨line', hline', hrange⟩
        exact hpos
    | select i =>
      rw [hreact] at h
      obtain ⟨newline, -, h⟩ := Option.bind_eq_some_iff.1 h
      obtain ⟨s, -, h⟩ := Option.bind_eq_some_iff.1 h
      split_ifs at h
      · obtain ⟨r', -, rfl⟩ := Option.map_eq_some_iff.1 h
        exact Nat.succ_pos _
      · obtain ⟨p, -, h⟩ := Option.bind_eq_some_iff.1 h
        obtain ⟨r', -, rfl⟩ := Option.map_eq_some_iff.1 h
        exact Nat.succ_pos _

end

/-! ## When both destinations get the same -/

section

variable {num0 : ℤ} {fortune : List Text} {line : Text} {lines : List Text}

/-- On `stdout` the last fortune comes out shorter than it is. -/
theorem length_lastStdout_lt {i : ℤ} {s : Text} {p : Text × List Text}
    (hs : stringAt fortune i.toNat = some s) (h : lastStdout fortune i s = some p) :
    p.1.length < s.length := by
  unfold lastStdout at h
  obtain ⟨fortune', hcut, h⟩ := Option.bind_eq_some_iff.1 h
  obtain ⟨s', hs', rfl⟩ := Option.map_eq_some_iff.1 h
  unfold cutAt at hcut
  split_ifs at hcut with hneg
  obtain ⟨b, hb, rfl⟩ := Option.map_eq_some_iff.1 hcut
  have hread : read b = some s := by
    rw [stringAt, hb, Option.bind_some] at hs
    exact hs
  have hlt : ((s.length : ℤ) - 2).toNat < s.length := by omega
  have hi : i.toNat < fortune.length := (List.getElem?_eq_some_iff.1 hb).1
  unfold fortuneAt at hs'
  split_ifs at hs'
  rw [stringAt, List.getElem?_set_self hi, Option.bind_some, read_set_nul hread hlt] at hs'
  obtain rfl := Option.some.inj hs'
  rw [List.length_take]
  omega

/-- Both loops come to their end, and have written the same. -/
def SameLoop (num0 : ℤ) (fortune lines : List Text) : Prop :=
  ∃ r r', batchLoop .batchStdout lastStdout num0 fortune lines = some r ∧
    batchLoop .batchFile lastFile num0 fortune lines = some r' ∧ r.1 = r'.1

/-- A line for which both loops write the same and go on. -/
theorem sameLoop_cons {out : Text} {n : ℕ}
    (hstdout : batchLoop .batchStdout lastStdout num0 fortune (line :: lines) =
      (batchLoop .batchStdout lastStdout num0 fortune lines).map fun r => (out ++ r.1, r.2 + n))
    (hfile : batchLoop .batchFile lastFile num0 fortune (line :: lines) =
      (batchLoop .batchFile lastFile num0 fortune lines).map fun r => (out ++ r.1, r.2 + n)) :
    SameLoop num0 fortune (line :: lines) ↔ SameLoop num0 fortune lines := by
  unfold SameLoop
  rw [hstdout, hfile]
  constructor
  · rintro ⟨r, r', hr, hr', heq⟩
    obtain ⟨q, hq, rfl⟩ := Option.map_eq_some_iff.1 hr
    obtain ⟨q', hq', rfl⟩ := Option.map_eq_some_iff.1 hr'
    exact ⟨q, q', hq, hq', List.append_cancel_left heq⟩
  · rintro ⟨q, q', hq, hq', heq⟩
    rw [hq, hq']
    exact ⟨_, _, rfl, rfl, congrArg (out ++ ·) heq⟩

theorem agrees_cons (hended : lines = [] → InRange num0 (atoi line) → line.getLast? = some '\n')
    (hnonzero : atoi line ≠ 0)
    (hstored : InRange num0 (atoi line) → ∃ s, stringAt fortune (atoi line - 1).toNat = some s) :
    Agrees num0 fortune (line :: lines) ↔ Agrees num0 fortune lines := by
  constructor
  · intro h
    refine ⟨fun l hl => h.nonzero l (List.mem_cons_of_mem line hl),
      fun l hl => h.stored l (List.mem_cons_of_mem line hl), fun l hl => h.ended l ?_⟩
    rw [List.getLast?_cons, hl]
    rfl
  · intro h
    refine ⟨List.forall_mem_cons.2 ⟨hnonzero, h.nonzero⟩, List.forall_mem_cons.2 ⟨hstored, h.stored⟩,
      fun l hl => ?_⟩
    cases lines with
    | nil =>
      obtain rfl := Option.some.inj hl
      exact hended rfl
    | cons l' lines =>
      rw [List.getLast?_cons_cons] at hl
      exact h.ended l hl

/-- On `stdout` 0 is not refused, and there is no `fortune[-1]`. -/
theorem not_sameLoop_zero (h0 : 0 ≤ num0) (hzero : atoi line = 0) :
    ¬ SameLoop num0 fortune (line :: lines) := by
  rintro ⟨r, -, hr, -⟩
  have hreact : react .batchStdout num0 (atoi line) = .select (-1) := by
    rw [hzero, react, if_neg (by omega)]
    rfl
  rw [batchLoop, hreact] at hr
  simp [fortuneAt] at hr

/-- A last line without a newline: on `stdout` its fortune is cut. -/
theorem not_sameLoop_last {s : Text} (hnul : '\x00' ∉ line) (hne : line ≠ [])
    (hend : line.getLast? ≠ some '\n') (h : InRange num0 (atoi line))
    (hs : stringAt fortune (atoi line - 1).toNat = some s) : ¬ SameLoop num0 fortune [line] := by
  rintro ⟨r, r', hr, hr', heq⟩
  rw [batchLoop_last hnul hne hend h hs] at hr hr'
  obtain ⟨p, hp, rfl⟩ := Option.map_eq_some_iff.1 hr
  obtain ⟨p', hp', rfl⟩ := Option.map_eq_some_iff.1 hr'
  obtain rfl := Option.some.inj hp'
  have hlt := length_lastStdout_lt hs hp
  rw [show p.1 = s from heq] at hlt
  exact Nat.lt_irrefl _ hlt

/-- For lines that are not empty, and of which all but the last one have their newline. -/
theorem sameLoop_iff (h0 : 0 ≤ num0) (hlines : ∀ line ∈ lines, '\x00' ∉ line ∧ line ≠ [])
    (hnewline : ∀ line ∈ lines.dropLast, line.getLast? = some '\n') :
    SameLoop num0 fortune lines ↔ Agrees num0 fortune lines := by
  induction lines with
  | nil =>
    refine iff_of_true ⟨_, _, rfl, rfl, rfl⟩ ⟨fun _ h => absurd h List.not_mem_nil,
      fun _ h => absurd h List.not_mem_nil, fun _ h => by cases h⟩
  | cons line lines ih =>
    rw [List.forall_mem_cons] at hlines
    obtain ⟨⟨hnul, hne⟩, hlines⟩ := hlines
    have hrest : ∀ line ∈ lines.dropLast, line.getLast? = some '\n' := by
      cases lines with
      | nil => exact fun _ h => absurd h List.not_mem_nil
      | cons l lines =>
        rw [List.dropLast_cons_of_ne_nil (List.cons_ne_nil l lines), List.forall_mem_cons] at hnewline
        exact hnewline.2
    have ih := ih hlines hrest
    by_cases hzero : atoi line = 0
    · exact iff_of_false (not_sameLoop_zero h0 hzero) fun h => h.nonzero line List.mem_cons_self hzero
    by_cases hrange : InRange num0 (atoi line)
    · cases hs : stringAt fortune (atoi line - 1).toNat with
      | none =>
        refine iff_of_false ?_ fun h => ?_
        · rintro ⟨r, -, hr, -⟩
          rw [batchLoop_eq_none hrange hs] at hr
          cases hr
        · obtain ⟨s, hs'⟩ := h.stored line List.mem_cons_self hrange
          rw [hs] at hs'
          cases hs'
      | some s =>
        by_cases hend : line.getLast? = some '\n'
        · rw [sameLoop_cons (batchLoop_select hnul hend hrange hs) (batchLoop_select hnul hend hrange hs), ih,
            agrees_cons (fun _ _ => hend) hzero fun _ => ⟨s, hs⟩]
        · obtain rfl : lines = [] := by
            by_contra hmore
            rw [List.dropLast_cons_of_ne_nil hmore, List.forall_mem_cons] at hnewline
            exact hend hnewline.1
          exact iff_of_false (not_sameLoop_last hnul hne hend hrange hs)
            fun h => hend (h.ended line rfl hrange)
    · have hout : atoi line < 0 ∨ atoi line > num0 := by
        unfold InRange at hrange
        omega
      have hstdout : react .batchStdout num0 (atoi line) = .report (invalidNumber ++ "\n".toList) := by
        rw [react, if_pos hout]
      have hfile : react .batchFile num0 (atoi line) = .report (invalidNumber ++ "\n".toList) := by
        rw [react, if_pos (by omega)]
      rw [sameLoop_cons (n := 0) (batchLoop_report hstdout) (batchLoop_report hfile), ih,
        agrees_cons (fun _ h => absurd h hrange) hzero fun h => absurd h hrange]

end

/-- The modes write the same where their loops do, if a number of the file is in range. -/
theorem sameModes_iff {num1 : ℤ} {heap : ∀ n l : ℕ, Buffers n l} {num0 : ℤ} {fortuneFile file : Text}
    {fortune : List Text} (hload : load heap num1 fortuneFile = .fortunes num0 fortune)
    (h : BatchFile num0 file) :
    (∃ out, batchStdout num0 fortune (getlines file) = some ⟨0, out, []⟩ ∧
      batchFile num0 fortune (getlines file) = some ⟨0, [], out⟩) ↔ Agrees num0 fortune (getlines file) := by
  obtain ⟨line, hline, k, hk, hrange⟩ := h.valid
  have hint := load_num0_le hload
  have hvalid : ∃ line ∈ getlines file, InRange num0 (atoi line) := by
    refine ⟨line, hline, ?_⟩
    rw [atoi_numberLine hk, asInt_eq_self (by have := hrange.1; omega) (Int.le_trans hrange.2 hint)]
    exact hrange
  have h0 : 0 ≤ num0 := by
    have := hrange.1
    have := hrange.2
    omega
  have hlines : ∀ line ∈ getlines file, '\x00' ∉ line ∧ line ≠ [] := by
    intro line hline
    obtain ⟨k, hk, -⟩ := h.numbers line hline
    exact ⟨hk.noNul, hk.ne_nil⟩
  rw [← sameLoop_iff h0 hlines (getlines_newline file)]
  unfold SameLoop batchStdout batchFile
  constructor
  · rintro ⟨out, hstdout, hfile⟩
    obtain ⟨r, hr, hout⟩ := Option.map_eq_some_iff.1 hstdout
    obtain ⟨r', hr', hout'⟩ := Option.map_eq_some_iff.1 hfile
    rw [if_neg (batchCounter_pos hr hvalid).ne', Result.mk.injEq] at hout
    rw [if_neg (batchCounter_pos hr' hvalid).ne', Result.mk.injEq] at hout'
    exact ⟨r, r', hr, hr', hout.2.1.trans hout'.2.2.symm⟩
  · rintro ⟨r, r', hr, hr', heq⟩
    refine ⟨r.1, ?_, ?_⟩
    · rw [hr, Option.map_some, if_neg (batchCounter_pos hr hvalid).ne']
    · rw [hr', Option.map_some, if_neg (batchCounter_pos hr' hvalid).ne', heq]

/-- For every fortune file, every batch file and all arguments that ask for batch mode, once without and once
with an output file: both destinations get the same if and only if the output file is not the batch file, no
number of the batch file becomes 0 as an `int`, every fortune it selects is a string in its buffer, and its
last line has a newline or a number that is not in range. -/
theorem sameOutput_iff {w : World} {argv argv' : List Text} {flags flags' : Flags}
    {F B O fortuneFile file : Text} {num0 : ℤ} {fortune : List Text}
    (hargs : AsksBatch argv flags F B) (hargc : argv.length = 5)
    (hargs' : AsksBatch argv' flags' F B) (hargc' : 5 < argv'.length)
    (hout : wordBehind argv' flags'.o = some O) (hfile : w.files F = some fortuneFile)
    (hload : load w.heap w.num1 fortuneFile = .fortunes num0 fortune) (hbatch : w.files B = some file)
    (hcreates : w.creates O = true) (h : BatchFile num0 file) :
    SameOutput w argv argv' ↔ B ≠ O ∧ Agrees num0 fortune (getlines file) := by
  unfold SameOutput
  rw [hargs.main_eq_batchStdout hargc hfile hload hbatch,
    hargs'.main_eq_batchFile hargc' hout hfile hload hbatch hcreates]
  by_cases hBO : B = O
  · refine iff_of_false ?_ fun hne => hne.1 hBO
    rintro ⟨out, -, hempty⟩
    rw [if_pos hBO, show batchFile num0 fortune (getlines []) = some ⟨1, batchEmpty, []⟩ from rfl] at hempty
    cases hempty
  · rw [if_neg hBO, sameModes_iff hload h]
    exact (and_iff_right hBO).symm

/-- A process that finds the file with one fortune as `f`, and `file` as `b`. -/
def oneWorld (file : Text) : World where
  files name := if name = ['f'] then some oneFortune else if name = ['b'] then some file else none
  creates _ := true
  heap := zeros
  num1 := 0

/-- The arguments for batch mode without an output file, and with the output file `o`. -/
def stdoutArgs : List Text := [['p'], fFlag, ['f'], bFlag, ['b']]
def fileArgs : List Text := stdoutArgs ++ [oFlag, ['o']]

theorem asksBatch_stdoutArgs : AsksBatch stdoutArgs ⟨some 1, none, some 3, none⟩ ['f'] ['b'] :=
  ⟨by rfl, rfl, rfl, rfl⟩

theorem asksBatch_fileArgs : AsksBatch fileArgs ⟨some 1, none, some 3, some 5⟩ ['f'] ['b'] :=
  ⟨by rfl, rfl, rfl, rfl⟩

/-- With one fortune: 7 is reported to both, and 1 is selected before and behind it. -/
theorem sameOutput_sevenBetweenOnes :
    BatchFile 1 "1\n7\n1\n".toList ∧ SameOutput (oneWorld "1\n7\n1\n".toList) stdoutArgs fileArgs := by
  have hlines : getlines "1\n7\n1\n".toList = [['1', '\n'], ['7', '\n'], ['1', '\n']] := by decide
  have hone : NumberLine ['1', '\n'] 1 := (numberLine_digit rfl).2
  have hseven : NumberLine ['7', '\n'] 7 := (numberLine_digit rfl).2
  have hfile : BatchFile 1 "1\n7\n1\n".toList := by
    refine ⟨?_, ['1', '\n'], by rw [hlines]; simp, 1, hone, by decide, by decide⟩
    rw [hlines]
    simp only [List.forall_mem_cons, List.not_mem_nil, false_implies, implies_true, and_true]
    exact ⟨⟨1, hone, by decide⟩, ⟨7, hseven, by decide⟩, 1, hone, by decide⟩
  refine ⟨hfile, (sameOutput_iff asksBatch_stdoutArgs rfl asksBatch_fileArgs (by decide) rfl rfl
    load_oneFortune rfl rfl hfile).2 ⟨by decide, ?_⟩⟩
  rw [hlines]
  refine ⟨by decide, fun line _ hrange => ⟨"ab\n".toList, ?_⟩, ?_⟩
  · rw [show atoi line - 1 = 0 by have := hrange.1; have := hrange.2; omega]
    decide
  · rintro line hlast -
    obtain rfl := Option.some.inj hlast
    rfl

/-- For a batch file of `1` without a newline, `stdout` gets `a` and a file gets `ab` with its newline. -/
theorem not_sameOutput_one : BatchFile 1 ['1'] ∧ ¬ SameOutput (oneWorld ['1']) stdoutArgs fileArgs := by
  have hone : NumberLine ['1'] 1 := (numberLine_digit rfl).1
  have hfile : BatchFile 1 ['1'] := by
    refine ⟨?_, ['1'], by decide, 1, hone, by decide, by decide⟩
    intro line hline
    rw [show getlines ['1'] = [['1']] by decide, List.mem_singleton] at hline
    rw [hline]
    exact ⟨1, hone, by decide⟩
  refine ⟨hfile, ?_⟩
  rintro ⟨out, hstdout, hwhole⟩
  have hcut : main (oneWorld ['1']) stdoutArgs = some ⟨0, "a".toList, []⟩ := by decide
  have hall : main (oneWorld ['1']) fileArgs = some ⟨0, [], "ab\n".toList⟩ := by decide
  rw [hcut] at hstdout
  rw [hall] at hwhole
  obtain rfl := (Result.mk.inj (Option.some.inj hstdout)).2.1
  have hsame := (Result.mk.inj (Option.some.inj hwhole)).2.2
  exact absurd hsame (by decide)

end SystemsProjects.Fortune
