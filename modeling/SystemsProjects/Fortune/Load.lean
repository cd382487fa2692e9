import SystemsProjects.Lib.CString
import SystemsProjects.Smash.Loop

/-!
# Loading a fortune file

The part of `main` in `P1/badger_fortune.c` that reads a fortune file: two numbers, then records between
lines with a `%`.  The buffers come from `malloc`, and every line is appended with `strcat` to what its
buffer holds.  `loads_iff` says for which files and contents of the buffers every record is stored.
-/

namespace SystemsProjects.Fortune

open MachineInt CString Smash

/-! ## The source -/

/-- What the calls of `getline` return one after the other, each line with its newline. -/
def getlines : Text → List Text
  | [] => []
  | c :: file =>
    if c = '\n' then [c] :: getlines file
    else
      match getlines file with
      | [] => [[c]]
      | line :: lines => (c :: line) :: lines

/-- The `int` that a number becomes: `strtol` stops at the range of a `long`, and `atoi` cuts off the upper
half. -/
def asInt (val : ℤ) : ℤ := toInt32 (max (-9223372036854775808) (min val 9223372036854775807))

def atoi (str : Text) : ℤ :=
  let str := str.dropWhile isSpace
  let negative := str.head? = some '-'
  let digits := (if negative ∨ str.head? = some '+' then str.tail else str).takeWhile Char.isDigit
  asInt (if negative then -natOf digits else natOf digits)

/-- `num[0]`, `num[1]` and the lines behind the first two; `none` if there is no line.  With only one,
`num[1]` stays what it was. -/
def header (num1 : ℤ) : List Text → Option (ℤ × ℤ × List Text)
  | [] => none
  | [first] => some (atoi first, num1, [])
  | first :: second :: rest => some (atoi first, atoi second, rest)

/-- `n` buffers of `l` bytes, as `malloc` returns them. -/
structure Buffers (n l : ℕ) where
  cells : List Text
  count : cells.length = n
  size : ∀ b ∈ cells, b.length = l

def delim : Text := "%\n".toList

/-- `strcat(fortune[i], buf)` -/
def strcatAt (fortune : List Text) (i : ℕ) (buf : Text) : Option (List Text) :=
  (fortune[i]?).bind fun b => (strcat b buf).map fun b' => fortune.set i b'

/-- The loop over the lines behind the first `%`; `none` if it writes outside a buffer. -/
def recordLoop (fortune : List Text) (numFortune : ℕ) : List Text → Option (List Text)
  | [] => some fortune
  | buf :: rest =>
    if text buf = delim then recordLoop fortune (numFortune + 1) rest
    else (strcatAt fortune numFortune buf).bind fun fortune => recordLoop fortune numFortune rest

/-- What `main` comes to when it has read the fortune file. -/
inductive Loaded where
  /-- It ends with this message. -/
  | error (message : Text)
  /-- It has accessed something outside the buffers. -/
  | fault
  | fortunes (num0 : ℤ) (fortune : List Text)
  deriving DecidableEq

/-- `malloc` fails for a negative size; `num1` is what `num[1]` holds before it is read. -/
def load (heap : ∀ n l : ℕ, Buffers n l) (num1 : ℤ) (file : Text) : Loaded :=
  match header num1 (getlines file) with
  | none => .error "ERROR: Fortune File Empty\n".toList
  | some (num0, num1, rest) =>
    if num0 < 0 ∨ 0 < num0 ∧ num1 < 0 then .error "array not allocated".toList
    else
      match recordLoop (heap num0.toNat num1.toNat).cells 0 (rest.drop 1) with
      | none => .fault
      | some fortune => .fortunes num0 fortune

/-! ## Fortune files -/

/-- A line with a `%` only. -/
def IsPercent (line : Text) : Prop := line = "%\n".toList ∨ line = "%".toList

/-- The lines consist of these records, with a `%` line between one and the next. -/
inductive Body : List Text → List (List Text) → Prop
  | nil : Body [] [[]]
  | line {l : Text} {lines r : List Text} {rs : List (List Text)} : ¬ IsPercent l → Body lines (r :: rs) →
      Body (l :: lines) ((l :: r) :: rs)
  | percent {l : Text} {lines : List Text} {rs : List (List Text)} : IsPercent l → Body lines rs →
      Body (l :: lines) ([] :: rs)

/-- A file whose header states `n` records of at most `l` bytes, and that has at most so many and so long
ones. -/
structure FortuneFile where
  n : ℕ
  l : ℕ
  file : Text
  first : Text
  second : Text
  percent : Text
  body : List Text
  records : List (List Text)
  lines : getlines file = first :: second :: percent :: body
  first_eq : atoi first = n
  second_eq : atoi second = l
  isPercent : IsPercent percent
  body_eq : body = [] ∧ records = [] ∨ Body body records
  count : records.length ≤ n
  size : ∀ r ∈ records, r.flatten.length ≤ l

/-- The string `fortune[i]`. -/
def stringAt (fortune : List Text) (i : ℕ) : Option Text := (fortune[i]?).bind read

/-- The file is read without a write outside the buffers, and every record is stored in its own. -/
def FortuneFile.Loads (f : FortuneFile) (heap : ∀ n l : ℕ, Buffers n l) (num1 : ℤ) : Prop :=
  ∃ fortune, load heap num1 f.file = .fortunes f.n fortune ∧
    ∀ k r, f.records[k]? = some r → stringAt fortune k = some r.flatten

/-- A buffer can take its record: it begins with a `NUL`, and has room for the text, which has no `NUL`, and
its terminator. -/
structure Ready (b : Option Text) (l : ℕ) (r : List Text) : Prop where
  zeroed : b.bind List.head? = some '\x00'
  room : r.flatten.length < l
  noNul : '\x00' ∉ r.flatten

/-! ## One line -/

variable {fortune fortune' : List Text} {l : ℕ}

theorem stringAt_eq_nil_iff {i : ℕ} :
    stringAt fortune i = some [] ↔ (fortune[i]?).bind List.head? = some '\x00' := by
  unfold stringAt
  cases fortune[i]? with
  | none => exact iff_of_false (fun h => by cases h) (fun h => by cases h)
  | some b => exact read_eq_nil_iff

/-- A line that is appended leaves the other buffers alone. -/
theorem stringAt_strcatAt {i : ℕ} {buf : Text} (h : strcatAt fortune i buf = some fortune') :
    (∃ t, stringAt fortune i = some t ∧ stringAt fortune' i = some (t ++ text buf)) ∧
      ∀ k, k ≠ i → stringAt fortune' k = stringAt fortune k := by
  unfold strcatAt at h
  obtain ⟨b, hb, h⟩ := Option.bind_eq_some_iff.1 h
  obtain ⟨b', hcat, rfl⟩ := Option.map_eq_some_iff.1 h
  obtain ⟨t, ht, ht', -⟩ := read_strcat hcat
  have hlt : i < fortune.length := (List.getElem?_eq_some_iff.1 hb).1
  refine ⟨⟨t, ?_, ?_⟩, fun k hk => ?_⟩
  · rw [stringAt, hb, Option.bind_some, ht]
  · rw [stringAt, List.getElem?_set_self hlt, Option.bind_some, ht']
  · rw [stringAt, stringAt, List.getElem?_set_ne (Ne.symm hk)]

theorem stringAt_strcatAt_self {i : ℕ} {buf old : Text} (h : strcatAt fortune i buf = some fortune')
    (hold : stringAt fortune i = some old) : stringAt fortune' i = some (old ++ text buf) := by
  obtain ⟨t, ht, ht'⟩ := (stringAt_strcatAt h).1
  obtain rfl := Option.some.inj (ht.symm.trans hold)
  exact ht'

theorem strcatAt_size {i : ℕ} {buf : Text} (h : strcatAt fortune i buf = some fortune')
    (hsize : ∀ b ∈ fortune, b.length = l) : ∀ b ∈ fortune', b.length = l := by
  unfold strcatAt at h
  obtain ⟨b, hb, h⟩ := Option.bind_eq_some_iff.1 h
  obtain ⟨b', hcat, rfl⟩ := Option.map_eq_some_iff.1 h
  obtain ⟨-, -, -, hlen⟩ := read_strcat hcat
  intro c hc
  rcases List.mem_or_eq_of_mem_set hc with hc | rfl
  · exact hsize c hc
  · exact hlen.trans (hsize b (List.mem_of_getElem? hb))

/-- A line is appended if its buffer has room for it. -/
theorem exists_strcatAt {i : ℕ} {buf t : Text} (hsize : ∀ b ∈ fortune, b.length = l)
    (ht : stringAt fortune i = some t) (hroom : t.length + (text buf).length < l) :
    ∃ fortune', strcatAt fortune i buf = some fortune' := by
  unfold stringAt at ht
  obtain ⟨b, hb, hread⟩ := Option.bind_eq_some_iff.1 ht
  have hlen := hsize b (List.mem_of_getElem? hb)
  obtain ⟨b', hcat, -, -⟩ := exists_strcat (s := buf) hread (by omega)
  exact ⟨fortune.set i b', by rw [strcatAt, hb, Option.bind_some, hcat, Option.map_some]⟩

/-! ## The loop -/

/-- The loop only appends to the strings, and only to those from `numFortune` on. -/
theorem recordLoop_grows {lines : List Text} {j : ℕ} (h : recordLoop fortune j lines = some fortune') :
    (∀ i, ∃ s, stringAt fortune' i = (stringAt fortune i).map (· ++ s)) ∧
      ∀ i < j, stringAt fortune' i = stringAt fortune i := by
  induction lines generalizing fortune j with
  | nil =>
    obtain rfl := Option.some.inj h
    refine ⟨fun i => ⟨[], ?_⟩, fun _ _ => rfl⟩
    simp only [List.append_nil, Option.map_id']
  | cons buf rest ih =>
    rw [recordLoop] at h
    split_ifs at h with hdelim
    · obtain ⟨hgrows, hsame⟩ := ih h
      exact ⟨hgrows, fun i hi => hsame i (Nat.lt_succ_of_lt hi)⟩
    · obtain ⟨fortune₁, hcat, h⟩ := Option.bind_eq_some_iff.1 h
      obtain ⟨⟨t, ht, ht₁⟩, hother⟩ := stringAt_strcatAt hcat
      obtain ⟨hgrows, hsame⟩ := ih h
      refine ⟨fun i => ?_, fun i hi => (hsame i hi).trans (hother i (Nat.ne_of_lt hi))⟩
      obtain ⟨s, hs⟩ := hgrows i
      by_cases hi : i = j
      · subst hi
        refine ⟨text buf ++ s, ?_⟩
        rw [hs, ht, ht₁, Option.map_some, Option.map_some, List.append_assoc]
      · exact ⟨s, by rw [hs, hother i hi]⟩

theorem recordLoop_size {lines : List Text} {j : ℕ} (h : recordLoop fortune j lines = some fortune')
    (hsize : ∀ b ∈ fortune, b.length = l) : ∀ b ∈ fortune', b.length = l := by
  induction lines generalizing fortune j with
  | nil =>
    obtain rfl := Option.some.inj h
    exact hsize
  | cons buf rest ih =>
    rw [recordLoop] at h
    split_ifs at h with hdelim
    · exact ih h hsize
    · obtain ⟨fortune₁, hcat, h⟩ := Option.bind_eq_some_iff.1 h
      exact ih h (strcatAt_size hcat hsize)

/-! ## Records -/

theorem Body.exists_cons {lines : List Text} {records : List (List Text)} (h : Body lines records) :
    ∃ r rs, records = r :: rs := by
  cases h with
  | nil => exact ⟨_, _, rfl⟩
  | line _ _ => exact ⟨_, _, rfl⟩
  | percent _ _ => exact ⟨_, _, rfl⟩

/-- A line of a body separates records or belongs to one. -/
theorem Body.mem {lines : List Text} {records : List (List Text)} (h : Body lines records) {line : Text}
    (hline : line ∈ lines) : IsPercent line ∨ ∃ r ∈ records, line ∈ r := by
  induction h with
  | nil => cases hline
  | @line l lines r rs _ _ ih =>
    rcases List.mem_cons.1 hline with rfl | hline
    · exact Or.inr ⟨_, List.mem_cons_self, List.mem_cons_self⟩
    · rcases ih hline with hpercent | ⟨r', hr', hmem⟩
      · exact Or.inl hpercent
      · rcases List.mem_cons.1 hr' with rfl | hr'
        · exact Or.inr ⟨_, List.mem_cons_self, List.mem_cons_of_mem l hmem⟩
        · exact Or.inr ⟨r', List.mem_cons_of_mem _ hr', hmem⟩
  | @percent l lines rs hpercent _ ih =>
    rcases List.mem_cons.1 hline with rfl | hline
    · exact Or.inl hpercent
    · rcases ih hline with hpercent | ⟨r', hr', hmem⟩
      · exact Or.inl hpercent
      · exact Or.inr ⟨r', List.mem_cons_of_mem _ hr', hmem⟩

theorem nul_not_mem_of_isPercent {line : Text} (h : IsPercent line) : '\x00' ∉ line := by
  rcases h with rfl | rfl
  · decide
  · decide

theorem recordLoop_line {line : Text} {lines : List Text} {j : ℕ} (hnul : '\x00' ∉ line)
    (h : ¬ IsPercent line) :
    recordLoop fortune j (line :: lines) =
      (strcatAt fortune j line).bind fun fortune => recordLoop fortune j lines := by
  have hne : text line ≠ delim := by
    rw [text_eq_self hnul]
    exact fun heq => h (Or.inl heq)
  rw [recordLoop, if_neg hne]

theorem recordLoop_delim (lines : List Text) (j : ℕ) :
    recordLoop fortune j ("%\n".toList :: lines) = recordLoop fortune (j + 1) lines := by
  rw [recordLoop, if_pos (by decide)]

/-- A buffer that has a string at the end of the loop had one before. -/
theorem exists_stringAt {lines : List Text} {j i : ℕ} {t : Text}
    (h : recordLoop fortune j lines = some fortune') (ht : stringAt fortune' i = some t) :
    ∃ t₀ s, stringAt fortune i = some t₀ ∧ t = t₀ ++ s := by
  obtain ⟨s, hs⟩ := (recordLoop_grows h).1 i
  rw [ht] at hs
  obtain ⟨t₀, ht₀, heq⟩ := Option.map_eq_some_iff.1 hs.symm
  exact ⟨t₀, s, ht₀, heq.symm⟩

/-- A `%` without a newline is appended to the record before it. -/
theorem stringAt_ne_of_percent {lines : List Text} {j : ℕ} {old want : Text}
    (hloop : recordLoop fortune j ("%".toList :: lines) = some fortune')
    (hold : stringAt fortune j = some old) (hle : want.length ≤ old.length) :
    stringAt fortune' j ≠ some want := by
  intro hwant
  rw [recordLoop, if_neg (by decide)] at hloop
  obtain ⟨fortune₁, hcat, hloop⟩ := Option.bind_eq_some_iff.1 hloop
  obtain ⟨t, s, ht, heq⟩ := exists_stringAt hloop hwant
  obtain rfl := Option.some.inj ((stringAt_strcatAt_self hcat hold).symm.trans ht)
  have hlen := congrArg List.length heq
  have hone : (text "%".toList).length = 1 := by decide
  rw [List.length_append, List.length_append, hone] at hlen
  omega

/-- A property of the records and their indices, the first of which is `j`. -/
theorem forall_getElem?_cons {P : ℕ → List Text → Prop} {j : ℕ} {r : List Text} {rs : List (List Text)} :
    (∀ k r', (r :: rs)[k]? = some r' → P (j + k) r') ↔
      P j r ∧ ∀ k r', rs[k]? = some r' → P (j + 1 + k) r' := by
  have hshift : ∀ k, j + 1 + k = j + (k + 1) := fun k => by omega
  constructor
  · intro h
    refine ⟨h 0 r rfl, fun k r' hk => ?_⟩
    rw [hshift]
    exact h (k + 1) r' hk
  · rintro ⟨hfirst, hrest⟩ k r' hk
    cases k with
    | zero =>
      obtain rfl := Option.some.inj hk
      exact hfirst
    | succ k =>
      rw [← hshift]
      exact hrest k r' hk

/-- If the loop stores the records behind strings of which the first is `old`, no longer than `want`, then
there was nothing to go on behind, and no `%` has been stored as a line. -/
theorem Body.of_stored {lines : List Text} {records : List (List Text)} (h : Body lines records)
    (hnul : ∀ line ∈ lines, '\x00' ∉ line) {j : ℕ} {r : List Text} {rs : List (List Text)} {old want : Text}
    (hrecords : records = r :: rs) (hloop : recordLoop fortune j lines = some fortune')
    (hold : stringAt fortune j = some old) (hle : want.length ≤ old.length)
    (hwant : stringAt fortune' j = some (want ++ r.flatten))
    (hrest : ∀ k r', rs[k]? = some r' → stringAt fortune' (j + 1 + k) = some r'.flatten) :
    old.length = want.length ∧ (∀ k r', rs[k]? = some r' → stringAt fortune (j + 1 + k) = some []) ∧
      ∀ line ∈ lines, IsPercent line → line = "%\n".toList := by
  induction h generalizing fortune j r rs old want with
  | nil =>
    obtain ⟨rfl, rfl⟩ := List.cons.inj hrecords
    obtain rfl := Option.some.inj hloop
    rw [hold, List.flatten_nil, List.append_nil] at hwant
    obtain rfl := Option.some.inj hwant
    exact ⟨rfl, fun _ _ hk => absurd hk (by simp), fun _ hline => absurd hline List.not_mem_nil⟩
  | @line l lines r₀ rs₀ hl _ ih =>
    obtain ⟨rfl, rfl⟩ := List.cons.inj hrecords
    rw [List.forall_mem_cons] at hnul ⊢
    rw [recordLoop_line hnul.1 hl] at hloop
    obtain ⟨fortune₁, hcat, hloop⟩ := Option.bind_eq_some_iff.1 hloop
    have hold₁ := stringAt_strcatAt_self hcat hold
    rw [text_eq_self hnul.1] at hold₁
    rw [List.flatten_cons, ← List.append_assoc] at hwant
    obtain ⟨hlen, hempty, hpercent⟩ := ih hnul.2 rfl hloop hold₁
      (by rw [List.length_append, List.length_append]; omega) hwant hrest
    rw [List.length_append, List.length_append] at hlen
    refine ⟨by omega, fun k r' hk => ?_, fun hp => absurd hp hl, hpercent⟩
    rw [← hempty k r' hk, (stringAt_strcatAt hcat).2 _ (by omega)]
  | @percent l lines rs₀ hl hbody ih =>
    obtain ⟨rfl, rfl⟩ := List.cons.inj hrecords
    rw [List.forall_mem_cons] at hnul ⊢
    rw [List.flatten_nil, List.append_nil] at hwant
    rcases hl with rfl | rfl
    · -- The line is a delimiter, so the loop has left this record.
      rw [recordLoop_delim] at hloop
      have hsame := (recordLoop_grows hloop).2 j (Nat.lt_succ_self j)
      rw [hwant, hold] at hsame
      obtain rfl := Option.some.inj hsame
      obtain ⟨r₁, rs₁, rfl⟩ := hbody.exists_cons
      obtain ⟨hfirst, hlater⟩ := (forall_getElem?_cons
        (P := fun i r' => stringAt fortune' i = some r'.flatten)).1 hrest
      obtain ⟨next, s, hnext, -⟩ := exists_stringAt hloop hfirst
      rw [← List.nil_append r₁.flatten] at hfirst
      obtain ⟨hlen, hempty, hpercent⟩ := ih hnul.2 rfl hloop hnext (Nat.zero_le _) hfirst hlater
      obtain rfl := List.eq_nil_of_length_eq_zero hlen
      exact ⟨rfl, (forall_getElem?_cons (P := fun i _ => stringAt fortune i = some [])).2 ⟨hnext, hempty⟩,
        fun _ => rfl, hpercent⟩
    · exact absurd hwant (stringAt_ne_of_percent hloop hold hle)

/-- If the first string leaves room for its record, and the others are empty and leave room for theirs, the
loop stores the records. -/
theorem Body.stored {lines : List Text} {records : List (List Text)} (h : Body lines records)
    (hnul : ∀ line ∈ lines, '\x00' ∉ line) (hpercent : ∀ line ∈ lines, IsPercent line → line = "%\n".toList)
    {j : ℕ} {r : List Text} {rs : List (List Text)} {old : Text} (hrecords : records = r :: rs)
    (hsize : ∀ b ∈ fortune, b.length = l) (hold : stringAt fortune j = some old)
    (hroom : old.length + r.flatten.length < l)
    (hrest : ∀ k r', rs[k]? = some r' →
      stringAt fortune (j + 1 + k) = some [] ∧ r'.flatten.length < l) :
    ∃ fortune', recordLoop fortune j lines = some fortune' ∧
      stringAt fortune' j = some (old ++ r.flatten) ∧
        ∀ k r', rs[k]? = some r' → stringAt fortune' (j + 1 + k) = some r'.flatten := by
  induction h generalizing fortune j r rs old with
  | nil =>
    obtain ⟨rfl, rfl⟩ := List.cons.inj hrecords
    refine ⟨fortune, rfl, ?_, fun _ _ hk => absurd hk (by simp)⟩
    rw [hold, List.flatten_nil, List.append_nil]
  | @line line lines r₀ rs₀ hl _ ih =>
    obtain ⟨rfl, rfl⟩ := List.cons.inj hrecords
    rw [List.forall_mem_cons] at hnul hpercent
    rw [List.flatten_cons, List.length_append] at hroom
    have hfits : old.length + (text line).length < l := by
      rw [text_eq_self hnul.1]
      omega
    obtain ⟨fortune₁, hcat⟩ := exists_strcatAt hsize hold hfits
    have hold₁ := stringAt_strcatAt_self hcat hold
    rw [text_eq_self hnul.1] at hold₁
    obtain ⟨fortune', hloop, hfirst, hlater⟩ := ih hnul.2 hpercent.2 rfl
      (strcatAt_size hcat hsize) hold₁
      (by rw [List.length_append]; omega) fun k r' hk => by
        rw [(stringAt_strcatAt hcat).2 _ (by omega)]
        exact hrest k r' hk
    refine ⟨fortune', ?_, ?_, hlater⟩
    · rw [recordLoop_line hnul.1 hl, hcat, Option.bind_some, hloop]
    · rw [hfirst, List.flatten_cons, List.append_assoc]
  | @percent line lines rs₀ hl hbody ih =>
    obtain ⟨rfl, rfl⟩ := List.cons.inj hrecords
    rw [List.forall_mem_cons] at hnul hpercent
    obtain rfl := hpercent.1 hl
    obtain ⟨r₁, rs₁, rfl⟩ := hbody.exists_cons
    obtain ⟨⟨hempty, hroom₁⟩, hrest₁⟩ := (forall_getElem?_cons
      (P := fun i r' => stringAt fortune i = some [] ∧ r'.flatten.length < l)).1 hrest
    obtain ⟨fortune', hloop, hfirst, hlater⟩ := ih hnul.2 hpercent.2 rfl hsize hempty
      (by rw [List.length_nil]; omega) hrest₁
    refine ⟨fortune', ?_, ?_, ?_⟩
    · rw [recordLoop_delim, hloop]
    · rw [(recordLoop_grows hloop).2 j (Nat.lt_succ_self j), hold, List.flatten_nil, List.append_nil]
    · exact (forall_getElem?_cons (P := fun i r' => stringAt fortune' i = some r'.flatten)).2
        ⟨hfirst, hlater⟩

/-! ## When a file is loaded -/

variable {heap : ∀ n l : ℕ, Buffers n l} {num1 : ℤ}

theorem FortuneFile.load_eq (f : FortuneFile) (heap : ∀ n l : ℕ, Buffers n l) (num1 : ℤ) :
    load heap num1 f.file =
      match recordLoop (heap f.n f.l).cells 0 f.body with
      | none => .fault
      | some fortune => .fortunes f.n fortune := by
  have hneg : ¬ ((f.n : ℤ) < 0 ∨ 0 < (f.n : ℤ) ∧ (f.l : ℤ) < 0) := by omega
  unfold load
  rw [f.lines, header, f.first_eq, f.second_eq]
  simp only [if_neg hneg, Int.toNat_natCast, List.drop_succ_cons, List.drop_zero]

theorem FortuneFile.load_eq_iff (f : FortuneFile) (fortune : List Text) :
    load heap num1 f.file = .fortunes f.n fortune ↔
      recordLoop (heap f.n f.l).cells 0 f.body = some fortune := by
  rw [f.load_eq]
  cases recordLoop (heap f.n f.l).cells 0 f.body with
  | none => exact iff_of_false (fun h => by cases h) (fun h => by cases h)
  | some fortune₁ => simp only [Loaded.fortunes.injEq, true_and, Option.some.injEq]

/-- The buffer of record `k`. -/
def FortuneFile.buffer (f : FortuneFile) (heap : ∀ n l : ℕ, Buffers n l) (k : ℕ) : Option Text :=
  (heap f.n f.l).cells[k]?

theorem FortuneFile.zeroed_iff (f : FortuneFile) (k : ℕ) :
    (f.buffer heap k).bind List.head? = some '\x00' ↔ stringAt (heap f.n f.l).cells k = some [] :=
  stringAt_eq_nil_iff.symm

theorem nul_not_mem_stringAt {k : ℕ} {t : Text} (h : stringAt fortune k = some t) : '\x00' ∉ t := by
  unfold stringAt at h
  obtain ⟨b, -, hread⟩ := Option.bind_eq_some_iff.1 h
  exact (eq_append_of_read hread).1

theorem length_stringAt_lt (hsize : ∀ b ∈ fortune, b.length = l) {k : ℕ} {t : Text}
    (h : stringAt fortune k = some t) : t.length < l := by
  unfold stringAt at h
  obtain ⟨b, hb, hread⟩ := Option.bind_eq_some_iff.1 h
  rw [← hsize b (List.mem_of_getElem? hb)]
  exact read_length_lt hread

/-- The lines of a body have no `NUL` if its records have none. -/
theorem Body.noNul {lines : List Text} {records : List (List Text)} (h : Body lines records)
    (hrecords : ∀ r ∈ records, '\x00' ∉ r.flatten) : ∀ line ∈ lines, '\x00' ∉ line := by
  intro line hline
  rcases h.mem hline with hpercent | ⟨r, hr, hmem⟩
  · exact nul_not_mem_of_isPercent hpercent
  · exact fun hnul => hrecords r hr (List.mem_flatten.2 ⟨line, hmem, hnul⟩)

/-- For every fortune file and every content of the buffers: all records are stored, with all writes inside
the buffers, if and only if the buffer of each record begins with a `NUL`, the text of the record has no
`NUL` and is shorter than the buffer, and no `%` line but the first one lacks its newline. -/
theorem loads_iff (f : FortuneFile) (heap : ∀ n l : ℕ, Buffers n l) (num1 : ℤ) :
    f.Loads heap num1 ↔ (∀ k r, f.records[k]? = some r → Ready (f.buffer heap k) f.l r) ∧
      ∀ line ∈ f.body, IsPercent line → line = "%\n".toList := by
  have hsize := (heap f.n f.l).size
  unfold FortuneFile.Loads
  simp only [f.load_eq_iff]
  rcases f.body_eq with ⟨hbody, hrecords⟩ | hbody
  · rw [hbody, hrecords]
    exact iff_of_true ⟨_, rfl, fun _ _ hk => absurd hk (by simp)⟩
      ⟨fun _ _ hk => absurd hk (by simp), fun _ hline => absurd hline List.not_mem_nil⟩
  obtain ⟨r, rs, hrecords⟩ := hbody.exists_cons
  have hcons : ∀ P : ℕ → List Text → Prop, (∀ k r', f.records[k]? = some r' → P k r') ↔
      P 0 r ∧ ∀ k r', rs[k]? = some r' → P (0 + 1 + k) r' := by
    intro P
    rw [hrecords, ← forall_getElem?_cons]
    simp only [Nat.zero_add]
  constructor
  · rintro ⟨fortune, hloop, hstored⟩
    have hnul : ∀ line ∈ f.body, '\x00' ∉ line := hbody.noNul fun r' hr' => by
      obtain ⟨k, hk⟩ := List.mem_iff_getElem?.1 hr'
      exact nul_not_mem_stringAt (hstored k r' hk)
    obtain ⟨hfirst, hrest⟩ := (hcons fun i r' => stringAt fortune i = some r'.flatten).1 hstored
    obtain ⟨old, s, hold, -⟩ := exists_stringAt hloop hfirst
    rw [← List.nil_append r.flatten] at hfirst
    obtain ⟨hlen, hempty, hpercent⟩ :=
      hbody.of_stored hnul hrecords hloop hold (Nat.zero_le _) hfirst hrest
    obtain rfl := List.eq_nil_of_length_eq_zero hlen
    have hzeroed := (hcons fun i _ => stringAt (heap f.n f.l).cells i = some []).2 ⟨hold, hempty⟩
    refine ⟨fun k r' hk => ⟨?_, ?_, ?_⟩, hpercent⟩
    · exact (f.zeroed_iff k).2 (hzeroed k r' hk)
    · exact length_stringAt_lt (recordLoop_size hloop hsize) (hstored k r' hk)
    · exact nul_not_mem_stringAt (hstored k r' hk)
  · rintro ⟨hready, hpercent⟩
    have hnul : ∀ line ∈ f.body, '\x00' ∉ line := hbody.noNul fun r' hr' => by
      obtain ⟨k, hk⟩ := List.mem_iff_getElem?.1 hr'
      exact (hready k r' hk).noNul
    have hbuffers : ∀ k r', f.records[k]? = some r' →
        stringAt (heap f.n f.l).cells k = some [] ∧ r'.flatten.length < f.l :=
      fun k r' hk => ⟨(f.zeroed_iff k).1 (hready k r' hk).zeroed, (hready k r' hk).room⟩
    obtain ⟨⟨hold, hroom⟩, hrest⟩ := (hcons fun i r' =>
      stringAt (heap f.n f.l).cells i = some [] ∧ r'.flatten.length < f.l).1 hbuffers
    rw [← Nat.zero_add r.flatten.length] at hroom
    obtain ⟨fortune, hloop, hstored⟩ := hbody.stored hnul hpercent hrecords hsize hold hroom hrest
    exact ⟨fortune, hloop, (hcons fun i r' => stringAt fortune i = some r'.flatten).2 hstored⟩

/-- Buffers full of zeros. -/
def zeros (n l : ℕ) : Buffers n l where
  cells := List.replicate n (List.replicate l '\x00')
  count := List.length_replicate
  size b hb := by rw [List.eq_of_mem_replicate hb, List.length_replicate]

/-- One record of three bytes, as long as the header says. -/
def longestRecord : FortuneFile where
  n := 1
  l := 3
  file := "1\n3\n%\nab\n".toList
  first := "1\n".toList
  second := "3\n".toList
  percent := "%\n".toList
  body := ["ab\n".toList]
  records := [["ab\n".toList]]
  lines := by decide
  first_eq := by decide
  second_eq := by decide
  isPercent := Or.inl rfl
  body_eq := Or.inr (.line (by unfold IsPercent; decide) .nil)
  count := by decide
  size := by decide

/-- Its terminator is written behind the buffer, also if that was full of zeros. -/
theorem not_loads_longest : ¬ longestRecord.Loads zeros 0 := by
  rintro ⟨fortune, hload, -⟩
  have hfault : load zeros 0 longestRecord.file = .fault := by decide
  rw [hfault] at hload
  cases hload

end SystemsProjects.Fortune
