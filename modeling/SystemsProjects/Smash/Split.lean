import Mathlib.Data.List.GetD
import SystemsProjects.Lib.Pieces
import SystemsProjects.Smash.Main

/-!
# Splitting a line into commands

`lexer` of `P3/smash.c` with its two passes of `strtok`, and the part of `main` that copies the words
into `cmds[i][j]`.  The arrays are modelled with their bounds: `args` has one pointer more than the
first pass has counted words, and of the 32 pointers of `cmds[i]` only the first ten point to a string,
of 256 bytes.  `splits_iff` says which lines are split without leaving these.
-/

namespace SystemsProjects.Smash

/-! ## Maximal runs -/

/-- The words are the maximal runs of characters that are not delimiters, in order. -/
inductive MaximalRuns : Text → List Text → Prop where
  | blank {gap : Text} (h : ∀ c ∈ gap, isDelim c = true) : MaximalRuns gap []
  | run {gap w rest : Text} {ws : List Text} (hgap : ∀ c ∈ gap, isDelim c = true) (hne : w ≠ [])
      (hw : ∀ c ∈ w, isDelim c = false) (hend : ∀ c, rest.head? = some c → isDelim c = true)
      (hrest : MaximalRuns rest ws) : MaximalRuns (gap ++ (w ++ rest)) (w :: ws)

theorem tokens_gap_append {gap : Text} (h : ∀ c ∈ gap, isDelim c = true) (line : Text) :
    tokens (gap ++ line) = tokens line := by
  induction gap with
  | nil => rfl
  | cons c gap ih =>
    rw [List.cons_append, tokens_cons_delim (h c List.mem_cons_self),
      ih fun d hd => h d (List.mem_cons_of_mem c hd)]

theorem MaximalRuns.eq_tokens {line : Text} {ws : List Text} (h : MaximalRuns line ws) :
    ws = tokens line := by
  induction h with
  | @blank gap h =>
    rw [← List.append_nil gap, tokens_gap_append h]
    rfl
  | @run gap w rest ws hgap hne hw hend _ ih =>
    rw [tokens_gap_append hgap]
    cases rest with
    | nil =>
      rw [List.append_nil, tokens_word hw hne, ih]
      rfl
    | cons d rest =>
      have hd : isDelim d = true := hend d rfl
      rw [tokens_word_append hw hne hd, ih, tokens_cons_delim hd]

/-- A delimiter in front belongs to the first gap. -/
theorem MaximalRuns.cons_delim {d : Char} (hd : isDelim d = true) {line : Text} {ws : List Text}
    (h : MaximalRuns line ws) : MaximalRuns (d :: line) ws := by
  cases h with
  | blank h => exact .blank (List.forall_mem_cons.2 ⟨hd, h⟩)
  | run hgap hne hw hend hrest => exact .run (List.forall_mem_cons.2 ⟨hd, hgap⟩) hne hw hend hrest

/-! ## The lexer -/

/-- A call of `strtok`: the token, and the place where the next call goes on. -/
def strtok (rest : Text) : Option (Text × Text) :=
  match rest.dropWhile isDelim with
  | [] => none
  | c :: line => some ((c :: line).takeWhile fun c => !isDelim c,
      ((c :: line).dropWhile fun c => !isDelim c).drop 1)

theorem length_strtok_lt {rest token next : Text} (h : strtok rest = some (token, next)) :
    next.length < rest.length := by
  unfold strtok at h
  cases hline : rest.dropWhile isDelim with
  | nil =>
    rw [hline] at h
    cases h
  | cons c line =>
    rw [hline] at h
    obtain ⟨rfl, rfl⟩ := Prod.mk.inj (Option.some.inj h)
    have hle : (c :: line).length ≤ rest.length :=
      hline ▸ (List.dropWhile_sublist isDelim).length_le
    have htail := (List.dropWhile_sublist (l := c :: line) fun c => !isDelim c).length_le
    rw [List.length_drop]
    rw [List.length_cons] at hle htail
    omega

/-- `a[i] = v`; `none` if the index is outside the array. -/
def write {α : Type*} (a : List (Option α)) (i : ℕ) (v : α) : Option (List (Option α)) :=
  if i < a.length then some (a.set i (some v)) else none

/-- The first pass: the number of words. -/
def countArgs (rest : Text) : ℕ :=
  match h : strtok rest with
  | none => 0
  | some (_, next) => countArgs next + 1
termination_by rest.length
decreasing_by exact length_strtok_lt h

/-- What `lexer` leaves in `args` and `num_args`, and the number of `;`s it returns. -/
structure Lexed where
  args : List (Option Text)
  numArgs : ℕ
  ret : ℕ

/-- The second pass. -/
def storeArgs (l : Lexed) (rest : Text) : Option Lexed :=
  match h : strtok rest with
  | none => some l
  | some (token, next) =>
    (write l.args l.numArgs token).bind fun args =>
      storeArgs ⟨args, l.numArgs + 1, if token = semicolon then l.ret + 1 else l.ret⟩ next
termination_by rest.length
decreasing_by exact length_strtok_lt h

/-- `lexer`, when `strdup` finds memory; the arrays it allocates are uninitialised. -/
def lexerPasses (line : Text) : Option Lexed :=
  storeArgs ⟨List.replicate (countArgs line + 1) none, 0, 0⟩ line

/-! ## Splitting into commands -/

/-- The pointers of `cmds[i]`: `none` is a pointer that has not been set. -/
abbrev Row := List (Option Text)

/-- A command after the allocation: ten strings with arbitrary contents. -/
def freshRow (unwritten : ℕ → Text) : Row :=
  (List.range 32).map fun j => if j < 10 then some (unwritten j) else none

structure Stored where
  cmds : List Row
  argnumArray : List (Option ℕ)

/-- `strcpy(cmds[i][j], w)`; `none` if the string has not been allocated or is too small. -/
def Stored.strcpy (s : Stored) (i j : ℕ) (w : Text) : Option Stored :=
  (s.cmds[i]?).bind fun row => (row[j]?).join.bind fun _ =>
    if w.length < 256 then some { s with cmds := s.cmds.set i (row.set j (some w)) } else none

/-- `argnumArray[i] = n`. -/
def Stored.setArgnum (s : Stored) (i n : ℕ) : Option Stored :=
  (write s.argnumArray i n).map fun a => { s with argnumArray := a }

/-- The loop over the words from index `i` on, with the iterations left as first argument; it also
returns the last value of `count`. -/
def splitLoop (args : List (Option Text)) : (n : ℕ) → (i argcount count : ℕ) → Stored →
    Option (Stored × ℕ)
  | 0, _, _, count, s => some (s, count)
  | n + 1, i, argcount, count, s =>
    (args[i]?).join.bind fun arg =>
      if arg = semicolon then
        (s.setArgnum argcount count).bind fun s => splitLoop args n (i + 1) (argcount + 1) 0 s
      else (s.strcpy argcount count arg).bind fun s => splitLoop args n (i + 1) argcount (count + 1) s

/-- `main` from the allocation of `cmds` to the end of the loop. -/
def splitCommands (unwritten : ℕ → ℕ → Text) (l : Lexed) : Option Stored :=
  let cmdsNum := l.ret + 1
  let fresh : Stored := ⟨(List.range cmdsNum).map fun i => freshRow (unwritten i),
    List.replicate cmdsNum none⟩
  (splitLoop l.args l.numArgs 0 0 0 fresh).bind fun (s, count) => s.setArgnum (cmdsNum - 1) count

/-! ## What the lexer stores -/

/-- A call of `strtok` finds the next token. -/
theorem strtok_cases (rest : Text) :
    (strtok rest = none ∧ tokens rest = [] ∧ ∀ c ∈ rest, isDelim c = true) ∨
      ∃ w next, strtok rest = some (w, next) ∧ tokens rest = w :: tokens next ∧
        ∀ ws, MaximalRuns next ws → MaximalRuns rest (w :: ws) := by
  have hgap : ∀ c ∈ rest.takeWhile isDelim, isDelim c = true := fun c hc => List.mem_takeWhile_imp hc
  have hsplit := List.takeWhile_append_dropWhile (p := isDelim) (l := rest)
  cases hline : rest.dropWhile isDelim with
  | nil =>
    rw [hline, List.append_nil] at hsplit
    have hall : ∀ c ∈ rest, isDelim c = true := hsplit ▸ hgap
    refine Or.inl ⟨by rw [strtok, hline], ?_, hall⟩
    exact (MaximalRuns.blank hall).eq_tokens.symm
  | cons c line =>
    right
    rw [hline] at hsplit
    have hc : isDelim c = false := by
      have := List.dropWhile_get_zero_not (p := isDelim) rest (by simp [hline])
      simpa [hline] using this
    refine ⟨(c :: line).takeWhile (fun c => !isDelim c),
      ((c :: line).dropWhile fun c => !isDelim c).drop 1, by rw [strtok, hline], ?_, fun ws hws => ?_⟩
    · rw [← tokens_eq_cons hc]
      conv_lhs => rw [← hsplit, tokens_gap_append hgap]
    · have hend : ∀ d next, ((c :: line).dropWhile fun c => !isDelim c) = d :: next →
          isDelim d = true := fun d next hd => by
        have := List.dropWhile_get_zero_not (p := fun c => !isDelim c) (c :: line) (by simp [hd])
        simpa [hd] using this
      have hrun := List.takeWhile_append_dropWhile (p := fun c => !isDelim c) (l := c :: line)
      rw [← hsplit]
      conv => lhs; rw [← hrun]
      refine .run hgap (by simp [hc]) (fun d hd => isDelim_of_mem_takeWhile hd) (fun d hd => ?_) ?_
      · obtain ⟨next, hnext⟩ := List.head?_eq_some_iff.1 hd
        exact hend d next hnext
      · cases htail : (c :: line).dropWhile fun c => !isDelim c with
        | nil => rwa [htail] at hws
        | cons d next =>
          rw [htail] at hws
          exact hws.cons_delim (hend d next htail)

theorem maximalRuns_tokens (line : Text) : MaximalRuns line (tokens line) := by
  induction hn : line.length using Nat.strong_induction_on generalizing line with
  | _ n ih =>
    subst hn
    obtain ⟨-, htokens, hall⟩ | ⟨w, next, hnext, htokens, hrun⟩ := strtok_cases line
    · rw [htokens]
      exact .blank hall
    · rw [htokens]
      exact hrun _ (ih _ (length_strtok_lt hnext) next rfl)

theorem countArgs_of_none {rest : Text} (h : strtok rest = none) : countArgs rest = 0 := by
  rw [countArgs]
  split
  · rfl
  · rename_i h'
    rw [h] at h'
    cases h'

theorem countArgs_of_some {rest w next : Text} (h : strtok rest = some (w, next)) :
    countArgs rest = countArgs next + 1 := by
  rw [countArgs]
  split
  · rename_i h'
    rw [h] at h'
    cases h'
  · rename_i h'
    rw [h] at h'
    obtain ⟨-, rfl⟩ := Prod.mk.inj (Option.some.inj h')
    rfl

theorem storeArgs_of_none {l : Lexed} {rest : Text} (h : strtok rest = none) :
    storeArgs l rest = some l := by
  rw [storeArgs]
  split
  · rfl
  · rename_i h'
    rw [h] at h'
    cases h'

theorem storeArgs_of_some {l : Lexed} {rest w next : Text} (h : strtok rest = some (w, next)) :
    storeArgs l rest = (write l.args l.numArgs w).bind fun args =>
      storeArgs ⟨args, l.numArgs + 1, if w = semicolon then l.ret + 1 else l.ret⟩ next := by
  rw [storeArgs]
  split
  · rename_i h'
    rw [h] at h'
    cases h'
  · rename_i h'
    rw [h] at h'
    obtain ⟨rfl, rfl⟩ := Prod.mk.inj (Option.some.inj h')
    rfl

theorem countArgs_eq (line : Text) : countArgs line = (tokens line).length := by
  induction hn : line.length using Nat.strong_induction_on generalizing line with
  | _ n ih =>
    subst hn
    obtain ⟨hnone, htokens, -⟩ | ⟨w, next, hnext, htokens, -⟩ := strtok_cases line
    · rw [countArgs_of_none hnone, htokens]
      rfl
    · rw [countArgs_of_some hnext, htokens, ih _ (length_strtok_lt hnext) next rfl]
      rfl

/-- Writing the first uninitialised cell of an array. -/
theorem write_map_some_append {α : Type*} (done : List α) (v : α) (rest : List (Option α)) :
    write (done.map some ++ none :: rest) done.length v = some ((done ++ [v]).map some ++ rest) := by
  unfold write
  rw [if_pos (by simp)]
  simp

/-- The second pass stores the tokens behind those stored before. -/
theorem storeArgs_eq (rest : Text) : ∀ (done : List Text) (k : ℕ), (tokens rest).length ≤ k →
    storeArgs ⟨done.map some ++ List.replicate k none, done.length, done.count semicolon⟩ rest =
      some ⟨(done ++ tokens rest).map some ++ List.replicate (k - (tokens rest).length) none,
        (done ++ tokens rest).length, (done ++ tokens rest).count semicolon⟩ := by
  induction hn : rest.length using Nat.strong_induction_on generalizing rest with
  | _ n ih =>
    subst hn
    intro done k hk
    obtain ⟨hnone, htokens, -⟩ | ⟨w, next, hnext, htokens, -⟩ := strtok_cases rest
    · rw [storeArgs_of_none hnone, htokens]
      simp
    · rw [htokens, List.length_cons] at hk
      obtain ⟨m, rfl⟩ : ∃ m, k = m + 1 := ⟨k - 1, by omega⟩
      have hstep := ih _ (length_strtok_lt hnext) next rfl (done ++ [w]) m (by omega)
      have hcount : (done ++ [w]).count semicolon =
          if w = semicolon then done.count semicolon + 1 else done.count semicolon := by
        split_ifs with hw <;> simp [hw]
      rw [hcount, List.length_append, List.length_singleton] at hstep
      rw [storeArgs_of_some hnext, List.replicate_succ]
      simp only [write_map_some_append, Option.bind_some]
      rw [hstep, htokens, List.length_cons, Nat.add_sub_add_right]
      simp only [List.append_assoc, List.singleton_append]

/-- `lexer` stores the tokens, and returns the number of `;`s. -/
theorem lexerPasses_eq (line : Text) : lexerPasses line =
    some ⟨(tokens line).map some ++ [none], (tokens line).length, (tokens line).count semicolon⟩ := by
  have hstore := storeArgs_eq line [] ((tokens line).length + 1) (Nat.le_succ _)
  rw [lexerPasses, countArgs_eq]
  simpa using hstore

/-! ## What the loop of `main` stores -/

/-- The words of a command fit its strings. -/
def WordsFit (c : List Text) : Prop := c.length ≤ 10 ∧ ∀ w ∈ c, w.length < 256

/-- The pointers of a command after its words have been copied. -/
def rowFor (unwritten : ℕ → Text) (c : List Text) : Row :=
  c.map some ++ (freshRow unwritten).drop c.length

/-- The arrays of `n` commands with the words `cs`, of which the first `k` are complete. -/
def storedFor (unwritten : ℕ → ℕ → Text) (n : ℕ) (cs : List (List Text)) (k : ℕ) : Stored where
  cmds := (List.range n).map fun i => rowFor (unwritten i) (cs.getD i [])
  argnumArray := (List.range n).map fun i => if i < k then some (cs.getD i []).length else none

variable {unwritten : ℕ → ℕ → Text} {n : ℕ}

theorem cmds_eq (ws : List Text) : cmds ws = pieces semicolon ws := rfl

theorem length_cmds (ws : List Text) : (cmds ws).length = ws.count semicolon + 1 := length_pieces ws

/-- The next string of a command exists as long as there are fewer than ten. -/
theorem rowFor_get (u : ℕ → Text) {c : List Text} (hc : c.length ≤ 10) :
    ((rowFor u c)[c.length]?).join = if c.length < 10 then some (u c.length) else none := by
  have hget : (rowFor u c)[c.length]? =
      some (if c.length < 10 then some (u c.length) else none) := by
    unfold rowFor freshRow
    rw [List.getElem?_append_right (by simp)]
    simp [show c.length < 32 by omega]
  rw [hget]
  rfl

theorem rowFor_set (u : ℕ → Text) {c : List Text} (hc : c.length < 32) (w : Text) :
    (rowFor u c).set c.length (some w) = rowFor u (c ++ [w]) := by
  have hlen : c.length < (freshRow u).length := by simpa [freshRow] using hc
  unfold rowFor
  rw [List.set_append_right _ _ (by simp), List.length_map, Nat.sub_self,
    List.drop_eq_getElem_cons hlen, List.set_cons_zero]
  simp

/-- The rows of the arrays, and the row of the command that is being filled. -/
theorem storedFor_cmds_get {cs : List (List Text)} {k i : ℕ} (hi : i < n) :
    (storedFor unwritten n cs k).cmds[i]? = some (rowFor (unwritten i) (cs.getD i [])) := by
  simp [storedFor, hi]

/-- Writing one element of an array that is given by a function of the index. -/
theorem set_map_range {α : Type*} {f g : ℕ → α} {i : ℕ} (h : ∀ j, j ≠ i → g j = f j) :
    ((List.range n).map f).set i (g i) = (List.range n).map g := by
  refine List.ext_getElem (by simp) fun j hj hj' => ?_
  by_cases hij : i = j
  · subst hij
    simp
  · rw [List.getElem_set_ne hij]
    simp [h j (Ne.symm hij)]

theorem getD_append_singleton_of_ne {pre : List (List Text)} {cur cur' : List Text} {j : ℕ}
    (h : j ≠ pre.length) : (pre ++ [cur]).getD j [] = (pre ++ [cur']).getD j [] := by
  rcases Nat.lt_or_gt_of_ne h with hlt | hgt
  · rw [List.getD_append _ _ _ _ hlt, List.getD_append _ _ _ _ hlt]
  · rw [List.getD_append_right _ _ _ _ hgt.le, List.getD_append_right _ _ _ _ hgt.le]
    obtain ⟨m, hm⟩ : ∃ m, j - pre.length = m + 1 := ⟨j - pre.length - 1, by omega⟩
    rw [hm]
    rfl

theorem getD_append_singleton (pre : List (List Text)) (cur : List Text) :
    (pre ++ [cur]).getD pre.length [] = cur := by
  simp

/-- Copying a word behind the words of the command that is being filled. -/
theorem strcpy_storedFor {pre : List (List Text)} {cur : List Text} {w : Text}
    (hpre : pre.length < n) (hcur : cur.length ≤ 10) :
    (storedFor unwritten n (pre ++ [cur]) pre.length).strcpy pre.length cur.length w =
      if cur.length < 10 ∧ w.length < 256 then
        some (storedFor unwritten n (pre ++ [cur ++ [w]]) pre.length)
      else none := by
  rw [Stored.strcpy, storedFor_cmds_get hpre, Option.bind_some, getD_append_singleton,
    rowFor_get _ hcur]
  by_cases hten : cur.length < 10
  · rw [if_pos hten, Option.bind_some]
    by_cases hw : w.length < 256
    · rw [if_pos hw, if_pos ⟨hten, hw⟩]
      have hrow : (rowFor (unwritten pre.length) cur).set cur.length (some w) =
          rowFor (unwritten pre.length) ((pre ++ [cur ++ [w]]).getD pre.length []) := by
        rw [getD_append_singleton, rowFor_set _ (by omega)]
      rw [hrow]
      unfold storedFor
      refine congrArg some (congrArg₂ Stored.mk ?_ ?_)
      · refine set_map_range (g := fun i => rowFor (unwritten i) ((pre ++ [cur ++ [w]]).getD i []))
          fun j hj => ?_
        rw [getD_append_singleton_of_ne hj]
      · refine List.map_congr_left fun i _ => ?_
        split_ifs with hi
        · rw [getD_append_singleton_of_ne hi.ne]
        · rfl
    · have hboth : ¬ (cur.length < 10 ∧ w.length < 256) := fun h => hw h.2
      rw [if_neg hw, if_neg hboth]
  · have hboth : ¬ (cur.length < 10 ∧ w.length < 256) := fun h => hten h.1
    rw [if_neg hten, if_neg hboth]
    rfl

/-- Completing the next command. -/
theorem setArgnum_storedFor (unwritten : ℕ → ℕ → Text) (cs : List (List Text)) {k : ℕ} (hk : k < n) :
    (storedFor unwritten n cs k).setArgnum k (cs.getD k []).length =
      some (storedFor unwritten n cs (k + 1)) := by
  have hset : ((storedFor unwritten n cs k).argnumArray.set k (some (cs.getD k []).length)) =
      (storedFor unwritten n cs (k + 1)).argnumArray := by
    have hk' : some (cs.getD k []).length =
        if k < k + 1 then some (cs.getD k []).length else none := by simp
    rw [hk']
    refine set_map_range (g := fun i => if i < k + 1 then some (cs.getD i []).length else none)
      fun j hj => ?_
    have hiff : j < k + 1 ↔ j < k := by omega
    simp only [hiff]
  rw [Stored.setArgnum, write, if_pos (by simpa [storedFor] using hk), hset]
  rfl

theorem storedFor_append_nil (cs : List (List Text)) (k : ℕ) :
    storedFor unwritten n (cs ++ [[]]) k = storedFor unwritten n cs k := by
  have hget : ∀ i, (cs ++ [[]]).getD i [] = cs.getD i [] := fun i => by
    rcases Nat.lt_or_ge i cs.length with h | h
    · rw [List.getD_append _ _ _ _ h]
    · rw [List.getD_eq_default _ _ h, List.getD_append_right _ _ _ _ h]
      cases i - cs.length <;> rfl
  unfold storedFor
  simp only [hget]

/-- If the words to come fit, so do those that are there already. -/
theorem wordsFit_of_joined {cur ws : List Text} (h : ∀ c ∈ joined semicolon cur ws, WordsFit c) :
    WordsFit cur := by
  obtain ⟨c, hc⟩ := exists_append_mem_joined cur ws
  obtain ⟨hlen, hw⟩ := h (cur ++ c) hc
  rw [List.length_append] at hlen
  exact ⟨by omega, fun w hmem => hw w (List.mem_append_left c hmem)⟩

instance (c : List Text) : Decidable (WordsFit c) := inferInstanceAs (Decidable (_ ∧ _))

/-- The loop over the words `ws`, when `pre` are the complete commands and `cur` are the words of the
next one so far. -/
theorem splitLoop_eq (unwritten : ℕ → ℕ → Text) (n : ℕ) (args : List (Option Text)) (ws : List Text) :
    ∀ (pre : List (List Text)) (cur : List Text) (i : ℕ) (tail : List (Option Text)),
      args.drop i = ws.map some ++ tail → pre.length + ws.count semicolon < n → WordsFit cur →
      splitLoop args ws.length i pre.length cur.length (storedFor unwritten n (pre ++ [cur]) pre.length) =
        if ∀ c ∈ joined semicolon cur ws, WordsFit c then
          some (storedFor unwritten n (pre ++ joined semicolon cur ws) (pre.length + ws.count semicolon),
            ((pre ++ joined semicolon cur ws).getD (pre.length + ws.count semicolon) []).length)
        else none := by
  induction ws with
  | nil =>
    intro pre cur i tail _ _ hcur
    rw [joined_nil, if_pos (by simpa using hcur), List.count_nil, Nat.add_zero, getD_append_singleton]
    rfl
  | cons w ws ih =>
    intro pre cur i tail hargs hn hcur
    have hget : (args[i]?).join = some w := by
      have hhead := congrArg List.head? hargs
      rw [List.head?_drop] at hhead
      rw [hhead]
      rfl
    have hargs' : args.drop (i + 1) = ws.map some ++ tail := by
      rw [← List.drop_drop, hargs]
      rfl
    rw [List.length_cons, splitLoop, hget, Option.bind_some]
    by_cases hw : w = semicolon
    · have hcount : pre.length + (semicolon :: ws).count semicolon =
          (pre ++ [cur]).length + ws.count semicolon := by
        rw [List.count_cons_self, List.length_append, List.length_singleton]
        omega
      rw [hw, hcount] at hn
      have hlen : (pre ++ [cur]).length = pre.length + 1 := by simp
      have hset := setArgnum_storedFor unwritten (pre ++ [cur]) (show pre.length < n by omega)
      rw [getD_append_singleton] at hset
      have hstep := ih (pre ++ [cur]) [] (i + 1) tail hargs' hn ⟨by simp, by simp⟩
      rw [storedFor_append_nil, nil_joined, hlen, ← List.append_cons] at hstep
      rw [if_pos hw, hset, Option.bind_some]
      refine hstep.trans ?_
      rw [hw, joined_sep, hcount, hlen]
      simp only [List.forall_mem_cons, hcur, true_and]
    · have hcount : (w :: ws).count semicolon = ws.count semicolon := List.count_cons_of_ne hw
      rw [hcount] at hn ⊢
      rw [if_neg hw, strcpy_storedFor (by omega) hcur.1, joined_cons cur hw]
      by_cases hfits : cur.length < 10 ∧ w.length < 256
      · rw [if_pos hfits, Option.bind_some]
        have hcur' : WordsFit (cur ++ [w]) := by
          refine ⟨by simpa using Nat.le_of_lt_succ (Nat.succ_lt_succ hfits.1), fun v hv => ?_⟩
          rcases List.mem_append.1 hv with hv | hv
          · exact hcur.2 v hv
          · rw [List.mem_singleton.1 hv]
            exact hfits.2
        have hstep := ih pre (cur ++ [w]) (i + 1) tail hargs' hn hcur'
        rwa [List.length_append, List.length_singleton] at hstep
      · rw [if_neg hfits, Option.bind_none, if_neg]
        intro hall
        obtain ⟨hlen, hlt⟩ := wordsFit_of_joined hall
        rw [List.length_append, List.length_singleton] at hlen
        exact hfits ⟨by omega, hlt w (by simp)⟩

/-- The words of a line that fit their strings are copied there, command by command. -/
theorem splitCommands_eq (unwritten : ℕ → ℕ → Text) (words : List Text) :
    splitCommands unwritten ⟨words.map some ++ [none], words.length, words.count semicolon⟩ =
      if Fits words then
        some (storedFor unwritten (words.count semicolon + 1) (cmds words) (words.count semicolon + 1))
      else none := by
  have hfresh : (⟨(List.range (words.count semicolon + 1)).map fun i => freshRow (unwritten i),
      List.replicate (words.count semicolon + 1) none⟩ : Stored) =
        storedFor unwritten (words.count semicolon + 1) ([] ++ [[]]) 0 := by
    rw [storedFor_append_nil]
    unfold storedFor
    refine congrArg₂ Stored.mk ?_ ?_
    · simp [rowFor]
    · simp [List.map_const']
  have hloop := splitLoop_eq unwritten (words.count semicolon + 1) (words.map some ++ [none]) words
    [] [] 0 [none] rfl (by simp) ⟨by simp, by simp⟩
  rw [List.length_nil, ← hfresh, nil_joined, ← cmds_eq] at hloop
  simp only [List.length_nil, List.nil_append, Nat.zero_add] at hloop
  unfold splitCommands
  simp only [hloop]
  have hiff : (∀ c ∈ cmds words, WordsFit c) ↔ Fits words := Iff.rfl
  by_cases hfits : Fits words
  · rw [if_pos hfits, if_pos (hiff.2 hfits), Option.bind_some, Nat.add_sub_cancel]
    exact setArgnum_storedFor unwritten (cmds words) (Nat.lt_succ_self _)
  · rw [if_neg hfits, if_neg fun h => hfits (hiff.1 h), Option.bind_none]

/-! ## Which lines are split -/

/-- The lexer has stored the words and counted the `;`s among them, and `main` has stored each command
in its own strings, and the number of its words. -/
structure SplitInto (words : List Text) (l : Lexed) (s : Stored) : Prop where
  args : l.args.take l.numArgs = words.map some
  numArgs : l.numArgs = words.length
  ret : l.ret = words.count semicolon
  commands : (cmds words).length = l.ret + 1
  argnum : ∀ (i : ℕ) (c : List Text), (cmds words)[i]? = some c →
    s.argnumArray[i]? = some (some c.length)
  strings : ∀ (i : ℕ) (c : List Text), (cmds words)[i]? = some c →
    ∃ row : Row, s.cmds[i]? = some row ∧ row.take c.length = c.map some

/-- The maximal runs of the line are split into commands, and no access leaves its array. -/
def Splits (unwritten : ℕ → ℕ → Text) (line : Text) : Prop :=
  ∃ words l s, MaximalRuns line words ∧ lexerPasses line = some l ∧
    splitCommands unwritten l = some s ∧ SplitInto words l s

/-- For every line: it is split into its commands if and only if each command has at most ten words,
of at most 255 bytes. -/
theorem splits_iff (unwritten : ℕ → ℕ → Text) (line : Text) :
    Splits unwritten line ↔ Fits (tokens line) := by
  have hlexer := lexerPasses_eq line
  constructor
  · rintro ⟨words, l, s, -, hl, hs, -⟩
    rw [hlexer] at hl
    rw [← Option.some.inj hl, splitCommands_eq] at hs
    by_contra hfits
    rw [if_neg hfits] at hs
    cases hs
  · intro hfits
    have hlt : ∀ (i : ℕ) (c : List Text), (cmds (tokens line))[i]? = some c →
        i < (tokens line).count semicolon + 1 ∧ (cmds (tokens line)).getD i [] = c := by
      intro i c hc
      obtain ⟨hi, -⟩ := List.getElem?_eq_some_iff.1 hc
      rw [length_cmds] at hi
      refine ⟨hi, ?_⟩
      rw [List.getD_eq_getElem?_getD, hc]
      rfl
    refine ⟨tokens line, _, _, maximalRuns_tokens line, hlexer,
      (splitCommands_eq unwritten _).trans (if_pos hfits), by simp, rfl, rfl, length_cmds _,
      fun i c hc => ?_, fun i c hc => ?_⟩
    · obtain ⟨hi, hget⟩ := hlt i c hc
      simp only [storedFor, List.getElem?_map, List.getElem?_range hi, Option.map_some, if_pos hi, hget]
    · obtain ⟨hi, hget⟩ := hlt i c hc
      refine ⟨_, storedFor_cmds_get hi, ?_⟩
      rw [hget]
      simp [rowFor]

/-- A line of eleven words. -/
def elevenWords : Text := "/bin/echo a a a a a a a a a a".toList

/-- The eleventh word has no string. -/
theorem not_splits_elevenWords : ¬ Splits (fun _ _ => []) elevenWords := by
  rw [splits_iff]
  decide

end SystemsProjects.Smash
