import Mathlib.Data.List.Basic
import SystemsProjects.Lib.MachineInt
import SystemsProjects.Lib.Stores

/-!
# The system call `getprocstate`

`sys_getprocstate` and `getprocstate` of the P2 kernel, with the functions that fetch the arguments and
with `strncpy`.  The pointer is checked as the beginning of a string that ends below `proc->sz`; what
`strncpy` then writes there has `n` bytes, whatever the string is.  `writesUserOnly_iff` says when this
changes nothing at `proc->sz` and above.
-/

namespace SystemsProjects.Xv6

open MachineInt Stores

/-- `enum procstate`. -/
inductive ProcState where
  | UNUSED | EMBRYO | SLEEPING | RUNNABLE | RUNNING | ZOMBIE
  deriving DecidableEq

structure Proc where
  pid : ℤ
  state : ProcState

/-- What the call sees: the address space, and which addresses of it the kernel can write without a fault,
`proc->sz`, `proc->tf->esp`, and the slots of `ptable`. -/
structure Call where
  mem : ℕ → UInt8
  writable : ℕ → Bool
  sz : ℕ
  esp : ℕ
  ptable : List Proc

/-! ## Arguments -/

/-- The four bytes at an address. -/
def word (mem : ℕ → UInt8) (addr : ℕ) : ℕ :=
  (mem addr).toNat + 256 * (mem (address (addr + 1))).toNat +
    65536 * (mem (address (addr + 2))).toNat + 16777216 * (mem (address (addr + 3))).toNat

def fetchint (c : Call) (addr : ℕ) : Option ℤ :=
  if addr ≥ c.sz ∨ address (addr + 4) > c.sz then none else some (toInt32 (word c.mem addr))

/-- The string that begins at `addr`, and its length. -/
def fetchstr (c : Call) (addr : ℕ) : Option (ℕ × ℕ) :=
  if addr ≥ c.sz then none
  else ((List.range (c.sz - addr)).find? fun k => c.mem (addr + k) = 0).map fun k => (addr, k)

def argint (c : Call) (n : ℕ) : Option ℤ := fetchint c (address (c.esp + 4 + 4 * n))

def argstr (c : Call) (n : ℕ) : Option (ℕ × ℕ) :=
  (argint c n).bind fun addr => fetchstr c (addr % 4294967296).toNat

/-! ## The copy -/

/-- The letters of a string in C. -/
def letters (t : String) : List UInt8 := t.toList.map fun c => UInt8.ofNat c.toNat

/-- The first loop of `strncpy`, with the `n` that is left for the second. -/
def copyLoop (writable : ℕ → Bool) : ℕ → List UInt8 → Cursor → ℕ × Cursor
  | 0, _, c => (0, c)
  | n + 1, [], c => (n, c.put writable 0)
  | n + 1, b :: t, c => copyLoop writable n t (c.put writable b)

def padLoop (writable : ℕ → Bool) : ℕ → Cursor → Cursor
  | 0, c => c
  | n + 1, c => padLoop writable n (c.put writable 0)

def strncpy (writable : ℕ → Bool) (mem : ℕ → UInt8) (s : ℕ) (t : List UInt8) (n : ℕ) : Cursor :=
  let copied := copyLoop writable n t ⟨mem, s, false⟩
  padLoop writable copied.1 copied.2

def ProcState.name : ProcState → List UInt8
  | .UNUSED => letters "unused"
  | .EMBRYO => letters "embryo"
  | .SLEEPING => letters "sleep "
  | .RUNNABLE => letters "runble"
  | .RUNNING => letters "run   "
  | .ZOMBIE => letters "zombie"

/-- The memory after a call, and what it returns; `none` if the kernel has stopped at a fault. -/
structure Result where
  mem : ℕ → UInt8
  ret : Option ℤ

def getprocstate (c : Call) (pid : ℤ) (state : ℕ) (n : ℤ) : Result :=
  if n < 7 then ⟨c.mem, some (-1)⟩
  else
    match c.ptable.find? fun p => p.pid = pid with
    | none => ⟨c.mem, some (-1)⟩
    | some p =>
      let copied := strncpy c.writable c.mem state p.state.name n.toNat
      ⟨copied.mem, if copied.stopped then none else some 0⟩

def sysGetprocstate (c : Call) : Result :=
  match argint c 0, argint c 2, argstr c 1 with
  | some pid, some n, some (state, _) => getprocstate c pid state n
  | _, _, _ => ⟨c.mem, some (-1)⟩

/-- The call changes no byte outside the memory of the process. -/
def WritesUserOnly (c : Call) : Prop := ∀ a, c.sz ≤ a → (sysGetprocstate c).mem a = c.mem a

/-! ## What is written -/

/-- The `n` bytes that `strncpy` stores for `t`. -/
def padded (t : List UInt8) (n : ℕ) : List UInt8 := (t ++ List.replicate n 0).take n

theorem length_padded (t : List UInt8) (n : ℕ) : (padded t n).length = n := by
  simp [padded]

variable {writable : ℕ → Bool}

theorem padLoop_eq (n : ℕ) (c : Cursor) :
    padLoop writable n c = c.puts writable (List.replicate n 0) := by
  induction n generalizing c with
  | zero => rfl
  | succ n ih => exact ih _

theorem padded_nil (n : ℕ) : padded [] n = List.replicate n 0 := by simp [padded]

theorem padded_cons (b : UInt8) (t : List UInt8) (n : ℕ) : padded (b :: t) (n + 1) = b :: padded t n := by
  unfold padded
  rw [List.cons_append, List.take_succ_cons, List.replicate_succ']
  rw [← List.append_assoc, List.take_append_of_le_length (by simp)]

theorem loops_eq (t : List UInt8) (n : ℕ) (c : Cursor) :
    padLoop writable (copyLoop writable n t c).1 (copyLoop writable n t c).2 =
      c.puts writable (padded t n) := by
  induction t generalizing n c with
  | nil =>
    rw [padded_nil]
    cases n with
    | zero => rfl
    | succ n => exact padLoop_eq n _
  | cons b t ih =>
    cases n with
    | zero => rfl
    | succ n =>
      rw [padded_cons]
      exact ih n _

theorem strncpy_eq (mem : ℕ → UInt8) (s : ℕ) (t : List UInt8) (n : ℕ) :
    strncpy writable mem s t n = (Cursor.mk mem s false).puts writable (padded t n) :=
  loops_eq t n _

/-! ## Which calls write user memory only -/

/-- The slot of `ptable` that a call finds, and where it copies how many bytes. -/
structure Copies (c : Call) (p : Proc) (state : ℕ) (n : ℤ) : Prop where
  pid : ∃ pid, argint c 0 = some pid ∧ (c.ptable.find? fun p => p.pid = pid) = some p
  count : argint c 2 = some n
  state : ∃ length, argstr c 1 = some (state, length)
  enough : 7 ≤ n

/-- Each byte at `proc->sz` and above that the copy of `t` reaches is there already. -/
def Harmless (c : Call) (t : List UInt8) (state n : ℕ) : Prop :=
  ∀ j < n, Reaches c.writable state j → c.sz ≤ address (state + j) →
    (padded t n)[j]? = some (c.mem (address (state + j)))

variable {c : Call} {p : Proc} {state : ℕ} {n : ℤ}

/-- A buffer that lies below `proc->sz` is enough. -/
theorem harmless_of_le {n : ℕ} (hsz : c.sz ≤ 4294967296) (h : state + n ≤ c.sz) (t : List UInt8) :
    Harmless c t state n := by
  intro j hj _ habove
  unfold address at habove
  omega

theorem argint_le {k : ℕ} (h : argint c k = some n) : n ≤ INT_MAX := by
  unfold argint fetchint at h
  split_ifs at h
  rw [← Option.some.inj h]
  exact toInt32_le _

/-- A call that copies nothing leaves the memory as it is. -/
theorem sysGetprocstate_mem (h : ∀ p state n, ¬ Copies c p state n) : (sysGetprocstate c).mem = c.mem := by
  unfold sysGetprocstate
  split
  · next pid n state length hpid hn hstate =>
    unfold getprocstate
    split_ifs with hlt
    · rfl
    · split
      · rfl
      · next p hfind => exact absurd ⟨⟨pid, hpid, hfind⟩, hn, ⟨length, hstate⟩, Int.not_lt.1 hlt⟩ (h p state n)
  · rfl

theorem Copies.mem_eq (h : Copies c p state n) : (sysGetprocstate c).mem =
    ((Cursor.mk c.mem state false).puts c.writable (padded p.state.name n.toNat)).mem := by
  obtain ⟨pid, hpid, hfind⟩ := h.pid
  obtain ⟨length, hstate⟩ := h.state
  unfold sysGetprocstate getprocstate
  rw [hpid, h.count, hstate]
  simp only [if_neg (Int.not_lt.2 h.enough), hfind, strncpy_eq]

/-- A call that copies changes nothing above if and only if what it stores there is there already. -/
theorem Copies.keeps_iff_harmless (h : Copies c p state n) :
    WritesUserOnly c ↔ Harmless c p.state.name state n.toNat := by
  have hlen := length_padded p.state.name n.toNat
  have hmax := argint_le h.count
  have hshort : (padded p.state.name n.toNat).length ≤ 4294967296 := by
    unfold INT_MAX at hmax
    omega
  unfold WritesUserOnly Harmless
  rw [h.mem_eq]
  constructor
  · intro hkeeps j hj hreach habove
    have hj' : j < (padded p.state.name n.toNat).length := by rwa [hlen]
    rw [← hkeeps _ habove, stores_get hshort hj' hreach, List.getElem?_eq_getElem hj']
  · intro hthere a habove
    by_contra hne
    obtain ⟨j, hj, hreach, rfl⟩ := changed_of_stores hne
    have hsame := hthere j (by rwa [hlen] at hj) hreach habove
    rw [List.getElem?_eq_getElem hj, Option.some.injEq] at hsame
    rw [stores_get hshort hj hreach] at hne
    exact hne hsame

/-- For every memory, process table and arguments: the call changes no byte at `proc->sz` or above if and
only if it copies nothing, or each byte there that the copy reaches already holds what is stored. -/
theorem writesUserOnly_iff (c : Call) :
    WritesUserOnly c ↔ ∀ p state n, Copies c p state n → Harmless c p.state.name state n.toNat := by
  constructor
  · exact fun h p state n hcopies => hcopies.keeps_iff_harmless.1 h
  · intro h
    by_cases hcopies : ∃ p state n, Copies c p state n
    · obtain ⟨p, state, n, hcopies⟩ := hcopies
      exact hcopies.keeps_iff_harmless.2 (h p state n hcopies)
    · intro a _
      rw [sysGetprocstate_mem fun p state n hc => hcopies ⟨p, state, n, hc⟩]

/-- A process of 16400 bytes, of whose last page everything behind is zero, asks for its own state, with
the last byte of its memory as the buffer of seven bytes. -/
def lastByte : Call where
  mem a := if a = 16004 then 1 else if a = 16008 then 15 else if a = 16009 then 64
    else if a = 16012 then 7 else 0
  writable a := a < 20480
  sz := 16400
  esp := 16000
  ptable := [⟨1, .RUNNING⟩]

/-- The second letter goes to the first byte behind the memory of the process. -/
theorem not_writesUserOnly_lastByte : ¬ WritesUserOnly lastByte := by
  intro h
  exact absurd (h 16400 (by decide)) (by decide)

end SystemsProjects.Xv6
