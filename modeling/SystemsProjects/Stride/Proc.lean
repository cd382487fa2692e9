import Mathlib.Algebra.GroupWithZero.Nat
import Mathlib.Data.Fin.Basic
import Mathlib.Data.List.FinRange
import Mathlib.Logic.Function.Basic
import SystemsProjects.Lib.MachineInt
import SystemsProjects.Lib.Trace

/-!
# The process table of the stride-scheduling kernel

The scheduling part of `P4/xv6/kernel/proc.c`: the process table, the per-CPU `scheduler` loop and
the operations that change a process's state, stride or pass value.  Each operation that holds
`ptable.lock` is one step; `fork` is two (`allocproc` and the part after it), because the slot is
visible as `EMBRYO` in between and the parent can be preempted there.  Memory, files and the trap
frame do not enter; whether `kalloc` or `copyuvm` fails inside `fork` is left open.
-/

namespace SystemsProjects.Stride

open MachineInt

abbrev NPROC : ℕ := 64

abbrev NCPU : ℕ := 8

instance : NeZero NPROC := ⟨by decide⟩

instance : NeZero NCPU := ⟨by decide⟩

def MAXSTRIDE : ℤ := 10000

abbrev Slot := Fin NPROC

inductive ProcState where
  | unused | embryo | sleeping | runnable | running | zombie
  deriving DecidableEq, Repr

/-- Sleep channels: the address of a process (used by `wait`) or any other kernel address. -/
inductive Chan where
  | proc (p : Slot)
  | addr (a : ℕ)
  deriving DecidableEq, Repr

/-- The fields of `struct proc` that the scheduler and the process operations read. -/
structure Proc where
  state : ProcState := .unused
  pid : ℤ := 0
  parent : Option Slot := none
  chan : Option Chan := none
  killed : Bool := false
  initStride : ℤ := 0
  tickets : ℤ := 0
  passvalue : ℤ := 0
  ticks : ℤ := 0
  deriving DecidableEq, Repr

/-- Per-CPU data: the current process and `scheduler`'s local `chosenProc`, which is uninitialised
(`none`) until the first selection. -/
structure Cpu where
  proc : Option Slot := none
  chosenProc : Option Slot := none
  deriving DecidableEq, Repr

structure Kernel where
  table : Slot → Proc
  nextpid : ℤ
  initproc : Option Slot
  cpus : Fin NCPU → Cpu
  /-- The local `np` of a `fork` that has run `allocproc` but not returned yet. -/
  np : Slot → Option Slot
  /-- A panic, or control passed to a stack that does not belong to a live context. -/
  halted : Bool

/-- The state after `pinit`. -/
def boot : Kernel where
  table _ := {}
  nextpid := 1
  initproc := none
  cpus _ := {}
  np _ := none
  halted := false

namespace Kernel

variable (k : Kernel)

def setProc (p : Slot) (v : Proc) : Kernel := { k with table := Function.update k.table p v }

def setCpu (c : Fin NCPU) (v : Cpu) : Kernel := { k with cpus := Function.update k.cpus c v }

/-- The CPU goes back to `scheduler`, which clears `proc`. -/
def release (c : Fin NCPU) : Kernel := k.setCpu c { k.cpus c with proc := none }

end Kernel

/-! ## The scheduler -/

/-- One iteration of the selection loop, on `(lowestPV, chosenProc)`. -/
def scanStep (table : Slot → Proc) (acc : ℤ × Option Slot) (p : Slot) : ℤ × Option Slot :=
  if (table p).state = .runnable then
    if acc.1 = -1 ∨ (table p).passvalue < acc.1 then ((table p).passvalue, some p) else acc
  else acc

/-- The selection loop.  `lowestPV` is `-1` whenever it starts; `chosenProc` keeps the value of the
previous outer iteration. -/
def scan (table : Slot → Proc) (chosenProc : Option Slot) : ℤ × Option Slot :=
  (List.finRange NPROC).foldl (scanStep table) (-1, chosenProc)

/-- What one outer iteration of `scheduler` did up to `swtch`. -/
structure Iteration where
  /-- The process `swtch` goes to. -/
  switchedTo : Option Slot
  /-- `chosenProc` was dereferenced without ever having been assigned. -/
  wild : Bool
  after : Kernel

/-- A context can be resumed if its process gave up the CPU in `yield`, `sleep` or has just been
forked; a zombie resumes into `panic("zombie exit")`, the others have no context of their own. -/
def resumable (s : ProcState) : Bool := s = .runnable ∨ s = .sleeping

/-- One outer iteration of `scheduler` on CPU `c`, up to and including `swtch`. -/
def scheduler (k : Kernel) (c : Fin NCPU) : Iteration :=
  match (scan k.table (k.cpus c).chosenProc).2 with
  | none => { switchedTo := none, wild := true, after := { k with halted := true } }
  | some p =>
    let v := k.table p
    let v' := { v with passvalue := toInt32 (v.passvalue + v.initStride),
                       ticks := toInt32 (v.ticks + 1), state := .running }
    { switchedTo := some p, wild := false,
      after := { (k.setProc p v').setCpu c { proc := some p, chosenProc := some p } with
        halted := !resumable v.state } }

/-! ## Process operations -/

/-- The first slot in table order with property `f`. -/
def findSlot (f : Slot → Bool) : Option Slot := (List.finRange NPROC).find? f

/-- The locked part of `allocproc`: take an `UNUSED` slot and initialise its scheduling fields. -/
def allocproc (k : Kernel) : Option (Slot × Kernel) :=
  (findSlot fun p => (k.table p).state = .unused).map fun p =>
    let v := { k.table p with state := .embryo, pid := k.nextpid, tickets := 1, ticks := 0,
                              initStride := MAXSTRIDE / 1, passvalue := MAXSTRIDE / 1 }
    (p, { k.setProc p v with nextpid := toInt32 (k.nextpid + 1) })

/-- `userinit`: the first process, made runnable by the boot CPU. -/
def userinit (k : Kernel) : Option Kernel :=
  if k.initproc.isSome then none
  else (allocproc k).map fun (p, k') =>
    { k'.setProc p { k'.table p with state := .runnable } with initproc := some p }

/-- `fork` up to the return of `allocproc`; `none` in `np` afterwards is the return value `-1`. -/
def forkBegin (k : Kernel) (p : Slot) : Option Kernel :=
  if (k.np p).isSome then none
  else match allocproc k with
    | none => some k
    | some (np, k') => some { k' with np := Function.update k'.np p (some np) }

/-- `fork` when `kalloc` (for the kernel stack) or `copyuvm` failed: the slot is given back. -/
def forkFail (k : Kernel) (p : Slot) : Option Kernel :=
  (k.np p).map fun np =>
    { k.setProc np { k.table np with state := .unused } with np := Function.update k.np p none }

/-- `fork` after a successful `copyuvm`. -/
def forkEnd (k : Kernel) (p : Slot) : Option Kernel :=
  (k.np p).map fun np =>
    let v := { k.table np with
      parent := some p, initStride := (k.table p).initStride, tickets := (k.table p).tickets,
      passvalue := (k.table p).initStride, ticks := 0, state := .runnable }
    { k.setProc np v with np := Function.update k.np p none }

def wakeup1 (k : Kernel) (chan : Chan) : Kernel :=
  { k with table := fun p =>
      if (k.table p).state = .sleeping ∧ (k.table p).chan = some chan then
        { k.table p with state := .runnable }
      else k.table p }

def sleep (k : Kernel) (c : Fin NCPU) (p : Slot) (chan : Chan) : Kernel :=
  (k.setProc p { k.table p with chan := some chan, state := .sleeping }).release c

def yield (k : Kernel) (c : Fin NCPU) (p : Slot) : Kernel :=
  (k.setProc p { k.table p with state := .runnable }).release c

def kill (k : Kernel) (pid : ℤ) : Kernel :=
  match findSlot fun p => (k.table p).pid = pid with
  | none => k
  | some p =>
    k.setProc p { k.table p with
      killed := true,
      state := if (k.table p).state = .sleeping then .runnable else (k.table p).state }

/-- `exit` from `wakeup1(proc->parent)` on.  A child that is already a zombie wakes `initproc`. -/
def exit (k : Kernel) (c : Fin NCPU) (p : Slot) : Kernel :=
  if k.initproc = some p then { k with halted := true }
  else
    let k₁ := match (k.table p).parent with
      | some q => wakeup1 k (.proc q)
      | none => k
    let orphans := (List.finRange NPROC).filter fun q => (k₁.table q).parent = some p
    let k₂ := orphans.foldl (fun k q =>
      let k := k.setProc q { k.table q with parent := k.initproc }
      match k.initproc with
      | some i => if (k.table q).state = .zombie then wakeup1 k (.proc i) else k
      | none => k) k₁
    (k₂.setProc p { k₂.table p with state := .zombie }).release c

/-- `wait`: reap the first zombie child, return `-1`, or sleep on the process's own address. -/
def wait (k : Kernel) (c : Fin NCPU) (p : Slot) : Kernel :=
  match findSlot fun q => (k.table q).parent = some p ∧ (k.table q).state = .zombie with
  | some q =>
    k.setProc q { k.table q with state := .unused, pid := 0, parent := none, killed := false }
  | none =>
    if (findSlot fun q => (k.table q).parent = some p).isNone ∨ (k.table p).killed then k
    else sleep k c p (.proc p)

/-- `sys_settickets` with the argument already fetched. -/
def sysSettickets (k : Kernel) (p : Slot) (initTick : ℤ) : Kernel :=
  if initTick ≤ 0 then k
  else k.setProc p { k.table p with
    tickets := initTick, initStride := MAXSTRIDE / initTick, passvalue := MAXSTRIDE / initTick }

/-! ## Steps -/

inductive Event where
  | userinit
  | schedule (c : Fin NCPU)
  | yield (c : Fin NCPU)
  | sleep (c : Fin NCPU) (chan : Chan)
  | exit (c : Fin NCPU)
  | wait (c : Fin NCPU)
  | forkBegin (c : Fin NCPU)
  | forkFail (c : Fin NCPU)
  | forkEnd (c : Fin NCPU)
  | settickets (c : Fin NCPU) (initTick : ℤ)
  /-- By a running process, or by a device interrupt that arrives at any time. -/
  | wakeup (chan : Chan)
  | kill (c : Fin NCPU) (pid : ℤ)
  deriving DecidableEq

/-- An operation of the process running on CPU `c`. -/
def onCpu (k : Kernel) (c : Fin NCPU) (f : Slot → Option Kernel) : Option Kernel :=
  (k.cpus c).proc.bind f

/-- The step function; a halted kernel takes no step. -/
def step (k : Kernel) (e : Event) : Option Kernel :=
  if k.halted then none
  else match e with
    | .userinit => userinit k
    | .schedule c => if (k.cpus c).proc = none then some (scheduler k c).after else none
    | .yield c => onCpu k c fun p => some (yield k c p)
    | .sleep c chan => onCpu k c fun p => some (sleep k c p chan)
    | .exit c => onCpu k c fun p => some (exit k c p)
    | .wait c => onCpu k c fun p => some (wait k c p)
    | .forkBegin c => onCpu k c fun p => forkBegin k p
    | .forkFail c => onCpu k c fun p => forkFail k p
    | .forkEnd c => onCpu k c fun p => forkEnd k p
    | .settickets c n => onCpu k c fun p => some (sysSettickets k p n)
    | .wakeup chan => some (wakeup1 k chan)
    | .kill c pid => onCpu k c fun _ => some (kill k pid)

end SystemsProjects.Stride
