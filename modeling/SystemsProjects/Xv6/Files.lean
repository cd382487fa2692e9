import Mathlib.Algebra.GroupWithZero.Nat
import Mathlib.Data.Fintype.Basic
import Mathlib.Data.Fintype.BigOperators
import Mathlib.Data.List.FinRange
import SystemsProjects.Lib.Ledger
import SystemsProjects.Lib.Trace

/-!
# The file table

`kernel/file.c`, the calls of `kernel/sysfile.c` and `kernel/proc.c` that move references to open files,
pipes and in-core inodes, and `iget`, `idup` and `iput` of `kernel/fs.c`.  A step is one critical section of
the table that it works on, or code of one process between two of them; the processes take their steps in
any order.

Where the source would use a page that is not a pipe any more, drop a reference that is not there or follow
a null pointer, the model stops with a `Fault`, as it does for a `panic`.
-/

namespace SystemsProjects.Xv6.Files

def NPROC : ℕ := 64

def NOFILE : ℕ := 16

def NFILE : ℕ := 100

def NINODE : ℕ := 50

def ROOTDEV : BitVec 32 := 1

def ROOTINO : BitVec 32 := 1

def O_RDONLY : BitVec 32 := 0x000

def O_WRONLY : BitVec 32 := 0x001

def O_RDWR : BitVec 32 := 0x002

def O_CREATE : BitVec 32 := 0x200

instance : NeZero NPROC := ⟨Nat.succ_ne_zero _⟩

instance : NeZero NOFILE := ⟨Nat.succ_ne_zero _⟩

instance : NeZero NFILE := ⟨Nat.succ_ne_zero _⟩

instance : NeZero NINODE := ⟨Nat.succ_ne_zero _⟩

/-- A slot of `ptable.proc`. -/
abbrev Slot := Fin NPROC

abbrev Fd := Fin NOFILE

/-- A pointer into `ftable.file`. -/
abbrev FileRef := Fin NFILE

/-- A pointer into `icache.inode`. -/
abbrev IRef := Fin NINODE

/-- A page from `kalloc`. -/
abbrev Page := ℕ

inductive FileType where
  | none
  | pipe
  | inode
  deriving DecidableEq

structure File where
  type : FileType
  ref : ℕ
  readable : Bool
  writable : Bool
  pipe : Page
  ip : IRef
  deriving DecidableEq

structure Pipe where
  readopen : Bool
  writeopen : Bool
  deriving DecidableEq

/-- `pipeclose` clears one of the two flags. -/
def Pipe.close (x : Pipe) (writable : Bool) : Pipe :=
  if writable then { x with writeopen := false } else { x with readopen := false }

structure Inode where
  dev : BitVec 32
  inum : BitVec 32
  ref : ℕ

/-- `SLEEPING`, `RUNNABLE` and `RUNNING` are one state here. -/
inductive ProcState where
  | unused
  | embryo
  | runnable
  | zombie
  deriving DecidableEq

/-- What a process still has to give back before its system call goes on. -/
inductive Closing where
  | fileclose (f : FileRef)
  /-- `fileclose` after its critical section, with the copy `ff`. -/
  | last (ff : File)
  /-- `kfree` in `pipeclose` -/
  | kfree (p : Page)
  | iput (ip : IRef)
  deriving DecidableEq

/-- Where a process is in its system call. -/
inductive Point where
  | user
  /-- `filedup` in `sys_dup` -/
  | dup (f : FileRef) (fd : Fd)
  /-- `piperead` or `pipewrite` -/
  | pipeIo (fd : Fd) (p : Page)
  /-- `ilock` in `fileread` or `filewrite` -/
  | inodeIo (fd : Fd) (f : FileRef)
  /-- `sys_open` with the inode from `namei` or `create` -/
  | open_ (ip : IRef) (omode : BitVec 32)
  /-- `fdalloc` in `sys_open` -/
  | openFd (ip : IRef) (omode : BitVec 32) (f : FileRef)
  /-- The assignments at the end of `sys_open` -/
  | openSet (ip : IRef) (omode : BitVec 32) (f : FileRef) (fd : Fd)
  /-- The first `filealloc` of `pipealloc` -/
  | pipe0
  /-- The second one -/
  | pipe1 (f0 : FileRef)
  /-- `kalloc` in `pipealloc` -/
  | pipePage (f0 f1 : FileRef)
  /-- The two `fdalloc` of `sys_pipe` -/
  | pipeFd (rf wf : FileRef)
  /-- `cowuvm` in `fork` -/
  | forkVm (np : Slot)
  /-- The loop of `fork` -/
  | forkFd (np : Slot) (k : ℕ)
  /-- The loop of `exit` -/
  | exit (k : ℕ)
  /-- `proc->ofile[fd] = 0` in `exit` -/
  | clear (fd : Fd)
  /-- `proc->cwd = 0` in `exit` -/
  | exitCwd
  /-- `sys_chdir` with the inode from `namei` -/
  | chdir (ip : IRef)
  /-- `proc->cwd = ip` in `sys_chdir` -/
  | setCwd (ip : IRef)
  deriving DecidableEq

structure Proc where
  state : ProcState
  pid : ℕ
  ofile : Fd → Option FileRef
  cwd : Option IRef
  /-- What the last system call has returned, and the descriptors that the last `sys_pipe` has stored. -/
  eax : ℤ
  fds : Option (Fd × Fd)
  point : Point
  closing : List Closing

namespace Proc

variable (p : Proc)

/-- The things to give back. -/
def owe (cs : List Closing) : Proc := { p with closing := cs }

def goto (pt : Point) : Proc := { p with point := pt }

/-- The system call ends, once what is in `cs` has been given back. -/
def ret (cs : List Closing) (v : ℤ) : Proc := { p with point := .user, closing := cs, eax := v }

def setFd (fd : Fd) (f : Option FileRef) : Proc := { p with ofile := Function.update p.ofile fd f }

/-- `fd[0] = fd0; fd[1] = fd1` -/
def setFds (fd0 fd1 : Fd) : Proc := { p with fds := some (fd0, fd1) }

def setCwd (ip : Option IRef) : Proc := { p with cwd := ip }

def setState (state : ProcState) : Proc := { p with state := state }

def setPid (pid : ℕ) : Proc := { p with pid := pid }

end Proc

inductive Fault where
  | panic (text : String)
  /-- A page is used as a pipe that is none. -/
  | freed
  /-- A reference to an inode is dropped that is not there. -/
  | iput
  /-- A null pointer. -/
  | null
  deriving DecidableEq

structure State where
  fault : Option Fault
  file : FileRef → File
  page : Page → Option Pipe
  inode : IRef → Inode
  proc : Slot → Proc
  parent : Slot → Option Slot
  nextpid : ℕ

/-- The only process that `userinit` makes. -/
def initproc : Slot := 0

namespace State

def setProc (s : State) (i : Slot) (p : Proc) : State := { s with proc := Function.update s.proc i p }

def setFile (s : State) (f : FileRef) (x : File) : State := { s with file := Function.update s.file f x }

def setPage (s : State) (p : Page) (x : Option Pipe) : State := { s with page := Function.update s.page p x }

def setInode (s : State) (ip : IRef) (x : Inode) : State := { s with inode := Function.update s.inode ip x }

def setParent (s : State) (i : Slot) (j : Option Slot) : State :=
  { s with parent := Function.update s.parent i j }

def nextPid (s : State) : State := { s with nextpid := s.nextpid + 1 }

def crash (s : State) (x : Fault) : State := { s with fault := some x }

/-- The process `i` goes on at `pt`. -/
def goto (s : State) (i : Slot) (pt : Point) : State := s.setProc i ((s.proc i).goto pt)

def ret (s : State) (i : Slot) (cs : List Closing) (v : ℤ) : State := s.setProc i ((s.proc i).ret cs v)

def owe (s : State) (i : Slot) (cs : List Closing) : State := s.setProc i ((s.proc i).owe cs)

end State

/-! ## Files -/

/-- The loop of `filealloc`. -/
def State.filealloc (s : State) : Option FileRef := (List.finRange NFILE).find? fun f => (s.file f).ref = 0

namespace File

variable (x : File)

/-- `f->ref = 1` -/
def alloc : File := { x with ref := 1 }

/-- `f->ref++` -/
def dup : File := { x with ref := x.ref + 1 }

/-- `--f->ref` -/
def drop : File := { x with ref := x.ref - 1 }

/-- `f->ref = 0; f->type = FD_NONE` -/
def free : File := { x with ref := 0, type := .none }

/-- The file of the reading or the writing end in `pipealloc`. -/
def toPipe (p : Page) (writable : Bool) : File :=
  { x with type := .pipe, readable := !writable, writable := writable, pipe := p }

/-- The end of `sys_open`. -/
def toInode (ip : IRef) (omode : BitVec 32) : File :=
  { x with
    type := .inode
    ip := ip
    readable := omode &&& O_WRONLY = 0
    writable := omode &&& O_WRONLY ≠ 0 ∨ omode &&& O_RDWR ≠ 0 }

end File

/-- The loop of `fdalloc`. -/
def fdalloc (ofile : Fd → Option FileRef) : Option Fd := (List.finRange NOFILE).find? fun fd => (ofile fd).isNone

def argfd (ofile : Fd → Option FileRef) (n : ℤ) : Option (Fd × FileRef) :=
  if h : 0 ≤ n ∧ n < NOFILE then
    let fd : Fd := ⟨n.toNat, (Int.toNat_lt h.1).2 h.2⟩
    (ofile fd).map fun f => (fd, f)
  else none

/-- `filedup`, then the rest of the call. -/
def State.filedup (s : State) (f : FileRef) (k : State → State) : State :=
  if (s.file f).ref < 1 then s.crash (.panic "filedup") else k (s.setFile f (s.file f).dup)

/-! ## Inodes -/

/-- `ip->ref++` -/
def Inode.dup (x : Inode) : Inode := { x with ref := x.ref + 1 }

/-- `ip->ref--` -/
def Inode.drop (x : Inode) : Inode := { x with ref := x.ref - 1 }

/-- The loop of `iget`, with the empty slot found so far. -/
def igetLoop (inode : IRef → Inode) (dev inum : BitVec 32) : Option IRef → List IRef → IRef ⊕ Option IRef
  | empty, [] => .inr empty
  | empty, ip :: rest =>
    if 0 < (inode ip).ref ∧ (inode ip).dev = dev ∧ (inode ip).inum = inum then .inl ip
    else igetLoop inode dev inum (if empty.isNone ∧ (inode ip).ref = 0 then some ip else empty) rest

/-- `iget`, then the rest of the call. -/
def State.iget (s : State) (dev inum : BitVec 32) (k : IRef → State → State) : State :=
  match igetLoop s.inode dev inum none (List.finRange NINODE) with
  | .inl ip => k ip (s.setInode ip (s.inode ip).dup)
  | .inr (some ip) => k ip (s.setInode ip ⟨dev, inum, 1⟩)
  | .inr none => s.crash (.panic "iget: no inodes")

/-- `ilock`, then the rest of the call. -/
def State.ilock (s : State) (ip : IRef) (k : State → State) : State :=
  if (s.inode ip).ref < 1 then s.crash (.panic "ilock") else k s

/-! ## Giving back -/

namespace State

variable (s : State) (i : Slot)

def fileclose (f : FileRef) (cs : List Closing) : State :=
  if (s.file f).ref < 1 then s.crash (.panic "fileclose")
  else if 0 < (s.file f).drop.ref then (s.setFile f (s.file f).drop).owe i cs
  else (s.setFile f (s.file f).free).owe i (.last (s.file f).drop :: cs)

def pipeclose (p : Page) (writable : Bool) (cs : List Closing) : State :=
  match s.page p with
  | none => s.crash .freed
  | some x =>
    let x' := x.close writable
    (s.setPage p (some x')).owe i (if !x'.readopen && !x'.writeopen then .kfree p :: cs else cs)

def kfree (p : Page) (cs : List Closing) : State :=
  match s.page p with
  | none => s.crash .freed
  | some _ => (s.setPage p none).owe i cs

def iput (ip : IRef) (cs : List Closing) : State :=
  if (s.inode ip).ref < 1 then s.crash .iput else (s.setInode ip (s.inode ip).drop).owe i cs

/-- The next thing to give back. -/
def close (cs : List Closing) : Closing → State
  | .fileclose f => s.fileclose i f cs
  | .last ff =>
    match ff.type with
    | .pipe => s.pipeclose i ff.pipe ff.writable cs
    | .inode => s.iput i ff.ip cs
    | .none => s.owe i cs
  | .kfree p => s.kfree i p cs
  | .iput ip => s.iput i ip cs

end State

/-! ## System calls -/

/-- A system call; `at_` is what `namei` or `create` finds, `kstack` whether `kalloc` has a page. -/
inductive Call where
  | dup (n : ℤ)
  | close (n : ℤ)
  | read (n : ℤ)
  | write (n : ℤ)
  | pipe
  | open_ (at_ : Option (BitVec 32 × BitVec 32)) (omode : BitVec 32)
  | chdir (at_ : Option (BitVec 32 × BitVec 32))
  | fork (kstack : Bool)
  | exit
  | wait

/-- What the rest of the kernel answers: whether `cowuvm` succeeds, the inode is a directory or the pipe is
done with, a page of `kalloc`, and how many bytes were moved. -/
structure Answer where
  ok : Bool
  page : Option Page
  moved : ℤ

inductive Event where
  | call (c : Call)
  | next (a : Answer)

namespace State

variable (s : State) (i : Slot)

/-- `fileread`, or `filewrite`: `allowed` is `f->readable` or `f->writable`. -/
def fileIo (n : ℤ) (allowed : File → Bool) (text : String) : State :=
  match argfd (s.proc i).ofile n with
  | none => s.ret i [] (-1)
  | some (fd, f) =>
    if !allowed (s.file f) then s.ret i [] (-1)
    else
      match (s.file f).type with
      | .pipe => s.goto i (.pipeIo fd (s.file f).pipe)
      | .inode => s.goto i (.inodeIo fd f)
      | .none => s.crash (.panic text)

/-- The loop of `wait`: a child that is a zombie. -/
def zombieChild : Option Slot :=
  (List.finRange NPROC).find? fun j => s.parent j = some i ∧ (s.proc j).state = .zombie

def wait : State :=
  match s.zombieChild i with
  | some j =>
    ((s.setProc j (((s.proc j).setState .unused).setPid 0)).setParent j none).ret i [] (s.proc j).pid
  | none =>
    -- somebody who has children sleeps
    if (List.finRange NPROC).any fun j => s.parent j = some i then s else s.ret i [] (-1)

/-- `allocproc` -/
def allocproc : Option Slot := (List.finRange NPROC).find? fun j => (s.proc j).state = .unused

def fork (kstack : Bool) : State :=
  match s.allocproc with
  | none => s.ret i [] (-1)
  | some np =>
    let p := (s.proc np).setPid s.nextpid
    if !kstack then (s.nextPid.setProc np p).ret i [] (-1)
    else (s.nextPid.setProc np (p.setState .embryo)).goto i (.forkVm np)

/-- The first part of a system call. -/
def call : Call → State
  | .dup n =>
    match argfd (s.proc i).ofile n with
    | none => s.ret i [] (-1)
    | some (_, f) =>
      match fdalloc (s.proc i).ofile with
      | none => s.ret i [] (-1)
      | some fd => s.setProc i (((s.proc i).setFd fd (some f)).goto (.dup f fd))
  | .close n =>
    match argfd (s.proc i).ofile n with
    | none => s.ret i [] (-1)
    | some (fd, f) => s.setProc i (((s.proc i).setFd fd none).ret [.fileclose f] 0)
  | .read n => s.fileIo i n File.readable "fileread"
  | .write n => s.fileIo i n File.writable "filewrite"
  | .pipe => s.goto i .pipe0
  | .open_ none _ => s.ret i [] (-1)
  | .open_ (some (dev, inum)) omode => s.iget dev inum fun ip s => s.goto i (.open_ ip omode)
  | .chdir none => s.ret i [] (-1)
  | .chdir (some (dev, inum)) => s.iget dev inum fun ip s => s.goto i (.chdir ip)
  | .fork kstack => s.fork i kstack
  | .exit => if i = initproc then s.crash (.panic "init exiting") else s.goto i (.exit 0)
  | .wait => s.wait i

/-- The two files of a pipe in `pipealloc`. -/
def fillPipe (f0 f1 : FileRef) (p : Page) : State :=
  let s1 := (s.setPage p (some ⟨true, true⟩)).setFile f0 ((s.file f0).toPipe p false)
  s1.setFile f1 ((s1.file f1).toPipe p true)

/-- The children of a process that exits get a new parent. -/
def abandon : State := { s with parent := fun j => if s.parent j = some i then some initproc else s.parent j }

/-- The next part of a system call. -/
def resume (a : Answer) : Point → State
  | .user => s
  | .dup f fd => s.filedup f fun s => s.ret i [] fd
  | .pipeIo _ p =>
    match s.page p with
    | none => s.crash .freed
    | some _ => if a.ok then s.ret i [] a.moved else s
  | .inodeIo _ f => s.ilock (s.file f).ip fun s => s.ret i [] a.moved
  | .open_ ip omode => s.ilock ip fun s =>
    if omode &&& O_CREATE = 0 ∧ a.ok ∧ omode ≠ O_RDONLY then s.ret i [.iput ip] (-1)
    else
      match s.filealloc with
      | none => s.ret i [.iput ip] (-1)
      | some f => (s.setFile f (s.file f).alloc).goto i (.openFd ip omode f)
  | .openFd ip omode f =>
    match fdalloc (s.proc i).ofile with
    | none => s.ret i [.fileclose f, .iput ip] (-1)
    | some fd => s.setProc i (((s.proc i).setFd fd (some f)).goto (.openSet ip omode f fd))
  | .openSet ip omode f fd => (s.setFile f ((s.file f).toInode ip omode)).ret i [] fd
  | .pipe0 =>
    match s.filealloc with
    | none => s.ret i [] (-1)
    | some f0 => (s.setFile f0 (s.file f0).alloc).goto i (.pipe1 f0)
  | .pipe1 f0 =>
    match s.filealloc with
    | none => s.ret i [.fileclose f0] (-1)
    | some f1 => (s.setFile f1 (s.file f1).alloc).goto i (.pipePage f0 f1)
  | .pipePage f0 f1 =>
    match a.page with
    | none => s.ret i [.fileclose f0, .fileclose f1] (-1)
    | some p => (s.fillPipe f0 f1 p).goto i (.pipeFd f0 f1)
  | .pipeFd rf wf =>
    match fdalloc (s.proc i).ofile with
    | none => s.ret i [.fileclose rf, .fileclose wf] (-1)
    | some fd0 =>
      let p := (s.proc i).setFd fd0 (some rf)
      match fdalloc p.ofile with
      | none => s.setProc i ((p.setFd fd0 none).ret [.fileclose rf, .fileclose wf] (-1))
      | some fd1 => s.setProc i (((p.setFd fd1 (some wf)).setFds fd0 fd1).ret [] 0)
  | .forkVm np =>
    if !a.ok then (s.setProc np ((s.proc np).setState .unused)).ret i [] (-1)
    else (s.setParent np (some i)).goto i (.forkFd np 0)
  | .forkFd np k =>
    if h : k < NOFILE then
      match (s.proc i).ofile ⟨k, h⟩ with
      | none => s.goto i (.forkFd np (k + 1))
      | some f => s.filedup f fun s =>
        (s.setProc np ((s.proc np).setFd ⟨k, h⟩ (some f))).goto i (.forkFd np (k + 1))
    else
      match (s.proc i).cwd with
      | none => s.crash .null
      | some ip =>
        ((s.setInode ip (s.inode ip).dup).setProc np
          ((((s.proc np).setCwd (some ip)).setState .runnable).ret [] 0)).ret i [] (s.proc np).pid
  | .exit k =>
    if h : k < NOFILE then
      match (s.proc i).ofile ⟨k, h⟩ with
      | none => s.goto i (.exit (k + 1))
      | some f => s.setProc i (((s.proc i).goto (.clear ⟨k, h⟩)).owe [.fileclose f])
    else
      match (s.proc i).cwd with
      | none => s.crash .null
      | some ip => s.setProc i (((s.proc i).goto .exitCwd).owe [.iput ip])
  | .clear fd => s.setProc i (((s.proc i).setFd fd none).goto (.exit (fd + 1)))
  | .exitCwd => (s.setProc i ((((s.proc i).setCwd none).setState .zombie).goto .user)).abandon i
  | .chdir ip => s.ilock ip fun s =>
    if !a.ok then s.ret i [.iput ip] (-1)
    else
      match (s.proc i).cwd with
      | none => s.crash .null
      | some old => s.setProc i (((s.proc i).goto (.setCwd ip)).owe [.iput old])
  | .setCwd ip => s.setProc i (((s.proc i).setCwd (some ip)).ret [] 0)

end State

/-- A step of the process `i`.  `kalloc` never returns a page that is in use. -/
def step (s : State) (e : Slot × Event) : Option State :=
  if s.fault.isSome ∨ (s.proc e.1).state ≠ .runnable then none
  else
    match (s.proc e.1).closing, (s.proc e.1).point, e.2 with
    | c :: cs, _, .next _ => some (s.close e.1 cs c)
    | [], .user, .call c => some (s.call e.1 c)
    | [], pt, .next a => if a.page.any fun p => (s.page p).isSome then none else some (s.resume e.1 a pt)
    | _, _, _ => none

/-- The state after `userinit`. -/
def boot : State where
  fault := none
  file := fun _ => ⟨.none, 0, false, false, 0, 0⟩
  page := fun _ => none
  inode := fun ip => if ip = 0 then ⟨ROOTDEV, ROOTINO, 1⟩ else ⟨0, 0, 0⟩
  proc := fun i =>
    if i = initproc then ⟨.runnable, 1, fun _ => none, some 0, 0, none, .user, []⟩
    else ⟨.unused, 0, fun _ => none, none, 0, none, .user, []⟩
  parent := fun _ => none
  nextpid := 2

end SystemsProjects.Xv6.Files
