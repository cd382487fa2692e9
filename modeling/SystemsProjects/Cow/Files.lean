import SystemsProjects.Cow.Holes

/-!
# System calls that fill a buffer

`read`, `fstat` and `pipe` store into the memory of the process that calls them: `sysfile.c`, `file.c`,
`pipe.c`, `readi` and `stati` of `fs.c` and `consoleread`.  The kernel stores through the page table of
the process.  `CR0.WP` is not set, so that the processor does not look at `PTE_W`; a page that is not
there makes the kernel fault again and again.  The table of open files is left out: the file that `argfd`
finds and the descriptors that `fdalloc` gives out are part of the call, and so the runs are those with
any file system.  A `read` that waits is an event only once it returns.
-/

namespace SystemsProjects.Cow

/-! ## Open files -/

def BSIZE : ℕ := 512

/-- `NDIRECT + NINDIRECT`. -/
def MAXFILE : ℕ := 140

def PIPESIZE : ℕ := 512

/-- The type of device files. -/
def T_DEV : BitVec 16 := 3#16

/-- The number of the console, the only device with a `read`. -/
def CONSOLE : BitVec 16 := 1#16

structure Pipe where
  data : ℕ → Byte
  nread : Word
  nwrite : Word
  writeopen : Bool

/-- The fields of `struct inode` that `readi` and `stati` use, with the contents of the file. -/
structure OpenInode where
  file : Inode
  dev : Word
  inum : Word
  type : BitVec 16
  major : BitVec 16
  nlink : BitVec 16
  /-- `writei` makes no file longer. -/
  size_le : file.size.toNat ≤ MAXFILE * BSIZE

inductive FileKind where
  | pipe (pi : Pipe)
  /-- An inode, the offset, and the characters that the console has for a reader. -/
  | inode (ip : OpenInode) (off : Word) (input : List Byte)

/-- `struct file`. -/
structure File where
  readable : Bool
  kind : FileKind

/-- The loop of `piperead`, with `n` bytes to go. -/
def pipeLoop (pi : Pipe) : ℕ → Word → List Byte
  | 0, _ => []
  | n + 1, nread =>
    if nread = pi.nwrite then []
    else pi.data (nread.toNat % PIPESIZE) :: pipeLoop pi n (nread + 1#32)

/-- `piperead`: the bytes that it stores; `none` while it waits. -/
def piperead (pi : Pipe) (n : Word) : Option (List Byte) :=
  if pi.nread = pi.nwrite ∧ pi.writeopen then none else some (pipeLoop pi n.toInt.toNat pi.nread)

/-- `consoleread`, with `n` bytes to go: it stops after a line or at `^D`, or when the process is killed
while it waits for more. -/
def consoleread : List Byte → ℕ → List Byte
  | _, 0 => []
  | [], _ + 1 => []
  | c :: input, n + 1 =>
    if c = 4#8 then [] else if c = 10#8 then [c] else c :: consoleread input n

/-- `readi`: the bytes that it stores. -/
def OpenInode.readi (ip : OpenInode) (off n : Word) (input : List Byte) : List Byte :=
  if ip.type = T_DEV then
    if ip.major = CONSOLE then consoleread input n.toInt.toNat else []
  else (ip.file.readi off n).getD []

/-- `fileread`: the bytes that it stores; `none` while it waits. -/
def fileread (f : File) (n : Word) : Option (List Byte) :=
  if f.readable = false then some []
  else
    match f.kind with
    | .pipe pi => piperead pi n
    | .inode ip off input => some (ip.readi off n input)

def halfBytes (w : BitVec 16) : List Byte := [w.extractLsb' 0 8, w.extractLsb' 8 8]

/-- Bytes from an offset on. -/
def bytesFrom (o : ℕ) (bs : List Byte) : List (ℕ × Byte) := (bs.zipIdx o).map Prod.swap

/-- `stati`: the fields of `struct stat` with their offsets. -/
def stati (ip : OpenInode) : List (ℕ × Byte) :=
  bytesFrom 4 (wordBytes ip.dev) ++ bytesFrom 8 (wordBytes ip.inum) ++ bytesFrom 0 (halfBytes ip.type) ++
    bytesFrom 12 (halfBytes ip.nlink) ++ bytesFrom 16 (wordBytes ip.file.size)

/-- `filestat`. -/
def filestat (f : File) : List (ℕ × Byte) :=
  match f.kind with
  | .pipe _ => []
  | .inode ip _ _ => stati ip

/-! ## The calls -/

/-- What `pipe` finds in the tables of open files: no two free files, no two free descriptors, or the
descriptors. -/
inductive PipeFiles where
  | noFile
  | noFd
  | fds (fd0 fd1 : Word)

inductive Call where
  | read (p : Slot) (f : File) (addr n : Word)
  | fstat (p : Slot) (f : File) (addr : Word)
  | pipe (p : Slot) (addr : Word) (files : PipeFiles)

def Call.proc : Call → Slot
  | .read p _ _ _ | .fstat p _ _ | .pipe p _ _ => p

/-- `argptr`: the check of a pointer to `size` bytes. -/
def argptr (s : Sys) (p : Slot) (addr size : Word) : Prop :=
  ¬ ((s.procs p).sz ≤ addr ∨ (s.procs p).sz < addr + size)

instance (s : Sys) (p : Slot) (addr size : Word) : Decidable (argptr s p addr size) :=
  inferInstanceAs (Decidable (¬ (_ ∨ _)))

/-- The addresses of bytes of a buffer. -/
def storesAt (addr : Word) (l : List (ℕ × Byte)) : List (Word × Byte) :=
  l.map fun (o, b) => (addr + BitVec.ofNat 32 o, b)

/-- The bytes that a call stores into the memory of the process. -/
def Call.stores (s : Sys) : Call → List (Word × Byte)
  | .read p f addr n =>
    if argptr s p addr n then storesAt addr (bytesFrom 0 ((fileread f n).getD [])) else []
  | .fstat p f addr => if argptr s p addr 20#32 then storesAt addr (filestat f) else []
  | .pipe p addr files =>
    match files with
    | .fds fd0 fd1 =>
      if argptr s p addr 8#32 ∧ s.mem.freelist ≠ 0#32 then
        storesAt addr (bytesFrom 0 (wordBytes fd0) ++ bytesFrom 4 (wordBytes fd1))
      else []
    | _ => []

/-- The stores of the kernel on the page directory `cur`, up to the first page that is not there;
`false` if there is one. -/
def storeBytes (cur : Page) : List (Word × Byte) → Mem → Mem × Bool
  | [], m => (m, true)
  | (va, b) :: ws, m =>
    match kernelFrame m cur (pageOf va) with
    | none => (m, false)
    | some f => storeBytes cur ws (m.setPage f (setByte (m.page f) (offsetOf va) b))

/-- `pipealloc` and `fdalloc`: the page for the pipe, which is given back if there are no descriptors. -/
def pipealloc (L : Layout) (files : PipeFiles) (m : Mem) : Except Halt Mem :=
  match files with
  | .noFile => .ok m
  | .fds _ _ => .ok (kalloc m).2
  | .noFd =>
    match kalloc m with
    | (none, m) => .ok m
    | (some k, m) => kfree L k m

/-- The memory after a call, and whether the call returns. -/
def Call.run (L : Layout) (s : Sys) (c : Call) : Except Halt (Mem × Bool) :=
  let cur := (s.procs c.proc).pgdir
  match c with
  | .read p f addr n =>
    if argptr s p addr n ∧ fileread f n = none then .error .disabled
    else .ok (storeBytes cur (c.stores s) s.mem)
  | .fstat _ _ _ => .ok (storeBytes cur (c.stores s) s.mem)
  | .pipe p addr files =>
    if argptr s p addr 8#32 then (pipealloc L files s.mem).map (storeBytes cur (c.stores s))
    else .ok (s.mem, true)

/-! ## Runs -/

inductive KernelEvent where
  | user (e : Event)
  | call (c : Call)
  /-- The last end of a pipe is closed; its page is `f`. -/
  | pipeclose (f : Page)

def kernelStep (L : Layout) (s : Sys) : KernelEvent → Except Halt Sys
  | .user e => step L cowuvm s e
  | .call c =>
    if (s.procs c.proc).state ≠ .runnable then .error .disabled
    else syscall c.proc (fun s => (c.run L s).bind fun (m, returns) =>
      if returns then .ok { s with mem := m } else .error .hang) s
  | .pipeclose f => (kfree L f s.mem).map fun m => { s with mem := m }

/-- The state after an event, if the kernel goes on. -/
def kernelNext (L : Layout) (s : Sys) (e : KernelEvent) : Option Sys := (kernelStep L s e).toOption

/-- A page of the allocator that is in use, but not for a page directory, a page table, a kernel stack
or the memory of a process. -/
structure HeldByKernel (L : Layout) (s : Sys) (f : Page) : Prop where
  range : L.kend.toNat ≤ f.toNat ∧ f.toNat < 4096
  used : ¬ OnFreeList s f
  dir : ¬ IsDir s f
  table : ¬ IsTable s f
  kstack : ¬ IsKstack s f
  user : ∀ i v, Live s i → userFrame s i v ≠ some f

/-- `kalloc` does not fail inside `cowHandler`, the files of `exec` have no segment that wraps around,
and the page of a pipe is one that the kernel holds. -/
def KernelEvent.Allowed (L : Layout) (s : Sys) : KernelEvent → Prop
  | .user e => ¬ e.Fails s ∧ e.Fits
  | .call _ => True
  | .pipeclose f => HeldByKernel L s f

end SystemsProjects.Cow
