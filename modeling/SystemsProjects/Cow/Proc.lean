import SystemsProjects.Cow.Vm

/-!
# Processes

`proc.c`, `exec.c`, the page fault path of `trap.c` and the start of the kernel (`main.c`) for one
CPU.  A user program is arbitrary: it is the sequence of its memory accesses and system calls, each an
`Event`, and the events of different processes may follow one another in any order.  Left out are the
contents of kernel stacks, the open files, names and registers of a process, and the sleep of a
`wait` that finds no zombie: such a `wait` is an event only once it returns.  The function that
copies an address space in `fork` is a parameter of `step`, so that the kernel with `cowuvm` can be
compared with the one with `copyuvm`.
-/

namespace SystemsProjects.Cow

/-- An entry of the process table. -/
abbrev Slot := Fin NPROC

inductive ProcState where
  | unused
  | embryo
  | runnable
  | zombie
  deriving DecidableEq

structure Proc where
  sz : Word
  pgdir : Page
  kstack : Page
  state : ProcState
  pid : Word
  parent : Option Slot
  killed : Bool

/-- A slot as the loader leaves it. -/
def Proc.zero : Proc :=
  { sz := 0#32, pgdir := 0#20, kstack := 0#20, state := .unused, pid := 0#32, parent := none
    killed := false }

structure Sys where
  mem : Mem
  procs : Slot → Proc
  nextpid : Word
  initproc : Slot
  kpgdir : Page
  /-- Ghost: the bytes that user-mode loads have returned so far. -/
  loads : List Byte

/-- The process `p` is changed by `f`. -/
def Sys.modify (s : Sys) (p : Slot) (f : Proc → Proc) : Sys :=
  { s with procs := Function.update s.procs p (f (s.procs p)) }

/-! ## proc.c -/

/-- `allocproc`. -/
def allocproc (s : Sys) : Option Slot × Sys :=
  match (List.finRange NPROC).find? fun i => (s.procs i).state = .unused with
  | none => (none, s)
  | some p =>
    let s := { s.modify p fun q => { q with state := .embryo, pid := s.nextpid } with
      nextpid := s.nextpid + 1#32 }
    match kalloc s.mem with
    | (none, mem) =>
      (none, { s.modify p fun q => { q with kstack := 0#20, state := .unused } with mem := mem })
    | (some kstack, mem) =>
      (some p, { s.modify p fun q => { q with kstack := kstack } with mem := mem })

/-- How `fork` copies the memory of the parent. -/
abbrev CopyFn := Layout → Page → Word → Mem → Except Halt (Option Page × Mem)

/-- `fork`. -/
def fork (L : Layout) (copy : CopyFn) (p : Slot) (s : Sys) : Except Halt Sys :=
  match allocproc s with
  | (none, s) => .ok s
  | (some np, s) =>
    (copy L (s.procs p).pgdir (s.procs p).sz s.mem).bind fun (d, mem) =>
      match d with
      | none => (kfree L (s.procs np).kstack mem).map fun mem =>
          { s.modify np fun q => { q with pgdir := 0#20, kstack := 0#20, state := .unused } with
            mem := mem }
      | some d => .ok
          { s.modify np fun q =>
              { q with pgdir := d, sz := (s.procs p).sz, parent := some p, state := .runnable } with
            mem := mem }

/-- `growproc`; the signed argument is a word. -/
def growproc (L : Layout) (p : Slot) (n : Word) (s : Sys) : Except Halt Sys :=
  let q := s.procs p
  if 0 < n.toInt then
    (allocuvm L q.pgdir q.sz (q.sz + n) s.mem).map fun (sz, mem) =>
      if sz = 0#32 then { s with mem := mem }
      else { s.modify p fun q => { q with sz := sz } with mem := mem }
  else if n.toInt < 0 then
    (deallocuvm L q.pgdir q.sz (q.sz + n) s.mem).map fun (sz, mem) =>
      if sz = 0#32 then { s with mem := mem }
      else { s.modify p fun q => { q with sz := sz } with mem := mem }
  else .ok s

/-- `exit`: abandoned children are passed to init. -/
def exit (p : Slot) (s : Sys) : Except Halt Sys :=
  if p = s.initproc then .error (.panic "init exiting")
  else .ok (Sys.modify
    { s with procs := fun i =>
        if (s.procs i).parent = some p then { s.procs i with parent := some s.initproc }
        else s.procs i }
    p fun q => { q with state := .zombie })

/-- `wait`, when it returns. -/
def wait (L : Layout) (p : Slot) (s : Sys) : Except Halt Sys :=
  match (List.finRange NPROC).find? fun i =>
      (s.procs i).parent = some p ∧ (s.procs i).state = .zombie with
  | some i =>
    (kfree L (s.procs i).kstack s.mem).bind fun mem =>
      (freevm L (s.procs i).pgdir mem).map fun mem =>
        { s.modify i fun q =>
            { q with kstack := 0#20, state := .unused, pid := 0#32, parent := none, killed := false } with
          mem := mem }
  | none =>
    if (∀ i, (s.procs i).parent ≠ some p) ∨ (s.procs p).killed then .ok s else .error .disabled

/-- `kill`: the first process with the pid is marked. -/
def kill (pid : Word) (s : Sys) : Sys :=
  match (List.finRange NPROC).find? fun i => (s.procs i).pid = pid with
  | some i => s.modify i fun q => { q with killed := true }
  | none => s

/-! ## exec.c -/

/-- The word at an offset of a structure that has been read. -/
def wordAt (bs : List Byte) (k : ℕ) : Word :=
  bs.getD (k + 3) 0#8 ++ bs.getD (k + 2) 0#8 ++ bs.getD (k + 1) 0#8 ++ bs.getD k 0#8

/-- The fields of `struct proghdr` that `exec` uses. -/
structure Proghdr where
  type : Word
  offset : Word
  va : Word
  filesz : Word
  memsz : Word

def Proghdr.ofBytes (bs : List Byte) : Proghdr :=
  { type := wordAt bs 0, offset := wordAt bs 4, va := wordAt bs 8, filesz := wordAt bs 16
    memsz := wordAt bs 20 }

def ELF_MAGIC : Word := 0x464C457F#32

def ELF_PROG_LOAD : Word := 1#32

/-- The loop of `exec` over the `n` program headers that are left, with `map` for `mappages`; `none` is the
jump to `bad`. -/
def loadSegmentsWith (map : MapFn) (L : Layout) (cur pgdir : Page) (ip : Inode) :
    ℕ → Word → Word → Mem → Except Halt (Option Word × Mem)
  | 0, _, sz, s => .ok (some sz, s)
  | n + 1, off, sz, s =>
    match ip.readi off 32#32 with
    | none => .ok (none, s)
    | some bs =>
      let ph := Proghdr.ofBytes bs
      if bs.length ≠ 32 then .ok (none, s)
      else if ph.type ≠ ELF_PROG_LOAD then loadSegmentsWith map L cur pgdir ip n (off + 32#32) sz s
      else if ph.memsz < ph.filesz then .ok (none, s)
      else
        (allocuvmWith map L pgdir sz (ph.va + ph.memsz) s).bind fun (sz, s) =>
          if sz = 0#32 then .ok (none, s)
          else
            (loaduvm cur pgdir ph.va ip ph.offset ph.filesz s).bind fun (ok, s) =>
              if ok then loadSegmentsWith map L cur pgdir ip n (off + 32#32) sz s else .ok (none, s)

def loadSegments (L : Layout) : Page → Page → Inode → ℕ → Word → Word → Mem → Except Halt (Option Word × Mem) :=
  loadSegmentsWith mappages L

def wordBytes (w : Word) : List Byte :=
  [w.extractLsb' 0 8, w.extractLsb' 8 8, w.extractLsb' 16 8, w.extractLsb' 24 8]

/-- The loop of `exec` that pushes the argument strings: the stack pointer and `ustack[3..]`. -/
def pushArgs (cur pgdir : Page) :
    List (List Byte) → Word → List Word → Mem → Except Halt (Option (Word × List Word) × Mem)
  | [], sp, ustack, s => .ok (some (sp, ustack), s)
  | a :: argv, sp, ustack, s =>
    if MAXARG ≤ ustack.length then .ok (none, s)
    else
      let sp := (sp - BitVec.ofNat 32 (a.length + 1)) &&& ~~~3#32
      (copyout cur pgdir sp (a ++ [0#8]) s).bind fun (ok, s) =>
        if ok then pushArgs cur pgdir argv sp (ustack ++ [sp]) s else .ok (none, s)

/-- The new image of `exec` in the page directory `pgdir`: its size, or `none` for `bad`. -/
def loadImageWith (map : MapFn) (L : Layout) (cur pgdir : Page) (ip : Inode) (elf : List Byte)
    (argv : List (List Byte)) (s : Mem) : Except Halt (Option Word × Mem) :=
  (loadSegmentsWith map L cur pgdir ip (wordAt elf 44 &&& 0xFFFF#32).toNat (wordAt elf 28) 0#32 s).bind
    fun (sz, s) =>
      match sz with
      | none => .ok (none, s)
      | some sz =>
        let sz := paddr (pgRoundUp sz)
        (allocuvmWith map L pgdir sz (sz + 4096#32) s).bind fun (sz, s) =>
          if sz = 0#32 then .ok (none, s)
          else
            (pushArgs cur pgdir argv sz [] s).bind fun (r, s) =>
              match r with
              | none => .ok (none, s)
              | some (sp, args) =>
                let argc := BitVec.ofNat 32 args.length
                let ustack := [0xFFFFFFFF#32, argc, sp - (argc + 1#32) * 4#32] ++ args ++ [0#32]
                (copyout cur pgdir (sp - (argc + 4#32) * 4#32) (ustack.flatMap wordBytes) s).map
                  fun (ok, s) => (if ok then some sz else none, s)

def loadImage (L : Layout) : Page → Page → Inode → List Byte → List (List Byte) → Mem →
    Except Halt (Option Word × Mem) := loadImageWith mappages L

/-- `exec` of the file that `namei` has found, if any, with `map` for `mappages`. -/
def execWith (map : MapFn) (L : Layout) (p : Slot) (ip : Option Inode) (argv : List (List Byte)) (s : Sys) :
    Except Halt Sys :=
  match ip.bind fun ip => (ip.readi 0#32 52#32).map fun elf => (ip, elf) with
  | none => .ok s
  | some (ip, elf) =>
    if elf.length < 52 then .ok s
    else if wordAt elf 0 ≠ ELF_MAGIC then .ok s
    else
      (setupkvm L s.mem).bind fun (pgdir, mem) =>
        match pgdir with
        | none => .ok { s with mem := mem }
        | some pgdir =>
          (loadImageWith map L (s.procs p).pgdir pgdir ip elf argv mem).bind fun (sz, mem) =>
            match sz with
            | none => (freevm L pgdir mem).map fun mem => { s with mem := mem }
            | some sz => (freevm L (s.procs p).pgdir mem).map fun mem =>
                { s.modify p fun q => { q with pgdir := pgdir, sz := sz } with mem := mem }

def exec (L : Layout) : Slot → Option Inode → List (List Byte) → Sys → Except Halt Sys := execWith mappages L

/-! ## Memory accesses of user code -/

/-- The frame that the hardware lets user code read or write at `va`. -/
def access (s : Mem) (pgdir : Page) (va : Word) (write : Bool) : Option Page :=
  let pde := s.page pgdir (pdx (pageOf va))
  let pte := s.page (pageOf pde) (ptx (pageOf va))
  if has pde PTE_P && has pde PTE_U && (!write || has pde PTE_W) &&
      has pte PTE_P && has pte PTE_U && (!write || has pte PTE_W) then some (pageOf pte)
  else none

/-- The pointer `pte` that `cowHandler` reads through before any test; `none` is the null pointer. -/
def firstDeref (s : Sys) (p : Slot) (va : Word) : Option (Page × Index) :=
  (walkpgdir (s.procs p).pgdir (pageOf va) false s.mem).1

/-- `cowHandler` for a fault of process `p` at `va`. -/
def cowHandler (p : Slot) (va : Word) (s : Sys) : Except Halt Sys :=
  let q := s.procs p
  match firstDeref s p va with
  | none =>
    -- `*pte` is read before the check of `pte`: the null pointer is address 0 of the process
    match kernelFrame s.mem q.pgdir 0#20 with
    | some _ => .ok (kill q.pid s)
    | none => .error .hang
  | some (t, i) =>
    let pte := s.mem.page t i
    let pa := pageOf pte
    if has pte PTE_P = false ∨ has pte PTE_U = false ∨ USERTOP < va then .ok (kill q.pid s)
    else if refCount pa s.mem ≤ 1 then .ok { s with mem := s.mem.write t i (pte + 2#32) }
    else
      match kalloc s.mem with
      | (some mem, m) =>
        let m := decPageRef pa m
        let m := m.setPage mem (m.page pa)
        .ok { s with mem := m.write t i (paddr mem ||| pteFlags pte ||| PTE_W ||| PTE_P ||| PTE_U) }
      | (none, m) =>
        -- the process is marked, but the code goes on with the null pointer
        let m := decPageRef pa m
        match kernelFrame m q.pgdir 0#20 with
        | some f =>
          let m := m.setPage f (m.page pa)
          .ok { kill q.pid s with
            mem := m.write t i (0#32 ||| pteFlags pte ||| PTE_W ||| PTE_P ||| PTE_U) }
        | none => .error .outOfMemory

/-- The end of `trap`: a killed process exits. -/
def exitIfKilled (p : Slot) (s : Sys) : Except Halt Sys :=
  if (s.procs p).killed then exit p s else .ok s

/-- A load of user code. -/
def load (p : Slot) (va : Word) (s : Sys) : Except Halt Sys :=
  match access s.mem (s.procs p).pgdir va false with
  | some f => .ok { s with loads := s.loads ++ [getByte (s.mem.page f) (offsetOf va)] }
  | none => (cowHandler p va s).bind (exitIfKilled p)

/-- A store of user code; after a fault it is tried again. -/
def store (p : Slot) (va : Word) (b : Byte) (s : Sys) : Except Halt Sys :=
  let attempt (s : Sys) (fault : Except Halt Sys) : Except Halt Sys :=
    match access s.mem (s.procs p).pgdir va true with
    | some f => .ok { s with mem := s.mem.setPage f (setByte (s.mem.page f) (offsetOf va) b) }
    | none => fault
  attempt s ((cowHandler p va s).bind fun s =>
    if (s.procs p).killed then exit p s else attempt s (.ok s))

/-! ## Events -/

/-- What a process can do to the memory without `exec`. -/
inductive MemEvent where
  | load (p : Slot) (va : Word)
  | store (p : Slot) (va : Word) (b : Byte)
  | fork (p : Slot)
  | sbrk (p : Slot) (n : Word)
  | exit (p : Slot)
  | wait (p : Slot)
  /-- A timer interrupt while `p` runs in user mode. -/
  | interrupt (p : Slot)

def MemEvent.proc : MemEvent → Slot
  | .load p _ | .store p _ _ | .fork p | .sbrk p _ | .exit p | .wait p | .interrupt p => p

inductive Event where
  | mem (e : MemEvent)
  | exec (p : Slot) (ip : Option Inode) (argv : List (List Byte))

/-- A system call: a killed process exits before and after it. -/
def syscall (p : Slot) (body : Sys → Except Halt Sys) (s : Sys) : Except Halt Sys :=
  if (s.procs p).killed then exit p s else (body s).bind (exitIfKilled p)

/-- One event of a process that can run. -/
def memStep (L : Layout) (copy : CopyFn) (s : Sys) (e : MemEvent) : Except Halt Sys :=
  if (s.procs e.proc).state ≠ .runnable then .error .disabled
  else
    match e with
    | .load p va => load p va s
    | .store p va b => store p va b s
    | .fork p => syscall p (fork L copy p) s
    | .sbrk p n => syscall p (growproc L p n) s
    | .exit p => exit p s
    | .wait p => syscall p (wait L p) s
    | .interrupt p => exitIfKilled p s

/-- The strings that `sys_exec` can pass: they lie in the memory of the process, and there are fewer
than `MAXARG` of them. -/
def ArgsOk (argv : List (List Byte)) (sz : Word) : Prop :=
  argv.length < MAXARG ∧ ∀ a ∈ argv, a.length < sz.toNat

instance (argv : List (List Byte)) (sz : Word) : Decidable (ArgsOk argv sz) :=
  inferInstanceAs (Decidable (_ ∧ _))

def step (L : Layout) (copy : CopyFn) (s : Sys) : Event → Except Halt Sys
  | .mem e => memStep L copy s e
  | .exec p ip argv =>
    if (s.procs p).state ≠ .runnable ∨ ¬ ArgsOk argv (s.procs p).sz then .error .disabled
    else syscall p (exec L p ip argv) s

/-! ## The start of the kernel -/

/-- `userinit` with the initial program, and with `map` for `mappages`. -/
def userinitWith (map : MapFn) (L : Layout) (init : List Byte) (s : Sys) : Except Halt Sys :=
  match allocproc s with
  | (none, _) => .error .outOfMemory
  | (some p, s) =>
    (setupkvm L s.mem).bind fun (d, mem) =>
      match d with
      | none => .error (.panic "userinit: out of memory?")
      | some d =>
        (inituvmWith map d init mem).map fun mem =>
          { s.modify p fun q => { q with pgdir := d, sz := 4096#32, state := .runnable } with
            mem := mem, initproc := p }

def userinit (L : Layout) : List Byte → Sys → Except Halt Sys := userinitWith mappages L

/-- `main` up to the scheduler: `kinit`, the stack of `jmpkstack`, `kvmalloc`, `userinit`. -/
def bootWith (map : MapFn) (L : Layout) (ram : Page → PageData) (init : List Byte) : Except Halt Sys :=
  (kinit L ram).bind fun mem =>
    match kalloc mem with
    | (none, _) => .error (.panic "jmpkstack kalloc")
    | (some _, mem) =>
      (setupkvm L mem).bind fun (d, mem) =>
        match d with
        | none => .error .outOfMemory
        | some d => userinitWith map L init
            { mem := mem, procs := fun _ => Proc.zero, nextpid := 1#32, initproc := ⟨0, nproc_pos⟩
              kpgdir := d, loads := [] }

def boot (L : Layout) : (Page → PageData) → List Byte → Except Halt Sys := bootWith mappages L

end SystemsProjects.Cow
