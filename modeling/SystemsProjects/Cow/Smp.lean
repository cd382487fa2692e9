import SystemsProjects.Cow.OutOfMemory

/-!
# Page faults on several CPUs

The steps of `cowHandler` and of `freevm` as other CPUs see them.  Each critical section of `kmem.lock`
(`refCount`, `kalloc`, `decPageRef`, `kfree`), the copy of a page and each write of a page table entry is
one step, and the steps of different processes, with the stores of their user code, follow one another in
any order.  The freeing of an address space is the work of the parent in `wait`; here it is the work of
the zombie, which does nothing else any more.  The rest of `wait` is left out, and no process forks.
-/

namespace SystemsProjects.Cow

open Sharing

/-! ## The kernel -/

/-- The local variables of `cowHandler`: `va`, the place of `*pte`, and the entry that it has read. -/
structure Fault where
  va : Word
  t : Page
  i : Index
  pte : Word
  deriving DecidableEq

/-- `pa / PGSIZE`. -/
def Fault.pa (c : Fault) : Page := pageOf c.pte

/-- What the kernel is about to do for a process. -/
inductive Thread where
  /-- User code runs, or the process is a zombie. -/
  | user
  /-- `refCount`. -/
  | counting (c : Fault)
  /-- `*pte += 2`. -/
  | granting (c : Fault)
  /-- `kalloc`. -/
  | allocating (c : Fault)
  /-- `decPageRef`; `mem` is what `kalloc` has returned. -/
  | dropping (c : Fault) (mem : Option Page)
  /-- `memmove`. -/
  | copying (c : Fault) (mem : Option Page)
  /-- `*pte = mem | flags | PTE_W | PTE_P | PTE_U`. -/
  | remapping (c : Fault) (mem : Option Page)
  /-- `deallocuvm` at page `a`. -/
  | unmapping (a : Page)
  /-- `*pte = 0` after `kfree`. -/
  | clearing (a t : Page) (i : Index)
  /-- The loop of `freevm` over the page directory. -/
  | freeingTables (i : ℕ)
  /-- `kfree` of the page directory. -/
  | freeingDir
  | gone
  deriving DecidableEq

structure Smp where
  sys : Sys
  thread : Slot → Thread

/-- All processes run user code. -/
def Smp.start (s : Sys) : Smp := { sys := s, thread := fun _ => .user }

/-- The process `p` goes on at `x`. -/
def Smp.goOn (s : Smp) (p : Slot) (x : Thread) (sys : Sys) : Smp :=
  { sys := sys, thread := Function.update s.thread p x }

@[simp] theorem Smp.goOn_sys (s : Smp) (p : Slot) (x : Thread) (sys : Sys) : (s.goOn p x sys).sys = sys := rfl
@[simp] theorem Smp.goOn_thread_self (s : Smp) (p : Slot) (x : Thread) (sys : Sys) :
    (s.goOn p x sys).thread p = x := Function.update_self _ _ _
theorem Smp.goOn_thread_of_ne (s : Smp) {p q : Slot} (x : Thread) (sys : Sys) (h : q ≠ p) :
    (s.goOn p x sys).thread q = s.thread q := Function.update_of_ne h _ _

/-- The return from `cowHandler`, and the end of `trap`. -/
def Smp.handled (s : Smp) (p : Slot) (sys : Sys) : Except Halt Smp :=
  (exitIfKilled p sys).map (s.goOn p .user)

/-- `cowHandler` up to `refCount`. -/
def enterHandler (p : Slot) (va : Word) (s : Smp) : Except Halt Smp :=
  let q := s.sys.procs p
  match firstDeref s.sys p va with
  | none =>
    -- `*pte` is read before the check of `pte`, as in `cowHandler`
    match kernelFrame s.sys.mem q.pgdir 0#20 with
    | some _ => s.handled p (kill q.pid s.sys)
    | none => .error .hang
  | some (t, i) =>
    let pte := s.sys.mem.page t i
    if has pte PTE_P = false ∨ has pte PTE_U = false ∨ USERTOP < va then s.handled p (kill q.pid s.sys)
    else .ok (s.goOn p (.counting { va := va, t := t, i := i, pte := pte }) s.sys)

/-- The next step of the kernel for `p`. -/
def goOn (L : Layout) (p : Slot) (s : Smp) : Except Halt Smp :=
  let q := s.sys.procs p
  let m := s.sys.mem
  match s.thread p with
  | .user | .gone => .error .disabled
  | .counting c => .ok (s.goOn p (if refCount c.pa m ≤ 1 then .granting c else .allocating c) s.sys)
  | .granting c => s.handled p { s.sys with mem := m.write c.t c.i (m.page c.t c.i + 2#32) }
  | .allocating c =>
    match kalloc m with
    | (some mem, m) => .ok (s.goOn p (.dropping c (some mem)) { s.sys with mem := m })
    | (none, m) => .ok (s.goOn p (.dropping c none) { kill q.pid s.sys with mem := m })
  | .dropping c mem => .ok (s.goOn p (.copying c mem) { s.sys with mem := decPageRef c.pa m })
  | .copying c mem =>
    -- a null pointer is address 0 of the process
    match mem.or (kernelFrame m q.pgdir 0#20) with
    | some f => .ok (s.goOn p (.remapping c mem) { s.sys with mem := m.setPage f (m.page c.pa) })
    | none => .error .outOfMemory
  | .remapping c mem => s.handled p { s.sys with
      mem := m.write c.t c.i (paddr (mem.getD 0#20) ||| pteFlags c.pte ||| PTE_W ||| PTE_P ||| PTE_U) }
  | .unmapping a =>
    if USERTOP ≤ paddr a then .ok (s.goOn p (.freeingTables 0) s.sys)
    else
      match walkpgdir q.pgdir a false m with
      | (none, _) => .ok (s.goOn p (.unmapping (a + 1#20)) s.sys)
      | (some (t, i), _) =>
        if has (m.page t i) PTE_P then
          if pageOf (m.page t i) = 0#20 then .error (.panic "kfree")
          else (kfree L (pageOf (m.page t i)) m).map fun m =>
            s.goOn p (.clearing a t i) { s.sys with mem := m }
        else .ok (s.goOn p (.unmapping (a + 1#20)) s.sys)
  | .clearing a t i => .ok (s.goOn p (.unmapping (a + 1#20)) { s.sys with mem := m.write t i 0#32 })
  | .freeingTables i =>
    if 1024 ≤ i then .ok (s.goOn p .freeingDir s.sys)
    else
      let pde := m.page q.pgdir (BitVec.ofNat 10 i)
      if has pde PTE_P then (kfree L (pageOf pde) m).map fun m =>
        s.goOn p (.freeingTables (i + 1)) { s.sys with mem := m }
      else .ok (s.goOn p (.freeingTables (i + 1)) s.sys)
  | .freeingDir => (kfree L q.pgdir m).map fun m => s.goOn p .gone { s.sys with mem := m }

inductive SmpEvent where
  /-- A store of user code that the entry allows. -/
  | store (p : Slot) (va : Word) (b : Byte)
  /-- A store of user code that faults. -/
  | fault (p : Slot) (va : Word)
  | exit (p : Slot)
  /-- `freevm` of the address space of a zombie starts. -/
  | freevm (p : Slot)
  /-- The kernel goes on for `p`. -/
  | kernel (p : Slot)

/-- One step of one process. -/
def smpStep (L : Layout) (s : Smp) : SmpEvent → Except Halt Smp
  | .store p va b =>
    if (s.sys.procs p).state ≠ .runnable ∨ s.thread p ≠ .user then .error .disabled
    else
      match access s.sys.mem (s.sys.procs p).pgdir va true with
      | some f => .ok { s with sys := { s.sys with
          mem := s.sys.mem.setPage f (setByte (s.sys.mem.page f) (offsetOf va) b) } }
      | none => .error .disabled
  | .fault p va =>
    if (s.sys.procs p).state ≠ .runnable ∨ s.thread p ≠ .user then .error .disabled
    else if access s.sys.mem (s.sys.procs p).pgdir va true ≠ none then .error .disabled
    else enterHandler p va s
  | .exit p =>
    if (s.sys.procs p).state ≠ .runnable ∨ s.thread p ≠ .user then .error .disabled
    else (exit p s.sys).map (s.goOn p .user)
  | .freevm p =>
    if (s.sys.procs p).state ≠ .zombie ∨ s.thread p ≠ .user then .error .disabled
    else if (s.sys.procs p).pgdir = 0#20 then .error (.panic "freevm: no pgdir")
    else .ok (s.goOn p (.unmapping 0#20) s.sys)
  | .kernel p => goOn L p s

def smpNext (L : Layout) (s : Smp) (e : SmpEvent) : Option Smp := (smpStep L s e).toOption

/-! ## The property -/

/-- The page tables of the process are in use. -/
def Thread.HasTables : Thread → Prop
  | .freeingTables _ | .freeingDir | .gone => False
  | _ => True

open Classical in
/-- The user entries of the address spaces that are there. -/
noncomputable def Smp.userPtes (s : Smp) : Table (Page × Page) Page := fun k =>
  if ∃ p, Live s.sys p ∧ (s.thread p).HasTables ∧ (s.sys.procs p).pgdir = k.1 then
    (pteOf s.sys.mem k.1 k.2).bind decode
  else none

/-- The stores of `p` to page `v`, made to the page `x`. -/
def storesTo (p : Slot) (v : Page) : List SmpEvent → PageData → PageData
  | [], x => x
  | .store q va b :: es, x =>
    storesTo p v es (if q = p ∧ pageOf va = v then setByte x (offsetOf va) b else x)
  | _ :: es, x => storesTo p v es x

/-- No handler runs, and no entry is left to be cleared after a `kfree`. -/
def Thread.Settled : Thread → Prop
  | .user | .unmapping _ | .freeingTables _ | .freeingDir | .gone => True
  | _ => False

/-- After the events `es` from `s₀`, each process that has not been freed sees what it saw before its
fault, with its own stores since then, and each frame that was shared is free or has its count. -/
structure FaultsApart (L : Layout) (s₀ : Smp) (es : List SmpEvent) (s : Smp) : Prop where
  bytes : ∀ es₁ p va es₂ s₁, es = es₁ ++ .fault p va :: es₂ → Trace.run (smpNext L) s₀ es₁ = some s₁ →
    s.thread p = .user → pageAt s.sys.mem (s.sys.procs p).pgdir (pageOf va) =
      (pageAt s₁.sys.mem (s₁.sys.procs p).pgdir (pageOf va)).map (storesTo p (pageOf va) es₂)
  counts : ∀ f, 2 ≤ refs s₀.userPtes f → OnFreeList s.sys f ∨
    1 ≤ refs s.userPtes f ∧ (s.sys.mem.refCnt f).toNat = refs s.userPtes f

/-- A handler is between its decrement and its copy of the frame. -/
def BeingCopied (s : Smp) (f : Page) : Prop := ∃ q c mem, s.thread q = .copying c mem ∧ c.pa = f

/-- `kalloc` does not fail, the count is still above one when a handler decrements it, and while a frame
is being copied nobody stores to it or puts it on the free list. -/
def SmpEvent.Apart (s : Smp) : SmpEvent → Prop
  | .store p va _ => ∀ f, access s.sys.mem (s.sys.procs p).pgdir va true = some f → ¬ BeingCopied s f
  | .kernel p =>
    match s.thread p with
    | .allocating _ => s.sys.mem.freelist ≠ 0#32
    | .dropping c _ => 1 < refCount c.pa s.sys.mem
    | .unmapping a => ∀ pte, pteOf s.sys.mem (s.sys.procs p).pgdir a = some pte →
        (s.sys.mem.refCnt (pageOf pte)).toNat ≤ 1 → ¬ BeingCopied s (pageOf pte)
    | _ => True
  | _ => True

end SystemsProjects.Cow
