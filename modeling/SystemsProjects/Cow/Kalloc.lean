import SystemsProjects.Cow.Mmu

/-!
# The page allocator

`kalloc.c` of the P5 kernel.  The free list is threaded through the free pages themselves: the first
word of a free page is the address of the next one.  Each function is one critical section of
`kmem.lock`.
-/

namespace SystemsProjects.Cow

/-- Where the linker has put the kernel: its data section begins at a page boundary (`data.S`), and
`kend` is the page at `PGROUNDUP(end)`. -/
structure Layout where
  data : Page
  kend : Page
  text_lt : 256 < data.toNat
  data_le : data.toNat ≤ kend.toNat
  kend_lt : kend.toNat < 4096

/-- Why the kernel does not go on. -/
inductive Halt where
  | panic (msg : String)
  /-- A page fault in the kernel that `cowHandler` does not repair is taken again and again. -/
  | hang
  /-- The event is not one that the process can cause now. -/
  | disabled
  /-- A call of `kalloc` has returned 0, and the kernel does not get over it. -/
  | outOfMemory
  deriving DecidableEq

/-- Physical memory and `kmem`. -/
structure Mem where
  page : Page → PageData
  freelist : Word
  freePages : Word
  refCnt : Page → Word
  /-- Ghost: some call of `kalloc` has returned 0. -/
  oom : Bool

namespace Mem

/-- The whole page is overwritten (`memset`, `memmove` of `PGSIZE` bytes). -/
def setPage (s : Mem) (f : Page) (x : PageData) : Mem := { s with page := Function.update s.page f x }

/-- One word is overwritten. -/
def write (s : Mem) (f : Page) (i : Index) (w : Word) : Mem :=
  s.setPage f (Function.update (s.page f) i w)

@[simp] theorem setPage_freelist (s : Mem) (f : Page) (x : PageData) :
    (s.setPage f x).freelist = s.freelist := rfl
@[simp] theorem setPage_freePages (s : Mem) (f : Page) (x : PageData) :
    (s.setPage f x).freePages = s.freePages := rfl
@[simp] theorem setPage_refCnt (s : Mem) (f : Page) (x : PageData) :
    (s.setPage f x).refCnt = s.refCnt := rfl
@[simp] theorem setPage_oom (s : Mem) (f : Page) (x : PageData) : (s.setPage f x).oom = s.oom := rfl
@[simp] theorem setPage_page_self (s : Mem) (f : Page) (x : PageData) :
    (s.setPage f x).page f = x := by simp [setPage]
theorem setPage_page_of_ne (s : Mem) {f g : Page} (x : PageData) (h : g ≠ f) :
    (s.setPage f x).page g = s.page g := by simp [setPage, h]

@[simp] theorem write_freelist (s : Mem) (f : Page) (i : Index) (w : Word) :
    (s.write f i w).freelist = s.freelist := rfl
@[simp] theorem write_freePages (s : Mem) (f : Page) (i : Index) (w : Word) :
    (s.write f i w).freePages = s.freePages := rfl
@[simp] theorem write_refCnt (s : Mem) (f : Page) (i : Index) (w : Word) :
    (s.write f i w).refCnt = s.refCnt := rfl
@[simp] theorem write_oom (s : Mem) (f : Page) (i : Index) (w : Word) :
    (s.write f i w).oom = s.oom := rfl
@[simp] theorem write_page_self (s : Mem) (f : Page) (i : Index) (w : Word) :
    (s.write f i w).page f = Function.update (s.page f) i w := by simp [write]
theorem write_page_of_ne (s : Mem) {f g : Page} (i : Index) (w : Word) (h : g ≠ f) :
    (s.write f i w).page g = s.page g := by simp [write, setPage_page_of_ne _ _ h]
theorem write_word_of_ne (s : Mem) {f g : Page} {i j : Index} (w : Word) (h : (g, j) ≠ (f, i)) :
    (s.write f i w).page g j = s.page g j := by
  by_cases hg : g = f
  · subst hg
    rw [write_page_self, Function.update_of_ne fun hj => h (by rw [hj])]
  · rw [write_page_of_ne s i w hg]

end Mem

/-- What `kfree` leaves in a page before it writes the link: `memset(v, 1, PGSIZE)`. -/
def junk : PageData := fun _ => 0x01010101#32

/-- `kfree`. -/
def kfree (L : Layout) (v : Page) (s : Mem) : Except Halt Mem :=
  if v.toNat < L.kend.toNat ∨ 4096 ≤ v.toNat then .error (.panic "kfree")
  else if (s.refCnt v).toNat ≤ 1 then
    .ok { s.setPage v (Function.update junk 0 s.freelist) with
      freelist := paddr v
      freePages := s.freePages + 1#32 }
  else .ok { s with refCnt := Function.update s.refCnt v (s.refCnt v - 1#32) }

/-- `kalloc`; `none` is the null pointer. -/
def kalloc (s : Mem) : Option Page × Mem :=
  if s.freelist = 0#32 then (none, { s with oom := true })
  else
    let r := pageOf s.freelist
    (some r, { s with
      freelist := s.page r 0
      freePages := s.freePages - 1#32
      refCnt := Function.update s.refCnt r 1#32 })

def incPageRef (i : Page) (s : Mem) : Mem :=
  { s with refCnt := Function.update s.refCnt i (s.refCnt i + 1#32) }

def decPageRef (i : Page) (s : Mem) : Mem :=
  { s with refCnt := Function.update s.refCnt i (s.refCnt i - 1#32) }

/-- `refCount`, which returns an `int`. -/
def refCount (i : Page) (s : Mem) : ℤ := (s.refCnt i).toInt

def kinitLoop (L : Layout) : ℕ → Page → Mem → Except Halt Mem
  | 0, _, s => .ok s
  | n + 1, p, s => (kfree L p s).bind fun s => kinitLoop L n (p + 1#20) s

/-- `kinit`, with `kmem` as the loader leaves it and any contents of physical memory. -/
def kinit (L : Layout) (ram : Page → PageData) : Except Halt Mem :=
  kinitLoop L (4096 - L.kend.toNat) L.kend
    { page := ram, freelist := 0#32, freePages := 0#32, refCnt := fun _ => 0#32, oom := false }

end SystemsProjects.Cow
