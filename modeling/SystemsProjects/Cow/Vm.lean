import SystemsProjects.Cow.Kalloc

/-!
# Virtual memory

`vm.c` of the P5 kernel.  Page directories and page tables are pages of physical memory, read and
written like any other page.  The kernel runs on the page directory of the current process: from
`USERTOP` to `PHYSTOP` a virtual page is the physical page of the same number (`kmap`), and below
`USERTOP` it is what the current process has there (`kernelFrame`).  A loop over pages is a recursion
on the number of pages that are left.
-/

namespace SystemsProjects.Cow

/-! ## Page tables -/

/-- The entry for a page in the tables of `pgdir`; `none` if there is no page table for it. -/
def pteOf (s : Mem) (pgdir va : Page) : Option Word :=
  if has (s.page pgdir (pdx va)) PTE_P then
    some (s.page (pageOf (s.page pgdir (pdx va))) (ptx va))
  else none

/-- `walkpgdir`: the page and the index at which the entry for `va` is stored. -/
def walkpgdir (pgdir va : Page) (create : Bool) (s : Mem) : Option (Page × Index) × Mem :=
  let pde := s.page pgdir (pdx va)
  if has pde PTE_P then (some (pageOf pde, ptx va), s)
  else if create = false then (none, s)
  else
    match kalloc s with
    | (none, s) => (none, s)
    | (some pgtab, s) =>
      (some (pgtab, ptx va), (s.setPage pgtab fun _ => 0#32).write pgdir (pdx va)
        (paddr pgtab ||| PTE_P ||| PTE_W ||| PTE_U))

/-- One iteration of `mappages`; `false` is the return value -1. -/
def mapPage (pgdir : Page) (perm : Word) (a pa : Page) (s : Mem) : Except Halt (Bool × Mem) :=
  match walkpgdir pgdir a true s with
  | (none, s) => .ok (false, s)
  | (some (t, i), s) =>
    if has (s.page t i) PTE_P then .error (.panic "remap")
    else .ok (true, s.write t i (paddr pa ||| perm ||| PTE_P))

/-- The loop of `mappages`, with `n` pages after page `a`. -/
def mapLoop (pgdir : Page) (perm : Word) : ℕ → Page → Page → Mem → Except Halt (Bool × Mem)
  | 0, a, pa, s => mapPage pgdir perm a pa s
  | n + 1, a, pa, s =>
    (mapPage pgdir perm a pa s).bind fun (ok, s) =>
      if ok then mapLoop pgdir perm n (a + 1#20) (pa + 1#20) s else .ok (false, s)

/-- `mappages`. -/
def mappages (pgdir : Page) (la size : Word) (pa : Page) (perm : Word) (s : Mem) :
    Except Halt (Bool × Mem) :=
  mapLoop pgdir perm (pageOf (la + size - 1#32) - pageOf la).toNat (pageOf la) pa s

/-- `kmap`: start, end and permissions of the kernel's mappings. -/
def kmap (L : Layout) : List (Word × Word × Word) :=
  [(USERTOP, 0x100000#32, PTE_W), (0x100000#32, paddr L.data, 0#32), (paddr L.data, PHYSTOP, PTE_W),
    (0xFE000000#32, 0#32, PTE_W)]

def mapKernel (pgdir : Page) : List (Word × Word × Word) → Mem → Except Halt (Bool × Mem)
  | [], s => .ok (true, s)
  | (p, e, perm) :: ks, s =>
    (mappages pgdir p (e - p) (pageOf p) perm s).bind fun (ok, s) =>
      if ok then mapKernel pgdir ks s else .ok (false, s)

/-- `setupkvm`. -/
def setupkvm (L : Layout) (s : Mem) : Except Halt (Option Page × Mem) :=
  match kalloc s with
  | (none, s) => .ok (none, s)
  | (some pgdir, s) =>
    (mapKernel pgdir (kmap L) (s.setPage pgdir fun _ => 0#32)).map fun (ok, s) =>
      (if ok then some pgdir else none, s)

/-! ## User memory -/

/-- `mappages`, or what takes its place. -/
abbrev MapFn := Page → Word → Word → Page → Word → Mem → Except Halt (Bool × Mem)

/-- `PTE_W | PTE_U`. -/
def PTE_WU : Word := PTE_W ||| PTE_U

/-- A page with the bytes written from offset `o` on. -/
def writeBytes : BitVec 12 → List Byte → PageData → PageData
  | _, [], d => d
  | o, b :: bs, d => writeBytes (o + 1#12) bs (setByte d o b)

/-- `inituvm`, with `map` for `mappages`. -/
def inituvmWith (map : MapFn) (pgdir : Page) (init : List Byte) (s : Mem) : Except Halt Mem :=
  if PGSIZE ≤ init.length then .error (.panic "inituvm: more than a page")
  else
    match kalloc s with
    | (none, _) => .error .outOfMemory -- `mem` is not checked, and address 0 is not mapped
    | (some mem, s) =>
      (map pgdir 0#32 4096#32 mem PTE_WU (s.setPage mem fun _ => 0#32)).map fun (_, s) =>
        s.setPage mem (writeBytes 0#12 init (s.page mem))

def inituvm : Page → List Byte → Mem → Except Halt Mem := inituvmWith mappages

/-- The page at which the kernel, on the page directory `cur`, reads or writes virtual page `v`. -/
def kernelFrame (s : Mem) (cur v : Page) : Option Page :=
  if IsUser v then
    (pteOf s cur v).bind fun pte => if has pte PTE_P then some (pageOf pte) else none
  else if v.toNat < 4096 ∨ 0xFE000 ≤ v.toNat then some v
  else none

/-- A file and `readi` of it: a regular file; `none` is the return value -1. -/
structure Inode where
  size : Word
  byte : Word → Byte

def Inode.bytes (ip : Inode) (off : Word) (n : ℕ) : List Byte :=
  (List.range n).map fun k => ip.byte (off + BitVec.ofNat 32 k)

def Inode.readi (ip : Inode) (off n : Word) : Option (List Byte) :=
  if ip.size < off ∨ off + n < off then none
  else some (ip.bytes off (if ip.size < off + n then ip.size - off else n).toNat)

/-- The loop of `loaduvm`, with `n` pages and `sz` bytes left; `false` is the return value -1. -/
def loadLoop (cur pgdir : Page) (ip : Inode) : ℕ → Page → Word → Word → Mem → Except Halt (Bool × Mem)
  | 0, _, _, _, s => .ok (true, s)
  | k + 1, a, offset, sz, s =>
    match walkpgdir pgdir a false s with
    | (none, _) => .error (.panic "loaduvm: address should exist")
    | (some (t, i), _) =>
      let n : Word := if sz < 4096#32 then sz else 4096#32
      match ip.readi offset n with
      | none => .ok (false, s)
      | some [] => .ok (false, s)
      | some bs =>
        match kernelFrame s cur (pageOf (s.page t i)) with
        | none => .error .hang
        | some f =>
          let s := s.setPage f (writeBytes 0#12 bs (s.page f))
          if bs.length ≠ n.toNat then .ok (false, s)
          else loadLoop cur pgdir ip k (a + 1#20) (offset + 4096#32) (sz - 4096#32) s

/-- `loaduvm`. -/
def loaduvm (cur pgdir : Page) (addr : Word) (ip : Inode) (offset sz : Word) (s : Mem) :
    Except Halt (Bool × Mem) :=
  if offsetOf addr ≠ 0#12 then .error (.panic "loaduvm: addr must be page aligned")
  else loadLoop cur pgdir ip (pagesBelow sz) (pageOf addr) offset sz s

/-- One iteration of `deallocuvm`. -/
def freePage (L : Layout) (pgdir a : Page) (s : Mem) : Except Halt Mem :=
  match walkpgdir pgdir a false s with
  | (none, s) => .ok s
  | (some (t, i), s) =>
    if has (s.page t i) PTE_P then
      let pa := pageOf (s.page t i)
      if pa = 0#20 then .error (.panic "kfree")
      else (kfree L pa s).map fun s => s.write t i 0#32
    else .ok s

def freeLoop (L : Layout) (pgdir : Page) : ℕ → Page → Mem → Except Halt Mem
  | 0, _, s => .ok s
  | n + 1, a, s => (freePage L pgdir a s).bind fun s => freeLoop L pgdir n (a + 1#20) s

/-- `deallocuvm`. -/
def deallocuvm (L : Layout) (pgdir : Page) (oldsz newsz : Word) (s : Mem) :
    Except Halt (Word × Mem) :=
  if oldsz ≤ newsz then .ok (oldsz, s)
  else (freeLoop L pgdir (pagesBelow oldsz - (pgRoundUp newsz).toNat) (pgRoundUp newsz) s).map
    fun s => (newsz, s)

/-- A loop over pages; `false` if an iteration gives up. -/
def uvmLoop (body : Page → Mem → Except Halt (Bool × Mem)) : ℕ → Page → Mem → Except Halt (Bool × Mem)
  | 0, _, s => .ok (true, s)
  | n + 1, i, s =>
    (body i s).bind fun (ok, s) => if ok then uvmLoop body n (i + 1#20) s else .ok (false, s)

/-- One iteration of `allocuvm`; `false` if `kalloc` fails. -/
def allocPageWith (map : MapFn) (pgdir a : Page) (s : Mem) : Except Halt (Bool × Mem) :=
  match kalloc s with
  | (none, s) => .ok (false, s)
  | (some mem, s) =>
    (map pgdir (paddr a) 4096#32 mem PTE_WU (s.setPage mem fun _ => 0#32)).map fun (_, s) =>
      (true, s)

def allocPage : Page → Page → Mem → Except Halt (Bool × Mem) := allocPageWith mappages

/-- `allocuvm`, with `map` for `mappages`. -/
def allocuvmWith (map : MapFn) (L : Layout) (pgdir : Page) (oldsz newsz : Word) (s : Mem) :
    Except Halt (Word × Mem) :=
  if USERTOP < newsz then .ok (0#32, s)
  else if newsz < oldsz then .ok (oldsz, s)
  else
    (uvmLoop (allocPageWith map pgdir) (pagesBelow newsz - (pgRoundUp oldsz).toNat) (pgRoundUp oldsz) s).bind
      fun (ok, s) =>
        if ok then .ok (newsz, s)
        else (deallocuvm L pgdir newsz oldsz s).map fun (_, s) => (0#32, s)

def allocuvm (L : Layout) : Page → Word → Word → Mem → Except Halt (Word × Mem) := allocuvmWith mappages L

/-- The loop of `freevm` over the page directory. -/
def freeTables (L : Layout) (pgdir : Page) : ℕ → Index → Mem → Except Halt Mem
  | 0, _, s => .ok s
  | n + 1, i, s =>
    (if has (s.page pgdir i) PTE_P then kfree L (pageOf (s.page pgdir i)) s else .ok s).bind
      fun s => freeTables L pgdir n (i + 1#10) s

/-- `freevm`. -/
def freevm (L : Layout) (pgdir : Page) (s : Mem) : Except Halt Mem :=
  if pgdir = 0#20 then .error (.panic "freevm: no pgdir")
  else (deallocuvm L pgdir USERTOP 0#32 s).bind fun (_, s) =>
    (freeTables L pgdir 1024 0#10 s).bind fun s => kfree L pgdir s

/-! ## Copying an address space -/

/-- One iteration of `copyuvm`; `false` is the jump to `bad`. -/
def copyPageWith (map : MapFn) (pgdir d i : Page) (s : Mem) : Except Halt (Bool × Mem) :=
  match pteOf s pgdir i with
  | none => .error (.panic "copyuvm: pte should exist")
  | some pte =>
    if has pte PTE_P = false then .error (.panic "copyuvm: page not present")
    else
      match kalloc s with
      | (none, s) => .ok (false, s)
      | (some mem, s) =>
        map d (paddr i) 4096#32 mem (pteFlags pte) (s.setPage mem (s.page (pageOf pte)))

def copyPage : Page → Page → Page → Mem → Except Halt (Bool × Mem) := copyPageWith mappages

/-- One iteration of `cowuvm`; `false` is the jump to `bad`. -/
def cowPageWith (map : MapFn) (pgdir d i : Page) (s : Mem) : Except Halt (Bool × Mem) :=
  match walkpgdir pgdir i false s with
  | (none, _) => .error (.panic "cowuvm: pte should exist")
  | (some (t, ix), s) =>
    let pte := s.page t ix
    if has pte PTE_P = false then .error (.panic "cowuvm: page not present")
    else
      (map d (paddr i) 4096#32 (pageOf pte) (pteFlags (clearW pte))
          (s.write t ix (clearW pte))).map fun (ok, s) =>
        if ok then (true, incPageRef (pageOf pte) s) else (false, s)

def cowPage : Page → Page → Page → Mem → Except Halt (Bool × Mem) := cowPageWith mappages

/-- The common shape of `copyuvm` and `cowuvm`: a new page directory, a loop over the pages of the
parent, and `freevm` if the loop gives up. -/
def uvmWith (L : Layout) (body : Page → Page → Page → Mem → Except Halt (Bool × Mem)) (pgdir : Page)
    (sz : Word) (s : Mem) : Except Halt (Option Page × Mem) :=
  (setupkvm L s).bind fun (d, s) =>
    match d with
    | none => .ok (none, s)
    | some d =>
      (uvmLoop (body pgdir d) (pagesBelow sz) 0#20 s).bind fun (ok, s) =>
        if ok then .ok (some d, s) else (freevm L d s).map fun s => (none, s)

def copyuvm (L : Layout) (pgdir : Page) (sz : Word) (s : Mem) : Except Halt (Option Page × Mem) :=
  uvmWith L copyPage pgdir sz s

def cowuvm (L : Layout) (pgdir : Page) (sz : Word) (s : Mem) : Except Halt (Option Page × Mem) :=
  uvmWith L cowPage pgdir sz s

/-! ## `copyout` -/

/-- `*pte` for the pointer that `walkpgdir` returns; a null pointer reads address 0 of the current
process. -/
def loadPte (s : Mem) (cur pgdir va : Page) : Except Halt Word :=
  match pteOf s pgdir va with
  | some pte => .ok pte
  | none =>
    match kernelFrame s cur 0#20 with
    | some f => .ok (s.page f 0#10)
    | none => .error .hang

/-- `uva2ka`. -/
def uva2ka (s : Mem) (cur pgdir uva : Page) : Except Halt (Option Page) :=
  (loadPte s cur pgdir uva).map fun pte =>
    if has pte PTE_P = false ∨ has pte PTE_U = false ∨ pageOf pte = 0#20 then none
    else some (pageOf pte)

/-- `copyout`, with the bytes that are left; `n` bounds the number of pages. -/
def copyLoop (cur pgdir : Page) : ℕ → Word → List Byte → Mem → Except Halt (Bool × Mem)
  | 0, _, _, s => .ok (true, s)
  | n + 1, va, bs, s =>
    if bs = [] then .ok (true, s)
    else
      (uva2ka s cur pgdir (pageOf va)).bind fun
        | none => .ok (false, s)
        | some pa0 =>
          match kernelFrame s cur pa0 with
          | none => .error .hang
          | some f =>
            let m := PGSIZE - (offsetOf va).toNat
            copyLoop cur pgdir n (paddr (pageOf va + 1#20)) (bs.drop m)
              (s.setPage f (writeBytes (offsetOf va) (bs.take m) (s.page f)))

/-- `copyout`; `false` is the return value -1. -/
def copyout (cur pgdir : Page) (va : Word) (bs : List Byte) (s : Mem) : Except Halt (Bool × Mem) :=
  copyLoop cur pgdir (bs.length + 1) va bs s

end SystemsProjects.Cow
