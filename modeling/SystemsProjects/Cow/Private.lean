import SystemsProjects.Cow.Proc
import SystemsProjects.Cow.Tables

/-!
# Private memory

What the memory system is for: every process has pages of its own.  In this machine there are no
frames, no page tables and no allocator; a page is present or not, `fork` copies the pages, and a
store changes the page of the process alone.  It is the specification of the kernel, whichever way
`fork` copies.
-/

namespace SystemsProjects.Cow.Private

/-- A process and its pages. -/
structure Proc where
  sz : Word
  state : ProcState
  pid : Word
  parent : Option Slot
  killed : Bool
  page : Page → Option PageData

structure Sys where
  procs : Slot → Proc
  nextpid : Word
  initproc : Slot
  loads : List Byte

def Sys.modify (s : Sys) (p : Slot) (f : Proc → Proc) : Sys :=
  { s with procs := Function.update s.procs p (f (s.procs p)) }

theorem Sys.modify_congr {s : Sys} {p : Slot} {f g : Proc → Proc} (h : f (s.procs p) = g (s.procs p)) :
    s.modify p f = s.modify p g := by
  unfold Sys.modify
  rw [h]

def kill (pid : Word) (s : Sys) : Sys :=
  match (List.finRange NPROC).find? fun i => (s.procs i).pid = pid with
  | some i => s.modify i fun q => { q with killed := true }
  | none => s

def exit (p : Slot) (s : Sys) : Except Halt Sys :=
  if p = s.initproc then .error (.panic "init exiting")
  else .ok (Sys.modify
    { s with procs := fun i =>
        if (s.procs i).parent = some p then { s.procs i with parent := some s.initproc }
        else s.procs i }
    p fun q => { q with state := .zombie })

def exitIfKilled (p : Slot) (s : Sys) : Except Halt Sys :=
  if (s.procs p).killed then exit p s else .ok s

open Classical in
/-- An access to a page that the process does not have. -/
noncomputable def fault (p : Slot) (va : Word) (s : Sys) : Except Halt Sys :=
  if KernelIndex (pdx (pageOf va)) ∨ (s.procs p).page 0#20 ≠ none then
    exitIfKilled p (kill (s.procs p).pid s)
  else .error .hang

noncomputable def load (p : Slot) (va : Word) (s : Sys) : Except Halt Sys :=
  match (s.procs p).page (pageOf va) with
  | some x => .ok { s with loads := s.loads ++ [getByte x (offsetOf va)] }
  | none => fault p va s

noncomputable def store (p : Slot) (va : Word) (b : Byte) (s : Sys) : Except Halt Sys :=
  match (s.procs p).page (pageOf va) with
  | some x => .ok (s.modify p fun q =>
      { q with page := Function.update q.page (pageOf va) (some (setByte x (offsetOf va) b)) })
  | none => fault p va s

/-- The slot `c` after a fork of the process `q` in slot `p`. -/
def Proc.copy (q : Proc) (p : Slot) (pid : Word) (c : Proc) : Proc :=
  { c with
    sz := q.sz
    state := .runnable
    pid := pid
    parent := some p
    page := fun v => if v.toNat < pagesBelow q.sz then q.page v else none }

open Classical in
/-- `fork` copies the pages below the size of the parent, all of which have to be there. -/
noncomputable def fork (p : Slot) (s : Sys) : Except Halt Sys :=
  match (List.finRange NPROC).find? fun i => (s.procs i).state = .unused with
  | none => .ok s
  | some np =>
    let q := s.procs p
    if ∃ v : Page, v.toNat < pagesBelow q.sz ∧ q.page v = none then
      .error (.panic "page not present")
    else .ok { s.modify np (q.copy p s.nextpid) with nextpid := s.nextpid + 1#32 }

/-- `sbrk` adds zeroed pages or removes pages. -/
def growproc (p : Slot) (n : Word) (s : Sys) : Sys :=
  let q := s.procs p
  let newsz := q.sz + n
  if 0 < n.toInt then
    if USERTOP < newsz ∨ newsz < q.sz then s
    else s.modify p fun q =>
      { q with
        sz := newsz
        page := fun v =>
          if pagesBelow q.sz ≤ v.toNat ∧ v.toNat < pagesBelow newsz then some (fun _ => 0#32)
          else q.page v }
  else if n.toInt < 0 then
    if q.sz ≤ newsz then s
    else s.modify p fun q =>
      { q with
        sz := if newsz = 0#32 then q.sz else newsz
        page := fun v =>
          if pagesBelow newsz ≤ v.toNat ∧ v.toNat < pagesBelow q.sz then none else q.page v }
  else s

def wait (p : Slot) (s : Sys) : Except Halt Sys :=
  match (List.finRange NPROC).find? fun i =>
      (s.procs i).parent = some p ∧ (s.procs i).state = .zombie with
  | some i => .ok (s.modify i fun q =>
      { q with state := .unused, pid := 0#32, parent := none, killed := false, page := fun _ => none })
  | none =>
    if (∀ i, (s.procs i).parent ≠ some p) ∨ (s.procs p).killed then .ok s else .error .disabled

def syscall (p : Slot) (body : Sys → Except Halt Sys) (s : Sys) : Except Halt Sys :=
  if (s.procs p).killed then exit p s else (body s).bind (exitIfKilled p)

/-- One event. -/
noncomputable def step (s : Sys) (e : MemEvent) : Except Halt Sys :=
  if (s.procs e.proc).state ≠ .runnable then .error .disabled
  else
    match e with
    | .load p va => load p va s
    | .store p va b => store p va b s
    | .fork p => syscall p (fork p) s
    | .sbrk p n => syscall p (fun s => .ok (growproc p n s)) s
    | .exit p => exit p s
    | .wait p => syscall p (wait p) s
    | .interrupt p => exitIfKilled p s

end SystemsProjects.Cow.Private
