import Mathlib.Data.Int.Basic
import SystemsProjects.Lib.Monitor
import SystemsProjects.Lib.Ring

/-!
# Pipes

`pipewrite`, `piperead` and `pipeclose` of `kernel/pipe.c`, as code of any number of processes that share
one pipe.  A process makes one call after another.  Its code stands at one of the points below, and a step
of the system is one step of one process, a `kill`, or a `wakeup` from elsewhere; `sleep` and `wakeup` are
those of `SystemsProjects.Lib.Monitor`.

The lists `put` and `got` are a history for the proofs: who stored and who took which byte.
-/

namespace SystemsProjects.Xv6.Pipes

open Monitor

def PIPESIZE : ℕ := 512

/-- The addresses that processes sleep on: `&p->nread` and `&p->nwrite`. -/
inductive Chan where
  | nread
  | nwrite
deriving DecidableEq

/-- `struct pipe`, and its history. -/
structure Pipe (ι : Type*) where
  data : ℕ → UInt8
  /-- number of bytes read -/
  nread : BitVec 32
  /-- number of bytes written -/
  nwrite : BitVec 32
  readopen : Bool
  writeopen : Bool
  /-- The bytes that were stored, each with the process that stored it. -/
  put : List (ι × UInt8)
  /-- The bytes that were taken, each with the process that took it. -/
  got : List (ι × UInt8)
  /-- A killed writer has returned without a `wakeup` for bytes that it stored. -/
  silent : Bool

namespace Pipe

variable {ι : Type*} (p : Pipe ι)

/-- `p->nwrite == p->nread + PIPESIZE` -/
def full : Bool := p.nwrite == p.nread + BitVec.ofNat 32 PIPESIZE

/-- `p->nread == p->nwrite` -/
def empty : Bool := p.nread == p.nwrite

/-- `p->data[p->nwrite++ % PIPESIZE] = b` -/
def store (i : ι) (b : UInt8) : Pipe ι :=
  { p with
    data := Function.update p.data (p.nwrite.toNat % PIPESIZE) b
    nwrite := p.nwrite + 1
    put := p.put ++ [(i, b)] }

/-- `p->data[p->nread % PIPESIZE]` -/
def front : UInt8 := p.data (p.nread.toNat % PIPESIZE)

/-- `p->nread++`, after the byte is read -/
def take (i : ι) : Pipe ι := { p with nread := p.nread + 1, got := p.got ++ [(i, p.front)] }

/-- The pipe that `pipealloc` returns. -/
def init (data : ℕ → UInt8) : Pipe ι := ⟨data, 0, 0, true, true, [], [], false⟩

end Pipe

/-! ## The code -/

/-- A call that a process makes: `pipewrite`, with the bytes at `addr`, `piperead` or `pipeclose`. -/
inductive Call where
  | write (addr : ℕ → UInt8) (n : ℤ)
  | read (n : ℤ)
  | close (writable : Bool)

/-- A call that has returned `ret`, with the bytes it has stored or taken. -/
structure Done where
  call : Call
  bytes : List UInt8
  ret : ℤ

/-- The points of `pipewrite`.  `stored` tells if bytes were stored since the last `wakeup`. -/
inductive WritePoint where
  | acquire
  /-- `i < n` -/
  | loop (i : ℕ) (stored : Bool)
  /-- `p->nwrite == p->nread + PIPESIZE` -/
  | full (i : ℕ) (stored : Bool)
  /-- `p->readopen == 0 || proc->killed` -/
  | check (i : ℕ) (stored : Bool)
  | wakeup (i : ℕ)
  | sleep (i : ℕ)
  | store (i : ℕ) (stored : Bool)
  | fail (i : ℕ)
  | wakeup1 (i : ℕ)
  | release (i : ℕ)

/-- The points of `piperead`; `bytes` are those at `addr`. -/
inductive ReadPoint where
  | acquire
  /-- `p->nread == p->nwrite && p->writeopen` -/
  | empty
  /-- `proc->killed` -/
  | check
  | sleep
  | fail
  /-- `i < n`, and the `break` -/
  | loop (bytes : List UInt8)
  | take (bytes : List UInt8)
  | wakeup (bytes : List UInt8)
  | release (bytes : List UInt8)

/-- The points of `pipeclose`. -/
inductive ClosePoint where
  | acquire
  | mark
  | wakeup
  /-- `p->readopen == 0 && p->writeopen == 0` -/
  | last
  | release
  /-- `release` of the branch that frees the pipe -/
  | unlock
  | kfree

inductive Point where
  | idle
  | write (addr : ℕ → UInt8) (n : ℤ) (at_ : WritePoint)
  | read (n : ℤ) (at_ : ReadPoint)
  | close (writable : Bool) (at_ : ClosePoint)

/-- A process: the calls it has still to make, those that have returned, and where it is. -/
structure Thread where
  calls : List Call
  done : List Done
  point : Point

namespace Thread

variable (t : Thread)

def goto (k : Point) : Thread := { t with point := k }

def return_ (d : Done) : Thread := { t with done := t.done ++ [d], point := .idle }

end Thread

/-- The first `i` bytes at `addr`. -/
def bytesAt (addr : ℕ → UInt8) (i : ℕ) : List UInt8 := (List.range i).map addr

variable {ι : Type*}

def pipewrite (me : ι) (t : Thread) (addr : ℕ → UInt8) (n : ℤ) : WritePoint → Instr Thread (Pipe ι) Chan
  | .acquire => .acquire (t.goto (.write addr n (.loop 0 false)))
  | .loop i stored => .access fun _ p =>
    (p, t.goto (.write addr n (if i < n then .full i stored else .wakeup1 i)))
  | .full i stored => .access fun _ p =>
    (p, t.goto (.write addr n (if p.full then .check i stored else .store i stored)))
  | .check i stored => .access fun killed p =>
    if !p.readopen || killed then
      ({ p with silent := p.silent || (stored && p.readopen) }, t.goto (.write addr n (.fail i)))
    else (p, t.goto (.write addr n (.wakeup i)))
  | .wakeup i => .wakeup .nread (t.goto (.write addr n (.sleep i)))
  | .sleep i => .sleep .nwrite (t.goto (.write addr n (.full i false)))
  | .store i _ => .access fun _ p => (p.store me (addr i), t.goto (.write addr n (.loop (i + 1) true)))
  | .fail i => .release (t.return_ ⟨.write addr n, bytesAt addr i, -1⟩)
  | .wakeup1 i => .wakeup .nread (t.goto (.write addr n (.release i)))
  | .release i => .release (t.return_ ⟨.write addr n, bytesAt addr i, n⟩)

def piperead (me : ι) (t : Thread) (n : ℤ) : ReadPoint → Instr Thread (Pipe ι) Chan
  | .acquire => .acquire (t.goto (.read n .empty))
  | .empty => .access fun _ p =>
    (p, t.goto (.read n (if p.empty && p.writeopen then .check else .loop [])))
  | .check => .access fun killed p => (p, t.goto (.read n (if killed then .fail else .sleep)))
  | .sleep => .sleep .nread (t.goto (.read n .empty))
  | .fail => .release (t.return_ ⟨.read n, [], -1⟩)
  | .loop bytes => .access fun _ p =>
    (p, t.goto (.read n (if bytes.length < n ∧ ¬ p.empty then .take bytes else .wakeup bytes)))
  | .take bytes => .access fun _ p => (p.take me, t.goto (.read n (.loop (bytes ++ [p.front]))))
  | .wakeup bytes => .wakeup .nwrite (t.goto (.read n (.release bytes)))
  | .release bytes => .release (t.return_ ⟨.read n, bytes, bytes.length⟩)

def pipeclose (t : Thread) (writable : Bool) : ClosePoint → Instr Thread (Pipe ι) Chan
  | .acquire => .acquire (t.goto (.close writable .mark))
  | .mark => .access fun _ p =>
    (if writable then { p with writeopen := false } else { p with readopen := false },
      t.goto (.close writable .wakeup))
  | .wakeup => .wakeup (if writable then .nread else .nwrite) (t.goto (.close writable .last))
  | .last => .access fun _ p =>
    (p, t.goto (.close writable (if !p.readopen && !p.writeopen then .unlock else .release)))
  | .release => .release (t.return_ ⟨.close writable, [], 0⟩)
  | .unlock => .release (t.goto (.close writable .kfree))
  | .kfree => .jump (t.return_ ⟨.close writable, [], 0⟩)

/-- The point at which the code of a call begins. -/
def Call.entry : Call → Point
  | .write addr n => .write addr n .acquire
  | .read n => .read n .acquire
  | .close writable => .close writable .acquire

/-- The code of the process `me`. -/
def code (me : ι) (t : Thread) : Instr Thread (Pipe ι) Chan :=
  match t.point with
  | .idle =>
    match t.calls with
    | [] => .stop
    | call :: calls => .jump { t with calls := calls, point := call.entry }
  | .write addr n at_ => pipewrite me t addr n at_
  | .read n at_ => piperead me t n at_
  | .close writable at_ => pipeclose t writable at_

/-- The processes before their first call. -/
def init (data : ℕ → UInt8) (calls : ι → List Call) : World ι Thread (Pipe ι) Chan where
  lk := none
  table := none
  shared := Pipe.init data
  pc := fun i => ⟨calls i, [], .idle⟩
  phase := fun _ => .running
  killed := fun _ => false

/-! ## What is known at each point -/

def Point.Inside : Point → Prop
  | .idle => False
  | .write _ _ .acquire => False
  | .read _ .acquire => False
  | .close _ .acquire => False
  | .close _ .kfree => False
  | _ => True

/-- The bytes in the buffer are those that were stored and not yet taken, and they are taken in order. -/
structure Pipe.Ordered (p : Pipe ι) : Prop where
  nwrite : p.nwrite = BitVec.ofNat 32 p.put.length
  nread : p.nread = BitVec.ofNat 32 p.got.length
  cells : Ring.Holds PIPESIZE p.data p.got.length (p.put.map Prod.snd)
  taken : p.got.map Prod.snd = (p.put.map Prod.snd).take p.got.length

/-- What the tests that lead to a point have found. -/
def Point.Found (p : Pipe ι) : Point → Prop
  | .write _ _ (.check _ _) => p.full
  | .write _ _ (.wakeup _) => p.full ∧ p.readopen
  | .write _ _ (.sleep _) => p.full ∧ p.readopen
  | .write _ _ (.store _ _) => ¬ p.full
  | .read _ .check => p.empty ∧ p.writeopen
  | .read _ .sleep => p.empty ∧ p.writeopen
  | .read _ (.take _) => ¬ p.empty
  | _ => True

/-- What a sleeper waits to end.  A reader does not have to be woken once nobody can read. -/
def Chan.Waits (p : Pipe ι) : Chan → Prop
  | .nread => p.readopen = false ∨ (p.empty ∧ p.writeopen) ∨ p.silent
  | .nwrite => p.full ∧ p.readopen

/-- A writer owes a `wakeup` for the bytes it has stored, a reader once it comes to the loop. -/
def Point.Owes (c : Chan) : Point → Prop
  | .write _ _ (.loop _ stored) => c = .nread ∧ stored
  | .write _ _ (.full _ stored) => c = .nread ∧ stored
  | .write _ _ (.check _ stored) => c = .nread ∧ stored
  | .write _ _ (.store _ stored) => c = .nread ∧ stored
  | .write _ _ (.wakeup _) => c = .nread
  | .write _ _ (.wakeup1 _) => c = .nread
  | .read _ (.loop _) => c = .nwrite
  | .read _ (.take _) => c = .nwrite
  | .read _ (.wakeup _) => c = .nwrite
  | .close writable .wakeup => c = if writable then .nread else .nwrite
  | _ => False

def outline : Outline Thread (Pipe ι) Chan where
  inside t := t.point.Inside
  holds t p := p.Ordered ∧ t.point.Found p
  free p := p.Ordered
  waits c p := c.Waits p
  owes t c := t.point.Owes c

namespace Pipe

variable {p : Pipe ι}

theorem Ordered.taken_le (h : p.Ordered) : p.got.length ≤ p.put.length := by
  simpa using h.cells.taken

theorem Ordered.le_room (h : p.Ordered) : p.put.length ≤ p.got.length + PIPESIZE := by
  simpa using h.cells.room

theorem Ordered.full_iff (h : p.Ordered) : p.full ↔ p.put.length = p.got.length + PIPESIZE := by
  have htaken := h.taken_le
  rw [full, beq_iff_eq, h.nwrite, h.nread, ← BitVec.ofNat_add]
  apply Ring.counter_eq_iff h.le_room
  unfold PIPESIZE
  omega

theorem Ordered.empty_iff (h : p.Ordered) : p.empty ↔ p.got.length = p.put.length := by
  have hroom := h.le_room
  rw [empty, beq_iff_eq, h.nwrite, h.nread]
  apply Ring.counter_eq_iff h.taken_le
  unfold PIPESIZE at hroom
  omega

/-- The two counters tell how many bytes are in the pipe. -/
theorem Ordered.sub_toNat (h : p.Ordered) : (p.nwrite - p.nread).toNat = p.put.length - p.got.length := by
  have htaken := h.taken_le
  have hroom := h.le_room
  unfold PIPESIZE at hroom
  rw [h.nwrite, h.nread, BitVec.toNat_sub, BitVec.toNat_ofNat, BitVec.toNat_ofNat]
  omega

theorem Ordered.init (data : ℕ → UInt8) : (Pipe.init data : Pipe ι).Ordered :=
  ⟨rfl, rfl, Ring.Holds.nil, rfl⟩

theorem cell_ofNat (n : ℕ) : (BitVec.ofNat 32 n).toNat % PIPESIZE = n % PIPESIZE :=
  Ring.counter_mod (by decide) n

theorem Ordered.store (h : p.Ordered) (hfull : ¬ p.full) (i : ι) (b : UInt8) : (p.store i b).Ordered := by
  have hroom := h.le_room
  rw [h.full_iff] at hfull
  refine ⟨?_, h.nread, ?_, ?_⟩
  · simp [Pipe.store, h.nwrite, BitVec.ofNat_add]
  · have hcells := h.cells.push (by rw [List.length_map]; omega) b
    rw [List.length_map] at hcells
    simpa only [Pipe.store, h.nwrite, cell_ofNat, List.map_append, List.map_cons, List.map_nil] using hcells
  · rw [Pipe.store, List.map_append, List.take_append_of_le_length (by simpa using h.taken_le)]
    exact h.taken

theorem Ordered.take (h : p.Ordered) (hempty : ¬ p.empty) (i : ι) : (p.take i).Ordered := by
  have htaken := h.taken_le
  rw [h.empty_iff] at hempty
  have hlt : p.got.length < (p.put.map Prod.snd).length := by
    rw [List.length_map]
    omega
  have hfront : p.front = (p.put.map Prod.snd).get ⟨p.got.length, hlt⟩ := by
    rw [Pipe.front, h.nread, cell_ofNat]
    exact h.cells.front hlt
  refine ⟨h.nwrite, ?_, ?_, ?_⟩
  · simp [Pipe.take, h.nread, BitVec.ofNat_add]
  · simpa [Pipe.take] using h.cells.pop hlt
  · simp only [Pipe.take, List.map_append, List.map_cons, List.map_nil, List.length_append, List.length_singleton]
    rw [h.taken, hfront, List.take_succ_eq_append_getElem hlt]
    rfl

end Pipe

/-! ## The code follows the outline -/

theorem pipewrite_ok (me : ι) (t : Thread) (addr : ℕ → UInt8) (n : ℤ) (at_ : WritePoint)
    (ht : t.point = .write addr n at_) : outline.Ok t (pipewrite me t addr n at_) := by
  simp only [pipewrite, Outline.Ok, outline, Thread.goto, Thread.return_]
  rw [ht]
  cases at_ with
  | acquire => exact ⟨id, trivial, fun p hp => ⟨hp, trivial⟩⟩
  | loop i stored =>
    refine ⟨trivial, fun _ p hp => ?_⟩
    by_cases hi : i < n
    · simp only [hi, if_true]
      exact ⟨trivial, ⟨hp.1, trivial⟩, fun c hc => hc⟩
    · simp only [hi, if_false]
      exact ⟨trivial, ⟨hp.1, trivial⟩, fun c hc => hc.imp_left And.left⟩
  | full i stored =>
    refine ⟨trivial, fun _ p hp => ?_⟩
    by_cases hfull : p.full
    · simp only [hfull, if_true]
      exact ⟨trivial, ⟨hp.1, hfull⟩, fun c hc => hc⟩
    · simp only [hfull]
      exact ⟨trivial, ⟨hp.1, hfull⟩, fun c hc => hc⟩
  | check i stored =>
    refine ⟨trivial, fun killed p ⟨hp, hfull⟩ => ?_⟩
    by_cases hgive : !p.readopen || killed
    · simp only [hgive, if_true]
      refine ⟨trivial, ⟨⟨hp.nwrite, hp.nread, hp.cells, hp.taken⟩, trivial⟩, fun c hc => .inr ?_⟩
      cases c with
      | nread =>
        -- the bytes stored since the last `wakeup` are announced to nobody
        rcases hc with ⟨_, hstored⟩ | hopen | hempty | hsilent
        · cases hopen : p.readopen with
          | false => exact .inl rfl
          | true => exact .inr (.inr (by simp [hstored]))
        · exact .inl hopen
        · exact .inr (.inl hempty)
        · exact .inr (.inr (by simp [hsilent]))
      | nwrite =>
        rcases hc with ⟨heq, _⟩ | hwaits
        · exact nomatch heq
        · exact hwaits
    · simp only [hgive]
      simp only [Bool.or_eq_true, Bool.not_eq_true', not_or, Bool.not_eq_false] at hgive
      exact ⟨trivial, ⟨hp, hfull, hgive.1⟩, fun c hc => hc.imp_left And.left⟩
  | wakeup i =>
    exact ⟨trivial, trivial, fun p hp => hp, fun c hne heq => absurd heq hne⟩
  | sleep i =>
    exact ⟨trivial, trivial, fun p hp => ⟨hp, trivial⟩, fun p hp => ⟨hp.1, hp.2, fun c hc => hc.elim⟩⟩
  | store i stored =>
    refine ⟨trivial, fun _ p hp => ⟨trivial, ⟨hp.1.store hp.2 me (addr i), trivial⟩, fun c hc => ?_⟩⟩
    cases c with
    | nread => exact .inl ⟨rfl, rfl⟩
    | nwrite =>
      rcases hc with ⟨heq, _⟩ | hwaits
      · exact nomatch heq
      · exact absurd hwaits.1 hp.2
  | fail i => exact ⟨trivial, id, fun p hp => ⟨hp.1, fun c hc => hc.elim⟩⟩
  | wakeup1 i =>
    exact ⟨trivial, trivial, fun p hp => hp, fun c hne heq => absurd heq hne⟩
  | release i => exact ⟨trivial, id, fun p hp => ⟨hp.1, fun c hc => hc.elim⟩⟩

theorem piperead_ok (me : ι) (t : Thread) (n : ℤ) (at_ : ReadPoint) (ht : t.point = .read n at_) :
    outline.Ok t (piperead me t n at_) := by
  simp only [piperead, Outline.Ok, outline, Thread.goto, Thread.return_]
  rw [ht]
  cases at_ with
  | acquire => exact ⟨id, trivial, fun p hp => ⟨hp, trivial⟩⟩
  | empty =>
    refine ⟨trivial, fun _ p hp => ?_⟩
    by_cases hempty : p.empty && p.writeopen
    · simp only [hempty, if_true]
      exact ⟨trivial, ⟨hp.1, by simpa [Point.Found] using hempty⟩, fun c hc => hc⟩
    · simp only [hempty]
      exact ⟨trivial, ⟨hp.1, trivial⟩, fun c hc => hc.imp_left False.elim⟩
  | check =>
    refine ⟨trivial, fun killed p hp => ?_⟩
    cases killed with
    | true => exact ⟨trivial, ⟨hp.1, trivial⟩, fun c hc => hc⟩
    | false => exact ⟨trivial, hp, fun c hc => hc⟩
  | sleep =>
    exact ⟨trivial, trivial, fun p hp => ⟨hp, trivial⟩,
      fun p hp => ⟨hp.1, .inr (.inl hp.2), fun c hc => hc.elim⟩⟩
  | fail => exact ⟨trivial, id, fun p hp => ⟨hp.1, fun c hc => hc.elim⟩⟩
  | loop bytes =>
    refine ⟨trivial, fun _ p hp => ?_⟩
    by_cases hmore : bytes.length < n ∧ ¬ p.empty
    · simp only [hmore]
      exact ⟨trivial, ⟨hp.1, hmore.2⟩, fun c hc => hc⟩
    · simp only [hmore, if_false]
      exact ⟨trivial, ⟨hp.1, trivial⟩, fun c hc => hc⟩
  | take bytes =>
    refine ⟨trivial, fun _ p hp => ⟨trivial, ⟨hp.1.take hp.2 me, trivial⟩, fun c hc => ?_⟩⟩
    cases c with
    | nread =>
      rcases hc with heq | hopen | hempty | hsilent
      · exact nomatch heq
      · exact .inr (.inl hopen)
      · exact absurd hempty.1 hp.2
      · exact .inr (.inr (.inr hsilent))
    | nwrite => exact .inl rfl
  | wakeup bytes =>
    exact ⟨trivial, trivial, fun p hp => hp, fun c hne heq => absurd heq hne⟩
  | release bytes => exact ⟨trivial, id, fun p hp => ⟨hp.1, fun c hc => hc.elim⟩⟩

theorem pipeclose_ok (t : Thread) (writable : Bool) (at_ : ClosePoint) (ht : t.point = .close writable at_) :
    outline.Ok t (pipeclose t writable at_ : Instr Thread (Pipe ι) Chan) := by
  simp only [pipeclose, Outline.Ok, outline, Thread.goto, Thread.return_]
  rw [ht]
  cases at_ with
  | acquire => exact ⟨id, trivial, fun p hp => ⟨hp, trivial⟩⟩
  | mark =>
    refine ⟨trivial, fun _ p hp => ⟨trivial, ?_, fun c hc => ?_⟩⟩
    · cases writable with
      | true => exact ⟨⟨hp.1.nwrite, hp.1.nread, hp.1.cells, hp.1.taken⟩, trivial⟩
      | false => exact ⟨⟨hp.1.nwrite, hp.1.nread, hp.1.cells, hp.1.taken⟩, trivial⟩
    · cases writable with
      | true =>
        cases c with
        | nread => exact .inl rfl
        | nwrite => exact .inr (hc.resolve_left id)
      | false =>
        cases c with
        | nread => exact .inr (.inl rfl)
        | nwrite => exact .inl rfl
  | wakeup =>
    exact ⟨trivial, trivial, fun p hp => hp, fun c hne heq => absurd heq hne⟩
  | last =>
    refine ⟨trivial, fun _ p hp => ?_⟩
    by_cases hlast : !p.readopen && !p.writeopen
    · simp only [hlast, if_true]
      exact ⟨trivial, ⟨hp.1, trivial⟩, fun c hc => hc⟩
    · simp only [hlast]
      exact ⟨trivial, ⟨hp.1, trivial⟩, fun c hc => hc⟩
  | release => exact ⟨trivial, id, fun p hp => ⟨hp.1, fun c hc => hc.elim⟩⟩
  | unlock => exact ⟨trivial, id, fun p hp => ⟨hp.1, fun c hc => hc.elim⟩⟩
  | kfree => exact ⟨id, id⟩

theorem code_ok (me : ι) (t : Thread) : outline.Ok t (code me t) := by
  unfold code
  cases hpoint : t.point with
  | idle =>
    cases t.calls with
    | nil => trivial
    | cons call calls =>
      refine ⟨?_, ?_⟩
      · simp [outline, hpoint, Point.Inside]
      · cases call <;> exact id
  | write addr n at_ => exact pipewrite_ok me t addr n at_ hpoint
  | read n at_ => exact piperead_ok me t n at_ hpoint
  | close writable at_ => exact pipeclose_ok t writable at_ hpoint

variable [DecidableEq ι]

omit [DecidableEq ι] in
theorem inv_init (data : ℕ → UInt8) (calls : ι → List Call) : outline.Inv (init data calls) :=
  Outline.Inv.initial rfl rfl (fun _ => rfl) (fun _ => id) (Pipe.Ordered.init data)

theorem inv_run {data : ℕ → UInt8} {calls : ι → List Call} {es : List (Event ι Chan)}
    {w : World ι Thread (Pipe ι) Chan} (hrun : Trace.run (step code) (init data calls) es = some w) :
    outline.Inv w :=
  (inv_init data calls).run code_ok hrun

/-- No wakeup is lost.  While the lock of the pipe is free, a writer sleeps only on a full pipe whose read end
is open, and a reader only on an empty pipe whose write end is open, unless nobody can read any more or a
killed writer has gone without a `wakeup`.  In particular no reader and writer sleep at the same time. -/
theorem sleepers_wait_rightly (data : ℕ → UInt8) (calls : ι → List Call) (es : List (Event ι Chan))
    {w : World ι Thread (Pipe ι) Chan} (hrun : Trace.run (step code) (init data calls) es = some w)
    (hlk : w.lk = none) :
    (∀ i, w.phase i = .asleep .nwrite → w.shared.full ∧ w.shared.readopen) ∧
    (∀ i, w.phase i = .asleep .nread →
      w.shared.empty ∧ w.shared.writeopen ∨ w.shared.readopen = false ∨ w.shared.silent) ∧
    (w.shared.silent = false → ∀ i j, ¬ (w.phase i = .asleep .nread ∧ w.phase j = .asleep .nwrite)) := by
  have hinv := inv_run hrun
  have hwrite : ∀ i, w.phase i = .asleep .nwrite → w.shared.full ∧ w.shared.readopen :=
    fun i hi => hinv.waits_of_asleep hlk hi
  have hread : ∀ i, w.phase i = .asleep .nread →
      w.shared.empty ∧ w.shared.writeopen ∨ w.shared.readopen = false ∨ w.shared.silent := by
    intro i hi
    rcases hinv.waits_of_asleep hlk hi with hopen | hempty | hsilent
    · exact .inr (.inl hopen)
    · exact .inl hempty
    · exact .inr (.inr hsilent)
  refine ⟨hwrite, hread, fun hsilent i j hij => ?_⟩
  have hordered : w.shared.Ordered := hinv.free hlk
  obtain ⟨hfull, hopen⟩ := hwrite j hij.2
  rcases hread i hij.1 with hempty | hclosed | hsilent'
  · rw [hordered.full_iff] at hfull
    rw [hordered.empty_iff] at hempty
    unfold PIPESIZE at hfull
    omega
  · simp [hclosed] at hopen
  · simp [hsilent] at hsilent'

/-- A reader that comes before the writer sleeps on the empty pipe. -/
theorem sleepers_wait_rightly_of_empty : ∃ w : World Bool Thread (Pipe Bool) Chan,
    Trace.run (step code) (init (fun _ => 0) fun i => if i then [.write (fun _ => 7) 1] else [.read 1])
      (List.replicate 8 (.step false) ++ [.step true]) = some w ∧
    w.lk = none ∧ w.phase false = .asleep .nread ∧ w.shared.empty ∧ w.shared.writeopen := by
  refine ⟨_, rfl, rfl, rfl, ?_⟩
  exact ((sleepers_wait_rightly (fun _ => 0) (fun i => if i then [.write (fun _ => 7) 1] else [.read 1])
    (List.replicate 8 (.step false) ++ [.step true]) rfl rfl).2.1 false rfl).resolve_right (by decide)

/-! ## What each process has stored and taken -/

def WritePoint.index : WritePoint → ℕ
  | .acquire => 0
  | .loop i _ => i
  | .full i _ => i
  | .check i _ => i
  | .wakeup i => i
  | .sleep i => i
  | .store i _ => i
  | .fail i => i
  | .wakeup1 i => i
  | .release i => i

def ReadPoint.bytes : ReadPoint → List UInt8
  | .loop bytes => bytes
  | .take bytes => bytes
  | .wakeup bytes => bytes
  | .release bytes => bytes
  | _ => []

/-- The call that a process is in. -/
def Point.call : Point → List Call
  | .idle => []
  | .write addr n _ => [.write addr n]
  | .read n _ => [.read n]
  | .close writable _ => [.close writable]

/-- The bytes that the call has stored so far. -/
def Point.stored : Point → List UInt8
  | .write addr _ at_ => bytesAt addr at_.index
  | _ => []

/-- The bytes that the call has taken so far. -/
def Point.taken : Point → List UInt8
  | .read _ at_ => at_.bytes
  | _ => []

def Done.stored (d : Done) : List UInt8 :=
  match d.call with
  | .write _ _ => d.bytes
  | _ => []

def Done.taken (d : Done) : List UInt8 :=
  match d.call with
  | .read _ => d.bytes
  | _ => []

/-- The bytes that a process has stored, one call after the other. -/
def Thread.stored (t : Thread) : List UInt8 := t.done.flatMap Done.stored ++ t.point.stored

/-- The bytes that a process has taken, one call after the other. -/
def Thread.taken (t : Thread) : List UInt8 := t.done.flatMap Done.taken ++ t.point.taken

/-- What a call has done when it returns: a write that succeeds has stored all its bytes, one that fails a
first part of them; a read returns the number of bytes it has taken. -/
def Done.Right (d : Done) : Prop :=
  match d.call with
  | .write addr n =>
    d.bytes = bytesAt addr d.bytes.length ∧
      (d.ret = n ∧ d.bytes.length = n.toNat ∨ d.ret = -1 ∧ (d.bytes.length : ℤ) < n)
  | .read n => d.ret = d.bytes.length ∧ d.bytes.length ≤ n.toNat ∨ d.ret = -1 ∧ d.bytes = []
  | .close _ => d.ret = 0

/-- How far a call is at a point. -/
def Point.Progress : Point → Prop
  | .write _ n (.loop i _) => i ≤ n.toNat
  | .write _ n (.wakeup1 i) => i = n.toNat
  | .write _ n (.release i) => i = n.toNat
  | .write _ _ .acquire => True
  | .write _ n at_ => at_.index < n
  | .read n (.take bytes) => bytes.length < n
  | .read n at_ => at_.bytes.length ≤ n.toNat
  | _ => True

/-- The bytes of the process `i` in a history. -/
def bytesOf (i : ι) (log : List (ι × UInt8)) : List UInt8 := (log.filter fun x => x.1 = i).map Prod.snd

/-- What a process knows of the calls it was to make matches the history. -/
structure Kept (calls : ι → List Call) (i : ι) (t : Thread) (p : Pipe ι) : Prop where
  script : t.done.map Done.call ++ t.point.call ++ t.calls = calls i
  right : ∀ d ∈ t.done, d.Right
  progress : t.point.Progress
  put : bytesOf i p.put = t.stored
  got : bytesOf i p.got = t.taken

theorem bytesOf_append_self (i : ι) (log : List (ι × UInt8)) (b : UInt8) :
    bytesOf i (log ++ [(i, b)]) = bytesOf i log ++ [b] := by
  simp [bytesOf]

theorem bytesOf_append_of_ne {i j : ι} (h : j ≠ i) (log : List (ι × UInt8)) (b : UInt8) :
    bytesOf j (log ++ [(i, b)]) = bytesOf j log := by
  simp [bytesOf, Ne.symm h]

theorem bytesAt_succ (addr : ℕ → UInt8) (i : ℕ) : bytesAt addr (i + 1) = bytesAt addr i ++ [addr i] := by
  simp [bytesAt, List.range_succ]

@[simp] theorem length_bytesAt (addr : ℕ → UInt8) (i : ℕ) : (bytesAt addr i).length = i := by
  simp [bytesAt]

variable {calls : ι → List Call} {i : ι} {t : Thread} {p : Pipe ι}

theorem Kept.progress_of (h : Kept calls i t p) {k : Point} (ht : t.point = k) : k.Progress := by
  rw [← ht]
  exact h.progress

theorem Kept.congr (h : Kept calls i t p) {p' : Pipe ι} (hput : bytesOf i p'.put = bytesOf i p.put)
    (hgot : bytesOf i p'.got = bytesOf i p.got) : Kept calls i t p' :=
  ⟨h.script, h.right, h.progress, hput.trans h.put, hgot.trans h.got⟩

/-- A step within a call that changes neither the pipe nor what the call has done. -/
theorem Kept.goto (h : Kept calls i t p) {k : Point} (hcall : k.call = t.point.call) (hprogress : k.Progress)
    (hstored : k.stored = t.point.stored) (htaken : k.taken = t.point.taken) : Kept calls i (t.goto k) p :=
  ⟨by simpa [Thread.goto, hcall] using h.script, h.right, hprogress,
    by simpa [Thread.goto, Thread.stored, hstored] using h.put,
    by simpa [Thread.goto, Thread.taken, htaken] using h.got⟩

/-- The return from a call. -/
theorem Kept.return_ (h : Kept calls i t p) {d : Done} (hcall : [d.call] = t.point.call) (hright : d.Right)
    (hstored : d.stored = t.point.stored) (htaken : d.taken = t.point.taken) : Kept calls i (t.return_ d) p := by
  refine ⟨?_, ?_, trivial, ?_, ?_⟩
  · have hscript := h.script
    rw [← hcall] at hscript
    simpa [Thread.return_, Point.call] using hscript
  · intro d' hd'
    rcases List.mem_append.1 hd' with hold | hnew
    · exact h.right d' hold
    · rw [List.mem_singleton.1 hnew]
      exact hright
  · simpa [Thread.return_, Thread.stored, Point.stored, hstored] using h.put
  · simpa [Thread.return_, Thread.taken, Point.taken, htaken] using h.got

variable {addr : ℕ → UInt8} {n : ℤ} {writable : Bool}

theorem Kept.write (h : Kept calls i t p) {a a' : WritePoint} (ht : t.point = .write addr n a)
    (hindex : a'.index = a.index) (hprogress : (Point.write addr n a').Progress) :
    Kept calls i (t.goto (.write addr n a')) p := by
  apply h.goto
  · rw [ht]
    rfl
  · exact hprogress
  · rw [ht, Point.stored, Point.stored, hindex]
  · rw [ht]
    rfl

theorem Kept.read (h : Kept calls i t p) {a a' : ReadPoint} (ht : t.point = .read n a)
    (hbytes : a'.bytes = a.bytes) (hprogress : (Point.read n a').Progress) :
    Kept calls i (t.goto (.read n a')) p := by
  apply h.goto
  · rw [ht]
    rfl
  · exact hprogress
  · rw [ht]
    rfl
  · rw [ht, Point.taken, Point.taken, hbytes]

theorem Kept.store (h : Kept calls i t p) {k : ℕ} {stored : Bool} (ht : t.point = .write addr n (.store k stored))
    (hlt : k < n) : Kept calls i (t.goto (.write addr n (.loop (k + 1) true))) (p.store i (addr k)) := by
  have hput := h.put
  have hscript := h.script
  have hgot := h.got
  rw [Thread.stored, ht, Point.stored] at hput
  rw [ht] at hscript
  rw [Thread.taken, ht] at hgot
  refine ⟨hscript, h.right, ?_, ?_, hgot⟩
  · simp only [Thread.goto, Point.Progress]
    omega
  · rw [Pipe.store, bytesOf_append_self, hput, Thread.stored, List.append_assoc]
    exact congrArg _ (bytesAt_succ addr k).symm

theorem Kept.take (h : Kept calls i t p) {bytes : List UInt8} (ht : t.point = .read n (.take bytes))
    (hlt : bytes.length < n) : Kept calls i (t.goto (.read n (.loop (bytes ++ [p.front])))) (p.take i) := by
  have hput := h.put
  have hscript := h.script
  have hgot := h.got
  rw [Thread.stored, ht] at hput
  rw [ht] at hscript
  rw [Thread.taken, ht, Point.taken] at hgot
  refine ⟨hscript, h.right, ?_, hput, ?_⟩
  · simp only [Thread.goto, Point.Progress, ReadPoint.bytes, List.length_append, List.length_singleton]
    omega
  · rw [Pipe.take, bytesOf_append_self, hgot, Thread.taken, List.append_assoc]
    rfl

theorem pipewrite_keeps {a : WritePoint} (ht : t.point = .write addr n a) :
    (pipewrite i t addr n a).Keeps (fun _ => True) (Kept calls i) t := by
  cases a with
  | acquire => exact fun p _ h => h.write ht rfl (Nat.zero_le _)
  | loop k stored =>
    intro _ p _ h
    have hk : k ≤ n.toNat := h.progress_of ht
    by_cases hlt : k < n
    · simp only [hlt, if_true]
      exact h.write ht rfl hlt
    · simp only [hlt, if_false]
      exact h.write ht rfl (show k = n.toNat by omega)
  | full k stored =>
    intro _ p _ h
    have hk : (k : ℤ) < n := h.progress_of ht
    by_cases hfull : p.full
    · simp only [hfull, if_true]
      exact h.write ht rfl hk
    · simp only [hfull]
      exact h.write ht rfl hk
  | check k stored =>
    intro killed p _ h
    have hk : (k : ℤ) < n := h.progress_of ht
    by_cases hgive : !p.readopen || killed
    · simp only [hgive, if_true]
      have hnext : Kept calls i (t.goto (.write addr n (.fail k))) p := h.write ht rfl hk
      exact hnext.congr rfl rfl
    · simp only [hgive]
      exact h.write ht rfl hk
  | wakeup k =>
    intro p _ h
    have hk : (k : ℤ) < n := h.progress_of ht
    exact h.write ht rfl hk
  | sleep k =>
    intro p _ h
    have hk : (k : ℤ) < n := h.progress_of ht
    exact h.write ht rfl hk
  | store k stored =>
    intro _ p _ h
    have hk : (k : ℤ) < n := h.progress_of ht
    exact h.store ht hk
  | fail k =>
    intro p _ h
    have hk : (k : ℤ) < n := h.progress_of ht
    apply h.return_
    · rw [ht]
      rfl
    · simp [Done.Right, hk]
    · rw [ht]
      rfl
    · rw [ht]
      rfl
  | wakeup1 k =>
    intro p _ h
    have hk : k = n.toNat := h.progress_of ht
    exact h.write ht rfl hk
  | release k =>
    intro p _ h
    have hk : k = n.toNat := h.progress_of ht
    apply h.return_
    · rw [ht]
      rfl
    · simp [Done.Right, hk]
    · rw [ht]
      rfl
    · rw [ht]
      rfl

theorem piperead_keeps {a : ReadPoint} (ht : t.point = .read n a) :
    (piperead i t n a).Keeps (fun _ => True) (Kept calls i) t := by
  cases a with
  | acquire => exact fun p _ h => h.read ht rfl (Nat.zero_le _)
  | empty =>
    intro _ p _ h
    by_cases hempty : p.empty && p.writeopen
    · simp only [hempty, if_true]
      exact h.read ht rfl (Nat.zero_le _)
    · simp only [hempty]
      exact h.read ht rfl (Nat.zero_le _)
  | check =>
    intro killed p _ h
    cases killed with
    | true => exact h.read ht rfl (Nat.zero_le _)
    | false => exact h.read ht rfl (Nat.zero_le _)
  | sleep => exact fun p _ h => h.read ht rfl (Nat.zero_le _)
  | fail =>
    intro p _ h
    apply h.return_
    · rw [ht]
      rfl
    · exact .inr ⟨rfl, rfl⟩
    · rw [ht]
      rfl
    · rw [ht]
      rfl
  | loop bytes =>
    intro _ p _ h
    have hk : bytes.length ≤ n.toNat := h.progress_of ht
    by_cases hmore : bytes.length < n ∧ ¬ p.empty
    · simp only [hmore]
      exact h.read ht rfl hmore.1
    · simp only [hmore, if_false]
      exact h.read ht rfl hk
  | take bytes =>
    intro _ p _ h
    have hk : (bytes.length : ℤ) < n := h.progress_of ht
    exact h.take ht hk
  | wakeup bytes =>
    intro p _ h
    have hk : bytes.length ≤ n.toNat := h.progress_of ht
    exact h.read ht rfl hk
  | release bytes =>
    intro p _ h
    have hk : bytes.length ≤ n.toNat := h.progress_of ht
    apply h.return_
    · rw [ht]
      rfl
    · exact .inl ⟨rfl, hk⟩
    · rw [ht]
      rfl
    · rw [ht]
      rfl

theorem pipeclose_keeps {a : ClosePoint} (ht : t.point = .close writable a) :
    (pipeclose t writable a : Instr Thread (Pipe ι) Chan).Keeps (fun _ => True) (Kept calls i) t := by
  have hgoto : ∀ {p : Pipe ι} (b : ClosePoint), Kept calls i t p →
      Kept calls i (t.goto (.close writable b)) p := by
    intro p b h
    apply h.goto
    · rw [ht]
      rfl
    · trivial
    · rw [ht]
      rfl
    · rw [ht]
      rfl
  have hreturn : ∀ p : Pipe ι, Kept calls i t p → Kept calls i (t.return_ ⟨.close writable, [], 0⟩) p := by
    intro p h
    apply h.return_
    · rw [ht]
      rfl
    · rfl
    · rw [ht]
      rfl
    · rw [ht]
      rfl
  cases a with
  | acquire => exact fun p _ h => hgoto _ h
  | mark =>
    intro _ p _ h
    have hnext := hgoto .wakeup h
    cases writable with
    | true => exact hnext.congr rfl rfl
    | false => exact hnext.congr rfl rfl
  | wakeup => exact fun p _ h => hgoto _ h
  | last => exact fun _ p _ h => hgoto _ h
  | release => exact fun p _ h => hreturn p h
  | unlock => exact fun p _ h => hgoto _ h
  | kfree => exact fun p _ h => hreturn p h

/-- The code of one process leaves the bytes of the others alone. -/
theorem code_spares {j : ι} (hji : j ≠ i) (l : Thread) : (code i t).Spares (fun p => True ∧ Kept calls i t p) (Kept calls j l) := by
  unfold code
  cases t.point with
  | idle => cases t.calls <;> trivial
  | write addr n a =>
    cases a with
    | loop k stored => exact fun _ p _ h => h
    | full k stored => exact fun _ p _ h => h
    | check k stored =>
      intro killed p _ h
      by_cases hgive : !p.readopen || killed
      · simp only [hgive, if_true]
        exact h.congr rfl rfl
      · simp only [hgive]
        exact h
    | store k stored => exact fun _ p _ h => h.congr (bytesOf_append_of_ne hji _ _) rfl
    | _ => trivial
  | read n a =>
    cases a with
    | empty => exact fun _ p _ h => h
    | check => exact fun _ p _ h => h
    | loop bytes => exact fun _ p _ h => h
    | take bytes => exact fun _ p _ h => h.congr rfl (bytesOf_append_of_ne hji _ _)
    | _ => trivial
  | close writable a =>
    cases a with
    | mark =>
      intro _ p _ h
      cases writable with
      | true => exact h.congr rfl rfl
      | false => exact h.congr rfl rfl
    | last => exact fun _ p _ h => h
    | _ => trivial

theorem code_keeps : (code i t).Keeps (fun _ => True) (Kept calls i) t := by
  unfold code
  cases hpoint : t.point with
  | idle =>
    cases hcalls : t.calls with
    | nil => trivial
    | cons call rest =>
      intro p _ h
      have hscript := h.script
      have hput := h.put
      have hgot := h.got
      rw [hpoint, hcalls] at hscript
      rw [Thread.stored, hpoint] at hput
      rw [Thread.taken, hpoint] at hgot
      cases call with
      | write addr n => exact ⟨by simpa [Call.entry, Point.call] using hscript, h.right, trivial, hput, hgot⟩
      | read n => exact ⟨by simpa [Call.entry, Point.call] using hscript, h.right, Nat.zero_le _, hput, hgot⟩
      | close writable =>
        exact ⟨by simpa [Call.entry, Point.call] using hscript, h.right, trivial, hput, hgot⟩
  | write addr n a => exact pipewrite_keeps hpoint
  | read n a => exact piperead_keeps hpoint
  | close writable a => exact pipeclose_keeps hpoint

theorem kept_run {data : ℕ → UInt8} {es : List (Event ι Chan)} {w : World ι Thread (Pipe ι) Chan}
    (hrun : Trace.run (step code) (init data calls) es = some w) (i : ι) : Kept calls i (w.pc i) w.shared := by
  have hkept : KeptBy code (fun _ => True) (Kept calls) :=
    ⟨fun _ _ => code_keeps, fun _ _ _ l hji => code_spares hji l⟩
  have hinit : ∀ j, Kept calls j ((init data calls).pc j) (init data calls).shared :=
    fun j => ⟨rfl, fun d hd => absurd hd List.not_mem_nil, trivial, rfl, rfl⟩
  exact hkept.run code_ok (fun _ _ => trivial) (fun _ _ _ => trivial) (inv_init data calls) hinit hrun i

/-- The pipe is a queue.  The bytes that all readers have taken, in the order in which they took them, are a
first part of those that all writers have stored; the counters, which wrap around, differ by the number of
bytes in between, at most `PIPESIZE`.  What a process has stored are the bytes of its writes, call by call and
none twice, and what it has taken are the bytes that its reads return. -/
theorem pipe_fifo (data : ℕ → UInt8) (calls : ι → List Call) (es : List (Event ι Chan))
    {w : World ι Thread (Pipe ι) Chan} (hrun : Trace.run (step code) (init data calls) es = some w) :
    w.shared.got.map Prod.snd <+: w.shared.put.map Prod.snd ∧
    (w.shared.nwrite - w.shared.nread).toNat = w.shared.put.length - w.shared.got.length ∧
    w.shared.put.length ≤ w.shared.got.length + PIPESIZE ∧
    ∀ i, bytesOf i w.shared.put = (w.pc i).stored ∧ bytesOf i w.shared.got = (w.pc i).taken ∧
      (w.pc i).done.map Done.call ++ (w.pc i).point.call ++ (w.pc i).calls = calls i ∧
      ∀ d ∈ (w.pc i).done, d.Right := by
  have hordered : w.shared.Ordered := (inv_run hrun).always (fun _ hp => hp) fun _ _ hp => hp.1
  refine ⟨?_, hordered.sub_toNat, hordered.le_room, fun i => ?_⟩
  · rw [hordered.taken]
    exact List.take_prefix _ _
  · have hkept := kept_run hrun i
    exact ⟨hkept.put, hkept.got, hkept.script, hkept.right⟩

/-- Two bytes are written and one of them is read. -/
theorem pipe_fifo_of_two : ∃ w : World Bool Thread (Pipe Bool) Chan,
    Trace.run (step code)
      (init (fun _ => 0) fun i => if i then [.write (fun k => if k = 0 then 7 else 8) 2] else [.read 1])
      (List.replicate 13 (.step true) ++ List.replicate 10 (.step false)) = some w ∧
    w.shared.got.map Prod.snd <+: w.shared.put.map Prod.snd ∧ w.shared.put.map Prod.snd = [7, 8] ∧
    (w.pc false).taken = [7] :=
  ⟨_, rfl, (pipe_fifo (fun _ => 0) (fun i => if i then [.write (fun k => if k = 0 then 7 else 8) 2] else [.read 1])
    (List.replicate 13 (.step true) ++ List.replicate 10 (.step false)) rfl).1, rfl, rfl⟩

end SystemsProjects.Xv6.Pipes
