import Mathlib.Algebra.GroupWithZero.Nat
import Mathlib.Data.Fintype.Card
import SystemsProjects.Lib.Chain
import SystemsProjects.Lib.Monitor

/-!
# The buffer cache

`bget`, `bread`, `bwrite` and `brelse` of `kernel/bio.c`, as code of any number of processes that read and
update disk blocks.  What `iderw` does to a buffer and the disk is one step here.

The fields `owner`, `stamp`, `clock` and `log` are a history for the proofs: who has a buffer, when it was
released last, and which updates have reached the disk.
-/

namespace SystemsProjects.Xv6.Bio

open Monitor

def NBUF : ℕ := 10

instance : NeZero NBUF := ⟨Nat.succ_ne_zero _⟩

abbrev Buf := Fin NBUF

/-- A pointer in the list: to a buffer, or to `bcache.head`. -/
abbrev Ref := Option Buf

abbrev Word := BitVec 32

/-- A disk block: the device and the sector. -/
abbrev Addr := Word × Word

/-- The device of a buffer that has never been used. -/
def NODEV : Word := -1

/-- `bcache` with its buffers, and the disk.  `β` is the type of what a block holds. -/
structure Bcache (ι β : Type*) where
  next : Ref → Ref
  prev : Ref → Ref
  addr : Buf → Addr
  busy : Buf → Bool
  valid : Buf → Bool
  dirty : Buf → Bool
  data : Buf → β
  disk : Addr → β
  havedisk1 : Bool
  owner : Buf → Option ι
  stamp : Buf → ℕ
  clock : ℕ
  log : List (Addr × (β → β))

namespace Bcache

variable {ι β : Type*} (p : Bcache ι β)

/-- The first loop of `bget`. -/
def cached (a : Addr) : Option (Option Ref) :=
  Chain.findFrom p.next none (fun r => r.any fun b => p.addr b = a) (NBUF + 1) (p.next none)

/-- The second loop of `bget`. -/
def unused : Option (Option Ref) :=
  Chain.findFrom p.prev none (fun r => r.any fun b => !p.busy b) (NBUF + 1) (p.prev none)

/-- `b->flags |= B_BUSY` -/
def hold (i : ι) (b : Buf) : Bcache ι β :=
  { p with busy := Function.update p.busy b true, owner := Function.update p.owner b (some i) }

/-- `b->dev = dev; b->sector = sector; b->flags = B_BUSY` -/
def recycle (i : ι) (b : Buf) (a : Addr) : Bcache ι β :=
  { p with
    addr := Function.update p.addr b a
    busy := Function.update p.busy b true
    valid := Function.update p.valid b false
    dirty := Function.update p.dirty b false
    owner := Function.update p.owner b (some i) }

/-- The list and the flags in `brelse`. -/
def release (b : Buf) : Bcache ι β :=
  let q := Chain.push none (some b) (Chain.unlink (some b) (p.next, p.prev))
  { p with
    next := q.1
    prev := q.2
    busy := Function.update p.busy b false
    owner := Function.update p.owner b none
    stamp := Function.update p.stamp b (p.clock + 1)
    clock := p.clock + 1 }

/-- `iderw`, from its call to its return; `none` is a panic. -/
def iderw (b : Buf) : Option (Bcache ι β) :=
  if !p.busy b then none
  else if p.valid b && !p.dirty b then none
  else if (p.addr b).1 ≠ 0 ∧ !p.havedisk1 then none
  else if p.dirty b then
    some { p with
      disk := Function.update p.disk (p.addr b) (p.data b)
      dirty := Function.update p.dirty b false
      valid := Function.update p.valid b true }
  else
    some { p with
      data := Function.update p.data b (p.disk (p.addr b))
      valid := Function.update p.valid b true }

end Bcache

/-- One round of `binit`. -/
def binitStep (q : (Ref → Ref) × (Ref → Ref)) (b : Buf) : (Ref → Ref) × (Ref → Ref) := Chain.push none (some b) q

/-- The cache after `binit`. -/
def Bcache.init {ι β : Type*} (data : Buf → β) (disk : Addr → β) (havedisk1 : Bool) : Bcache ι β :=
  let q := (List.finRange NBUF).foldl binitStep (fun _ => none, fun _ => none)
  { next := q.1
    prev := q.2
    addr := fun _ => (NODEV, 0)
    busy := fun _ => false
    valid := fun _ => false
    dirty := fun _ => false
    data := data
    disk := disk
    havedisk1 := havedisk1
    owner := fun _ => none
    stamp := fun _ => 0
    clock := 0
    log := [] }

/-! ## The code -/

/-- What a process does next: it reads a block, changes the contents of one of the buffers that it has and
writes it, or releases one of them. -/
inductive Action (β : Type*) where
  | read (a : Addr)
  | update (k : ℕ) (f : β → β)
  | release (k : ℕ)

inductive Point (β : Type*) where
  | idle
  /-- `acquire` in `bget` -/
  | bget (a : Addr)
  /-- The two loops of `bget`. -/
  | loop (a : Addr)
  | sleep (a : Addr) (b : Buf)
  | unlock (a : Addr) (b : Buf)
  | noBuffers
  /-- `b->flags & B_VALID` in `bread` -/
  | bread (a : Addr) (b : Buf)
  /-- `iderw` in `bread` -/
  | fill (a : Addr) (b : Buf)
  | return_ (a : Addr) (b : Buf)
  /-- The caller changes the contents. -/
  | edit (b : Buf) (f : β → β)
  /-- The test and the assignment in `bwrite` -/
  | bwrite (b : Buf) (f : β → β)
  /-- `iderw` in `bwrite` -/
  | flush (b : Buf) (f : β → β)
  /-- The test in `brelse` -/
  | brelse (b : Buf)
  | acquire (b : Buf)
  | list (b : Buf)
  | wakeup (b : Buf)
  | release
  | panic
  /-- A loop that has not ended. -/
  | lost

/-- A process: its actions to come, the buffers that it has, what it has read (and how many updates had
reached the disk then), and where it is. -/
structure Thread (β : Type*) where
  script : List (Action β)
  held : List Buf
  seen : List (Addr × β × ℕ)
  point : Point β

def Thread.goto {β : Type*} (t : Thread β) (k : Point β) : Thread β := { t with point := k }

variable {ι β : Type*}

/-- The search in `bget`. -/
def bgetLoop (me : ι) (t : Thread β) (a : Addr) (p : Bcache ι β) : Bcache ι β × Thread β :=
  match p.cached a with
  | some (some (some b)) => if !p.busy b then (p.hold me b, t.goto (.unlock a b)) else (p, t.goto (.sleep a b))
  | some none =>
    match p.unused with
    | some (some (some b)) => (p.recycle me b a, t.goto (.unlock a b))
    | some none => (p, t.goto .noBuffers)
    | _ => (p, t.goto .lost)
  | _ => (p, t.goto .lost)

/-- The code of the process `me`. -/
def code (me : ι) (t : Thread β) : Instr (Thread β) (Bcache ι β) Buf :=
  match t.point with
  | .idle =>
    match t.script with
    | [] => .stop
    | .read a :: rest => .jump { t with script := rest, point := .bget a }
    | .update k f :: rest =>
      match t.held[k]? with
      | some b => .jump { t with script := rest, point := .edit b f }
      | none => .jump { t with script := rest }
    | .release k :: rest =>
      match t.held[k]? with
      | some b => .jump { t with script := rest, point := .brelse b }
      | none => .jump { t with script := rest }
  | .bget a => .acquire (t.goto (.loop a))
  | .loop a => .access fun _ p => bgetLoop me t a p
  | .sleep a b => .sleep b (t.goto (.loop a))
  | .unlock a b => .release (t.goto (.bread a b))
  | .noBuffers => .stop
  | .bread a b => .touch fun p => (p, t.goto (if !p.valid b then .fill a b else .return_ a b))
  | .fill a b => .touch fun p =>
    match p.iderw b with
    | some p' => (p', t.goto (.return_ a b))
    | none => (p, t.goto .panic)
  | .return_ a b => .touch fun p =>
    (p, { t with held := b :: t.held, seen := t.seen ++ [(a, p.data b, p.log.length)], point := .idle })
  | .edit b f => .touch fun p =>
    ({ p with data := Function.update p.data b (f (p.data b)) }, t.goto (.bwrite b f))
  | .bwrite b f => .touch fun p =>
    if !p.busy b then (p, t.goto .panic)
    else ({ p with dirty := Function.update p.dirty b true }, t.goto (.flush b f))
  | .flush b f => .touch fun p =>
    match p.iderw b with
    | some p' => ({ p' with log := p.log ++ [(p.addr b, f)] }, t.goto .idle)
    | none => (p, t.goto .panic)
  | .brelse b => .touch fun p => (p, t.goto (if !p.busy b then .panic else .acquire b))
  | .acquire b => .acquire (t.goto (.list b))
  | .list b => .access fun _ p => (p.release b, { t with held := t.held.erase b, point := .wakeup b })
  | .wakeup b => .wakeup b (t.goto .release)
  | .release => .release (t.goto .idle)
  | .panic => .stop
  | .lost => .stop

/-- The processes before their first action. -/
def init (data : Buf → β) (disk : Addr → β) (havedisk1 : Bool) (script : ι → List (Action β)) :
    World ι (Thread β) (Bcache ι β) Buf where
  lk := none
  table := none
  shared := Bcache.init data disk havedisk1
  pc := fun i => ⟨script i, [], [], .idle⟩
  phase := fun _ => .running
  killed := fun _ => false

/-! ## The list and the flags -/

def Point.Inside : Point β → Prop
  | .loop _ => True
  | .sleep _ _ => True
  | .unlock _ _ => True
  | .noBuffers => True
  | .list _ => True
  | .wakeup _ => True
  | .release => True
  | .lost => True
  | _ => False

/-- `l` are the buffers from the one that was released last on. -/
structure Bcache.Order (p : Bcache ι β) (l : List Buf) : Prop where
  linked : Chain.Linked p.next p.prev none (l.map some)
  all : ∀ b, b ∈ l
  recent : l.Pairwise fun a b => p.stamp b ≤ p.stamp a
  clock : ∀ b, p.stamp b ≤ p.clock

/-- What holds of the cache when its lock is free. -/
structure Bcache.Ok (p : Bcache ι β) : Prop where
  order : ∃ l, p.Order l
  /-- No block is cached twice. -/
  unique : ∀ b b', (p.addr b).1 ≠ NODEV → p.addr b = p.addr b' → b = b'
  busy : ∀ b, p.busy b = (p.owner b).isSome

/-- The two differ at most in what the buffers and the disk hold. -/
structure Bcache.Same (p q : Bcache ι β) : Prop where
  next : q.next = p.next
  prev : q.prev = p.prev
  addr : q.addr = p.addr
  busy : q.busy = p.busy
  owner : q.owner = p.owner
  stamp : q.stamp = p.stamp
  clock : q.clock = p.clock
  havedisk1 : q.havedisk1 = p.havedisk1

/-- What the search in `bget` has found. -/
def Point.Found (p : Bcache ι β) : Point β → Prop
  | .sleep _ b => p.busy b
  | .noBuffers => ∀ b, p.busy b
  | .lost => False
  | _ => True

def outline : Outline (Thread β) (Bcache ι β) Buf where
  inside t := t.point.Inside
  holds t p := p.Ok ∧ t.point.Found p
  free p := p.Ok
  waits b p := p.busy b
  owes t b := t.point = .wakeup b

namespace Bcache

variable {p q : Bcache ι β} {l : List Buf} {b : Buf} {a : Addr} {i : ι}

theorem Order.nodup (h : p.Order l) : l.Nodup :=
  List.Nodup.of_map some (List.nodup_cons.1 h.linked.nodup).2

theorem Order.length (h : p.Order l) : l.length = NBUF := by
  have hfinset : l.toFinset = Finset.univ := Finset.eq_univ_iff_forall.2 fun b => List.mem_toFinset.2 (h.all b)
  rw [← List.toFinset_card_of_nodup h.nodup, hfinset, Finset.card_univ, Fintype.card_fin]

theorem Order.cached_eq (h : p.Order l) (a : Addr) :
    p.cached a = some ((l.find? fun b => p.addr b = a).map some) := by
  have hfind := h.linked.findFrom fun r => r.any fun b => p.addr b = a
  rw [List.length_map, h.length] at hfind
  rw [cached, hfind, List.find?_map]
  rfl

theorem Order.unused_eq (h : p.Order l) : p.unused = some ((l.reverse.find? fun b => !p.busy b).map some) := by
  have hfind := h.linked.reverse.findFrom fun r => r.any fun b => !p.busy b
  rw [List.length_reverse, List.length_map, h.length] at hfind
  rw [unused, hfind, ← List.map_reverse, List.find?_map]
  rfl

/-- The buffer comes to the front of the list. -/
theorem Order.release (h : p.Order l) (b : Buf) : (p.release b).Order (b :: l.erase b) := by
  obtain ⟨xs, ys, rfl, hxs⟩ := List.eq_append_cons_of_mem (h.all b)
  have herase : (xs ++ b :: ys).erase b = xs ++ ys := by
    rw [List.erase_append_right _ hxs, List.erase_cons_head]
  have hlinked := h.linked
  rw [List.map_append, List.map_cons] at hlinked
  have hnodup := h.nodup
  have hb : b ∉ xs ++ ys := by
    rw [← herase]
    exact h.nodup.not_mem_erase
  have hstamp : ∀ c, c ≠ b → (p.release b).stamp c = p.stamp c := fun c hc => Function.update_of_ne hc _ _
  have hself : (p.release b).stamp b = p.clock + 1 := Function.update_self ..
  rw [herase]
  refine ⟨?_, fun c => ?_, ?_, fun c => ?_⟩
  · have hpush := hlinked.unlink.push (b := some b) (by simpa using hb)
    simpa [Bcache.release] using hpush
  · have hc := h.all c
    simp only [List.mem_append, List.mem_cons] at hc ⊢
    tauto
  · refine List.pairwise_cons.2 ⟨fun c hc => ?_, ?_⟩
    · rw [hself, hstamp c fun heq => hb (heq ▸ hc)]
      exact (h.clock c).trans (Nat.le_succ _)
    · have hrecent := h.recent.sublist (List.Sublist.append_left (List.sublist_cons_self b ys) xs)
      refine hrecent.imp_of_mem fun {c d} hc hd hle => ?_
      rw [hstamp c fun heq => hb (heq ▸ hc), hstamp d fun heq => hb (heq ▸ hd)]
      exact hle
  · by_cases hc : c = b
    · rw [hc, hself]
      exact Nat.le_refl _
    · rw [hstamp c hc]
      exact (h.clock c).trans (Nat.le_succ _)

theorem Same.refl (p : Bcache ι β) : p.Same p := ⟨rfl, rfl, rfl, rfl, rfl, rfl, rfl, rfl⟩

/-- What is done to the contents and to the disk does not concern the list. -/
theorem Ok.congr (h : p.Ok) (hsame : p.Same q) : q.Ok := by
  obtain ⟨l, hl⟩ := h.order
  refine ⟨⟨l, ?_, hl.all, ?_, ?_⟩, ?_, ?_⟩
  · rw [hsame.next, hsame.prev]
    exact hl.linked
  · rw [hsame.stamp]
    exact hl.recent
  · rw [hsame.stamp, hsame.clock]
    exact hl.clock
  · rw [hsame.addr]
    exact h.unique
  · rw [hsame.busy, hsame.owner]
    exact h.busy

theorem same_of_iderw (h : p.iderw b = some q) : p.Same q ∧ q.log = p.log := by
  unfold Bcache.iderw at h
  split_ifs at h <;> obtain rfl := Option.some.inj h <;>
    exact ⟨⟨rfl, rfl, rfl, rfl, rfl, rfl, rfl, rfl⟩, rfl⟩

theorem Ok.hold (h : p.Ok) (i : ι) (b : Buf) : (p.hold i b).Ok := by
  obtain ⟨l, hl⟩ := h.order
  refine ⟨⟨l, hl.linked, hl.all, hl.recent, hl.clock⟩, h.unique, fun c => ?_⟩
  by_cases hc : c = b
  · rw [hc]
    simp [Bcache.hold]
  · simp [Bcache.hold, hc, h.busy c]

theorem Ok.recycle (h : p.Ok) (i : ι) (b : Buf) (hnone : ∀ c, p.addr c ≠ a) : (p.recycle i b a).Ok := by
  obtain ⟨l, hl⟩ := h.order
  refine ⟨⟨l, hl.linked, hl.all, hl.recent, hl.clock⟩, fun c d hc hcd => ?_, fun c => ?_⟩
  · simp only [Bcache.recycle] at hc hcd
    by_cases hcb : c = b <;> by_cases hdb : d = b
    · rw [hcb, hdb]
    · rw [hcb, Function.update_self, Function.update_of_ne hdb] at hcd
      exact absurd hcd.symm (hnone d)
    · rw [hdb, Function.update_self, Function.update_of_ne hcb] at hcd
      exact absurd hcd (hnone c)
    · rw [Function.update_of_ne hcb] at hc hcd
      rw [Function.update_of_ne hdb] at hcd
      exact h.unique c d hc hcd
  · by_cases hc : c = b
    · rw [hc]
      simp [Bcache.recycle]
    · simp [Bcache.recycle, hc, h.busy c]

theorem Ok.release (h : p.Ok) (b : Buf) : (p.release b).Ok := by
  obtain ⟨l, hl⟩ := h.order
  refine ⟨⟨_, hl.release b⟩, h.unique, fun c => ?_⟩
  by_cases hc : c = b
  · rw [hc]
    simp [Bcache.release]
  · simp [Bcache.release, hc, h.busy c]

theorem linked_foldl_binitStep (l : List Buf) (hl : l.Nodup) (done : List Buf)
    (q : (Ref → Ref) × (Ref → Ref)) (hq : Chain.Linked q.1 q.2 none (done.map some))
    (hdone : ∀ b ∈ l, b ∉ done) :
    Chain.Linked (l.foldl binitStep q).1 (l.foldl binitStep q).2 none ((l.reverse ++ done).map some) := by
  induction l generalizing done q with
  | nil => exact hq
  | cons b l ih =>
    obtain ⟨hb, hl'⟩ := List.nodup_cons.1 hl
    have hpush := hq.push (b := some b) (by simpa using hdone b List.mem_cons_self)
    have hrest := ih hl' (b :: done) (binitStep q b) hpush fun c hc hmem => by
      rcases List.mem_cons.1 hmem with heq | hmem'
      · exact hb (heq ▸ hc)
      · exact hdone c (List.mem_cons_of_mem _ hc) hmem'
    simpa using hrest

theorem Ok.init (data : Buf → β) (disk : Addr → β) (havedisk1 : Bool) :
    (Bcache.init data disk havedisk1 : Bcache ι β).Ok := by
  have hlinked := linked_foldl_binitStep (List.finRange NBUF) (List.nodup_finRange NBUF) []
    (fun _ => none, fun _ => none) (Chain.linked_nil rfl rfl) fun _ _ => List.not_mem_nil
  refine ⟨⟨(List.finRange NBUF).reverse, ?_, fun b => ?_, ?_, fun b => Nat.le_refl _⟩, fun b c hb => ?_, fun b => rfl⟩
  · simpa [Bcache.init] using hlinked
  · simp
  · exact List.pairwise_of_forall fun _ _ => Nat.le_refl _
  · exact absurd rfl hb

end Bcache

/-! ## The code follows the outline -/

section Outline

variable {p : Bcache ι β} {a : Addr} {b : Buf} {t : Thread β}

/-- What the search in `bget` can find. -/
theorem Bcache.Ok.bgetLoop_cases (h : p.Ok) (me : ι) (t : Thread β) (a : Addr) :
    (∃ b, p.addr b = a ∧ p.busy b = false ∧ bgetLoop me t a p = (p.hold me b, t.goto (.unlock a b))) ∨
    (∃ b, p.addr b = a ∧ p.busy b = true ∧ bgetLoop me t a p = (p, t.goto (.sleep a b))) ∨
    (∃ b, (∀ c, p.addr c ≠ a) ∧ p.busy b = false ∧
      bgetLoop me t a p = (p.recycle me b a, t.goto (.unlock a b))) ∨
    (∀ c, p.addr c ≠ a) ∧ (∀ c, p.busy c = true) ∧ bgetLoop me t a p = (p, t.goto .noBuffers) := by
  obtain ⟨l, hl⟩ := h.order
  unfold bgetLoop
  rw [hl.cached_eq a]
  cases hfind : l.find? fun b => p.addr b = a with
  | some b =>
    have haddr : p.addr b = a := by simpa using List.find?_some hfind
    cases hbusy : p.busy b with
    | false => exact .inl ⟨b, haddr, hbusy, by simp [hbusy]⟩
    | true => exact .inr (.inl ⟨b, haddr, hbusy, by simp [hbusy]⟩)
  | none =>
    have hnone : ∀ c, p.addr c ≠ a := fun c => by simpa using List.find?_eq_none.1 hfind c (hl.all c)
    rw [hl.unused_eq]
    cases hfind' : l.reverse.find? fun b => !p.busy b with
    | some b => exact .inr (.inr (.inl ⟨b, hnone, by simpa using List.find?_some hfind', rfl⟩))
    | none =>
      refine .inr (.inr (.inr ⟨hnone, fun c => ?_, rfl⟩))
      simpa using List.find?_eq_none.1 hfind' c (List.mem_reverse.2 (hl.all c))

theorem Point.Found.congr {q : Bcache ι β} {k : Point β} (h : k.Found p) (hbusy : q.busy = p.busy) : k.Found q := by
  cases k with
  | sleep a b => exact (congrFun hbusy b).trans h
  | noBuffers => exact fun b => (congrFun hbusy b).trans (h b)
  | _ => exact h

theorem outline_ok_touch {f : Bcache ι β → Bcache ι β × Thread β} (hout : ¬ t.point.Inside)
    (h : ∀ p, ¬ (f p).2.point.Inside ∧ p.Same (f p).1) :
    outline.Ok t (.touch f : Instr (Thread β) (Bcache ι β) Buf) := by
  refine ⟨hout, fun p => ⟨(h p).1, fun hok => hok.congr (h p).2, fun l hl => ?_, fun c hc => ?_⟩⟩
  · exact ⟨hl.1.congr (h p).2, hl.2.congr (h p).2.busy⟩
  · exact (congrFun (h p).2.busy c).trans hc

theorem loop_ok (me : ι) (ht : t.point = .loop a) :
    outline.Ok t (.access fun _ p => bgetLoop me t a p : Instr (Thread β) (Bcache ι β) Buf) := by
  have hin : t.point.Inside := by rw [ht]; trivial
  have howes : ∀ c, t.point ≠ .wakeup c := fun c => by simp [ht]
  refine ⟨hin, fun _ p hp => ?_⟩
  rcases hp.1.bgetLoop_cases me t a with ⟨b, -, hfree, heq⟩ | ⟨b, -, hbusy, heq⟩ | ⟨b, hnone, hfree, heq⟩ |
    ⟨-, hall, heq⟩
  · simp only [heq]
    refine ⟨trivial, ⟨hp.1.hold me b, trivial⟩, fun c hc => .inr ?_⟩
    have hc' : p.busy c = true := hc.resolve_left (howes c)
    have hcb : c ≠ b := fun heq => by simp [heq, hfree] at hc'
    exact (Function.update_of_ne hcb _ _).trans hc'
  · simp only [heq]
    exact ⟨trivial, ⟨hp.1, hbusy⟩, fun c hc => .inr (hc.resolve_left (howes c))⟩
  · simp only [heq]
    refine ⟨trivial, ⟨hp.1.recycle me b hnone, trivial⟩, fun c hc => .inr ?_⟩
    have hc' : p.busy c = true := hc.resolve_left (howes c)
    have hcb : c ≠ b := fun heq => by simp [heq, hfree] at hc'
    exact (Function.update_of_ne hcb _ _).trans hc'
  · simp only [heq]
    exact ⟨trivial, ⟨hp.1, hall⟩, fun c hc => .inr (hc.resolve_left (howes c))⟩

theorem code_ok (me : ι) (t : Thread β) : outline.Ok t (code me t : Instr (Thread β) (Bcache ι β) Buf) := by
  unfold code
  have hin : ∀ {k : Point β}, t.point = k → k.Inside → t.point.Inside := fun heq h => heq ▸ h
  have hout : ∀ {k : Point β}, t.point = k → ¬ k.Inside → ¬ t.point.Inside := fun heq h => heq ▸ h
  cases ht : t.point with
  | idle =>
    have hidle : ¬ t.point.Inside := hout ht id
    cases t.script with
    | nil => trivial
    | cons action rest =>
      cases action with
      | read a => exact ⟨hidle, id⟩
      | update k f =>
        dsimp only
        cases t.held[k]? with
        | none => exact ⟨hidle, id⟩
        | some b => exact ⟨hidle, id⟩
      | release k =>
        dsimp only
        cases t.held[k]? with
        | none => exact ⟨hidle, id⟩
        | some b => exact ⟨hidle, id⟩
  | bget a => exact ⟨hout ht id, trivial, fun p hp => ⟨hp, trivial⟩⟩
  | loop a => exact loop_ok me ht
  | sleep a b =>
    refine ⟨hin ht trivial, trivial, fun p hp => ⟨hp, trivial⟩, fun p hp => ⟨hp.1, ?_, fun c hc => ?_⟩⟩
    · have hfound := hp.2
      rwa [ht] at hfound
    · exact absurd hc (by simp [outline, ht])
  | unlock a b =>
    refine ⟨hin ht trivial, id, fun p hp => ⟨hp.1, fun c hc => ?_⟩⟩
    exact absurd hc (by simp [outline, ht])
  | noBuffers => trivial
  | bread a b =>
    apply outline_ok_touch
    · exact hout ht id
    · intro p
      refine ⟨?_, .refl p⟩
      cases hvalid : p.valid b <;> simp [Thread.goto, Point.Inside]
  | fill a b =>
    apply outline_ok_touch
    · exact hout ht id
    · intro p
      cases hq : p.iderw b with
      | none => exact ⟨id, .refl p⟩
      | some q => exact ⟨id, (Bcache.same_of_iderw hq).1⟩
  | return_ a b =>
    apply outline_ok_touch
    · exact hout ht id
    · exact fun p => ⟨id, .refl p⟩
  | edit b f =>
    apply outline_ok_touch
    · exact hout ht id
    · exact fun p => ⟨id, rfl, rfl, rfl, rfl, rfl, rfl, rfl, rfl⟩
  | bwrite b f =>
    apply outline_ok_touch
    · exact hout ht id
    · intro p
      cases hbusy : p.busy b with
      | true => exact ⟨id, rfl, rfl, rfl, rfl, rfl, rfl, rfl, rfl⟩
      | false => exact ⟨id, .refl p⟩
  | flush b f =>
    apply outline_ok_touch
    · exact hout ht id
    · intro p
      cases hq : p.iderw b with
      | none => exact ⟨id, .refl p⟩
      | some q =>
        have hsame := (Bcache.same_of_iderw hq).1
        exact ⟨id, hsame.next, hsame.prev, hsame.addr, hsame.busy, hsame.owner, hsame.stamp, hsame.clock,
          hsame.havedisk1⟩
  | brelse b =>
    apply outline_ok_touch
    · exact hout ht id
    · intro p
      refine ⟨?_, .refl p⟩
      cases hbusy : p.busy b <;> simp [Thread.goto, Point.Inside]
  | acquire b => exact ⟨hout ht id, trivial, fun p hp => ⟨hp, trivial⟩⟩
  | list b =>
    refine ⟨hin ht trivial, fun _ p hp => ⟨trivial, ⟨hp.1.release b, trivial⟩, fun c hc => ?_⟩⟩
    by_cases hcb : c = b
    · exact .inl (by rw [hcb]; rfl)
    · right
      have hc' : p.busy c = true := by
        refine hc.resolve_left fun howes => ?_
        exact absurd howes (by simp [outline, ht])
      exact (Function.update_of_ne hcb _ _).trans hc'
  | wakeup b =>
    refine ⟨hin ht trivial, trivial, fun p hp => ⟨hp.1, trivial⟩, fun c hcb hc => ?_⟩
    have heq : Point.wakeup b = Point.wakeup c := ht.symm.trans hc
    exact absurd (Point.wakeup.inj heq).symm hcb
  | release =>
    refine ⟨hin ht trivial, id, fun p hp => ⟨hp.1, fun c hc => ?_⟩⟩
    exact absurd hc (by simp [outline, ht])
  | panic => trivial
  | lost => trivial

end Outline

/-! ## Runs -/

section Runs

variable [DecidableEq ι] {data : Buf → β} {disk₀ : Addr → β} {havedisk1 : Bool} {script : ι → List (Action β)}
  {es : List (Event ι Buf)} {w : World ι (Thread β) (Bcache ι β) Buf}

omit [DecidableEq ι] in
theorem inv_init (data : Buf → β) (disk₀ : Addr → β) (havedisk1 : Bool) (script : ι → List (Action β)) :
    outline.Inv (init data disk₀ havedisk1 script) :=
  Outline.Inv.initial rfl rfl (fun _ => rfl) (fun _ => id) (Bcache.Ok.init data disk₀ havedisk1)

theorem inv_run (hrun : Trace.run (step code) (init data disk₀ havedisk1 script) es = some w) : outline.Inv w :=
  (inv_init data disk₀ havedisk1 script).run code_ok hrun

theorem ok_run (hrun : Trace.run (step code) (init data disk₀ havedisk1 script) es = some w) : w.shared.Ok :=
  (inv_run hrun).always (fun _ hp => hp) fun _ _ hp => hp.1

end Runs

/-- The buffer that is found is not in use, and none that is not in use was released before it. -/
theorem Bcache.Ok.unused_iff {p : Bcache ι β} (h : p.Ok) :
    (p.unused = some none ∧ ∀ b, p.busy b = true) ∨
    ∃ b, p.unused = some (some (some b)) ∧ p.busy b = false ∧ ∀ c, p.busy c = false → p.stamp b ≤ p.stamp c := by
  obtain ⟨l, hl⟩ := h.order
  rw [hl.unused_eq]
  cases hfind : l.reverse.find? fun b => !p.busy b with
  | none =>
    refine .inl ⟨rfl, fun b => ?_⟩
    simpa using List.find?_eq_none.1 hfind b (List.mem_reverse.2 (hl.all b))
  | some b =>
    obtain ⟨hbusy, before, after, hsplit, hbefore⟩ := List.find?_eq_some_iff_append.1 hfind
    refine .inr ⟨b, rfl, by simpa using hbusy, fun c hc => ?_⟩
    have hmem : c ∈ before ++ b :: after := hsplit ▸ List.mem_reverse.2 (hl.all c)
    have hrecent : (before ++ b :: after).Pairwise fun a b => p.stamp a ≤ p.stamp b := by
      rw [← hsplit]
      exact List.pairwise_reverse.2 hl.recent
    rcases List.mem_append.1 hmem with hleft | hright
    · have hused := hbefore c hleft
      simp [hc] at hused
    · rcases List.mem_cons.1 hright with heq | hafter
      · exact heq ▸ Nat.le_refl _
      · exact (List.pairwise_cons.1 (List.pairwise_append.1 hrecent).2.1).1 c hafter

/-- Over every run the two searches of `bget` end within one round of the list.  The first finds the buffer of a
block if there is one.  The second finds, among the buffers that are not in use, one whose `brelse` is longest
ago, and none only if all are in use. -/
theorem bget_searches [DecidableEq ι] (data : Buf → β) (disk₀ : Addr → β) (havedisk1 : Bool)
    (script : ι → List (Action β)) (es : List (Event ι Buf)) {w : World ι (Thread β) (Bcache ι β) Buf}
    (hrun : Trace.run (step code) (init data disk₀ havedisk1 script) es = some w) (a : Addr) :
    (w.shared.cached a = some none ∧ (∀ b, w.shared.addr b ≠ a) ∨
      ∃ b, w.shared.cached a = some (some (some b)) ∧ w.shared.addr b = a) ∧
    (w.shared.unused = some none ∧ (∀ b, w.shared.busy b = true) ∨
      ∃ b, w.shared.unused = some (some (some b)) ∧ w.shared.busy b = false ∧
        ∀ c, w.shared.busy c = false → w.shared.stamp b ≤ w.shared.stamp c) := by
  have hok := ok_run hrun
  refine ⟨?_, hok.unused_iff⟩
  obtain ⟨l, hl⟩ := hok.order
  rw [hl.cached_eq a]
  cases hfind : l.find? fun b => w.shared.addr b = a with
  | none => exact .inl ⟨rfl, fun b => by simpa using List.find?_eq_none.1 hfind b (hl.all b)⟩
  | some b => exact .inr ⟨b, rfl, by simpa using List.find?_some hfind⟩

/-- Two processes read the same block, and one of them updates it. -/
def twoReaders : Bool → List (Action ℕ)
  | true => [.read (1, 5), .update 0 (· + 1), .release 0]
  | false => [.read (1, 5), .release 0]

/-- The first process has updated the block, and the second one sleeps on its buffer. -/
def readAndSleep : List (Event Bool Buf) := List.replicate 11 (.step true) ++ List.replicate 7 (.step false)

set_option maxRecDepth 4000 in
theorem bget_searches_readAndSleep : ∃ w : World Bool (Thread ℕ) (Bcache Bool ℕ) Buf,
    Trace.run (step code) (init (fun _ => 0) (fun _ => 7) true twoReaders) readAndSleep = some w ∧
    ∃ b, w.shared.unused = some (some (some b)) ∧ w.shared.busy b = false := by
  have heval : (Trace.run (step code) (init (fun _ => 0) (fun _ => 7) true twoReaders) readAndSleep).map
      (fun w => w.shared.busy 3) = some false := rfl
  obtain ⟨w, hrun, hw⟩ := Option.map_eq_some_iff.1 heval
  refine ⟨w, hrun, ?_⟩
  rcases (bget_searches _ _ true twoReaders _ hrun (1, 5)).2 with hall | ⟨b, hb, hfree, _⟩
  · exact absurd ((hall.2 3).symm.trans hw) (by simp)
  · exact ⟨b, hb, hfree⟩

end SystemsProjects.Xv6.Bio
