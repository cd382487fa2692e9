import Mathlib.Logic.Function.Basic
import SystemsProjects.Lib.Trace

/-!
# Monitors with `sleep` and `wakeup`

Threads share a state under a spin lock.  A thread that has to wait calls `sleep`, which takes a second
lock, the one of the process table, before it gives up the first; `wakeup` takes the second lock to make
all sleepers of a channel runnable.  A step of the system is one step of one thread, down to the single
lock operations inside `sleep` and `wakeup`, or a `kill`, or a `wakeup` from elsewhere.

An `Outline` says what is known at each point of the code, which condition each channel waits for, and at
which points a `wakeup` is owed.  If the code follows the outline (`Outline.Ok`), then whenever the lock is
free, what a sleeper waits for has not happened (`Inv.waits_of_asleep`): no wakeup is lost.
-/

namespace SystemsProjects.Monitor

variable {ι κ σ χ : Type*}

/-- What a thread does at a point of its code. -/
inductive Instr (κ σ χ : Type*) where
  | acquire (next : κ)
  | release (next : κ)
  /-- One access to the shared state; the argument tells if the thread has been killed. -/
  | access (f : Bool → σ → σ × κ)
  /-- One access without the lock, to what nobody else uses at the time. -/
  | touch (f : σ → σ × κ)
  | wakeup (c : χ) (next : κ)
  | sleep (c : χ) (next : κ)
  /-- A step that concerns nobody else. -/
  | jump (next : κ)
  | stop

/-- Where a thread is within an instruction. -/
inductive Phase (χ : Type*) where
  | running
  /-- In `wakeup`, with the lock of the process table. -/
  | waking (c : χ)
  /-- In `wakeup`, after `wakeup1`. -/
  | woke
  /-- In `sleep`, with both locks. -/
  | entering (c : χ)
  /-- In `sleep`, with the lock of the process table only. -/
  | committed (c : χ)
  /-- `SLEEPING`, and its processor still has the lock of the process table. -/
  | parked (c : χ)
  /-- `SLEEPING`. -/
  | asleep (c : χ)
  /-- `RUNNABLE`. -/
  | ready
  /-- Back in `sleep`, with the lock of the process table, which the scheduler has taken. -/
  | resumed
  /-- At the end of `sleep`, without a lock. -/
  | reacquiring

/-- The thread is in `SLEEPING` on `c`, or on its way there behind the release of the lock. -/
def Phase.SleepsOn (c : χ) : Phase χ → Prop
  | .committed c' => c' = c
  | .parked c' => c' = c
  | .asleep c' => c' = c
  | _ => False

/-- The thread has the lock of the process table. -/
def Phase.HasTable : Phase χ → Prop
  | .waking _ => True
  | .woke => True
  | .entering _ => True
  | .committed _ => True
  | .parked _ => True
  | .resumed => True
  | _ => False

/-- The thread has the lock, if it is at a point where it should have it. -/
def Phase.KeepsLock : Phase χ → Prop
  | .running => True
  | .waking _ => True
  | .woke => True
  | .entering _ => True
  | _ => False

structure World (ι κ σ χ : Type*) where
  /-- The holder of the lock. -/
  lk : Option ι
  /-- The holder of the lock of the process table. -/
  table : Option ι
  shared : σ
  pc : ι → κ
  phase : ι → Phase χ
  killed : ι → Bool

inductive Event (ι χ : Type*) where
  | step (i : ι)
  | kill (i : ι)
  /-- A `wakeup` that is no part of this code. -/
  | wake (c : χ)

section Steps

variable [DecidableEq ι] [DecidableEq χ] (code : ι → κ → Instr κ σ χ)

/-- `wakeup1` -/
def wakeup1 (c : χ) (phase : ι → Phase χ) : ι → Phase χ := fun i =>
  match phase i with
  | .asleep c' => if c' = c then .ready else .asleep c'
  | ph => ph

namespace World

variable (w : World ι κ σ χ) (i : ι)

/-- The thread `i` goes to the point `k`, in the phase `ph`. -/
def move (k : κ) (ph : Phase χ) : World ι κ σ χ :=
  { w with pc := Function.update w.pc i k, phase := Function.update w.phase i ph }

/-- The thread `i` at the beginning of an instruction. -/
def begins : Option (World ι κ σ χ) :=
  match code i (w.pc i) with
  | .acquire next => if w.lk = none then some { w.move i next .running with lk := some i } else none
  | .release next => some { w.move i next .running with lk := none }
  | .access f =>
    some { w.move i (f (w.killed i) w.shared).2 .running with shared := (f (w.killed i) w.shared).1 }
  | .touch f => some { w.move i (f w.shared).2 .running with shared := (f w.shared).1 }
  | .wakeup c next =>
    if w.table = none then some { w.move i next (.waking c) with table := some i } else none
  | .sleep c next =>
    if w.table = none then some { w.move i next (.entering c) with table := some i } else none
  | .jump next => some (w.move i next .running)
  | .stop => none

/-- One step of the thread `i`. -/
def advance : Option (World ι κ σ χ) :=
  match w.phase i with
  | .running => w.begins code i
  | .waking c => some { w with phase := Function.update (wakeup1 c w.phase) i .woke }
  | .woke => some { w.move i (w.pc i) .running with table := none }
  | .entering c => some { w.move i (w.pc i) (.committed c) with lk := none }
  | .committed c => some (w.move i (w.pc i) (.parked c))
  | .parked c => some { w.move i (w.pc i) (.asleep c) with table := none }
  | .asleep _ => none
  | .ready => if w.table = none then some { w.move i (w.pc i) .resumed with table := some i } else none
  | .resumed => some { w.move i (w.pc i) .reacquiring with table := none }
  | .reacquiring => if w.lk = none then some { w.move i (w.pc i) .running with lk := some i } else none

end World

/-- One step of the system.  `kill` and the `wakeup`s from elsewhere are done with the lock of the process
table. -/
def step (w : World ι κ σ χ) : Event ι χ → Option (World ι κ σ χ)
  | .step i => w.advance code i
  | .kill i =>
    if w.table = none then
      some { w with
        killed := Function.update w.killed i true
        phase := match w.phase i with
          | .asleep _ => Function.update w.phase i .ready
          | _ => w.phase }
    else none
  | .wake c => if w.table = none then some { w with phase := wakeup1 c w.phase } else none

end Steps

/-! ## Outlines -/

/-- What is known about a monitor and its code. -/
structure Outline (κ σ χ : Type*) where
  /-- The points of the code that are reached with the lock. -/
  inside : κ → Prop
  /-- What holds at such a point. -/
  holds : κ → σ → Prop
  /-- What holds when the lock is free. -/
  free : σ → Prop
  /-- What the sleepers of a channel wait to end. -/
  waits : χ → σ → Prop
  /-- A `wakeup` is still to come. -/
  owes : κ → χ → Prop

namespace Outline

variable (o : Outline κ σ χ)

/-- The instruction at `k` follows the outline. -/
def Ok (k : κ) : Instr κ σ χ → Prop
  | .acquire next => ¬ o.inside k ∧ o.inside next ∧ ∀ s, o.free s → o.holds next s
  | .release next =>
    o.inside k ∧ ¬ o.inside next ∧ ∀ s, o.holds k s → o.free s ∧ ∀ c, o.owes k c → o.waits c s
  | .access f =>
    o.inside k ∧ ∀ b s, o.holds k s → o.inside (f b s).2 ∧ o.holds (f b s).2 (f b s).1 ∧
      ∀ c, o.owes k c ∨ o.waits c s → o.owes (f b s).2 c ∨ o.waits c (f b s).1
  | .touch f =>
    ¬ o.inside k ∧ ∀ s, ¬ o.inside (f s).2 ∧ (o.free s → o.free (f s).1) ∧
      (∀ l, o.holds l s → o.holds l (f s).1) ∧ ∀ c, o.waits c s → o.waits c (f s).1
  | .wakeup c next =>
    o.inside k ∧ o.inside next ∧ (∀ s, o.holds k s → o.holds next s) ∧
      ∀ c', c' ≠ c → o.owes k c' → o.owes next c'
  | .sleep c next =>
    o.inside k ∧ o.inside next ∧ (∀ s, o.free s → o.holds next s) ∧
      ∀ s, o.holds k s → o.free s ∧ o.waits c s ∧ ∀ c', o.owes k c' → o.waits c' s
  | .jump next => ¬ o.inside k ∧ ¬ o.inside next
  | .stop => True

/-- What is known of a thread in a phase. -/
def At : Phase χ → κ → σ → Prop
  | .running, k, s => o.inside k → o.holds k s
  | .waking _, k, s => o.inside k ∧ o.holds k s
  | .woke, k, s => o.inside k ∧ o.holds k s
  | .entering c, k, s => o.inside k ∧ (∀ s, o.free s → o.holds k s) ∧ o.free s ∧ o.waits c s
  | _, k, _ => o.inside k ∧ ∀ s, o.free s → o.holds k s

/-- The thread is going to call `wakeup`. -/
def Owing (c : χ) : Phase χ → κ → Prop
  | .running, k => o.owes k c
  | .waking c', k => c' = c ∨ o.owes k c
  | .woke, k => o.owes k c
  | _, _ => False

/-- The sleepers of `c` wait rightly, or somebody is going to wake them. -/
def Covered (c : χ) (w : World ι κ σ χ) : Prop :=
  o.waits c w.shared ∨ ∃ j, w.lk = some j ∧ o.Owing c (w.phase j) (w.pc j)

/-- The invariant of a monitor. -/
structure Inv (w : World ι κ σ χ) : Prop where
  lk : ∀ i, w.lk = some i ↔ o.inside (w.pc i) ∧ (w.phase i).KeepsLock
  table : ∀ i, w.table = some i ↔ (w.phase i).HasTable
  known : ∀ i, o.At (w.phase i) (w.pc i) w.shared
  free : w.lk = none → o.free w.shared
  asleep : ∀ i c, (w.phase i).SleepsOn c → o.Covered c w

end Outline

variable {o : Outline κ σ χ} {w w' : World ι κ σ χ} {i : ι} {k : κ} {s s' : σ} {ph : Phase χ} {c : χ}

theorem Phase.KeepsLock.not_sleepsOn (h : ph.KeepsLock) (c : χ) : ¬ ph.SleepsOn c := by
  cases ph with
  | committed d => exact h.elim
  | parked d => exact h.elim
  | asleep d => exact h.elim
  | _ => exact id

/-- What is known of a thread without the lock does not depend on the shared state. -/
theorem Outline.At.of_not_lock (h : o.At ph k s) (hlock : ¬ (o.inside k ∧ ph.KeepsLock)) : o.At ph k s' := by
  cases ph with
  | running => exact fun hin => absurd ⟨hin, trivial⟩ hlock
  | waking c => exact absurd ⟨h.1, trivial⟩ hlock
  | woke => exact absurd ⟨h.1, trivial⟩ hlock
  | entering c => exact absurd ⟨h.1, trivial⟩ hlock
  | _ => exact h

theorem Outline.Inv.lk_unique (h : o.Inv w) {j : ι} (hi : w.lk = some i) (hj : o.inside (w.pc j))
    (hkeeps : (w.phase j).KeepsLock) : j = i :=
  Option.some.inj (((h.lk j).2 ⟨hj, hkeeps⟩).symm.trans hi)

theorem some_self_iff {x : Option ι} (h : x = none) {j : ι} (hj : j ≠ i) : some i = some j ↔ x = some j := by
  rw [h]
  exact iff_of_false (fun heq => hj (Option.some.inj heq).symm) (Option.some_ne_none j).symm

theorem none_iff_of_ne {x : Option ι} (h : x = some i) {j : ι} (hj : j ≠ i) : none = some j ↔ x = some j := by
  rw [h]
  exact iff_of_false (Option.some_ne_none j).symm fun heq => hj (Option.some.inj heq).symm

/-- What the other threads know does not depend on what a thread with the lock does. -/
theorem Outline.Inv.others (h : o.Inv w) (hi : w.lk = some i) (s' : σ) (j : ι) (hj : j ≠ i) :
    o.At (w.phase j) (w.pc j) s' :=
  (h.known j).of_not_lock fun hlock => hj (h.lk_unique hi hlock.1 hlock.2)

/-- What a thread knows is kept by an access without the lock. -/
theorem Outline.At.of_touch (h : o.At ph k s) (hfree : o.free s → o.free s')
    (hholds : o.holds k s → o.holds k s') (hwaits : ∀ c, o.waits c s → o.waits c s') : o.At ph k s' := by
  cases ph with
  | running => exact fun hin => hholds (h hin)
  | waking c => exact ⟨h.1, hholds h.2⟩
  | woke => exact ⟨h.1, hholds h.2⟩
  | entering c => exact ⟨h.1, h.2.1, hfree h.2.2.1, hwaits c h.2.2.2⟩
  | _ => exact h

variable [DecidableEq ι]

/-- A step of the thread `i`. -/
theorem Outline.Inv.move (h : o.Inv w) {lk' table' : Option ι} {s' : σ}
    (hlk : ∀ j, j ≠ i → (lk' = some j ↔ w.lk = some j)) (hlki : lk' = some i ↔ o.inside k ∧ ph.KeepsLock)
    (htable : ∀ j, j ≠ i → (table' = some j ↔ w.table = some j)) (htablei : table' = some i ↔ ph.HasTable)
    (hothers : ∀ j, j ≠ i → o.At (w.phase j) (w.pc j) s') (hknown : o.At ph k s') (hfree : lk' = none → o.free s')
    (hown : ∀ c j, (w.phase j).SleepsOn c →
      o.waits c w.shared ∨ w.lk = some i ∧ o.Owing c (w.phase i) (w.pc i) →
      o.waits c s' ∨ lk' = some i ∧ o.Owing c ph k)
    (hasleep : ∀ c, ph.SleepsOn c → (w.phase i).SleepsOn c ∨ o.waits c s') :
    o.Inv { w.move i k ph with lk := lk', table := table', shared := s' } := by
  have hcovered : ∀ c j, (w.phase j).SleepsOn c →
      o.Covered c { w.move i k ph with lk := lk', table := table', shared := s' } := by
    intro c j hj
    have hc := h.asleep j c hj
    by_cases hi : w.lk = some i
    · have hc' : o.waits c w.shared ∨ w.lk = some i ∧ o.Owing c (w.phase i) (w.pc i) := by
        refine hc.imp_right fun ⟨l, hl, howing⟩ => ?_
        obtain rfl : i = l := Option.some.inj (hi.symm.trans hl)
        exact ⟨hl, howing⟩
      rcases hown c j hj hc' with hwaits | ⟨hlki', howing⟩
      · exact .inl hwaits
      · exact .inr ⟨i, hlki', by simpa [World.move] using howing⟩
    · rcases hc with hwaits | ⟨l, hl, howing⟩
      · refine (hown c j hj (.inl hwaits)).imp_right fun ⟨hlki', howing⟩ => ⟨i, hlki', ?_⟩
        simpa [World.move] using howing
      · have hli : l ≠ i := fun heq => hi (heq ▸ hl)
        exact .inr ⟨l, (hlk l hli).2 hl, by simpa [World.move, hli] using howing⟩
  refine ⟨fun j => ?_, fun j => ?_, fun j => ?_, hfree, fun j c hj => ?_⟩
  all_goals by_cases hji : j = i
  · simpa [World.move, hji] using hlki
  · simpa [World.move, hji, hlk j hji] using h.lk j
  · simpa [World.move, hji] using htablei
  · simpa [World.move, hji, htable j hji] using h.table j
  · simpa [World.move, hji] using hknown
  · simp only [World.move, Function.update_of_ne hji]
    exact hothers j hji
  · simp only [World.move, hji, Function.update_self] at hj
    rcases hasleep c hj with hold | hwaits
    · exact hcovered c i hold
    · exact .inl hwaits
  · simp only [World.move, Function.update_of_ne hji] at hj
    exact hcovered c j hj

/-- A step of a thread that keeps the lock. -/
theorem Outline.Inv.inside (h : o.Inv w) {table' : Option ι} {s' : σ} (hlk : w.lk = some i) (hin : o.inside k)
    (hkeeps : ph.KeepsLock) (htable : ∀ j, j ≠ i → (table' = some j ↔ w.table = some j))
    (htablei : table' = some i ↔ ph.HasTable) (hknown : o.At ph k s')
    (hown : ∀ c j, (w.phase j).SleepsOn c → o.waits c w.shared ∨ o.Owing c (w.phase i) (w.pc i) →
      o.waits c s' ∨ o.Owing c ph k) :
    o.Inv { w.move i k ph with table := table', shared := s' } := by
  apply h.move
  · exact fun j _ => Iff.rfl
  · exact iff_of_true hlk ⟨hin, hkeeps⟩
  · exact htable
  · exact htablei
  · exact h.others hlk s'
  · exact hknown
  · exact fun hnone => absurd (hlk.symm.trans hnone) (Option.some_ne_none i)
  · exact fun c j hj hc => (hown c j hj (hc.imp_right And.right)).imp_right fun howing => ⟨hlk, howing⟩
  · exact fun c hc => absurd hc (hkeeps.not_sleepsOn c)

/-- A step of a thread that neither has nor takes the lock. -/
theorem Outline.Inv.outside (h : o.Inv w) {table' : Option ι} {s' : σ} (hlk : w.lk ≠ some i)
    (hout : ¬ (o.inside k ∧ ph.KeepsLock)) (htable : ∀ j, j ≠ i → (table' = some j ↔ w.table = some j))
    (htablei : table' = some i ↔ ph.HasTable) (hothers : ∀ j, j ≠ i → o.At (w.phase j) (w.pc j) s')
    (hknown : o.At ph k s') (hfree : o.free w.shared → o.free s')
    (hwaits : ∀ c, o.waits c w.shared → o.waits c s')
    (hasleep : ∀ c, ph.SleepsOn c → (w.phase i).SleepsOn c) :
    o.Inv { w.move i k ph with table := table', shared := s' } := by
  apply h.move
  · exact fun j _ => Iff.rfl
  · exact iff_of_false hlk hout
  · exact htable
  · exact htablei
  · exact hothers
  · exact hknown
  · exact fun hnone => hfree (h.free hnone)
  · exact fun c _ _ hc => .inl (hwaits c (hc.resolve_right fun hc' => hlk hc'.1))
  · exact fun c hc => .inl (hasleep c hc)

/-- A step with which a thread takes the lock. -/
theorem Outline.Inv.takes (h : o.Inv w) (hlk : w.lk = none) (htable : w.table ≠ some i) (hin : o.inside k)
    (hholds : ∀ s, o.free s → o.holds k s) : o.Inv { w.move i k .running with lk := some i } := by
  apply h.move
  · exact fun j hj => some_self_iff hlk hj
  · exact iff_of_true rfl ⟨hin, trivial⟩
  · exact fun j _ => Iff.rfl
  · exact iff_of_false htable id
  · exact fun j _ => h.known j
  · exact fun _ => hholds _ (h.free hlk)
  · exact fun hnone => absurd hnone (Option.some_ne_none i)
  · exact fun c _ _ hc => .inl (hc.resolve_right fun hc' => Option.some_ne_none i (hc'.1.symm.trans hlk))
  · exact fun c hc => hc.elim

/-- A step with which a thread gives up the lock: no wakeup may be owed any more. -/
theorem Outline.Inv.gives (h : o.Inv w) (hlk : w.lk = some i) (hout : ¬ (o.inside k ∧ ph.KeepsLock))
    (htablei : w.table = some i ↔ ph.HasTable) (hknown : o.At ph k w.shared) (hfree : o.free w.shared)
    (hown : ∀ c, o.Owing c (w.phase i) (w.pc i) → o.waits c w.shared)
    (hasleep : ∀ c, ph.SleepsOn c → o.waits c w.shared) : o.Inv { w.move i k ph with lk := none } := by
  apply h.move
  · exact fun j hj => none_iff_of_ne hlk hj
  · exact iff_of_false (Option.some_ne_none i).symm hout
  · exact fun j _ => Iff.rfl
  · exact htablei
  · exact fun j _ => h.known j
  · exact hknown
  · exact fun _ => hfree
  · exact fun c _ _ hc => .inl (hc.elim id fun hc' => hown c hc'.2)
  · exact fun c hc => .inr (hasleep c hc)

/-- A step inside `sleep`, without the lock. -/
theorem Outline.Inv.pass (h : o.Inv w) (ph : Phase χ) {table' : Option ι} (hi : ¬ (w.phase i).KeepsLock)
    (hph : ¬ ph.KeepsLock) (hknown : o.At ph (w.pc i) w.shared)
    (htable : ∀ j, j ≠ i → (table' = some j ↔ w.table = some j)) (htablei : table' = some i ↔ ph.HasTable)
    (hasleep : ∀ c, ph.SleepsOn c → (w.phase i).SleepsOn c) :
    o.Inv { w.move i (w.pc i) ph with table := table' } := by
  apply h.outside
  · exact fun heq => hi ((h.lk i).1 heq).2
  · exact fun hlock => hph hlock.2
  · exact htable
  · exact htablei
  · exact fun j _ => h.known j
  · exact hknown
  · exact id
  · exact fun c => id
  · exact hasleep

section Steps

variable [DecidableEq χ] {code : ι → κ → Instr κ σ χ}

theorem Outline.Inv.begins (h : o.Inv w) (hi : w.phase i = .running)
    (hok : o.Ok (w.pc i) (code i (w.pc i)))
    (hstep : w.begins code i = some w') : o.Inv w' := by
  have hknown := h.known i
  have hlki := h.lk i
  have htablei := h.table i
  have hown := fun c => (iff_of_eq (congrArg (o.Owing c · (w.pc i)) hi)).1
  rw [hi] at hknown hlki htablei
  simp only [Phase.KeepsLock, and_true, Phase.HasTable, iff_false] at hlki htablei
  unfold World.begins at hstep
  generalize code i (w.pc i) = instr at hok hstep
  cases instr with
  | acquire next =>
    obtain ⟨-, hnext, hholds⟩ := hok
    obtain ⟨hfree, heq⟩ := Option.ite_none_right_eq_some.1 hstep
    obtain rfl := Option.some.inj heq
    exact h.takes hfree htablei hnext hholds
  | release next =>
    obtain ⟨hin, hnext, hrelease⟩ := hok
    obtain rfl := Option.some.inj hstep
    obtain ⟨hfree, howes⟩ := hrelease _ (hknown hin)
    apply h.gives (hlki.2 hin)
    · exact fun hlock => hnext hlock.1
    · exact iff_of_false htablei id
    · exact fun hin' => absurd hin' hnext
    · exact hfree
    · exact fun c hc => howes c (hown c hc)
    · exact fun c hc => hc.elim
  | access f =>
    obtain ⟨hin, haccess⟩ := hok
    obtain rfl := Option.some.inj hstep
    obtain ⟨hin', hholds, howes⟩ := haccess _ _ (hknown hin)
    apply h.inside (hlki.2 hin) hin'
    · exact trivial
    · exact fun j _ => Iff.rfl
    · exact iff_of_false htablei id
    · exact fun _ => hholds
    · exact fun c _ _ hc => (howes c (hc.symm.imp_left (hown c))).symm
  | touch f =>
    obtain ⟨hout, htouch⟩ := hok
    obtain rfl := Option.some.inj hstep
    obtain ⟨hout', hfree, hholds, hwaits⟩ := htouch w.shared
    apply h.outside
    · exact fun heq => hout (hlki.1 heq)
    · exact fun hlock => hout' hlock.1
    · exact fun j _ => Iff.rfl
    · exact iff_of_false htablei id
    · exact fun j _ => (h.known j).of_touch hfree (hholds _) hwaits
    · exact fun hin => absurd hin hout'
    · exact hfree
    · exact hwaits
    · exact fun c hc => hc.elim
  | wakeup c next =>
    obtain ⟨hin, hin', hholds, howes⟩ := hok
    obtain ⟨hfree, heq⟩ := Option.ite_none_right_eq_some.1 hstep
    obtain rfl := Option.some.inj heq
    apply h.inside (hlki.2 hin) hin'
    · exact trivial
    · exact fun j hj => some_self_iff hfree hj
    · exact iff_of_true rfl trivial
    · exact ⟨hin', hholds _ (hknown hin)⟩
    · intro c' _ _ hc
      refine hc.imp_right fun howing => ?_
      by_cases heq : c = c'
      · exact .inl heq
      · exact .inr (howes c' (Ne.symm heq) (hown c' howing))
  | sleep c next =>
    obtain ⟨hin, hin', hholds, hsleep⟩ := hok
    obtain ⟨hfree, heq⟩ := Option.ite_none_right_eq_some.1 hstep
    obtain rfl := Option.some.inj heq
    obtain ⟨hfree', hwaits, howes⟩ := hsleep _ (hknown hin)
    apply h.inside (hlki.2 hin) hin'
    · exact trivial
    · exact fun j hj => some_self_iff hfree hj
    · exact iff_of_true rfl trivial
    · exact ⟨hin', hholds, hfree', hwaits⟩
    · exact fun c' _ _ hc => .inl (hc.elim id fun howing => howes c' (hown c' howing))
  | jump next =>
    obtain ⟨hout, hout'⟩ := hok
    obtain rfl := Option.some.inj hstep
    apply h.outside
    · exact fun heq => hout (hlki.1 heq)
    · exact fun hlock => hout' hlock.1
    · exact fun j _ => Iff.rfl
    · exact iff_of_false htablei id
    · exact fun j _ => h.known j
    · exact fun hin => absurd hin hout'
    · exact id
    · exact fun c => id
    · exact fun c hc => hc.elim
  | stop => simp at hstep

omit [DecidableEq ι] in
theorem wakeup1_cases (c : χ) (phase : ι → Phase χ) (j : ι) :
    phase j = .asleep c ∧ wakeup1 c phase j = .ready ∨ phase j ≠ .asleep c ∧ wakeup1 c phase j = phase j := by
  unfold wakeup1
  cases phase j with
  | asleep d =>
    by_cases hd : d = c
    · exact .inl ⟨congrArg _ hd, if_pos hd⟩
    · exact .inr ⟨fun heq => hd (Phase.asleep.inj heq), if_neg hd⟩
  | _ => exact .inr ⟨by simp, rfl⟩

omit [DecidableEq ι] [DecidableEq χ] in
/-- Sleepers that are made runnable do not disturb the invariant. -/
theorem Outline.Inv.rouse (h : o.Inv w) {phase' : ι → Phase χ} (killed' : ι → Bool)
    (hphase : ∀ j, (∃ c, w.phase j = .asleep c) ∧ phase' j = .ready ∨ phase' j = w.phase j) :
    o.Inv { w with phase := phase', killed := killed' } := by
  have hcovered : ∀ c, o.Covered c w → o.Covered c { w with phase := phase', killed := killed' } := by
    refine fun c hc => hc.imp_right fun ⟨j, hj, howing⟩ => ⟨j, hj, ?_⟩
    rcases hphase j with ⟨⟨d, hd⟩, _⟩ | heq
    · rw [hd] at howing
      exact howing.elim
    · simpa only [heq] using howing
  refine ⟨fun j => ?_, fun j => ?_, fun j => ?_, h.free, fun j c hj => ?_⟩
  all_goals rcases hphase j with ⟨⟨d, hd⟩, heq⟩ | heq
  · simpa only [heq, hd, Phase.KeepsLock] using h.lk j
  · simpa only [heq] using h.lk j
  · simpa only [heq, hd, Phase.HasTable] using h.table j
  · simpa only [heq] using h.table j
  · simpa only [heq, hd, At] using h.known j
  · simpa only [heq] using h.known j
  · simp only [heq] at hj
    exact hj.elim
  · simp only [heq] at hj
    exact hcovered c (h.asleep j c hj)

omit [DecidableEq ι] in
theorem Outline.Inv.wakeup1 (h : o.Inv w) (c : χ) : o.Inv { w with phase := wakeup1 c w.phase } :=
  h.rouse w.killed fun j => (wakeup1_cases c w.phase j).imp (fun hj => ⟨⟨c, hj.1⟩, hj.2⟩) fun hj => hj.2

omit [DecidableEq ι] in
/-- After `wakeup1`, nobody sleeps on the channel, if no other thread is between its two locks. -/
theorem Outline.Inv.not_sleepsOn_wakeup1 (h : o.Inv w) (htable : w.table = some i)
    (hi : ¬ (w.phase i).SleepsOn c) (j : ι) : ¬ (Monitor.wakeup1 c w.phase j).SleepsOn c := by
  intro hj
  rcases wakeup1_cases c w.phase j with ⟨_, heq⟩ | ⟨hne, heq⟩
  · rw [heq] at hj
    exact hj.elim
  · rw [heq] at hj
    have hhas : (w.phase j).HasTable := by
      cases hphase : w.phase j with
      | asleep d =>
        rw [hphase] at hj hne
        exact absurd (congrArg _ hj) hne
      | committed d => trivial
      | parked d => trivial
      | _ =>
        rw [hphase] at hj
        exact hj.elim
    obtain rfl : i = j := Option.some.inj (htable.symm.trans ((h.table j).2 hhas))
    exact hi hj

theorem Outline.Inv.waking (h : o.Inv w) (hi : w.phase i = .waking c) :
    o.Inv { w with phase := Function.update (Monitor.wakeup1 c w.phase) i .woke } := by
  have hknown := h.known i
  have hlki := h.lk i
  have htablei := (h.table i).2 (by rw [hi]; trivial)
  have hself : Monitor.wakeup1 c w.phase i = .waking c := by simp [Monitor.wakeup1, hi]
  have hnone : ∀ j, ¬ (Monitor.wakeup1 c w.phase j).SleepsOn c :=
    h.not_sleepsOn_wakeup1 htablei (by rw [hi]; exact id)
  rw [hi] at hknown hlki
  have hlk : w.lk = some i := hlki.2 ⟨hknown.1, trivial⟩
  have hmove : o.Inv (({ w with phase := Monitor.wakeup1 c w.phase } : World ι κ σ χ).move i (w.pc i) .woke) := by
    apply (h.wakeup1 c).inside hlk hknown.1
    · exact trivial
    · exact fun j _ => Iff.rfl
    · exact iff_of_true htablei trivial
    · exact hknown
    · intro c' j hj hc
      refine hc.imp_right fun howing => ?_
      simp only [hself] at howing
      refine howing.resolve_left fun heq => hnone j ?_
      subst heq
      exact hj
  simpa only [World.move, Function.update_eq_self] using hmove

theorem Outline.Inv.advance (h : o.Inv w) (hok : ∀ k, o.Ok k (code i k))
    (hstep : w.advance code i = some w') : o.Inv w' := by
  have hknown := h.known i
  have hlki := h.lk i
  have htablei := h.table i
  unfold World.advance at hstep
  cases hphase : w.phase i with
  | running =>
    rw [hphase] at hstep
    exact h.begins hphase (hok _) hstep
  | waking c =>
    rw [hphase] at hstep
    obtain rfl := Option.some.inj hstep
    exact h.waking hphase
  | woke =>
    rw [hphase] at hstep hknown hlki htablei
    obtain rfl := Option.some.inj hstep
    apply h.inside (hlki.2 ⟨hknown.1, trivial⟩) hknown.1
    · exact trivial
    · exact fun j hj => none_iff_of_ne (htablei.2 trivial) hj
    · exact iff_of_false (Option.some_ne_none i).symm id
    · exact fun _ => hknown.2
    · intro c _ _ hc
      rw [hphase] at hc
      exact hc
  | entering c =>
    rw [hphase] at hstep hknown hlki htablei
    obtain rfl := Option.some.inj hstep
    obtain ⟨hin, hholds, hfree, hwaits⟩ := hknown
    apply h.gives (hlki.2 ⟨hin, trivial⟩)
    · exact fun hlock => hlock.2
    · exact htablei
    · exact ⟨hin, hholds⟩
    · exact hfree
    · intro c' hc
      rw [hphase] at hc
      exact hc.elim
    · intro c' hc
      obtain rfl : c = c' := hc
      exact hwaits
  | committed c =>
    have hunlocked : ¬ (w.phase i).KeepsLock := by rw [hphase]; exact id
    rw [hphase] at hstep hknown htablei
    obtain rfl := Option.some.inj hstep
    apply h.pass (.parked c) hunlocked id hknown
    · exact fun j hj => Iff.rfl
    · exact htablei
    · exact fun c' hc => by rwa [hphase]
  | parked c =>
    have hunlocked : ¬ (w.phase i).KeepsLock := by rw [hphase]; exact id
    rw [hphase] at hstep hknown htablei
    obtain rfl := Option.some.inj hstep
    apply h.pass (.asleep c) hunlocked id hknown
    · exact fun j hj => none_iff_of_ne (htablei.2 trivial) hj
    · exact iff_of_false (Option.some_ne_none i).symm id
    · exact fun c' hc => by rwa [hphase]
  | asleep c => simp [hphase] at hstep
  | ready =>
    have hunlocked : ¬ (w.phase i).KeepsLock := by rw [hphase]; exact id
    rw [hphase] at hstep hknown
    obtain ⟨hfree, heq⟩ := Option.ite_none_right_eq_some.1 hstep
    obtain rfl := Option.some.inj heq
    apply h.pass .resumed hunlocked id hknown
    · exact fun j hj => some_self_iff hfree hj
    · exact iff_of_true rfl trivial
    · exact fun c' hc => hc.elim
  | resumed =>
    have hunlocked : ¬ (w.phase i).KeepsLock := by rw [hphase]; exact id
    rw [hphase] at hstep hknown htablei
    obtain rfl := Option.some.inj hstep
    apply h.pass .reacquiring hunlocked id hknown
    · exact fun j hj => none_iff_of_ne (htablei.2 trivial) hj
    · exact iff_of_false (Option.some_ne_none i).symm id
    · exact fun c' hc => hc.elim
  | reacquiring =>
    have htable : w.table ≠ some i := fun heq => by simpa [hphase, Phase.HasTable] using (h.table i).1 heq
    rw [hphase] at hstep hknown
    obtain ⟨hfree, heq⟩ := Option.ite_none_right_eq_some.1 hstep
    obtain rfl := Option.some.inj heq
    exact h.takes hfree htable hknown.1 hknown.2

/-- Every step keeps the invariant, if the code follows the outline. -/
theorem Outline.Inv.step (h : o.Inv w) (hok : ∀ i k, o.Ok k (code i k)) {e : Event ι χ}
    (hstep : step code w e = some w') : o.Inv w' := by
  cases e with
  | step i => exact h.advance (hok i) hstep
  | kill i =>
    obtain ⟨_, heq⟩ := Option.ite_none_right_eq_some.1 hstep
    obtain rfl := Option.some.inj heq
    apply h.rouse
    intro j
    cases hphase : w.phase i with
    | asleep c =>
      by_cases hji : j = i
      · exact .inl ⟨⟨c, hji ▸ hphase⟩, by simp [hji]⟩
      · exact .inr (Function.update_of_ne hji _ _)
    | _ => exact .inr rfl
  | wake c =>
    obtain ⟨_, heq⟩ := Option.ite_none_right_eq_some.1 hstep
    obtain rfl := Option.some.inj heq
    exact h.wakeup1 c

/-- The invariant holds in every state that the system can reach. -/
theorem Outline.Inv.run (h : o.Inv w) (hok : ∀ i k, o.Ok k (code i k)) {es : List (Event ι χ)}
    (hrun : Trace.run (Monitor.step code) w es = some w') : o.Inv w' :=
  Trace.run_invariant (fun _ _ _ hw _ hs => hw.step hok hs) h (Trace.along_of_forall _ (fun _ _ => trivial) _ _) hrun

omit [DecidableEq ι] [DecidableEq χ] in
/-- No wakeup is lost: while the lock is free, what a sleeper waits for has not happened. -/
theorem Outline.Inv.waits_of_asleep (h : o.Inv w) (hlk : w.lk = none) (hi : w.phase i = .asleep c) :
    o.waits c w.shared := by
  refine (h.asleep i c ?_).resolve_right fun ⟨j, hj, _⟩ => ?_
  · rw [hi]
    rfl
  · exact Option.some_ne_none j (hj.symm.trans hlk)

omit [DecidableEq ι] [DecidableEq χ] in
/-- What is known at a point with the lock, if what holds when the lock is free is never given up. -/
theorem Outline.Inv.holds (h : o.Inv w) (hfree : o.free w.shared) (hin : o.inside (w.pc i)) :
    o.holds (w.pc i) w.shared := by
  have hknown := h.known i
  cases hphase : w.phase i with
  | running =>
    rw [hphase] at hknown
    exact hknown hin
  | waking c =>
    rw [hphase] at hknown
    exact hknown.2
  | woke =>
    rw [hphase] at hknown
    exact hknown.2
  | entering c =>
    rw [hphase] at hknown
    exact hknown.2.1 _ hfree
  | _ =>
    rw [hphase] at hknown
    exact hknown.2 _ hfree

omit [DecidableEq ι] [DecidableEq χ] in
/-- What holds whether the lock is free or not. -/
theorem Outline.Inv.always (h : o.Inv w) {P : σ → Prop} (hfree : ∀ s, o.free s → P s)
    (hholds : ∀ k s, o.holds k s → P s) : P w.shared := by
  cases hlk : w.lk with
  | none => exact hfree _ (h.free hlk)
  | some j =>
    obtain ⟨hin, hkeeps⟩ := (h.lk j).1 hlk
    have hknown := h.known j
    cases hphase : w.phase j with
    | running =>
      rw [hphase] at hknown
      exact hholds _ _ (hknown hin)
    | waking c =>
      rw [hphase] at hknown
      exact hholds _ _ hknown.2
    | woke =>
      rw [hphase] at hknown
      exact hholds _ _ hknown.2
    | entering c =>
      rw [hphase] at hknown
      exact hfree _ hknown.2.2.1
    | _ =>
      rw [hphase] at hkeeps
      exact hkeeps.elim

omit [DecidableEq ι] [DecidableEq χ] in
/-- A system that has not begun. -/
theorem Outline.Inv.initial (hlk : w.lk = none) (htable : w.table = none) (hphase : ∀ i, w.phase i = .running)
    (hpc : ∀ i, ¬ o.inside (w.pc i)) (hfree : o.free w.shared) : o.Inv w := by
  refine ⟨fun i => ?_, fun i => ?_, fun i => ?_, fun _ => hfree, fun i c hi => ?_⟩
  · rw [hlk]
    exact iff_of_false (Option.some_ne_none i).symm fun hlock => hpc i hlock.1
  · rw [htable, hphase i]
    exact iff_of_false (Option.some_ne_none i).symm id
  · rw [hphase i]
    exact fun hin => absurd hin (hpc i)
  · rw [hphase i] at hi
    exact hi.elim

/-! ## What a thread does to its own part -/

/-- The instruction leads from `Q` at the point `k` to `Q` at the next point, while `J` holds. -/
def Instr.Keeps (J : σ → Prop) (Q : κ → σ → Prop) (k : κ) : Instr κ σ χ → Prop
  | .acquire next => ∀ s, J s → Q k s → Q next s
  | .release next => ∀ s, J s → Q k s → Q next s
  | .access f => ∀ b s, J s → Q k s → Q (f b s).2 (f b s).1
  | .touch f => ∀ s, J s → Q k s → Q (f s).2 (f s).1
  | .wakeup _ next => ∀ s, J s → Q k s → Q next s
  | .sleep _ next => ∀ s, J s → Q k s → Q next s
  | .jump next => ∀ s, J s → Q k s → Q next s
  | .stop => True

/-- An access of the instruction keeps `R`, which others rely on, while `J` holds. -/
def Instr.Spares (J R : σ → Prop) : Instr κ σ χ → Prop
  | .access f => ∀ b s, J s → R s → R (f b s).1
  | .touch f => ∀ s, J s → R s → R (f s).1
  | _ => True

/-- What one step does to the points of the threads and to the shared state. -/
theorem step_cases {e : Event ι χ} (hstep : step code w e = some w') :
    (w'.pc = w.pc ∧ w'.shared = w.shared) ∨
    ∃ i next, w'.pc = Function.update w.pc i next ∧
      (∀ (J : σ → Prop) (Q : κ → σ → Prop), (code i (w.pc i)).Keeps J Q (w.pc i) → J w.shared →
        Q (w.pc i) w.shared → Q next w'.shared) ∧
      ∀ J R : σ → Prop, (code i (w.pc i)).Spares J R → J w.shared → R w.shared → R w'.shared := by
  cases e with
  | kill i =>
    obtain ⟨_, heq⟩ := Option.ite_none_right_eq_some.1 hstep
    obtain rfl := Option.some.inj heq
    exact .inl ⟨rfl, rfl⟩
  | wake c =>
    obtain ⟨_, heq⟩ := Option.ite_none_right_eq_some.1 hstep
    obtain rfl := Option.some.inj heq
    exact .inl ⟨rfl, rfl⟩
  | step i =>
    simp only [step, World.advance] at hstep
    cases hphase : w.phase i with
    | running =>
      rw [hphase] at hstep
      simp only [World.begins] at hstep
      refine .inr ⟨i, ?_⟩
      generalize code i (w.pc i) = instr at hstep ⊢
      cases instr with
      | access f =>
        obtain rfl := Option.some.inj hstep
        exact ⟨_, rfl, fun J Q hQ => hQ _ _, fun J R hR => hR _ _⟩
      | touch f =>
        obtain rfl := Option.some.inj hstep
        exact ⟨_, rfl, fun J Q hQ => hQ _, fun J R hR => hR _⟩
      | stop => simp at hstep
      | acquire next =>
        obtain ⟨_, heq⟩ := Option.ite_none_right_eq_some.1 hstep
        obtain rfl := Option.some.inj heq
        exact ⟨next, rfl, fun J Q hQ => hQ _, fun J R _ _ hs => hs⟩
      | wakeup c next =>
        obtain ⟨_, heq⟩ := Option.ite_none_right_eq_some.1 hstep
        obtain rfl := Option.some.inj heq
        exact ⟨next, rfl, fun J Q hQ => hQ _, fun J R _ _ hs => hs⟩
      | sleep c next =>
        obtain ⟨_, heq⟩ := Option.ite_none_right_eq_some.1 hstep
        obtain rfl := Option.some.inj heq
        exact ⟨next, rfl, fun J Q hQ => hQ _, fun J R _ _ hs => hs⟩
      | release next =>
        obtain rfl := Option.some.inj hstep
        exact ⟨next, rfl, fun J Q hQ => hQ _, fun J R _ _ hs => hs⟩
      | jump next =>
        obtain rfl := Option.some.inj hstep
        exact ⟨next, rfl, fun J Q hQ => hQ _, fun J R _ _ hs => hs⟩
    | asleep c => simp [hphase] at hstep
    | ready =>
      rw [hphase] at hstep
      obtain ⟨_, heq⟩ := Option.ite_none_right_eq_some.1 hstep
      obtain rfl := Option.some.inj heq
      exact .inl ⟨Function.update_eq_self i w.pc, rfl⟩
    | reacquiring =>
      rw [hphase] at hstep
      obtain ⟨_, heq⟩ := Option.ite_none_right_eq_some.1 hstep
      obtain rfl := Option.some.inj heq
      exact .inl ⟨Function.update_eq_self i w.pc, rfl⟩
    | waking c =>
      rw [hphase] at hstep
      obtain rfl := Option.some.inj hstep
      exact .inl ⟨rfl, rfl⟩
    | _ =>
      rw [hphase] at hstep
      obtain rfl := Option.some.inj hstep
      exact .inl ⟨Function.update_eq_self i w.pc, rfl⟩

/-- The code keeps `Q`, which speaks about a thread and the shared state, while `J` holds. -/
structure KeptBy (code : ι → κ → Instr κ σ χ) (J : σ → Prop) (Q : ι → κ → σ → Prop) : Prop where
  own : ∀ i k, (code i k).Keeps J (Q i) k
  others : ∀ i k j l, j ≠ i → (code i k).Spares (fun s => J s ∧ Q i k s) (Q j l)

variable {J : σ → Prop} {Q : ι → κ → σ → Prop}

theorem KeptBy.step (hQ : KeptBy code J Q) {e : Event ι χ} (hJ : J w.shared) (h : ∀ i, Q i (w.pc i) w.shared)
    (hstep : step code w e = some w') (j : ι) : Q j (w'.pc j) w'.shared := by
  rcases step_cases hstep with ⟨hpc, hs⟩ | ⟨i, next, hpc, hown, hothers⟩
  · rw [hpc, hs]
    exact h j
  · rw [hpc]
    by_cases hji : j = i
    · rw [hji, Function.update_self]
      exact hown J (Q i) (hQ.own i _) hJ (h i)
    · rw [Function.update_of_ne hji]
      exact hothers _ _ (hQ.others i _ j _ hji) ⟨hJ, h i⟩ (h j)

/-- What each thread knows about its own part holds in every state that the system can reach. -/
theorem KeptBy.run (hQ : KeptBy code J Q) (hok : ∀ i k, o.Ok k (code i k)) (hfree : ∀ s, o.free s → J s)
    (hholds : ∀ k s, o.holds k s → J s) (hinv : o.Inv w) (h : ∀ i, Q i (w.pc i) w.shared) {es : List (Event ι χ)}
    (hrun : Trace.run (Monitor.step code) w es = some w') (j : ι) : Q j (w'.pc j) w'.shared := by
  have hboth : o.Inv w' ∧ ∀ i, Q i (w'.pc i) w'.shared := by
    refine Trace.run_invariant (P := fun _ _ => True) (I := fun w => o.Inv w ∧ ∀ i, Q i (w.pc i) w.shared)
      (fun v e v' hv _ hs => ?_) ⟨hinv, h⟩ (Trace.along_of_forall _ (fun _ _ => trivial) _ _) hrun
    exact ⟨hv.1.step hok hs, hQ.step (hv.1.always hfree hholds) hv.2 hs⟩
  exact hboth.2 j

end Steps

end SystemsProjects.Monitor
