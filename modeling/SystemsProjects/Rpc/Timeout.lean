import SystemsProjects.Rpc.Client

/-!
# Receives that time out

The three retry loops on their own: `receive_packet_timeout` returns a datagram or times out, in any
order, and after a timeout the packet buffer, which nobody has written, holds anything.  The loops test
the `ack` word of the buffer before they test `recv_len`, so a timeout is ignored exactly when that word
is not 1 (`timeoutSafe_iff`).
-/

namespace SystemsProjects.Rpc

/-- What `receive_packet_timeout` returns. -/
inductive Receive where
  | datagram (recvLen : ℕ) (buf : Payload)
  /-- `recvfrom` has returned -1; `buf` is what the packet buffer happens to hold. -/
  | timeout (buf : Payload)
  deriving DecidableEq

def Receive.recvLen : Receive → ℤ
  | .datagram n _ => n
  | .timeout _ => -1

def Receive.buf : Receive → Payload
  | .datagram _ buf | .timeout buf => buf

def Receive.IsTimeout : Receive → Prop
  | .datagram _ _ => False
  | .timeout _ => True

/-- An iteration that goes on to the next one, with the next value of `i`. -/
def iterate (payload : Payload) (i : ℕ) (r : Receive) : Option ℕ :=
  if i < RETRY_COUNT then
    match loopBody payload i r.recvLen r.buf with
    | .again j _ => some j
    | .leave _ => none
  else none

/-- The value the call returns, if the receives make its loop return one. -/
def retryLoop (payload : Payload) (i : ℕ) : List Receive → Option (Option ℤ)
  | [] => none
  | r :: rs =>
    if i < RETRY_COUNT then
      match loopBody payload i r.recvLen r.buf with
      | .again j _ => retryLoop payload j rs
      | .leave ret => some ret
    else none

/-- An iteration that times out neither leaves the loop nor resets the counter. -/
def TimeoutIgnored (payload : Payload) (i : ℕ) (r : Receive) : Prop :=
  i < RETRY_COUNT → r.IsTimeout → ∃ j, loopBody payload i r.recvLen r.buf = .again j false

/-- No iteration of the call takes a timeout for a reply, and the call returns only if it has received a
datagram. -/
structure TimeoutSafe (payload : Payload) (rs : List Receive) : Prop where
  ignored : Trace.Along (iterate payload) (TimeoutIgnored payload) 0 rs
  received : ∀ ret, retryLoop payload 0 rs = some ret → ∃ r ∈ rs, ¬ r.IsTimeout

/-- The `ack` word of the buffer is not 1 after a timeout. -/
def AckClear (i : ℕ) (r : Receive) : Prop := i < RETRY_COUNT → r.IsTimeout → r.buf.ack ≠ 1

/-! ## The loop bodies -/

/-- With another `ack` word every loop body goes on to the next iteration. -/
theorem loopBody_timeout {payload buf : Payload} (i : ℕ) (hack : buf.ack ≠ 1) :
    loopBody payload i (-1) buf = .again (i + 1) false := by
  unfold loopBody idleBody getBody putBody
  simp only [if_neg hack, if_true, ite_self]

/-- With `ack` 1 each loop body resets the counter or leaves the loop. -/
theorem loopBody_ack (rpc : RpcConnection) (req : Request) {buf : Payload} (i : ℕ) (recvLen : ℤ)
    (hack : buf.ack = 1) :
    loopBody (myPayload rpc req) i recvLen buf = .again 1 true ∨
      ∃ ret, loopBody (myPayload rpc req) i recvLen buf = .leave ret := by
  cases req with
  | idle time =>
    left
    simp [loopBody, myPayload, idleBody, hack]
  | get key junk =>
    by_cases hret : buf.returnValue = -1
    · left
      simp [loopBody, myPayload, getBody, hack, hret]
    · refine Or.inr ⟨some buf.returnValue, ?_⟩
      simp [loopBody, myPayload, getBody, hack, hret]
  | put key value =>
    refine Or.inr ⟨some buf.returnValue, ?_⟩
    simp [loopBody, myPayload, putBody, hack]

theorem timeoutIgnored_iff (rpc : RpcConnection) (req : Request) (i : ℕ) (r : Receive) :
    TimeoutIgnored (myPayload rpc req) i r ↔ AckClear i r := by
  unfold TimeoutIgnored AckClear
  refine imp_congr_right fun _ => imp_congr_right fun htimeout => ?_
  cases r with
  | datagram n buf => exact htimeout.elim
  | timeout buf =>
    constructor
    · rintro ⟨j, hj⟩ hack
      obtain h | ⟨ret, h⟩ := loopBody_ack rpc req i (-1) hack
      · exact absurd (h.symm.trans hj) (by simp)
      · exact absurd (h.symm.trans hj) (by simp)
    · exact fun hack => ⟨i + 1, loopBody_timeout i hack⟩

/-! ## The loops -/

/-- A loop that ignores timeouts returns on a datagram. -/
theorem exists_datagram {payload : Payload} {i : ℕ} {rs : List Receive}
    (h : Trace.Along (iterate payload) (TimeoutIgnored payload) i rs) {ret : Option ℤ}
    (hret : retryLoop payload i rs = some ret) : ∃ r ∈ rs, ¬ r.IsTimeout := by
  induction rs generalizing i with
  | nil => cases hret
  | cons r rs ih =>
    rw [retryLoop] at hret
    split_ifs at hret with hi
    by_cases htimeout : r.IsTimeout
    · obtain ⟨j, hj⟩ := h.1 hi htimeout
      rw [hj] at hret
      have hnext : iterate payload i r = some j := by
        unfold iterate
        rw [if_pos hi, hj]
      obtain ⟨r', hr', hdatagram⟩ := ih (h.2 j hnext) hret
      exact ⟨r', List.mem_cons_of_mem r hr', hdatagram⟩
    · exact ⟨r, List.mem_cons_self, htimeout⟩

/-- A timeout is never taken for a reply exactly when, in every iteration that times out, the `ack` word
of the packet buffer is not 1. -/
theorem timeoutSafe_iff (rpc : RpcConnection) (req : Request) (rs : List Receive) :
    TimeoutSafe (myPayload rpc req) rs ↔ Trace.Along (iterate (myPayload rpc req)) AckClear 0 rs := by
  rw [← Trace.along_congr (iterate (myPayload rpc req)) (timeoutIgnored_iff rpc req) 0 rs]
  exact ⟨fun h => h.ignored, fun h => ⟨h, fun _ hret => exists_datagram h hret⟩⟩

/-- `RPC_get(5)` times out while the buffer holds an acknowledgement of an earlier call with the value 9,
and returns 9. -/
theorem not_timeoutSafe_staleAck :
    retryLoop (myPayload ⟨2, 7⟩ (.get 5 0)) 0 [.timeout ⟨2, 7, 1, -1, 6, 0, 1, 9⟩] = some (some 9) ∧
      ¬ TimeoutSafe (myPayload ⟨2, 7⟩ (.get 5 0)) [.timeout ⟨2, 7, 1, -1, 6, 0, 1, 9⟩] := by
  have hret : retryLoop (myPayload ⟨2, 7⟩ (.get 5 0)) 0 [.timeout ⟨2, 7, 1, -1, 6, 0, 1, 9⟩] = some (some 9) := by
    decide
  refine ⟨hret, fun h => ?_⟩
  obtain ⟨r, hr, hdatagram⟩ := h.received _ hret
  rw [List.mem_singleton.1 hr] at hdatagram
  exact hdatagram trivial

end SystemsProjects.Rpc
