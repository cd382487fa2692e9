import Mathlib.Data.List.Induction
import SystemsProjects.Rpc.Timeout

/-!
# The retry budget

A call gives up when its loop counter reaches `RETRY_COUNT`.  The counter is set to 0 in the body of the
loop and incremented in its header, so after an acknowledgement it is one ahead of the number of timeouts,
and four of them end the call.  `retryBudget_iff` says for which sequences of receives the call gives up
exactly after five timeouts in a row.
-/

namespace SystemsProjects.Rpc

/-- A call after a number of receives. -/
inductive Status where
  | running (i : ℕ)
  | returned (ret : Option ℤ)
  | gaveUp
  deriving DecidableEq

/-- One iteration of the retry loop. -/
def receiveStep (payload : Payload) : Status → Receive → Status
  | .running i, r =>
    match loopBody payload i r.recvLen r.buf with
    | .leave ret => .returned ret
    | .again j _ => if j < RETRY_COUNT then .running j else .gaveUp
  | .returned ret, _ => .returned ret
  | .gaveUp, _ => .gaveUp

def status (payload : Payload) (rs : List Receive) : Status :=
  rs.foldl (receiveStep payload) (.running 0)

/-- Timeouts are recognised by `recv_len`, since the `ack` word is not 1 then; in a datagram of the server it
is 0 or 1. -/
def Receive.Recognised : Receive → Prop
  | .datagram _ buf => buf.ack = 0 ∨ buf.ack = 1
  | .timeout buf => buf.ack ≠ 1

/-- An acknowledgement without a result: any for `RPC_idle`, and for `RPC_get` one that carries -1. -/
def AckOnly (payload buf : Payload) : Prop :=
  buf.ack = 1 ∧ (payload.funcType = 1 ∨ payload.funcType = 2 ∧ buf.returnValue = -1)

/-- A final reply: a datagram that is not an acknowledgement without a result. -/
def Receive.IsReply (payload : Payload) (r : Receive) : Prop :=
  ¬ r.IsTimeout ∧ ¬ AckOnly payload r.buf

def countLost (n : ℕ) : Receive → ℕ
  | .datagram _ _ => 0
  | .timeout _ => n + 1

/-- The sends that have timed out since the call began or since the last datagram. -/
def lostSends (rs : List Receive) : ℕ := rs.foldl countLost 0

/-- A call that is running gives up at a receive exactly if this is the `RETRY_COUNT`th timeout in a
row. -/
def RetryBudget (payload : Payload) (rs : List Receive) : Prop :=
  ∀ p r, p ++ [r] <+: rs → ∀ i, status payload p = .running i →
    (status payload (p ++ [r]) = .gaveUp ↔ lostSends (p ++ [r]) = RETRY_COUNT)

/-- There has been no reply, but an acknowledgement before the budget was used up, and now
`RETRY_COUNT - 1` timeouts in a row. -/
structure CutShort (payload : Payload) (p : List Receive) : Prop where
  noReply : ∀ r ∈ p, ¬ r.IsReply payload
  acknowledged : ∃ r ∈ p.take RETRY_COUNT, ¬ r.IsTimeout
  lost : lostSends p = RETRY_COUNT - 1

/-! ## One receive -/

variable {payload : Payload} {p rs : List Receive} {r : Receive} {i : ℕ}

theorem status_append (payload : Payload) (p : List Receive) (r : Receive) :
    status payload (p ++ [r]) = receiveStep payload (status payload p) r := by
  unfold status
  rw [List.foldl_append, List.foldl_cons, List.foldl_nil]

theorem lostSends_append (p : List Receive) (r : Receive) :
    lostSends (p ++ [r]) = countLost (lostSends p) r := by
  unfold lostSends
  rw [List.foldl_append, List.foldl_cons, List.foldl_nil]

theorem lostSends_timeout (p : List Receive) (hr : r.IsTimeout) : lostSends (p ++ [r]) = lostSends p + 1 := by
  rw [lostSends_append]
  cases r with
  | datagram n buf => exact hr.elim
  | timeout buf => rfl

theorem lostSends_datagram (p : List Receive) (hr : ¬ r.IsTimeout) : lostSends (p ++ [r]) = 0 := by
  rw [lostSends_append]
  cases r with
  | datagram n buf => rfl
  | timeout buf => exact absurd trivial hr

/-- The value of a call is the one its loop returns. -/
theorem status_eq_returned_iff (payload : Payload) (rs : List Receive) (ret : Option ℤ) :
    status payload rs = .returned ret ↔ retryLoop payload 0 rs = some ret := by
  have hstuck : ∀ (s : Status) (l : List Receive), (∀ r, receiveStep payload s r = s) →
      l.foldl (receiveStep payload) s = s := by
    intro s l hs
    induction l with
    | nil => rfl
    | cons r l ih => rw [List.foldl_cons, hs, ih]
  have hloop : ∀ i < RETRY_COUNT,
      rs.foldl (receiveStep payload) (.running i) = .returned ret ↔ retryLoop payload i rs = some ret := by
    induction rs with
    | nil => exact fun i _ => iff_of_false (fun h => by cases h) (fun h => by cases h)
    | cons r rs ih =>
      intro i hi
      rw [List.foldl_cons, receiveStep, retryLoop, if_pos hi]
      cases loopBody payload i r.recvLen r.buf with
      | leave ret' =>
        simp only [hstuck (.returned ret') rs fun _ => rfl]
        rw [Status.returned.injEq, Option.some.injEq]
      | again j _ =>
        simp only
        split_ifs with hj
        · exact ih j hj
        · rw [hstuck .gaveUp rs fun _ => rfl]
          have hend : retryLoop payload j rs = none := by
            cases rs with
            | nil => rfl
            | cons r' rs => rw [retryLoop, if_neg hj]
          rw [hend]
          exact iff_of_false (fun h => by cases h) (fun h => by cases h)
  exact hloop 0 (by decide)

/-- The counter is reset by the acknowledgements without a result. -/
theorem loopBody_reset_iff (rpc : RpcConnection) (req : Request) (i : ℕ) (recvLen : ℤ) (buf : Payload) :
    loopBody (myPayload rpc req) i recvLen buf = .again 1 true ↔ AckOnly (myPayload rpc req) buf := by
  by_cases hack : buf.ack = 1
  · cases req with
    | idle time => simp [loopBody, myPayload, idleBody, AckOnly, hack]
    | get key junk => simp [loopBody, myPayload, getBody, AckOnly, hack]
    | put key value => simp [loopBody, myPayload, putBody, AckOnly, hack]
  · refine iff_of_false (fun h => ?_) fun h => hack h.1
    revert h
    unfold loopBody idleBody getBody putBody
    simp only [if_neg hack]
    split_ifs <;> simp

/-- What a receive does to a call that is running. -/
theorem receive_cases (rpc : RpcConnection) (req : Request) (i : ℕ) (hr : r.Recognised) :
    (r.IsTimeout ∧ receiveStep (myPayload rpc req) (.running i) r =
        if i + 1 < RETRY_COUNT then .running (i + 1) else .gaveUp) ∨
      (¬ r.IsTimeout ∧ ¬ r.IsReply (myPayload rpc req) ∧
        receiveStep (myPayload rpc req) (.running i) r = .running 1) ∨
      (r.IsReply (myPayload rpc req) ∧
        ∃ ret, receiveStep (myPayload rpc req) (.running i) r = .returned ret) := by
  cases r with
  | timeout buf =>
    refine Or.inl ⟨trivial, ?_⟩
    unfold receiveStep
    simp only [Receive.recvLen, Receive.buf, loopBody_timeout i hr]
  | datagram n buf =>
    right
    have hlen : ((n : ℤ) = -1) = False := eq_false (by omega)
    by_cases hreset : AckOnly (myPayload rpc req) buf
    · refine Or.inl ⟨id, fun hreply => hreply.2 hreset, ?_⟩
      have hbody := (loopBody_reset_iff rpc req i n buf).2 hreset
      unfold receiveStep
      simp only [Receive.recvLen, Receive.buf, hbody]
      rfl
    · refine Or.inr ⟨⟨id, hreset⟩, ?_⟩
      have hleave : ∃ ret, loopBody (myPayload rpc req) i n buf = .leave ret := by
        rcases hr with hack | hack
        · cases req <;>
            simp [loopBody, myPayload, idleBody, getBody, putBody, hack, hlen]
        · exact (loopBody_ack rpc req i n hack).resolve_left (mt (loopBody_reset_iff rpc req i n buf).1 hreset)
      obtain ⟨ret, hret⟩ := hleave
      refine ⟨ret, ?_⟩
      unfold receiveStep
      simp only [Receive.recvLen, Receive.buf, hret]

/-! ## The counter -/

/-- Without an acknowledgement the counter is the number of timeouts, after one it is one ahead. -/
structure CounterAt (payload : Payload) (p : List Receive) (i : ℕ) : Prop where
  lt : i < RETRY_COUNT
  noReply : ∀ r ∈ p, ¬ r.IsReply payload
  counter : (∀ r ∈ p, r.IsTimeout) ∧ i = p.length ∧ lostSends p = p.length ∨
    (∃ r ∈ p.take RETRY_COUNT, ¬ r.IsTimeout) ∧ i = lostSends p + 1

theorem forall_mem_append_singleton {α : Type*} {l : List α} {a : α} {q : α → Prop}
    (hl : ∀ x ∈ l, q x) (ha : q a) : ∀ x ∈ l ++ [a], q x := by
  intro x hx
  rcases List.mem_append.1 hx with hx | hx
  · exact hl x hx
  · rwa [List.mem_singleton.1 hx]

theorem mem_take_append {α : Type*} {l : List α} {a x : α} {n : ℕ} (h : x ∈ l.take n) :
    x ∈ (l ++ [a]).take n := by
  rw [List.take_append]
  exact List.mem_append_left _ h

theorem counterAt_nil (payload : Payload) : CounterAt payload [] 0 :=
  ⟨by decide, fun _ h => absurd h List.not_mem_nil,
    Or.inl ⟨fun _ h => absurd h List.not_mem_nil, rfl, rfl⟩⟩

/-- The counter after a timeout. -/
theorem CounterAt.timeout (h : CounterAt payload p i) (hr : r.IsTimeout)
    (hi : i + 1 < RETRY_COUNT) : CounterAt payload (p ++ [r]) (i + 1) := by
  have hlost := lostSends_timeout p hr
  refine ⟨hi, forall_mem_append_singleton h.noReply fun hreply => hreply.1 hr, ?_⟩
  rcases h.counter with ⟨hall, hlen, hcount⟩ | ⟨⟨a, ha, hack⟩, hcount⟩
  · refine Or.inl ⟨forall_mem_append_singleton hall hr, ?_, ?_⟩
    · rw [List.length_append, List.length_singleton, hlen]
    · rw [hlost, List.length_append, List.length_singleton, hcount]
  · refine Or.inr ⟨⟨a, mem_take_append ha, hack⟩, ?_⟩
    rw [hlost, hcount]

/-- The counter after an acknowledgement. -/
theorem CounterAt.acknowledgement (h : CounterAt payload p i) (hr : ¬ r.IsTimeout)
    (hreply : ¬ r.IsReply payload) : CounterAt payload (p ++ [r]) 1 := by
  refine ⟨by decide, forall_mem_append_singleton h.noReply hreply, Or.inr ⟨?_, ?_⟩⟩
  · rcases h.counter with ⟨-, hlen, -⟩ | ⟨⟨a, ha, hack⟩, -⟩
    · -- The first acknowledgement comes before the budget is used up.
      have hlt : p.length + 1 ≤ RETRY_COUNT := hlen ▸ h.lt
      refine ⟨r, ?_, hr⟩
      rw [List.take_of_length_le (by rwa [List.length_append, List.length_singleton])]
      exact List.mem_append_right p (List.mem_singleton_self r)
    · exact ⟨a, mem_take_append ha, hack⟩
  · rw [lostSends_datagram p hr]

variable (rpc : RpcConnection) (req : Request)

theorem counterAt_of_running (hrs : ∀ r ∈ rs, r.Recognised) (i : ℕ)
    (h : status (myPayload rpc req) rs = .running i) : CounterAt (myPayload rpc req) rs i := by
  induction rs using List.reverseRecOn generalizing i with
  | nil =>
    obtain rfl := Status.running.inj h
    exact counterAt_nil _
  | append_singleton p r ih =>
    rw [status_append] at h
    cases hp : status (myPayload rpc req) p with
    | returned ret =>
      rw [hp] at h
      cases h
    | gaveUp =>
      rw [hp] at h
      cases h
    | running j =>
      rw [hp] at h
      have hcounter := ih (fun r hr => hrs r (List.mem_append_left _ hr)) j hp
      have hr := hrs r (List.mem_append_right p (List.mem_singleton_self r))
      rcases receive_cases rpc req j hr with ⟨htimeout, hstep⟩ | ⟨hdatagram, hreply, hstep⟩ |
        ⟨-, ret, hstep⟩
      · rw [hstep] at h
        split_ifs at h with hj
        · obtain rfl := Status.running.inj h
          exact hcounter.timeout htimeout hj
      · rw [hstep] at h
        obtain rfl := Status.running.inj h
        exact hcounter.acknowledgement hdatagram hreply
      · rw [hstep] at h
        cases h

/-! ## When the call ends -/

/-- A call that has given up did so at some receive. -/
theorem exists_giving_up (payload : Payload) (rs : List Receive) (h : status payload rs = .gaveUp) :
    ∃ p r i, p ++ [r] <+: rs ∧ status payload p = .running i ∧ status payload (p ++ [r]) = .gaveUp := by
  induction rs using List.reverseRecOn with
  | nil => cases h
  | append_singleton p r ih =>
    cases hp : status payload p with
    | running i => exact ⟨p, r, i, List.prefix_refl _, hp, h⟩
    | returned ret =>
      rw [status_append, hp] at h
      cases h
    | gaveUp =>
      obtain ⟨q, r', i, hq, hrun, hend⟩ := ih hp
      exact ⟨q, r', i, hq.trans (List.prefix_append p [r]), hrun, hend⟩

/-- A call that has returned has received a reply. -/
theorem exists_reply (hrs : ∀ r ∈ rs, r.Recognised) (ret : Option ℤ)
    (h : status (myPayload rpc req) rs = .returned ret) : ∃ r ∈ rs, r.IsReply (myPayload rpc req) := by
  induction rs using List.reverseRecOn with
  | nil => cases h
  | append_singleton p r ih =>
    have hr := hrs r (List.mem_append_right p (List.mem_singleton_self r))
    rw [status_append] at h
    cases hp : status (myPayload rpc req) p with
    | gaveUp =>
      rw [hp] at h
      cases h
    | returned ret' =>
      rw [hp] at h
      obtain rfl := Status.returned.inj h
      obtain ⟨a, ha, hreply⟩ := ih (fun r hr => hrs r (List.mem_append_left _ hr)) hp
      exact ⟨a, List.mem_append_left _ ha, hreply⟩
    | running i =>
      rw [hp] at h
      rcases receive_cases rpc req i hr with ⟨-, hstep⟩ | ⟨-, -, hstep⟩ | ⟨hreply, -⟩
      · rw [hstep] at h
        split_ifs at h
      · rw [hstep] at h
        cases h
      · exact ⟨r, List.mem_append_right p (List.mem_singleton_self r), hreply⟩

/-- A call gives up at a timeout when the counter is at its last value. -/
theorem gaveUp_append_iff (hr : r.Recognised) (h : CounterAt (myPayload rpc req) p i)
    (hp : status (myPayload rpc req) p = .running i) :
    status (myPayload rpc req) (p ++ [r]) = .gaveUp ↔ r.IsTimeout ∧ i + 1 = RETRY_COUNT := by
  have hlt := h.lt
  rw [status_append, hp]
  rcases receive_cases rpc req i hr with ⟨htimeout, hstep⟩ | ⟨hdatagram, -, hstep⟩ |
    ⟨hreply, ret, hstep⟩
  · rw [hstep]
    split_ifs with hi
    · exact iff_of_false (fun h => by cases h) fun h => absurd h.2 (Nat.ne_of_lt hi)
    · exact iff_of_true rfl ⟨htimeout, by omega⟩
  · rw [hstep]
    exact iff_of_false (fun h => by cases h) fun h => hdatagram h.1
  · rw [hstep]
    exact iff_of_false (fun h => by cases h) fun h => hreply.1 h.1

/-- Where the budget is kept unless an acknowledgement has made the counter run ahead. -/
theorem gaveUp_iff_lostSends (hr : r.Recognised) (h : CounterAt (myPayload rpc req) p i)
    (hp : status (myPayload rpc req) p = .running i) (hcut : ¬ CutShort (myPayload rpc req) (p ++ [r])) :
    status (myPayload rpc req) (p ++ [r]) = .gaveUp ↔ lostSends (p ++ [r]) = RETRY_COUNT := by
  rw [gaveUp_append_iff rpc req hr h hp]
  have hlt := h.lt
  by_cases htimeout : r.IsTimeout
  · have hlost := lostSends_timeout p htimeout
    rw [hlost]
    rcases h.counter with ⟨-, hlen, hcount⟩ | ⟨⟨a, ha, hack⟩, hcount⟩
    · rw [hlen, hcount]
      exact ⟨fun h => h.2, fun h => ⟨htimeout, h⟩⟩
    · have hfour : lostSends (p ++ [r]) ≠ RETRY_COUNT - 1 := fun hfour =>
        hcut ⟨forall_mem_append_singleton h.noReply fun hreply => hreply.1 htimeout,
          ⟨a, mem_take_append ha, hack⟩, hfour⟩
      unfold RETRY_COUNT at *
      constructor
      · rintro ⟨-, hi⟩
        omega
      · intro hfive
        omega
  · rw [lostSends_datagram p htimeout]
    exact iff_of_false (fun h => htimeout h.1) (by decide)

/-- A call that is cut short has given up with one try left. -/
theorem CutShort.not_retryBudget (h : CutShort (myPayload rpc req) p) (hpre : p <+: rs)
    (hrs : ∀ r ∈ rs, r.Recognised) : ¬ RetryBudget (myPayload rpc req) rs := by
  intro hbudget
  have hp : ∀ r ∈ p, r.Recognised := fun r hr => hrs r (hpre.subset hr)
  obtain ⟨a, ha, hack⟩ := h.acknowledged
  cases hstatus : status (myPayload rpc req) p with
  | returned ret =>
    obtain ⟨r, hr, hreply⟩ := exists_reply rpc req hp ret hstatus
    exact h.noReply r hr hreply
  | running i =>
    have hcounter := counterAt_of_running rpc req hp i hstatus
    have hlt := hcounter.lt
    rcases hcounter.counter with ⟨hall, -⟩ | ⟨-, hcount⟩
    · exact hack (hall a (List.mem_of_mem_take ha))
    · rw [h.lost] at hcount
      unfold RETRY_COUNT at *
      omega
  | gaveUp =>
    obtain ⟨q, r, i, hq, hrun, hend⟩ := exists_giving_up _ p hstatus
    have hcounter := counterAt_of_running rpc req
      (fun r hr => hp r (hq.subset (List.mem_append_left _ hr))) i hrun
    have hr := hp r (hq.subset (List.mem_append_right q (List.mem_singleton_self r)))
    obtain ⟨htimeout, hi⟩ := (gaveUp_append_iff rpc req hr hcounter hrun).1 hend
    have hlost := (hbudget q r (hq.trans hpre) i hrun).1 hend
    rw [lostSends_timeout q htimeout] at hlost
    rcases hcounter.counter with ⟨hall, hlen, -⟩ | ⟨-, hcount⟩
    · -- The first five receives are timeouts, so the acknowledgement comes too late.
      have hfirst : p.take RETRY_COUNT = q ++ [r] := by
        have hfive : RETRY_COUNT = (q ++ [r]).length := by
          rw [List.length_append, List.length_singleton, ← hlen, hi]
        rw [hfive]
        exact (List.prefix_iff_eq_take.1 hq).symm
      rw [hfirst] at ha
      exact hack (forall_mem_append_singleton hall htimeout a ha)
    · rw [hcount] at hi
      omega

/-- For every call and every sequence of timeouts, acknowledgements and replies: the call gives up exactly at
five timeouts in a row if and only if no acknowledgement is followed by four of them, before a reply and
before the budget is used up. -/
theorem retryBudget_iff (hrs : ∀ r ∈ rs, r.Recognised) :
    RetryBudget (myPayload rpc req) rs ↔ ∀ p, p <+: rs → ¬ CutShort (myPayload rpc req) p := by
  constructor
  · exact fun hbudget p hp hcut => hcut.not_retryBudget rpc req hp hrs hbudget
  · intro hcut p r hp i hrun
    have hcounter := counterAt_of_running rpc req
      (fun r hr => hrs r (hp.subset (List.mem_append_left _ hr))) i hrun
    have hr := hrs r (hp.subset (List.mem_append_right p (List.mem_singleton_self r)))
    exact gaveUp_iff_lostSends rpc req hr hcounter hrun (hcut _ hp)

/-- An acknowledgement of `RPC_get(5)` without a result. -/
def pendingAck : Payload := { getFive with ack := 1 }

/-- After an acknowledgement and four timeouts `RPC_get` gives up. -/
theorem not_retryBudget_four :
    ¬ RetryBudget (myPayload ⟨2, 7⟩ (.get 5 0)) (.datagram 32 pendingAck ::
      List.replicate 4 (.timeout (zeros 0))) := by
  intro h
  have hlast := h (.datagram 32 pendingAck :: List.replicate 3 (.timeout (zeros 0)))
    (.timeout (zeros 0)) (List.prefix_refl _) 4 (by decide)
  exact absurd hlast (by decide)

theorem retryBudget_iff_five : (∀ r ∈ List.replicate 5 (Receive.timeout (zeros 0)), r.Recognised) ∧
    (RetryBudget (myPayload ⟨2, 7⟩ (.get 5 0)) (List.replicate 5 (.timeout (zeros 0))) ↔
      ∀ p, p <+: List.replicate 5 (.timeout (zeros 0)) →
        ¬ CutShort (myPayload ⟨2, 7⟩ (.get 5 0)) p) := by
  have hrs : ∀ r ∈ List.replicate 5 (Receive.timeout (zeros 0)), r.Recognised := by
    intro r hr
    rw [List.eq_of_mem_replicate hr]
    show (zeros 0).ack ≠ 1
    decide
  exact ⟨hrs, retryBudget_iff ⟨2, 7⟩ (.get 5 0) hrs⟩

end SystemsProjects.Rpc
