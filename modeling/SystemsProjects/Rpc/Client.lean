import SystemsProjects.Lib.MachineInt
import SystemsProjects.Rpc.Server

/-!
# The RPC client and the network

`P8/client.c`: the retry loops of `RPC_idle`, `RPC_get` and `RPC_put`, which differ in what they do
with an acknowledgement.  A client, the server and a datagram network form the system `Sys`: every
datagram that was ever sent can be delivered at any time, any number of times or never.  A receive
that times out leaves the packet buffer unwritten, so its contents are arbitrary.
-/

namespace SystemsProjects.Rpc

open MachineInt

def RETRY_COUNT : ℕ := 5

/-- The fields of `struct rpc_connection` that the calls use. -/
structure RpcConnection where
  seqNumber : ℤ
  clientId : ℤ
  deriving DecidableEq, Repr

/-- `RPC_init`, with the client id drawn by `rand() % 100`. -/
def rpcInit (clientId : ℤ) : RpcConnection where
  seqNumber := 1
  clientId := clientId

/-- The three remote calls.  `RPC_get` sends an uninitialised `value` word. -/
inductive Request where
  | idle (time : ℤ)
  | get (key : ℤ) (uninitialised : ℤ)
  | put (key value : ℤ)
  deriving DecidableEq, Repr

/-- `myPayload`, as each call fills it in. -/
def myPayload (rpc : RpcConnection) : Request → Payload
  | .idle time => ⟨1, rpc.clientId, rpc.seqNumber, time, -1, -1, 0, -1⟩
  | .get key junk => ⟨2, rpc.clientId, rpc.seqNumber, -1, key, junk, 0, -1⟩
  | .put key value => ⟨3, rpc.clientId, rpc.seqNumber, -1, key, value, 0, -1⟩

/-- What the body of a retry loop does after `receive_packet_timeout`. -/
inductive Verdict where
  /-- Start the next iteration with this value of `i`; `reset` says whether the body has executed `i = 0`. -/
  | again (i : ℕ) (reset : Bool)
  /-- Leave the call, with the value returned. -/
  | leave (ret : Option ℤ)
  deriving DecidableEq, Repr

/-- The loop body of `RPC_idle`; `i = 0; continue` reaches the next iteration with `i = 1`. -/
def idleBody (i : ℕ) (recvLen : ℤ) (buf : Payload) : Verdict :=
  if buf.ack = 1 then .again 1 true
  else if recvLen = -1 then .again (i + 1) false
  else if buf.ack = 0 then .leave none
  else .again (i + 1) false

/-- The loop body of `RPC_get`: an acknowledgement that carries a result ends the call. -/
def getBody (i : ℕ) (recvLen : ℤ) (buf : Payload) : Verdict :=
  if buf.ack = 1 then
    if buf.returnValue ≠ -1 then .leave (some buf.returnValue) else .again 1 true
  else if recvLen = -1 then .again (i + 1) false
  else if buf.ack = 0 then .leave (some buf.returnValue)
  else .again (i + 1) false

/-- The loop body of `RPC_put`: any acknowledgement ends the call. -/
def putBody (i : ℕ) (recvLen : ℤ) (buf : Payload) : Verdict :=
  if buf.ack = 1 then .leave (some buf.returnValue)
  else if recvLen = -1 then .again (i + 1) false
  else if buf.ack = 0 then .leave (some buf.returnValue)
  else .again (i + 1) false

/-- The loop body of the call that sends `payload`. -/
def loopBody (payload : Payload) (i : ℕ) (recvLen : ℤ) (buf : Payload) : Verdict :=
  if payload.funcType = 1 then idleBody i recvLen buf
  else if payload.funcType = 2 then getBody i recvLen buf
  else putBody i recvLen buf

/-- A call in progress: about to send, or waiting in `receive_packet_timeout`. -/
structure Call where
  payload : Payload
  i : ℕ
  waiting : Bool
  deriving DecidableEq, Repr

structure Sys where
  rpc : RpcConnection
  call : Option Call
  /-- The client process has ended in `exit(1)`. -/
  exited : Bool
  server : Server
  /-- All datagrams the client has sent. -/
  toServer : List Payload
  /-- The payloads of all calls made. -/
  calls : List Payload
  /-- The payloads of the calls that have returned to their caller. -/
  returned : List Payload

def Sys.init (junk : ℤ → Payload) (clientId : ℤ) : Sys where
  rpc := rpcInit clientId
  call := none
  exited := false
  server := Server.init junk
  toServer := []
  calls := []
  returned := []

inductive Event where
  /-- The application makes a call. -/
  | call (req : Request)
  /-- The call in progress sends its payload. -/
  | send
  /-- The call in progress receives a datagram of the server. -/
  | deliver (d : Payload)
  /-- The receive times out; `buf` is what the packet buffer happens to hold. -/
  | timeout (buf : Payload)
  /-- The server receives a datagram of the client. -/
  | serverReceive (p : Payload)
  | work (i : ℕ)
  deriving DecidableEq

/-- The call `c` of `y` has received; a loop that runs out of retries returns from `RPC_idle` and
ends the process in `RPC_get` and `RPC_put`. -/
def afterReceive (y : Sys) (c : Call) (recvLen : ℤ) (buf : Payload) : Sys :=
  match loopBody c.payload c.i recvLen buf with
  | .leave _ => { y with call := none, returned := y.returned ++ [c.payload] }
  | .again i _ =>
    if i < RETRY_COUNT then { y with call := some { c with i := i, waiting := false } }
    else if c.payload.funcType = 1 then
      { y with call := none, returned := y.returned ++ [c.payload] }
    else { y with exited := true }

/-- An action of the call in progress, if the client is alive and at that point of its loop. -/
def inCall (y : Sys) (waiting : Bool) (f : Call → Sys) : Option Sys :=
  match y.call with
  | some c => if y.exited = false ∧ c.waiting = waiting then some (f c) else none
  | none => none

def step (y : Sys) : Event → Option Sys
  | .call req =>
    if y.exited = false ∧ y.call = none then
      some { y with
        call := some ⟨myPayload y.rpc req, 0, false⟩
        calls := y.calls ++ [myPayload y.rpc req]
        rpc := { y.rpc with seqNumber := toInt32 (y.rpc.seqNumber + 1) } }
    else none
  | .send => inCall y false fun c =>
      { y with call := some { c with waiting := true }, toServer := y.toServer ++ [c.payload] }
  | .deliver d =>
    if d ∈ y.server.sent then inCall y true fun c => afterReceive y c 32 d else none
  | .timeout buf => inCall y true fun c => afterReceive y c (-1) buf
  | .serverReceive p =>
    if p ∈ y.toServer then (mainLoop y.server p).map fun s => { y with server := s } else none
  | .work i => (work y.server i).map fun s => { y with server := s }

end SystemsProjects.Rpc
