import DistributedLabs.TransitionRuns
import Mathlib.Data.Int.Notation
import Mathlib.Logic.Function.Basic
import Mathlib.Tactic.SplitIfs

/-!
# The single key/value server `kvsrv`

The server, its clerks, and a network that may lose, delay and repeat requests and
replies. A clerk asks for a client id with its first `Put` or `Append`; the request
that asks for one changes no key. From then on the server knows a request by the
client id and a transaction id, and keeps for each client the next transaction id and
the value before the client's last `Append`.
-/

namespace DistributedLabs.Kvsrv
open TransitionRuns

structure ClientAckTime where
  ackID : ℕ
  valueBuffer : String
  deriving DecidableEq

structure KVServer where
  keyValue : String → Option String
  ackTime : List ClientAckTime
  lenAckTime : ℕ

/-- The arguments of `Put` and `Append`; those of `Get` have no value. -/
structure Args where
  key : String
  value : String
  clientId : ℤ
  transactionId : ℕ
  deriving DecidableEq

/-- The replies of all three have the same fields. -/
structure Reply where
  value : String
  clientId : ℤ
  ackId : ℕ
  deriving DecidableEq

/-- A reply before anything was decoded into it. -/
def Reply.zero : Reply := ⟨"", 0, 0⟩

/-- A field that is zero is not sent, so decoding leaves the old value in place. -/
def Reply.decodeInto (old new : Reply) : Reply where
  value := if new.value = "" then old.value else new.value
  clientId := if new.clientId = 0 then old.clientId else new.clientId
  ackId := if new.ackId = 0 then old.ackId else new.ackId

/-- What a handler leaves: the server, the reply, and the assignment to the map that it made. -/
structure Handled where
  server : KVServer
  reply : Reply
  write : Option (String × String)

namespace KVServer

def start : KVServer := ⟨fun _ => none, [], 0⟩

/-- The value of a key that is missing is the empty string. -/
def value (kv : KVServer) (key : String) : String := (kv.keyValue key).getD ""

def newClient (kv : KVServer) (transactionId : ℕ) : KVServer × ℕ :=
  ({ kv with
    lenAckTime := 1 + kv.lenAckTime
    ackTime := kv.ackTime ++ [⟨transactionId, ""⟩] }, kv.lenAckTime)

/-- An index that is out of range makes the server panic. -/
def slot (kv : KVServer) (clientId : ℤ) : Option ClientAckTime :=
  if clientId < 0 then none else kv.ackTime[clientId.toNat]?

def get (kv : KVServer) (args : Args) : Reply := ⟨kv.value args.key, args.clientId, 0⟩

/-- `Put` and `Append` differ in what they keep for the client and in what they write. -/
def putAppend (keep : ClientAckTime → String → String) (combine : String → String → String)
    (kv : KVServer) (args : Args) : Option Handled :=
  if args.clientId = -1 then
    let client := kv.newClient args.transactionId
    some ⟨client.1, ⟨"", client.2, args.transactionId⟩, none⟩
  else
    (kv.slot args.clientId).map fun client =>
      if args.transactionId = client.ackID then
        let new := combine (kv.value args.key) args.value
        ⟨{ kv with
            ackTime := kv.ackTime.set args.clientId.toNat
              ⟨1 + client.ackID, keep client (kv.value args.key)⟩
            keyValue := Function.update kv.keyValue args.key (some new) },
          ⟨kv.value args.key, args.clientId, 1 + client.ackID⟩, some (args.key, new)⟩
      else ⟨kv, ⟨client.valueBuffer, args.clientId, client.ackID⟩, none⟩

def put : KVServer → Args → Option Handled :=
  putAppend (fun client _ => client.valueBuffer) fun _ new => new

def append : KVServer → Args → Option Handled :=
  putAppend (fun _ value => value) fun value new => value ++ new

end KVServer

inductive Op
  | get
  | put
  | append
  deriving DecidableEq

/-- The method of the server that a request names. -/
def KVServer.serve (kv : KVServer) (args : Args) : Op → Option Handled
  | .get => some ⟨kv, kv.get args, none⟩
  | .put => kv.put args
  | .append => kv.append args

structure Clerk where
  clientId : ℤ
  transactionId : ℕ

def makeClerk : Clerk := ⟨-1, 0⟩

inductive Phase
  | sending
  | waiting (attempt : ℕ)
  | returned (value : String)
  deriving DecidableEq

/-- A call of `Get`, `Put` or `Append`. -/
structure Call where
  clerk : ℕ
  op : Op
  args : Args
  reply : Reply
  phase : Phase
  /-- history: how many writes there were when the call was made -/
  started : ℕ
  /-- history: how many there were when it returned -/
  finished : ℕ
  /-- history: the writes that its requests have made -/
  writes : List ℕ

/-- A request that was sent. It may reach the server at any time, any number of times or never. -/
structure Attempt where
  call : ℕ
  op : Op
  args : Args

/-- An assignment to the map. -/
structure Write where
  key : String
  before : String
  after : String

structure World where
  server : KVServer
  clerks : ℕ → Clerk
  calls : List Call
  attempts : List Attempt
  /-- the replies that were sent, and to which request -/
  replies : List (ℕ × Reply)
  history : List Write
  /-- history: for each client id the clerk whose request asked for it -/
  registered : List ℕ

inductive Action
  | invoke (k : ℕ) (op : Op) (key value : String)
  | send (c : ℕ)
  /-- the call of the RPC returns false -/
  | giveUp (c : ℕ)
  | deliver (a : ℕ)
  | receive (c : ℕ) (r : ℕ)

def Call.Returned (call : Call) : Prop := ∃ value, call.phase = .returned value

instance (call : Call) : Decidable call.Returned :=
  match h : call.phase with
  | .returned value => .isTrue ⟨value, h⟩
  | .sending => .isFalse fun ⟨_, hv⟩ => by cases h.symm.trans hv
  | .waiting _ => .isFalse fun ⟨_, hv⟩ => by cases h.symm.trans hv

namespace World

def init : World := ⟨.start, fun _ => makeClerk, [], [], [], [], []⟩

def setCall (w : World) (c : ℕ) (call : Call) : World := { w with calls := w.calls.set c call }

/-- A clerk makes one call at a time. -/
def invoke (w : World) (k : ℕ) (op : Op) (key value : String) : Option World :=
  if ∀ call ∈ w.calls, call.clerk = k → call.Returned then
    some { w with calls := w.calls ++
      [⟨k, op, ⟨key, value, (w.clerks k).clientId, (w.clerks k).transactionId⟩, .zero, .sending,
        w.history.length, 0, []⟩] }
  else none

def send (w : World) (c : ℕ) : Option World := do
  let call ← w.calls[c]?
  match call.phase with
  | .sending => pure { w.setCall c { call with phase := .waiting w.attempts.length } with
      attempts := w.attempts ++ [⟨c, call.op, call.args⟩] }
  | _ => none

def giveUp (w : World) (c : ℕ) : Option World := do
  let call ← w.calls[c]?
  match call.phase with
  | .waiting _ => pure (w.setCall c { call with phase := .sending })
  | _ => none

/-- A request reaches the server, and a reply is sent. -/
def deliver (w : World) (a : ℕ) : Option World := do
  let attempt ← w.attempts[a]?
  let call ← w.calls[attempt.call]?
  let handled ← w.server.serve attempt.args attempt.op
  let replies := w.replies ++ [(a, handled.reply)]
  match handled.write with
  | some (key, new) =>
    pure { w.setCall attempt.call { call with writes := call.writes ++ [w.history.length] } with
      server := handled.server
      replies := replies
      history := w.history ++ [⟨key, w.server.value key, new⟩] }
  | none =>
    pure { w with
      server := handled.server
      replies := replies
      registered := w.registered ++
        List.replicate (handled.server.ackTime.length - w.server.ackTime.length) call.clerk }

/-- What `PutAppend` makes of a reply. -/
def putAppendReply (w : World) (c : ℕ) (call : Call) (reply : Reply) : World :=
  let ck := w.clerks call.clerk
  if ck.clientId = -1 then
    { w.setCall c { call with
        reply := reply, args := { call.args with clientId := reply.clientId }, phase := .sending } with
      clerks := Function.update w.clerks call.clerk { ck with clientId := reply.clientId } }
  else if (ck.transactionId : ℤ) = reply.ackId - 1 then
    { w.setCall c { call with
        reply := reply, phase := .returned reply.value, finished := w.history.length } with
      clerks := Function.update w.clerks call.clerk { ck with transactionId := reply.ackId } }
  else w.setCall c { call with reply := reply, phase := .sending }

/-- A clerk gets a reply to the request it waits for. -/
def receive (w : World) (c r : ℕ) : Option World := do
  let call ← w.calls[c]?
  let (a, new) ← w.replies[r]?
  let reply := call.reply.decodeInto new
  match call.phase, call.op with
  | .waiting a', .get =>
    if a' = a then pure (w.setCall c
      { call with reply := reply, phase := .returned reply.value, finished := w.history.length })
    else none
  | .waiting a', _ => if a' = a then pure (w.putAppendReply c call reply) else none
  | _, _ => none

def step (w : World) : Action → Option World
  | .invoke k op key value => w.invoke k op key value
  | .send c => w.send c
  | .giveUp c => w.giveUp c
  | .deliver a => w.deliver a
  | .receive c r => w.receive c r

end World

end DistributedLabs.Kvsrv
