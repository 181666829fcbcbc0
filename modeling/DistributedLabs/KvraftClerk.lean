import DistributedLabs.KvraftHistory
import DistributedLabs.ListPositions
import DistributedLabs.RsmSubmit
import Mathlib.Algebra.GroupWithZero.Nat

/-!
# Clerks of `kvraft1`

Any number of clerks, the servers and the RPCs between them. A request or a reply may
be lost, and a clerk that has given up on an RPC goes on to the next server while the
RPC may still arrive and put another copy of the operation into a log. An operation
is committed at most once for each call of `Start`, in any order and at any time.

The servers keep an account of the logs: what a reader executes is what some call of
`Submit` handed over at that place, answered as the operations before it demand.
-/

namespace DistributedLabs.Kvraft
open Kv Rsm TransitionRuns ListPositions

section Replies
variable {V : Type}

def Reply.err : Reply V → Err
  | .get reply => reply.err
  | .put reply => reply.err

/-- `KVServer.Get`, given what `Submit` has returned. -/
def kvServerGet [Inhabited V] (err : Err) : Option (Reply V) → GetReply V
  | some (.get getResult) => if err = .ok then getResult else ⟨default, 0, err⟩
  | _ => ⟨default, 0, err⟩

/-- `KVServer.Put`, given what `Submit` has returned. -/
def kvServerPut (err : Err) : Option (Reply V) → PutReply
  | some (.put putResult) => if err = .ok then putResult else ⟨err⟩
  | _ => ⟨err⟩

/-- The handler of a request. -/
def handlerReply {K : Type} [Inhabited V] (err : Err) (value : Option (Reply V)) :
    Command K V → Reply V
  | .get _ => .get (kvServerGet err value)
  | .put _ => .put (kvServerPut err value)

/-- What a clerk returns; a `Put` reports `ErrVersion` only for its first RPC. -/
def clerkReply (isResend : Bool) : Reply V → Reply V
  | .get reply => .get reply
  | .put reply => .put (if isResend ∧ reply.err = .errVersion then ⟨.errMaybe⟩ else reply)

end Replies

inductive ClerkPhase (n : ℕ) (V : Type)
  | sending (i : Fin n) (isResend : Bool)
  | waiting (i : Fin n) (isResend : Bool) (rpc : ℕ)
  | returned (reply : Reply V)
  deriving DecidableEq

def ClerkPhase.isOk {n : ℕ} {V : Type} : ClerkPhase n V → Bool
  | .returned (.put reply) => reply.err = .ok
  | _ => false

/-- A call of `Clerk.Get` or `Clerk.Put`. -/
structure ClerkCall (n : ℕ) (K V : Type) where
  clerk : ℕ
  command : Command K V
  phase : ClerkPhase n V
  /-- history: the `Put` calls that had returned `OK` when this one was made -/
  after : List ℕ
  deriving DecidableEq

/-- A request on its way to a server. -/
structure Rpc (n : ℕ) where
  call : ℕ
  server : Fin n
  /-- the call of `Submit` in the handler, once the request has arrived -/
  submission : Option ℕ

/-- An operation in the log of a leader, and the call of `Submit` that handed it over. -/
structure Entry (n : ℕ) (K V : Type) where
  index : ℕ
  term : ℕ
  req : Command K V
  server : Fin n
  submission : ℕ

structure World (n : ℕ) (K V B : Type) where
  group : Group (Fin n) (KeyValue K V) B
  rsm : Fin n → RSM (Command K V) (Reply V)
  /-- everything that was handed to a leader's `Start` -/
  handed : List (Entry n K V)
  committed : List (Entry n K V)
  rpcs : List (Rpc n)
  calls : List (ClerkCall n K V)
  lastLeader : ℕ → Option (Fin n)

inductive Action (n : ℕ) (K V : Type)
  | invoke (clerk : ℕ) (command : Command K V)
  | send (c : ℕ)
  /-- `Call` returns false: the request or the reply was lost, or will come too late -/
  | giveUp (c : ℕ)
  | arrive (j : ℕ)
  | reply (j : ℕ)
  | start (i : Fin n) (k : ℕ) (answer : Option (ℕ × ℕ))
  | event (i : Fin n) (e : Event)
  | commit (m : ℕ)
  | handover (a : Handover (Fin n))

namespace World
variable {n : ℕ} {K V B : Type}

/-- The committed operations. -/
def ops (w : World n K V B) : List (Command K V) := w.committed.map Entry.req

def setRsm (w : World n K V B) (i : Fin n) (rsm : RSM (Command K V) (Reply V)) : World n K V B :=
  { w with rsm := Function.update w.rsm i rsm }

def setPhase (w : World n K V B) (c : ℕ) (call : ClerkCall n K V) (phase : ClerkPhase n V) :
    World n K V B := { w with calls := w.calls.set c { call with phase := phase } }

/-- The `Put` calls that have returned `OK`. -/
def returnedOk (w : World n K V B) : List ℕ :=
  (List.range w.calls.length).filter fun c => (w.calls[c]?).any fun call =>
    call.phase.isOk

section Steps
variable [NeZero n]

def next (i : Fin n) : Fin n := Fin.ofNat n (i + 1)

def invoke (w : World n K V B) (clerk : ℕ) (command : Command K V) : World n K V B :=
  let i := (w.lastLeader clerk).getD (Fin.ofNat n 0)
  { w with calls := w.calls ++ [⟨clerk, command, .sending i false, w.returnedOk⟩] }

def send (w : World n K V B) (c : ℕ) : Option (World n K V B) := do
  let call ← w.calls[c]?
  match call.phase with
  | .sending i isResend =>
    pure { w.setPhase c call (.waiting i isResend w.rpcs.length) with
      rpcs := w.rpcs ++ [⟨c, i, none⟩] }
  | _ => none

def giveUp (w : World n K V B) (c : ℕ) : Option (World n K V B) := do
  let call ← w.calls[c]?
  match call.phase with
  | .waiting i _ _ => pure (w.setPhase c call (.sending (next i) true))
  | _ => none

/-- The request reaches the server, whose handler calls `Submit`. -/
def arrive (w : World n K V B) (j : ℕ) : Option (World n K V B) := do
  let rpc ← w.rpcs[j]?
  let call ← w.calls[rpc.call]?
  match rpc.submission with
  | some _ => none
  | none =>
    let rsm := w.rsm rpc.server
    pure { w.setRsm rpc.server (rsm.submit call.command) with
      rpcs := w.rpcs.set j { rpc with submission := some rsm.calls.length } }

/-- The clerk gets a reply that is not lost and for which it still waits. -/
def finish (w : World n K V B) (c : ℕ) (call : ClerkCall n K V) (i : Fin n) (isResend : Bool)
    (reply : Reply V) : World n K V B :=
  if reply.err ≠ .errWrongLeader then
    { w.setPhase c call (.returned (clerkReply isResend reply)) with
      lastLeader := Function.update w.lastLeader call.clerk (some i) }
  else w.setPhase c call (.sending (next i) true)

def reply [Inhabited V] (w : World n K V B) (j : ℕ) : Option (World n K V B) := do
  let rpc ← w.rpcs[j]?
  let k ← rpc.submission
  let submission ← (w.rsm rpc.server).calls[k]?
  let call ← w.calls[rpc.call]?
  match submission.phase, call.phase with
  | .returned err value, .waiting i isResend rpc' =>
    if rpc' = j then
      pure (w.finish rpc.call call i isResend (handlerReply err value submission.req))
    else none
  | _, _ => none

/-- A leader's log gets the operation. -/
def start (w : World n K V B) (i : Fin n) (k : ℕ) (answer : Option (ℕ × ℕ)) :
    Option (World n K V B) := do
  let submission ← (w.rsm i).calls[k]?
  let rsm ← (w.rsm i).start k answer
  match answer with
  | none => pure (w.setRsm i rsm)
  | some (lastLogIndex, term) =>
    pure { w.setRsm i rsm with
      handed := w.handed ++ [⟨lastLogIndex + 1, term, submission.req, i, k⟩] }

/-- An operation is committed at the index it has in its leader's log. -/
def commit (w : World n K V B) (m : ℕ) : Option (World n K V B) := do
  let e ← w.handed[m]?
  if e.index = w.committed.length + 1 then pure { w with committed := w.committed ++ [e] }
  else none

variable [DecidableEq K] [Inhabited V] (gob : Labgob K V B) (maxraftstate : ℤ)

/-- Raft hands something over to the reader of a server. -/
def handover (w : World n K V B) (a : Handover (Fin n)) : Option (World n K V B) := do
  let group ← w.group.step (kvServer gob) w.ops maxraftstate a
  match a with
  | .command i pointer _ =>
    let e ← w.committed[(w.group.replicas i).index]?
    let value := (doOp (w.group.replicas i).state (.of pointer e.req)).2
    let rsm ← (w.rsm i).execute ⟨e.index, e.term, e.req, value⟩
    pure { w.setRsm i rsm with group := group }
  | .save _ _ => pure { w with group := group }
  | .snapshot i _ =>
    match (w.rsm i).reader with
    | .idle => pure { w with group := group }
    | _ => none
  | .restart i => pure { w.setRsm i (w.rsm i).crash with group := group }

def init : World n K V B :=
  ⟨Group.init (kvServer gob), fun _ => .make _ _, [], [], [], [], fun _ => none⟩

def step (w : World n K V B) : Action n K V → Option (World n K V B)
  | .invoke clerk command => some (w.invoke clerk command)
  | .send c => w.send c
  | .giveUp c => w.giveUp c
  | .arrive j => w.arrive j
  | .reply j => w.reply j
  | .start i k answer => w.start i k answer
  | .event i e => ((w.rsm i).step e).map (w.setRsm i)
  | .commit m => w.commit m
  | .handover a => w.handover gob maxraftstate a

end Steps

/-- No call of `Start` is given an index and a term that another one was given. -/
def FreshPlace (w : World n K V B) : Action n K V → Prop
  | .start _ _ (some (lastLogIndex, term)) =>
    ¬∃ e ∈ w.handed, e.index = lastLogIndex + 1 ∧ e.term = term
  | _ => True

instance (w : World n K V B) (a : Action n K V) : Decidable (w.FreshPlace a) :=
  match a with
  | .start _ _ (some _) => inferInstanceAs (Decidable (¬_))
  | .start _ _ none | .invoke _ _ | .send _ | .giveUp _ | .arrive _ | .reply _ | .event _ _
  | .commit _ | .handover _ => .isTrue trivial

section Inversion
variable {w w' : World n K V B}

theorem send_cases {c : ℕ} (h : w.send c = some w') :
    ∃ call i isResend, w.calls[c]? = some call ∧ call.phase = .sending i isResend ∧
      w' = { w.setPhase c call (.waiting i isResend w.rpcs.length) with
        rpcs := w.rpcs ++ [⟨c, i, none⟩] } := by
  simp only [send, Option.bind_eq_bind, Option.bind_eq_some_iff] at h
  obtain ⟨call, hcall, h⟩ := h
  split at h
  case h_1 i isResend hphase =>
    cases h
    exact ⟨call, i, isResend, hcall, hphase, rfl⟩
  case h_2 => cases h

theorem giveUp_cases [NeZero n] {c : ℕ} (h : w.giveUp c = some w') :
    ∃ call i isResend j, w.calls[c]? = some call ∧ call.phase = .waiting i isResend j ∧
      w' = w.setPhase c call (.sending (next i) true) := by
  simp only [giveUp, Option.bind_eq_bind, Option.bind_eq_some_iff] at h
  obtain ⟨call, hcall, h⟩ := h
  split at h
  case h_1 i isResend j hphase =>
    cases h
    exact ⟨call, i, isResend, j, hcall, hphase, rfl⟩
  case h_2 => cases h

theorem arrive_cases {j : ℕ} (h : w.arrive j = some w') :
    ∃ rpc call, w.rpcs[j]? = some rpc ∧ w.calls[rpc.call]? = some call ∧ rpc.submission = none ∧
      w' = { w.setRsm rpc.server ((w.rsm rpc.server).submit call.command) with
        rpcs := w.rpcs.set j { rpc with submission := some (w.rsm rpc.server).calls.length } } := by
  simp only [arrive, Option.bind_eq_bind, Option.bind_eq_some_iff] at h
  obtain ⟨rpc, hrpc, call, hcall, h⟩ := h
  split at h
  case h_1 => cases h
  case h_2 hnone =>
    cases h
    exact ⟨rpc, call, hrpc, hcall, hnone, rfl⟩

theorem reply_cases [NeZero n] [Inhabited V] {j : ℕ} (h : w.reply j = some w') :
    ∃ rpc k submission call err value i isResend, w.rpcs[j]? = some rpc ∧
      rpc.submission = some k ∧ (w.rsm rpc.server).calls[k]? = some submission ∧
      w.calls[rpc.call]? = some call ∧ submission.phase = .returned err value ∧
      call.phase = .waiting i isResend j ∧
      w' = w.finish rpc.call call i isResend (handlerReply err value submission.req) := by
  simp only [reply, Option.bind_eq_bind, Option.bind_eq_some_iff] at h
  obtain ⟨rpc, hrpc, k, hk, submission, hsubmission, call, hcall, h⟩ := h
  split at h
  case h_2 => cases h
  case h_1 err value i isResend rpc' hreturned hwaiting =>
    split_ifs at h with hj
    cases h
    subst hj
    exact ⟨rpc, k, submission, call, err, value, i, isResend, hrpc, hk, hsubmission, hcall,
      hreturned, hwaiting, rfl⟩

theorem start_cases {i : Fin n} {k : ℕ} {answer : Option (ℕ × ℕ)}
    (h : w.start i k answer = some w') :
    ∃ submission rsm, (w.rsm i).calls[k]? = some submission ∧
      (w.rsm i).start k answer = some rsm ∧
      (answer = none ∧ w' = w.setRsm i rsm ∨ ∃ lastLogIndex term,
        answer = some (lastLogIndex, term) ∧
        w' = { w.setRsm i rsm with
          handed := w.handed ++ [⟨lastLogIndex + 1, term, submission.req, i, k⟩] }) := by
  simp only [start, Option.bind_eq_bind, Option.bind_eq_some_iff] at h
  obtain ⟨submission, hsubmission, rsm, hrsm, h⟩ := h
  refine ⟨submission, rsm, hsubmission, hrsm, ?_⟩
  split at h
  case h_1 =>
    cases h
    exact Or.inl ⟨rfl, rfl⟩
  case h_2 lastLogIndex term =>
    cases h
    exact Or.inr ⟨lastLogIndex, term, rfl, rfl⟩

theorem commit_cases {m : ℕ} (h : w.commit m = some w') :
    ∃ e ∈ w.handed, e.index = w.committed.length + 1 ∧
      w' = { w with committed := w.committed ++ [e] } := by
  simp only [commit, Option.bind_eq_bind, Option.bind_eq_some_iff] at h
  obtain ⟨e, he, h⟩ := h
  split_ifs at h with hindex
  cases h
  exact ⟨e, List.mem_of_getElem? he, hindex, rfl⟩

/-- The reader executes what is committed at its index, or it executes nothing. -/
theorem handover_cases [DecidableEq K] [Inhabited V] {gob : Labgob K V B} {maxraftstate : ℤ}
    {a : Handover (Fin n)} (h : w.handover gob maxraftstate a = some w') :
    ∃ group, w.group.step (kvServer gob) w.ops maxraftstate a = some group ∧
      ((∃ i pointer e rsm, w.committed[(w.group.replicas i).index]? = some e ∧
        (w.rsm i).execute ⟨e.index, e.term, e.req,
          (doOp (w.group.replicas i).state (.of pointer e.req)).2⟩ = some rsm ∧
        w' = { w.setRsm i rsm with group := group }) ∨
      w' = { w with group := group } ∨
      ∃ i, w' = { w.setRsm i (w.rsm i).crash with group := group }) := by
  simp only [handover, Option.bind_eq_bind, Option.bind_eq_some_iff] at h
  obtain ⟨group, hgroup, h⟩ := h
  refine ⟨group, hgroup, ?_⟩
  cases a with
  | command i pointer persistBytes =>
    simp only [Option.bind_eq_some_iff] at h
    obtain ⟨e, he, rsm, hrsm, h⟩ := h
    cases h
    exact Or.inl ⟨i, pointer, e, rsm, he, hrsm, rfl⟩
  | save i k =>
    cases h
    exact Or.inr (Or.inl rfl)
  | snapshot i k =>
    simp only at h
    split at h
    · cases h
      exact Or.inr (Or.inl rfl)
    · cases h
  | restart i =>
    cases h
    exact Or.inr (Or.inr ⟨i, rfl⟩)

end Inversion

/-- The request and the place of a call of `Submit`. -/
def header (w : World n K V B) (i : Fin n) (k : ℕ) : Option (Command K V × Option (ℕ × ℕ)) :=
  (w.rsm i).headers[k]?

section Headers
variable {w : World n K V B} {i : Fin n} {rsm : RSM (Command K V) (Reply V)}

theorem forall_setRsm {P : RSM (Command K V) (Reply V) → Prop} (h : ∀ j, P (w.rsm j)) (hi : P rsm) :
    ∀ j, P ((w.setRsm i rsm).rsm j) :=
  (Function.forall_update_iff w.rsm fun _ r => P r).mpr ⟨hi, fun j _ => h j⟩

theorem header_setRsm (h : rsm.headers = (w.rsm i).headers) :
    (w.setRsm i rsm).header = w.header := by
  funext j k
  rcases eq_or_ne j i with rfl | hj
  · simp [header, setRsm, h]
  · simp [header, setRsm, Function.update_of_ne hj]

theorem header_submit (req : Command K V) (j : Fin n) (k : ℕ) :
    (w.setRsm i ((w.rsm i).submit req)).header j k =
      if j = i ∧ k = (w.rsm i).calls.length then some (req, none) else w.header j k := by
  rcases eq_or_ne j i with rfl | hj
  · simp only [header, setRsm, Function.update_self, RSM.headers, RSM.submit, List.map_append,
      true_and]
    split_ifs with hk
    · subst hk
      rw [List.getElem?_append_right (by simp)]
      simp [Call.submit, Call.header]
    · rcases Nat.lt_or_gt_of_ne hk with hlt | hgt
      · rw [List.getElem?_append_left (by simpa using hlt)]
      · rw [List.getElem?_eq_none (by simpa using Nat.succ_le_of_lt hgt),
          List.getElem?_eq_none (by simpa using hgt.le)]
  · simp [header, setRsm, hj]

theorem header_set {k : ℕ} {x y : Command K V × Option (ℕ × ℕ)} (hx : w.header i k = some x)
    (h : rsm.headers = (w.rsm i).headers.set k y) (j : Fin n) (l : ℕ) :
    (w.setRsm i rsm).header j l = if j = i ∧ l = k then some y else w.header j l := by
  obtain ⟨hlt, -⟩ := List.getElem?_eq_some_iff.mp hx
  rcases eq_or_ne j i with rfl | hj
  · simp only [header, setRsm, Function.update_self, h, true_and]
    rcases eq_or_ne l k with rfl | hl
    · simp [hlt]
    · simp [hl, List.getElem?_set_ne hl.symm]
  · simp [header, setRsm, hj]

end Headers

section Committed
variable {w w' : World n K V B}

theorem ops_append {more : List (Entry n K V)} (hmore : w'.committed = w.committed ++ more) :
    w'.ops = w.ops ++ more.map Entry.req := by
  rw [ops, hmore, List.map_append]
  rfl

theorem getElem?_ops {m : ℕ} {e : Entry n K V} (h : w.committed[m]? = some e) :
    w.ops[m]? = some e.req := by
  rw [ops, List.getElem?_map, h, Option.map_some]

/-- What is committed stays where it is, behind the same operations. -/
theorem committed_append {more : List (Entry n K V)} (hmore : w'.committed = w.committed ++ more)
    {m : ℕ} {e : Entry n K V} (h : w.committed[m]? = some e) :
    w'.committed[m]? = some e ∧ w'.ops.take m = w.ops.take m ∧
      w'.ops.take (m + 1) = w.ops.take (m + 1) := by
  obtain ⟨hlt, -⟩ := List.getElem?_eq_some_iff.mp h
  have hops : m < w.ops.length := by simpa [ops] using hlt
  rw [ops_append hmore, List.take_append_of_le_length hops.le, List.take_append_of_le_length hops,
    hmore, List.getElem?_append_left hlt]
  exact ⟨h, rfl, rfl⟩

end Committed

variable [DecidableEq K] [Inhabited V]

/-- What was executed is committed, and was answered as the operations before it demand. -/
def Executed (w : World n K V B) (x : Execution (Command K V) (Reply V)) : Prop :=
  ∃ m e, w.committed[m]? = some e ∧ x.index = e.index ∧ x.term = e.term ∧
    x.value = replyAfter (w.ops.take m) e.req

structure Logged (gob : Labgob K V B) (w : World n K V B) : Prop where
  group : Rsm.Sound (kvServer gob) w.ops w.group
  rsm : ∀ i, (w.rsm i).Sound
  committed : ∀ m e, w.committed[m]? = some e → e ∈ w.handed ∧ e.index = m + 1
  unique : ∀ e ∈ w.handed, ∀ e' ∈ w.handed, e.index = e'.index → e.term = e'.term → e = e'
  handed : ∀ e ∈ w.handed, w.header e.server e.submission = some (e.req, some (e.index, e.term))
  placed : ∀ i k req p, w.header i k = some (req, some p) →
    ∃ e ∈ w.handed, e.server = i ∧ e.submission = k ∧ (e.index, e.term) = p
  executed : ∀ i, ∀ x ∈ (w.rsm i).executed, w.Executed x

section Logged
variable {gob : Labgob K V B} {w w' : World n K V B}

theorem logged_init : (init gob : World n K V B).Logged gob where
  group := sound_init
  rsm _ := RSM.sound_make
  committed := nofun
  unique := nofun
  handed := nofun
  placed _ _ _ _ h := by simp [header, init, RSM.make, RSM.headers] at h
  executed := nofun

theorem Logged.congr (h : w.Logged gob) (hgroup : w'.group = w.group) (hrsm : w'.rsm = w.rsm)
    (hhanded : w'.handed = w.handed) (hcommitted : w'.committed = w.committed) : w'.Logged gob := by
  obtain ⟨group, rsm, handed, committed, rpcs, calls, lastLeader⟩ := w'
  obtain ⟨rfl, rfl, rfl, rfl⟩ : group = w.group ∧ rsm = w.rsm ∧ handed = w.handed ∧
    committed = w.committed := ⟨hgroup, hrsm, hhanded, hcommitted⟩
  exact ⟨h.group, h.rsm, h.committed, h.unique, h.handed, h.placed, h.executed⟩

theorem Logged.setRsm (h : w.Logged gob) {i : Fin n} {rsm : RSM (Command K V) (Reply V)}
    (hsound : rsm.Sound) (hheaders : rsm.headers = (w.rsm i).headers)
    (hexecuted : ∀ x ∈ rsm.executed, w.Executed x) : (w.setRsm i rsm).Logged gob where
  group := h.group
  rsm := forall_setRsm h.rsm hsound
  committed := h.committed
  unique := h.unique
  handed := by
    rw [header_setRsm hheaders]
    exact h.handed
  placed := by
    rw [header_setRsm hheaders]
    exact h.placed
  executed := forall_setRsm (P := fun r => ∀ x ∈ r.executed, w.Executed x) h.executed hexecuted

theorem Logged.setGroup (h : w.Logged gob) {group : Group (Fin n) (KeyValue K V) B}
    (hgroup : Rsm.Sound (kvServer gob) w.ops group) : Logged gob { w with group := group } :=
  ⟨hgroup, h.rsm, h.committed, h.unique, h.handed, h.placed, h.executed⟩

theorem Logged.submit (h : w.Logged gob) (i : Fin n) (req : Command K V) :
    (w.setRsm i ((w.rsm i).submit req)).Logged gob where
  group := h.group
  rsm := forall_setRsm h.rsm ((h.rsm i).submit req)
  committed := h.committed
  unique := h.unique
  handed e he := by
    have hold := h.handed e he
    rw [header_submit, if_neg]
    · exact hold
    · rintro ⟨rfl, hk⟩
      obtain ⟨hlt, -⟩ := List.getElem?_eq_some_iff.mp hold
      simp [RSM.headers, hk] at hlt
  placed j k req' p hp := by
    rw [header_submit] at hp
    split_ifs at hp
    · cases hp
    · exact h.placed j k req' p hp
  executed := forall_setRsm (P := fun r => ∀ x ∈ r.executed, w.Executed x) h.executed (h.executed i)

theorem Logged.start (h : w.Logged gob) {i : Fin n} {k : ℕ} {answer : Option (ℕ × ℕ)}
    (hfree : w.FreshPlace (.start i k answer)) (hs : w.start i k answer = some w') :
    w'.Logged gob := by
  obtain ⟨submission, rsm, hsubmission, hrsm, hcases⟩ := start_cases hs
  obtain ⟨hsound, hexecuted, req, hk, hheaders⟩ := (h.rsm i).start hrsm
  have hdone : ∀ x ∈ rsm.executed, w.Executed x := hexecuted ▸ h.executed i
  obtain ⟨rfl, rfl⟩ | ⟨lastLogIndex, term, rfl, rfl⟩ := hcases
  · refine h.setRsm hsound ?_ hdone
    obtain ⟨hlt, hget⟩ := List.getElem?_eq_some_iff.mp hk
    rw [hheaders, Option.map_none, ← hget]
    exact List.set_getElem_self hlt
  have hheader := header_set hk hheaders
  have hreq : submission.req = req := by
    rw [RSM.headers, List.getElem?_map, hsubmission, Option.map_some] at hk
    exact congrArg Prod.fst (Option.some.inj hk)
  refine ⟨h.group, forall_setRsm h.rsm hsound, fun m e he => ?_, ?_, fun e he => ?_,
    fun j l req' p hp => ?_,
    forall_setRsm (P := fun r => ∀ x ∈ r.executed, w.Executed x) h.executed hdone⟩
  · obtain ⟨hmem, hindex⟩ := h.committed m e he
    exact ⟨List.mem_append_left _ hmem, hindex⟩
  · intro e he e' he' hindex hterm
    rcases List.mem_append.mp he with he | he <;> rcases List.mem_append.mp he' with he' | he'
    · exact h.unique e he e' he' hindex hterm
    · rw [List.mem_singleton.mp he'] at hindex hterm
      exact absurd ⟨e, he, hindex, hterm⟩ hfree
    · rw [List.mem_singleton.mp he] at hindex hterm
      exact absurd ⟨e', he', hindex.symm, hterm.symm⟩ hfree
    · rw [List.mem_singleton.mp he, List.mem_singleton.mp he']
  · refine (hheader _ _).trans ?_
    rcases List.mem_append.mp he with he | he
    · have hold := h.handed e he
      rw [if_neg]
      · exact hold
      · rintro ⟨rfl, rfl⟩
        cases hk.symm.trans hold
    · rw [List.mem_singleton.mp he, if_pos ⟨rfl, rfl⟩, hreq]
      rfl
  · replace hp := (hheader j l).symm.trans hp
    split_ifs at hp with hjl
    · obtain ⟨rfl, rfl⟩ := hjl
      cases hp
      exact ⟨_, List.mem_append_right _ (List.mem_singleton_self _), rfl, rfl, rfl⟩
    · obtain ⟨e, he, hplace⟩ := h.placed j l req' p hp
      exact ⟨e, List.mem_append_left _ he, hplace⟩

theorem Executed.append {more : List (Entry n K V)} (hmore : w'.committed = w.committed ++ more)
    {x : Execution (Command K V) (Reply V)} (h : w.Executed x) : w'.Executed x := by
  obtain ⟨m, e, he, hindex, hterm, hvalue⟩ := h
  obtain ⟨he', htake, -⟩ := committed_append hmore he
  exact ⟨m, e, he', hindex, hterm, htake ▸ hvalue⟩

theorem Logged.commit (h : w.Logged gob) {m : ℕ} (hs : w.commit m = some w') : w'.Logged gob := by
  obtain ⟨e, he, hindex, rfl⟩ := commit_cases hs
  refine ⟨?_, h.rsm, fun m' e' he' => ?_, h.unique, h.handed, h.placed,
    fun i x hx => (h.executed i x hx).append rfl⟩
  · rw [ops_append (w := w) rfl]
    exact h.group.append _
  · rcases getElem?_append_singleton_cases he' with he' | ⟨rfl, rfl⟩
    · exact h.committed m' e' he'
    · exact ⟨he, hindex⟩

theorem Logged.handover (h : w.Logged gob) (hgob : gob.RoundTrips) {maxraftstate : ℤ}
    {a : Handover (Fin n)} (hs : w.handover gob maxraftstate a = some w') : w'.Logged gob := by
  obtain ⟨group, hgroup, hcases⟩ := handover_cases hs
  have hsound := h.group.step kvServer_uniform (kvServer_recovers hgob) hgroup
  obtain ⟨i, pointer, e, rsm, he, hrsm, rfl⟩ | rfl | ⟨i, rfl⟩ := hcases
  · refine Logged.setGroup ?_ hsound
    refine h.setRsm ((h.rsm i).execute hrsm) ?_ fun x hx => ?_
    · rw [RSM.execute_cases hrsm]
      rfl
    · rw [RSM.execute_cases hrsm] at hx
      rcases List.mem_append.mp hx with hx | hx
      · exact h.executed i x hx
      · refine ⟨(w.group.replicas i).index, e, he, ?_⟩
        rw [List.mem_singleton.mp hx]
        refine ⟨rfl, rfl, ?_⟩
        rw [(h.group.current i).state]
        exact doOp_of_snd _ pointer e.req
  · exact h.setGroup hsound
  · obtain ⟨hcrash, hheaders⟩ := (h.rsm i).crash
    exact (h.setRsm hcrash hheaders (h.executed i)).setGroup hsound

end Logged

end World
end DistributedLabs.Kvraft
