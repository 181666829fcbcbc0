import DistributedLabs.KvModel
import DistributedLabs.KvraftAtMostOnce
import DistributedLabs.Linearizability
import DistributedLabs.PorcupineChecker

/-!
# Histories of `kvraft1` are linearizable

Calls of `Clerk.Get` and `Clerk.Put` are recorded with the times at which they began and ended. A
call takes effect where one of the copies of its operation is committed: a `Put` where it changes
the map, if it does, and any other call where the operation is committed whose reply it has got.

A `Put` whose copies were answered `ErrVersion` returns `ErrMaybe`, while other copies may still be
on their way. They find the version gone by, as long as the clerks name versions that their keys
have reached.
-/

namespace DistributedLabs.Kvraft
open Kv Rsm TransitionRuns ListPositions Linearizability
open Models (KvInput KvOutput KvState keyOf inputOf outputOf register)
open Porcupine (Operation)

section Registers
variable {K V : Type} [DecidableEq K] [DecidableEq V] [Inhabited V]

/-- The register of a key behind an operation, if the model allows its output. -/
def nextRegister (st : KvState V) (op : Operation (KvInput K V) (KvOutput V)) : Option (KvState V) :=
  if (Models.KvModel.step st op.input op.output).1 then (Models.KvModel.step st op.input op.output).2
  else none

/-- An operation acts on the register of its key. -/
def nextInRegisters (registers : K → KvState V) (op : Operation (KvInput K V) (KvOutput V)) :
    Option (K → KvState V) :=
  nextAt (fun op : Operation (KvInput K V) (KvOutput V) => op.input.key) nextRegister registers op

/-- The history is one of the model, with a register for each key. -/
def IsLinearizable (history : List (Operation (KvInput K V) (KvOutput V))) : Prop :=
  Linearizable nextInRegisters (fun _ => Models.KvModel.init) (fun a b => a.ret < b.call) history

/-- A reply that the model allows where an operation is executed: the store's own, and `ErrMaybe`
for any `Put`. -/
def Allowed (kv : KeyValue K V) (c : Command K V) (reply : Reply V) : Prop :=
  reply = (doOp kv (.value c)).2 ∨ reply = .put ⟨.errMaybe⟩ ∧ ∃ args, c = .put args

theorem step_of_allowed {kv : KeyValue K V} {c : Command K V} {reply : Reply V} (h : Allowed kv c reply) :
    Models.KvModel.step (register kv (keyOf c)) (inputOf c) (outputOf reply) =
      (true, some (register (doOp kv (.value c)).1 (keyOf c))) := by
  have hstore := Models.step_doOp kv (.value c)
  rcases h with rfl | ⟨rfl, args, rfl⟩
  · exact hstore
  · change Models.KvModel.step (register kv args.key) (inputOf (.put args)) _ = _ at hstore
    simp only [Models.KvModel.step, inputOf, outputOf, Prod.ext_iff, Any.command, keyOf] at hstore ⊢
    split_ifs at hstore ⊢ <;> simp_all

omit [DecidableEq V] in
theorem allowed_clerkReply (kv : KeyValue K V) (c : Command K V) (isResend : Bool) :
    Allowed kv c (clerkReply isResend (doOp kv (.value c)).2) := by
  cases c with
  | get args => exact .inl rfl
  | put args =>
    simp only [doOp, clerkReply]
    split_ifs
    · exact .inr ⟨rfl, args, rfl⟩
    · exact .inl rfl

omit [DecidableEq V] in
/-- A `Put` that does not return the reply to the copy it has waited for returns `ErrMaybe`. -/
theorem clerkReply_put (kv : KeyValue K V) (args : PutArgs K V) (isResend : Bool) :
    clerkReply isResend (doOp kv (.value (.put args))).2 = .put ⟨.ok⟩ ∨
    clerkReply isResend (doOp kv (.value (.put args))).2 = .put ⟨.errVersion⟩ ∨
    clerkReply isResend (doOp kv (.value (.put args))).2 = .put ⟨.errMaybe⟩ := by
  simp only [doOp, doPut_eq, clerkReply]
  split_ifs <;> simp_all

theorem nextInRegisters_of_allowed {kv : KeyValue K V} {c : Command K V} {reply : Reply V}
    (h : Allowed kv c reply) {op : Operation (KvInput K V) (KvOutput V)} (hinput : op.input = inputOf c)
    (houtput : op.output = outputOf reply) :
    nextInRegisters (register kv) op = some (register (doOp kv (.value c)).1) := by
  have hnext : nextRegister (register kv op.input.key) op =
      some (register (doOp kv (.value c)).1 (keyOf c)) := by
    rw [nextRegister, hinput, houtput, Models.inputOf_key, step_of_allowed h]
    rfl
  rw [nextInRegisters, nextAt, hnext, hinput, Models.inputOf_key, Option.map_some, Option.some.injEq]
  funext key
  rcases eq_or_ne key (keyOf c) with rfl | hne
  · rw [Function.update_self]
  · have hsame : (doOp kv (.value c)).1 key = kv key := (Models.localAt_doOp (.value c)).others kv key hne
    rw [Function.update_of_ne hne, register, register, hsame]

end Registers

/-- What an observer of the whole system writes down. The time is the number of steps. -/
structure Seen where
  now : ℕ
  /-- when each call was made -/
  called : List ℕ
  /-- when a call has got its last reply -/
  returned : ℕ → ℕ
  /-- when each operation was committed -/
  committed : List ℕ

def Seen.start : Seen := ⟨0, [], fun _ => 0, []⟩

namespace World
variable {n : ℕ} {K V B : Type}

def observe (w : World n K V B) (action : Action n K V) (seen : Seen) : Seen :=
  match action with
  | .invoke _ _ => { seen with now := seen.now + 1, called := seen.called ++ [seen.now] }
  | .reply j => { seen with
      now := seen.now + 1
      returned := match w.rpcs[j]? with
        | some rpc => Function.update seen.returned rpc.call seen.now
        | none => seen.returned }
  | .commit _ => { seen with now := seen.now + 1, committed := seen.committed ++ [seen.now] }
  | _ => { seen with now := seen.now + 1 }

/-- A call as an operation. One that has not returned may have a reply in `replies`; then it counts
as returning now. -/
def operation [Inhabited V] (w : World n K V B) (seen : Seen) (replies : ℕ → Option (Reply V)) (c : ℕ) :
    Option (Operation (KvInput K V) (KvOutput V)) :=
  w.calls[c]?.bind fun call =>
    match call.phase with
    | .returned reply => some ⟨call.clerk, inputOf call.command, seen.called.getD c 0, outputOf reply,
        seen.returned c⟩
    | _ => (replies c).map fun reply => ⟨call.clerk, inputOf call.command, seen.called.getD c 0,
        outputOf reply, seen.now⟩

/-- The calls that have returned, and those others that have a reply in `replies`. -/
def recorded [Inhabited V] (w : World n K V B) (seen : Seen) (replies : ℕ → Option (Reply V)) :
    List (Operation (KvInput K V) (KvOutput V)) :=
  (List.range w.calls.length).filterMap (w.operation seen replies)

variable [DecidableEq K] [Inhabited V]

/-- A `Put` names no version that its key has not reached. -/
def Reached (w : World n K V B) : Action n K V → Prop
  | .invoke _ (.put args) => args.version.toNat ≤ successes args.key w.ops
  | _ => True

instance (w : World n K V B) (action : Action n K V) : Decidable (w.Reached action) :=
  match action with
  | .invoke _ (.put _) => inferInstanceAs (Decidable (_ ≤ _))
  | .invoke _ (.get _) => .isTrue trivial
  | .send _ => .isTrue trivial
  | .giveUp _ => .isTrue trivial
  | .arrive _ => .isTrue trivial
  | .reply _ => .isTrue trivial
  | .start _ _ _ => .isTrue trivial
  | .event _ _ => .isTrue trivial
  | .commit _ => .isTrue trivial
  | .handover _ => .isTrue trivial

/-- Each call of `Submit` is made by the handler of one request. -/
structure Handled (w : World n K V B) : Prop where
  unique : ∀ (j j' : ℕ) (rpc rpc' : Rpc n) (k : ℕ), w.rpcs[j]? = some rpc → w.rpcs[j']? = some rpc' →
    rpc.server = rpc'.server → rpc.submission = some k → rpc'.submission = some k → j = j'
  origin : ∀ i k x, w.header i k = some x → ∃ rpc ∈ w.rpcs, rpc.server = i ∧ rpc.submission = some k

section Handled
variable {gob : Labgob K V B} {w w' : World n K V B}

theorem handled_init : (init gob : World n K V B).Handled where
  unique := by simp [init]
  origin i k x h := by simp [header, init, RSM.make, RSM.headers] at h

omit [DecidableEq K] [Inhabited V] in
theorem Handled.congr (h : w.Handled) (hrpcs : w'.rpcs = w.rpcs)
    (hheader : ∀ i k x, w'.header i k = some x → ∃ y, w.header i k = some y) : w'.Handled where
  unique := hrpcs ▸ h.unique
  origin i k x hx := by
    obtain ⟨y, hy⟩ := hheader i k x hx
    rw [hrpcs]
    exact h.origin i k y hy

omit [DecidableEq K] [Inhabited V] in
theorem Handled.send (h : w.Handled) {c : ℕ} (hs : w.send c = some w') : w'.Handled := by
  obtain ⟨call, i, isResend, -, -, rfl⟩ := send_cases hs
  refine ⟨?_, fun i' k x hx => ?_⟩
  · intro j j' rpc rpc' k hj hj' hserver hk hk'
    rcases getElem?_append_singleton_cases hj with hj | ⟨-, rfl⟩
    · rcases getElem?_append_singleton_cases hj' with hj' | ⟨-, rfl⟩
      · exact h.unique j j' rpc rpc' k hj hj' hserver hk hk'
      · cases hk'
    · cases hk
  · obtain ⟨rpc, hrpc, hrest⟩ := h.origin i' k x hx
    exact ⟨rpc, List.mem_append_left _ hrpc, hrest⟩

omit [DecidableEq K] [Inhabited V] in
theorem Handled.arrive (h : w.Handled) (hrouted : w.Routed) {j : ℕ} (hs : w.arrive j = some w') :
    w'.Handled := by
  obtain ⟨rpc, call, hrpc, -, hnone, rfl⟩ := arrive_cases hs
  have hlt : ∀ rpc' ∈ w.rpcs, rpc'.server = rpc.server → ∀ k, rpc'.submission = some k →
      k < (w.rsm rpc.server).calls.length := by
    intro rpc' hmem hserver k hk
    obtain ⟨call', -, hheader⟩ := hrouted rpc' hmem
    obtain ⟨p, hp⟩ := hheader k hk
    obtain ⟨hlt, -⟩ := List.getElem?_eq_some_iff.mp hp
    simpa [RSM.headers, hserver] using hlt
  obtain ⟨hj, -⟩ := List.getElem?_eq_some_iff.mp hrpc
  refine ⟨?_, fun i k x hx => ?_⟩
  · intro j₁ j₂ rpc₁ rpc₂ k h₁ h₂ hserver hk₁ hk₂
    rcases getElem?_set_cases h₁ with ⟨rfl, rfl⟩ | ⟨-, hold₁⟩
    · rcases getElem?_set_cases h₂ with ⟨rfl, -⟩ | ⟨-, hold₂⟩
      · rfl
      · cases hk₁
        exact absurd (hlt rpc₂ (List.mem_of_getElem? hold₂) hserver.symm _ hk₂) (Nat.lt_irrefl _)
    · rcases getElem?_set_cases h₂ with ⟨rfl, rfl⟩ | ⟨-, hold₂⟩
      · cases hk₂
        exact absurd (hlt rpc₁ (List.mem_of_getElem? hold₁) hserver _ hk₁) (Nat.lt_irrefl _)
      · exact h.unique j₁ j₂ rpc₁ rpc₂ k hold₁ hold₂ hserver hk₁ hk₂
  · have hx : (w.setRsm rpc.server ((w.rsm rpc.server).submit call.command)).header i k = some x := hx
    rw [header_submit] at hx
    split_ifs at hx with hnew
    · obtain ⟨rfl, rfl⟩ := hnew
      exact ⟨_, List.mem_of_getElem? (List.getElem?_set_self hj), rfl, rfl⟩
    · obtain ⟨rpc', hmem, hserver, hk⟩ := h.origin i k x hx
      obtain ⟨j', hj'⟩ := List.mem_iff_getElem?.mp hmem
      have hne : j ≠ j' := by
        rintro rfl
        cases hrpc.symm.trans hj'
        cases hnone.symm.trans hk
      exact ⟨rpc', List.mem_of_getElem? ((List.getElem?_set_ne hne).trans hj'), hserver, hk⟩

theorem Handled.step [NeZero n] (h : w.Handled) (hinv : w.Inv gob) {maxraftstate : ℤ} {a : Action n K V}
    (hs : w.step gob maxraftstate a = some w') : w'.Handled := by
  have hset : ∀ {i : Fin n} {rsm : RSM (Command K V) (Reply V)}, rsm.headers = (w.rsm i).headers →
      ∀ j k x, (w.setRsm i rsm).header j k = some x → ∃ y, w.header j k = some y := by
    intro i rsm hheaders j k x hx
    rw [header_setRsm hheaders] at hx
    exact ⟨x, hx⟩
  cases a with
  | invoke clerk command =>
    cases hs
    exact h.congr rfl fun _ _ x hx => ⟨x, hx⟩
  | send c => exact h.send hs
  | giveUp c =>
    obtain ⟨call, i, isResend, j, -, -, rfl⟩ := giveUp_cases hs
    exact h.congr rfl fun _ _ x hx => ⟨x, hx⟩
  | arrive j => exact h.arrive hinv.routed hs
  | reply j =>
    obtain ⟨rpc, k, submission, call, err, value, i, isResend, -, -, -, -, -, -, rfl⟩ := reply_cases hs
    unfold finish
    split_ifs
    · exact h.congr rfl fun _ _ x hx => ⟨x, hx⟩
    · exact h.congr rfl fun _ _ x hx => ⟨x, hx⟩
  | start i k answer =>
    obtain ⟨submission, rsm, -, hrsm, hcases⟩ := start_cases hs
    obtain ⟨-, -, req, hk, hheaders⟩ := (hinv.logged.rsm i).start hrsm
    have hheader : ∀ j l x, (w.setRsm i rsm).header j l = some x → ∃ y, w.header j l = some y := by
      intro j l x hx
      rw [header_set hk hheaders] at hx
      split_ifs at hx with hjl
      · obtain ⟨rfl, rfl⟩ := hjl
        exact ⟨_, hk⟩
      · exact ⟨x, hx⟩
    obtain ⟨-, rfl⟩ | ⟨lastLogIndex, term, -, -, rfl⟩ := hcases
    · exact h.congr rfl hheader
    · exact h.congr rfl hheader
  | event i e =>
    obtain ⟨rsm, hrsm, rfl⟩ := Option.map_eq_some_iff.mp hs
    exact h.congr rfl (hset ((hinv.logged.rsm i).step hrsm).2.1)
  | commit m =>
    obtain ⟨e, -, -, rfl⟩ := commit_cases hs
    exact h.congr rfl fun _ _ x hx => ⟨x, hx⟩
  | handover a =>
    obtain ⟨group, -, ⟨i, pointer, e, rsm, -, hrsm, rfl⟩ | rfl | ⟨i, rfl⟩⟩ := handover_cases hs
    · refine h.congr rfl (hset ?_)
      rw [RSM.execute_cases hrsm]
      rfl
    · exact h.congr rfl fun _ _ x hx => ⟨x, hx⟩
    · exact h.congr rfl (hset (hinv.logged.rsm i).crash.2)

omit [DecidableEq K] [Inhabited V] in
theorem Handled.call_unique (h : w.Handled) {c c' : ℕ} {e : Entry n K V} (hc : w.Sent c e) (hc' : w.Sent c' e) :
    c = c' := by
  obtain ⟨rpc, hrpc, rfl, hserver, hsubmission⟩ := hc
  obtain ⟨rpc', hrpc', rfl, hserver', hsubmission'⟩ := hc'
  obtain ⟨j, hj⟩ := List.mem_iff_getElem?.mp hrpc
  obtain ⟨j', hj'⟩ := List.mem_iff_getElem?.mp hrpc'
  cases h.unique j j' rpc rpc' _ hj hj' (hserver.trans hserver'.symm) hsubmission hsubmission'
  cases hj.symm.trans hj'
  rfl

theorem Handled.exists_sent (h : w.Handled) (hinv : w.Logged gob) {m : ℕ} {e : Entry n K V}
    (he : w.committed[m]? = some e) : ∃ c, w.Sent c e := by
  obtain ⟨rpc, hrpc, hserver, hsubmission⟩ := h.origin _ _ _ (hinv.handed e (hinv.committed m e he).1)
  exact ⟨rpc.call, rpc, hrpc, rfl, hserver, hsubmission⟩

end Handled

/-- Operations are committed behind the calls that have sent them, and a call returns behind the
operation whose reply it has got. The versions that `Put`s name were reached before. -/
structure Observed (w : World n K V B) (seen : Seen) : Prop where
  called : seen.called.length = w.calls.length
  calledBefore : ∀ t ∈ seen.called, t < seen.now
  committed : seen.committed.length = w.committed.length
  committedBefore : ∀ t ∈ seen.committed, t < seen.now
  sorted : seen.committed.Pairwise (· ≤ ·)
  sent : ∀ (c m : ℕ) e t t', w.committed[m]? = some e → w.Sent c e → seen.called[c]? = some t →
    seen.committed[m]? = some t' → t ≤ t'
  returned : ∀ (c : ℕ) call reply, w.calls[c]? = some call → call.phase = .returned reply →
    ∃ j m e isResend t, w.Settled c reply j m e isResend ∧ seen.committed[m]? = some t ∧ t ≤ seen.returned c
  named : ∀ (c : ℕ) call args, w.calls[c]? = some call → call.command = .put args →
    ∃ k ≤ w.committed.length, args.version.toNat ≤ successes args.key (w.ops.take k) ∧
      ∀ (m : ℕ) e, w.committed[m]? = some e → w.Sent c e → k ≤ m

section Observed
variable {gob : Labgob K V B} {w w' : World n K V B} {seen : Seen} {returned : ℕ → ℕ}

theorem observed_init : (init gob : World n K V B).Observed .start where
  called := rfl
  calledBefore := nofun
  committed := rfl
  committedBefore := nofun
  sorted := .nil
  sent := by simp [init]
  returned := by simp [init]
  named := by simp [init]

theorem Observed.later (h : w.Observed seen) (hinv : w.Inv gob) (hl : Later w w')
    (hcommitted : w'.committed = w.committed) (hlength : w'.calls.length = w.calls.length)
    (hcalls : ∀ (c : ℕ) call', w'.calls[c]? = some call' → ∃ call, w.calls[c]? = some call ∧
      call'.command = call.command ∧ ∀ reply, call'.phase = .returned reply →
        call.phase = .returned reply ∧ Silent w w' c ∧ returned c = seen.returned c ∨
        (∃ j m e isResend, w'.Settled c reply j m e isResend) ∧ returned c = seen.now) :
    w'.Observed { seen with now := seen.now + 1, returned } where
  called := h.called.trans hlength.symm
  calledBefore t ht := (h.calledBefore t ht).trans (Nat.lt_succ_self _)
  committed := h.committed.trans (congrArg List.length hcommitted.symm)
  committedBefore t ht := (h.committedBefore t ht).trans (Nat.lt_succ_self _)
  sorted := h.sorted
  sent c m e t t' he hsent ht ht' := by
    rw [hcommitted] at he
    exact h.sent c m e t t' he (hl.sent c e (hinv.logged.committed m e he).1 hsent) ht ht'
  returned c call' reply hc hphase := by
    obtain ⟨call, hcall, -, hreturned⟩ := hcalls c call' hc
    obtain ⟨hphase, hsilent, htime⟩ | ⟨⟨j, m, e, isResend, hsettled⟩, htime⟩ := hreturned reply hphase
    · obtain ⟨j, m, e, isResend, t, hsettled, ht, hle⟩ := h.returned c call reply hcall hphase
      exact ⟨j, m, e, isResend, t, hsettled.later hl hsilent, ht, hle.trans_eq htime.symm⟩
    · have hlt : m < seen.committed.length := by
        rw [h.committed, ← hcommitted]
        exact (List.getElem?_eq_some_iff.mp hsettled.committed).1
      refine ⟨j, m, e, isResend, _, hsettled, List.getElem?_eq_getElem hlt, ?_⟩
      change _ ≤ returned c
      rw [htime]
      exact (h.committedBefore _ (List.getElem_mem hlt)).le
  named c call' args hc hargs := by
    obtain ⟨call, hcall, hcommand, -⟩ := hcalls c call' hc
    obtain ⟨k, hk, hle, hbehind⟩ := h.named c call args hcall (hcommand ▸ hargs)
    refine ⟨k, hcommitted ▸ hk, ?_, fun m e he hsent => ?_⟩
    · rw [ops, hcommitted]
      exact hle
    · rw [hcommitted] at he
      exact hbehind m e he (hl.sent c e (hinv.logged.committed m e he).1 hsent)

theorem Observed.inner (h : w.Observed seen) (hinv : w.Inv gob) (hcommitted : w'.committed = w.committed)
    (hrpcs : w'.rpcs = w.rpcs) (hcalls : w'.calls = w.calls) :
    w'.Observed { seen with now := seen.now + 1 } := by
  have hl : Later w w' := .of_rpcs (by rw [hcommitted, List.append_nil]) hrpcs
  refine h.later hinv hl hcommitted (congrArg List.length hcalls) fun c call hc => ?_
  refine ⟨call, hcalls ▸ hc, rfl, fun reply hphase => .inl ⟨hphase, ?_, rfl⟩⟩
  intro j rpc hrpc hcall
  exact ⟨rpc, hrpcs ▸ hrpc, hcall⟩

theorem Observed.setPhase (h : w.Observed seen) (hinv : w.Inv gob) {c : ℕ} {call : ClerkCall n K V}
    (hc : w.calls[c]? = some call) {phase : ClerkPhase n V} {lastLeader : ℕ → Option (Fin n)}
    (hreturned : ∀ c₀, c₀ ≠ c → returned c₀ = seen.returned c₀)
    (hphase : ∀ reply, phase = .returned reply →
      (∃ j m e isResend, w.Settled c reply j m e isResend) ∧ returned c = seen.now) :
    World.Observed { w.setPhase c call phase with lastLeader := lastLeader }
      { seen with now := seen.now + 1, returned } := by
  have hl : Later w { w.setPhase c call phase with lastLeader := lastLeader } :=
    .of_rpcs (List.append_nil _).symm rfl
  have hsilent : ∀ c₀, Silent w { w.setPhase c call phase with lastLeader := lastLeader } c₀ :=
    fun c₀ j rpc hrpc hcall => ⟨rpc, hrpc, hcall⟩
  refine h.later hinv hl rfl (by simp [World.setPhase]) fun c₀ call' hc₀ => ?_
  rcases setPhase_calls hc₀ with ⟨rfl, rfl⟩ | ⟨hne, hc₀⟩
  · refine ⟨call, hc, rfl, fun reply hreply => .inr ?_⟩
    obtain ⟨⟨j, m, e, isResend, hsettled⟩, htime⟩ := hphase reply hreply
    exact ⟨⟨j, m, e, isResend, hsettled.later hl (hsilent _)⟩, htime⟩
  · exact ⟨call', hc₀, rfl, fun reply hreply => .inl ⟨hreply, hsilent _, hreturned c₀ hne⟩⟩

theorem Observed.send (h : w.Observed seen) (hinv : w.Inv gob) {c : ℕ} (hs : w.send c = some w') :
    w'.Observed { seen with now := seen.now + 1 } := by
  obtain ⟨call, i, isResend, hc, hsending, rfl⟩ := send_cases hs
  refine h.later hinv ?_ rfl (by simp [World.setPhase]) fun c₀ call' hc₀ => ?_
  · refine ⟨⟨[], (List.append_nil _).symm⟩, fun j rpc hrpc => ?_, ?_⟩
    · exact ⟨rpc, getElem?_append_of_some _ hrpc, rfl, rfl, fun _ => id⟩
    · rintro c' e - ⟨rpc, hrpc, hcall, hserver, hsubmission⟩
      rcases List.mem_append.mp hrpc with hrpc | hrpc
      · exact ⟨rpc, hrpc, hcall, hserver, hsubmission⟩
      · rw [List.mem_singleton.mp hrpc] at hsubmission
        cases hsubmission
  · rcases setPhase_calls hc₀ with ⟨rfl, rfl⟩ | ⟨hne, hc₀⟩
    · exact ⟨call, hc, rfl, by simp⟩
    · refine ⟨call', hc₀, rfl, fun reply hreply => .inl ⟨hreply, fun j rpc hrpc hcall => ?_, rfl⟩⟩
      rcases getElem?_append_singleton_cases hrpc with hrpc | ⟨-, rfl⟩
      · exact ⟨rpc, hrpc, hcall⟩
      · exact absurd hcall.symm hne

theorem Observed.arrive (h : w.Observed seen) (hinv : w.Inv gob) {j : ℕ} (hs : w.arrive j = some w') :
    w'.Observed { seen with now := seen.now + 1 } := by
  obtain ⟨rpc, call, hrpc, hcall, hnone, rfl⟩ := arrive_cases hs
  obtain ⟨hj, -⟩ := List.getElem?_eq_some_iff.mp hrpc
  refine h.later hinv ⟨⟨[], (List.append_nil _).symm⟩, ?_, ?_⟩ rfl rfl fun c call' hc =>
    ⟨call', hc, rfl, fun reply hreply => .inl ⟨hreply, ?_, rfl⟩⟩
  · intro j' rpc' hrpc'
    rcases eq_or_ne j' j with rfl | hne
    · cases hrpc.symm.trans hrpc'
      refine ⟨_, List.getElem?_set_self hj, rfl, rfl, fun k hk => ?_⟩
      cases hnone.symm.trans hk
    · exact ⟨rpc', (List.getElem?_set_ne hne.symm).trans hrpc', rfl, rfl, fun _ => id⟩
  · rintro c e he ⟨rpc', hrpc', hcall', hserver, hsubmission⟩
    rcases List.mem_or_eq_of_mem_set hrpc' with hrpc' | rfl
    · exact ⟨rpc', hrpc', hcall', hserver, hsubmission⟩
    · obtain ⟨hlt, -⟩ := List.getElem?_eq_some_iff.mp (hinv.logged.handed e he)
      rw [← hserver, ← Option.some.inj hsubmission] at hlt
      simp [RSM.headers] at hlt
  · intro j' rpc' hrpc' hc'
    rcases getElem?_set_cases hrpc' with ⟨rfl, rfl⟩ | ⟨-, hrpc'⟩
    · exact ⟨rpc, hrpc, hc'⟩
    · exact ⟨rpc', hrpc', hc'⟩

theorem Observed.reply [NeZero n] (h : w.Observed seen) (hinv : w.Inv gob) {j : ℕ}
    (hs : w.reply j = some w') : w'.Observed (w.observe (.reply j) seen) := by
  obtain ⟨rpc, k, submission, call, err, value, i, isResend, hrpc, hk, hsubmission, hcall, hreturned,
    hwaiting, rfl⟩ := reply_cases hs
  simp only [observe, hrpc]
  unfold finish
  split_ifs with haccepted
  · have hfirst : isResend = false → w.Only rpc.call j := by
      rintro rfl
      exact (hinv.calls _ call hcall).waiting i j hwaiting
    obtain ⟨m, e, hsettled⟩ := hinv.settled hrpc hk hsubmission hreturned haccepted hfirst
    refine h.setPhase hinv hcall (fun c₀ hne => Function.update_of_ne hne _ _) fun reply hreply => ?_
    cases hreply
    exact ⟨⟨j, m, e, isResend, hsettled⟩, Function.update_self _ _ _⟩
  · exact h.setPhase hinv hcall (fun c₀ hne => Function.update_of_ne hne _ _) (by simp)

theorem Observed.invoke [NeZero n] (h : w.Observed seen) (hinv : w.Inv gob) (clerk : ℕ)
    (command : Command K V) (hreached : w.Reached (.invoke clerk command)) :
    (w.invoke clerk command).Observed
      { seen with now := seen.now + 1, called := seen.called ++ [seen.now] } := by
  have hlt : ∀ c e, w.Sent c e → c < w.calls.length := by
    rintro c e ⟨rpc, hrpc, rfl, -⟩
    obtain ⟨call, hcall, -⟩ := hinv.routed rpc hrpc
    exact (List.getElem?_eq_some_iff.mp hcall).1
  have hl : Later w (w.invoke clerk command) := .of_rpcs (List.append_nil _).symm rfl
  refine ⟨by simp [World.invoke, h.called], ?_, h.committed, ?_, h.sorted, ?_, ?_, ?_⟩
  · intro t ht
    rcases List.mem_append.mp ht with ht | ht
    · exact (h.calledBefore t ht).trans (Nat.lt_succ_self _)
    · rw [List.mem_singleton.mp ht]
      exact Nat.lt_succ_self _
  · exact fun t ht => (h.committedBefore t ht).trans (Nat.lt_succ_self _)
  · intro c m e t t' he hsent ht ht'
    have hc : c < seen.called.length := h.called.symm ▸ hlt c e hsent
    rw [List.getElem?_append_left hc] at ht
    exact h.sent c m e t t' he hsent ht ht'
  · intro c call reply hc hphase
    rcases getElem?_append_singleton_cases hc with hc | ⟨-, rfl⟩
    · obtain ⟨j, m, e, isResend, t, hsettled, hrest⟩ := h.returned c call reply hc hphase
      exact ⟨j, m, e, isResend, t, hsettled.later hl fun j rpc hrpc hcall => ⟨rpc, hrpc, hcall⟩, hrest⟩
    · cases hphase
  · intro c call args hc hargs
    rcases getElem?_append_singleton_cases hc with hc | ⟨rfl, rfl⟩
    · exact h.named c call args hc hargs
    · refine ⟨w.committed.length, le_rfl, ?_, fun m e _ hsent => ?_⟩
      · have hops : w.ops.take w.committed.length = w.ops := List.take_of_length_le (by simp [ops])
        change args.version.toNat ≤ successes args.key (w.ops.take w.committed.length)
        rw [hops]
        cases hargs
        exact hreached
      · exact absurd (hlt _ e hsent) (Nat.lt_irrefl _)

theorem Observed.commit (h : w.Observed seen) {m : ℕ} (hs : w.commit m = some w') :
    w'.Observed { seen with now := seen.now + 1, committed := seen.committed ++ [seen.now] } := by
  obtain ⟨e, -, -, rfl⟩ := commit_cases hs
  have hl : Later w { w with committed := w.committed ++ [e] } := .of_rpcs rfl rfl
  refine ⟨h.called, ?_, by simp [h.committed], ?_, ?_, ?_, ?_, ?_⟩
  · exact fun t ht => (h.calledBefore t ht).trans (Nat.lt_succ_self _)
  · intro t ht
    rcases List.mem_append.mp ht with ht | ht
    · exact (h.committedBefore t ht).trans (Nat.lt_succ_self _)
    · rw [List.mem_singleton.mp ht]
      exact Nat.lt_succ_self _
  · rw [List.pairwise_append]
    refine ⟨h.sorted, List.pairwise_singleton _ _, fun t ht t' ht' => ?_⟩
    rw [List.mem_singleton.mp ht']
    exact (h.committedBefore t ht).le
  · intro c m' e' t t' he' hsent ht ht'
    rcases getElem?_append_singleton_cases he' with he' | ⟨rfl, rfl⟩
    · have hm : m' < seen.committed.length := h.committed ▸ (List.getElem?_eq_some_iff.mp he').1
      rw [List.getElem?_append_left hm] at ht'
      exact h.sent c m' e' t t' he' hsent ht ht'
    · rw [← h.committed, List.getElem?_concat_length, Option.some.injEq] at ht'
      rw [← ht']
      exact (h.calledBefore t (List.mem_of_getElem? ht)).le
  · intro c call reply hc hphase
    obtain ⟨j, m', e', isResend, t, hsettled, ht, hle⟩ := h.returned c call reply hc hphase
    exact ⟨j, m', e', isResend, t, hsettled.later hl fun j rpc hrpc hcall => ⟨rpc, hrpc, hcall⟩,
      getElem?_append_of_some _ ht, hle⟩
  · intro c call args hc hargs
    obtain ⟨k, hk, hle, hbehind⟩ := h.named c call args hc hargs
    refine ⟨k, by simpa using Nat.le_succ_of_le hk, ?_, fun m' e' he' hsent => ?_⟩
    · rw [ops_append (w := w) rfl, List.take_append_of_le_length (by simpa [ops] using hk)]
      exact hle
    · rcases getElem?_append_singleton_cases he' with he' | ⟨rfl, -⟩
      · exact hbehind m' e' he' hsent
      · exact hk

theorem Observed.step [NeZero n] (h : w.Observed seen) (hinv : w.Inv gob) {maxraftstate : ℤ}
    {a : Action n K V} (hreached : w.Reached a) (hs : w.step gob maxraftstate a = some w') :
    w'.Observed (w.observe a seen) := by
  cases a with
  | invoke clerk command =>
    cases hs
    exact h.invoke hinv clerk command hreached
  | send c => exact h.send hinv hs
  | giveUp c =>
    obtain ⟨call, i, isResend, j, hc, -, rfl⟩ := giveUp_cases hs
    exact h.setPhase hinv hc (fun _ _ => rfl) (by simp)
  | arrive j => exact h.arrive hinv hs
  | reply j => exact h.reply hinv hs
  | start i k answer =>
    obtain ⟨submission, rsm, -, -, ⟨-, rfl⟩ | ⟨lastLogIndex, term, -, rfl⟩⟩ := start_cases hs
    · exact h.inner hinv rfl rfl rfl
    · exact h.inner hinv rfl rfl rfl
  | event i e =>
    obtain ⟨rsm, -, rfl⟩ := Option.map_eq_some_iff.mp hs
    exact h.inner hinv rfl rfl rfl
  | commit m => exact h.commit hs
  | handover a =>
    obtain ⟨group, -, ⟨i, pointer, e, rsm, -, -, rfl⟩ | rfl | ⟨i, rfl⟩⟩ := handover_cases hs
    · exact h.inner hinv rfl rfl rfl
    · exact h.inner hinv rfl rfl rfl
    · exact h.inner hinv rfl rfl rfl

variable (gob) in
/-- The runs with what is observed, in which no two calls of `Start` are given the same place and
clerks name versions that were reached. -/
def Runs [NeZero n] (maxraftstate : ℤ) (w : World n K V B) (seen : Seen) : Prop :=
  Reaches (recording (World.step gob maxraftstate) World.observe)
    (fun s a => s.1.FreshPlace a ∧ s.1.Reached a) (init gob, .start) (w, seen)

theorem handled_of_reaches [NeZero n] {maxraftstate : ℤ} (hgob : gob.RoundTrips)
    (h : Reaches (step gob maxraftstate) FreshPlace (init gob) w) : w.Inv gob ∧ w.Handled := by
  refine @Reaches.invariant _ _ _ _ _ _ (fun w => w.Inv gob ∧ w.Handled) h
    ⟨inv_init, handled_init⟩ ?_
  intro w a w' ⟨hinv, hhandled⟩ hfree hs
  exact ⟨hinv.step hgob hfree hs, hhandled.step hinv hs⟩

theorem Runs.observed [NeZero n] {maxraftstate : ℤ} (hgob : gob.RoundTrips)
    (h : Runs gob maxraftstate w seen) : w.Inv gob ∧ w.Handled ∧ w.Observed seen := by
  refine @Reaches.invariant _ _ _ _ _ _ (fun s => s.1.Inv gob ∧ s.1.Handled ∧ s.1.Observed s.2) h
    ⟨inv_init, handled_init, observed_init⟩ ?_
  rintro ⟨w, seen⟩ a ⟨w', seen'⟩ ⟨hinv, hhandled, hobs⟩ ⟨hfree, hreached⟩ hstep
  obtain ⟨hs, rfl⟩ := recording_eq_some hstep
  exact ⟨hinv.step hgob hfree hs, hhandled.step hinv hs, hobs.step hinv hreached hs⟩

end Observed

section Points
variable {gob : Labgob K V B} {w : World n K V B} {seen : Seen} {c m : ℕ} {call : ClerkCall n K V}
  {reply : Reply V}

variable (w seen) in
/-- The call has got the reply to what is committed at the position. -/
def Replied (c m : ℕ) : Prop :=
  ∃ call reply j e isResend t, w.calls[c]? = some call ∧ call.phase = .returned reply ∧
    w.Settled c reply j m e isResend ∧ seen.committed[m]? = some t ∧ t ≤ seen.returned c

variable (w seen) in
/-- A call takes effect where it changes the map, or else where its reply comes from. -/
def IsPoint (c m : ℕ) : Prop := w.Changes c m ∨ (∀ m', ¬w.Changes c m') ∧ w.Replied seen c m

theorem Settled.sent' {j : ℕ} {e : Entry n K V} {isResend : Bool}
    (h : w.Settled c reply j m e isResend) : w.Sent c e := by
  obtain ⟨rpc, hrpc, hrest⟩ := h.sent
  exact ⟨rpc, List.mem_of_getElem? hrpc, hrest⟩

theorem IsPoint.exists_entry (h : w.IsPoint seen c m) : ∃ e, w.committed[m]? = some e ∧ w.Sent c e := by
  obtain ⟨e, he, hsent, -⟩ | ⟨-, call, reply, j, e, isResend, t, -, -, hsettled, -⟩ := h
  · exact ⟨e, he, hsent⟩
  · exact ⟨e, hsettled.committed, hsettled.sent'⟩

/-- What changes the map is a `Put`, and its reply there is `OK`. -/
theorem Inv.put_of_changes (h : w.Inv gob) (hc : w.calls[c]? = some call) (hchanges : w.Changes c m) :
    ∃ args, call.command = .put args ∧ w.ops[m]? = some (.put args) ∧
      replyAfter (w.ops.take m) (.put args) = .put ⟨.ok⟩ := by
  obtain ⟨e, he, hsent, hchange⟩ := hchanges
  have hop := getElem?_ops he
  have hreq := h.req_eq hc he hsent
  cases hcommand : call.command with
  | get args =>
    rw [hreq, hcommand] at hop
    refine absurd ?_ hchange
    rw [storeAfter_take_succ hop]
    rfl
  | put args =>
    rw [hreq, hcommand] at hop
    exact ⟨args, rfl, hop, (changesAt_iff hop).mp hchange⟩

variable (hfew : ∀ key, successes key w.ops < UInt64.size)
include hfew

theorem Inv.changes_unique (h : w.Inv gob) {m' : ℕ} (hm : w.Changes c m) (hm' : w.Changes c m') : m = m' := by
  obtain ⟨e, he, hsent, hchange⟩ := hm
  obtain ⟨rpc, hrpc, rfl, -⟩ := id hsent
  obtain ⟨call, hcall, -⟩ := h.routed rpc hrpc
  obtain ⟨args, -, hop, -⟩ := h.put_of_changes hcall ⟨e, he, hsent, hchange⟩
  obtain ⟨args', -, hop', -⟩ := h.put_of_changes hcall hm'
  obtain ⟨e', he', hsent', hchange'⟩ := hm'
  have hsame : Command.put args = .put args' := by
    have h₁ := getElem?_ops he
    have h₂ := getElem?_ops he'
    rw [h.req_eq hcall he hsent] at h₁
    rw [h.req_eq hcall he' hsent'] at h₂
    exact Option.some.inj (hop.symm.trans (h₁.trans (h₂.symm.trans hop')))
  cases hsame
  exact changesAt_unique (hfew args.key) hop hchange hop' hchange'

theorem IsPoint.eq_of_changes (h : w.IsPoint seen c m) (hinv : w.Inv gob) {m' : ℕ} (hm' : w.Changes c m') :
    m' = m := by
  rcases h with hm | ⟨hnone, -⟩
  · exact hinv.changes_unique hfew hm' hm
  · exact absurd hm' (hnone m')

/-- A copy that comes behind the one that was answered `ErrVersion` changes nothing. -/
theorem Observed.changes_before (h : w.Observed seen) (hinv : w.Inv gob) (hc : w.calls[c]? = some call)
    (hchanges : w.Changes c m) {m' j : ℕ} {e : Entry n K V} {isResend : Bool}
    (hsettled : w.Settled c reply j m' e isResend) (hreply : reply ≠ .put ⟨.ok⟩) : m ≤ m' := by
  by_contra hlt
  obtain ⟨args, hcommand, hop, -⟩ := hinv.put_of_changes hc hchanges
  obtain ⟨k, -, hnamed, hbehind⟩ := h.named c call args hc hcommand
  obtain ⟨e', -, -, hchange⟩ := hchanges
  have hk : k ≤ m' := hbehind m' e hsettled.committed hsettled.sent'
  have hversion := (toNat_version_of_changesAt (hfew args.key) hop hchange).1
  have hle₁ := successes_take_le args.key w.ops hk
  have hle₂ := successes_take_le args.key w.ops (not_le.mp hlt).le
  -- between the call and the change the version stays
  have hsame : args.version = versionOf (storeAfter (w.ops.take m')) args.key := by
    apply UInt64.toNat_inj.mp
    rw [toNat_versionOf (hfew args.key)]
    omega
  apply hreply
  rw [hsettled.reply, hinv.req_eq hc hsettled.committed hsettled.sent', hcommand, replyAfter,
    doOp_put_of_ok.mpr hsame]
  simp [clerkReply]

theorem IsPoint.returned (h : w.IsPoint seen c m) (hinv : w.Inv gob) (hobs : w.Observed seen)
    (hc : w.calls[c]? = some call) (hphase : call.phase = .returned reply) :
    Allowed (storeAfter (w.ops.take m)) call.command reply ∧
      ∃ t, seen.committed[m]? = some t ∧ t ≤ seen.returned c := by
  rcases h with hchanges | ⟨-, call', reply', j, e, isResend, t, hc', hphase', hsettled, ht, hle⟩
  · obtain ⟨args, hcommand, hop, hok⟩ := hinv.put_of_changes hc hchanges
    obtain ⟨j, m', e, isResend, t', hsettled, ht', hle⟩ := hobs.returned c call reply hc hphase
    have hreply : reply = clerkReply isResend (doOp (storeAfter (w.ops.take m')) (.value (.put args))).2 := by
      rw [hsettled.reply, hinv.req_eq hc hsettled.committed hsettled.sent', hcommand]
      rfl
    rcases clerkReply_put (storeAfter (w.ops.take m')) args isResend with hput | hput | hput
    · rw [← hreply] at hput
      subst hput
      cases hinv.changes_unique hfew hsettled.changes hchanges
      exact ⟨.inl (by rw [hcommand]; exact hok.symm), t', ht', hle⟩
    · rw [← hreply] at hput
      subst hput
      exact absurd hchanges (hinv.not_changes hsettled m)
    · rw [← hreply] at hput
      subst hput
      have hm := hobs.changes_before hfew hinv hc hchanges hsettled (by simp)
      have hlt' : m' < seen.committed.length := (List.getElem?_eq_some_iff.mp ht').1
      have hlt : m < seen.committed.length := hm.trans_lt hlt'
      refine ⟨.inr ⟨rfl, args, hcommand⟩, _, List.getElem?_eq_getElem hlt, le_trans ?_ hle⟩
      obtain ⟨-, rfl⟩ := List.getElem?_eq_some_iff.mp ht'
      rcases hm.lt_or_eq with hm | rfl
      · exact List.pairwise_iff_getElem.mp hobs.sorted m m' hlt hlt' hm
      · exact le_rfl
  · cases hc.symm.trans hc'
    cases hphase.symm.trans hphase'
    refine ⟨?_, t, ht, hle⟩
    rw [hsettled.reply, hinv.req_eq hc hsettled.committed hsettled.sent']
    exact allowed_clerkReply _ _ _

omit hfew in
theorem IsPoint.pending (h : w.IsPoint seen c m) (hc : w.calls[c]? = some call)
    (hphase : ∀ reply, call.phase ≠ .returned reply) : w.Changes c m := by
  rcases h with hchanges | ⟨-, call', reply', -, -, -, -, hc', hphase', -⟩
  · exact hchanges
  · cases hc.symm.trans hc'
    exact absurd hphase' (hphase reply')

omit hfew in
theorem Observed.exists_isPoint (h : w.Observed seen) (hc : w.calls[c]? = some call)
    (hphase : call.phase = .returned reply) : ∃ m, w.IsPoint seen c m := by
  by_cases hchanges : ∃ m, w.Changes c m
  · obtain ⟨m, hm⟩ := hchanges
    exact ⟨m, .inl hm⟩
  · obtain ⟨j, m, e, isResend, t, hrest⟩ := h.returned c call reply hc hphase
    exact ⟨m, .inr ⟨fun m' hm' => hchanges ⟨m', hm'⟩, call, reply, j, e, isResend, t, hc, hphase, hrest⟩⟩

open Classical in
variable (w) in
/-- The replies that `Put`s will have that took effect and have not returned. -/
noncomputable def replies (c : ℕ) : Option (Reply V) :=
  if ∃ m, w.Changes c m then some (.put ⟨.ok⟩) else none

theorem IsPoint.operation (h : w.IsPoint seen c m) (hinv : w.Inv gob) (hobs : w.Observed seen) :
    ∃ call reply t a, w.calls[c]? = some call ∧ w.ops[m]? = some call.command ∧
      Allowed (storeAfter (w.ops.take m)) call.command reply ∧ seen.committed[m]? = some t ∧
      w.operation seen w.replies c = some a ∧ a.input = inputOf call.command ∧ a.output = outputOf reply ∧
      a.call ≤ (t : ℤ) ∧ (t : ℤ) ≤ a.ret := by
  obtain ⟨e, he, hsent⟩ := h.exists_entry
  obtain ⟨rpc, hrpc, rfl, -⟩ := id hsent
  obtain ⟨call, hcall, -⟩ := hinv.routed rpc hrpc
  have hop : w.ops[m]? = some call.command := by
    rw [getElem?_ops he, hinv.req_eq hcall he hsent]
  have hm : m < seen.committed.length := by
    rw [hobs.committed]
    exact (List.getElem?_eq_some_iff.mp he).1
  have ht := List.getElem?_eq_getElem hm
  have hcalled : ((seen.called.getD rpc.call 0 : ℕ) : ℤ) ≤ (seen.committed[m] : ℕ) := by
    have hlt : rpc.call < seen.called.length := by
      rw [hobs.called]
      exact (List.getElem?_eq_some_iff.mp hcall).1
    rw [List.getD_eq_getElem?_getD, List.getElem?_eq_getElem hlt]
    exact Int.ofNat_le.mpr (hobs.sent _ m e _ _ he hsent (List.getElem?_eq_getElem hlt) ht)
  have hpending : (∀ reply, call.phase ≠ .returned reply) → w.replies rpc.call = some (.put ⟨.ok⟩) ∧
      Allowed (storeAfter (w.ops.take m)) call.command (.put ⟨.ok⟩) ∧
      ((seen.committed[m] : ℕ) : ℤ) ≤ seen.now := by
    intro hphase
    have hchanges := h.pending hcall hphase
    obtain ⟨args, hcommand, -, hok⟩ := hinv.put_of_changes hcall hchanges
    refine ⟨if_pos ⟨m, hchanges⟩, .inl (by rw [hcommand]; exact hok.symm), ?_⟩
    exact Int.ofNat_le.mpr (hobs.committedBefore _ (List.getElem_mem hm)).le
  simp only [World.operation, hcall, Option.bind_some]
  cases hphase : call.phase with
  | returned reply =>
    obtain ⟨hallowed, t, ht', hle⟩ := h.returned hfew hinv hobs hcall hphase
    cases ht.symm.trans ht'
    exact ⟨call, reply, _, _, rfl, hop, hallowed, ht, rfl, rfl, rfl, hcalled, Int.ofNat_le.mpr hle⟩
  | sending i isResend =>
    obtain ⟨hreplies, hallowed, hle⟩ := hpending (by simp [hphase])
    rw [hreplies]
    exact ⟨call, _, _, _, rfl, hop, hallowed, ht, rfl, rfl, rfl, hcalled, hle⟩
  | waiting i isResend j =>
    obtain ⟨hreplies, hallowed, hle⟩ := hpending (by simp [hphase])
    rw [hreplies]
    exact ⟨call, _, _, _, rfl, hop, hallowed, ht, rfl, rfl, rfl, hcalled, hle⟩

omit hfew in
theorem Observed.isPoint_of_operation (h : w.Observed seen) {a : Operation (KvInput K V) (KvOutput V)}
    (ha : w.operation seen w.replies c = some a) : ∃ m, w.IsPoint seen c m := by
  obtain ⟨call, hc, ha⟩ := Option.bind_eq_some_iff.mp ha
  split at ha
  · exact h.exists_isPoint hc ‹_›
  · obtain ⟨reply, hreply, -⟩ := Option.map_eq_some_iff.mp ha
    unfold replies at hreply
    split_ifs at hreply with hchanges
    obtain ⟨m, hm⟩ := hchanges
    exact ⟨m, .inl hm⟩

open Classical in
variable (w seen) in
/-- The position where a call takes effect, if it does. -/
noncomputable def point (c : ℕ) : Option ℕ :=
  if h : ∃ m, w.IsPoint seen c m then some h.choose else none

omit hfew in
theorem isPoint_of_point (h : w.point seen c = some m) : w.IsPoint seen c m := by
  unfold point at h
  split_ifs at h with hex
  cases h
  exact hex.choose_spec

omit hfew in
theorem IsPoint.exists_point (h : w.IsPoint seen c m) : ∃ m', w.point seen c = some m' :=
  ⟨_, dif_pos ⟨m, h⟩⟩

theorem Handled.idle (h : w.Handled) (hinv : w.Inv gob) (hm : m < w.committed.length)
    (hidle : ∀ c, w.point seen c ≠ some m) :
    storeAfter (w.ops.take (m + 1)) = storeAfter (w.ops.take m) := by
  by_contra hchange
  have he := List.getElem?_eq_getElem hm
  obtain ⟨c, hsent⟩ := h.exists_sent hinv.logged he
  have hchanges : w.Changes c m := ⟨_, he, hsent, hchange⟩
  have hpoint : w.IsPoint seen c m := .inl hchanges
  obtain ⟨m', hm'⟩ := hpoint.exists_point
  rw [(isPoint_of_point hm').eq_of_changes hfew hinv hchanges] at hidle
  exact hidle c hm'

/-- The calls that have returned, with the `Put`s that have changed the map since, are
linearizable. -/
theorem Observed.isLinearizable [DecidableEq V] (hobs : w.Observed seen) (hinv : w.Inv gob)
    (hhandled : w.Handled) : IsLinearizable (w.recorded seen w.replies) := by
  have hstart : (fun _ : K => (Models.KvModel.init : KvState V)) = register (storeAfter (w.ops.take 0)) := rfl
  have hlength : seen.committed.length = w.committed.length := hobs.committed
  rw [IsLinearizable, hstart]
  refine linearizable_of_log w.committed.length (w.point seen)
    (fun m => ((seen.committed.getD m 0 : ℕ) : ℤ)) (fun m => register (storeAfter (w.ops.take m)))
    (fun c => ?_) (fun c m hm => ?_) (fun c c' m hm hm' => ?_) (fun m m' hle hm' => ?_)
    (fun c m a hm ha => ?_) (fun c m a hm ha => ?_) (fun m hm hidle => ?_)
  · rw [Option.isSome_iff_exists]
    constructor
    · rintro ⟨m, hm⟩
      obtain ⟨call, -, -, a, hcall, -, -, -, ha, -⟩ := (isPoint_of_point hm).operation hfew hinv hobs
      exact ⟨(List.getElem?_eq_some_iff.mp hcall).1, by simp [ha]⟩
    · rintro ⟨-, hsome⟩
      obtain ⟨a, ha⟩ := Option.isSome_iff_exists.mp hsome
      obtain ⟨m, hm⟩ := hobs.isPoint_of_operation ha
      exact hm.exists_point
  · obtain ⟨e, he, -⟩ := (isPoint_of_point hm).exists_entry
    exact (List.getElem?_eq_some_iff.mp he).1
  · obtain ⟨e, he, hsent⟩ := (isPoint_of_point hm).exists_entry
    obtain ⟨e', he', hsent'⟩ := (isPoint_of_point hm').exists_entry
    cases he.symm.trans he'
    exact hhandled.call_unique hsent hsent'
  · rw [← hlength] at hm'
    have hm := hle.trans_lt hm'
    rw [List.getD_eq_getElem?_getD, List.getD_eq_getElem?_getD, List.getElem?_eq_getElem hm,
      List.getElem?_eq_getElem hm']
    rcases hle.lt_or_eq with hlt | rfl
    · exact Int.ofNat_le.mpr (List.pairwise_iff_getElem.mp hobs.sorted m m' hm hm' hlt)
    · exact le_rfl
  · obtain ⟨-, -, t, a', -, -, -, ht, ha', -, -, hwithin⟩ := (isPoint_of_point hm).operation hfew hinv hobs
    cases ha.symm.trans ha'
    rw [List.getD_eq_getElem?_getD, ht]
    exact hwithin
  · obtain ⟨call, reply, -, a', -, hop, hallowed, -, ha', hinput, houtput, -⟩ :=
      (isPoint_of_point hm).operation hfew hinv hobs
    cases ha.symm.trans ha'
    rw [nextInRegisters_of_allowed hallowed hinput houtput, storeAfter_take_succ hop]
  · rw [hhandled.idle hfew hinv hm hidle]

end Points

variable [NeZero n] [DecidableEq V]

/-- In every run the recorded calls are linearizable, with some of the calls that have not returned:
whatever RPCs get lost or come late, which leader a clerk finds and which server crashes. -/
theorem calls_linearizable {gob : Labgob K V B} {maxraftstate : ℤ} {w : World n K V B} {seen : Seen}
    (hgob : gob.RoundTrips) (hrun : Runs gob maxraftstate w seen)
    (hfew : ∀ key, successes key w.ops < UInt64.size) :
    ∃ replies, IsLinearizable (w.recorded seen replies) := by
  obtain ⟨hinv, hhandled, hobs⟩ := hrun.observed hgob
  exact ⟨w.replies, hobs.isLinearizable hfew hinv hhandled⟩

/-- The answer to the first copy of a `Put` is lost. The second copy makes it return `ErrMaybe`, and a
`Get` finds the value. -/
theorem calls_linearizable_maybe : ∃ (w : World 2 ℕ ℕ (KeyValue ℕ ℕ)) (seen : Seen),
    Runs (plainGob ℕ ℕ) 0 w seen ∧ w.calls = [⟨0, .put ⟨7, 5, 0⟩, .returned (.put ⟨.errMaybe⟩), []⟩,
      ⟨1, .get ⟨7⟩, .returned (.get ⟨5, 1, .ok⟩), []⟩] ∧
    ∃ replies, IsLinearizable (w.recorded seen replies) := by
  obtain ⟨⟨w, seen⟩, hreach, hlength, hcalls⟩ :=
    exists_reaches (recording (World.step (plainGob ℕ ℕ) 0) World.observe)
      (fun (s : World 2 ℕ ℕ (KeyValue ℕ ℕ) × Seen) a => s.1.FreshPlace a ∧ s.1.Reached a)
      (init (plainGob ℕ ℕ), .start)
      [.invoke 0 (.put ⟨7, 5, 0⟩), .send 0, .arrive 0, .start 0 0 (some (0, 1)), .commit 0, .giveUp 0,
        .send 0, .arrive 1, .start 1 0 (some (1, 2)), .event 1 (.register 0), .commit 1,
        .handover (.command 1 false 0), .event 1 .notify, .handover (.command 1 true 0),
        .event 1 .notify, .event 1 (.receive 0), .event 1 (.leave 0), .reply 1,
        .invoke 1 (.get ⟨7⟩), .send 1, .arrive 2, .start 0 1 (some (2, 2)), .event 0 (.register 1),
        .commit 2, .handover (.command 0 true 0), .event 0 .notify, .handover (.command 0 false 0),
        .event 0 .notify, .handover (.command 0 true 0), .event 0 .notify, .event 0 (.receive 1),
        .event 0 (.leave 1), .reply 2]
      (fun s => s.1.ops.length = 3 ∧
        s.1.calls = [⟨0, .put ⟨7, 5, 0⟩, .returned (.put ⟨.errMaybe⟩), []⟩,
          ⟨1, .get ⟨7⟩, .returned (.get ⟨5, 1, .ok⟩), []⟩])
      (by decide +kernel)
  refine ⟨w, seen, hreach, hcalls, calls_linearizable (fun _ _ => rfl) hreach fun key => ?_⟩
  have hle : successes key w.ops ≤ (List.range w.ops.length).length := List.countP_le_length
  rw [List.length_range] at hle
  exact hle.trans_lt (hlength ▸ by decide)

end World

end DistributedLabs.Kvraft
