import DistributedLabs.KvsrvExactlyOnce
import DistributedLabs.PorcupineOperations

/-!
# Histories of the single key/value server are linearizable

The tests record each call with its input, its output and the times at which it began and ended.
However requests and replies are lost, delayed and repeated, the calls can be put into one order
that a map of strings allows: a `Put` or `Append` stands where it made its write, a `Get` where the
request was served whose reply it has returned.
-/

namespace DistributedLabs.Kvsrv
open TransitionRuns Linearizability ListPositions KvsrvModels Porcupine

/-- The tests use 3 for an append whose value is checked. -/
def Op.code : Op → UInt8
  | .get => 0
  | .put => 1
  | .append => 3

/-- `Put` returns nothing. -/
def Op.output (op : Op) (value : String) : KvOutput := if op = .put then ⟨""⟩ else ⟨value⟩

def inputOf (op : Op) (args : Args) : KvInput :=
  ⟨op.code, args.key, if op = .get then "" else args.value⟩

/-- A request that was answered with the value of its key, or made its write. -/
structure Effect where
  call : ℕ
  time : ℕ
  /-- the position of the write -/
  write : Option ℕ
  input : KvInput
  output : KvOutput

/-- What an observer of the whole system writes down. The time is the number of steps. -/
structure Seen where
  now : ℕ
  /-- when each call was made -/
  called : List ℕ
  /-- when a call has got its last reply -/
  returned : ℕ → ℕ
  /-- when the request was served that this was the reply to -/
  point : ℕ → ℕ
  /-- when each reply was sent -/
  served : List ℕ
  effects : List Effect

/-- An effect as an operation on the store. -/
def Effect.apply (store : String → String) (e : Effect) : Option (String → String) :=
  nextInStore store ⟨0, e.input, 0, e.output, 0⟩

def Seen.start : Seen := ⟨0, [], fun _ => 0, fun _ => 0, [], []⟩

namespace World

def effect (w : World) (time a : ℕ) : Option Effect := do
  let attempt ← w.attempts[a]?
  let w' ← w.deliver a
  let input := inputOf attempt.op attempt.args
  let output := attempt.op.output (w.server.value attempt.args.key)
  if attempt.op = .get then some ⟨attempt.call, time, none, input, output⟩
  else if w.history.length < w'.history.length then
    some ⟨attempt.call, time, some w.history.length, input, output⟩
  else none

def observe (w : World) (action : Action) (seen : Seen) : Seen :=
  match action with
  | .invoke _ _ _ _ => { seen with now := seen.now + 1, called := seen.called ++ [seen.now] }
  | .send _ => { seen with now := seen.now + 1 }
  | .giveUp _ => { seen with now := seen.now + 1 }
  | .deliver a => { seen with
      now := seen.now + 1
      served := seen.served ++ [seen.now]
      effects := seen.effects ++ (w.effect seen.now a).toList }
  | .receive c r => { seen with
      now := seen.now + 1
      returned := Function.update seen.returned c seen.now
      point := Function.update seen.point c (seen.served.getD r 0) }

/-- A call as an operation. One that has not returned may have an output in `outputs`; then it
counts as returning now. -/
def operation (w : World) (seen : Seen) (outputs : ℕ → Option String) (c : ℕ) :
    Option (Operation KvInput KvOutput) :=
  w.calls[c]?.bind fun call =>
    match call.phase with
    | .returned value => some ⟨call.clerk, inputOf call.op call.args, seen.called.getD c 0,
        call.op.output value, seen.returned c⟩
    | _ => (outputs c).map fun value => ⟨call.clerk, inputOf call.op call.args, seen.called.getD c 0,
        call.op.output value, seen.now⟩

/-- The calls that have returned, and those others that have an output in `outputs`. -/
def recorded (w : World) (seen : Seen) (outputs : ℕ → Option String) : List (Operation KvInput KvOutput) :=
  (List.range w.calls.length).filterMap (w.operation seen outputs)

section Effects
variable {w w' : World} {seen seen' : Seen} {c : ℕ} {call call' : Call}

variable (w seen) in
/-- The effect is one of a call, after the call was made. A `Get` reads; a `Put` or `Append` makes
the write that the effect has. -/
structure Took (e : Effect) (call : Call) : Prop where
  made : w.calls[e.call]? = some call
  time : e.time < seen.now
  called : ∃ t, seen.called[e.call]? = some t ∧ t ≤ e.time
  input : e.input = inputOf call.op call.args
  read : call.op = .get → e.write = none ∧ ∃ value, e.output = call.op.output value
  wrote : call.op ≠ .get → ∃ p write, e.write = some p ∧ p ∈ call.writes ∧ w.history[p]? = some write ∧
    e.output = call.op.output write.before

variable (w seen) in
/-- The effects so far lead to the store. The effect of a call that has returned came before. -/
structure Observed : Prop where
  called : seen.called.length = w.calls.length
  calledBefore : ∀ t ∈ seen.called, t < seen.now
  served : seen.served.length = w.replies.length
  effects : ∀ e ∈ seen.effects, ∃ call, w.Took seen e call
  sorted : seen.effects.Pairwise fun e e' => e.time < e'.time ∧ ∀ p, e.write = some p → e'.write ≠ some p
  writes : ∀ (c : ℕ) call p, w.calls[c]? = some call → p ∈ call.writes →
    ∃ e ∈ seen.effects, e.call = c ∧ e.write = some p
  legal : runFrom Effect.apply (fun _ => "") seen.effects = some w.server.value
  read : ∀ (r a : ℕ) reply attempt, w.replies[r]? = some (a, reply) → w.attempts[a]? = some attempt →
    attempt.op = .get → ∃ e ∈ seen.effects, e.call = attempt.call ∧ seen.served[r]? = some e.time ∧
      e.output = Op.get.output reply.value
  waiting : ∀ (c : ℕ) call, w.calls[c]? = some call → call.op = .get → ¬call.Returned → call.reply.value = ""
  returned : ∀ (c : ℕ) call value, w.calls[c]? = some call → call.phase = .returned value →
    ∃ e ∈ seen.effects, e.call = c ∧ e.output = call.op.output value ∧ e.time < seen.returned c ∧
      (call.op = .get → e.time = seen.point c)

theorem observed_init : init.Observed .start where
  called := rfl
  calledBefore := by simp [Seen.start]
  served := rfl
  effects := by simp [Seen.start]
  sorted := .nil
  writes := by simp [init]
  legal := rfl
  read := by simp [init]
  waiting := by simp [init]
  returned := by simp [init]

theorem Took.mono {e : Effect} (h : w.Took seen e call) (hc : w'.calls[e.call]? = some call')
    (hsame : SameCall call call') (hhistory : ∃ more, w'.history = w.history ++ more)
    (hnow : seen.now ≤ seen'.now)
    (hcalled : ∀ (c t : ℕ), seen.called[c]? = some t → seen'.called[c]? = some t) : w'.Took seen' e call' where
  made := hc
  time := h.time.trans_le hnow
  called := by
    obtain ⟨t, ht, hle⟩ := h.called
    exact ⟨t, hcalled _ _ ht, hle⟩
  input := by rw [h.input, inputOf, inputOf, hsame.op, hsame.key, hsame.value]
  read := by
    rw [hsame.op]
    exact h.read
  wrote := by
    rw [hsame.op, hsame.writes]
    intro hop
    obtain ⟨p, write, hp, hmem, hwrite, hout⟩ := h.wrote hop
    obtain ⟨more, hmore⟩ := hhistory
    exact ⟨p, write, hp, hmem, hmore ▸ getElem?_append_of_some _ hwrite, hout⟩

theorem Took.later {e : Effect} (h : w.Took seen e call) (hcalls : w'.calls = w.calls)
    (hhistory : w'.history = w.history) (hnow : seen.now ≤ seen'.now) (hcalled : seen'.called = seen.called) :
    w'.Took seen' e call :=
  h.mono (hcalls ▸ h.made) (sameCall_refl _) ⟨[], by simp [hhistory]⟩ hnow fun _ _ ht => hcalled ▸ ht

theorem Observed.turn (h : w.Observed seen) (hinv : w.Inv) (hc : w.calls[c]? = some call)
    (hsame : SameCall call call') {clerks : ℕ → Clerk} {attempts : List Attempt}
    (hkept : ∀ (a : ℕ) attempt, w.attempts[a]? = some attempt → attempts[a]? = some attempt)
    {returned point : ℕ → ℕ} (hreturned : ∀ c₀, c₀ ≠ c → returned c₀ = seen.returned c₀)
    (hpoint : ∀ c₀, c₀ ≠ c → point c₀ = seen.point c₀)
    (hwaiting : call'.op = .get → ¬call'.Returned → call'.reply.value = "")
    (hdone : ∀ value, call'.phase = .returned value → ∃ e ∈ seen.effects, e.call = c ∧
      e.output = call'.op.output value ∧ e.time < returned c ∧ (call'.op = .get → e.time = point c)) :
    (w.turn c call' clerks attempts).Observed { seen with now := seen.now + 1, returned, point } where
  called := by simpa [World.turn] using h.called
  calledBefore t ht := (h.calledBefore t ht).trans (Nat.lt_succ_self _)
  served := h.served
  effects e he := by
    obtain ⟨call₀, htook⟩ := h.effects e he
    rcases eq_or_ne e.call c with heq | hne
    · have hlt : c < w.calls.length := (List.getElem?_eq_some_iff.mp hc).1
      have heq' : call₀ = call := Option.some.inj (htook.made.symm.trans (heq ▸ hc))
      subst heq'
      refine ⟨call', htook.mono ?_ hsame ⟨[], (List.append_nil _).symm⟩ (Nat.le_succ _) fun _ _ => id⟩
      rw [heq]
      exact List.getElem?_set_self hlt
    · exact ⟨call₀, htook.mono ((List.getElem?_set_ne hne.symm).trans htook.made) (sameCall_refl _)
        ⟨[], (List.append_nil _).symm⟩ (Nat.le_succ _) fun _ _ => id⟩
  sorted := h.sorted
  writes c₀ call₀ p hc₀ hp := by
    rcases getElem?_set_cases hc₀ with ⟨rfl, rfl⟩ | ⟨-, hc₀⟩
    · exact h.writes c₀ call p hc (hsame.writes ▸ hp)
    · exact h.writes c₀ call₀ p hc₀ hp
  legal := h.legal
  read r a reply attempt hr hattempt hop := by
    obtain ⟨attempt₀, -, hattempt₀, -⟩ := hinv.replies _ (List.mem_of_getElem? hr)
    cases (hkept _ _ hattempt₀).symm.trans hattempt
    exact h.read r a reply attempt hr hattempt₀ hop
  waiting c₀ call₀ hc₀ := by
    rcases getElem?_set_cases hc₀ with ⟨rfl, rfl⟩ | ⟨-, hc₀⟩
    · exact hwaiting
    · exact h.waiting c₀ call₀ hc₀
  returned c₀ call₀ value hc₀ hphase := by
    rcases getElem?_set_cases hc₀ with ⟨rfl, rfl⟩ | ⟨hne, hc₀⟩
    · exact hdone value hphase
    · obtain ⟨e, he, hcall, hout, hlt, hget⟩ := h.returned c₀ call₀ value hc₀ hphase
      refine ⟨e, he, hcall, hout, ?_, fun hop => ?_⟩
      · change e.time < returned c₀
        rwa [hreturned c₀ hne]
      · change e.time = point c₀
        rw [hpoint c₀ hne]
        exact hget hop

theorem Observed.send (h : w.Observed seen) (hinv : w.Inv) (hs : w.send c = some w') :
    w'.Observed { seen with now := seen.now + 1 } := by
  simp only [World.send, Option.bind_eq_bind, Option.bind_eq_some_iff] at hs
  obtain ⟨call, hc, hs⟩ := hs
  split at hs
  case h_2 => cases hs
  case h_1 hphase =>
  cases hs
  have hsame : SameCall call { call with phase := .waiting w.attempts.length } :=
    ⟨rfl, rfl, rfl, rfl, rfl, rfl⟩
  refine h.turn hinv hc hsame (fun a attempt ha => getElem?_append_of_some _ ha)
    (fun _ _ => rfl) (fun _ _ => rfl) (fun hop _ => ?_) (by simp)
  exact h.waiting c call hc hop (not_returned_of_sending hphase)

theorem Observed.giveUp (h : w.Observed seen) (hinv : w.Inv) (hs : w.giveUp c = some w') :
    w'.Observed { seen with now := seen.now + 1 } := by
  simp only [World.giveUp, Option.bind_eq_bind, Option.bind_eq_some_iff] at hs
  obtain ⟨call, hc, hs⟩ := hs
  split at hs
  case h_2 => cases hs
  case h_1 a hphase =>
  cases hs
  have hsame : SameCall call { call with phase := .sending } := ⟨rfl, rfl, rfl, rfl, rfl, rfl⟩
  refine h.turn hinv hc hsame (fun _ _ => id) (fun _ _ => rfl) (fun _ _ => rfl) (fun hop _ => ?_) (by simp)
  exact h.waiting c call hc hop (not_returned_of_waiting hphase)

theorem decodeInto_value {old : Reply} (hold : old.value = "") (new : Reply) :
    (old.decodeInto new).value = new.value := by
  simp only [Reply.decodeInto, hold]
  split_ifs with hnew
  · exact hnew.symm
  · rfl

theorem Observed.receive_get (h : w.Observed seen) (hinv : w.Inv) (hc : w.calls[c]? = some call)
    {a r : ℕ} {new : Reply} (hphase : call.phase = .waiting a) (hop : call.op = .get)
    (hr : w.replies[r]? = some (a, new)) :
    (w.setCall c { call with
      reply := call.reply.decodeInto new
      phase := .returned (call.reply.decodeInto new).value
      finished := w.history.length }).Observed { seen with
      now := seen.now + 1
      returned := Function.update seen.returned c seen.now
      point := Function.update seen.point c (seen.served.getD r 0) } := by
  have hempty := h.waiting c call hc hop (not_returned_of_waiting hphase)
  obtain ⟨e, he, hcall, hserved, hout⟩ := h.read r a new _ hr ((hinv.calls c call hc).waiting a hphase) hop
  obtain ⟨_, htook⟩ := h.effects e he
  have hsame : SameCall call { call with
      reply := call.reply.decodeInto new
      phase := .returned (call.reply.decodeInto new).value
      finished := w.history.length } := ⟨rfl, rfl, rfl, rfl, rfl, rfl⟩
  refine h.turn hinv hc hsame (fun _ _ => id)
    (fun _ hne => Function.update_of_ne hne _ _) (fun _ hne => Function.update_of_ne hne _ _)
    (fun _ hopen => absurd ⟨_, rfl⟩ hopen) fun value hvalue => ⟨e, he, hcall, ?_, ?_, fun _ => ?_⟩
  · cases hvalue
    rw [hout, decodeInto_value hempty]
    exact congrArg (Op.output · new.value) hop.symm
  · rw [Function.update_self]
    exact htook.time
  · rw [Function.update_self, List.getD_eq_getElem?_getD, hserved]
    rfl

/-- A `Put` or `Append` returns after it has made its write. -/
theorem Observed.acknowledge (h : w.Observed seen) (hinv : w.Inv) (hc : w.calls[c]? = some call)
    (hop : call.op ≠ .get) (hwrites : call.writes ≠ []) {reply : Reply}
    (hbefore : w.Before call reply.value) {clerks : ℕ → Clerk} {point : ℕ → ℕ}
    (hpoint : ∀ c₀, c₀ ≠ c → point c₀ = seen.point c₀) :
    (w.turn c { call with
      reply := reply, phase := .returned reply.value, finished := w.history.length } clerks
        w.attempts).Observed { seen with
      now := seen.now + 1
      returned := Function.update seen.returned c seen.now
      point := point } := by
  obtain ⟨p, hp⟩ := List.exists_mem_of_ne_nil _ hwrites
  obtain ⟨e, he, hcall, hwrite⟩ := h.writes c call p hc hp
  obtain ⟨call₀, htook⟩ := h.effects e he
  cases htook.made.symm.trans (hcall ▸ hc)
  obtain ⟨p', write, hp', -, hhistory, hout⟩ := htook.wrote hop
  cases hwrite.symm.trans hp'
  have hsame : SameCall call { call with
      reply := reply, phase := .returned reply.value, finished := w.history.length } :=
    ⟨rfl, rfl, rfl, rfl, rfl, rfl⟩
  refine h.turn hinv hc hsame (fun _ _ => id)
    (fun _ hne => Function.update_of_ne hne _ _) hpoint (fun _ hopen => absurd ⟨_, rfl⟩ hopen)
    fun value hvalue => ⟨e, he, hcall, ?_, ?_, fun hget => absurd hget hop⟩
  · cases hvalue
    change e.output = call.op.output reply.value
    cases hkind : call.op with
    | get => exact absurd hkind hop
    | put => rw [hout, hkind]; rfl
    | append =>
      obtain ⟨write', hwrite', hvalue⟩ := hbefore hkind p hp
      cases hwrite'.symm.trans hhistory
      rw [hout, hkind, hvalue]
  · rw [Function.update_self]
    exact htook.time

theorem Observed.receive {r : ℕ} (h : w.Observed seen) (hinv : w.Inv) (hs : w.receive c r = some w') :
    w'.Observed { seen with
      now := seen.now + 1
      returned := Function.update seen.returned c seen.now
      point := Function.update seen.point c (seen.served.getD r 0) } := by
  simp only [World.receive, Option.bind_eq_bind, Option.bind_eq_some_iff] at hs
  obtain ⟨call, hc, ⟨a, new⟩, hr, hs⟩ := hs
  obtain ⟨attempt, call₀, hattempt, hc₀, hanswered⟩ := hinv.replies _ (List.mem_of_getElem? hr)
  split at hs
  case h_1 a' hphase hop =>
    split_ifs at hs with ha
    cases hs
    exact h.receive_get hinv hc hphase hop (ha ▸ hr)
  case h_2 a' hphase hop =>
    split_ifs at hs with ha
    cases hs
    subst ha
    have hop : call.op ≠ .get := hop
    have hopen := not_returned_of_waiting hphase
    have hrun := (hinv.calls c call hc).running hop hopen
    cases hattempt.symm.trans ((hinv.calls c call hc).waiting a' hphase)
    cases hc₀.symm.trans hc
    unfold putAppendReply
    by_cases hnone : (w.clerks call.clerk).clientId = -1
    · rw [if_pos hnone]
      have hsame : SameCall call { call with
          reply := call.reply.decodeInto new
          args := { call.args with clientId := (call.reply.decodeInto new).clientId }
          phase := .sending } := ⟨rfl, rfl, rfl, rfl, rfl, rfl⟩
      exact h.turn hinv hc hsame (fun _ _ => id)
        (fun _ hne => Function.update_of_ne hne _ _) (fun _ hne => Function.update_of_ne hne _ _)
        (fun hget => absurd hget hop) (by simp)
    · have hsome : call.args.clientId ≠ -1 := fun heq => hnone (hrun.clientId.symm.trans heq)
      obtain ⟨hack, hwrites, hbefore⟩ := hanswered.answer hop hsome hopen
      have hack : new.ackId = call.args.transactionId + 1 := hack
      have hmatch : ((w.clerks call.clerk).transactionId : ℤ) = (call.reply.decodeInto new).ackId - 1 := by
        have := hrun.transactionId
        simp [Reply.decodeInto, hack]
        omega
      rw [if_neg hnone, if_pos hmatch]
      exact h.acknowledge hinv hc hop hwrites (decodeInto_value hrun.value new ▸ hbefore)
        fun _ hne => Function.update_of_ne hne _ _
  case h_3 => cases hs

theorem Observed.invoke (h : w.Observed seen) {k : ℕ} {op : Op} {key value : String}
    (hs : w.invoke k op key value = some w') :
    w'.Observed { seen with now := seen.now + 1, called := seen.called ++ [seen.now] } := by
  unfold World.invoke at hs
  split_ifs at hs with hidle
  cases hs
  exact {
    called := by simp [h.called]
    calledBefore := by
      intro t ht
      rcases List.mem_append.mp ht with ht | ht
      · exact (h.calledBefore t ht).trans (Nat.lt_succ_self _)
      · rw [List.mem_singleton.mp ht]
        exact Nat.lt_succ_self _
    served := h.served
    effects := by
      intro e he
      obtain ⟨call, htook⟩ := h.effects e he
      exact ⟨call, htook.mono (getElem?_append_of_some _ htook.made) (sameCall_refl _)
        ⟨[], (List.append_nil _).symm⟩ (Nat.le_succ _) fun _ _ => getElem?_append_of_some _⟩
    sorted := h.sorted
    writes := by
      intro c call p hc hp
      rcases getElem?_append_singleton_cases hc with hc | ⟨-, rfl⟩
      · exact h.writes c call p hc hp
      · cases hp
    legal := h.legal
    read := h.read
    waiting := by
      intro c call hc hop hopen
      rcases getElem?_append_singleton_cases hc with hc | ⟨-, rfl⟩
      · exact h.waiting c call hc hop hopen
      · rfl
    returned := by
      intro c call value hc hphase
      rcases getElem?_append_singleton_cases hc with hc | ⟨-, rfl⟩
      · exact h.returned c call value hc hphase
      · cases hphase }

theorem eq_of_apply_get {e : Effect} {args : Args} {store store' : String → String}
    (hinput : e.input = inputOf .get args) (h : e.apply store = some store') : store' = store := by
  simp only [Effect.apply, nextInStore_eq, hinput, inputOf, Op.code, KvModel.step, ↓reduceIte] at h
  split_ifs at h
  cases h
  exact Function.update_eq_self _ _

theorem apply_get (store : String → String) (args : Args) (c time : ℕ) (write : Option ℕ) :
    Effect.apply store ⟨c, time, write, inputOf .get args, Op.get.output (store args.key)⟩ = some store := by
  simp [Effect.apply, nextInStore_eq, inputOf, Op.code, Op.output, KvModel.step]

theorem apply_write {op : Op} (hop : op ≠ .get) (store : String → String) (args : Args) (c time : ℕ)
    (write : Option ℕ) :
    Effect.apply store ⟨c, time, write, inputOf op args, op.output (store args.key)⟩ =
      some (Function.update store args.key (op.combine (store args.key) args.value)) := by
  cases op with
  | get => exact absurd rfl hop
  | put => simp [Effect.apply, nextInStore_eq, inputOf, Op.code, Op.output, KvModel.step, Op.combine]
  | append => simp [Effect.apply, nextInStore_eq, inputOf, Op.code, Op.output, KvModel.step, Op.combine]

theorem Observed.tick (h : w.Observed seen) : w.Observed { seen with now := seen.now + 1 } where
  called := h.called
  calledBefore t ht := (h.calledBefore t ht).trans (Nat.lt_succ_self _)
  served := h.served
  effects e he := by
    obtain ⟨call, htook⟩ := h.effects e he
    exact ⟨call, htook.later rfl rfl (Nat.le_succ _) rfl⟩
  sorted := h.sorted
  writes := h.writes
  legal := h.legal
  read := h.read
  waiting := h.waiting
  returned := h.returned

theorem Observed.reply (h : w.Observed seen) {a t : ℕ} {attempt : Attempt} {reply : Reply}
    {server : KVServer} (hserver : server.value = w.server.value) (registered : List ℕ)
    (hattempt : w.attempts[a]? = some attempt)
    (hread : attempt.op = .get → ∃ e ∈ seen.effects, e.call = attempt.call ∧ e.time = t ∧
      e.output = Op.get.output reply.value) :
    World.Observed { w with server, replies := w.replies ++ [(a, reply)], registered }
      { seen with served := seen.served ++ [t] } where
  called := h.called
  calledBefore := h.calledBefore
  served := by simp [h.served]
  effects e he := by
    obtain ⟨call, htook⟩ := h.effects e he
    exact ⟨call, htook.later rfl rfl le_rfl rfl⟩
  sorted := h.sorted
  writes := h.writes
  legal := by
    rw [hserver]
    exact h.legal
  read r a₀ reply₀ attempt₀ hr hattempt₀ hop := by
    rcases getElem?_append_singleton_cases hr with hr | ⟨rfl, heq⟩
    · obtain ⟨e, he, hcall, hserved, hout⟩ := h.read r a₀ reply₀ attempt₀ hr hattempt₀ hop
      exact ⟨e, he, hcall, getElem?_append_of_some _ hserved, hout⟩
    · obtain ⟨rfl, rfl⟩ := Prod.mk.inj heq
      cases hattempt₀.symm.trans hattempt
      obtain ⟨e, he, hcall, rfl, hout⟩ := hread hop
      refine ⟨e, he, hcall, ?_, hout⟩
      rw [← h.served]
      exact List.getElem?_concat_length
  waiting := h.waiting
  returned := h.returned

theorem Observed.exists_called (h : w.Observed seen) (hc : w.calls[c]? = some call) :
    ∃ t, seen.called[c]? = some t := by
  have hlt : c < w.calls.length := (List.getElem?_eq_some_iff.mp hc).1
  exact ⟨_, List.getElem?_eq_getElem (h.called.symm ▸ hlt)⟩

/-- A `Get` is served. -/
theorem Observed.readEffect (h : w.Observed seen) (hc : w.calls[c]? = some call) (hop : call.op = .get)
    {args : Args} (hargs : inputOf .get args = inputOf call.op call.args) :
    w.Observed { seen with
      now := seen.now + 1
      effects := seen.effects ++
        [⟨c, seen.now, none, inputOf .get args, Op.get.output (w.server.value args.key)⟩] } where
  called := h.called
  calledBefore t ht := (h.calledBefore t ht).trans (Nat.lt_succ_self _)
  served := h.served
  effects e he := by
    rcases List.mem_append.mp he with he | he
    · obtain ⟨call, htook⟩ := h.effects e he
      exact ⟨call, htook.later rfl rfl (Nat.le_succ _) rfl⟩
    · rw [List.mem_singleton.mp he]
      obtain ⟨t, ht⟩ := h.exists_called hc
      exact ⟨call, hc, Nat.lt_succ_self _, ⟨t, ht, (h.calledBefore t (List.mem_of_getElem? ht)).le⟩, hargs,
        fun _ => ⟨rfl, _, by rw [hop]⟩, fun hne => absurd hop hne⟩
  sorted := by
    rw [List.pairwise_append]
    refine ⟨h.sorted, List.pairwise_singleton _ _, fun e he e' he' => ?_⟩
    rw [List.mem_singleton.mp he']
    obtain ⟨_, htook⟩ := h.effects e he
    exact ⟨htook.time, by simp⟩
  writes c₀ call₀ p hc₀ hp := by
    obtain ⟨e, he, hrest⟩ := h.writes c₀ call₀ p hc₀ hp
    exact ⟨e, List.mem_append_left _ he, hrest⟩
  legal := by
    rw [runFrom_append, h.legal, Option.bind_some, runFrom_cons, apply_get]
    rfl
  read r a reply attempt hr hattempt hget := by
    obtain ⟨e, he, hrest⟩ := h.read r a reply attempt hr hattempt hget
    exact ⟨e, List.mem_append_left _ he, hrest⟩
  waiting := h.waiting
  returned c₀ call₀ value hc₀ hphase := by
    obtain ⟨e, he, hrest⟩ := h.returned c₀ call₀ value hc₀ hphase
    exact ⟨e, List.mem_append_left _ he, hrest⟩

/-- A `Put` or `Append` makes its write. -/
theorem Observed.writeEffect (h : w.Observed seen) (hc : w.calls[c]? = some call)
    (hop : call.op ≠ .get) (hopen : ¬call.Returned) (hwrites : call.writes = []) (s : ℕ)
    (client : ClientAckTime) :
    (w.written c call s client).Observed { seen with
      now := seen.now + 1
      effects := seen.effects ++ [⟨c, seen.now, some w.history.length, inputOf call.op call.args,
        call.op.output (w.server.value call.args.key)⟩] } := by
  have hlt : c < w.calls.length := (List.getElem?_eq_some_iff.mp hc).1
  have hself : (w.written c call s client).calls[c]? =
      some { call with writes := call.writes ++ [w.history.length] } := List.getElem?_set_self hlt
  have hnone : ∀ e ∈ seen.effects, e.call ≠ c := by
    rintro e he rfl
    obtain ⟨call₀, htook⟩ := h.effects e he
    cases htook.made.symm.trans hc
    obtain ⟨p, -, -, hp, -⟩ := htook.wrote hop
    simp [hwrites] at hp
  refine ⟨?_, fun t ht => (h.calledBefore t ht).trans (Nat.lt_succ_self _), h.served, fun e he => ?_, ?_,
    fun c₀ call₀ p hc₀ hp => ?_, ?_, fun r a reply attempt hr hattempt hget => ?_,
    fun c₀ call₀ hc₀ hget => ?_, fun c₀ call₀ value hc₀ hphase => ?_⟩
  · simpa [written, setCall] using h.called
  · rcases List.mem_append.mp he with he | he
    · obtain ⟨call₀, htook⟩ := h.effects e he
      exact ⟨call₀, htook.mono ((List.getElem?_set_ne (hnone e he).symm).trans htook.made)
        (sameCall_refl _) ⟨_, rfl⟩ (Nat.le_succ _) fun _ _ => id⟩
    · rw [List.mem_singleton.mp he]
      obtain ⟨t, ht⟩ := h.exists_called hc
      exact ⟨_, hself, Nat.lt_succ_self _, ⟨t, ht, (h.calledBefore t (List.mem_of_getElem? ht)).le⟩, rfl,
        fun hget => absurd hget hop, fun _ => ⟨_, _, rfl, by simp, List.getElem?_concat_length, rfl⟩⟩
  · rw [List.pairwise_append]
    refine ⟨h.sorted, List.pairwise_singleton _ _, fun e he e' he' => ?_⟩
    rw [List.mem_singleton.mp he']
    obtain ⟨call₀, htook⟩ := h.effects e he
    refine ⟨htook.time, ?_⟩
    rintro p hp heq
    cases heq
    by_cases hget : call₀.op = .get
    · rw [(htook.read hget).1] at hp
      cases hp
    · obtain ⟨p, write, hp', -, hwrite, -⟩ := htook.wrote hget
      cases hp.symm.trans hp'
      exact absurd (List.getElem?_eq_some_iff.mp hwrite).1 (Nat.lt_irrefl _)
  · rcases getElem?_set_cases hc₀ with ⟨rfl, rfl⟩ | ⟨-, hc₀⟩
    · refine ⟨_, List.mem_append_right _ (List.mem_singleton.mpr rfl), rfl, ?_⟩
      have hp : p ∈ call.writes ++ [w.history.length] := hp
      simpa [hwrites, eq_comm] using hp
    · obtain ⟨e, he, hrest⟩ := h.writes c₀ call₀ p hc₀ hp
      exact ⟨e, List.mem_append_left _ he, hrest⟩
  · rw [runFrom_append, h.legal, Option.bind_some, runFrom_cons, apply_write hop]
    rw [Option.bind_some, runFrom_nil, Option.some.injEq]
    funext key
    rcases eq_or_ne key call.args.key with rfl | hne
    · simp [written, KVServer.value]
    · simp [written, KVServer.value, hne]
  · obtain ⟨e, he, hrest⟩ := h.read r a reply attempt hr hattempt hget
    exact ⟨e, List.mem_append_left _ he, hrest⟩
  · rcases getElem?_set_cases hc₀ with ⟨rfl, rfl⟩ | ⟨-, hc₀⟩
    · exact absurd hget hop
    · exact h.waiting c₀ call₀ hc₀ hget
  · rcases getElem?_set_cases hc₀ with ⟨rfl, rfl⟩ | ⟨-, hc₀⟩
    · exact absurd ⟨value, hphase⟩ hopen
    · obtain ⟨e, he, hrest⟩ := h.returned c₀ call₀ value hc₀ hphase
      exact ⟨e, List.mem_append_left _ he, hrest⟩

theorem Observed.deliver {a : ℕ} (h : w.Observed seen) (hinv : w.Inv) (hs : w.deliver a = some w') :
    w'.Observed { seen with
      now := seen.now + 1
      served := seen.served ++ [seen.now]
      effects := seen.effects ++ (w.effect seen.now a).toList } := by
  obtain ⟨attempt, hattempt, call, hc⟩ : ∃ attempt, w.attempts[a]? = some attempt ∧
      ∃ call, w.calls[attempt.call]? = some call := by
    have hs := hs
    simp only [World.deliver, Option.bind_eq_bind, Option.bind_eq_some_iff] at hs
    obtain ⟨attempt, hattempt, call, hc, -⟩ := hs
    exact ⟨attempt, hattempt, call, hc⟩
  obtain ⟨call₀, hc₀, hsent⟩ := hinv.attempts attempt (List.mem_of_getElem? hattempt)
  cases hc₀.symm.trans hc
  have hinput : inputOf attempt.op attempt.args = inputOf call.op call.args := by
    rw [inputOf, inputOf, hsent.op, hsent.key, hsent.value]
  by_cases hop : call.op = .get
  · have hop' : attempt.op = .get := hsent.op.trans hop
    have hw' : w' = { w with replies := w.replies ++ [(a, w.server.get attempt.args)] } := by
      have : w.deliver a = some { w with replies := w.replies ++ [(a, w.server.get attempt.args)] } := by
        simp [World.deliver, hattempt, hc, hop', KVServer.serve]
      exact Option.some.inj (hs.symm.trans this)
    have heffect : w.effect seen.now a = some ⟨attempt.call, seen.now, none, inputOf .get attempt.args,
        Op.get.output (w.server.value attempt.args.key)⟩ := by
      simp [effect, hattempt, hs, hop']
    rw [heffect, hw']
    exact (h.readEffect hc hop (hop' ▸ hinput)).reply rfl _ hattempt fun _ =>
      ⟨_, List.mem_append_right _ (List.mem_singleton.mpr rfl), rfl, rfl, rfl⟩
  · have hop' : attempt.op ≠ .get := fun hget => hop (hsent.op.symm.trans hget)
    have heffect : w.effect seen.now a = if w.history.length < w'.history.length then
        some ⟨attempt.call, seen.now, some w.history.length, inputOf call.op call.args,
          call.op.output (w.server.value call.args.key)⟩ else none := by
      simp [effect, hattempt, hs, hop', hinput, hsent.key, ← hsent.op]
    obtain ⟨w₁, reply, hw₁, hcases⟩ := hinv.deliver_cases hattempt hc
    cases hw₁.symm.trans hs
    rw [heffect]
    obtain ⟨-, -, rfl, rfl⟩ | ⟨-, -, hopen, hwrites, s, buffer, -, -, -, -, rfl, rfl⟩ | ⟨-, rfl⟩ := hcases
    · have hserver : (w.server.newClient attempt.args.transactionId).1.value = w.server.value := rfl
      rw [if_neg (Nat.lt_irrefl _), Option.toList_none, List.append_nil]
      exact h.tick.reply hserver _ hattempt fun hget => absurd hget hop'
    · rw [if_pos (by simp [written])]
      exact (h.writeEffect hc hop hopen hwrites s _).reply rfl _ hattempt fun hget => absurd hget hop'
    · rw [if_neg (Nat.lt_irrefl _), Option.toList_none, List.append_nil]
      exact h.tick.reply rfl _ hattempt fun hget => absurd hget hop'

theorem Observed.step (h : w.Observed seen) (hinv : w.Inv) {action : Action}
    (hs : w.step action = some w') : w'.Observed (w.observe action seen) := by
  cases action with
  | invoke k op key value => exact h.invoke hs
  | send c => exact h.send hinv hs
  | giveUp c => exact h.giveUp hinv hs
  | deliver a => exact h.deliver hinv hs
  | receive c r => exact h.receive hinv hs

/-- The runs with what is observed. -/
def Runs (w : World) (seen : Seen) : Prop :=
  Reaches (recording World.step World.observe) anyStep (init, .start) (w, seen)

theorem Runs.observed (h : Runs w seen) : w.Inv ∧ w.Observed seen := by
  refine @Reaches.invariant _ _ _ _ _ _ (fun s => s.1.Inv ∧ s.1.Observed s.2) h ⟨inv_init, observed_init⟩ ?_
  rintro ⟨w, seen⟩ action ⟨w', seen'⟩ ⟨hinv, hobs⟩ - hstep
  obtain ⟨hs, rfl⟩ := recording_eq_some hstep
  exact ⟨hinv.step hs, hobs.step hinv hs⟩

end Effects

section Order
variable {w : World} {seen : Seen} {c : ℕ} {call : Call} {e e' : Effect}

/-- The effects that count: the writes, and for a `Get` that has returned the request whose reply it
has got. -/
def counts (w : World) (seen : Seen) (e : Effect) : Bool :=
  w.calls[e.call]?.any fun call => call.op ≠ .get ∨ call.Returned ∧ e.time = seen.point e.call

theorem counts_iff (hc : w.calls[e.call]? = some call) :
    w.counts seen e ↔ call.op ≠ .get ∨ call.Returned ∧ e.time = seen.point e.call := by
  simp [counts, hc]

theorem Inv.writes_length_le (h : w.Inv) (hc : w.calls[c]? = some call) (hop : call.op ≠ .get) :
    call.writes.length ≤ 1 := by
  have hcall := h.calls c call hc
  by_cases hreturned : call.Returned
  · obtain ⟨value, hvalue⟩ := hreturned
    obtain ⟨-, ⟨p, hp, -⟩, -⟩ := hcall.finished value hop hvalue
    simp [hp]
  · exact (hcall.running hop hreturned).once

theorem Observed.pairwise_counts (h : w.Observed seen) (hinv : w.Inv) :
    (seen.effects.filter (w.counts seen)).Pairwise fun e e' => e.call ≠ e'.call := by
  refine (h.sorted.filter _).imp_of_mem ?_
  rintro e e' he he' ⟨hlt, hwrite⟩ heq
  obtain ⟨hmem, hcounts⟩ := List.mem_filter.mp he
  obtain ⟨hmem', hcounts'⟩ := List.mem_filter.mp he'
  obtain ⟨call, htook⟩ := h.effects e hmem
  obtain ⟨call', htook'⟩ := h.effects e' hmem'
  cases (heq ▸ htook.made).symm.trans htook'.made
  by_cases hop : call.op = .get
  · have htime := ((counts_iff htook.made).mp hcounts).resolve_left (not_not.mpr hop)
    have htime' := ((counts_iff htook'.made).mp hcounts').resolve_left (not_not.mpr hop)
    rw [htime.2, htime'.2, heq] at hlt
    exact Nat.lt_irrefl _ hlt
  · obtain ⟨p, -, hp, hmem, -⟩ := htook.wrote hop
    obtain ⟨p', -, hp', hmem', -⟩ := htook'.wrote hop
    obtain ⟨q, hq⟩ := List.length_eq_one_iff.mp
      (Nat.le_antisymm (hinv.writes_length_le htook.made hop) (List.length_pos_of_mem hmem))
    rw [hq, List.mem_singleton] at hmem hmem'
    exact hwrite q (hmem ▸ hp) (hmem' ▸ hp')

theorem Observed.eq_of_call_eq (h : w.Observed seen) (hinv : w.Inv) (he : e ∈ seen.effects)
    (hcounts : w.counts seen e) (he' : e' ∈ seen.effects) (hcounts' : w.counts seen e')
    (heq : e.call = e'.call) : e = e' := by
  have hnodup : ((seen.effects.filter (w.counts seen)).map Effect.call).Nodup :=
    List.pairwise_map.mpr (h.pairwise_counts hinv)
  exact List.inj_on_of_nodup_map hnodup (List.mem_filter.mpr ⟨he, hcounts⟩)
    (List.mem_filter.mpr ⟨he', hcounts'⟩) heq

theorem Observed.exists_counts (h : w.Observed seen) (hc : w.calls[c]? = some call) {value : String}
    (hphase : call.phase = .returned value) : ∃ e ∈ seen.effects, w.counts seen e ∧ e.call = c ∧
      e.output = call.op.output value ∧ e.time < seen.returned c := by
  obtain ⟨e, he, rfl, hout, hlt, hget⟩ := h.returned c call value hc hphase
  refine ⟨e, he, (counts_iff hc).mpr ?_, rfl, hout, hlt⟩
  by_cases hop : call.op = .get
  · exact .inr ⟨⟨value, hphase⟩, hget hop⟩
  · exact .inl hop

/-- The outputs that calls will have that took effect and have not returned. -/
def outputs (w : World) (seen : Seen) (c : ℕ) : Option String :=
  (seen.effects.find? fun e => e.call = c ∧ w.counts seen e).map fun e => e.output.value

theorem output_output (op : Op) (value : String) : op.output (op.output value).value = op.output value := by
  cases op <;> rfl

theorem Observed.operation_of_counts (h : w.Observed seen) (hinv : w.Inv) (he : e ∈ seen.effects)
    (hcounts : w.counts seen e) : ∃ a, w.operation seen (w.outputs seen) e.call = some a ∧
      a.input = e.input ∧ a.output = e.output ∧ a.call ≤ (e.time : ℤ) ∧ (e.time : ℤ) ≤ a.ret := by
  obtain ⟨call, htook⟩ := h.effects e he
  obtain ⟨t, ht, hle⟩ := htook.called
  have hcalled : ((seen.called.getD e.call 0 : ℕ) : ℤ) ≤ e.time := by
    rw [List.getD_eq_getElem?_getD, ht]
    exact Int.ofNat_le.mpr hle
  have hpending : ¬call.Returned → w.outputs seen e.call = some e.output.value := by
    intro hopen
    have hsome : (seen.effects.find? fun e' => e'.call = e.call ∧ w.counts seen e').isSome :=
      List.find?_isSome.mpr ⟨e, he, by simp [hcounts]⟩
    obtain ⟨e', he'⟩ := Option.isSome_iff_exists.mp hsome
    have hprop : e'.call = e.call ∧ w.counts seen e' := by simpa using List.find?_some he'
    rw [outputs, he', h.eq_of_call_eq hinv he hcounts (List.mem_of_find?_eq_some he') hprop.2 hprop.1.symm]
    rfl
  have hout : ¬call.Returned → call.op.output e.output.value = e.output := by
    intro hopen
    have hop : call.op ≠ .get := ((counts_iff htook.made).mp hcounts).resolve_right fun hr => hopen hr.1
    obtain ⟨p, write, -, -, -, hout⟩ := htook.wrote hop
    rw [hout, output_output]
  simp only [operation, htook.made, Option.bind_some]
  cases hphase : call.phase with
  | returned value =>
    obtain ⟨e', he', hcounts', hcall, hout', hlt⟩ := h.exists_counts htook.made hphase
    cases h.eq_of_call_eq hinv he hcounts he' hcounts' hcall.symm
    exact ⟨_, rfl, htook.input.symm, hout'.symm, hcalled, Int.ofNat_le.mpr hlt.le⟩
  | sending =>
    have hopen := not_returned_of_sending hphase
    rw [hpending hopen]
    exact ⟨_, rfl, htook.input.symm, hout hopen, hcalled, Int.ofNat_le.mpr htook.time.le⟩
  | waiting a =>
    have hopen := not_returned_of_waiting hphase
    rw [hpending hopen]
    exact ⟨_, rfl, htook.input.symm, hout hopen, hcalled, Int.ofNat_le.mpr htook.time.le⟩

theorem Observed.exists_of_operation (h : w.Observed seen) {a : Operation KvInput KvOutput}
    (ha : w.operation seen (w.outputs seen) c = some a) :
    ∃ e ∈ seen.effects, w.counts seen e ∧ e.call = c := by
  obtain ⟨call, hc, ha⟩ := Option.bind_eq_some_iff.mp ha
  have hpending : (w.outputs seen c).isSome → ∃ e ∈ seen.effects, w.counts seen e ∧ e.call = c := by
    intro hsome
    rw [outputs, Option.isSome_map] at hsome
    obtain ⟨e, he, hprop⟩ := List.find?_isSome.mp hsome
    have hprop : e.call = c ∧ w.counts seen e := by simpa using hprop
    exact ⟨e, he, hprop.2, hprop.1⟩
  split at ha
  · rename_i value hphase
    obtain ⟨e, he, hcounts, hcall, -⟩ := h.exists_counts hc hphase
    exact ⟨e, he, hcounts, hcall⟩
  · apply hpending
    obtain ⟨value, hvalue, -⟩ := Option.map_eq_some_iff.mp ha
    simp [hvalue]

theorem Observed.isLinearizableStore (h : w.Observed seen) (hinv : w.Inv) :
    IsLinearizableStore (w.recorded seen (w.outputs seen)) := by
  refine linearizable_of_effects ((seen.effects.filter (w.counts seen)).map fun e => (e.call, (e.time : ℤ)))
    ?_ ?_ ?_ ?_ ?_
  · rw [List.map_map]
    exact List.pairwise_map.mpr (h.pairwise_counts hinv)
  · intro c
    simp only [List.map_map, List.mem_map, List.mem_filter, Function.comp_apply]
    constructor
    · rintro ⟨e, ⟨he, hcounts⟩, rfl⟩
      obtain ⟨call, htook⟩ := h.effects e he
      obtain ⟨a, ha, -⟩ := h.operation_of_counts hinv he hcounts
      exact ⟨(List.getElem?_eq_some_iff.mp htook.made).1, by simp [ha]⟩
    · rintro ⟨-, hsome⟩
      obtain ⟨a, ha⟩ := Option.isSome_iff_exists.mp hsome
      obtain ⟨e, he, hcounts, hcall⟩ := h.exists_of_operation ha
      exact ⟨e, ⟨he, hcounts⟩, hcall⟩
  · rw [List.pairwise_map]
    refine (h.sorted.filter _).imp ?_
    intro e e' hlt
    exact Int.ofNat_le.mpr hlt.1.le
  · intro x hx a ha
    obtain ⟨e, he, rfl⟩ := List.mem_map.mp hx
    obtain ⟨he, hcounts⟩ := List.mem_filter.mp he
    obtain ⟨a', ha', -, -, hcall, hret⟩ := h.operation_of_counts hinv he hcounts
    cases ha.symm.trans ha'
    exact ⟨hcall, hret⟩
  · have hrun : runFrom nextInStore (fun _ => "") (((seen.effects.filter (w.counts seen)).map fun e =>
        (e.call, (e.time : ℤ))).filterMap fun x => w.operation seen (w.outputs seen) x.1) =
        some w.server.value := by
      rw [List.filterMap_map]
      refine (runFrom_filterMap ?_).trans (runFrom_filter (p := w.counts seen) ?_ h.legal)
      · intro e he
        obtain ⟨he, hcounts⟩ := List.mem_filter.mp he
        obtain ⟨a, ha, hinput, hout, -⟩ := h.operation_of_counts hinv he hcounts
        refine ⟨a, ha, fun s => ?_⟩
        rw [Effect.apply, nextInStore_eq, nextInStore_eq, hinput, hout]
      · intro e he hnot s t hst
        obtain ⟨call, htook⟩ := h.effects e he
        by_cases hop : call.op = .get
        · exact eq_of_apply_get (hop ▸ htook.input) hst
        · simp [counts, htook.made, hop] at hnot
    rw [hrun]
    rfl

end Order

/-- In every run the recorded calls are linearizable, once those calls that have not returned but
have taken effect are given their outputs. -/
theorem recorded_linearizable {w : World} {seen : Seen} (h : Runs w seen) :
    ∃ outputs, IsLinearizableStore (w.recorded seen outputs) := by
  obtain ⟨hinv, hobserved⟩ := h.observed
  exact ⟨_, hobserved.isLinearizableStore hinv⟩

theorem recorded_linearizable_lost_reply : ∃ w seen, Runs w seen ∧
    (∃ call ∈ w.calls[0]?, ¬call.Returned) ∧ (∃ call ∈ w.calls[1]?, call.phase = .returned "x") ∧
    ∃ outputs, IsLinearizableStore (w.recorded seen outputs) := by
  obtain ⟨⟨w, seen⟩, hreach, hpending, hreturned⟩ :=
    exists_reaches (recording World.step World.observe) anyStep (init, .start)
      [.invoke 0 .put "k" "x", .send 0, .deliver 0, .receive 0 0, .send 0, .deliver 1, .giveUp 0,
        .invoke 1 .get "k" "", .send 1, .deliver 2, .receive 1 2]
      (fun s => (∃ call ∈ s.1.calls[0]?, ¬call.Returned) ∧ ∃ call ∈ s.1.calls[1]?, call.phase = .returned "x")
      (by decide +kernel)
  exact ⟨w, seen, hreach, hpending, hreturned, recorded_linearizable hreach⟩

section Tests
variable {w : World} {seen : Seen} {log : List (Operation KvInput KvOutput)}

theorem recorded_eq_of_returned (hdone : ∀ call ∈ w.calls, call.Returned) (outputs outputs' : ℕ → Option String) :
    w.recorded seen outputs = w.recorded seen outputs' := by
  apply List.filterMap_congr
  intro c hc
  have hlt : c < w.calls.length := List.mem_range.mp hc
  obtain ⟨value, hvalue⟩ := hdone _ (List.getElem_mem hlt)
  simp [operation, hlt, hvalue]

theorem Observed.call_le_ret (h : w.Observed seen) (hinv : w.Inv) {op : Operation KvInput KvOutput}
    (hop : op ∈ w.recorded seen (w.outputs seen)) : op.call ≤ op.ret := by
  obtain ⟨c, -, hc⟩ := List.mem_filterMap.mp hop
  obtain ⟨e, he, hcounts, rfl⟩ := h.exists_of_operation hc
  obtain ⟨a, ha, -, -, hcall, hret⟩ := h.operation_of_counts hinv he hcounts
  cases hc.symm.trans ha
  exact hcall.trans hret

theorem recorded_ne_nil (hdone : ∀ call ∈ w.calls, call.Returned) (hne : w.calls ≠ [])
    (outputs : ℕ → Option String) : w.recorded seen outputs ≠ [] := by
  have hpos := List.length_pos_iff.mpr hne
  obtain ⟨value, hvalue⟩ := hdone _ (List.getElem_mem hpos)
  apply List.ne_nil_of_mem
  apply List.mem_filterMap.mpr
  exact ⟨0, List.mem_range.mpr hpos, by simp [operation, hpos, hvalue]; rfl⟩

/-- The tests let all calls return and check what they have recorded, in whatever order it was
written down. The check never finds a violation, and without a timeout it returns `Ok`. -/
theorem tests_accept (h : Runs w seen) (hdone : ∀ call ∈ w.calls, call.Returned) (hne : w.calls ≠ [])
    (hlog : log.Perm (w.recorded seen fun _ => none)) (sorting : Sorting KvInput KvOutput)
    (verbose timeout : Bool) :
    AlwaysReturns (fillDefault kvModel) (operationParts kvModel sorting log) verbose timeout ∧
    ∀ run, CheckOperations kvModel sorting log verbose timeout run →
      ∀ result info, run.phase = .returned result info →
        result ≠ .illegal ∧ (timeout = false → result = .ok) := by
  obtain ⟨hinv, hobserved⟩ := h.observed
  rw [recorded_eq_of_returned hdone _ (w.outputs seen)] at hlog
  have htimes : ∀ op ∈ log, op.call ≤ op.ret := fun op hop =>
    hobserved.call_le_ret hinv (hlog.mem_iff.mp hop)
  have hlin : IsLinearizableStore log := by
    obtain ⟨order, horder⟩ := hobserved.isLinearizableStore hinv
    exact ⟨order, horder.perm.trans hlog.symm, horder.realTime, horder.legal⟩
  have hnil : log ≠ [] := by
    rintro rfl
    exact recorded_ne_nil hdone hne _ (List.Perm.nil_eq hlog).symm
  refine ⟨alwaysReturns_kvModel htimes hnil, fun run hrun result info hphase => ?_⟩
  rcases result_kvModel htimes hrun hphase with ⟨rfl, -⟩ | ⟨-, hnot⟩ | ⟨rfl, htimeout⟩
  · exact ⟨by simp, fun _ => rfl⟩
  · exact absurd hlin hnot
  · exact ⟨by simp, fun hfalse => by simp [hfalse] at htimeout⟩

theorem tests_accept_two_clerks : ∃ w seen, Runs w seen ∧ w.calls.length = 2 ∧
    AlwaysReturns (fillDefault kvModel)
      (operationParts kvModel (insertionSorting _ _) (w.recorded seen fun _ => none)) true true := by
  obtain ⟨⟨w, seen⟩, hreach, hlength, hdone⟩ :=
    exists_reaches (recording World.step World.observe) anyStep (init, .start)
      [.invoke 0 .append "k" "x", .send 0, .deliver 0, .receive 0 0, .send 0, .deliver 1, .giveUp 0,
        .invoke 1 .get "k" "", .send 1, .deliver 2, .receive 1 2, .send 0, .deliver 3, .receive 0 3]
      (fun s => s.1.calls.length = 2 ∧ ∀ call ∈ s.1.calls, call.Returned)
      (by decide +kernel)
  have hne : w.calls ≠ [] := List.ne_nil_of_length_pos (by rw [hlength]; decide)
  exact ⟨w, seen, hreach, hlength, (tests_accept hreach hdone hne (List.Perm.refl _) _ _ _).1⟩

end Tests

end World
end DistributedLabs.Kvsrv
