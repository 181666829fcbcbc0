import DistributedLabs.Kvsrv
import DistributedLabs.ListPositions

/-!
# `Put` and `Append` take effect exactly once

A client id belongs to one clerk. The server's next transaction id for it is the
clerk's own, or one more while a call is running that has already made its write. So a
request of an earlier call never finds its transaction id again, and a repeated request
of the running call is answered with the value that the write has left behind.
-/

namespace DistributedLabs.Kvsrv
open TransitionRuns ListPositions

/-- What `Put` and `Append` write. -/
def Op.combine : Op → String → String → String
  | .append, value, new => value ++ new
  | .get, _, new => new
  | .put, _, new => new

section Handlers
variable {kv : KVServer} {args : Args} {op : Op} {handled : Handled}

/-- A `Put` or an `Append` registers a client, makes its write, or repeats an answer. -/
theorem serve_cases (hop : op ≠ .get) (h : kv.serve args op = some handled) :
    (args.clientId = -1 ∧ handled = ⟨(kv.newClient args.transactionId).1,
      ⟨"", kv.lenAckTime, args.transactionId⟩, none⟩) ∨
    args.clientId ≠ -1 ∧ ∃ client, kv.slot args.clientId = some client ∧
      ((args.transactionId = client.ackID ∧ ∃ buffer,
          (op = .append → buffer = kv.value args.key) ∧
          handled = ⟨{ kv with
              ackTime := kv.ackTime.set args.clientId.toNat ⟨1 + client.ackID, buffer⟩
              keyValue := Function.update kv.keyValue args.key
                (some (op.combine (kv.value args.key) args.value)) },
            ⟨kv.value args.key, args.clientId, 1 + client.ackID⟩,
            some (args.key, op.combine (kv.value args.key) args.value)⟩) ∨
        (args.transactionId ≠ client.ackID ∧
          handled = ⟨kv, ⟨client.valueBuffer, args.clientId, client.ackID⟩, none⟩)) := by
  have hkeep : ∃ keep, (op = .append → ∀ client value, keep client value = value) ∧
      kv.serve args op = KVServer.putAppend keep op.combine kv args := by
    cases op with
    | get => exact absurd rfl hop
    | put => exact ⟨fun client _ => client.valueBuffer, nofun, rfl⟩
    | append => exact ⟨fun _ value => value, fun _ _ _ => rfl, rfl⟩
  obtain ⟨keep, hkeep, hserve⟩ := hkeep
  rw [hserve, KVServer.putAppend] at h
  split_ifs at h with hnew
  · cases h
    exact Or.inl ⟨hnew, rfl⟩
  · refine Or.inr ⟨hnew, ?_⟩
    obtain ⟨client, hclient, rfl⟩ := Option.map_eq_some_iff.mp h
    refine ⟨client, hclient, ?_⟩
    split_ifs with hid
    · exact Or.inl ⟨hid, keep client (kv.value args.key), fun hop => hkeep hop _ _, rfl⟩
    · exact Or.inr ⟨hid, rfl⟩

/-- A request that names a client of the server does not make it panic. -/
theorem exists_serve (op : Op) (h : args.clientId ≠ -1 → ∃ client, kv.slot args.clientId = some client) :
    ∃ handled, kv.serve args op = some handled := by
  have hput : ∀ keep combine, ∃ handled, KVServer.putAppend keep combine kv args = some handled := by
    intro keep combine
    unfold KVServer.putAppend
    split_ifs with hnew
    · exact ⟨_, rfl⟩
    · obtain ⟨client, hclient⟩ := h hnew
      rw [hclient]
      exact ⟨_, rfl⟩
  cases op with
  | get => exact ⟨_, rfl⟩
  | put => exact hput (fun client _ => client.valueBuffer) fun _ new => new
  | append => exact hput (fun _ value => value) fun value new => value ++ new

theorem slot_natCast (s : ℕ) : kv.slot s = kv.ackTime[s]? := by
  unfold KVServer.slot
  rw [if_neg (by omega), Int.toNat_natCast]

end Handlers

/-- The map that the writes leave. -/
def replay (history : List Write) : String → Option String :=
  history.foldl (fun kv write => Function.update kv write.key (some write.after)) fun _ => none

theorem replay_append (history : List Write) (write : Write) :
    replay (history ++ [write]) =
      Function.update (replay history) write.key (some write.after) := by
  simp [replay]

namespace World

/-- The writes of the call came after it was made and wrote what it asks for. -/
structure Recorded (w : World) (call : Call) : Prop where
  started : call.started ≤ w.history.length
  wrote : ∀ p ∈ call.writes, call.started ≤ p ∧ ∃ write, w.history[p]? = some write ∧
    write.key = call.args.key ∧ write.after = call.op.combine write.before call.args.value

/-- If the call is an `Append`, the value is the one before its write. -/
def Before (w : World) (call : Call) (value : String) : Prop :=
  call.op = .append → ∀ p ∈ call.writes, ∃ write, w.history[p]? = some write ∧ value = write.before

/-- A `Put` or `Append` that has not returned. -/
structure Running (w : World) (call : Call) : Prop where
  transactionId : call.args.transactionId = (w.clerks call.clerk).transactionId
  clientId : call.args.clientId = (w.clerks call.clerk).clientId
  value : call.reply.value = ""
  fresh : call.args.clientId = -1 → call.reply = .zero ∧ call.writes = []
  slot : ∀ s : ℕ, call.args.clientId = s → ∃ client, w.server.ackTime[s]? = some client ∧
    client.ackID = call.args.transactionId + call.writes.length ∧ w.Before call client.valueBuffer
  once : call.writes.length ≤ 1

/-- A `Put` or `Append` that has returned. -/
structure Finished (w : World) (call : Call) (value : String) : Prop where
  transactionId : call.args.transactionId < (w.clerks call.clerk).transactionId
  write : ∃ p, call.writes = [p] ∧ p < call.finished
  before : w.Before call value

structure Accounted (w : World) (c : ℕ) (call : Call) : Prop where
  recorded : w.Recorded call
  running : call.op ≠ .get → ¬call.Returned → w.Running call
  finished : ∀ value, call.op ≠ .get → call.phase = .returned value → w.Finished call value
  waiting : ∀ a, call.phase = .waiting a → w.attempts[a]? = some ⟨c, call.op, call.args⟩

/-- The clerk has no client id yet, or it has one of its own that the server knows. -/
def Registered (w : World) (k : ℕ) : Prop :=
  (w.clerks k).clientId = -1 ∧ (w.clerks k).transactionId = 0 ∨
  ∃ s : ℕ, (w.clerks k).clientId = s ∧ w.registered[s]? = some k ∧
    ∃ client, w.server.ackTime[s]? = some client ∧
      (client.ackID = (w.clerks k).transactionId ∨
        ∃ call ∈ w.calls, call.clerk = k ∧ call.op ≠ .get ∧ ¬call.Returned)

/-- The request is one of the call, from before or after the clerk got its client id. -/
structure Sent (w : World) (attempt : Attempt) (call : Call) : Prop where
  op : attempt.op = call.op
  key : attempt.args.key = call.args.key
  value : attempt.args.value = call.args.value
  transactionId : attempt.args.transactionId = call.args.transactionId
  clientId : call.op ≠ .get →
    attempt.args.clientId = -1 ∧ attempt.args.transactionId = 0 ∨
    attempt.args.clientId ≠ -1 ∧ attempt.args.clientId = (w.clerks call.clerk).clientId

/-- What the reply to a request of the call may say. -/
structure Answered (w : World) (attempt : Attempt) (call : Call) (reply : Reply) : Prop where
  registration : call.op ≠ .get → attempt.args.clientId = -1 →
    reply.value = "" ∧ ∃ s : ℕ, reply.clientId = s ∧ w.registered[s]? = some call.clerk
  answer : call.op ≠ .get → attempt.args.clientId ≠ -1 → ¬call.Returned →
    reply.ackId = call.args.transactionId + 1 ∧ call.writes ≠ [] ∧ w.Before call reply.value

structure Inv (w : World) : Prop where
  registered : w.registered.length = w.server.ackTime.length
  lenAckTime : w.server.lenAckTime = w.server.ackTime.length
  unused : ∀ (s : ℕ) client k, w.server.ackTime[s]? = some client → w.registered[s]? = some k →
    (w.clerks k).clientId ≠ s → client.ackID = 0
  store : w.server.keyValue = replay w.history
  before : ∀ p write, w.history[p]? = some write →
    write.before = (replay (w.history.take p) write.key).getD ""
  clerks : ∀ k, w.Registered k
  attempts : ∀ attempt ∈ w.attempts, ∃ call, w.calls[attempt.call]? = some call ∧
    w.Sent attempt call
  replies : ∀ r ∈ w.replies, ∃ attempt call, w.attempts[r.1]? = some attempt ∧
    w.calls[attempt.call]? = some call ∧ w.Answered attempt call r.2
  calls : ∀ c call, w.calls[c]? = some call → w.Accounted c call
  single : ∀ (c c' : ℕ) (call call' : Call), w.calls[c]? = some call → w.calls[c']? = some call' →
    call.clerk = call'.clerk → ¬call.Returned → ¬call'.Returned → c = c'

theorem inv_init : init.Inv where
  registered := rfl
  lenAckTime := rfl
  unused := by simp [init, KVServer.start]
  store := rfl
  before := by simp [init]
  clerks _ := Or.inl ⟨rfl, rfl⟩
  attempts := by simp [init]
  replies := by simp [init]
  calls := by simp [init]
  single := by simp [init]

/-- The call asks for the same and has done the same. -/
structure SameCall (call call' : Call) : Prop where
  clerk : call'.clerk = call.clerk
  op : call'.op = call.op
  key : call'.args.key = call.args.key
  value : call'.args.value = call.args.value
  transactionId : call'.args.transactionId = call.args.transactionId
  writes : call'.writes = call.writes

/-- The world after a clerk has gone on with a call. -/
def turn (w : World) (c : ℕ) (call : Call) (clerks : ℕ → Clerk) (attempts : List Attempt) : World :=
  { w with calls := w.calls.set c call, clerks := clerks, attempts := attempts }

section Turn
variable {w w' : World} {c : ℕ} {call call' : Call} {clerks : ℕ → Clerk} {attempts : List Attempt}

theorem Sent.mono {attempt : Attempt} (h : w.Sent attempt call) (hsame : SameCall call call')
    (hid : ∀ k, (w.clerks k).clientId ≠ -1 → (w'.clerks k).clientId = (w.clerks k).clientId) :
    w'.Sent attempt call' where
  op := h.op.trans hsame.op.symm
  key := h.key.trans hsame.key.symm
  value := h.value.trans hsame.value.symm
  transactionId := h.transactionId.trans hsame.transactionId.symm
  clientId hop := by
    rw [hsame.op] at hop
    rw [hsame.clerk]
    rcases h.clientId hop with hnew | ⟨hne, hclient⟩
    · exact Or.inl hnew
    · exact Or.inr ⟨hne, hclient.trans (hid _ (hclient ▸ hne)).symm⟩

theorem Before.later {value : String} (h : w.Before call value) {more : List Write}
    (hhistory : w'.history = w.history ++ more) : w'.Before call value := by
  intro hop p hp
  obtain ⟨write, hwrite, hvalue⟩ := h hop p hp
  exact ⟨write, hhistory ▸ getElem?_append_of_some _ hwrite, hvalue⟩

theorem Recorded.later (h : w.Recorded call) {more : List Write}
    (hhistory : w'.history = w.history ++ more) : w'.Recorded call := by
  refine ⟨?_, fun p hp => ?_⟩
  · rw [hhistory, List.length_append]
    exact Nat.le_add_right_of_le h.started
  · obtain ⟨hstarted, write, hwrite, hrest⟩ := h.wrote p hp
    exact ⟨hstarted, write, hhistory ▸ getElem?_append_of_some _ hwrite, hrest⟩

theorem Accounted.later (h : w.Accounted c call) {more : List Write} (hclerks : w'.clerks = w.clerks)
    (hattempts : w'.attempts = w.attempts) (hhistory : w'.history = w.history ++ more)
    (hslot : ¬call.Returned → ∀ (s : ℕ) client, (w.clerks call.clerk).clientId = s →
      w.server.ackTime[s]? = some client → w'.server.ackTime[s]? = some client) :
    w'.Accounted c call := by
  refine ⟨h.recorded.later hhistory, fun hop hopen => ?_, fun value hop hvalue => ?_,
    hattempts ▸ h.waiting⟩
  · have hrun := h.running hop hopen
    refine ⟨hclerks ▸ hrun.transactionId, hclerks ▸ hrun.clientId, hrun.value, hrun.fresh,
      fun s hs => ?_, hrun.once⟩
    obtain ⟨client, hclient, hack, hbefore⟩ := hrun.slot s hs
    exact ⟨client, hslot hopen s client (hrun.clientId.symm.trans hs) hclient, hack,
      hbefore.later hhistory⟩
  · have hfinished := h.finished value hop hvalue
    exact ⟨hclerks ▸ hfinished.transactionId, hfinished.write, hfinished.before.later hhistory⟩

theorem Answered.later {attempt : Attempt} {reply : Reply} (h : w.Answered attempt call reply)
    {more : List Write} {clients : List ℕ} (hregistered : w'.registered = w.registered ++ clients)
    (hhistory : w'.history = w.history ++ more) : w'.Answered attempt call reply where
  registration hop hid := by
    obtain ⟨hvalue, s, hs, hk⟩ := h.registration hop hid
    exact ⟨hvalue, s, hs, hregistered ▸ getElem?_append_of_some _ hk⟩
  answer hop hid hopen := by
    obtain ⟨hack, hwrites, hbefore⟩ := h.answer hop hid hopen
    exact ⟨hack, hwrites, hbefore.later hhistory⟩

theorem sameCall_refl (call : Call) : SameCall call call := ⟨rfl, rfl, rfl, rfl, rfl, rfl⟩

theorem Before.congr {value : String} (h : w.Before call value) (hsame : SameCall call call')
    (hhistory : w'.history = w.history) : w'.Before call' value := by
  unfold Before at h ⊢
  rw [hsame.op, hsame.writes, hhistory]
  exact h

theorem Answered.congr {attempt : Attempt} {reply : Reply} (h : w.Answered attempt call reply)
    (hsame : SameCall call call') (hopen : ¬call'.Returned → ¬call.Returned)
    (hregistered : w'.registered = w.registered) (hhistory : w'.history = w.history) :
    w'.Answered attempt call' reply where
  registration hop hid := by
    rw [hsame.clerk, hregistered]
    exact h.registration (hsame.op ▸ hop) hid
  answer hop hid hrunning := by
    obtain ⟨hack, hwrites, hbefore⟩ := h.answer (hsame.op ▸ hop) hid (hopen hrunning)
    rw [hsame.transactionId, hsame.writes]
    exact ⟨hack, hwrites, hbefore.congr hsame hhistory⟩

theorem Inv.single_set (h : w.Inv) (hc : w.calls[c]? = some call) (hopen : ¬call.Returned)
    (hclerk : call'.clerk = call.clerk) (c₁ c₂ : ℕ) (call₁ call₂ : Call)
    (hc₁ : (w.calls.set c call')[c₁]? = some call₁) (hc₂ : (w.calls.set c call')[c₂]? = some call₂)
    (hclerks : call₁.clerk = call₂.clerk) (hrun₁ : ¬call₁.Returned) (hrun₂ : ¬call₂.Returned) :
    c₁ = c₂ := by
  have hback : ∀ (c₀ : ℕ) (call₀ : Call), (w.calls.set c call')[c₀]? = some call₀ →
      ¬call₀.Returned → ∃ call₁ : Call, w.calls[c₀]? = some call₁ ∧ call₁.clerk = call₀.clerk ∧
        ¬call₁.Returned := by
    intro c₀ call₀ hc₀ hrun
    rcases getElem?_set_cases hc₀ with ⟨rfl, rfl⟩ | ⟨-, hc₀⟩
    · exact ⟨call, hc, hclerk.symm, hopen⟩
    · exact ⟨call₀, hc₀, rfl, hrun⟩
  obtain ⟨call₃, hc₃, hclerk₃, hrun₃⟩ := hback c₁ call₁ hc₁ hrun₁
  obtain ⟨call₄, hc₄, hclerk₄, hrun₄⟩ := hback c₂ call₂ hc₂ hrun₂
  exact h.single c₁ c₂ call₃ call₄ hc₃ hc₄ (by rw [hclerk₃, hclerk₄, hclerks]) hrun₃ hrun₄

/-- The clerk of the running call may get its client id or go on to the next transaction; the
other clerks and the calls that have returned are not concerned. -/
theorem Inv.turn (h : w.Inv) (hc : w.calls[c]? = some call) (hopen : ¬call.Returned)
    (hsame : SameCall call call') (hother : ∀ k, k ≠ call.clerk → clerks k = w.clerks k)
    (hid : (w.clerks call.clerk).clientId ≠ -1 →
      (clerks call.clerk).clientId = (w.clerks call.clerk).clientId)
    (hnext : (w.clerks call.clerk).transactionId ≤ (clerks call.clerk).transactionId)
    (hkept : ∀ (a : ℕ) attempt, w.attempts[a]? = some attempt → attempts[a]? = some attempt)
    (hsent : ∀ attempt ∈ attempts, attempt ∈ w.attempts ∨
      attempt.call = c ∧ (w.turn c call' clerks attempts).Sent attempt call')
    (hclerk : (w.turn c call' clerks attempts).Registered call.clerk)
    (hcall : (w.turn c call' clerks attempts).Accounted c call') :
    (w.turn c call' clerks attempts).Inv := by
  have hids : ∀ k, (w.clerks k).clientId ≠ -1 → (clerks k).clientId = (w.clerks k).clientId := by
    intro k hk
    rcases eq_or_ne k call.clerk with rfl | hne
    · exact hid hk
    · rw [hother k hne]
  have hnexts : ∀ k, (w.clerks k).transactionId ≤ (clerks k).transactionId := by
    intro k
    rcases eq_or_ne k call.clerk with rfl | hne
    · exact hnext
    · exact Nat.le_of_eq (congrArg Clerk.transactionId (hother k hne)).symm
  have hlt : c < w.calls.length := (List.getElem?_eq_some_iff.mp hc).1
  have hold : ∀ c₀ call₀, w.calls[c₀]? = some call₀ →
      c₀ = c ∧ call₀ = call ∧ (w.calls.set c call')[c₀]? = some call' ∨
        (w.calls.set c call')[c₀]? = some call₀ := by
    intro c₀ call₀ hc₀
    rcases eq_or_ne c₀ c with rfl | hne
    · exact Or.inl ⟨rfl, Option.some.inj (hc₀.symm.trans hc), List.getElem?_set_self hlt⟩
    · exact Or.inr ((List.getElem?_set_ne hne.symm).trans hc₀)
  refine ⟨h.registered, h.lenAckTime, fun s client k hs hk hne => ?_, h.store, h.before,
    fun k => ?_, fun attempt hattempt => ?_, fun r hr => ?_, fun c₀ call₀ hc₀ => ?_, ?_⟩
  · refine h.unused s client k hs hk fun heq => hne ?_
    exact (hids k (by rw [heq]; omega)).trans heq
  · rcases eq_or_ne k call.clerk with rfl | hne
    · exact hclerk
    · unfold Registered at *
      simp only [World.turn, hother k hne] at hclerk ⊢
      rcases h.clerks k with hnone | ⟨s, hs, hk, client, hclient, hack⟩
      · exact Or.inl hnone
      · refine Or.inr ⟨s, hs, hk, client, hclient, hack.imp_right ?_⟩
        rintro ⟨call₀, hmem, rfl, hrunning⟩
        obtain ⟨c₀, hc₀⟩ := List.mem_iff_getElem?.mp hmem
        rcases hold c₀ call₀ hc₀ with ⟨-, rfl, -⟩ | hc₀
        · exact absurd rfl hne
        · exact ⟨call₀, List.mem_of_getElem? hc₀, rfl, hrunning⟩
  · rcases hsent attempt hattempt with hattempt | ⟨rfl, hnew⟩
    · obtain ⟨call₀, hc₀, hsent₀⟩ := h.attempts attempt hattempt
      rcases hold _ call₀ hc₀ with ⟨-, rfl, hc₀⟩ | hc₀
      · exact ⟨call', hc₀, hsent₀.mono hsame hids⟩
      · exact ⟨call₀, hc₀, hsent₀.mono (sameCall_refl call₀) hids⟩
    · exact ⟨call', List.getElem?_set_self hlt, hnew⟩
  · obtain ⟨attempt, call₀, hattempt, hc₀, hanswered⟩ := h.replies r hr
    rcases hold _ call₀ hc₀ with ⟨-, rfl, hc₀⟩ | hc₀
    · exact ⟨attempt, call', hkept _ _ hattempt, hc₀,
        hanswered.congr hsame (fun _ => hopen) rfl rfl⟩
    · exact ⟨attempt, call₀, hkept _ _ hattempt, hc₀,
        hanswered.congr (sameCall_refl call₀) id rfl rfl⟩
  · rcases getElem?_set_cases hc₀ with ⟨rfl, rfl⟩ | ⟨hne, hc₀⟩
    · exact hcall
    · obtain ⟨hrecorded, hrunning, hfinished, hwaiting⟩ := h.calls c₀ call₀ hc₀
      refine ⟨⟨hrecorded.started, hrecorded.wrote⟩, fun hop hrun => ?_, fun v hop hv => ?_,
        fun a ha => hkept a _ (hwaiting a ha)⟩
      · have hclerk₀ : call₀.clerk ≠ call.clerk := fun heq =>
          hne (h.single c₀ c call₀ call hc₀ hc heq hrun hopen)
        have hclerk' : w.clerks call₀.clerk = clerks call₀.clerk := (hother _ hclerk₀).symm
        have hrun₀ := hrunning hop hrun
        exact ⟨hrun₀.transactionId.trans (congrArg Clerk.transactionId hclerk'),
          hrun₀.clientId.trans (congrArg Clerk.clientId hclerk'), hrun₀.value, hrun₀.fresh,
          hrun₀.slot, hrun₀.once⟩
      · obtain ⟨htransaction, hwrite, hbefore⟩ := hfinished v hop hv
        exact ⟨Nat.lt_of_lt_of_le htransaction (hnexts _), hwrite, hbefore⟩
  · exact h.single_set hc hopen hsame.clerk

theorem Inv.transactionId_eq_zero (h : w.Inv) {k : ℕ} (hk : (w.clerks k).clientId = -1) :
    (w.clerks k).transactionId = 0 := by
  rcases h.clerks k with ⟨-, hzero⟩ | ⟨s, hs, -⟩
  · exact hzero
  · omega

theorem Inv.exists_slot (h : w.Inv) {k : ℕ} (hk : (w.clerks k).clientId ≠ -1) :
    ∃ s : ℕ, (w.clerks k).clientId = s ∧ w.registered[s]? = some k ∧
      ∃ client, w.server.ackTime[s]? = some client ∧
        (client.ackID = (w.clerks k).transactionId ∨
          ∃ call ∈ w.calls, call.clerk = k ∧ call.op ≠ .get ∧ ¬call.Returned) := by
  rcases h.clerks k with ⟨hnone, -⟩ | hs
  · exact absurd hnone hk
  · exact hs

theorem Inv.registered_turn (h : w.Inv) (hc : w.calls[c]? = some call) (hopen : ¬call.Returned)
    (hsame : SameCall call call') (hopen' : ¬call'.Returned) :
    (w.turn c call' w.clerks attempts).Registered call.clerk := by
  rcases h.clerks call.clerk with hnone | ⟨s, hs, hk, client, hclient, hack⟩
  · exact Or.inl hnone
  · refine Or.inr ⟨s, hs, hk, client, hclient, hack.imp_right ?_⟩
    rintro ⟨call₀, hmem, hclerk, hop, hrun⟩
    obtain ⟨c₀, hc₀⟩ := List.mem_iff_getElem?.mp hmem
    obtain rfl := h.single c₀ c call₀ call hc₀ hc hclerk hrun hopen
    cases hc₀.symm.trans hc
    have hlt : c₀ < w.calls.length := (List.getElem?_eq_some_iff.mp hc).1
    exact ⟨call', List.mem_of_getElem? (List.getElem?_set_self hlt), hsame.clerk,
      hsame.op ▸ hop, hopen'⟩

theorem not_returned_of_sending (h : call.phase = .sending) : ¬call.Returned := by
  rintro ⟨v, hv⟩
  cases h.symm.trans hv

theorem not_returned_of_waiting {a : ℕ} (h : call.phase = .waiting a) : ¬call.Returned := by
  rintro ⟨v, hv⟩
  cases h.symm.trans hv

theorem Inv.send (h : w.Inv) (hs : w.send c = some w') : w'.Inv := by
  simp only [World.send, Option.bind_eq_bind, Option.bind_eq_some_iff] at hs
  obtain ⟨call, hc, hs⟩ := hs
  split at hs
  case h_2 => cases hs
  case h_1 hphase =>
  cases hs
  have hopen := not_returned_of_sending hphase
  have hsame : SameCall call { call with phase := .waiting w.attempts.length } :=
    ⟨rfl, rfl, rfl, rfl, rfl, rfl⟩
  have hopen' : ¬Call.Returned { call with phase := .waiting w.attempts.length } :=
    not_returned_of_waiting rfl
  obtain ⟨hrecorded, hrunning, -, -⟩ := h.calls c call hc
  refine h.turn hc hopen hsame (fun _ _ => rfl) (fun _ => rfl) (Nat.le_refl _)
    (fun a attempt ha => getElem?_append_of_some [⟨c, call.op, call.args⟩] ha)
    (fun attempt hattempt => ?_) (h.registered_turn hc hopen hsame hopen') ?_
  · rcases List.mem_append.mp hattempt with hattempt | hattempt
    · exact Or.inl hattempt
    · rw [List.mem_singleton.mp hattempt]
      refine Or.inr ⟨rfl, rfl, rfl, rfl, rfl, fun hop => ?_⟩
      have hrun := hrunning hop hopen
      by_cases hid : call.args.clientId = -1
      · exact Or.inl ⟨hid, hrun.transactionId.trans
          (h.transactionId_eq_zero (hrun.clientId.symm.trans hid))⟩
      · exact Or.inr ⟨hid, hrun.clientId⟩
  · refine ⟨⟨hrecorded.started, hrecorded.wrote⟩, fun hop _ => ?_, nofun, fun a ha => ?_⟩
    · have hrun := hrunning hop hopen
      exact ⟨hrun.transactionId, hrun.clientId, hrun.value, hrun.fresh, hrun.slot, hrun.once⟩
    · cases ha
      exact List.getElem?_concat_length

theorem Inv.giveUp (h : w.Inv) (hs : w.giveUp c = some w') : w'.Inv := by
  simp only [World.giveUp, Option.bind_eq_bind, Option.bind_eq_some_iff] at hs
  obtain ⟨call, hc, hs⟩ := hs
  split at hs
  case h_2 => cases hs
  case h_1 a hphase =>
  cases hs
  have hopen := not_returned_of_waiting hphase
  have hsame : SameCall call { call with phase := .sending } := ⟨rfl, rfl, rfl, rfl, rfl, rfl⟩
  have hopen' : ¬Call.Returned { call with phase := .sending } := not_returned_of_sending rfl
  obtain ⟨hrecorded, hrunning, -, -⟩ := h.calls c call hc
  refine h.turn hc hopen hsame (fun _ _ => rfl) (fun _ => rfl) (Nat.le_refl _)
    (fun _ _ => id) (fun _ => Or.inl) (h.registered_turn hc hopen hsame hopen')
    ⟨⟨hrecorded.started, hrecorded.wrote⟩, fun hop _ => ?_, nofun, nofun⟩
  have hrun := hrunning hop hopen
  exact ⟨hrun.transactionId, hrun.clientId, hrun.value, hrun.fresh, hrun.slot, hrun.once⟩

theorem Inv.receive_get (h : w.Inv) (hc : w.calls[c]? = some call) (hopen : ¬call.Returned)
    (hop : call.op = .get) (reply : Reply) :
    (w.setCall c { call with
      reply := reply, phase := .returned reply.value, finished := w.history.length }).Inv := by
  have hrecorded := (h.calls c call hc).recorded
  refine h.turn hc hopen ⟨rfl, rfl, rfl, rfl, rfl, rfl⟩ (fun _ _ => rfl) (fun _ => rfl)
    (Nat.le_refl _) (fun _ _ => id) (fun _ => Or.inl) ?_
    ⟨⟨hrecorded.started, hrecorded.wrote⟩, fun hne => absurd hop hne,
      fun v hne => absurd hop hne, nofun⟩
  rcases h.clerks call.clerk with hnone | ⟨s, hs, hk, client, hclient, hack⟩
  · exact Or.inl hnone
  · refine Or.inr ⟨s, hs, hk, client, hclient, Or.inl ?_⟩
    rcases hack with hack | ⟨call₀, hmem, hclerk, hop₀, hrun⟩
    · exact hack
    · obtain ⟨c₀, hc₀⟩ := List.mem_iff_getElem?.mp hmem
      obtain rfl := h.single c₀ c call₀ call hc₀ hc hclerk hrun hopen
      cases hc₀.symm.trans hc
      exact absurd hop hop₀

/-- The clerk takes the client id from the reply. -/
theorem Inv.register (h : w.Inv) (hc : w.calls[c]? = some call) (hopen : ¬call.Returned)
    (hop : call.op ≠ .get) (hnone : (w.clerks call.clerk).clientId = -1) {reply : Reply} {s : ℕ}
    (hvalue : reply.value = "") (hid : reply.clientId = s)
    (hs : w.registered[s]? = some call.clerk) : (w.putAppendReply c call reply).Inv := by
  have hrun := (h.calls c call hc).running hop hopen
  have hrecorded := (h.calls c call hc).recorded
  have hzero := h.transactionId_eq_zero hnone
  have hwrites := (hrun.fresh (hrun.clientId.trans hnone)).2
  obtain ⟨client, hclient, hack⟩ : ∃ client, w.server.ackTime[s]? = some client ∧
      client.ackID = 0 := by
    have hlt : s < w.server.ackTime.length := h.registered ▸ (List.getElem?_eq_some_iff.mp hs).1
    exact ⟨_, List.getElem?_eq_getElem hlt, h.unused s _ _ (List.getElem?_eq_getElem hlt) hs
      (by omega)⟩
  rw [putAppendReply, if_pos hnone]
  refine h.turn hc hopen ⟨rfl, rfl, rfl, rfl, rfl, rfl⟩
    (fun k hk => Function.update_of_ne hk _ _) (fun hne => absurd hnone hne) ?_
    (fun _ _ => id) (fun _ => Or.inl) ?_ ⟨⟨hrecorded.started, hrecorded.wrote⟩, fun _ _ => ?_,
      nofun, nofun⟩
  · simp
  · refine Or.inr ⟨s, ?_, hs, client, hclient, Or.inl ?_⟩
    · simp [World.turn, hid]
    · simp [World.turn, hack, hzero]
  · refine ⟨?_, ?_, hvalue, fun hfresh => ?_, fun s' hs' => ?_, hrun.once⟩
    · simp [World.turn, hrun.transactionId]
    · simp [World.turn]
    · have hfresh : reply.clientId = -1 := hfresh
      omega
    · have hs' : reply.clientId = s' := hs'
      obtain rfl : s' = s := by omega
      refine ⟨client, hclient, ?_, fun _ p hp => ?_⟩
      · change client.ackID = call.args.transactionId + call.writes.length
        rw [hack, hrun.transactionId, hzero, hwrites]
        rfl
      · replace hp : p ∈ call.writes := hp
        rw [hwrites] at hp
        cases hp

theorem Inv.acknowledge (h : w.Inv) (hc : w.calls[c]? = some call) (hopen : ¬call.Returned)
    (hop : call.op ≠ .get) (hsome : (w.clerks call.clerk).clientId ≠ -1) {reply : Reply}
    (hack : reply.ackId = call.args.transactionId + 1) (hwrites : call.writes ≠ [])
    (hbefore : w.Before call reply.value) : (w.putAppendReply c call reply).Inv := by
  have hrun := (h.calls c call hc).running hop hopen
  have hrecorded := (h.calls c call hc).recorded
  have htransaction := hrun.transactionId
  have hmatch : ((w.clerks call.clerk).transactionId : ℤ) = reply.ackId - 1 := by omega
  obtain ⟨p, hp⟩ : ∃ p, call.writes = [p] := by
    apply List.length_eq_one_iff.mp
    have hpos := List.length_pos_iff.mpr hwrites
    have honce := hrun.once
    omega
  rw [putAppendReply, if_neg hsome, if_pos hmatch]
  refine h.turn hc hopen ⟨rfl, rfl, rfl, rfl, rfl, rfl⟩
    (fun k hk => Function.update_of_ne hk _ _) (fun _ => ?_) ?_ (fun _ _ => id) (fun _ => Or.inl)
    ?_ ⟨⟨hrecorded.started, hrecorded.wrote⟩, fun _ hrunning => absurd ⟨_, rfl⟩ hrunning,
      fun v _ hv => ?_, nofun⟩
  · simp
  · simp only [Function.update_self]
    omega
  · obtain ⟨s, hs, hk, -⟩ := h.exists_slot hsome
    obtain ⟨client, hclient, hid, -⟩ := hrun.slot s (hrun.clientId.trans hs)
    refine Or.inr ⟨s, ?_, hk, client, hclient, Or.inl ?_⟩
    · simp [World.turn, hs]
    · simp [World.turn, hid, hack, hp]
  · cases hv
    refine ⟨?_, ⟨p, hp, ?_⟩, hbefore⟩
    · simp only [World.turn, Function.update_self]
      omega
    · obtain ⟨-, write, hwrite, -⟩ := hrecorded.wrote p (by simp [hp])
      exact (List.getElem?_eq_some_iff.mp hwrite).1

theorem decodeInto_zero (reply : Reply) : Reply.zero.decodeInto reply = reply := by
  obtain ⟨value, clientId, ackId⟩ := reply
  simp only [Reply.decodeInto, Reply.zero, Reply.mk.injEq]
  refine ⟨?_, ?_, ?_⟩ <;> split_ifs with hzero <;> simp [hzero]

theorem Inv.receive {r : ℕ} (h : w.Inv) (hs : w.receive c r = some w') : w'.Inv := by
  simp only [World.receive, Option.bind_eq_bind, Option.bind_eq_some_iff] at hs
  obtain ⟨call, hc, ⟨a, new⟩, hr, hs⟩ := hs
  obtain ⟨attempt, call₀, hattempt, hc₀, hanswered⟩ := h.replies _ (List.mem_of_getElem? hr)
  split at hs
  case h_1 a' hphase hop =>
    split_ifs at hs
    cases hs
    exact h.receive_get hc (not_returned_of_waiting hphase) hop _
  case h_2 a' hphase hop =>
    split_ifs at hs with ha
    cases hs
    subst ha
    have hop : call.op ≠ .get := hop
    have hopen := not_returned_of_waiting hphase
    have hrun := (h.calls c call hc).running hop hopen
    cases hattempt.symm.trans ((h.calls c call hc).waiting a' hphase)
    cases hc₀.symm.trans hc
    by_cases hnone : (w.clerks call.clerk).clientId = -1
    · have hnone' := hrun.clientId.trans hnone
      obtain ⟨hvalue, s, hid, hk⟩ := hanswered.registration hop hnone'
      rw [(hrun.fresh hnone').1, decodeInto_zero]
      exact h.register hc hopen hop hnone hvalue hid hk
    · have hsome : call.args.clientId ≠ -1 := fun heq => hnone (hrun.clientId.symm.trans heq)
      obtain ⟨hack, hwrites, hbefore⟩ := hanswered.answer hop hsome hopen
      have hvalue : (call.reply.decodeInto new).value = new.value := by
        simp only [Reply.decodeInto, hrun.value]
        split_ifs with hempty
        · exact hempty.symm
        · rfl
      refine h.acknowledge hc hopen hop hnone ?_ hwrites (hvalue ▸ hbefore)
      have hack : new.ackId = call.args.transactionId + 1 := hack
      simp [Reply.decodeInto, hack]
  case h_3 => cases hs

theorem Inv.invoke (h : w.Inv) {k : ℕ} {op : Op} {key value : String}
    (hs : w.invoke k op key value = some w') : w'.Inv := by
  unfold World.invoke at hs
  split_ifs at hs with hidle
  cases hs
  have hlt : ∀ {c₀ : ℕ} {call₀ : Call}, w.calls[c₀]? = some call₀ →
      (w.calls ++ [⟨k, op, ⟨key, value, (w.clerks k).clientId, (w.clerks k).transactionId⟩, .zero,
        .sending, w.history.length, 0, []⟩])[c₀]? = some call₀ := getElem?_append_of_some _
  refine ⟨h.registered, h.lenAckTime, h.unused, h.store, h.before, fun k₀ => ?_,
    fun attempt hattempt => ?_, fun r hr => ?_, fun c₀ call₀ hc₀ => ?_, ?_⟩
  · rcases h.clerks k₀ with hnone | ⟨s, hs, hk, client, hclient, hack⟩
    · exact Or.inl hnone
    · refine Or.inr ⟨s, hs, hk, client, hclient, hack.imp_right ?_⟩
      rintro ⟨call₀, hmem, hrest⟩
      exact ⟨call₀, List.mem_append_left _ hmem, hrest⟩
  · obtain ⟨call₀, hc₀, hsent⟩ := h.attempts attempt hattempt
    exact ⟨call₀, hlt hc₀, hsent.mono (sameCall_refl call₀) fun _ _ => rfl⟩
  · obtain ⟨attempt, call₀, hattempt, hc₀, hanswered⟩ := h.replies r hr
    exact ⟨attempt, call₀, hattempt, hlt hc₀, hanswered.congr (sameCall_refl call₀) id rfl rfl⟩
  · rcases getElem?_append_singleton_cases hc₀ with hc₀ | ⟨-, rfl⟩
    · exact (h.calls c₀ call₀ hc₀).later rfl rfl (List.append_nil _).symm fun _ _ _ _ => id
    · refine ⟨⟨Nat.le_refl _, nofun⟩, fun _ _ => ⟨rfl, rfl, rfl, fun _ => ⟨rfl, rfl⟩, ?_, by simp⟩,
        nofun, nofun⟩
      intro s hs
      have hs : (w.clerks k).clientId = s := hs
      obtain ⟨s', hs', -, client, hclient, hack⟩ := h.exists_slot (k := k) (by omega)
      obtain rfl : s' = s := by omega
      refine ⟨client, hclient, ?_, nofun⟩
      rcases hack with hack | ⟨call₀, hmem, hclerk, -, hrun⟩
      · exact hack
      · exact absurd (hidle call₀ hmem hclerk) hrun
  · intro c₁ c₂ call₁ call₂ hc₁ hc₂ hclerks hrun₁ hrun₂
    rcases getElem?_append_singleton_cases hc₁ with hc₁ | ⟨rfl, rfl⟩ <;>
      rcases getElem?_append_singleton_cases hc₂ with hc₂ | ⟨rfl, rfl⟩
    · exact h.single c₁ c₂ call₁ call₂ hc₁ hc₂ hclerks hrun₁ hrun₂
    · exact absurd (hidle call₁ (List.mem_of_getElem? hc₁) hclerks) hrun₁
    · exact absurd (hidle call₂ (List.mem_of_getElem? hc₂) hclerks.symm) hrun₂
    · rfl

end Turn

section Deliver
variable {w w' : World} {a : ℕ} {attempt : Attempt} {call : Call}

/-- The server answers and stays as it is. -/
theorem Inv.answer (h : w.Inv) {reply : Reply} (hattempt : w.attempts[a]? = some attempt)
    (hc : w.calls[attempt.call]? = some call) (hanswered : w.Answered attempt call reply) :
    Inv { w with replies := w.replies ++ [(a, reply)] } where
  registered := h.registered
  lenAckTime := h.lenAckTime
  unused := h.unused
  store := h.store
  before := h.before
  clerks := h.clerks
  attempts attempt₀ hattempt₀ := by
    obtain ⟨call₀, hc₀, hsent⟩ := h.attempts attempt₀ hattempt₀
    exact ⟨call₀, hc₀, hsent.mono (sameCall_refl call₀) fun _ _ => rfl⟩
  replies r hr := by
    rcases List.mem_append.mp hr with hr | hr
    · obtain ⟨attempt₀, call₀, hattempt₀, hc₀, hanswered₀⟩ := h.replies r hr
      exact ⟨attempt₀, call₀, hattempt₀, hc₀, hanswered₀.congr (sameCall_refl call₀) id rfl rfl⟩
    · rw [List.mem_singleton.mp hr]
      exact ⟨attempt, call, hattempt, hc, hanswered.congr (sameCall_refl call) id rfl rfl⟩
  calls c₀ call₀ hc₀ :=
    (h.calls c₀ call₀ hc₀).later rfl rfl (List.append_nil _).symm fun _ _ _ _ => id
  single := h.single

/-- The server makes a slot for a new client. -/
theorem Inv.newClient (h : w.Inv) (k : ℕ) {transactionId : ℕ} (hzero : transactionId = 0) :
    Inv { w with
      server := (w.server.newClient transactionId).1, registered := w.registered ++ [k] } := by
  have hslot : ∀ {s : ℕ} {client : ClientAckTime}, w.server.ackTime[s]? = some client →
      (w.server.newClient transactionId).1.ackTime[s]? = some client := getElem?_append_of_some _
  refine ⟨?_, ?_, fun s client k₀ hs hk hne => ?_, h.store, h.before, fun k₀ => ?_,
    fun attempt₀ hattempt₀ => ?_, fun r hr => ?_, fun c₀ call₀ hc₀ => ?_, h.single⟩
  · simp [KVServer.newClient, h.registered]
  · simp [KVServer.newClient, h.lenAckTime, Nat.add_comm]
  · rcases getElem?_append_singleton_cases hs with hs | ⟨-, rfl⟩
    · rcases getElem?_append_singleton_cases hk with hk | ⟨hlength, -⟩
      · exact h.unused s client k₀ hs hk hne
      · have hlt := (List.getElem?_eq_some_iff.mp hs).1
        rw [hlength, h.registered] at hlt
        exact absurd hlt (Nat.lt_irrefl _)
    · exact hzero
  · rcases h.clerks k₀ with hnone | ⟨s, hs, hk, client, hclient, hack⟩
    · exact Or.inl hnone
    · exact Or.inr ⟨s, hs, getElem?_append_of_some _ hk, client, hslot hclient, hack⟩
  · obtain ⟨call₀, hc₀, hsent⟩ := h.attempts attempt₀ hattempt₀
    exact ⟨call₀, hc₀, hsent.mono (sameCall_refl call₀) fun _ _ => rfl⟩
  · obtain ⟨attempt₀, call₀, hattempt₀, hc₀, hanswered₀⟩ := h.replies r hr
    exact ⟨attempt₀, call₀, hattempt₀, hc₀, hanswered₀.later rfl (List.append_nil _).symm⟩
  · exact (h.calls c₀ call₀ hc₀).later rfl rfl (List.append_nil _).symm fun _ _ _ _ => hslot

/-- The world after the request of a call has made its write. -/
def written (w : World) (c : ℕ) (call : Call) (s : ℕ) (client : ClientAckTime) : World :=
  let before := w.server.value call.args.key
  let new := call.op.combine before call.args.value
  { w.setCall c { call with writes := call.writes ++ [w.history.length] } with
    server := { w.server with
      ackTime := w.server.ackTime.set s client
      keyValue := Function.update w.server.keyValue call.args.key (some new) }
    history := w.history ++ [⟨call.args.key, before, new⟩] }

variable {c s : ℕ} {client : ClientAckTime} {buffer : String}

theorem replay_written (h : w.Inv) (p : ℕ) (write : Write)
    (hp : (w.written c call s client).history[p]? = some write) :
    write.before = (replay ((w.written c call s client).history.take p) write.key).getD "" := by
  rcases getElem?_append_singleton_cases hp with hp | ⟨rfl, rfl⟩
  · have hlt := (List.getElem?_eq_some_iff.mp hp).1
    rw [written, List.take_append_of_le_length (Nat.le_of_lt hlt)]
    exact h.before p write hp
  · rw [written, List.take_left', ← h.store]
    · rfl
    · rfl

theorem Inv.accounted_written (h : w.Inv) (hc : w.calls[c]? = some call) (hop : call.op ≠ .get)
    (hopen : ¬call.Returned) (hid : (w.clerks call.clerk).clientId = s)
    (hlt : s < w.server.ackTime.length) (hwrites : call.writes = [])
    (hbuffer : call.op = .append → buffer = w.server.value call.args.key) :
    (w.written c call s ⟨1 + call.args.transactionId, buffer⟩).Accounted c
      { call with writes := call.writes ++ [w.history.length] } := by
  have hrun := (h.calls c call hc).running hop hopen
  have hrecorded := (h.calls c call hc).recorded
  have hnew : (w.history ++ [⟨call.args.key, w.server.value call.args.key,
      call.op.combine (w.server.value call.args.key) call.args.value⟩])[w.history.length]? =
      some ⟨call.args.key, w.server.value call.args.key,
        call.op.combine (w.server.value call.args.key) call.args.value⟩ :=
    List.getElem?_concat_length
  refine ⟨⟨?_, fun p hp => ?_⟩, fun _ _ => ⟨hrun.transactionId, hrun.clientId, hrun.value,
    fun hnone => ?_, fun s₀ hs₀ => ?_, ?_⟩, fun v _ hv => absurd ⟨v, hv⟩ hopen, ?_⟩
  · simp only [written, List.length_append]
    exact Nat.le_add_right_of_le hrecorded.started
  · simp only [hwrites, List.nil_append, List.mem_singleton] at hp
    subst hp
    exact ⟨hrecorded.started, _, hnew, rfl, rfl⟩
  · have hnone : call.args.clientId = -1 := hnone
    have hclient := hrun.clientId
    omega
  · have hs₀ : call.args.clientId = s₀ := hs₀
    have hclient := hrun.clientId
    obtain rfl : s₀ = s := by omega
    refine ⟨_, List.getElem?_set_self hlt, ?_, fun happend p hp => ?_⟩
    · simp [hwrites, Nat.add_comm]
    · simp only [hwrites, List.nil_append, List.mem_singleton] at hp
      subst hp
      exact ⟨_, hnew, hbuffer happend⟩
  · simp [hwrites]
  · exact (h.calls c call hc).waiting

theorem Inv.write (h : w.Inv) (hc : w.calls[c]? = some call) (hop : call.op ≠ .get)
    (hopen : ¬call.Returned) (hid : (w.clerks call.clerk).clientId = s)
    (hk : w.registered[s]? = some call.clerk) (hlt : s < w.server.ackTime.length)
    (hwrites : call.writes = []) (hbuffer : call.op = .append → buffer = w.server.value call.args.key) :
    (w.written c call s ⟨1 + call.args.transactionId, buffer⟩).Inv := by
  have hc' : c < w.calls.length := (List.getElem?_eq_some_iff.mp hc).1
  have hothers : ∀ (s₀ k₀ : ℕ) (client₀ : ClientAckTime), w.registered[s₀]? = some k₀ →
      k₀ ≠ call.clerk → w.server.ackTime[s₀]? = some client₀ →
        (w.server.ackTime.set s ⟨1 + call.args.transactionId, buffer⟩)[s₀]? = some client₀ := by
    intro s₀ k₀ client₀ hk₀ hne hclient₀
    have hs₀ : s ≠ s₀ := by
      rintro rfl
      exact hne (Option.some.inj (hk₀.symm.trans hk))
    exact (List.getElem?_set_ne hs₀).trans hclient₀
  have hself : (w.written c call s ⟨1 + call.args.transactionId, buffer⟩).calls[c]? =
      some { call with writes := call.writes ++ [w.history.length] } := List.getElem?_set_self hc'
  refine ⟨?_, ?_, fun s₀ client₀ k₀ hs₀ hk₀ hne => ?_, ?_, replay_written h, fun k₀ => ?_,
    fun attempt₀ hattempt₀ => ?_, fun r hr => ?_, fun c₀ call₀ hc₀ => ?_, ?_⟩
  · simp [written, setCall, h.registered]
  · simp [written, setCall, h.lenAckTime]
  · rcases getElem?_set_cases hs₀ with ⟨rfl, -⟩ | ⟨-, hs₀⟩
    · cases hk₀.symm.trans hk
      exact absurd hid hne
    · exact h.unused s₀ client₀ k₀ hs₀ hk₀ hne
  · simp only [written, replay_append, h.store]
  · rcases eq_or_ne k₀ call.clerk with rfl | hne
    · exact Or.inr ⟨s, hid, hk, _, List.getElem?_set_self hlt,
        Or.inr ⟨_, List.mem_of_getElem? hself, rfl, hop, hopen⟩⟩
    · rcases h.clerks k₀ with hnone | ⟨s₀, hs₀, hk₀, client₀, hclient₀, hack⟩
      · exact Or.inl hnone
      · refine Or.inr ⟨s₀, hs₀, hk₀, client₀, hothers s₀ k₀ client₀ hk₀ hne hclient₀,
          hack.imp_right ?_⟩
        rintro ⟨call₀, hmem, rfl, hrun₀⟩
        obtain ⟨c₀, hc₀⟩ := List.mem_iff_getElem?.mp hmem
        have hne₀ : c ≠ c₀ := by
          rintro rfl
          exact hne (congrArg Call.clerk (Option.some.inj (hc₀.symm.trans hc)))
        exact ⟨call₀, List.mem_of_getElem? ((List.getElem?_set_ne hne₀).trans hc₀), rfl, hrun₀⟩
  · obtain ⟨call₀, hc₀, hsent⟩ := h.attempts attempt₀ hattempt₀
    rcases eq_or_ne attempt₀.call c with heq | hne
    · rw [heq] at hc₀ ⊢
      cases hc₀.symm.trans hc
      exact ⟨_, hself, hsent.op, hsent.key, hsent.value, hsent.transactionId,
        hsent.clientId⟩
    · exact ⟨call₀, (List.getElem?_set_ne hne.symm).trans hc₀,
        hsent.mono (sameCall_refl call₀) fun _ _ => rfl⟩
  · obtain ⟨attempt₀, call₀, hattempt₀, hc₀, hanswered₀⟩ := h.replies r hr
    rcases eq_or_ne attempt₀.call c with heq | hne
    · rw [heq] at hc₀
      cases hc₀.symm.trans hc
      refine ⟨attempt₀, { call with writes := call.writes ++ [w.history.length] }, hattempt₀, ?_,
        hanswered₀.registration, fun hop₀ hid₀ _ => ?_⟩
      · rw [heq]
        exact hself
      · exact absurd hwrites (hanswered₀.answer hop₀ hid₀ hopen).2.1
    · exact ⟨attempt₀, call₀, hattempt₀, (List.getElem?_set_ne hne.symm).trans hc₀,
        hanswered₀.later (List.append_nil _).symm rfl⟩
  · rcases getElem?_set_cases hc₀ with ⟨rfl, rfl⟩ | ⟨hne, hc₀⟩
    · exact h.accounted_written hc hop hopen hid hlt hwrites hbuffer
    · refine (h.calls c₀ call₀ hc₀).later rfl rfl rfl fun hopen₀ s₀ client₀ hs₀ hclient₀ => ?_
      have hclerk₀ : call₀.clerk ≠ call.clerk := fun heq =>
        hne (h.single c₀ c call₀ call hc₀ hc heq hopen₀ hopen)
      obtain ⟨s₁, hs₁, hk₁, -⟩ := h.exists_slot (k := call₀.clerk) (by omega)
      obtain rfl : s₁ = s₀ := by omega
      exact hothers s₁ _ client₀ hk₁ hclerk₀ hclient₀
  · exact h.single_set hc hopen rfl

/-- The server is never behind a clerk. -/
theorem Inv.transactionId_le (h : w.Inv) {k : ℕ} (hid : (w.clerks k).clientId = s)
    (hclient : w.server.ackTime[s]? = some client) :
    (w.clerks k).transactionId ≤ client.ackID := by
  obtain ⟨s', hs', -, client', hclient', hack⟩ := h.exists_slot (k := k) (by omega)
  obtain rfl : s' = s := by omega
  cases hclient'.symm.trans hclient
  rcases hack with hack | ⟨call, hmem, rfl, hop, hopen⟩
  · exact Nat.le_of_eq hack.symm
  · obtain ⟨c, hc⟩ := List.mem_iff_getElem?.mp hmem
    have hrun := (h.calls c call hc).running hop hopen
    obtain ⟨client₀, hclient₀, hack, -⟩ := hrun.slot s' (hrun.clientId.trans hid)
    cases hclient₀.symm.trans hclient
    rw [hack, hrun.transactionId]
    exact Nat.le_add_right _ _

theorem Inv.running_of_eq (h : w.Inv) (hc : w.calls[c]? = some call) (hop : call.op ≠ .get)
    (hid : (w.clerks call.clerk).clientId = s) (hclient : w.server.ackTime[s]? = some client)
    (heq : call.args.transactionId = client.ackID) : ¬call.Returned ∧ call.writes = [] := by
  have hle := h.transactionId_le hid hclient
  have hopen : ¬call.Returned := by
    rintro ⟨value, hvalue⟩
    have hlt := ((h.calls c call hc).finished value hop hvalue).transactionId
    omega
  have hrun := (h.calls c call hc).running hop hopen
  obtain ⟨client₀, hclient₀, hack, -⟩ := hrun.slot s (hrun.clientId.trans hid)
  cases hclient₀.symm.trans hclient
  exact ⟨hopen, List.length_eq_zero_iff.mp (by omega)⟩

/-- A request that does not find it gets the answer that the call has to get, if the call is still
running. -/
theorem Inv.answered_of_ne (h : w.Inv) (hc : w.calls[attempt.call]? = some call)
    (hsome : attempt.args.clientId ≠ -1) (hid : (w.clerks call.clerk).clientId = s)
    (hclient : w.server.ackTime[s]? = some client) (hne : call.args.transactionId ≠ client.ackID)
    (clientId : ℤ) :
    w.Answered attempt call ⟨client.valueBuffer, clientId, client.ackID⟩ := by
  refine ⟨fun _ hnone => absurd hnone hsome, fun hop _ hopen => ?_⟩
  have hrun := (h.calls _ call hc).running hop hopen
  obtain ⟨client₀, hclient₀, hack, hbefore⟩ := hrun.slot s (hrun.clientId.trans hid)
  cases hclient₀.symm.trans hclient
  have honce := hrun.once
  refine ⟨?_, fun hnil => ?_, hbefore⟩
  · change client.ackID = _
    omega
  · rw [hnil] at hack
    exact hne hack.symm

/-- What a request does when it reaches the server. -/
theorem Inv.deliver_cases (h : w.Inv) (hattempt : w.attempts[a]? = some attempt)
    (hc : w.calls[attempt.call]? = some call) : ∃ w' reply, w.deliver a = some w' ∧
      ((attempt.args.clientId = -1 ∧ attempt.args.transactionId = 0 ∧
          reply = ⟨"", w.server.lenAckTime, attempt.args.transactionId⟩ ∧
          w' = { w with
            server := (w.server.newClient attempt.args.transactionId).1
            replies := w.replies ++ [(a, reply)]
            registered := w.registered ++ [call.clerk] }) ∨
        (attempt.args.clientId ≠ -1 ∧ call.op ≠ .get ∧ ¬call.Returned ∧ call.writes = [] ∧
          ∃ s buffer, (w.clerks call.clerk).clientId = (s : ℕ) ∧
            w.registered[s]? = some call.clerk ∧ s < w.server.ackTime.length ∧
            (call.op = .append → buffer = w.server.value call.args.key) ∧
            reply = ⟨w.server.value call.args.key, s, 1 + call.args.transactionId⟩ ∧
            w' = { w.written attempt.call call s ⟨1 + call.args.transactionId, buffer⟩ with
              replies := w.replies ++ [(a, reply)] }) ∨
        (w.Answered attempt call reply ∧ w' = { w with replies := w.replies ++ [(a, reply)] })) := by
  obtain ⟨call₀, hc₀, hsent⟩ := h.attempts attempt (List.mem_of_getElem? hattempt)
  cases hc₀.symm.trans hc
  by_cases hop : call.op = .get
  · refine ⟨_, w.server.get attempt.args, ?_, Or.inr (Or.inr ⟨⟨fun hne => absurd hop hne,
      fun hne => absurd hop hne⟩, rfl⟩)⟩
    simp [World.deliver, hattempt, hc, hsent.op, hop, KVServer.serve]
  -- the client id of the request is the clerk's, and the server has a slot for it
  have hslot : attempt.args.clientId ≠ -1 → ∃ s client, (w.clerks call.clerk).clientId = (s : ℕ) ∧
      attempt.args.clientId = s ∧ w.registered[s]? = some call.clerk ∧
      w.server.ackTime[s]? = some client := by
    intro hsome
    rcases hsent.clientId hop with ⟨hnone, -⟩ | ⟨-, hid⟩
    · exact absurd hnone hsome
    · obtain ⟨s, hs, hk, client, hclient, -⟩ := h.exists_slot (hid ▸ hsome)
      exact ⟨s, client, hs, hid.trans hs, hk, hclient⟩
  obtain ⟨handled, hserve⟩ : ∃ handled, w.server.serve attempt.args attempt.op = some handled := by
    refine exists_serve attempt.op fun hsome => ?_
    obtain ⟨s, client, -, hs, -, hclient⟩ := hslot hsome
    exact ⟨client, by rw [hs, slot_natCast, hclient]⟩
  rcases serve_cases (hsent.op ▸ hop) hserve with ⟨hnone, rfl⟩ | ⟨hsome, client, hclient, hcases⟩
  · refine ⟨_, _, ?_, Or.inl ⟨hnone, ?_, rfl, rfl⟩⟩
    · simp [World.deliver, hattempt, hc, hserve, KVServer.newClient]
    · rcases hsent.clientId hop with ⟨-, hzero⟩ | ⟨hsome, -⟩
      · exact hzero
      · exact absurd hnone hsome
  · obtain ⟨s, client', hid, hs, hk, hclient'⟩ := hslot hsome
    rw [hs, slot_natCast] at hclient
    cases hclient'.symm.trans hclient
    have htransaction := hsent.transactionId
    rcases hcases with ⟨heq, buffer, hbuffer, rfl⟩ | ⟨hne, rfl⟩
    · rw [htransaction] at heq
      obtain ⟨hopen, hwrites⟩ := h.running_of_eq hc hop hid hclient heq
      refine ⟨_, _, ?_, Or.inr (Or.inl ⟨hsome, hop, hopen, hwrites, s, buffer, hid, hk,
        (List.getElem?_eq_some_iff.mp hclient).1, ?_, rfl, rfl⟩)⟩
      · simp only [World.deliver, hattempt, hc, hserve, Option.bind_eq_bind, Option.bind_some]
        simp [written, hs, heq, hsent.op, hsent.key, hsent.value, World.setCall]
      · rw [← hsent.op, ← hsent.key]
        exact hbuffer
    · refine ⟨_, _, ?_, Or.inr (Or.inr ⟨h.answered_of_ne hc hsome hid hclient
        (htransaction ▸ hne) attempt.args.clientId, rfl⟩)⟩
      simp [World.deliver, hattempt, hc, hserve]

theorem Inv.deliver (h : w.Inv) (hs : w.deliver a = some w') : w'.Inv := by
  obtain ⟨attempt, hattempt, call, hc⟩ : ∃ attempt, w.attempts[a]? = some attempt ∧
      ∃ call, w.calls[attempt.call]? = some call := by
    simp only [World.deliver, Option.bind_eq_bind, Option.bind_eq_some_iff] at hs
    obtain ⟨attempt, hattempt, call, hc, -⟩ := hs
    exact ⟨attempt, hattempt, call, hc⟩
  obtain ⟨w₁, reply, hw₁, hcases⟩ := h.deliver_cases hattempt hc
  cases hw₁.symm.trans hs
  obtain ⟨hnone, hzero, rfl, rfl⟩ | ⟨hsome, hop, hopen, hwrites, s, buffer, hid, hk, hlt, hbuffer, rfl,
    rfl⟩ | ⟨hanswered, rfl⟩ := hcases
  · refine (h.newClient call.clerk hzero).answer hattempt hc ⟨fun _ _ => ⟨rfl, _, rfl, ?_⟩,
      fun _ hsome => absurd hnone hsome⟩
    rw [h.lenAckTime, ← h.registered]
    exact List.getElem?_concat_length
  · have hinv := h.write hc hop hopen hid hk hlt hwrites hbuffer
    have hlt' : attempt.call < w.calls.length := (List.getElem?_eq_some_iff.mp hc).1
    refine hinv.answer hattempt (List.getElem?_set_self hlt') ⟨fun _ hnone => absurd hnone hsome,
      fun _ _ _ => ⟨Nat.add_comm _ _, by simp, fun _ p hp => ?_⟩⟩
    simp only [hwrites, List.nil_append, List.mem_singleton] at hp
    subst hp
    exact ⟨_, List.getElem?_concat_length, rfl⟩
  · exact h.answer hattempt hc hanswered

theorem Inv.step (h : w.Inv) {action : Action} (hs : w.step action = some w') : w'.Inv := by
  cases action with
  | invoke k op key value => exact h.invoke hs
  | send c => exact h.send hs
  | giveUp c => exact h.giveUp hs
  | deliver a => exact h.deliver hs
  | receive c r => exact h.receive hs

theorem inv_of_reaches (hw : Reaches World.step anyStep init w) : w.Inv := by
  have hkept : ∀ (w : World) action w', w.Inv → anyStep w action → w.step action = some w' →
      w'.Inv := fun w action w' h _ hs => h.step hs
  exact hw.invariant inv_init hkept

theorem Inv.deliver_of_returned (h : w.Inv) (hattempt : w.attempts[a]? = some attempt)
    (hc : w.calls[attempt.call]? = some call) (hreturned : call.Returned) :
    ∃ w', w.deliver a = some w' ∧ w'.server.keyValue = w.server.keyValue ∧
      w'.history = w.history ∧ (∃ more, w'.server.ackTime = w.server.ackTime ++ more) ∧
      (attempt.args.clientId ≠ -1 → w'.server = w.server) := by
  obtain ⟨w', reply, hw', hcases⟩ := h.deliver_cases hattempt hc
  refine ⟨w', hw', ?_⟩
  obtain ⟨hnone, -, -, rfl⟩ | ⟨-, -, hopen, -⟩ | ⟨-, rfl⟩ := hcases
  · exact ⟨rfl, rfl, ⟨_, rfl⟩, fun hsome => absurd hnone hsome⟩
  · exact absurd hreturned hopen
  · exact ⟨rfl, rfl, ⟨[], (List.append_nil _).symm⟩, fun _ => rfl⟩

end Deliver

/-- A `Put` or `Append` that has returned has made one write, after it was made and before it
returned, of what it asks for; an `Append` returns the value from just before that write; and a copy
of one of its requests that arrives now changes no key. -/
theorem exactly_once {w : World} (hw : Reaches step anyStep init w) {c : ℕ} {call : Call}
    (hc : w.calls[c]? = some call) (hop : call.op ≠ .get) {value : String}
    (hvalue : call.phase = .returned value) :
    w.server.keyValue = replay w.history ∧
    (∃ p write, call.writes = [p] ∧ call.started ≤ p ∧ p < call.finished ∧
      w.history[p]? = some write ∧ write.key = call.args.key ∧
      write.before = (replay (w.history.take p) call.args.key).getD "" ∧
      write.after = call.op.combine write.before call.args.value ∧
      (call.op = .append → value = write.before)) ∧
    ∀ a attempt, w.attempts[a]? = some attempt → attempt.call = c →
      ∃ w', w.deliver a = some w' ∧ w'.server.keyValue = w.server.keyValue ∧
        w'.history = w.history ∧ (∃ more, w'.server.ackTime = w.server.ackTime ++ more) ∧
        (attempt.args.clientId ≠ -1 → w'.server = w.server) := by
  have h := inv_of_reaches hw
  have hcall := h.calls c call hc
  obtain ⟨-, ⟨p, hp, hfinished⟩, hbefore⟩ := hcall.finished value hop hvalue
  have hmem : p ∈ call.writes := by simp [hp]
  obtain ⟨hstarted, write, hwrite, hkey, hafter⟩ := hcall.recorded.wrote p hmem
  refine ⟨h.store, ⟨p, write, hp, hstarted, hfinished, hwrite, hkey, ?_, hafter, fun happend => ?_⟩,
    fun a attempt hattempt hcall => ?_⟩
  · rw [h.before p write hwrite, hkey]
  · obtain ⟨write', hwrite', hvalue'⟩ := hbefore happend p hmem
    cases hwrite'.symm.trans hwrite
    exact hvalue'
  · exact h.deliver_of_returned hattempt (hcall ▸ hc) ⟨value, hvalue⟩

/-- The request for a client id arrives twice, the reply to the first `Append` is lost, and the
answer comes from a retry. A copy of the request arrives later. -/
theorem exactly_once_retried : ∃ (w : World) (call : Call), Reaches step anyStep init w ∧
    w.calls[1]? = some call ∧ call.phase = .returned "x" ∧ ∃ p write, call.writes = [p] ∧
      w.history[p]? = some write ∧ write.before = "x" ∧ write.after = "xy" := by
  obtain ⟨w, hreach, call, hc, hop, hphase, hargs⟩ :=
    exists_reaches step anyStep init
      [.invoke 0 .append "k" "x", .send 0, .deliver 0, .deliver 0, .receive 0 1, .send 0,
        .deliver 1, .giveUp 0, .send 0, .deliver 2, .receive 0 3, .invoke 0 .append "k" "y", .send 1,
        .deliver 3, .deliver 1, .deliver 3, .giveUp 1, .send 1, .deliver 4, .receive 1 7]
      (fun w => ∃ call ∈ w.calls[1]?, call.op = .append ∧ call.phase = .returned "x" ∧
        call.args.value = "y")
      (by decide +kernel)
  obtain ⟨-, ⟨p, write, hp, -, -, hwrite, -, -, hafter, hbefore⟩, -⟩ :=
    exactly_once hreach hc (by rw [hop]; decide) hphase
  refine ⟨w, call, hreach, hc, hphase, p, write, hp, hwrite, (hbefore hop).symm, ?_⟩
  rw [hafter, hop, ← hbefore hop, hargs]
  decide

end World
end DistributedLabs.Kvsrv
