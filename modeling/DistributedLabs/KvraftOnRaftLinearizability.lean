import DistributedLabs.KvraftOnRaftRefinement
import DistributedLabs.RaftLogGuarantees

/-!
# Histories of `kvraft1` on `raft1`

What was shown of `World` holds of the whole stack. An observer of `World` sees steps that are none of
the stack, but finds calls in the same order. So the recorded calls of the stack are linearizable, and
the maps of all servers come from one sequence of operations.
-/

namespace DistributedLabs.Kvraft
open Kv Rsm TransitionRuns TermLeader ListPositions Linearizability

variable {n : ℕ} {K V B : Type}

section Times
variable [DecidableEq K] [Inhabited V] [NeZero n] {gob : Labgob K V B} {maxraftstate : ℤ}

theorem calls_of_inner {w w' : World n K V B} (h : Reaches (World.step gob maxraftstate) World.Inner w w') :
    w'.calls = w.calls := by
  refine @Reaches.invariant _ _ _ _ _ _ (fun w₁ => w₁.calls = w.calls) h rfl ?_
  intro w₁ a w₂ hcalls ha hs
  cases a with
  | invoke clerk command => cases ha
  | send c => cases ha
  | giveUp c => cases ha
  | arrive j => cases ha
  | reply j => cases ha
  | start i k answer =>
    obtain ⟨submission, rsm, -, -, ⟨-, rfl⟩ | ⟨lastLogIndex, term, -, rfl⟩⟩ := World.start_cases hs
    · exact hcalls
    · exact hcalls
  | event i e =>
    obtain ⟨rsm, -, rfl⟩ := Option.map_eq_some_iff.mp hs
    exact hcalls
  | commit m =>
    obtain ⟨e, -, -, rfl⟩ := World.commit_cases hs
    exact hcalls
  | handover a =>
    obtain ⟨group, -, ⟨i, pointer, e, rsm, -, -, rfl⟩ | rfl | ⟨i, rfl⟩⟩ := World.handover_cases hs
    · exact hcalls
    · exact hcalls
    · exact hcalls

theorem exists_recorded {w w' : World n K V B} (h : Reaches (World.step gob maxraftstate) World.Inner w w')
    (seen : Seen) : ∃ seen', seen'.called = seen.called ∧ seen'.returned = seen.returned ∧
      seen.now ≤ seen'.now ∧ Reaches (recording (World.step gob maxraftstate) World.observe)
        (fun s a => s.1.FreshPlace a ∧ s.1.Reached a) (w, seen) (w', seen') := by
  induction h with
  | refl => exact ⟨seen, rfl, rfl, le_rfl, .refl⟩
  | @tail w₁ w₂ a _ allowed taken ih =>
    obtain ⟨seen', hcalled, hreturned, hnow, hrun⟩ := ih
    have hstep : recording (World.step gob maxraftstate) World.observe (w₁, seen') a =
        some (w₂, w₁.observe a seen') := by simp [recording, taken]
    cases a with
    | invoke clerk command => cases allowed
    | send c => cases allowed
    | giveUp c => cases allowed
    | arrive j => cases allowed
    | reply j => cases allowed
    | start | event | commit | handover =>
      refine ⟨_, ?_, ?_, ?_, .tail hrun ⟨World.Inner.freshPlace allowed, by trivial⟩ hstep⟩
      · exact hcalled
      · exact hreturned
      · exact Nat.le_succ_of_le hnow

/-- The second observer has every order between calls that the first has. -/
structure SameOrder (calls : List (ClerkCall n K V)) (seen seen' : Seen) : Prop where
  length : seen.called.length = calls.length
  length' : seen'.called.length = calls.length
  now : ∀ t ∈ seen.called, t < seen.now
  returned : ∀ (c : ℕ) call reply, calls[c]? = some call → call.phase = .returned reply →
    seen'.returned c < seen'.now
  order : ∀ (c c' : ℕ) call reply t t', calls[c]? = some call → call.phase = .returned reply →
    seen.called[c']? = some t → seen'.called[c']? = some t' → seen.returned c < t → seen'.returned c < t'

section SameOrder
variable {calls calls' : List (ClerkCall n K V)} {seen seen' seen₁ seen₁' : Seen}

omit [DecidableEq K] [Inhabited V] [NeZero n] in
theorem SameOrder.later (h : SameOrder calls seen seen') (hlength : calls'.length = calls.length)
    (hcalled : seen₁.called = seen.called) (hcalled' : seen₁'.called = seen'.called)
    (hnow : seen.now ≤ seen₁.now) (hnow' : seen'.now ≤ seen₁'.now)
    (hreturned : ∀ (c : ℕ) call reply, calls'[c]? = some call → call.phase = .returned reply →
      (∃ call, calls[c]? = some call ∧ call.phase = .returned reply ∧
        seen₁.returned c = seen.returned c ∧ seen₁'.returned c = seen'.returned c) ∨
      seen.now ≤ seen₁.returned c ∧ seen₁'.returned c < seen₁'.now) :
    SameOrder calls' seen₁ seen₁' where
  length := by rw [hcalled, hlength, h.length]
  length' := by rw [hcalled', hlength, h.length']
  now t ht := (h.now t (hcalled ▸ ht)).trans_le hnow
  returned c call reply hc hphase := by
    obtain ⟨call₀, hc₀, hphase₀, -, hsame⟩ | ⟨-, hlt⟩ := hreturned c call reply hc hphase
    · rw [hsame]
      exact (h.returned c call₀ reply hc₀ hphase₀).trans_le hnow'
    · exact hlt
  order c c' call reply t t' hc hphase ht ht' hlt := by
    rw [hcalled] at ht
    rw [hcalled'] at ht'
    obtain ⟨call₀, hc₀, hphase₀, hsame, hsame'⟩ | ⟨hle, -⟩ := hreturned c call reply hc hphase
    · rw [hsame] at hlt
      rw [hsame']
      exact h.order c c' call₀ reply t t' hc₀ hphase₀ ht ht' hlt
    · have := h.now t (List.mem_of_getElem? ht)
      omega

omit [DecidableEq K] [Inhabited V] [NeZero n] in
theorem SameOrder.invoke (h : SameOrder calls seen seen') {call : ClerkCall n K V}
    (hnew : ∀ reply, call.phase ≠ .returned reply) :
    SameOrder (calls ++ [call]) { seen with now := seen.now + 1, called := seen.called ++ [seen.now] }
      { seen' with now := seen'.now + 1, called := seen'.called ++ [seen'.now] } where
  length := by simp [h.length]
  length' := by simp [h.length']
  now t ht := by
    rcases List.mem_append.mp ht with ht | ht
    · exact (h.now t ht).trans (Nat.lt_succ_self _)
    · rw [List.mem_singleton.mp ht]
      exact Nat.lt_succ_self _
  returned c call' reply hc hphase := by
    rcases getElem?_append_singleton_cases hc with hc | ⟨-, rfl⟩
    · exact (h.returned c call' reply hc hphase).trans (Nat.lt_succ_self _)
    · exact absurd hphase (hnew reply)
  order c c' call' reply t t' hc hphase ht ht' hlt := by
    rcases getElem?_append_singleton_cases hc with hc | ⟨-, rfl⟩
    · rcases getElem?_append_singleton_cases ht' with ht' | ⟨-, rfl⟩
      · have hc' : c' < seen.called.length := by
          rw [h.length, ← h.length']
          exact (List.getElem?_eq_some_iff.mp ht').1
        rw [List.getElem?_append_left hc'] at ht
        exact h.order c c' call' reply t t' hc hphase ht ht' hlt
      · exact h.returned c call' reply hc hphase
    · exact absurd hphase (hnew reply)

omit [DecidableEq K] [Inhabited V] [NeZero n] in
theorem SameOrder.set (h : SameOrder calls seen seen') {c₀ : ℕ} {call₀ : ClerkCall n K V}
    {returned returned' : ℕ → ℕ} (hothers : ∀ c, c ≠ c₀ → returned c = seen.returned c ∧
      returned' c = seen'.returned c)
    (hphase : ∀ reply, call₀.phase = .returned reply → returned c₀ = seen.now ∧ returned' c₀ = seen'.now) :
    SameOrder (calls.set c₀ call₀) { seen with now := seen.now + 1, returned }
      { seen' with now := seen'.now + 1, returned := returned' } := by
  refine h.later (by simp) rfl rfl (Nat.le_succ _) (Nat.le_succ _) fun c call reply hc hreturned => ?_
  rcases getElem?_set_cases hc with ⟨rfl, rfl⟩ | ⟨hne, hc⟩
  · obtain ⟨hnow, hnow'⟩ := hphase reply hreturned
    exact .inr ⟨hnow.ge, hnow'.trans_lt (Nat.lt_succ_self _)⟩
  · exact .inl ⟨call, hc, hreturned, hothers c hne⟩

variable {st st' : Stack n K V B}

theorem SameOrder.front (h : SameOrder st.calls seen seen') {a : Action n K V}
    (hs : st.step gob maxraftstate (.front a) = some st') :
    SameOrder st'.calls (st.front.observe a seen) (st.front.observe a seen') := by
  simp only [Stack.step] at hs
  split_ifs at hs with ha
  obtain ⟨f, hf, rfl⟩ := Option.map_eq_some_iff.mp hs
  have hsame : SameOrder st.calls { seen with now := seen.now + 1 } { seen' with now := seen'.now + 1 } :=
    h.later rfl rfl rfl (Nat.le_succ _) (Nat.le_succ _) fun c call reply hc hphase =>
      .inl ⟨call, hc, hphase, rfl, rfl⟩
  cases a with
  | invoke clerk command =>
    cases hf
    exact h.invoke (by simp)
  | send c =>
    obtain ⟨call, i, isResend, -, -, rfl⟩ := World.send_cases hf
    exact h.set (fun _ _ => ⟨rfl, rfl⟩) (by simp)
  | giveUp c =>
    obtain ⟨call, i, isResend, j, -, -, rfl⟩ := World.giveUp_cases hf
    exact h.set (fun _ _ => ⟨rfl, rfl⟩) (by simp)
  | arrive j =>
    obtain ⟨rpc, call, -, -, -, rfl⟩ := World.arrive_cases hf
    exact hsame
  | reply j =>
    obtain ⟨rpc, k, submission, call, err, value, i, isResend, hrpc, -, -, -, -, -, rfl⟩ :=
      World.reply_cases hf
    simp only [World.observe, hrpc, World.finish]
    split_ifs
    · exact h.set (fun c hc => ⟨Function.update_of_ne hc _ _, Function.update_of_ne hc _ _⟩)
        fun _ _ => ⟨Function.update_self _ _ _, Function.update_self _ _ _⟩
    · exact h.set (fun c hc => ⟨Function.update_of_ne hc _ _, Function.update_of_ne hc _ _⟩)
        fun _ _ => ⟨Function.update_self _ _ _, Function.update_self _ _ _⟩
  | start i k answer => cases ha
  | event i e =>
    obtain ⟨rsm, -, rfl⟩ := Option.map_eq_some_iff.mp hf
    exact hsame
  | commit m => cases ha
  | handover a => cases ha

omit [DecidableEq K] [NeZero n] in
theorem World.operation_congr {w w' : World n K V B} (hcalls : w'.calls = w.calls) (seen seen' : Seen)
    (replies : ℕ → Option (Reply V)) (c : ℕ) :
    w'.operation seen' replies c = none ∧ w.operation seen replies c = none ∨
    ∃ a b, w'.operation seen' replies c = some a ∧ w.operation seen replies c = some b ∧
      b.input = a.input ∧ b.output = a.output := by
  cases hcall : w.calls[c]? with
  | none => simp [World.operation, hcalls, hcall]
  | some call =>
    cases hphase : call.phase with
    | returned reply => simp [World.operation, hcalls, hcall, hphase]
    | sending => cases hreply : replies c <;> simp [World.operation, hcalls, hcall, hphase, hreply]
    | waiting => cases hreply : replies c <;> simp [World.operation, hcalls, hcall, hphase, hreply]

omit [DecidableEq K] [NeZero n] in
theorem World.operation_times {w : World n K V B} {replies : ℕ → Option (Reply V)} {c : ℕ}
    {a : Porcupine.Operation (Models.KvInput K V) (Models.KvOutput V)}
    (ha : w.operation seen replies c = some a) : a.call = (seen.called.getD c 0 : ℕ) ∧
      ∃ call, w.calls[c]? = some call ∧
        ((∃ reply, call.phase = .returned reply) ∧ a.ret = seen.returned c ∨
        (∀ reply, call.phase ≠ .returned reply) ∧ a.ret = seen.now) := by
  obtain ⟨call, hcall, ha⟩ := Option.bind_eq_some_iff.mp ha
  split at ha
  case h_1 reply hphase =>
    cases ha
    exact ⟨rfl, call, hcall, .inl ⟨⟨reply, hphase⟩, rfl⟩⟩
  case h_2 hphase =>
    obtain ⟨reply, -, rfl⟩ := Option.map_eq_some_iff.mp ha
    exact ⟨rfl, call, hcall, .inr ⟨hphase, rfl⟩⟩

omit [DecidableEq K] [NeZero n] in
theorem SameOrder.operation_before {w w' : World n K V B} (h : SameOrder w.calls seen seen')
    (hcalls : w'.calls = w.calls) {replies : ℕ → Option (Reply V)} {c c' : ℕ} (hc' : c' < w.calls.length)
    {a b a' b' : Porcupine.Operation (Models.KvInput K V) (Models.KvOutput V)}
    (ha : w'.operation seen' replies c = some a) (hb : w.operation seen replies c = some b)
    (ha' : w'.operation seen' replies c' = some a') (hb' : w.operation seen replies c' = some b')
    (hlt : b.ret < b'.call) : a.ret < a'.call := by
  have ht := List.getElem?_eq_getElem (h.length.symm ▸ hc' : c' < seen.called.length)
  have ht' := List.getElem?_eq_getElem (h.length'.symm ▸ hc' : c' < seen'.called.length)
  rw [(World.operation_times hb').1, List.getD_eq_getElem?_getD, ht, Option.getD_some] at hlt
  rw [(World.operation_times ha').1, List.getD_eq_getElem?_getD, ht', Option.getD_some]
  obtain ⟨-, call, hcall, ⟨⟨reply, hphase⟩, hret⟩ | ⟨-, hret⟩⟩ := World.operation_times hb
  · obtain ⟨-, call', hcall', ⟨-, hret'⟩ | ⟨hpending, -⟩⟩ := World.operation_times ha
    · rw [hret, Int.ofNat_lt] at hlt
      rw [hret', Int.ofNat_lt]
      exact h.order c c' call reply _ _ hcall hphase ht ht' hlt
    · cases (hcalls ▸ hcall').symm.trans hcall
      exact absurd hphase (hpending reply)
  · rw [hret, Int.ofNat_lt] at hlt
    exact absurd (h.now _ (List.mem_of_getElem? ht)) hlt.le.not_gt

omit [NeZero n] in
theorem SameOrder.isLinearizable [DecidableEq V] {w w' : World n K V B} (h : SameOrder w.calls seen seen')
    (hcalls : w'.calls = w.calls) {replies : ℕ → Option (Reply V)}
    (hlin : IsLinearizable (w'.recorded seen' replies)) : IsLinearizable (w.recorded seen replies) := by
  unfold IsLinearizable World.recorded at hlin ⊢
  rw [hcalls] at hlin
  refine hlin.recorded (fun c hc => ?_) fun c hc c' hc' a b a' b' ha hb ha' hb' => ?_
  · obtain hnone | ⟨a, b, ha, hb, hinput, houtput⟩ := World.operation_congr hcalls seen seen' replies c
    · exact .inl hnone
    · refine .inr ⟨a, b, ha, hb, fun s => ?_⟩
      simp only [nextInRegisters, nextAt, nextRegister, hinput, houtput]
  · exact h.operation_before hcalls hc' ha hb ha' hb'

end SameOrder

end Times

section Results
variable [DecidableEq K] [Inhabited V] [NeZero n] {gob : Labgob K V B} {maxraftstate : ℤ}
  {st : Stack n K V B} {seen : Seen}

/-- A state of the stack and one of `World`, with what was seen of each. -/
def Corresponds (x : Stack n K V B × Seen) (y : World n K V B × Seen) : Prop :=
  ∃ group handed committed s, y.1 = x.1.world group handed committed ∧
    Implements x.1 group handed committed s ∧ SameOrder x.1.calls x.2 y.2

omit [NeZero n] in
theorem corresponds_init : Corresponds ((Stack.init, .start) : Stack n K V B × Seen) (World.init gob, .start) :=
  ⟨_, [], [], _, rfl, implements_init, rfl, rfl, by simp [Seen.start], by simp [Stack.init],
    by simp [Stack.init]⟩

theorem Corresponds.step {x x' : Stack n K V B × Seen} {y : World n K V B × Seen} (h : Corresponds x y)
    (hinv : y.1.Inv gob) {a : StackAction n K V B} (hallowed : x.1.Delivered a) (hreached : x.1.Reached a)
    (hs : recording (Stack.step gob maxraftstate) Stack.observe x a = some x') :
    ∃ y', Reaches (recording (World.step gob maxraftstate) World.observe)
      (fun s a => s.1.FreshPlace a ∧ s.1.Reached a) y y' ∧ Corresponds x' y' := by
  obtain ⟨st, seen⟩ := x
  obtain ⟨st', seen₁⟩ := x'
  obtain ⟨w, seen'⟩ := y
  obtain ⟨group, handed, committed, s, rfl, himpl, horder⟩ := h
  obtain ⟨hs, rfl⟩ := recording_eq_some hs
  by_cases ha : ∃ b, a = .front b
  · obtain ⟨b, rfl⟩ := ha
    obtain ⟨himpl', hfree, hstep, hobserve⟩ := himpl.front hs
    have hrecord : recording (World.step gob maxraftstate) World.observe
        (st.world group handed committed, seen') b =
        some (st'.world group handed committed, st.front.observe b seen') := by
      simp [recording, hstep, hobserve]
    exact ⟨_, .tail .refl ⟨hfree, himpl.reached hinv hreached⟩ hrecord, group, handed, committed, s, rfl,
      himpl', horder.front hs⟩
  · obtain ⟨group', handed', committed', s', hrun, himpl'⟩ :=
      himpl.step hinv hallowed hs fun b hb => ha ⟨b, hb⟩
    obtain ⟨seen₂, hcalled, hreturned, hnow, hrecord⟩ := exists_recorded hrun seen'
    have hcalls : st'.calls = st.calls := calls_of_inner hrun
    have hobserve : st.observe a seen = { seen with now := seen.now + 1 } := by
      cases a with
      | front b => exact absurd ⟨b, rfl⟩ ha
      | _ => rfl
    refine ⟨_, hrecord, group', handed', committed', s', rfl, himpl', ?_⟩
    change SameOrder st'.calls (st.observe a seen) seen₂
    rw [hcalls, hobserve]
    refine horder.later rfl rfl hcalled (Nat.le_succ _) hnow fun c call reply hc hphase => ?_
    exact .inl ⟨call, hc, hphase, rfl, congrFun hreturned c⟩

/-- Every run of the stack is one of `World`. -/
theorem Stack.Runs.corresponds (hgob : gob.RoundTrips) (hrun : Stack.Runs gob maxraftstate st seen) :
    ∃ y, World.Runs gob maxraftstate y.1 y.2 ∧ Corresponds (st, seen) y :=
  hrun.simulation corresponds_init fun _ _ _ _ hreach h hallowed hs =>
    h.step (World.Runs.observed hgob hreach).1 hallowed.1 hallowed.2 hs

theorem Represents.of_reaches (hgob : gob.RoundTrips)
    (hrun : Reaches (Stack.step gob maxraftstate) Stack.Delivered Stack.init st) :
    ∃ w, Reaches (World.step gob maxraftstate) World.FreshPlace (World.init gob) w ∧ Represents st w :=
  hrun.simulation ⟨_, [], [], _, rfl, implements_init⟩ fun _ _ _ _ hreach h hallowed hs =>
    h.step (World.inv_of_reaches hgob hreach) hallowed hs

omit [NeZero n] in
theorem Implements.successes_lt {group : Group (Fin n) (KeyValue K V) B}
    {handed committed : List (Entry n K V)}
    {s : TermLeader.State (Fin n) (Raft1.Entry (Command K V))} (h : Implements st group handed committed s)
    (hfew : ∀ i, (st.cluster.node i).rf.getLastLogIndex < UInt64.size) (key : K) :
    successes key (st.world group handed committed).ops < UInt64.size := by
  have hle : successes key (st.world group handed committed).ops ≤ committed.length := by
    refine List.countP_le_length.trans_eq ?_
    simp [World.ops, Stack.world]
  rcases h.length_committed with hzero | ⟨v, hv⟩
  · exact (hle.trans_eq hzero).trans_lt (by decide)
  · exact (hle.trans hv).trans_lt (hfew v)

/-- Server 0 leads. It executes a `Put` and takes a snapshot, which server 2 installs and restores, and
it executes a `Get`. Then it crashes. -/
theorem exists_run : ∃ (st : Stack 3 ℕ ℕ (KeyValue ℕ ℕ)) (seen : Seen), Stack.Runs (plainGob ℕ ℕ) 0 st seen ∧
    st.calls = [⟨0, .put ⟨7, 5, 0⟩, .returned (.put ⟨.ok⟩), []⟩,
      ⟨1, .get ⟨7⟩, .returned (.get ⟨5, 1, .ok⟩), [0]⟩] ∧
    (st.keyValue 0 7 = some ⟨5, 1⟩ ∧ st.keyValue 1 7 = none ∧ st.keyValue 2 7 = some ⟨5, 1⟩) ∧
    ∀ i, (st.cluster.node i).rf.getLastLogIndex < UInt64.size := by
  obtain ⟨⟨st, seen⟩, hreach, hcalls, hmaps, hfew⟩ :=
    exists_reaches (recording (Stack.step (plainGob ℕ ℕ) 0) Stack.observe)
      (fun (s : Stack 3 ℕ ℕ (KeyValue ℕ ℕ) × Seen) a => s.1.Delivered a ∧ s.1.Reached a)
      (Stack.init, .start)
      [.raft (.startElection 0), .raft (.deliver 0), .raft (.deliver 1), .raft (.drop 0),
        .front (.invoke 0 (.put ⟨7, 5, 0⟩)), .front (.send 0), .front (.arrive 0), .start 0 0,
        .front (.event 0 (.register 0)), .raft (.broadcast 0 1), .raft (.deliver 0), .raft (.deliver 0),
        .raft (.pick 0), .receive 0 0, .handle 0 true 1, .front (.event 0 .notify),
        .front (.event 0 (.receive 0)), .front (.event 0 (.leave 0)), .front (.reply 0),
        .raft (.broadcast 0 2), .raft (.deliver 0), .receive 2 0, .handle 2 false 0, .raft (.drop 0),
        .front (.invoke 1 (.get ⟨7⟩)), .front (.send 1), .front (.arrive 1), .start 0 1,
        .front (.event 0 (.register 1)), .raft (.broadcast 0 1), .raft (.deliver 0), .raft (.deliver 0),
        .raft (.pick 0), .receive 0 0, .handle 0 true 0, .front (.event 0 .notify),
        .front (.event 0 (.receive 1)), .front (.event 0 (.leave 1)), .front (.reply 1), .restart 0]
      (fun s => s.1.calls = [⟨0, .put ⟨7, 5, 0⟩, .returned (.put ⟨.ok⟩), []⟩,
          ⟨1, .get ⟨7⟩, .returned (.get ⟨5, 1, .ok⟩), [0]⟩] ∧
        (s.1.keyValue 0 7 = some ⟨5, 1⟩ ∧ s.1.keyValue 1 7 = none ∧ s.1.keyValue 2 7 = some ⟨5, 1⟩) ∧
        ∀ i, (s.1.cluster.node i).rf.getLastLogIndex < UInt64.size)
      (by decide +kernel)
  exact ⟨st, seen, hreach, hcalls, hmaps, hfew⟩

omit [DecidableEq K] [Inhabited V] [NeZero n] in
theorem Implements.held {group : Group (Fin n) (KeyValue K V) B} {handed committed : List (Entry n K V)}
    {s : TermLeader.State (Fin n) (Raft1.Entry (Command K V))} (h : Implements st group handed committed s)
    {m : ℕ} {e : Entry n K V} (he : committed[m]? = some e) :
    ∃ Q : Finset (Fin n), MajorityQuorums.Majority Q ∧
      ∀ v ∈ Q, (st.cluster.node v).rf.Holds (m + 1) (some e.req) := by
  have hrefines := h.supported.grounded.refines
  obtain ⟨hlt, -⟩ := List.getElem?_eq_some_iff.mp he
  obtain ⟨T, l, hl, hsame⟩ := h.supported.agrees.chosen
  rcases hl.committed with hzero | ⟨t, k, -, hk, hcommitted, htake⟩
  · omega
  obtain ⟨Q, hQ, hkeeps⟩ := hcommitted.kept hrefines.inv
  refine ⟨Q, hQ, fun v hv => hrefines.holds_of_take (Nat.succ_pos m) (hsame m e he) rfl ?_⟩
  rw [TermLogs.take_le_congr htake hlt]
  exact TermLogs.take_le_congr (hkeeps v hv).2 (hlt.trans_le hk)

/-- Every run of the stack whose deliveries are sound and in order is one of `World` for its clerks, its
calls of `Submit` and its maps; no two calls of `Start` are given the same place in it, and a majority of
the servers holds what is committed there. -/
theorem stack_refines_world (hgob : gob.RoundTrips)
    (hrun : Reaches (Stack.step gob maxraftstate) Stack.Delivered Stack.init st) :
    ∃ w : World n K V B, Reaches (World.step gob maxraftstate) World.FreshPlace (World.init gob) w ∧
      w.calls = st.calls ∧ w.rpcs = st.rpcs ∧ w.rsm = st.rsm ∧
      (∀ i, (w.group.replicas i).state = st.keyValue i) ∧
      ∀ (m : ℕ) e, w.committed[m]? = some e → ∃ Q : Finset (Fin n), MajorityQuorums.Majority Q ∧
        ∀ v ∈ Q, (st.cluster.node v).rf.Holds (m + 1) (some e.req) := by
  obtain ⟨w, hworld, group, handed, committed, s, rfl, himpl⟩ := Represents.of_reaches hgob hrun
  exact ⟨_, hworld, rfl, rfl, rfl, fun i => (himpl.reads i).state, fun m e he => himpl.held he⟩

theorem Stack.Runs.reaches (hrun : Stack.Runs gob maxraftstate st seen) :
    Reaches (Stack.step gob maxraftstate) Stack.Delivered Stack.init st :=
  Reaches.of_recording (hrun.mono fun _ _ ha => ha.1)

/-- A `Put` and a `Get` with a crash behind them, as `World` has them. -/
theorem stack_refines_world_crash : ∃ (st : Stack 3 ℕ ℕ (KeyValue ℕ ℕ)) (w : World 3 ℕ ℕ (KeyValue ℕ ℕ)),
    Reaches (Stack.step (plainGob ℕ ℕ) 0) Stack.Delivered Stack.init st ∧
      Reaches (World.step (plainGob ℕ ℕ) 0) World.FreshPlace (World.init (plainGob ℕ ℕ)) w ∧
      w.calls = st.calls ∧ w.calls.length = 2 := by
  obtain ⟨st, seen, hrun, hcalls, -⟩ := exists_run
  obtain ⟨w, hworld, hsame, -⟩ := stack_refines_world (fun _ _ => rfl) hrun.reaches
  exact ⟨st, w, hrun.reaches, hworld, hsame, by rw [hsame, hcalls]; rfl⟩

/-- The maps of all servers come from one sequence of operations, and each of these is a clerk's. -/
theorem stack_maps_agree (hgob : gob.RoundTrips)
    (hrun : Reaches (Stack.step gob maxraftstate) Stack.Delivered Stack.init st) :
    ∃ ops : List (Command K V), (∀ i, ∃ k ≤ ops.length, st.keyValue i = storeAfter (ops.take k)) ∧
      ∀ op ∈ ops, ∃ call ∈ st.calls, call.command = op := by
  obtain ⟨w, hworld, group, handed, committed, s, rfl, himpl⟩ := Represents.of_reaches hgob hrun
  obtain ⟨hinv, hhandled⟩ := World.handled_of_reaches hgob hworld
  refine ⟨(st.world group handed committed).ops, fun i => ?_, fun op hop => ?_⟩
  · have hcurrent := hinv.logged.group.current i
    exact ⟨_, hcurrent.index, (himpl.reads i).state.symm.trans hcurrent.state⟩
  · obtain ⟨e, he, rfl⟩ := List.mem_map.mp hop
    obtain ⟨m, hm⟩ := List.mem_iff_getElem?.mp he
    obtain ⟨c, hsent⟩ := hhandled.exists_sent hinv.logged hm
    obtain ⟨rpc, hrpc, rfl, -⟩ := id hsent
    obtain ⟨call, hcall, -⟩ := hinv.routed rpc hrpc
    exact ⟨call, List.mem_of_getElem? hcall, (hinv.req_eq hcall hm hsent).symm⟩

/-- Server 1 lags behind, server 2 has its map from a snapshot. -/
theorem stack_maps_agree_snapshot : ∃ (st : Stack 3 ℕ ℕ (KeyValue ℕ ℕ)) (ops : List (Command ℕ ℕ)),
    Reaches (Stack.step (plainGob ℕ ℕ) 0) Stack.Delivered Stack.init st ∧ st.keyValue 1 7 = none ∧
      st.keyValue 2 7 = some ⟨5, 1⟩ ∧ (∀ i, ∃ k ≤ ops.length, st.keyValue i = storeAfter (ops.take k)) ∧
      ∀ op ∈ ops, ∃ call ∈ st.calls, call.command = op := by
  obtain ⟨st, seen, hrun, -, ⟨-, h1, h2⟩, -⟩ := exists_run
  obtain ⟨ops, hops⟩ := stack_maps_agree (fun _ _ => rfl) hrun.reaches
  exact ⟨st, ops, hrun.reaches, h1, h2, hops⟩

variable [DecidableEq V]

/-- In every run of clerks, servers and `Raft` objects whose deliveries are sound and in order, the
recorded calls are linearizable. -/
theorem stack_linearizable (hgob : gob.RoundTrips) (hrun : Stack.Runs gob maxraftstate st seen)
    (hfew : ∀ i, (st.cluster.node i).rf.getLastLogIndex < UInt64.size) :
    ∃ replies, IsLinearizable (st.front.recorded seen replies) := by
  obtain ⟨⟨w, seen'⟩, hworld, group, handed, committed, s, rfl, himpl, horder⟩ := hrun.corresponds hgob
  obtain ⟨hinv, hhandled, hobs⟩ := hworld.observed hgob
  have hlin := hobs.isLinearizable (himpl.successes_lt hfew) hinv hhandled
  exact ⟨_, SameOrder.isLinearizable horder rfl hlin⟩

/-- The calls behind which server 0 crashes. -/
theorem stack_linearizable_crash : ∃ (st : Stack 3 ℕ ℕ (KeyValue ℕ ℕ)) (seen : Seen),
    Stack.Runs (plainGob ℕ ℕ) 0 st seen ∧ st.calls = [⟨0, .put ⟨7, 5, 0⟩, .returned (.put ⟨.ok⟩), []⟩,
      ⟨1, .get ⟨7⟩, .returned (.get ⟨5, 1, .ok⟩), [0]⟩] ∧
    ∃ replies, IsLinearizable (st.front.recorded seen replies) := by
  obtain ⟨st, seen, hrun, hcalls, -, hfew⟩ := exists_run
  exact ⟨st, seen, hrun, hcalls, stack_linearizable (fun _ _ => rfl) hrun hfew⟩

end Results

end DistributedLabs.Kvraft
