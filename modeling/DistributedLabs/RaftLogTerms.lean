import DistributedLabs.RaftSteps

/-!
# Terms along the logs of `raft1`

The terms in a log window never decrease and never exceed the server's term, and a
request carries entries in order, above the term it names for the entry before them
and not above its own. Neither needs that a term has one leader: a request is cut
out of one server's log, and a merge joins entries behind an entry of the term that
the request names.
-/

namespace DistributedLabs.Raft1
open TransitionRuns TermLogs

variable {n : ℕ} {C D : Type}

def EntriesOrdered (l : List (Entry C)) : Prop := l.Pairwise fun e e' => e.term ≤ e'.term

/-- A log window with its head in place, ordered and not ahead of the server's term. -/
structure Raft.TermOrdered (rf : Raft n C D) : Prop where
  head : ∃ rest, rf.logs = ⟨rf.lastIncludedTerm, none⟩ :: rest
  ordered : EntriesOrdered rf.logs
  bounded : ∀ e ∈ rf.logs, e.term ≤ rf.currentTerm

structure AppendEntriesArgs.TermOrdered (args : AppendEntriesArgs n C) : Prop where
  ordered : EntriesOrdered args.entries
  above : ∀ e ∈ args.entries, args.prevLogTerm ≤ e.term
  bounded : ∀ e ∈ args.entries, e.term ≤ args.term

/-- What the requests in flight say about terms. -/
def Rpc.TermOrdered : Rpc n C D → Prop
  | .appendEntries args => args.TermOrdered
  | .installSnapshot args => args.lastIncludedTerm ≤ args.term
  | .requestVote _ | .requestVoteReply _ _ | .appendEntriesReply _ _ | .installSnapshotReply _ _ => True

namespace Raft
variable {rf : Raft n C D}

/-- An index in the window has an entry. -/
theorem slot_of_index (hlogs : rf.logs ≠ []) {i : ℕ} (hfirst : rf.lastIncludedIndex ≤ i)
    (hlast : i ≤ rf.getLastLogIndex) :
    ∃ k, ∃ hk : k < rf.logs.length, i = rf.lastIncludedIndex + k ∧
      rf.getLogTerm i = rf.logs[k].term := by
  have hpos := List.length_pos_iff.mpr hlogs
  obtain ⟨k, rfl⟩ := Nat.exists_eq_add_of_le hfirst
  have hk : k < rf.logs.length := by
    unfold getLastLogIndex at hlast
    omega
  refine ⟨k, hk, rfl, ?_⟩
  rw [getLogTerm_add, slotTerm, List.getElem?_eq_getElem hk]

/-- In an ordered window `getLogTerm` never decreases. -/
theorem getLogTerm_le_getLogTerm (hlogs : rf.logs ≠ []) (hord : EntriesOrdered rf.logs) {i j : ℕ}
    (hfirst : rf.lastIncludedIndex ≤ i) (hij : i ≤ j) (hlast : j ≤ rf.getLastLogIndex) :
    rf.getLogTerm i ≤ rf.getLogTerm j := by
  obtain ⟨k, hk, rfl, hi⟩ := slot_of_index hlogs hfirst (hij.trans hlast)
  obtain ⟨m, hm, rfl, hj⟩ := slot_of_index hlogs (hfirst.trans hij) hlast
  rw [hi, hj, Int.ofNat_le]
  rcases Nat.eq_or_lt_of_le (Nat.le_of_add_le_add_left hij) with rfl | hlt
  · exact le_rfl
  · exact List.pairwise_iff_getElem.mp hord k m hk hm hlt

end Raft

namespace Raft.TermOrdered
variable {rf : Raft n C D} (h : rf.TermOrdered)
include h

theorem logs_ne : rf.logs ≠ [] := by
  obtain ⟨rest, hlogs⟩ := h.head
  rw [hlogs]
  exact List.cons_ne_nil _ _

theorem lastIncludedTerm_le : rf.lastIncludedTerm ≤ rf.currentTerm := by
  obtain ⟨rest, hlogs⟩ := h.head
  exact h.bounded ⟨rf.lastIncludedTerm, none⟩ (hlogs ▸ List.mem_cons_self)

theorem sameWindow {rf' : Raft n C D} (hw : SameWindow rf rf')
    (hterm : rf.currentTerm ≤ rf'.currentTerm) : rf'.TermOrdered where
  head := by
    rw [hw.logs, hw.lastIncludedTerm]
    exact h.head
  ordered := by
    rw [hw.logs]
    exact h.ordered
  bounded := by
    rw [hw.logs]
    exact fun e he => (h.bounded e he).trans hterm

theorem appendOwn (command : Option C) : (rf.appendOwn command).TermOrdered where
  head := by
    obtain ⟨rest, hlogs⟩ := h.head
    refine ⟨rest ++ [⟨rf.currentTerm, command⟩], ?_⟩
    change rf.logs ++ [⟨rf.currentTerm, command⟩] = _
    rw [hlogs]
    rfl
  ordered := by
    refine List.pairwise_append.mpr ⟨h.ordered, List.pairwise_singleton _ _, fun e he e' he' => ?_⟩
    rw [List.mem_singleton.mp he']
    exact h.bounded e he
  bounded := by
    intro e he
    rcases List.mem_append.mp he with he | he
    · exact h.bounded e he
    · rw [List.mem_singleton.mp he]
      exact le_rfl

theorem accept {args : AppendEntriesArgs n C} (hargs : args.TermOrdered)
    (hterm : rf.currentTerm ≤ args.term) (hfirst : rf.lastIncludedIndex ≤ args.prevLogIndex)
    (hlast : args.prevLogIndex ≤ rf.getLastLogIndex)
    (hprev : args.prevLogTerm = rf.getLogTerm args.prevLogIndex) : (rf.accept args).TermOrdered := by
  obtain ⟨k, hlt, hk, hslotTerm⟩ := slot_of_index h.logs_ne hfirst hlast
  have hget := List.getElem?_eq_getElem hlt
  have hslot : args.prevLogIndex + 1 - rf.lastIncludedIndex = k + 1 := by omega
  have hlogs : (rf.accept args).logs = mergeAt Entry.term rf.logs (k + 1) args.entries := by
    rw [← hslot]
    rfl
  have hjoin : ∀ e ∈ args.entries, rf.logs[k].term ≤ e.term := by
    intro e he
    have habove := hargs.above e he
    rw [hprev, hslotTerm] at habove
    exact Int.ofNat_le.mp habove
  constructor
  · obtain ⟨rest, hhead⟩ := h.head
    have htake := take_le_congr (take_mergeAt Entry.term args.entries hlt) (Nat.le_add_left 1 k)
    have hmerged : (rf.accept args).logs.take 1 = [⟨rf.lastIncludedTerm, none⟩] := by
      rw [hlogs, htake, hhead]
      rfl
    exact ⟨(rf.accept args).logs.drop 1, by
      rw [← List.take_append_drop 1 (rf.accept args).logs, hmerged]
      rfl⟩
  · rw [hlogs]
    exact pairwise_mergeAt h.ordered hargs.ordered hget hjoin
  · intro e he
    rw [hlogs] at he
    rcases mem_mergeAt he with he | he
    · exact (h.bounded e he).trans hterm
    · exact hargs.bounded e he

theorem behind {k : ℕ} (hlt : k < rf.logs.length) :
    (∀ e ∈ rf.logs.drop (k + 1), rf.logs[k].term ≤ e.term) ∧
      EntriesOrdered (rf.logs.drop (k + 1)) := by
  have hsuffix : EntriesOrdered (rf.logs[k] :: rf.logs.drop (k + 1)) := by
    rw [← List.drop_eq_getElem_cons hlt]
    exact h.ordered.sublist (List.drop_sublist _ _)
  exact List.pairwise_cons.mp hsuffix

/-- A head with the rest of the window behind it. -/
theorem cut {rf' : Raft n C D} {e : Entry C} {k : ℕ} (hget : rf.logs[k]? = some e)
    (hlogs : rf'.logs = ⟨e.term, none⟩ :: rf.logs.drop (k + 1)) (hidx : rf'.lastIncludedTerm = e.term)
    (hterm : rf.currentTerm ≤ rf'.currentTerm) : rf'.TermOrdered := by
  obtain ⟨hlt, rfl⟩ := List.getElem?_eq_some_iff.mp hget
  obtain ⟨hhead, hrest⟩ := h.behind hlt
  refine ⟨⟨_, by rw [hlogs, hidx]⟩, ?_, fun e he => ?_⟩
  · rw [hlogs]
    exact List.pairwise_cons.mpr ⟨hhead, hrest⟩
  · rw [hlogs] at he
    rcases List.mem_cons.mp he with rfl | he
    · exact (h.bounded _ (List.getElem_mem hlt)).trans hterm
    · exact (h.bounded e (List.mem_of_mem_drop he)).trans hterm

omit h in
/-- A head alone. -/
theorem single {rf' : Raft n C D} (hlogs : rf'.logs = [⟨rf'.lastIncludedTerm, none⟩])
    (hterm : rf'.lastIncludedTerm ≤ rf'.currentTerm) : rf'.TermOrdered := by
  refine ⟨⟨[], hlogs⟩, ?_, fun e he => ?_⟩
  · rw [hlogs]
    exact List.pairwise_singleton _ _
  · rw [hlogs] at he
    rw [List.mem_singleton.mp he]
    exact hterm

theorem install {args : InstallSnapshotArgs n C D} (hargs : args.lastIncludedTerm ≤ args.term)
    (hterm : rf.currentTerm ≤ args.term) : (rf.install args).TermOrdered := by
  have hcurrent : (rf.install args).currentTerm = args.term := rf.observe_currentTerm hterm
  have hlogs : (rf.install args).logs = rf.windowBehind args := rfl
  unfold windowBehind at hlogs
  by_cases hm : rf.matchLog args.lastIncludedIndex args.lastIncludedTerm
  · obtain ⟨k, e, hk, hget, hentry⟩ := rf.slot_of_matchLog h.logs_ne hm
    obtain ⟨hlt, he⟩ := List.getElem?_eq_some_iff.mp hget
    refine h.cut hget ?_ hentry.symm (hterm.trans hcurrent.ge)
    rw [hlogs, if_pos hm, hk, Nat.add_sub_cancel_left, List.drop_eq_getElem_cons hlt,
      List.modify_zero_cons, he]
  · rw [if_neg hm] at hlogs
    refine single hlogs ?_
    rw [hcurrent]
    exact hargs

theorem snapshot_slot {index : ℕ} {e : Entry C} (bytes : Option D)
    (hslot : rf.logs[index - rf.lastIncludedIndex]? = some e) :
    (rf.trim index bytes e.term (rf.logs.drop (index - rf.lastIncludedIndex + 1))).TermOrdered :=
  h.cut hslot rfl rfl le_rfl

/-- A request is cut out of the leader's window. -/
theorem request {server : Fin n} {r : Raft n C D × Request n C D}
    (hr : rf.broadcastTo server = some r) : (Rpc.ofRequest r.2).TermOrdered := by
  obtain ⟨next, -, ⟨hfirst, hlast, hargs⟩ | hargs⟩ := rf.broadcastTo_cases hr <;> rw [hargs]
  · obtain ⟨k, hlt, hk, hprev⟩ := slot_of_index h.logs_ne
      (show rf.lastIncludedIndex ≤ next server - 1 by omega) (by omega)
    have hslot : next server - rf.lastIncludedIndex = k + 1 := by omega
    obtain ⟨hhead, hrest⟩ := h.behind hlt
    refine ⟨?_, fun e he => ?_, fun e he => ?_⟩
    · rw [hslot]
      exact hrest.sublist (List.take_sublist _ _)
    · rw [hslot] at he
      rw [hprev]
      exact Int.ofNat_le.mpr (hhead e (List.mem_of_mem_take he))
    · exact h.bounded e (List.mem_of_mem_drop (List.mem_of_mem_take he))
  · exact h.lastIncludedTerm_le

end Raft.TermOrdered

structure Cluster.TermOrdered (c : Cluster n C D) : Prop where
  node : ∀ i, (c.node i).rf.TermOrdered
  net : ∀ p ∈ c.net, p.body.TermOrdered

section Runs
variable {c c' : Cluster n C D} {a : Action n C D}

theorem Cluster.termOrdered_init : (Cluster.init n C D).TermOrdered :=
  ⟨fun _ => .single rfl le_rfl, nofun⟩

theorem Cluster.TermOrdered.change {i : Fin n} {rf : Raft n C D} (h : c.TermOrdered)
    (hc : Change c i a rf) : rf.TermOrdered := by
  have hrf := h.node i
  cases hc with
  | still _ window term => exact hrf.sameWindow window term
  | commit _ window term => exact hrf.sameWindow window term.ge
  | apply => exact hrf.sameWindow ⟨rfl, rfl, rfl⟩ le_rfl
  | append command => exact hrf.appendOwn command
  | accept _ hp _ hbody term first last prev =>
    have hargs := h.net _ (List.mem_of_getElem? hp)
    rw [hbody] at hargs
    exact hrf.accept hargs term first last prev
  | install _ hp _ hbody term =>
    have hargs := h.net _ (List.mem_of_getElem? hp)
    rw [hbody] at hargs
    exact hrf.install hargs term
  | trim bytes _ slot => exact hrf.snapshot_slot bytes slot
  | reset => exact .single rfl hrf.lastIncludedTerm_le
  | restart => exact hrf.sameWindow ⟨rfl, rfl, rfl⟩ le_rfl

theorem Change.term_le {i : Fin n} {rf : Raft n C D} (hc : Change c i a rf) :
    (c.node i).rf.currentTerm ≤ rf.currentTerm := by
  cases hc with
  | still _ _ term => exact term
  | commit _ _ term => exact term.ge
  | accept _ _ _ _ term => exact term
  | install _ _ _ _ term => exact term.trans ((c.node i).rf.observe_currentTerm term).ge
  | apply => exact le_rfl
  | append => exact le_rfl
  | trim => exact le_rfl
  | reset => exact le_rfl
  | restart => exact le_rfl

theorem Cluster.TermOrdered.step (h : c.TermOrdered)
    (hd : ∀ i, (c.node i).rf.Durable ∧ (c.node i).rf.me = i) (hs : c.step a = some c') :
    c'.TermOrdered := by
  refine ⟨fun i => h.change (.of_step hd hs i), fun p hp => ?_⟩
  rcases posted_of_step hs hp with hold | hnew
  · exact h.net p hold
  · cases hnew with
    | request hlead hne hr => exact (h.node _).request hr
    | requestVote => trivial
    | requestVoteReply => trivial
    | appendEntriesReply => trivial
    | installSnapshotReply => trivial
    | sent => trivial

theorem Cluster.termOrdered_of_reaches {guard : Cluster n C D → Action n C D → Prop}
    (h : Reaches Cluster.step guard (Cluster.init n C D) c) : c.TermOrdered :=
  durable_invariant h durable_init Cluster.termOrdered_init fun _ _ _ hd hc _ hs => hc.step hd hs

/-- Along a run no server goes back to an earlier term. -/
theorem currentTerm_le_of_reaches (hd : ∀ i, (c.node i).rf.Durable ∧ (c.node i).rf.me = i)
    (h : Reaches Cluster.step anyStep c c') (i : Fin n) :
    (c.node i).rf.currentTerm ≤ (c'.node i).rf.currentTerm :=
  durable_invariant (P := fun x => (c.node i).rf.currentTerm ≤ (x.node i).rf.currentTerm) h hd le_rfl
    fun _ _ _ hd hx _ hs => hx.trans (Change.of_step hd hs i).term_le

end Runs

/-- In every state of every run: every window has its head in place, terms along it never
decrease and the last is at most the server's; the entries of every request in flight are in order,
between the term it names and its own; and from there on no server's term decreases. -/
theorem log_terms_ordered (c : Cluster n C D)
    (h : Reaches Cluster.step anyStep (Cluster.init n C D) c) :
    (∀ i, (∃ rest, (c.node i).rf.logs = ⟨(c.node i).rf.lastIncludedTerm, none⟩ :: rest) ∧
      EntriesOrdered (c.node i).rf.logs ∧
      ∀ e ∈ (c.node i).rf.logs.getLast?, e.term ≤ (c.node i).rf.currentTerm) ∧
    (∀ p ∈ c.net, ∀ args, p.body = .appendEntries args → EntriesOrdered args.entries ∧
      ∀ e ∈ args.entries, args.prevLogTerm ≤ e.term ∧ e.term ≤ args.term) ∧
    ∀ c', Reaches Cluster.step anyStep c c' → ∀ i,
      (c.node i).rf.currentTerm ≤ (c'.node i).rf.currentTerm := by
  have hordered := Cluster.termOrdered_of_reaches h
  refine ⟨fun i => ?_, fun p hp args hbody => ?_, fun c' h' i => ?_⟩
  · have hrf := hordered.node i
    exact ⟨hrf.head, hrf.ordered, fun e he => hrf.bounded e (List.mem_of_getLast? he)⟩
  · have hargs := hordered.net p hp
    rw [hbody] at hargs
    exact ⟨hargs.ordered, fun e he => ⟨hargs.above e he, hargs.bounded e he⟩⟩
  · exact currentTerm_le_of_reaches (durable_of_reaches h) h' i

/-- Servers 0 and 1 lead term 1 together; server 2 has the entry of one of them, and a request of
the other is under way to it. -/
theorem log_terms_ordered_two_leaders : ∃ c : Cluster 3 ℕ ℕ,
    Reaches Cluster.step anyStep (Cluster.init 3 ℕ ℕ) c ∧
      (c.node 0).rf.state = .leader ∧ (c.node 1).rf.state = .leader ∧
      (c.node 2).rf.logs = [⟨0, none⟩, ⟨1, some 7⟩] ∧ EntriesOrdered (c.node 2).rf.logs ∧
      (∃ p ∈ c.net, p.caller = 1 ∧ p.body.appendArgs.isSome) ∧
      ∀ p ∈ c.net, ∀ args, p.body = .appendEntries args → EntriesOrdered args.entries := by
  obtain ⟨c, hreach, h0, h1, hlogs, hnet⟩ :=
    exists_reaches Cluster.step anyStep (Cluster.init 3 ℕ ℕ)
      [.startElection 0, .startElection 1, .deliver 1, .deliver 3, .broadcast 0 2, .deliver 3,
        .deliver 2, .deliver 3, .start 0 (some 7), .start 1 (some 8), .drop 0, .drop 0, .drop 0,
        .broadcast 0 2, .deliver 0, .broadcast 1 2]
      (fun c => (c.node 0).rf.state = .leader ∧ (c.node 1).rf.state = .leader ∧
        (c.node 2).rf.logs = [⟨0, none⟩, ⟨1, some 7⟩] ∧
        ∃ p ∈ c.net, p.caller = 1 ∧ p.body.appendArgs.isSome) (by decide +kernel)
  obtain ⟨hnode, hargs, -⟩ := log_terms_ordered c hreach
  exact ⟨c, hreach, h0, h1, hlogs, (hnode 2).2.1, hnet, fun p hp args hb => (hargs p hp args hb).1⟩

end DistributedLabs.Raft1
