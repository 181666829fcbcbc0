import DistributedLabs.RaftLogWindow

/-!
# Log compaction

A server that compacts its log moves the head of its window forward. From the new head on the
window is the same: the term at the head and the entries behind it. The handlers
translate every index into the window, and for a request that does not go back behind the new head
they read nothing but this, so nobody can tell from the answers whether the log has been compacted.
-/

namespace DistributedLabs.Raft1.Raft
open TermLogs

variable {n : ℕ} {C D : Type} {rf rf' : Raft n C D} {index term : ℕ} {rest : List (Entry C)}

/-- From `index` on, the window has `term` there and `rest` behind it. -/
def WindowFrom (rf : Raft n C D) (index term : ℕ) (rest : List (Entry C)) : Prop :=
  ∃ past x, rf.logs = past ++ x :: rest ∧ rf.lastIncludedIndex + past.length = index ∧ x.term = term

/-- What changes neither the log nor the snapshot keeps the window. -/
theorem WindowFrom.of_logs (h : rf.WindowFrom index term rest) (hlogs : rf'.logs = rf.logs)
    (hfirst : rf'.lastIncludedIndex = rf.lastIncludedIndex) : rf'.WindowFrom index term rest := by
  rw [WindowFrom, hlogs, hfirst]
  exact h

namespace WindowFrom
variable (h : rf.WindowFrom index term rest)
include h

theorem logs_ne_nil : rf.logs ≠ [] := by
  obtain ⟨past, x, hlogs, -⟩ := h
  simp [hlogs]

theorem first_le : rf.lastIncludedIndex ≤ index := by
  obtain ⟨past, x, -, hindex, -⟩ := h
  omega

theorem getLastLogIndex_eq : rf.getLastLogIndex = index + rest.length := by
  obtain ⟨past, x, hlogs, hindex, -⟩ := h
  rw [getLastLogIndex, hlogs, List.length_append, List.length_cons]
  omega

theorem getLogTerm_eq (k : ℕ) : rf.getLogTerm (index + k) = slotTerm (⟨term, none⟩ :: rest) k := by
  obtain ⟨past, x, hlogs, rfl, rfl⟩ := h
  rw [Nat.add_assoc, getLogTerm_add, hlogs, slotTerm, slotTerm,
    List.getElem?_append_right (Nat.le_add_right _ _), Nat.add_sub_cancel_left]
  cases k <;> rfl

theorem entryAt_eq (k : ℕ) : rf.entryAt (index + (k + 1)) = rest[k]? := by
  obtain ⟨past, x, hlogs, rfl, -⟩ := h
  have hindex : rf.lastIncludedIndex + past.length + (k + 1) =
      rf.lastIncludedIndex + (past.length + k + 1) := by omega
  rw [entryAt_window hindex, hlogs, Nat.add_assoc,
    List.getElem?_append_right (Nat.le_add_right _ _), Nat.add_sub_cancel_left,
    List.getElem?_cons_succ]

theorem accept {args : AppendEntriesArgs n C} {k : ℕ} (hprev : args.prevLogIndex = index + k) :
    (rf.accept args).WindowFrom index term (mergeAt Entry.term rest k args.entries) := by
  obtain ⟨past, x, hlogs, hindex, hterm⟩ := h
  have hslot : args.prevLogIndex + 1 - rf.lastIncludedIndex = (past ++ [x]).length + k := by
    rw [List.length_append, List.length_singleton]
    omega
  refine ⟨past, x, ?_, hindex, hterm⟩
  change mergeAt Entry.term rf.logs (args.prevLogIndex + 1 - rf.lastIncludedIndex) args.entries = _
  rw [hslot, hlogs, List.append_cons, mergeAt_append, List.append_assoc, List.singleton_append]

end WindowFrom

/-- Both servers have the same window from `index` on, and the same term, vote and role. -/
structure SameFrom (index : ℕ) (rf rf' : Raft n C D) : Prop where
  window : ∃ term rest, rf.WindowFrom index term rest ∧ rf'.WindowFrom index term rest
  currentTerm : rf'.currentTerm = rf.currentTerm
  votedFor : rf'.votedFor = rf.votedFor
  state : rf'.state = rf.state

/-- A snapshot moves the head of the window to its index. -/
theorem sameFrom_snapshot (hfirst : rf.lastIncludedIndex < index) (hlast : index ≤ rf.getLastLogIndex)
    (data : Option D) : SameFrom index rf (rf.snapshot index data) := by
  unfold getLastLogIndex at hlast
  rcases rf.snapshot_cases index data with ⟨hle, -⟩ | ⟨-, e, he, hres⟩ | ⟨-, hlen, -⟩
  · omega
  · rw [hres]
    obtain ⟨hlt, hget⟩ := List.getElem?_eq_some_iff.mp he
    refine ⟨⟨e.term, _, ?_, [], _, rfl, rfl, rfl⟩, rfl, rfl, rfl⟩
    refine ⟨rf.logs.take (index - rf.lastIncludedIndex), e, ?_, ?_, rfl⟩
    · rw [← hget, ← List.drop_eq_getElem_cons hlt, List.take_append_drop]
    · rw [List.length_take]
      omega
  · omega

namespace SameFrom
variable (h : SameFrom index rf rf')
include h

theorem getLastLogIndex_eq : rf'.getLastLogIndex = rf.getLastLogIndex := by
  obtain ⟨term, rest, hw, hw'⟩ := h.window
  rw [hw.getLastLogIndex_eq, hw'.getLastLogIndex_eq]

theorem le_getLastLogIndex : index ≤ rf.getLastLogIndex := by
  obtain ⟨term, rest, hw, -⟩ := h.window
  rw [hw.getLastLogIndex_eq]
  exact Nat.le_add_right _ _

theorem getLogTerm_eq {i : ℕ} (hi : index ≤ i) : rf'.getLogTerm i = rf.getLogTerm i := by
  obtain ⟨term, rest, hw, hw'⟩ := h.window
  obtain ⟨k, rfl⟩ := Nat.exists_eq_add_of_le hi
  rw [hw.getLogTerm_eq, hw'.getLogTerm_eq]

theorem entryAt_eq {i : ℕ} (hi : index < i) : rf'.entryAt i = rf.entryAt i := by
  obtain ⟨term, rest, hw, hw'⟩ := h.window
  obtain ⟨k, rfl⟩ := Nat.exists_eq_add_of_lt hi
  rw [Nat.add_assoc, hw.entryAt_eq, hw'.entryAt_eq]

/-- The same change of term, vote and role on both sides. -/
theorem of_sameLog {s s' : Raft n C D} (hlogs : s.logs = rf.logs)
    (hfirst : s.lastIncludedIndex = rf.lastIncludedIndex) (hlogs' : s'.logs = rf'.logs)
    (hfirst' : s'.lastIncludedIndex = rf'.lastIncludedIndex) (hterm : s'.currentTerm = s.currentTerm)
    (hvote : s'.votedFor = s.votedFor) (hstate : s'.state = s.state) : SameFrom index s s' := by
  obtain ⟨term, rest, hw, hw'⟩ := h.window
  exact ⟨⟨term, rest, hw.of_logs hlogs hfirst, hw'.of_logs hlogs' hfirst'⟩, hterm, hvote, hstate⟩

theorem stepDown (term : ℕ) : SameFrom index (rf.stepDown term) (rf'.stepDown term) :=
  h.of_sameLog rfl rfl rfl rfl rfl rfl rfl

theorem observe (term : ℕ) : SameFrom index (rf.observe term) (rf'.observe term) := by
  unfold Raft.observe
  rw [h.currentTerm]
  split_ifs
  · exact h.stepDown term
  · exact h

theorem voteFlag_iff (args : RequestVoteArgs n) : rf'.VoteFlag args ↔ rf.VoteFlag args := by
  rw [VoteFlag, VoteFlag, h.getLastLogIndex_eq, h.getLogTerm_eq h.le_getLastLogIndex]

theorem requestVote (args : RequestVoteArgs n) :
    (rf'.requestVote args).2 = (rf.requestVote args).2 ∧
      SameFrom index (rf.requestVote args).1 (rf'.requestVote args).1 := by
  rw [requestVote_eq, requestVote_eq, h.currentTerm, h.votedFor]
  simp only [h.voteFlag_iff args]
  split_ifs
  · exact ⟨rfl, h⟩
  · exact ⟨rfl, h.of_sameLog rfl rfl rfl rfl rfl rfl rfl⟩
  · exact ⟨rfl, h.observe args.term⟩

theorem accepts_iff {args : AppendEntriesArgs n C} (hprev : index ≤ args.prevLogIndex) :
    rf'.Accepts args ↔ rf.Accepts args := by
  obtain ⟨term, rest, hw, hw'⟩ := h.window
  constructor
  · intro ha
    refine ⟨hw.first_le.trans hprev, ?_, ?_⟩
    · rw [← h.getLastLogIndex_eq]
      exact ha.last
    · rw [← h.getLogTerm_eq hprev]
      exact ha.prev
  · intro ha
    refine ⟨hw'.first_le.trans hprev, ?_, ?_⟩
    · rw [h.getLastLogIndex_eq]
      exact ha.last
    · rw [h.getLogTerm_eq hprev]
      exact ha.prev

theorem accept {args : AppendEntriesArgs n C} (hprev : index ≤ args.prevLogIndex) :
    SameFrom index (rf.accept args) (rf'.accept args) := by
  obtain ⟨term, rest, hw, hw'⟩ := h.window
  obtain ⟨k, hk⟩ := Nat.exists_eq_add_of_le hprev
  exact ⟨⟨term, _, hw.accept hk, hw'.accept hk⟩, rfl, rfl, rfl⟩

theorem appendEntries {args : AppendEntriesArgs n C} (hprev : index ≤ args.prevLogIndex) :
    (rf'.appendEntries args).2.success = (rf.appendEntries args).2.success ∧
      (rf'.appendEntries args).2.term = (rf.appendEntries args).2.term ∧
      SameFrom index (rf.appendEntries args).1 (rf'.appendEntries args).1 := by
  obtain ⟨term, rest, hw, hw'⟩ := h.window
  rcases lt_or_ge args.term rf.currentTerm with hlt | hge
  · have hlt' : args.term < rf'.currentTerm := h.currentTerm ▸ hlt
    simp only [Raft.appendEntries, hlt, hlt', if_true]
    exact ⟨trivial, h.currentTerm, h⟩
  · have hge' : rf'.currentTerm ≤ args.term := h.currentTerm ▸ hge
    by_cases ha : rf.Accepts args
    · rw [appendEntries_of_accepts rf hw.logs_ne_nil hge ha,
        appendEntries_of_accepts rf' hw'.logs_ne_nil hge' ((h.accepts_iff hprev).mpr ha)]
      exact ⟨rfl, h.currentTerm, h.accept hprev⟩
    · have ha' : ¬rf'.Accepts args := fun ha' => ha ((h.accepts_iff hprev).mp ha')
      obtain ⟨i, t, he⟩ := appendEntries_of_not_accepts rf hge hw.logs_ne_nil ha
      obtain ⟨i', t', he'⟩ := appendEntries_of_not_accepts rf' hge' hw'.logs_ne_nil ha'
      rw [he, he']
      exact ⟨rfl, h.currentTerm, h.stepDown args.term⟩

end SameFrom

/-- A request that both handlers of a term and a log take. -/
inductive Inquiry (n : ℕ) (C : Type)
  | requestVote (args : RequestVoteArgs n)
  | appendEntries (args : AppendEntriesArgs n C)

/-- The request does not go back behind `index`. -/
def Inquiry.From (index : ℕ) : Inquiry n C → Prop
  | .requestVote _ => True
  | .appendEntries args => index ≤ args.prevLogIndex

/-- The server after a request, and the `Term` and the `VoteGranted` or `Success` of the reply. -/
def answer (rf : Raft n C D) : Inquiry n C → Raft n C D × ℕ × Bool
  | .requestVote args =>
    ((rf.requestVote args).1, (rf.requestVote args).2.term, (rf.requestVote args).2.voteGranted)
  | .appendEntries args =>
    ((rf.appendEntries args).1, (rf.appendEntries args).2.term, (rf.appendEntries args).2.success)

def answers (rf : Raft n C D) : List (Inquiry n C) → List (ℕ × Bool)
  | [] => []
  | q :: rest => (rf.answer q).2 :: (rf.answer q).1.answers rest

theorem SameFrom.answer (h : SameFrom index rf rf') {q : Inquiry n C} (hq : q.From index) :
    (rf'.answer q).2 = (rf.answer q).2 ∧ SameFrom index (rf.answer q).1 (rf'.answer q).1 := by
  cases q with
  | requestVote args =>
    obtain ⟨hreply, hsame⟩ := h.requestVote args
    exact ⟨by simp only [Raft.answer, hreply], hsame⟩
  | appendEntries args =>
    obtain ⟨hsuccess, hterm, hsame⟩ := h.appendEntries hq
    exact ⟨by simp only [Raft.answer, hsuccess, hterm], hsame⟩

/-- However many requests come, none of the answers tells the two servers apart. -/
theorem SameFrom.answers (h : SameFrom index rf rf') {qs : List (Inquiry n C)}
    (hqs : ∀ q ∈ qs, q.From index) : rf'.answers qs = rf.answers qs := by
  induction qs generalizing rf rf' with
  | nil => rfl
  | cons q qs ih =>
    obtain ⟨hreply, hsame⟩ := h.answer (hqs q List.mem_cons_self)
    rw [Raft.answers, Raft.answers, hreply, ih hsame fun r hr => hqs r (List.mem_cons_of_mem q hr)]

/-- After a snapshot inside the window the last index, the terms from its index on and the entries
above it are as before, and both handlers answer and leave the server as they would have without
it. -/
theorem snapshot_invisible (rf : Raft n C D) (index : ℕ) (data : Option D)
    (hfirst : rf.lastIncludedIndex < index) (hlast : index ≤ rf.getLastLogIndex) :
    (rf.snapshot index data).getLastLogIndex = rf.getLastLogIndex ∧
    (∀ i, index ≤ i → (rf.snapshot index data).getLogTerm i = rf.getLogTerm i) ∧
    (∀ i, index < i → (rf.snapshot index data).entryAt i = rf.entryAt i) ∧
    (∀ args : RequestVoteArgs n,
      let after := (rf.snapshot index data).requestVote args
      let before := rf.requestVote args
      after.2.voteGranted = before.2.voteGranted ∧ after.2.term = before.2.term ∧
        after.1.currentTerm = before.1.currentTerm ∧ after.1.votedFor = before.1.votedFor ∧
        after.1.state = before.1.state ∧ ∀ i, index < i → after.1.entryAt i = before.1.entryAt i) ∧
    ∀ args : AppendEntriesArgs n C, index ≤ args.prevLogIndex →
      let after := (rf.snapshot index data).appendEntries args
      let before := rf.appendEntries args
      after.2.success = before.2.success ∧ after.2.term = before.2.term ∧
        after.1.currentTerm = before.1.currentTerm ∧ after.1.votedFor = before.1.votedFor ∧
        after.1.state = before.1.state ∧ ∀ i, index < i → after.1.entryAt i = before.1.entryAt i := by
  have hsame := sameFrom_snapshot hfirst hlast data
  refine ⟨hsame.getLastLogIndex_eq, fun i => hsame.getLogTerm_eq, fun i => hsame.entryAt_eq, ?_, ?_⟩
  · intro args
    obtain ⟨hreply, h⟩ := hsame.requestVote args
    exact ⟨congrArg _ hreply, congrArg _ hreply, h.currentTerm, h.votedFor, h.state,
      fun i => h.entryAt_eq⟩
  · intro args hprev
    obtain ⟨hsuccess, hterm, h⟩ := hsame.appendEntries hprev
    exact ⟨hsuccess, hterm, h.currentTerm, h.votedFor, h.state, fun i => h.entryAt_eq⟩

/-- A server with three entries compacts the first two and gets a request that starts right at the
new head and replaces the third. -/
theorem snapshot_invisible_at_the_head :
    let rf : Raft 3 ℕ ℕ :=
      { make 0 (makePersister ℕ ℕ) with
        currentTerm := 2
        logs := [⟨0, none⟩, ⟨1, some 7⟩, ⟨1, some 8⟩, ⟨2, some 9⟩] }
    let args : AppendEntriesArgs 3 ℕ := ⟨3, 1, 2, 1, 0, [⟨3, some 6⟩]⟩
    rf.lastIncludedIndex < 2 ∧ 2 ≤ rf.getLastLogIndex ∧
      ((rf.snapshot 2 (some 5)).appendEntries args).2.success = true ∧
      ((rf.snapshot 2 (some 5)).appendEntries args).1.entryAt 3 = some ⟨3, some 6⟩ := by
  intro rf args
  have hfirst : rf.lastIncludedIndex < 2 := by decide
  have hlast : 2 ≤ rf.getLastLogIndex := by decide
  obtain ⟨-, -, -, -, happend⟩ := snapshot_invisible rf 2 (some 5) hfirst hlast
  obtain ⟨hsuccess, -, -, -, -, hentries⟩ := happend args le_rfl
  refine ⟨hfirst, hlast, hsuccess.trans ?_, (hentries 3 (by decide)).trans ?_⟩
  · decide
  · decide

end DistributedLabs.Raft1.Raft
