import DistributedLabs.RaftServer
import DistributedLabs.TermLogs

/-!
# What a critical section of `raft1` can do

For every critical section, the outcomes it has and when each occurs. Later
modules argue about these outcomes and not about the code. The vote, the merged
log and the installed snapshot get names of their own here, as updates of the
server they are applied to.

The second half is persistence: after every section the persister holds what the
server would need to come back, so that `make` rebuilds the server it was.
-/

namespace DistributedLabs.Raft1.Raft
open TermLogs

variable {n : ℕ} {C D : Type} (rf : Raft n C D)

/-- A request of a later term makes the server a follower of that term. -/
def observe (term : ℕ) : Raft n C D := if term > rf.currentTerm then rf.stepDown term else rf

def castVote (args : RequestVoteArgs n) : Raft n C D :=
  { rf with
    votedFor := some args.candidateId
    currentTerm := args.term
    state := .follower }.persist

/-- The server after an accepted `AppendEntries`. -/
def accept (args : AppendEntriesArgs n C) : Raft n C D :=
  ({ rf.stepDown args.term with
    logs := mergeAt Entry.term rf.logs (args.prevLogIndex + 1 - rf.lastIncludedIndex)
      args.entries }.persist).followCommit args

/-- The log window an installed snapshot leaves. -/
def windowBehind (args : InstallSnapshotArgs n C D) : List (Entry C) :=
  if rf.matchLog args.lastIncludedIndex args.lastIncludedTerm then
    (rf.logs.drop (args.lastIncludedIndex - rf.lastIncludedIndex)).modify 0
      fun head => { head with command := none }
  else [⟨args.lastIncludedTerm, none⟩]

/-- The server after an installed snapshot. -/
def install (args : InstallSnapshotArgs n C D) : Raft n C D :=
  let installed : Raft n C D :=
    { rf.observe args.term with
      logs := rf.windowBehind args
      commitIndex := args.lastIncludedIndex
      lastApplied := args.lastIncludedIndex
      lastIncludedIndex := args.lastIncludedIndex
      lastIncludedTerm := args.lastIncludedTerm }
  installed.save installed.encodeState args.data

/-- The server after the service's snapshot up to `index`. -/
def trim (index : ℕ) (bytes : Option D) (term : ℕ) (rest : List (Entry C)) : Raft n C D :=
  let trimmed : Raft n C D :=
    { rf with
      logs := ⟨term, none⟩ :: rest
      commitIndex := max rf.commitIndex index
      lastApplied := max rf.lastApplied index
      lastIncludedIndex := index
      lastIncludedTerm := term }
  trimmed.save trimmed.encodeState ⟨bytes,
    rf.persister.snapshot.entries ++ rf.logs.tail.take (index - rf.lastIncludedIndex)⟩

/-- The server after a successful reply, before it looks for something to commit. -/
@[simps] def noteMatch (server : Fin n) (args : AppendEntriesArgs n C) : Raft n C D :=
  { rf with
    nextIndex := Function.update rf.nextIndex server (args.prevLogIndex + args.entries.length + 1)
    matchIndex :=
      Function.update rf.matchIndex server (args.prevLogIndex + args.entries.length) }

/-- The leader after `Start`. -/
def appendOwn (command : Option C) : Raft n C D :=
  let appended : Raft n C D := { rf with logs := rf.logs ++ [⟨rf.currentTerm, command⟩] }
  { appended.persist with
    matchIndex := Function.update rf.matchIndex rf.me (rf.matchIndex rf.me + 1) }

/-- The request to a peer whose next entry is in the window. -/
@[simps] def appendRequest (next : ℕ) : AppendEntriesArgs n C where
  term := rf.currentTerm
  leaderId := rf.me
  prevLogIndex := next - 1
  prevLogTerm := rf.getLogTerm (next - 1)
  leaderCommit := rf.commitIndex
  entries := (rf.logs.drop (next - rf.lastIncludedIndex)).take
    (min (next + batchSize) (rf.getLastLogIndex + 1) - next)

/-- The request to a peer whose next entry is behind the snapshot. -/
@[simps] def snapshotRequest : InstallSnapshotArgs n C D where
  term := rf.currentTerm
  leaderId := rf.me
  lastIncludedIndex := rf.lastIncludedIndex
  lastIncludedTerm := rf.lastIncludedTerm
  data := rf.persister.snapshot

theorem observe_of_eq {term : ℕ} (h : rf.currentTerm = term) : rf.observe term = rf := by
  simp [observe, h]

@[simp] theorem observe_currentTerm {term : ℕ} (h : rf.currentTerm ≤ term) :
    (rf.observe term).currentTerm = term := by
  unfold observe
  split_ifs
  · rfl
  · omega

/-- Observing a term changes the term, the vote and the role, and saves them. -/
theorem observe_eq_or (term : ℕ) :
    rf.observe term = rf ∨ rf.currentTerm < term ∧ rf.observe term = rf.stepDown term := by
  unfold observe
  split_ifs with h
  · exact Or.inr ⟨h, rfl⟩
  · exact Or.inl rfl

/-- The candidate's log is at least as up to date as the voter's. -/
def VoteFlag (args : RequestVoteArgs n) : Prop :=
  rf.getLogTerm rf.getLastLogIndex < args.lastLogTerm ∨
    rf.getLogTerm rf.getLastLogIndex = args.lastLogTerm ∧ rf.getLastLogIndex ≤ args.lastLogIndex

instance (args : RequestVoteArgs n) : Decidable (rf.VoteFlag args) :=
  inferInstanceAs (Decidable (_ ∨ _))

/-- A vote of the present term has to be free; a vote of a later term always is. -/
theorem requestVote_eq (args : RequestVoteArgs n) : rf.requestVote args =
    if args.term < rf.currentTerm then (rf, ⟨rf.currentTerm, false⟩)
    else if (rf.currentTerm = args.term →
        rf.votedFor = some args.candidateId ∨ rf.votedFor = none) ∧ rf.VoteFlag args then
      (rf.castVote args, ⟨args.term, true⟩)
    else (rf.observe args.term, ⟨args.term, false⟩) := by
  rcases lt_trichotomy args.term rf.currentTerm with hlt | heq | hgt
  · simp [requestVote, hlt]
  · have hvote : rf.requestVote args =
        if rf.votedFor = some args.candidateId ∨ rf.votedFor = none then
          if rf.VoteFlag args then (rf.castVote args, ⟨args.term, true⟩)
          else (rf, ⟨args.term, false⟩)
        else (rf, ⟨args.term, false⟩) := by
      simp [requestVote, heq, VoteFlag, castVote]
    rw [hvote, observe_of_eq rf heq.symm, if_neg heq.not_lt]
    by_cases hfree : rf.votedFor = some args.candidateId ∨ rf.votedFor = none <;> simp [hfree, heq]
  · have hobs : rf.observe args.term = rf.stepDown args.term := if_pos hgt
    have hvote : rf.requestVote args =
        if rf.VoteFlag args then (rf.castVote args, ⟨args.term, true⟩)
        else (rf.stepDown args.term, ⟨args.term, false⟩) := by
      simp [requestVote, hgt, hgt.not_gt, VoteFlag, castVote]
      rfl
    rw [hvote, hobs]
    simp [hgt.ne, hgt.not_gt]

theorem requestVote_cases (args : RequestVoteArgs n) :
    args.term < rf.currentTerm ∧ rf.requestVote args = (rf, ⟨rf.currentTerm, false⟩) ∨
    rf.currentTerm ≤ args.term ∧ rf.requestVote args = (rf.observe args.term, ⟨args.term, false⟩) ∨
    rf.currentTerm ≤ args.term ∧
      (rf.currentTerm = args.term → rf.votedFor = some args.candidateId ∨ rf.votedFor = none) ∧
      rf.VoteFlag args ∧ rf.requestVote args = (rf.castVote args, ⟨args.term, true⟩) := by
  rw [requestVote_eq]
  split_ifs with hlt hvote
  · exact Or.inl ⟨hlt, rfl⟩
  · exact Or.inr (Or.inr ⟨not_lt.mp hlt, hvote.1, hvote.2, rfl⟩)
  · exact Or.inr (Or.inl ⟨not_lt.mp hlt, rfl⟩)

theorem getLogTerm_add (k : ℕ) : rf.getLogTerm (rf.lastIncludedIndex + k) = slotTerm rf.logs k := by
  rcases Nat.eq_zero_or_pos k with rfl | hk
  · simp [getLogTerm, getFirstLogIndex]
  · simp [getLogTerm, getFirstLogIndex, hk.ne']

/-- An index and term that match stand in a slot behind the head. -/
theorem slot_of_matchLog (hlogs : rf.logs ≠ []) {index term : ℕ} (h : rf.matchLog index term) :
    ∃ k e, index = rf.lastIncludedIndex + (k + 1) ∧ rf.logs[k + 1]? = some e ∧ e.term = term := by
  have hpos := List.length_pos_iff.mpr hlogs
  unfold matchLog at h
  by_cases hout : index ≤ rf.getFirstLogIndex ∨ index > rf.getLastLogIndex
  · rw [if_pos hout] at h
    cases h
  · rw [if_neg hout, decide_eq_true_eq] at h
    unfold getFirstLogIndex getLastLogIndex at hout
    obtain ⟨k, rfl⟩ : ∃ k, index = rf.lastIncludedIndex + (k + 1) :=
      ⟨index - rf.lastIncludedIndex - 1, by omega⟩
    have hget := List.getElem?_eq_getElem (show k + 1 < rf.logs.length by omega)
    rw [getLogTerm_add, slotTerm, hget] at h
    exact ⟨k, _, rfl, hget, Int.ofNat_inj.mp h⟩

/-- Merging into a saved server saves the merged log. -/
theorem mergeEntries_eq (hlogs : rf.logs ≠ []) (hsaved : rf.persist = rf) (k : ℕ)
    (es : List (Entry C)) :
    rf.mergeEntries (rf.lastIncludedIndex + (k + 1)) es =
      { rf with logs := mergeAt Entry.term rf.logs (k + 1) es }.persist := by
  have hpos := List.length_pos_iff.mpr hlogs
  induction es generalizing k with
  | nil => exact hsaved.symm
  | cons e es ih =>
    simp only [mergeEntries, getLogTerm_add, slotTerm, mergeAt]
    cases hx : rf.logs[k + 1]? with
    | none =>
      have hend := List.getElem?_eq_none_iff.mp hx
      have hlast : rf.lastIncludedIndex + (k + 1) > rf.getLastLogIndex := by
        unfold getLastLogIndex
        omega
      simp [hlast]
    | some x =>
      have hlt := (List.getElem?_eq_some_iff.mp hx).1
      have hlast : ¬rf.lastIncludedIndex + (k + 1) > rf.getLastLogIndex := by
        unfold getLastLogIndex
        omega
      by_cases ht : x.term = e.term
      · have h := ih (k + 1)
        simp only [hlast, ht, if_true, if_false, ne_eq, not_true_eq_false]
        exact h
      · have hz : (x.term : ℤ) ≠ e.term := by omega
        simp [hlast, ht, hz, getFirstLogIndex]

/-- The merged server is the one the loop over the overlap leaves. -/
theorem accept_eq_mergeEntries (hlogs : rf.logs ≠ []) {args : AppendEntriesArgs n C}
    (hfirst : rf.lastIncludedIndex ≤ args.prevLogIndex) :
    rf.accept args =
      ((rf.stepDown args.term).mergeEntries (args.prevLogIndex + 1) args.entries).followCommit args := by
  obtain ⟨k, hk⟩ := Nat.exists_eq_add_of_le hfirst
  have hmerge := mergeEntries_eq (rf.stepDown args.term) hlogs rfl k args.entries
  rw [accept, hk, show rf.lastIncludedIndex + k + 1 - rf.lastIncludedIndex = k + 1 by omega]
  exact congrArg (followCommit · args) hmerge.symm

/-- The request's entries start inside the window, behind an entry of the term it names. -/
structure Accepts (args : AppendEntriesArgs n C) : Prop where
  first : rf.lastIncludedIndex ≤ args.prevLogIndex
  last : args.prevLogIndex ≤ rf.getLastLogIndex
  prev : args.prevLogTerm = rf.getLogTerm args.prevLogIndex

instance (args : AppendEntriesArgs n C) : Decidable (rf.Accepts args) :=
  decidable_of_iff (rf.lastIncludedIndex ≤ args.prevLogIndex ∧
      args.prevLogIndex ≤ rf.getLastLogIndex ∧ args.prevLogTerm = rf.getLogTerm args.prevLogIndex)
    ⟨fun h => ⟨h.1, h.2.1, h.2.2⟩, fun h => ⟨h.first, h.last, h.prev⟩⟩

theorem appendEntries_of_accepts (hlogs : rf.logs ≠ []) {args : AppendEntriesArgs n C}
    (hterm : rf.currentTerm ≤ args.term) (h : rf.Accepts args) :
    rf.appendEntries args = (rf.accept args, ⟨rf.currentTerm, true, 0, 0⟩) := by
  rw [accept_eq_mergeEntries rf hlogs h.first]
  simp only [appendEntries, hterm.not_gt, if_false]
  by_cases hend : args.prevLogIndex = rf.getLastLogIndex ∧
      args.prevLogTerm = rf.getLogTerm rf.getLastLogIndex
  · -- the whole batch goes behind the last entry, where the loop would put it too
    have hbeyond : args.prevLogIndex + 1 > (rf.stepDown args.term).getLastLogIndex :=
      Nat.lt_succ_of_le hend.1.ge
    have hmerge : (rf.stepDown args.term).mergeEntries (args.prevLogIndex + 1) args.entries =
        { rf.stepDown args.term with logs := rf.logs ++ args.entries }.persist := by
      cases args.entries with
      | nil =>
        rw [List.append_nil]
        rfl
      | cons e es =>
        rw [mergeEntries, if_pos hbeyond]
        rfl
    rw [hmerge]
    exact if_pos hend
  · exact (if_neg hend).trans ((if_pos ⟨h.last, h.first⟩).trans (if_pos h.prev))

section Refused
variable {args : AppendEntriesArgs n C} (hterm : rf.currentTerm ≤ args.term)
include hterm

theorem appendEntries_of_before (hlogs : rf.logs ≠ [])
    (h : args.prevLogIndex < rf.lastIncludedIndex) :
    rf.appendEntries args = (rf.stepDown args.term,
      ⟨rf.currentTerm, false, rf.lastIncludedIndex, rf.getLogTerm rf.lastIncludedIndex⟩) := by
  have hpos := List.length_pos_iff.mpr hlogs
  have hend : ¬(args.prevLogIndex = rf.getLastLogIndex ∧
      args.prevLogTerm = rf.getLogTerm rf.getLastLogIndex) := by
    unfold getLastLogIndex
    omega
  have hin : ¬(args.prevLogIndex ≤ rf.getLastLogIndex ∧
      args.prevLogIndex ≥ rf.getFirstLogIndex) := fun hin => absurd hin.2 (not_le.mpr h)
  simp only [appendEntries, hterm.not_gt, if_false]
  exact (if_neg hend).trans ((if_neg hin).trans (if_pos h))

theorem appendEntries_of_behind (hlogs : rf.logs ≠ []) (h : rf.getLastLogIndex < args.prevLogIndex) :
    rf.appendEntries args = (rf.stepDown args.term,
      ⟨rf.currentTerm, false, rf.getLastLogIndex + 1, rf.getLogTerm rf.getLastLogIndex⟩) := by
  have hpos := List.length_pos_iff.mpr hlogs
  have hend : ¬(args.prevLogIndex = rf.getLastLogIndex ∧
      args.prevLogTerm = rf.getLogTerm rf.getLastLogIndex) := fun hend => absurd hend.1 h.ne'
  have hin : ¬(args.prevLogIndex ≤ rf.getLastLogIndex ∧
      args.prevLogIndex ≥ rf.getFirstLogIndex) := fun hin => absurd hin.1 (not_le.mpr h)
  have hfirst : ¬args.prevLogIndex < rf.getFirstLogIndex := by
    unfold getLastLogIndex at h
    unfold getFirstLogIndex
    omega
  simp only [appendEntries, hterm.not_gt, if_false]
  exact (if_neg hend).trans ((if_neg hin).trans (if_neg hfirst))

theorem appendEntries_of_conflict (hfirst : rf.lastIncludedIndex ≤ args.prevLogIndex)
    (hlast : args.prevLogIndex ≤ rf.getLastLogIndex)
    (h : args.prevLogTerm ≠ rf.getLogTerm args.prevLogIndex) :
    rf.appendEntries args = (rf.stepDown args.term,
      ⟨rf.currentTerm, false,
        (rf.stepDown args.term).conflictIndex (rf.getLogTerm args.prevLogIndex) args.prevLogIndex,
        rf.getLogTerm args.prevLogIndex⟩) := by
  have hend : ¬(args.prevLogIndex = rf.getLastLogIndex ∧
      args.prevLogTerm = rf.getLogTerm rf.getLastLogIndex) := fun hend =>
    h (hend.1 ▸ hend.2)
  simp only [appendEntries, hterm.not_gt, if_false]
  exact (if_neg hend).trans ((if_pos ⟨hlast, hfirst⟩).trans (if_neg h))

theorem appendEntries_of_not_accepts (hlogs : rf.logs ≠ []) (h : ¬rf.Accepts args) : ∃ i t,
    rf.appendEntries args = (rf.stepDown args.term, ⟨rf.currentTerm, false, i, t⟩) := by
  rcases Nat.lt_or_ge args.prevLogIndex rf.lastIncludedIndex with hbefore | hfirst
  · exact ⟨_, _, appendEntries_of_before rf hterm hlogs hbefore⟩
  · rcases Nat.lt_or_ge rf.getLastLogIndex args.prevLogIndex with hbehind | hlast
    · exact ⟨_, _, appendEntries_of_behind rf hterm hlogs hbehind⟩
    · exact ⟨_, _, appendEntries_of_conflict rf hterm hfirst hlast fun hprev => h ⟨hfirst, hlast, hprev⟩⟩

end Refused

theorem conflictIndex_le (conflictLogTerm : ℤ) (k : ℕ) : rf.conflictIndex conflictLogTerm k ≤ k := by
  induction k with
  | zero => rfl
  | succ k ih =>
    unfold conflictIndex
    split_ifs
    · rfl
    · exact ih.trans (Nat.le_succ k)
    · rfl

/-- The conflict search does not go back to the snapshot. -/
theorem lt_conflictIndex (conflictLogTerm : ℤ) {k : ℕ} (h : rf.lastIncludedIndex < k) :
    rf.lastIncludedIndex < rf.conflictIndex conflictLogTerm k := by
  induction k with
  | zero => omega
  | succ k ih =>
    unfold conflictIndex
    split_ifs with hin
    · exact h
    · exact ih hin
    · exact h

theorem appendEntries_cases (hlogs : rf.logs ≠ []) (args : AppendEntriesArgs n C) :
    args.term < rf.currentTerm ∧ rf.appendEntries args = (rf, ⟨rf.currentTerm, false, 0, 0⟩) ∨
    rf.currentTerm ≤ args.term ∧ (∃ i t,
      rf.appendEntries args = (rf.stepDown args.term, ⟨rf.currentTerm, false, i, t⟩)) ∨
    rf.currentTerm ≤ args.term ∧ rf.lastIncludedIndex ≤ args.prevLogIndex ∧
      args.prevLogIndex ≤ rf.getLastLogIndex ∧
      args.prevLogTerm = rf.getLogTerm args.prevLogIndex ∧
      rf.appendEntries args = (rf.accept args, ⟨rf.currentTerm, true, 0, 0⟩) := by
  rcases lt_or_ge args.term rf.currentTerm with hlt | hge
  · exact Or.inl ⟨hlt, by simp [appendEntries, hlt]⟩
  right
  by_cases h : rf.Accepts args
  · exact Or.inr ⟨hge, h.first, h.last, h.prev, appendEntries_of_accepts rf hlogs hge h⟩
  · exact Or.inl ⟨hge, appendEntries_of_not_accepts rf hge hlogs h⟩

theorem installSnapshot_cases (args : InstallSnapshotArgs n C D) :
    args.term < rf.currentTerm ∧ rf.installSnapshot args = (rf, none) ∨
    rf.currentTerm ≤ args.term ∧ args.lastIncludedIndex ≤ rf.commitIndex ∧
      rf.installSnapshot args = (rf.observe args.term, none) ∨
    rf.currentTerm ≤ args.term ∧ rf.commitIndex < args.lastIncludedIndex ∧
      rf.installSnapshot args = (rf.install args,
        some (.snapshot args.data args.lastIncludedTerm args.lastIncludedIndex)) := by
  rcases lt_or_ge args.term rf.currentTerm with hlt | hge
  · exact Or.inl ⟨hlt, by simp [installSnapshot, hlt]⟩
  right
  have hcommit : (rf.observe args.term).commitIndex = rf.commitIndex := by
    rcases rf.observe_eq_or args.term with h | ⟨-, h⟩ <;> rw [h]
    rfl
  rcases le_or_gt args.lastIncludedIndex rf.commitIndex with hle | hgt
  · refine Or.inl ⟨hge, hle, ?_⟩
    rw [← hcommit] at hle
    simp only [installSnapshot, hge.not_gt, if_false]
    exact if_pos hle
  · refine Or.inr ⟨hge, hgt, ?_⟩
    have hnot : ¬args.lastIncludedIndex ≤ (rf.observe args.term).commitIndex := by omega
    have hwindow : (if (rf.observe args.term).matchLog args.lastIncludedIndex args.lastIncludedTerm
          then (rf.observe args.term).logs.drop
            (args.lastIncludedIndex - (rf.observe args.term).lastIncludedIndex)
          else [⟨args.lastIncludedTerm, none⟩]).modify 0 (fun head => { head with command := none })
        = rf.windowBehind args := by
      unfold windowBehind
      rcases rf.observe_eq_or args.term with h | ⟨-, h⟩ <;> rw [h]
      · split_ifs <;> rfl
      · have hm : (rf.stepDown args.term).matchLog = rf.matchLog := rfl
        rw [hm]
        split_ifs <;> rfl
    simp only [installSnapshot, hge.not_gt, if_false]
    refine (if_neg hnot).trans ?_
    unfold install
    rw [← hwindow]
    rfl

theorem snapshot_cases (index : ℕ) (bytes : Option D) :
    index ≤ rf.lastIncludedIndex ∧ rf.snapshot index bytes = rf ∨
    rf.lastIncludedIndex < index ∧ (∃ e, rf.logs[index - rf.lastIncludedIndex]? = some e ∧
      rf.snapshot index bytes = rf.trim index bytes e.term
        (rf.logs.drop (index - rf.lastIncludedIndex + 1))) ∨
    rf.lastIncludedIndex < index ∧ rf.logs.length ≤ index - rf.lastIncludedIndex ∧
      rf.snapshot index bytes = rf.trim index bytes rf.lastIncludedTerm [] := by
  have hmax : ∀ k, (if k < index then index else k) = max k index := by
    intro k
    split_ifs <;> omega
  rcases le_or_gt index rf.lastIncludedIndex with hle | hgt
  · exact Or.inl ⟨hle, by simp [snapshot, hle]⟩
  right
  cases hx : rf.logs[index - rf.lastIncludedIndex]? with
  | none =>
    refine Or.inr ⟨hgt, List.getElem?_eq_none_iff.mp hx, ?_⟩
    simp [snapshot, hgt.not_ge, hx, hmax, trim]
  | some e =>
    obtain ⟨hlt, he⟩ := List.getElem?_eq_some_iff.mp hx
    have hdrop := List.drop_eq_getElem_cons hlt
    rw [he] at hdrop
    refine Or.inl ⟨hgt, e, rfl, ?_⟩
    simp only [snapshot, hgt.not_ge, if_false, hx, hmax, hdrop, List.set_cons_zero, trim]

theorem commit_cases :
    rf.commit = rf ∨ rf.state = .leader ∧ ∃ target,
      ((List.ofFn rf.matchIndex).insertionSort (· ≤ ·))[(n - 1) / 2]? = some target ∧
      rf.commitIndex < target ∧ rf.getLogTerm target = rf.currentTerm ∧
      rf.commit = { rf with commitIndex := target } := by
  by_cases hlead : rf.state = .leader
  · cases hm : ((List.ofFn rf.matchIndex).insertionSort (· ≤ ·))[(n - 1) / 2]? with
    | none => exact Or.inl (by simp [commit, hlead, hm])
    | some target =>
      by_cases hup : target > rf.commitIndex ∧ rf.getLogTerm target = rf.currentTerm
      · exact Or.inr ⟨hlead, target, rfl, hup.1, hup.2, by simp [commit, hlead, hm, hup]⟩
      · exact Or.inl (by simp only [commit, hlead, hm, if_neg hup]; simp)
  · exact Or.inl (by simp [commit, hlead])

section Reply
variable {server : Fin n} {args : AppendEntriesArgs n C} {reply : AppendEntriesReply}
  (hterm : reply.term ≤ rf.currentTerm) (hnext : args.prevLogIndex + 1 = rf.nextIndex server)
include hterm hnext

theorem handleAppendEntriesReply_of_success (hs : reply.success) :
    rf.handleAppendEntriesReply server args reply = (rf.noteMatch server args).commit := by
  unfold handleAppendEntriesReply
  rw [if_neg hterm.not_gt, if_neg (not_not.mpr hnext), if_pos hs]
  rfl

/-- A refusal takes `nextIndex` back to its hint, at least to 1, unless the hint is no step back. -/
theorem handleAppendEntriesReply_of_refusal (hs : reply.success = false) :
    rf.handleAppendEntriesReply server args reply =
      if reply.conflictLogIndex < rf.nextIndex server then
        { rf with nextIndex :=
          Function.update rf.nextIndex server (max 1 reply.conflictLogIndex) }
      else rf := by
  unfold handleAppendEntriesReply
  rw [if_neg hterm.not_gt, if_neg (not_not.mpr hnext), if_neg (by simp [hs])]
  by_cases hpos : reply.conflictLogIndex > 0
  · rw [if_pos hpos, max_eq_right (Nat.one_le_iff_ne_zero.mpr hpos.ne')]
  · have hzero : reply.conflictLogIndex = 0 := Nat.eq_zero_of_not_pos hpos
    rw [if_neg hpos, if_pos (by omega), hzero]
    rfl

end Reply

/-- A refusal that is used takes `nextIndex` back to its hint, at least to 1. -/
theorem handleAppendEntriesReply_outcomes (server : Fin n) (args : AppendEntriesArgs n C)
    (reply : AppendEntriesReply) :
    rf.currentTerm < reply.term ∧
      rf.handleAppendEntriesReply server args reply = rf.stepDown reply.term ∨
    rf.handleAppendEntriesReply server args reply = rf ∨
    reply.term ≤ rf.currentTerm ∧ args.prevLogIndex + 1 = rf.nextIndex server ∧
      reply.success = false ∧ reply.conflictLogIndex < rf.nextIndex server ∧
      rf.handleAppendEntriesReply server args reply =
        { rf with nextIndex :=
          Function.update rf.nextIndex server (max 1 reply.conflictLogIndex) } ∨
    reply.term ≤ rf.currentTerm ∧ args.prevLogIndex + 1 = rf.nextIndex server ∧ reply.success ∧
      rf.handleAppendEntriesReply server args reply = (rf.noteMatch server args).commit := by
  rcases Nat.lt_or_ge rf.currentTerm reply.term with hlater | hterm
  · exact Or.inl ⟨hlater, by simp [handleAppendEntriesReply, hlater]⟩
  right
  by_cases hnext : args.prevLogIndex + 1 = rf.nextIndex server
  · cases hs : reply.success with
    | true =>
      exact Or.inr (Or.inr ⟨hterm, hnext, rfl, rf.handleAppendEntriesReply_of_success hterm hnext hs⟩)
    | false =>
      rw [rf.handleAppendEntriesReply_of_refusal hterm hnext hs]
      split_ifs with hback
      · exact Or.inr (Or.inl ⟨hterm, hnext, rfl, hback, rfl⟩)
      · exact Or.inl rfl
  · exact Or.inl (by simp [handleAppendEntriesReply, hterm.not_gt, hnext])

theorem handleAppendEntriesReply_cases (server : Fin n) (args : AppendEntriesArgs n C)
    (reply : AppendEntriesReply) :
    rf.currentTerm < reply.term ∧
      rf.handleAppendEntriesReply server args reply = rf.stepDown reply.term ∨
    (∃ next, rf.handleAppendEntriesReply server args reply = { rf with nextIndex := next }) ∨
    reply.term ≤ rf.currentTerm ∧ args.prevLogIndex + 1 = rf.nextIndex server ∧ reply.success ∧
      rf.handleAppendEntriesReply server args reply = (rf.noteMatch server args).commit := by
  rcases rf.handleAppendEntriesReply_outcomes server args reply with
    h | h | ⟨-, -, -, -, h⟩ | h
  · exact Or.inl h
  · exact Or.inr (Or.inl ⟨_, h⟩)
  · exact Or.inr (Or.inl ⟨_, h⟩)
  · exact Or.inr (Or.inr h)

theorem handleInstallSnapshotReply_cases (server : Fin n) (args : InstallSnapshotArgs n C D)
    (reply : InstallSnapshotReply) :
    rf.currentTerm < reply.term ∧
      rf.handleInstallSnapshotReply server args reply = rf.stepDown reply.term ∨
    rf.handleInstallSnapshotReply server args reply = rf ∨
    reply.term ≤ rf.currentTerm ∧ rf.matchIndex server < args.lastIncludedIndex ∧
      rf.handleInstallSnapshotReply server args reply =
        { rf with
          matchIndex := Function.update rf.matchIndex server args.lastIncludedIndex
          nextIndex := Function.update rf.nextIndex server (args.lastIncludedIndex + 1) } := by
  unfold handleInstallSnapshotReply
  split_ifs with hterm hup
  · exact Or.inl ⟨hterm, rfl⟩
  · exact Or.inr (Or.inr ⟨not_lt.mp hterm, hup, rfl⟩)
  · exact Or.inr (Or.inl rfl)

theorem broadcastTo_cases {server : Fin n} {r : Raft n C D × Request n C D}
    (h : rf.broadcastTo server = some r) : ∃ next,
    r.1 = { rf with nextIndex := next } ∧
    (rf.lastIncludedIndex < next server ∧ next server ≤ rf.getLastLogIndex + 1 ∧
      r.2 = .appendEntries
        { term := rf.currentTerm
          leaderId := rf.me
          prevLogIndex := next server - 1
          prevLogTerm := rf.getLogTerm (next server - 1)
          leaderCommit := rf.commitIndex
          entries := (rf.logs.drop (next server - rf.lastIncludedIndex)).take
            (min (next server + batchSize) (rf.getLastLogIndex + 1) - next server) } ∨
    r.2 = .installSnapshot
      { term := rf.currentTerm
        leaderId := rf.me
        lastIncludedIndex := rf.lastIncludedIndex
        lastIncludedTerm := rf.lastIncludedTerm
        data := rf.persister.snapshot }) := by
  obtain ⟨next, hnext⟩ : ∃ next, (if rf.nextIndex server = 0
      then { rf with nextIndex := Function.update rf.nextIndex server 1 }
      else rf : Raft n C D) = { rf with nextIndex := next } := by
    split_ifs <;> exact ⟨_, rfl⟩
  refine ⟨next, ?_⟩
  simp only [broadcastTo, hnext] at h
  split_ifs at h with hfirst hend
  · cases h
    have hlast : next server ≤ rf.getLastLogIndex + 1 :=
      (not_lt.mp hend).trans (Nat.min_le_right _ _)
    exact ⟨rfl, Or.inl ⟨hfirst, hlast, rfl⟩⟩
  · cases h
    exact ⟨rfl, Or.inr rfl⟩

theorem broadcastTo_of_window {server : Fin n} (hfirst : rf.lastIncludedIndex < rf.nextIndex server)
    (hlast : rf.nextIndex server ≤ rf.getLastLogIndex + 1) :
    rf.broadcastTo server = some (rf, .appendEntries (rf.appendRequest (rf.nextIndex server))) := by
  have hzero : rf.nextIndex server ≠ 0 := Nat.ne_zero_of_lt hfirst
  have hend : ¬min (rf.nextIndex server + batchSize) (rf.getLastLogIndex + 1) <
      rf.nextIndex server := by omega
  simp only [broadcastTo, hzero, if_false, getFirstLogIndex, gt_iff_lt, hfirst, if_true, hend]
  rfl

theorem broadcastTo_of_snapshot {server : Fin n} (hpos : 0 < rf.nextIndex server)
    (hfirst : rf.nextIndex server ≤ rf.lastIncludedIndex) :
    rf.broadcastTo server = some (rf, .installSnapshot rf.snapshotRequest) := by
  simp only [broadcastTo, hpos.ne', if_false, getFirstLogIndex, gt_iff_lt, hfirst.not_gt]
  rfl

/-- Only a `nextIndex` of zero is replaced. -/
theorem broadcastTo_nextIndex {server : Fin n} {r : Raft n C D × Request n C D}
    (h : rf.broadcastTo server = some r) :
    r.1 = rf ∨ rf.nextIndex server = 0 ∧
      r.1 = { rf with nextIndex := Function.update rf.nextIndex server 1 } := by
  have hfst : r.1 = if rf.nextIndex server = 0
      then { rf with nextIndex := Function.update rf.nextIndex server 1 } else rf := by
    unfold broadcastTo at h
    generalize (if rf.nextIndex server = 0
      then { rf with nextIndex := Function.update rf.nextIndex server 1 } else rf : Raft n C D) = now
      at h ⊢
    dsimp only at h
    split_ifs at h
    · cases h
      rfl
    · cases h
      rfl
  rw [hfst]
  split_ifs with hzero
  · exact Or.inr ⟨hzero, rfl⟩
  · exact Or.inl rfl

theorem applier_cases {r : Raft n C D × ApplyMsg C D} (h : rf.applier = some r) :
    rf.lastApplied < rf.commitIndex ∧ rf.lastIncludedIndex ≤ rf.lastApplied + 1 ∧
    ∃ entry, rf.logs[rf.lastApplied + 1 - rf.lastIncludedIndex]? = some entry ∧
      r = ({ rf with lastApplied := rf.lastApplied + 1 },
        .command entry.command (rf.lastApplied + 1) (rf.getLogTerm (rf.lastApplied + 1))) := by
  simp only [applier] at h
  split_ifs at h with hgo hlow
  obtain ⟨entry, hget, rfl⟩ := Option.map_eq_some_iff.mp h
  exact ⟨hgo, not_lt.mp hlow, entry, hget, rfl⟩

theorem start_of_leader (h : rf.state = .leader) (command : Option C) :
    (rf.start command).1 = rf.appendOwn command := by simp [start, h, appendOwn]

theorem start_of_not_leader (h : rf.state ≠ .leader) (command : Option C) :
    (rf.start command).1 = rf := by simp [start, h]

/-- The persister holds what the server needs to come back. -/
structure Durable : Prop where
  logs_ne : rf.logs ≠ []
  saved : rf.persister.raftstate = rf.encodeState ∨
    rf.persister.raftstate = [] ∧ rf.currentTerm = 0 ∧ rf.votedFor = none ∧
      rf.logs = [⟨0, none⟩] ∧ rf.lastIncludedIndex = 0 ∧ rf.lastIncludedTerm = 0

variable {rf}

theorem voteOfCode_voteCode (v : Option (Fin n)) : voteOfCode (voteCode v) = v := by
  cases v with
  | none => simp [voteOfCode, voteCode]
  | some c => simp [voteOfCode, voteCode, (Int.natCast_nonneg c.val).not_gt]

/-- Only what is not saved may differ. -/
structure SameStable (rf rf' : Raft n C D) : Prop where
  me : rf'.me = rf.me
  persister : rf'.persister = rf.persister
  currentTerm : rf'.currentTerm = rf.currentTerm
  votedFor : rf'.votedFor = rf.votedFor
  logs : rf'.logs = rf.logs
  lastIncludedIndex : rf'.lastIncludedIndex = rf.lastIncludedIndex
  lastIncludedTerm : rf'.lastIncludedTerm = rf.lastIncludedTerm

theorem Durable.of_sameStable {rf' : Raft n C D} (h : Durable rf) (hs : SameStable rf rf') :
    Durable rf' where
  logs_ne := hs.logs ▸ h.logs_ne
  saved := by
    have henc : rf'.encodeState = rf.encodeState := by
      simp [encodeState, hs.currentTerm, hs.votedFor, hs.logs, hs.lastIncludedIndex,
        hs.lastIncludedTerm]
    rw [henc, hs.persister, hs.currentTerm, hs.votedFor, hs.logs, hs.lastIncludedIndex,
      hs.lastIncludedTerm]
    exact h.saved

theorem durable_persist (h : rf.logs ≠ []) : Durable rf.persist := ⟨h, Or.inl rfl⟩

/-- A restart brings back everything but the volatile state. -/
theorem make_of_durable (h : Durable rf) :
    make rf.me rf.persister =
      { rf with
        state := .follower
        commitIndex := rf.lastIncludedIndex
        lastApplied := rf.lastIncludedIndex
        nextIndex := fun _ => 1
        matchIndex := fun _ => 0 } := by
  rcases h.saved with hs | ⟨hs, hterm, hvote, hlogs, hidx, hidxTerm⟩
  · simp [make, hs, encodeState, readPersist, voteOfCode_voteCode]
  · simp [make, hs, readPersist, hterm, hvote, hlogs, hidx, hidxTerm]

theorem durable_make (me : Fin n) : Durable (make me (makePersister C D)) :=
  ⟨by simp [make, makePersister, readPersist],
    Or.inr (by simp [make, makePersister, readPersist])⟩

theorem mergeAt_ne_nil {l es : List (Entry C)} (h : l ≠ []) (k : ℕ) :
    mergeAt Entry.term l (k + 1) es ≠ [] := by
  induction es generalizing k with
  | nil => exact h
  | cons e es ih =>
    simp only [mergeAt]
    split
    · simp
    · split_ifs
      · exact ih (k + 1)
      · simp

theorem Durable.accept (h : Durable rf) {args : AppendEntriesArgs n C}
    (hprev : rf.lastIncludedIndex ≤ args.prevLogIndex) : Durable (rf.accept args) := by
  obtain ⟨k, hk⟩ := Nat.exists_eq_add_of_le hprev
  have hslot : args.prevLogIndex + 1 - rf.lastIncludedIndex = k + 1 := by omega
  refine ⟨?_, Or.inl rfl⟩
  change mergeAt Entry.term rf.logs (args.prevLogIndex + 1 - rf.lastIncludedIndex)
    args.entries ≠ []
  rw [hslot]
  exact mergeAt_ne_nil h.logs_ne k

theorem Durable.install (h : Durable rf) (args : InstallSnapshotArgs n C D) :
    Durable (rf.install args) := by
  refine ⟨?_, Or.inl rfl⟩
  have hpos := List.length_pos_iff.mpr h.logs_ne
  change rf.windowBehind args ≠ []
  unfold windowBehind
  split_ifs with hm
  · have hin : args.lastIncludedIndex ≤ rf.getLastLogIndex := by
      by_contra hout
      simp [matchLog, not_le.mp hout] at hm
    unfold getLastLogIndex at hin
    rw [← List.length_pos_iff, List.length_modify, List.length_drop]
    omega
  · simp

theorem Durable.snapshot (h : Durable rf) (index : ℕ) (bytes : Option D) :
    Durable (rf.snapshot index bytes) := by
  rcases rf.snapshot_cases index bytes with ⟨-, he⟩ | ⟨-, e, -, he⟩ | ⟨-, -, he⟩ <;> rw [he]
  · exact h
  all_goals exact ⟨by simp [trim, save], Or.inl rfl⟩

end DistributedLabs.Raft1.Raft
