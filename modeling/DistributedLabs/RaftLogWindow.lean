import DistributedLabs.RaftSections

/-!
# The whole log behind the log window

A server keeps a window of its log: a dummy head at `lastIncludedIndex` and the
entries behind it. What the head replaced is in the snapshot. The whole log is
what the snapshot stands for followed by the window, and every critical section
is described here by what it does to the whole log.
-/

namespace DistributedLabs.Raft1.Raft
open TermLogs

variable {n : ℕ} {C D : Type} {rf : Raft n C D}

/-- The log as if nothing had been compacted. -/
def fullLog (rf : Raft n C D) : List (Entry C) := rf.persister.snapshot.entries ++ rf.logs.tail

/-- The entry at an index, in the window or behind the snapshot. -/
def entryAt (rf : Raft n C D) (index : ℕ) : Option (Entry C) :=
  if index = 0 then none
  else if index ≤ rf.lastIncludedIndex then rf.persister.snapshot.entries[index - 1]?
  else rf.logs[index - rf.lastIncludedIndex]?

theorem entryAt_window {rf : Raft n C D} {index k : ℕ} (h : index = rf.lastIncludedIndex + (k + 1)) :
    rf.entryAt index = rf.logs[k + 1]? := by
  rw [entryAt, if_neg (by omega), if_neg (by omega), h, Nat.add_sub_cancel_left]

/-- The window starts right behind the snapshot. -/
structure Windowed (rf : Raft n C D) : Prop where
  covered : rf.persister.snapshot.entries.length = rf.lastIncludedIndex
  head : rf.logs = ⟨rf.lastIncludedTerm, none⟩ :: rf.logs.tail
  headTerm : termAt Entry.term rf.persister.snapshot.entries rf.lastIncludedIndex =
    rf.lastIncludedTerm
  reached : rf.lastIncludedIndex ≤ rf.lastApplied

namespace Windowed
variable (h : rf.Windowed)
include h

theorem length_fullLog : rf.fullLog.length = rf.lastIncludedIndex + rf.logs.tail.length := by
  rw [fullLog, List.length_append, h.covered]

theorem getLastLogIndex_eq : rf.getLastLogIndex = rf.fullLog.length := by
  have hlen := congrArg List.length h.head
  rw [List.length_cons] at hlen
  rw [h.length_fullLog, getLastLogIndex]
  omega

/-- A slot behind the head holds the entry of its index. -/
theorem getElem?_slot (k : ℕ) : rf.logs[k + 1]? = rf.fullLog[rf.lastIncludedIndex + k]? := by
  rw [h.head, List.getElem?_cons_succ, fullLog, ← h.covered,
    List.getElem?_append_right (Nat.le_add_right _ _), Nat.add_sub_cancel_left]

theorem entryAt_succ (i : ℕ) : rf.entryAt (i + 1) = rf.fullLog[i]? := by
  unfold entryAt
  rw [if_neg (Nat.succ_ne_zero i), Nat.add_sub_cancel]
  split_ifs with hle
  · rw [fullLog, List.getElem?_append_left (by rw [h.covered]; omega)]
  · obtain ⟨k, rfl⟩ := Nat.exists_eq_add_of_le (show rf.lastIncludedIndex ≤ i by omega)
    rw [← h.getElem?_slot k, Nat.add_assoc, Nat.add_sub_cancel_left]

theorem take_lastIncludedIndex :
    rf.fullLog.take rf.lastIncludedIndex = rf.persister.snapshot.entries := by
  rw [fullLog, ← h.covered, List.take_left]

theorem drop_fullLog (k : ℕ) : rf.fullLog.drop (rf.lastIncludedIndex + k) = rf.logs.drop (k + 1) := by
  rw [h.head, List.drop_succ_cons, fullLog, ← h.covered, ← List.drop_drop, List.drop_left]

theorem termAt_lastIncludedIndex :
    termAt Entry.term rf.fullLog rf.lastIncludedIndex = rf.lastIncludedTerm := by
  rw [fullLog, termAt_append_left _ h.covered.ge, h.headTerm]

/-- In the window, `getLogTerm` reads the whole log. -/
theorem getLogTerm_eq {i : ℕ} (hlo : rf.lastIncludedIndex ≤ i) (hhi : i ≤ rf.fullLog.length) :
    rf.getLogTerm i = termAt Entry.term rf.fullLog i := by
  obtain ⟨k, rfl⟩ := Nat.exists_eq_add_of_le hlo
  rw [getLogTerm_add]
  cases k with
  | zero =>
    rw [Nat.add_zero, h.termAt_lastIncludedIndex, h.head]
    rfl
  | succ k =>
    have hget := List.getElem?_eq_getElem (show rf.lastIncludedIndex + k < rf.fullLog.length by omega)
    have hterm := termAt_of_getElem? Entry.term hget
    rw [← h.getElem?_slot k] at hget
    rw [← Nat.add_assoc, hterm, slotTerm, hget]

theorem lastLogTerm_eq : rf.getLogTerm rf.getLastLogIndex = lastTerm Entry.term rf.fullLog := by
  have hlen := h.length_fullLog
  rw [h.getLastLogIndex_eq, h.getLogTerm_eq (by omega) le_rfl, lastTerm]

/-- Outside the window `getLogTerm` answers `-1`. -/
theorem le_of_getLogTerm_nonneg {i : ℕ} (hi : 0 ≤ rf.getLogTerm i) :
    rf.lastIncludedIndex ≤ i ∧ i ≤ rf.fullLog.length := by
  have hlo : rf.lastIncludedIndex ≤ i := by
    by_contra hlt
    simp [getLogTerm, getFirstLogIndex, not_le.mp hlt, (not_le.mp hlt).ne] at hi
  refine ⟨hlo, ?_⟩
  obtain ⟨k, rfl⟩ := Nat.exists_eq_add_of_le hlo
  by_contra hlt
  cases k with
  | zero =>
    have := h.length_fullLog
    omega
  | succ k =>
    have hnone : rf.logs[k + 1]? = none := by
      rw [h.getElem?_slot k]
      exact List.getElem?_eq_none_iff.mpr (by omega)
    simp [getLogTerm_add, slotTerm, hnone] at hi

/-- What does not touch the log leaves the window alone. -/
theorem of_sameLog {rf' : Raft n C D} (hlogs : rf'.logs = rf.logs)
    (hidx : rf'.lastIncludedIndex = rf.lastIncludedIndex)
    (hterm : rf'.lastIncludedTerm = rf.lastIncludedTerm)
    (hsnap : rf'.persister.snapshot = rf.persister.snapshot)
    (hreached : rf.lastIncludedIndex ≤ rf'.lastApplied) :
    rf'.Windowed ∧ rf'.fullLog = rf.fullLog := by
  refine ⟨⟨?_, ?_, ?_, ?_⟩, ?_⟩
  · rw [hsnap, hidx, h.covered]
  · rw [hlogs, hterm]
    exact h.head
  · rw [hsnap, hidx, hterm, h.headTerm]
  · rw [hidx]
    exact hreached
  · rw [fullLog, hsnap, hlogs, fullLog]

theorem accept {args : AppendEntriesArgs n C} (hprev : rf.lastIncludedIndex ≤ args.prevLogIndex) :
    (rf.accept args).Windowed ∧ (rf.accept args).fullLog =
      mergeAt Entry.term rf.fullLog args.prevLogIndex args.entries := by
  obtain ⟨k, hk⟩ := Nat.exists_eq_add_of_le hprev
  have hslot : args.prevLogIndex + 1 - rf.lastIncludedIndex = 1 + k := by omega
  have hlogs : (rf.accept args).logs =
      ⟨rf.lastIncludedTerm, none⟩ :: mergeAt Entry.term rf.logs.tail k args.entries := by
    have hmerge : mergeAt Entry.term ([⟨rf.lastIncludedTerm, none⟩] ++ rf.logs.tail) (1 + k)
        args.entries = _ := mergeAt_append _ _ _ _
    change mergeAt Entry.term rf.logs _ args.entries = _
    rw [hslot, h.head]
    exact hmerge
  refine ⟨⟨h.covered, ?_, h.headTerm, h.reached⟩, ?_⟩
  · rw [hlogs]
    rfl
  · rw [fullLog, hlogs, hk, ← h.covered, fullLog, mergeAt_append]
    rfl

theorem matchLog_iff {index term : ℕ} : rf.matchLog index term ↔
    rf.lastIncludedIndex < index ∧ index ≤ rf.fullLog.length ∧
      termAt Entry.term rf.fullLog index = term := by
  simp only [matchLog, getFirstLogIndex, h.getLastLogIndex_eq]
  split_ifs with hout
  · simp only [false_iff]
    omega
  · rw [h.getLogTerm_eq (by omega) (by omega), decide_eq_true_eq]
    omega

section Install
variable {args : InstallSnapshotArgs n C D}
  (hlen : args.data.entries.length = args.lastIncludedIndex)
  (hterm : termAt Entry.term args.data.entries args.lastIncludedIndex = args.lastIncludedTerm)
include hlen hterm

theorem install_matched (hm : rf.matchLog args.lastIncludedIndex args.lastIncludedTerm) :
    (rf.install args).Windowed ∧ (rf.install args).fullLog =
      args.data.entries ++ rf.fullLog.drop args.lastIncludedIndex := by
  obtain ⟨hlo, hhi, hat⟩ := h.matchLog_iff.mp hm
  obtain ⟨k, hk⟩ : ∃ k, args.lastIncludedIndex = rf.lastIncludedIndex + (k + 1) :=
    ⟨args.lastIncludedIndex - rf.lastIncludedIndex - 1, by omega⟩
  have hlt : rf.lastIncludedIndex + k < rf.fullLog.length := by omega
  have hget : rf.logs[k + 1]? = some rf.fullLog[rf.lastIncludedIndex + k] := by
    rw [h.getElem?_slot k, List.getElem?_eq_getElem hlt]
  have hentry : (rf.fullLog[rf.lastIncludedIndex + k]).term = args.lastIncludedTerm := by
    rw [← hat, hk, ← Nat.add_assoc]
    exact (termAt_of_getElem? Entry.term (List.getElem?_eq_getElem hlt)).symm
  have hlogs : (rf.install args).logs =
      ⟨args.lastIncludedTerm, none⟩ :: rf.fullLog.drop args.lastIncludedIndex := by
    obtain ⟨hslot, he⟩ := List.getElem?_eq_some_iff.mp hget
    change rf.windowBehind args = _
    rw [windowBehind, if_pos hm, hk, Nat.add_sub_cancel_left, List.drop_eq_getElem_cons hslot, he,
      h.drop_fullLog, List.modify_zero_cons, hentry]
  refine ⟨⟨hlen, ?_, hterm, le_rfl⟩, ?_⟩
  · rw [hlogs]
    rfl
  · rw [fullLog, hlogs]
    rfl

omit h in
/-- Any other snapshot replaces the log. -/
theorem install_unmatched (hm : ¬rf.matchLog args.lastIncludedIndex args.lastIncludedTerm) :
    (rf.install args).Windowed ∧ (rf.install args).fullLog = args.data.entries := by
  have hlogs : (rf.install args).logs = [⟨args.lastIncludedTerm, none⟩] := by
    change rf.windowBehind args = _
    rw [windowBehind, if_neg hm]
  refine ⟨⟨hlen, ?_, hterm, le_rfl⟩, ?_⟩
  · rw [hlogs]
    rfl
  · rw [fullLog, hlogs]
    exact List.append_nil _

end Install

theorem appendOwn (command : Option C) :
    (rf.appendOwn command).Windowed ∧
      (rf.appendOwn command).fullLog = rf.fullLog ++ [⟨rf.currentTerm, command⟩] := by
  have hlogs : (rf.appendOwn command).logs =
      ⟨rf.lastIncludedTerm, none⟩ :: (rf.logs.tail ++ [⟨rf.currentTerm, command⟩]) := by
    change rf.logs ++ _ = _
    rw [← List.cons_append, ← h.head]
  refine ⟨⟨h.covered, ?_, h.headTerm, h.reached⟩, ?_⟩
  · rw [hlogs]
    rfl
  · rw [fullLog, hlogs, fullLog, List.append_assoc]
    rfl

theorem snapshot {index : ℕ} (hidx : index ≤ rf.fullLog.length) (bytes : Option D) :
    (rf.snapshot index bytes).Windowed ∧ (rf.snapshot index bytes).fullLog = rf.fullLog ∧
      (rf.snapshot index bytes).lastIncludedIndex = max rf.lastIncludedIndex index := by
  have hlen := h.length_fullLog
  have hwindow := congrArg List.length h.head
  rw [List.length_cons] at hwindow
  rcases rf.snapshot_cases index bytes with ⟨hle, he⟩ | ⟨hlt, e, hget, he⟩ | ⟨hlt, hshort, -⟩
  · rw [he, max_eq_left hle]
    exact ⟨h, rfl, rfl⟩
  · obtain ⟨k, rfl⟩ : ∃ k, index = rf.lastIncludedIndex + (k + 1) :=
      ⟨index - rf.lastIncludedIndex - 1, by omega⟩
    rw [Nat.add_sub_cancel_left] at hget he
    have hentries : (rf.snapshot (rf.lastIncludedIndex + (k + 1)) bytes).persister.snapshot.entries
        = rf.fullLog.take (rf.lastIncludedIndex + (k + 1)) := by
      rw [he]
      change _ ++ rf.logs.tail.take _ = _
      rw [fullLog, ← h.covered, Nat.add_sub_cancel_left, List.take_length_add_append]
    have hlogs : (rf.snapshot (rf.lastIncludedIndex + (k + 1)) bytes).logs =
        ⟨e.term, none⟩ :: rf.fullLog.drop (rf.lastIncludedIndex + (k + 1)) := by
      rw [he, h.drop_fullLog]
      rfl
    have hat : termAt Entry.term rf.fullLog (rf.lastIncludedIndex + (k + 1)) = e.term := by
      rw [h.getElem?_slot k] at hget
      exact termAt_of_getElem? Entry.term hget
    refine ⟨⟨?_, ?_, ?_, ?_⟩, ?_, ?_⟩
    · rw [hentries, he, List.length_take, min_eq_left hidx]
      rfl
    · rw [hlogs, he]
      rfl
    · have hidx' : (rf.snapshot (rf.lastIncludedIndex + (k + 1)) bytes).lastIncludedIndex =
          rf.lastIncludedIndex + (k + 1) := by
        rw [he]
        rfl
      rw [hidx', hentries, termAt_take, hat, he]
      rfl
    · rw [he]
      exact le_max_right _ _
    · rw [fullLog, hentries, hlogs]
      exact List.take_append_drop _ _
    · rw [he, max_eq_right hlt.le]
      rfl
  · omega

/-- A restart keeps the log. -/
theorem make (hd : rf.Durable) : (make rf.me rf.persister).Windowed ∧
    (Raft.make rf.me rf.persister).fullLog = rf.fullLog := by
  rw [make_of_durable hd]
  exact h.of_sameLog rfl rfl rfl rfl le_rfl

end Windowed

theorem windowed_init (me : Fin n) :
    (make me (makePersister C D)).Windowed ∧ (make me (makePersister C D)).fullLog = [] :=
  ⟨⟨rfl, rfl, rfl, le_rfl⟩, rfl⟩

end DistributedLabs.Raft1.Raft
