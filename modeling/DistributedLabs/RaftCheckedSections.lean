import DistributedLabs.RaftCommitPositions
import DistributedLabs.CheckedSlices

/-!
# Index expressions of `raft1`

The sections of `raft.go` that index or cut the log, written with the source's own
expressions: positions are integers, loops have their counters, and an expression
that is out of range gives `none`, where the server panics. In every state of every
run they give what the sections of the model give, so none of their expressions is
out of range.
-/

namespace DistributedLabs.Raft1
open TransitionRuns CheckedSlices

variable {n : ℕ} {C D : Type}

namespace Checked

def getFirstLogIndex (rf : Raft n C D) : ℤ := rf.lastIncludedIndex

def getLastLogIndex (rf : Raft n C D) : ℤ := (rf.lastIncludedIndex : ℤ) + rf.logs.length - 1

def getLogTerm (rf : Raft n C D) (raftIndex : ℤ) : Option ℤ :=
  let firstIndex := getFirstLogIndex rf
  if raftIndex = firstIndex then (index rf.logs 0).map fun e => (e.term : ℤ)
  else
    let sliceIndex := raftIndex - firstIndex
    if sliceIndex < 0 ∨ sliceIndex ≥ rf.logs.length then some (-1)
    else (index rf.logs sliceIndex).map fun e => (e.term : ℤ)

/-- The loop over the overlap, for at most `fuel` rounds. -/
def mergeLoop (args : AppendEntriesArgs n C) :
    (fuel : ℕ) → (rf : Raft n C D) → (insertIndex entriesIndex : ℤ) → Option (Raft n C D)
  | 0, _, _, _ => none
  | fuel + 1, rf, insertIndex, entriesIndex =>
    if entriesIndex ≥ args.entries.length then some rf
    else if insertIndex > getLastLogIndex rf then do
      let rest ← sliceFrom args.entries entriesIndex
      some { rf with logs := rf.logs ++ rest }.persist
    else do
      let term ← getLogTerm rf insertIndex
      let entry ← index args.entries entriesIndex
      if term ≠ entry.term then
        let kept ← sliceTo rf.logs (insertIndex - getFirstLogIndex rf)
        let rest ← sliceFrom args.entries entriesIndex
        some { rf with logs := kept ++ rest }.persist
      else mergeLoop args fuel rf (insertIndex + 1) (entriesIndex + 1)

/-- The conflict search, for at most `fuel` rounds; the result is `tempIndex` at its end. -/
def conflictLoop (rf : Raft n C D) (conflictLogTerm : ℤ) : (fuel : ℕ) → (tempIndex : ℤ) → Option ℤ
  | 0, _ => none
  | fuel + 1, tempIndex =>
    if tempIndex > rf.lastIncludedIndex then do
      let term ← getLogTerm rf tempIndex
      if term < conflictLogTerm then some tempIndex
      else conflictLoop rf conflictLogTerm fuel (tempIndex - 1)
    else some tempIndex

/-- Whether the request starts behind the last entry; the second operand of the source's `&&` is
evaluated only if the first holds. -/
def atEnd (rf : Raft n C D) (args : AppendEntriesArgs n C) : Option Bool :=
  if (args.prevLogIndex : ℤ) = getLastLogIndex rf then
    (getLogTerm rf (getLastLogIndex rf)).map fun term => decide (args.prevLogTerm = term)
  else some false

def appendEntries (rf : Raft n C D) (args : AppendEntriesArgs n C) :
    Option (Raft n C D × AppendEntriesReply) :=
  let reply : AppendEntriesReply := ⟨rf.currentTerm, false, 0, 0⟩
  if args.term < rf.currentTerm then some (rf, reply)
  else do
    let rf : Raft n C D :=
      { rf with currentTerm := args.term, state := .follower, votedFor := none }.persist
    if ← atEnd rf args then
      let rf : Raft n C D := { rf with logs := rf.logs ++ args.entries }.persist
      some (rf.followCommit args, { reply with success := true })
    else if (args.prevLogIndex : ℤ) ≤ getLastLogIndex rf ∧
        (args.prevLogIndex : ℤ) ≥ getFirstLogIndex rf then
      let term ← getLogTerm rf args.prevLogIndex
      if args.prevLogTerm = term then
        let rf ← mergeLoop args (args.entries.length + 1) rf (args.prevLogIndex + 1) 0
        some (rf.followCommit args, { reply with success := true })
      else
        let conflictLogTerm ← getLogTerm rf args.prevLogIndex
        let tempIndex ← conflictLoop rf conflictLogTerm (args.prevLogIndex + 1) (args.prevLogIndex - 1)
        some (rf, { reply with
          conflictLogTerm := conflictLogTerm
          conflictLogIndex := (tempIndex + 1).toNat })
    else if (args.prevLogIndex : ℤ) < getFirstLogIndex rf then
      let conflictLogTerm ← getLogTerm rf (getFirstLogIndex rf)
      some (rf, { reply with
        conflictLogIndex := (getFirstLogIndex rf).toNat
        conflictLogTerm := conflictLogTerm })
    else
      let conflictLogTerm ← getLogTerm rf (getLastLogIndex rf)
      some (rf, { reply with
        conflictLogIndex := (getLastLogIndex rf + 1).toNat
        conflictLogTerm := conflictLogTerm })

def snapshot (rf : Raft n C D) (idx : ℕ) (bytes : Option D) : Option (Raft n C D) :=
  if idx ≤ rf.lastIncludedIndex then some rf
  else do
    let relativeIndex : ℤ := (idx : ℤ) - rf.lastIncludedIndex
    let entries := rf.persister.snapshot.entries ++ rf.logs.tail.take relativeIndex.toNat
    let trimmed : Raft n C D ←
      if relativeIndex < rf.logs.length then do
        let e ← index rf.logs relativeIndex
        let newLogs ← sliceFrom rf.logs relativeIndex
        some { rf with lastIncludedTerm := e.term, logs := newLogs }
      else some { rf with lastIncludedIndex := 0, logs := [⟨rf.lastIncludedTerm, none⟩] }
    let logs ← assign trimmed.logs 0 fun head => { head with term := trimmed.lastIncludedTerm }
    let logs ← assign logs 0 fun head => { head with command := none }
    let headed : Raft n C D :=
      { trimmed with
        lastIncludedIndex := idx
        logs := logs
        commitIndex := if trimmed.commitIndex < idx then idx else trimmed.commitIndex
        lastApplied := if trimmed.lastApplied < idx then idx else trimmed.lastApplied }
    some (headed.save headed.encodeState ⟨bytes, entries⟩)

def matchLog (rf : Raft n C D) (idx term : ℕ) : Option Bool :=
  if (idx : ℤ) ≤ getFirstLogIndex rf ∨ (idx : ℤ) > getLastLogIndex rf then some false
  else (getLogTerm rf idx).map fun found : ℤ => decide (found = term)

def installSnapshot (rf : Raft n C D) (args : InstallSnapshotArgs n C D) :
    Option (Raft n C D × Option (ApplyMsg C D)) :=
  if args.term < rf.currentTerm then some (rf, none)
  else
    let rf : Raft n C D :=
      if args.term > rf.currentTerm then
        { rf with currentTerm := args.term, state := .follower, votedFor := none }.persist
      else rf
    if args.lastIncludedIndex ≤ rf.commitIndex then some (rf, none)
    else do
      let hasEntry ← matchLog rf args.lastIncludedIndex args.lastIncludedTerm
      let logs ←
        if hasEntry then do
          let relativeIndex : ℤ := (args.lastIncludedIndex : ℤ) - rf.lastIncludedIndex
          let _ ← index rf.logs relativeIndex
          sliceFrom rf.logs relativeIndex
        else assign [⟨0, none⟩] 0 fun head => { head with term := args.lastIncludedTerm }
      let logs ← assign logs 0 fun head => { head with command := none }
      let rf : Raft n C D :=
        { rf with
          logs := logs
          commitIndex := args.lastIncludedIndex
          lastApplied := args.lastIncludedIndex
          lastIncludedIndex := args.lastIncludedIndex
          lastIncludedTerm := args.lastIncludedTerm }
      some (rf.save rf.encodeState args.data,
        some (.snapshot args.data args.lastIncludedTerm args.lastIncludedIndex))

/-- One round of `applier`; the result is `some none` where there is nothing to apply. -/
def applier (rf : Raft n C D) : Option (Option (Raft n C D × ApplyMsg C D)) :=
  if rf.commitIndex > rf.lastApplied then do
    let applied := rf.lastApplied + 1
    let entry ← index rf.logs ((applied : ℤ) - rf.lastIncludedIndex)
    let term ← getLogTerm rf applied
    some (some ({ rf with lastApplied := applied }, .command entry.command applied term))
  else some none

/-- The loop that collects the entries of a request, for `rounds` rounds from `j`. -/
def collectEntries (rf : Raft n C D) : (rounds : ℕ) → (j : ℤ) → Option (List (Entry C))
  | 0, _ => some []
  | rounds + 1, j => do
    let entry ← index rf.logs (j - rf.lastIncludedIndex)
    let rest ← collectEntries rf rounds (j + 1)
    some (entry :: rest)

def broadcastTo (rf : Raft n C D) (server : Fin n) : Option (Raft n C D × Raft.Request n C D) :=
  let rf : Raft n C D :=
    if rf.nextIndex server = 0 then { rf with nextIndex := Function.update rf.nextIndex server 1 }
    else rf
  let nextIndex : ℤ := rf.nextIndex server
  if nextIndex > getFirstLogIndex rf then do
    let prevLogTerm ← getLogTerm rf (nextIndex - 1)
    let lastLogIndex := getLastLogIndex rf
    let endIndex :=
      if nextIndex + Raft.batchSize > lastLogIndex + 1 then lastLogIndex + 1
      else nextIndex + Raft.batchSize
    let entries ← makeWithCapacity (Entry C) (endIndex - nextIndex)
    let collected ← collectEntries rf (endIndex - nextIndex).toNat nextIndex
    some (rf, .appendEntries
      { term := rf.currentTerm
        leaderId := rf.me
        prevLogIndex := (nextIndex - 1).toNat
        prevLogTerm := prevLogTerm
        leaderCommit := rf.commitIndex
        entries := entries ++ collected })
  else some (rf, .installSnapshot
    { term := rf.currentTerm
      leaderId := rf.me
      lastIncludedIndex := rf.lastIncludedIndex
      lastIncludedTerm := rf.lastIncludedTerm
      data := rf.persister.snapshot })

section InRange
variable {rf : Raft n C D} (hlogs : rf.logs ≠ [])
include hlogs

theorem getLastLogIndex_eq : getLastLogIndex rf = rf.getLastLogIndex := by
  have hpos := List.length_pos_iff.mpr hlogs
  unfold getLastLogIndex Raft.getLastLogIndex
  omega

theorem getLogTerm_eq (i : ℕ) : getLogTerm rf i = some (rf.getLogTerm i) := by
  have hpos := List.length_pos_iff.mpr hlogs
  unfold getLogTerm getFirstLogIndex
  rcases lt_trichotomy i rf.lastIncludedIndex with hlt | rfl | hgt
  · have hne : (i : ℤ) ≠ rf.lastIncludedIndex := by omega
    have hlow : (i : ℤ) - rf.lastIncludedIndex < 0 := by omega
    simp [Raft.getLogTerm, Raft.getFirstLogIndex, hlt, hlt.ne, hne, hlow]
  · have hhead := rf.getLogTerm_add 0
    rw [Nat.add_zero, Raft.slotTerm, List.getElem?_eq_getElem hpos] at hhead
    rw [hhead]
    simp [index, List.getElem?_eq_getElem hpos]
  · obtain ⟨k, rfl⟩ := Nat.exists_eq_add_of_le hgt.le
    have hslot : ((rf.lastIncludedIndex + k : ℕ) : ℤ) - rf.lastIncludedIndex = k := by omega
    rw [Raft.getLogTerm_add, Raft.slotTerm]
    simp only [hslot, index_natCast]
    rcases Nat.lt_or_ge k rf.logs.length with hin | hout
    · have hget := List.getElem?_eq_getElem hin
      rw [if_neg (by omega), if_neg (by omega), hget]
      rfl
    · rw [if_neg (by omega), if_pos (by omega), List.getElem?_eq_none_iff.mpr hout]

theorem mergeLoop_eq {args : AppendEntriesArgs n C} (hfirst : rf.lastIncludedIndex ≤ args.prevLogIndex)
    {fuel j : ℕ} (hj : j ≤ args.entries.length) (hfuel : args.entries.length < fuel + j) :
    mergeLoop args fuel rf ((args.prevLogIndex + 1 + j : ℕ) : ℤ) j =
      some (rf.mergeEntries (args.prevLogIndex + 1 + j) (args.entries.drop j)) := by
  induction fuel generalizing j with
  | zero => omega
  | succ fuel ih =>
    rw [mergeLoop]
    rcases Nat.eq_or_lt_of_le hj with rfl | hlt
    · rw [if_pos le_rfl, List.drop_length]
      rfl
    · have hdrop := List.drop_eq_getElem_cons hlt
      have hget := List.getElem?_eq_getElem hlt
      rw [if_neg (by omega), hdrop, Raft.mergeEntries, ← hdrop, getLastLogIndex_eq hlogs]
      by_cases hend : args.prevLogIndex + 1 + j > rf.getLastLogIndex
      · rw [if_pos hend, if_pos (by exact_mod_cast hend), sliceFrom_natCast hj]
        rfl
      · rw [if_neg hend, if_neg (by exact_mod_cast hend), getLogTerm_eq hlogs, index_natCast, hget]
        simp only [Option.bind_eq_bind, Option.bind_some]
        by_cases hterm : rf.getLogTerm (args.prevLogIndex + 1 + j) = args.entries[j].term
        · rw [if_neg (not_not.mpr hterm), if_neg (not_not.mpr hterm)]
          exact ih hlt (by omega)
        · have hcut : args.prevLogIndex + 1 + j - rf.lastIncludedIndex ≤ rf.logs.length := by
            unfold Raft.getLastLogIndex at hend
            omega
          rw [if_pos hterm, if_pos hterm, getFirstLogIndex, sliceTo_sub (by omega) hcut,
            sliceFrom_natCast hj]
          rfl

theorem conflictLoop_eq (conflictLogTerm : ℤ) {fuel k : ℕ} (hfuel : k < fuel) :
    conflictLoop rf conflictLogTerm fuel ((k : ℤ) - 1) =
      some ((rf.conflictIndex conflictLogTerm k : ℤ) - 1) := by
  induction k generalizing fuel with
  | zero =>
    obtain ⟨fuel, rfl⟩ := Nat.exists_eq_add_of_lt hfuel
    rw [conflictLoop, if_neg (by omega)]
    rfl
  | succ k ih =>
    obtain ⟨fuel, rfl⟩ := Nat.exists_eq_succ_of_ne_zero (Nat.ne_zero_of_lt hfuel)
    have hk : ((k + 1 : ℕ) : ℤ) - 1 = (k : ℤ) := by omega
    rw [hk, conflictLoop, Raft.conflictIndex, getLogTerm_eq hlogs]
    by_cases hin : k > rf.lastIncludedIndex
    · rw [if_pos (by exact_mod_cast hin), if_pos hin]
      by_cases hterm : rf.getLogTerm k < conflictLogTerm
      · simp [hterm]
      · simp only [Option.bind_eq_bind, Option.bind_some, hterm, if_false]
        exact ih (by omega)
    · rw [if_neg (by exact_mod_cast hin), if_neg hin, hk]

theorem atEnd_eq (args : AppendEntriesArgs n C) : atEnd rf args =
    some (decide (args.prevLogIndex = rf.getLastLogIndex ∧
      args.prevLogTerm = rf.getLogTerm rf.getLastLogIndex)) := by
  rw [atEnd, getLastLogIndex_eq hlogs, getLogTerm_eq hlogs]
  by_cases hprev : args.prevLogIndex = rf.getLastLogIndex
  · simp [hprev]
  · rw [if_neg (by exact_mod_cast hprev)]
    simp [hprev]

theorem appendEntries_eq (args : AppendEntriesArgs n C) :
    appendEntries rf args = some (rf.appendEntries args) := by
  by_cases hstale : args.term < rf.currentTerm
  · simp [appendEntries, Raft.appendEntries, hstale]
  simp only [appendEntries, Raft.appendEntries, hstale, if_false]
  generalize hnow : ({ rf with currentTerm := args.term, state := .follower, votedFor := none } :
    Raft n C D).persist = now
  replace hlogs : now.logs ≠ [] := by
    rw [← hnow]
    exact hlogs
  have hfirst : getFirstLogIndex now = now.getFirstLogIndex := rfl
  simp only [atEnd_eq hlogs, getLastLogIndex_eq hlogs, getLogTerm_eq hlogs, hfirst,
    Option.bind_eq_bind, Option.bind_some, Int.ofNat_le, Int.ofNat_lt, ge_iff_le, decide_eq_true_eq]
  split_ifs with hend hin hprev hlow
  · rfl
  · have hmerge := mergeLoop_eq hlogs hin.2 (Nat.zero_le args.entries.length) (Nat.lt_succ_self _)
    simp only [Nat.add_zero, List.drop_zero] at hmerge
    exact congrArg (Option.bind · _) hmerge
  · have hsearch := conflictLoop_eq hlogs (now.getLogTerm args.prevLogIndex)
      (Nat.lt_succ_self args.prevLogIndex)
    rw [hsearch]
    simp
  · rfl
  · rfl

omit hlogs in
theorem snapshot_eq (idx : ℕ) (bytes : Option D) :
    snapshot rf idx bytes = some (rf.snapshot idx bytes) := by
  by_cases hold : idx ≤ rf.lastIncludedIndex
  · simp [snapshot, Raft.snapshot, hold]
  obtain ⟨k, rfl⟩ := Nat.exists_eq_add_of_le (not_le.mp hold).le
  have hslot : ((rf.lastIncludedIndex + k : ℕ) : ℤ) - rf.lastIncludedIndex = k := by omega
  simp only [snapshot, Raft.snapshot, hold, if_false, hslot, Nat.add_sub_cancel_left, index_natCast,
    Int.toNat_natCast, Int.ofNat_lt]
  rcases Nat.lt_or_ge k rf.logs.length with hin | hout
  · have hdrop := List.drop_eq_getElem_cons hin
    simp only [hin, if_true, List.getElem?_eq_getElem hin, sliceFrom_natCast hin.le, hdrop,
      Option.bind_eq_bind, Option.bind_some, assign_zero_cons]
    rfl
  · simp only [hout.not_gt, if_false, List.getElem?_eq_none_iff.mpr hout, Option.bind_eq_bind,
      Option.bind_some, assign_zero_cons]
    rfl

theorem matchLog_eq (idx term : ℕ) : matchLog rf idx term = some (rf.matchLog idx term) := by
  have hfirst : getFirstLogIndex rf = rf.getFirstLogIndex := rfl
  rw [matchLog, Raft.matchLog, getLastLogIndex_eq hlogs, getLogTerm_eq hlogs, hfirst]
  simp only [Int.ofNat_le, Int.ofNat_lt, gt_iff_lt]
  split_ifs <;> rfl

theorem installSnapshot_eq (args : InstallSnapshotArgs n C D) :
    installSnapshot rf args = some (rf.installSnapshot args) := by
  by_cases hstale : args.term < rf.currentTerm
  · simp [installSnapshot, Raft.installSnapshot, hstale]
  simp only [installSnapshot, Raft.installSnapshot, hstale, if_false]
  generalize hnow : (if args.term > rf.currentTerm then
    ({ rf with currentTerm := args.term, state := .follower, votedFor := none } :
      Raft n C D).persist else rf) = now
  replace hlogs : now.logs ≠ [] := by
    rw [← hnow]
    split_ifs <;> exact hlogs
  by_cases hold : args.lastIncludedIndex ≤ now.commitIndex
  · simp [hold]
  simp only [hold, if_false, matchLog_eq hlogs, Option.bind_eq_bind, Option.bind_some]
  by_cases hm : now.matchLog args.lastIncludedIndex args.lastIncludedTerm
  · obtain ⟨k, e, hk, hget, -⟩ := now.slot_of_matchLog hlogs hm
    have hin := (List.getElem?_eq_some_iff.mp hget).1
    have hdrop := List.drop_eq_getElem_cons hin
    have hslot : ((now.lastIncludedIndex + (k + 1) : ℕ) : ℤ) - now.lastIncludedIndex = (k + 1 : ℕ) := by
      omega
    simp only [hm, if_true]
    simp only [hk, hslot, Nat.add_sub_cancel_left, index_natCast, hget,
      sliceFrom_natCast hin.le, hdrop, Option.bind_some, assign_zero_cons]
    rfl
  · simp only [hm, assign_zero_cons, Option.bind_some]
    rfl

omit hlogs in
theorem collectEntries_eq {k rounds : ℕ} (h : k + rounds ≤ rf.logs.length) :
    collectEntries rf rounds ((rf.lastIncludedIndex + k : ℕ) : ℤ) =
      some ((rf.logs.drop k).take rounds) := by
  induction rounds generalizing k with
  | zero => rfl
  | succ rounds ih =>
    have hlt : k < rf.logs.length := by omega
    have hslot : ((rf.lastIncludedIndex + k : ℕ) : ℤ) - rf.lastIncludedIndex = k := by omega
    have hrest := ih (show k + 1 + rounds ≤ rf.logs.length by omega)
    rw [collectEntries, hslot, index_natCast, List.getElem?_eq_getElem hlt]
    rw [← Nat.add_assoc, Int.natCast_succ] at hrest
    rw [hrest, List.drop_eq_getElem_cons hlt, List.take_succ_cons]
    rfl

/-- The request is built, or fails to be built, as the model says. -/
theorem broadcastTo_eq (server : Fin n) : broadcastTo rf server = rf.broadcastTo server := by
  unfold broadcastTo Raft.broadcastTo
  generalize hnow : (if rf.nextIndex server = 0 then
    { rf with nextIndex := Function.update rf.nextIndex server 1 } else rf : Raft n C D) = now
  replace hlogs : now.logs ≠ [] := by
    rw [← hnow]
    split_ifs <;> exact hlogs
  have hpos := List.length_pos_iff.mpr hlogs
  have hfirst : getFirstLogIndex now = now.getFirstLogIndex := rfl
  simp only [getLastLogIndex_eq hlogs, hfirst, gt_iff_lt, Int.ofNat_lt]
  by_cases hin : now.getFirstLogIndex < now.nextIndex server
  · obtain ⟨k, hk⟩ := Nat.exists_eq_add_of_le (show now.lastIncludedIndex + 1 ≤ _ from hin)
    have hprev : (now.nextIndex server : ℤ) - 1 = (now.nextIndex server - 1 : ℕ) := by omega
    have hend : (if (now.getLastLogIndex : ℤ) + 1 < now.nextIndex server + Raft.batchSize
          then (now.getLastLogIndex : ℤ) + 1 else now.nextIndex server + Raft.batchSize) =
        (min (now.nextIndex server + Raft.batchSize) (now.getLastLogIndex + 1) : ℕ) := by
      split_ifs <;> omega
    simp only [hin, if_true, hprev, hend, getLogTerm_eq hlogs, Option.bind_eq_bind, Option.bind_some,
      Int.toNat_natCast]
    generalize hstop : min (now.nextIndex server + Raft.batchSize) (now.getLastLogIndex + 1) = stop
    by_cases hneg : stop < now.nextIndex server
    · rw [if_pos hneg, makeWithCapacity, if_pos (by omega)]
      rfl
    · have hrounds : ((stop : ℤ) - now.nextIndex server).toNat = stop - now.nextIndex server := by omega
      have hfits : k + 1 + (stop - now.nextIndex server) ≤ now.logs.length := by
        have hle : stop ≤ now.getLastLogIndex + 1 := hstop ▸ min_le_right _ _
        unfold Raft.getLastLogIndex at hle
        omega
      have hcollect := collectEntries_eq hfits
      have hslot : now.nextIndex server - now.lastIncludedIndex = k + 1 := by omega
      rw [show now.lastIncludedIndex + (k + 1) = now.nextIndex server by omega] at hcollect
      rw [if_neg hneg, makeWithCapacity_of_nonneg (by omega), hrounds, hcollect, hslot]
      rfl
  · simp only [hin, if_false]

end InRange

theorem applier_eq {rf : Raft n C D} (hlogs : rf.logs ≠ []) (h : rf.Positioned) :
    applier rf = some rf.applier := by
  have happlied := h.applied
  have hcommitted := h.committed
  unfold applier Raft.applier
  by_cases hgo : rf.commitIndex > rf.lastApplied
  · have hlt : rf.lastApplied + 1 - rf.lastIncludedIndex < rf.logs.length := by
      unfold Raft.getLastLogIndex at hcommitted
      omega
    have hget := List.getElem?_eq_getElem hlt
    have hlow : ¬rf.lastApplied + 1 < rf.lastIncludedIndex := by omega
    simp only [hgo, if_true, hlow, if_false]
    rw [index_sub (by omega), hget, getLogTerm_eq hlogs]
    rfl
  · simp [hgo]

end Checked

/-- In every state of every run the two positions are inside the log window, and no index or slice
expression of the applier or of the three sections that cut the log is out of range. -/
theorem positions_inside_window (c : Cluster n C D)
    (h : Reaches Cluster.step anyStep (Cluster.init n C D) c) (i : Fin n) :
    (c.node i).rf.lastIncludedIndex ≤ (c.node i).rf.lastApplied ∧
    ((c.node i).rf.commitIndex : ℤ) ≤
      (c.node i).rf.lastIncludedIndex + (c.node i).rf.logs.length - 1 ∧
    Checked.applier (c.node i).rf = some (c.node i).rf.applier ∧
    (∀ args, Checked.appendEntries (c.node i).rf args = some ((c.node i).rf.appendEntries args)) ∧
    (∀ args, Checked.installSnapshot (c.node i).rf args =
      some ((c.node i).rf.installSnapshot args)) ∧
    ∀ idx bytes, Checked.snapshot (c.node i).rf idx bytes =
      some ((c.node i).rf.snapshot idx bytes) := by
  have hlogs := (durable_of_reaches h i).1.logs_ne
  have hin := positioned_of_reaches h i
  have hlast := Checked.getLastLogIndex_eq hlogs
  refine ⟨hin.applied, ?_, Checked.applier_eq hlogs hin, Checked.appendEntries_eq hlogs,
    Checked.installSnapshot_eq hlogs, Checked.snapshot_eq⟩
  rw [Checked.getLastLogIndex] at hlast
  rw [hlast]
  exact_mod_cast hin.committed

/-- An overtaken request takes the `commitIndex` of server 1 back behind what it has applied, and then
its service takes a snapshot. -/
theorem positions_inside_window_after_snapshot : ∃ c : Cluster 3 ℕ ℕ,
    Reaches Cluster.step anyStep (Cluster.init 3 ℕ ℕ) c ∧ (c.node 1).rf.lastIncludedIndex = 1 ∧
      (c.node 1).rf.logs.length = 2 ∧
      (c.node 1).rf.lastIncludedIndex ≤ (c.node 1).rf.lastApplied ∧
      Checked.applier (c.node 1).rf = some (c.node 1).rf.applier := by
  obtain ⟨c, hreach, hfirst, hlen⟩ := exists_reaches Cluster.step anyStep (Cluster.init 3 ℕ ℕ)
    [.startElection 0, .deliver 0, .deliver 1, .start 0 (some 7), .drop 0, .broadcast 0 1,
      .start 0 (some 8), .broadcast 0 1, .broadcast 0 1, .deliver 1, .deliver 2, .broadcast 0 1,
      .deliver 2, .pick 1, .deliver 0, .send 1 0, .snapshot 1 1 (some 7)]
    (fun c => (c.node 1).rf.lastIncludedIndex = 1 ∧ (c.node 1).rf.logs.length = 2) (by decide +kernel)
  obtain ⟨happlied, -, happlier, -⟩ := positions_inside_window c hreach 1
  exact ⟨c, hreach, hfirst, hlen, happlied, happlier⟩

end DistributedLabs.Raft1
