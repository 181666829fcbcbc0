import DistributedLabs.RaftSections

/-!
# What `AppendEntries` does to a log

`AppendEntries` computes one merge of the request's entries into the window: the
shortcut at the end of the log and the loop over the overlap are two ways to it. The
merge keeps what agrees, cuts at the first term that differs, and has nothing left to
do for entries that were merged before.
-/

namespace DistributedLabs.Raft1.Raft
open TermLogs

variable {n : ℕ} {C D : Type} {rf : Raft n C D} {args : AppendEntriesArgs n C}

/-- The first slot that a request's entries are compared with. -/
def slotAfter (rf : Raft n C D) (prevLogIndex : ℕ) : ℕ := prevLogIndex + 1 - rf.lastIncludedIndex

/-- The first `count` entries of the request have the terms that the window has at their places. -/
def OverlapAgrees (rf : Raft n C D) (args : AppendEntriesArgs n C) (count : ℕ) : Prop :=
  ∀ j < count, ∀ x e, rf.logs[rf.slotAfter args.prevLogIndex + j]? = some x →
    args.entries[j]? = some e → x.term = e.term

theorem Accepts.slotAfter_le (h : rf.Accepts args) (hlogs : rf.logs ≠ []) :
    rf.slotAfter args.prevLogIndex ≤ rf.logs.length := by
  have hpos := List.length_pos_iff.mpr hlogs
  have hlast := h.last
  unfold getLastLogIndex at hlast
  unfold slotAfter
  omega

theorem accept_logs : (rf.accept args).logs =
    mergeAt Entry.term rf.logs (rf.slotAfter args.prevLogIndex) args.entries := rfl

section Accepted
variable (hlogs : rf.logs ≠ []) (h : rf.Accepts args)
include hlogs h

theorem accept_keeps :
    (rf.accept args).logs.take (rf.slotAfter args.prevLogIndex) =
      rf.logs.take (rf.slotAfter args.prevLogIndex) :=
  take_mergeAt Entry.term args.entries (h.slotAfter_le hlogs)

theorem accept_of_agrees (hagree : rf.OverlapAgrees args args.entries.length) :
    (rf.accept args).logs =
      rf.logs ++ args.entries.drop (rf.logs.length - rf.slotAfter args.prevLogIndex) := by
  apply mergeAt_of_agree (h.slotAfter_le hlogs)
  intro j x e hx he
  exact hagree j (List.getElem?_eq_some_iff.mp he).1 x e hx he

omit hlogs h in
theorem accept_of_differs {j : ℕ} {x e : Entry C} (hagree : rf.OverlapAgrees args j)
    (hx : rf.logs[rf.slotAfter args.prevLogIndex + j]? = some x) (he : args.entries[j]? = some e)
    (hne : x.term ≠ e.term) :
    (rf.accept args).logs =
      rf.logs.take (rf.slotAfter args.prevLogIndex + j) ++ args.entries.drop j :=
  mergeAt_of_conflict hx he hne hagree

theorem accepts_after_accept {args' : AppendEntriesArgs n C}
    (hindex : args'.prevLogIndex = args.prevLogIndex) (hterm : args'.prevLogTerm = args.prevLogTerm) :
    (rf.accept args).Accepts args' := by
  have hfirst := h.first
  have hlast := h.last
  have hpos := List.length_pos_iff.mpr hlogs
  obtain ⟨k, hk⟩ := Nat.exists_eq_add_of_le hfirst
  have hslot : rf.slotAfter args.prevLogIndex = k + 1 := by
    unfold slotAfter
    omega
  have hlen := length_mergeAt Entry.term args.entries (h.slotAfter_le hlogs)
  rw [← accept_logs, hslot] at hlen
  have hkept : (rf.accept args).logs[k]? = rf.logs[k]? := by
    have htake := congrArg (·[k]?) (accept_keeps hlogs h)
    simpa only [hslot, List.getElem?_take, Nat.lt_succ_self, if_true] using htake
  constructor
  · rw [hindex]
    exact hfirst
  · have hout : (rf.accept args).getLastLogIndex =
        rf.lastIncludedIndex + (rf.accept args).logs.length - 1 := rfl
    omega
  · have hafter := (rf.accept args).getLogTerm_add k
    have hbefore := rf.getLogTerm_add k
    rw [slotTerm, hkept] at hafter
    rw [hterm, h.prev, hindex, hk, hbefore]
    exact hafter.symm

theorem appendEntries_after_accept {args' : AppendEntriesArgs n C}
    (hindex : args'.prevLogIndex = args.prevLogIndex) (hterm : args'.prevLogTerm = args.prevLogTerm)
    (hentries : args'.entries <+: args.entries) :
    ((rf.accept args).appendEntries args').1.logs = (rf.accept args).logs := by
  have hlogs' : (rf.accept args).logs ≠ [] := by
    have hlen := length_mergeAt Entry.term args.entries (h.slotAfter_le hlogs)
    have hfirst := h.first
    rw [← accept_logs] at hlen
    apply List.ne_nil_of_length_pos
    unfold slotAfter at hlen
    omega
  rcases lt_or_ge args'.term (rf.accept args).currentTerm with hlt | hge
  · simp [appendEntries, hlt]
  · rw [appendEntries_of_accepts _ hlogs' hge (accepts_after_accept hlogs h hindex hterm)]
    have hslot : (rf.accept args).slotAfter args'.prevLogIndex = rf.slotAfter args.prevLogIndex := by
      rw [hindex]
      rfl
    rw [accept_logs, hslot]
    exact mergeAt_mergeAt (h.slotAfter_le hlogs) hentries

end Accepted

/-- A request of a current term succeeds if its place is in the window. It then has the effect of the
loop whichever way it took; the log up to that place is kept; behind it the log is
extended if the overlap agrees, and cut at the first difference if not. Otherwise the log is
unchanged. The same request again, or after a merge a prefix of it, changes nothing. -/
theorem appendEntries_merges (rf : Raft n C D) (hlogs : rf.logs ≠ []) (args : AppendEntriesArgs n C)
    (hterm : rf.currentTerm ≤ args.term) :
    ((rf.appendEntries args).2.success = true ↔
      rf.lastIncludedIndex ≤ args.prevLogIndex ∧ args.prevLogIndex ≤ rf.getLastLogIndex ∧
        args.prevLogTerm = rf.getLogTerm args.prevLogIndex) ∧
    ((rf.appendEntries args).2.success = false → (rf.appendEntries args).1.logs = rf.logs) ∧
    ((rf.appendEntries args).2.success = true →
      (rf.appendEntries args).1 =
        ((rf.stepDown args.term).mergeEntries (args.prevLogIndex + 1) args.entries).followCommit args ∧
      (rf.appendEntries args).1.logs.take (rf.slotAfter args.prevLogIndex) =
        rf.logs.take (rf.slotAfter args.prevLogIndex) ∧
      (rf.OverlapAgrees args args.entries.length → (rf.appendEntries args).1.logs =
        rf.logs ++ args.entries.drop (rf.logs.length - rf.slotAfter args.prevLogIndex)) ∧
      (∀ j x e, rf.OverlapAgrees args j → rf.logs[rf.slotAfter args.prevLogIndex + j]? = some x →
        args.entries[j]? = some e → x.term ≠ e.term → (rf.appendEntries args).1.logs =
          rf.logs.take (rf.slotAfter args.prevLogIndex + j) ++ args.entries.drop j) ∧
      ∀ args' : AppendEntriesArgs n C, args'.prevLogIndex = args.prevLogIndex →
        args'.prevLogTerm = args.prevLogTerm → args'.entries <+: args.entries →
        ((rf.appendEntries args).1.appendEntries args').1.logs = (rf.appendEntries args).1.logs) ∧
    ((rf.appendEntries args).1.appendEntries args).1.logs = (rf.appendEntries args).1.logs := by
  by_cases h : rf.Accepts args
  · rw [appendEntries_of_accepts rf hlogs hterm h]
    refine ⟨by simpa using ⟨h.first, h.last, h.prev⟩, by simp, fun _ => ⟨?_, ?_, ?_, ?_, ?_⟩, ?_⟩
    · exact accept_eq_mergeEntries rf hlogs h.first
    · exact accept_keeps hlogs h
    · exact accept_of_agrees hlogs h
    · exact fun j x e hagree hx he hne => accept_of_differs hagree hx he hne
    · exact fun args' => appendEntries_after_accept hlogs h
    · exact appendEntries_after_accept hlogs h rfl rfl (List.prefix_refl _)
  · obtain ⟨i, t, he⟩ := appendEntries_of_not_accepts rf hterm hlogs h
    have hagain : ¬(rf.stepDown args.term).Accepts args := fun h' => h ⟨h'.first, h'.last, h'.prev⟩
    obtain ⟨i', t', he'⟩ := appendEntries_of_not_accepts (rf.stepDown args.term) le_rfl hlogs hagain
    rw [he]
    refine ⟨?_, fun _ => rfl, by simp, ?_⟩
    · simp only [Bool.false_eq_true, false_iff]
      exact fun h' => h ⟨h'.1, h'.2.1, h'.2.2⟩
    · rw [he']
      rfl

/-- Behind a snapshot at index 2, the request agrees at index 4 and differs at index 5. -/
theorem appendEntries_merges_behind_snapshot :
    let rf : Raft 3 ℕ ℕ :=
      { make 0 (makePersister ℕ ℕ) with
        currentTerm := 2
        logs := [⟨1, none⟩, ⟨1, some 7⟩, ⟨2, some 8⟩, ⟨2, some 9⟩]
        lastIncludedIndex := 2
        lastIncludedTerm := 1 }
    let args : AppendEntriesArgs 3 ℕ := ⟨3, 1, 3, 1, 5, [⟨2, some 8⟩, ⟨3, some 6⟩]⟩
    (rf.appendEntries args).2.success = true ∧
      (rf.appendEntries args).1.logs = [⟨1, none⟩, ⟨1, some 7⟩, ⟨2, some 8⟩, ⟨3, some 6⟩] ∧
      ((rf.appendEntries args).1.appendEntries args).1.logs = (rf.appendEntries args).1.logs := by
  intro rf args
  obtain ⟨hsuccess, -, hmerge, htwice⟩ := appendEntries_merges rf (by simp [rf]) args (by simp [rf, args])
  have hok : (rf.appendEntries args).2.success = true := hsuccess.mpr (by decide)
  obtain ⟨-, -, -, hcut, -⟩ := hmerge hok
  have hagree : rf.OverlapAgrees args 1 := by
    intro j hj x e hx he
    obtain rfl : j = 0 := by omega
    cases hx
    cases he
    rfl
  exact ⟨hok, hcut 1 ⟨2, some 9⟩ ⟨3, some 6⟩ hagree rfl rfl (by decide), htwice⟩

end DistributedLabs.Raft1.Raft
