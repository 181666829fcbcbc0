import DistributedLabs.KvraftOnRaft

/-!
# What `kvraft1` relies on holds on `raft1`

Every run of the whole stack is a run of `World`, where an operation is committed at a place that a
call of `Start` was given, and readers get what is committed. The operations that were handed over
are the entries that leaders have put into their logs in their own terms. An operation counts as
committed when a reader is the first to get it, and then its entry is chosen.
-/

namespace DistributedLabs.Kvraft
open Kv Rsm TransitionRuns TermLeader ListPositions

variable {n : ℕ} {K V B : Type}

section Logs
variable {handed committed more : List (Entry n K V)}
  {s s' : TermLeader.State (Fin n) (Raft1.Entry (Command K V))}

/-- What was handed over is what leaders have put into their own logs, and what is committed is
chosen. -/
structure Agrees (handed committed : List (Entry n K V))
    (s : TermLeader.State (Fin n) (Raft1.Entry (Command K V))) : Prop where
  placed : ∀ e ∈ handed, 0 < e.index ∧ (∃ v, s.leader e.term = some v) ∧
    (s.leaderLog e.term)[e.index - 1]? = some ⟨e.term, some e.req⟩
  own : ∀ T i x, (s.leaderLog T)[i]? = some x → x.term = T →
    ∃ e ∈ handed, e.index = i + 1 ∧ e.term = T ∧ x.command = some e.req
  chosen : ∃ T l, Chosen Raft1.Entry.term s T committed.length l ∧
    ∀ (m : ℕ) e, committed[m]? = some e → l[m]? = some ⟨e.term, some e.req⟩

theorem agrees_init : Agrees ([] : List (Entry n K V)) [] (TermLeader.initial _ _) where
  placed e he := by cases he
  own T i x hx := by cases hx
  chosen := ⟨0, [], .zero _ _, fun m e he => by cases he⟩

theorem Agrees.follows (h : Agrees handed committed s) (inv : Inv Raft1.Entry.term s) (hext : Extends s s')
    (hmore : ∀ e ∈ more, 0 < e.index ∧ (∃ v, s'.leader e.term = some v) ∧
      (s'.leaderLog e.term)[e.index - 1]? = some ⟨e.term, some e.req⟩)
    (hown : ∀ T i x, (s'.leaderLog T)[i]? = some x → x.term = T → (s.leaderLog T)[i]? = some x ∨
      ∃ e ∈ more, e.index = i + 1 ∧ e.term = T ∧ x.command = some e.req) :
    Agrees (handed ++ more) committed s' where
  placed e he := by
    rcases List.mem_append.mp he with he | he
    · obtain ⟨hpos, ⟨v, hv⟩, hget⟩ := h.placed e he
      obtain ⟨rest, hrest⟩ := hext.leaderLog _ v hv
      exact ⟨hpos, ⟨v, hext.leader _ v hv⟩, hrest ▸ getElem?_append_of_some rest hget⟩
    · exact hmore e he
  own T i x hx hT := by
    rcases hown T i x hx hT with hold | ⟨e, he, hrest⟩
    · obtain ⟨e, he, hrest⟩ := h.own T i x hold hT
      exact ⟨e, List.mem_append_left _ he, hrest⟩
    · exact ⟨e, List.mem_append_right _ he, hrest⟩
  chosen := by
    obtain ⟨T, l, hl, hsame⟩ := h.chosen
    exact ⟨T, l, hl.mono inv hext, hsame⟩

variable {T m : ℕ} {l : List (Raft1.Entry (Command K V))} {x : Raft1.Entry (Command K V)}

theorem Agrees.eq_chosen (h : Agrees handed committed s) (inv : Inv Raft1.Entry.term s) {e : Entry n K V}
    (he : committed[m]? = some e) (hl : Chosen Raft1.Entry.term s T (m + 1) l) :
    l[m]? = some ⟨e.term, some e.req⟩ := by
  obtain ⟨U, l', hl', hsame⟩ := h.chosen
  rw [hl.getElem?_agree inv hl' (Nat.lt_succ_self m) (List.getElem?_eq_some_iff.mp he).1]
  exact hsame m e he

theorem Agrees.commit (h : Agrees handed committed s) (inv : Inv Raft1.Entry.term s)
    (hl : Chosen Raft1.Entry.term s T (committed.length + 1) l) (hx : l[committed.length]? = some x) :
    ∃ e ∈ handed, e.index = committed.length + 1 ∧ Agrees handed (committed ++ [e]) s := by
  obtain ⟨e, he, hindex, hterm, hcommand⟩ :=
    h.own _ _ x (hl.getElem?_own inv (Nat.lt_succ_self _) hx) rfl
  refine ⟨e, he, hindex, h.placed, h.own, T, l, by simpa using hl, fun m f hf => ?_⟩
  rcases getElem?_append_singleton_cases hf with hf | ⟨rfl, rfl⟩
  · exact h.eq_chosen inv hf (hl.of_le (Nat.succ_le_succ (List.getElem?_eq_some_iff.mp hf).1.le))
  · rw [hx, hterm, ← hcommand]

/-- The cluster, with what is said of its logs and its snapshots. -/
structure Supported (c : Raft1.Cluster n (Command K V) B) (handed committed : List (Entry n K V))
    (snapshots : List (Rsm.Persister B)) (s : TermLeader.State (Fin n) (Raft1.Entry (Command K V))) :
    Prop where
  grounded : Raft1.Grounded c s
  agrees : Agrees handed committed s
  known : Raft1.Snapshots (fun index bytes => ⟨index, bytes⟩ ∈ snapshots) c

section Supported
variable {c c' : Raft1.Cluster n (Command K V) B} {a : Raft1.Action n (Command K V) B}
  {snapshots : List (Rsm.Persister B)}

theorem Supported.append (h : Supported c handed committed snapshots s) (new : List (Rsm.Persister B)) :
    Supported c handed committed (snapshots ++ new) s :=
  ⟨h.grounded, h.agrees, h.known.mono fun _ _ hmem => List.mem_append_left _ hmem⟩

theorem Supported.step (h : Supported c handed committed snapshots s) (hsound : Raft1.SoundDelivery c a)
    (horder : Raft1.InOrder c a) (hs : c.step a = some c') (hstart : ∀ v command, a ≠ .start v command)
    (hnew : ∀ i index bytes, a = .snapshot i index bytes → (c.node i).rf.lastIncludedIndex < index →
      (⟨index, bytes⟩ : Rsm.Persister B) ∈ snapshots) :
    ∃ s', Supported c' handed committed snapshots s' := by
  obtain ⟨s', hf, hg⟩ := h.grounded.step hsound horder hs
  have hown : Agrees (handed ++ []) committed s' := by
    refine h.agrees.follows h.grounded.refines.inv (hf.extends h.grounded.refines.inv) (by simp) ?_
    intro T i x hx hT
    rcases h.grounded.refines.own_entry h.grounded.elect hs hf hg.refines hx hT with
      hold | ⟨v, command, ha, -⟩
    · exact .inl hold
    · exact absurd ha (hstart v command)
  rw [List.append_nil] at hown
  exact ⟨s', hg, hown, h.known.step h.grounded.elect hs hnew⟩

theorem Supported.start (h : Supported c handed committed snapshots s) {i : Fin n} {req : Command K V}
    (hs : c.step (.start i (some req)) = some c') (hlead : (c.node i).rf.state = .leader) (k : ℕ) :
    ∃ s', Supported c' (handed ++
      [⟨(c.node i).rf.getLastLogIndex + 1, (c.node i).rf.currentTerm, req, i, k⟩]) committed snapshots s' := by
  have hsound : Raft1.SoundDelivery c (.start i (some req)) := trivial
  have horder : Raft1.InOrder c (.start i (some req)) := trivial
  obtain ⟨s', hf, hg⟩ := h.grounded.step hsound horder hs
  have hext := hf.extends h.grounded.refines.inv
  refine ⟨s', hg, h.agrees.follows h.grounded.refines.inv hext ?_ ?_, ?_⟩
  · intro e he
    rw [List.mem_singleton.mp he]
    exact ⟨Nat.succ_pos _, ⟨i, hext.leader _ _ ((h.grounded.refines.node i).leads hlead)⟩,
      h.grounded.refines.leaderLog_start h.grounded.elect hs hg.refines hlead⟩
  · intro T m x hx hT
    rcases h.grounded.refines.own_entry h.grounded.elect hs hf hg.refines hx hT with
      hold | ⟨v, command, ha, -, rfl, rfl, rfl⟩
    · exact .inl hold
    · cases ha
      exact .inr ⟨_, List.mem_singleton_self _, rfl, rfl, rfl⟩
  · exact h.known.step h.grounded.elect hs fun _ _ _ ha => by cases ha

/-- A call of `Start` that is no leader's hands nothing over. -/
theorem Supported.start_of_not_leader (h : Supported c handed committed snapshots s) {i : Fin n}
    {command : Option (Command K V)} (hs : c.step (.start i command) = some c')
    (hlead : (c.node i).rf.state ≠ .leader) : ∃ s', Supported c' handed committed snapshots s' := by
  cases hs
  rw [(c.node i).rf.start_of_not_leader hlead]
  have hsame : c.setRf i (c.node i).rf = c := by
    simp [Raft1.Cluster.setRf, Raft1.Cluster.setNode]
  rw [hsame]
  exact ⟨s, h⟩

/-- A leader's next place is free. -/
theorem Supported.free (h : Supported c handed committed snapshots s) {i : Fin n}
    (hlead : (c.node i).rf.state = .leader) :
    ¬∃ e ∈ handed, e.index = (c.node i).rf.getLastLogIndex + 1 ∧ e.term = (c.node i).rf.currentTerm := by
  rintro ⟨e, he, hindex, hterm⟩
  obtain ⟨-, -, hget⟩ := h.agrees.placed e he
  rw [hindex, Nat.add_sub_cancel, hterm, h.grounded.refines.leaderLog_eq hlead,
    (h.grounded.refines.node i).window.getLastLogIndex_eq] at hget
  simp at hget

end Supported

end Logs

section Readers
variable {st st' : Stack n K V B} {i : Fin n} {r : Replica (KeyValue K V) B}

/-- A replica has the map of a server, where its reader has got to, and its snapshot. -/
structure Reads (st : Stack n K V B) (i : Fin n) (r : Replica (KeyValue K V) B) : Prop where
  state : r.state = st.keyValue i
  persister : r.persister = ⟨(st.cluster.node i).rf.lastIncludedIndex,
    (st.cluster.node i).rf.persister.snapshot.bytes⟩
  index : ∃ past, (st.cluster.node i).received = past ++ (st.inbox i).toList ∧
    Raft1.Leads (st.cluster.node i).base past r.index

theorem Reads.congr (h : Reads st i r) (hkv : st'.keyValue i = st.keyValue i)
    (hinbox : st'.inbox i = st.inbox i)
    (hreceived : (st'.cluster.node i).received = (st.cluster.node i).received)
    (hbase : (st'.cluster.node i).base = (st.cluster.node i).base)
    (hindex : (st'.cluster.node i).rf.lastIncludedIndex = (st.cluster.node i).rf.lastIncludedIndex)
    (hsnapshot : (st'.cluster.node i).rf.persister.snapshot = (st.cluster.node i).rf.persister.snapshot) :
    Reads st' i r := by
  refine ⟨h.state.trans hkv.symm, ?_, ?_⟩
  · rw [hindex, hsnapshot]
    exact h.persister
  · rw [hreceived, hinbox, hbase]
    exact h.index

theorem Reads.inbox (h : Reads st i r) (hord : Raft1.Ordered (st.cluster.node i))
    {m : Raft1.ApplyMsg (Command K V) B} (hm : st.inbox i = some m) :
    m ∈ (st.cluster.node i).received ∧ Raft1.Leads r.index [m] m.index ∧
      ∃ past, (st.cluster.node i).received = past ++ [m] ∧ Raft1.Leads (st.cluster.node i).base past r.index := by
  obtain ⟨past, hreceived, hpast⟩ := h.index
  rw [hm, Option.toList_some] at hreceived
  refine ⟨hreceived ▸ List.mem_append_right _ (List.mem_singleton_self m), ?_, past, hreceived, hpast⟩
  rw [Raft1.Ordered, hreceived, List.append_assoc] at hord
  obtain ⟨e, he, hrest⟩ := hord.split
  obtain rfl : e = r.index := he.eq_lastIndex.trans hpast.eq_lastIndex.symm
  obtain ⟨e', hm', -⟩ := hrest.split
  cases hm'.eq_lastIndex
  exact hm'

end Readers

/-- What Raft does, and `Submit` with it. -/
def World.Inner (w : World n K V B) : Action n K V → Prop
  | .start i k answer => w.FreshPlace (.start i k answer)
  | .event _ _ | .commit _ | .handover _ => True
  | .invoke _ _ | .send _ | .giveUp _ | .arrive _ | .reply _ => False

theorem World.Inner.freshPlace {w : World n K V B} {a : Action n K V} (h : w.Inner a) :
    w.FreshPlace a := by
  cases a with
  | start i k answer => exact h
  | _ => trivial

/-- The servers of the stack are those of a state of `World`. -/
structure Implements (st : Stack n K V B) (group : Group (Fin n) (KeyValue K V) B)
    (handed committed : List (Entry n K V))
    (s : TermLeader.State (Fin n) (Raft1.Entry (Command K V))) : Prop where
  supported : Supported st.cluster handed committed group.snapshots s
  reads : ∀ i, Reads st i (group.replicas i)

theorem reads_setReplica {st : Stack n K V B} {group : Group (Fin n) (KeyValue K V) B} {i : Fin n}
    {r : Replica (KeyValue K V) B} (hi : Reads st i r) (h : ∀ j, j ≠ i → Reads st j (group.replicas j))
    (j : Fin n) : Reads st j ((group.setReplica i r).replicas j) := by
  rcases eq_or_ne j i with rfl | hj
  · simpa [Group.setReplica] using hi
  · simpa [Group.setReplica, hj] using h j hj

section Steps
variable [DecidableEq K] [Inhabited V] [NeZero n] {gob : Labgob K V B} {maxraftstate : ℤ}
  {st st' : Stack n K V B} {group : Group (Fin n) (KeyValue K V) B}
  {handed committed : List (Entry n K V)}
  {s : TermLeader.State (Fin n) (Raft1.Entry (Command K V))} {i : Fin n}

variable (gob maxraftstate) in
/-- The stack is that of a state to which `World` can go without its clerks. -/
def Matched (w : World n K V B) (st' : Stack n K V B) : Prop :=
  ∃ group handed committed s, Reaches (World.step gob maxraftstate) World.Inner w
    (st'.world group handed committed) ∧ Implements st' group handed committed s

omit [NeZero n] in
theorem implements_init :
    Implements (Stack.init : Stack n K V B) (Group.init (kvServer gob)) [] [] (TermLeader.initial _ _) where
  supported := ⟨Raft1.grounded_init, agrees_init, Raft1.snapshots_init⟩
  reads _ := ⟨rfl, rfl, [], rfl, .nil _⟩

/-- A step of Raft alone is none of `World`, unless it installs a snapshot. -/
theorem Implements.raft (h : Implements st group handed committed s)
    {a : Raft1.Action n (Command K V) B} {cluster : Raft1.Cluster n (Command K V) B}
    (ha : Stack.isInner a) (hsound : Raft1.SoundDelivery st.cluster a)
    (horder : Raft1.InOrder st.cluster a) (hs : st.cluster.step a = some cluster) :
    Matched gob maxraftstate (st.world group handed committed) { st with cluster } := by
  obtain ⟨s', hs'⟩ := h.supported.step hsound horder hs (by rintro v command rfl; cases ha)
    (by rintro i index bytes rfl; cases ha)
  have hsame : ∀ v, (cluster.node v).received = (st.cluster.node v).received ∧
      (cluster.node v).base = (st.cluster.node v).base := by
    intro v
    rcases (Raft1.Passed.of_step hs v).same with hsame | ⟨k, rfl⟩ | rfl
    · exact hsame
    · cases ha
    · cases ha
  have horigin := fun v => (Raft1.Origin.of_step h.supported.grounded.elect hs v).snapshot_cases
    (by rintro index bytes rfl; cases ha)
  have hkept : ∀ v, (cluster.node v).rf.lastIncludedIndex = (st.cluster.node v).rf.lastIncludedIndex ∧
      (cluster.node v).rf.persister.snapshot = (st.cluster.node v).rf.persister.snapshot →
      Reads { st with cluster } v (group.replicas v) := fun v hv =>
    (h.reads v).congr rfl rfl (hsame v).1 (hsame v).2 hv.1 hv.2
  by_cases hinstall : ∃ k p args, a = .deliver k ∧ st.cluster.net[k]? = some p ∧
      p.body = .installSnapshot args ∧
      (cluster.node p.callee).rf.lastIncludedIndex = args.lastIncludedIndex ∧
      (cluster.node p.callee).rf.persister.snapshot = args.data
  · obtain ⟨k, p, args, rfl, hp, hbody, hindex, hsnapshot⟩ := hinstall
    obtain ⟨m, hm⟩ := List.mem_iff_getElem?.mp (h.supported.known.packets p (List.mem_of_getElem? hp) args
      (Raft1.snapshotArgs_eq hbody))
    have hstep : (st.world group handed committed).step gob maxraftstate (.handover (.save p.callee m)) =
        some (Stack.world { st with cluster } (group.setReplica p.callee
          { group.replicas p.callee with persister := ⟨args.lastIncludedIndex, args.data.bytes⟩ })
          handed committed) := by
      simp [World.step, World.handover, Group.step, Stack.world, hm]
    refine ⟨_, handed, committed, s', .tail .refl (by trivial) hstep, hs', reads_setReplica ?_ fun v hv => ?_⟩
    · refine ⟨(h.reads p.callee).state, ?_, ?_⟩
      · rw [hindex, hsnapshot]
      · rw [(hsame p.callee).1, (hsame p.callee).2]
        exact (h.reads p.callee).index
    · rcases horigin v with hv' | ⟨k', p', args', ha', hp', rfl, -⟩
      · exact hkept v hv'
      · cases ha'
        cases hp.symm.trans hp'
        exact absurd rfl hv
  · refine ⟨group, handed, committed, s', .refl, hs', fun v => ?_⟩
    rcases horigin v with hv | ⟨k, p, args, ha', hp, rfl, hbody, hrest⟩
    · exact hkept v hv
    · exact absurd ⟨k, p, args, ha', hp, hbody, hrest⟩ hinstall

/-- A leader's `Start` hands the operation over. -/
theorem Implements.start (h : Implements st group handed committed s) {k : ℕ}
    (hs : st.start i k = some st') : Matched gob maxraftstate (st.world group handed committed) st' := by
  obtain ⟨submission, rsm, cluster, hsubmission, hrsm, hcluster, rfl⟩ := Stack.start_cases hs
  have hsubmission' : ((st.world group handed committed).rsm i).calls[k]? = some submission := hsubmission
  have hreads : ∀ j, Reads { st with cluster, rsm := Function.update st.rsm i rsm } j (group.replicas j) := by
    intro j
    have hsame := (Raft1.Passed.of_step hcluster j).same
    have hkept := (Raft1.Origin.of_step h.supported.grounded.elect hcluster j).snapshot_cases (by simp)
    simp only [reduceCtorEq, exists_false, or_false, false_and] at hsame hkept
    exact (h.reads j).congr rfl rfl hsame.1 hsame.2 hkept.1 hkept.2
  by_cases hlead : (st.cluster.node i).rf.state = .leader
  · rw [if_pos hlead] at hrsm
    have hrsm' : ((st.world group handed committed).rsm i).start k _ = some rsm := hrsm
    obtain ⟨s', hs'⟩ := h.supported.start hcluster hlead k
    have hstep : (st.world group handed committed).step gob maxraftstate
        (.start i k (some ((st.cluster.node i).rf.getLastLogIndex, (st.cluster.node i).rf.currentTerm))) =
        some (Stack.world { st with cluster, rsm := Function.update st.rsm i rsm } group (handed ++
          [⟨(st.cluster.node i).rf.getLastLogIndex + 1, (st.cluster.node i).rf.currentTerm, submission.req,
            i, k⟩]) committed) := by
      simp only [World.step, World.start, hsubmission', hrsm', Option.bind_eq_bind, Option.bind_some]
      rfl
    have hfree : (st.world group handed committed).Inner (.start i k (some
        ((st.cluster.node i).rf.getLastLogIndex, (st.cluster.node i).rf.currentTerm))) :=
      h.supported.free hlead
    exact ⟨group, _, committed, s', .tail .refl hfree hstep, hs', hreads⟩
  · rw [if_neg hlead] at hrsm
    have hrsm' : ((st.world group handed committed).rsm i).start k none = some rsm := hrsm
    obtain ⟨s', hs'⟩ := h.supported.start_of_not_leader hcluster hlead
    have hstep : (st.world group handed committed).step gob maxraftstate (.start i k none) =
        some (Stack.world { st with cluster, rsm := Function.update st.rsm i rsm } group handed committed) := by
      simp only [World.step, World.start, hsubmission', hrsm', Option.bind_eq_bind, Option.bind_some]
      rfl
    exact ⟨group, handed, committed, s', .tail .refl (by trivial) hstep, hs', hreads⟩

theorem Implements.receive (h : Implements st group handed committed s)
    (hs : st.receive i 0 = some st') : Matched gob maxraftstate (st.world group handed committed) st' := by
  obtain ⟨x, cluster, hempty, hx, hcluster, rfl⟩ := Stack.receive_cases hs
  have hsound : Raft1.SoundDelivery st.cluster (.send i 0) := trivial
  have horder : Raft1.InOrder st.cluster (.send i 0) := rfl
  obtain ⟨s', hs'⟩ := h.supported.step hsound horder hcluster (by simp) (by simp)
  refine ⟨group, handed, committed, s', .refl, hs', fun j => ?_⟩
  obtain ⟨x', hx', hcluster⟩ := Option.map_eq_some_iff.mp hcluster
  cases hx.symm.trans hx'
  subst hcluster
  rcases eq_or_ne j i with rfl | hj
  · obtain ⟨past, hreceived, hpast⟩ := (h.reads j).index
    refine ⟨(h.reads j).state, ?_, past, ?_, ?_⟩
    · simpa [Raft1.Cluster.setNode] using (h.reads j).persister
    · simp [Raft1.Cluster.setNode, hreceived, hempty]
    · simpa [Raft1.Cluster.setNode] using hpast
  · refine (h.reads j).congr rfl ?_ ?_ ?_ ?_ ?_ <;> simp [Raft1.Cluster.setNode, hj]

theorem Implements.restart (h : Implements st group handed committed s)
    (hs : st.restart gob i = some st') : Matched gob maxraftstate (st.world group handed committed) st' := by
  obtain ⟨cluster, hcluster, rfl⟩ := Stack.restart_cases hs
  have hsound : Raft1.SoundDelivery st.cluster (.restart i) := trivial
  have horder : Raft1.InOrder st.cluster (.restart i) := trivial
  obtain ⟨s', hs'⟩ := h.supported.step hsound horder hcluster (by simp) (by simp)
  have hkept := (Raft1.Origin.of_step h.supported.grounded.elect hcluster i).snapshot_cases (by simp)
  simp only [reduceCtorEq, exists_false, or_false, false_and] at hkept
  have hpersister := (h.reads i).persister
  have hstep : (st.world group handed committed).step gob maxraftstate (.handover (.restart i)) =
      some (Stack.world (st.done i cluster (makeRSM (kvServer gob) (group.replicas i).persister)
        (st.rsm i).crash) (group.setReplica i ⟨makeRSM (kvServer gob) (group.replicas i).persister,
          (group.replicas i).persister.lastIncludedIndex, (group.replicas i).persister⟩) handed committed) := by
    simp [World.step, World.handover, Group.step, Stack.world, Stack.done, World.setRsm]
  rw [← hpersister]
  refine ⟨_, handed, committed, s', .tail .refl (by trivial) hstep, hs', reads_setReplica ?_ fun j hj => ?_⟩
  · refine ⟨by simp [Stack.done], ?_, [], ?_, ?_⟩
    · change (group.replicas i).persister = ⟨(cluster.node i).rf.lastIncludedIndex, _⟩
      rw [hkept.1, hpersister]
      change _ = (⟨_, (cluster.node i).rf.persister.snapshot.bytes⟩ : Rsm.Persister B)
      rw [hkept.2]
    · cases hcluster
      simp [Stack.done, Raft1.Cluster.setNode, Raft1.Node.boot]
    · have hbase : (cluster.node i).base = (group.replicas i).persister.lastIncludedIndex := by
        rw [hpersister, ← hkept.1]
        cases hcluster
        simp [Raft1.Cluster.setNode, Raft1.Node.boot]
      change Raft1.Leads (cluster.node i).base [] _
      rw [hbase]
      exact .nil _
  · cases hcluster
    refine (h.reads j).congr ?_ ?_ ?_ ?_ ?_ ?_ <;> simp [Stack.done, Raft1.Cluster.setNode, hj]

variable (maxraftstate) in
theorem Implements.commit (h : Implements st group handed committed s)
    (hinv : (st.world group handed committed).Inv gob) {command : Option (Command K V)} {index : ℕ}
    {term : ℤ} (hm : st.inbox i = some (.command command index term)) :
    ∃ committed' e, Reaches (World.step gob maxraftstate) World.Inner (st.world group handed committed)
        (st.world group handed committed') ∧ Implements st group handed committed' s ∧
      committed'[(group.replicas i).index]? = some e ∧ index = (group.replicas i).index + 1 ∧
      e.index = index ∧ e.term = term.toNat ∧ command = some e.req := by
  have inv := h.supported.grounded.refines.inv
  obtain ⟨hmem, hleads, -⟩ := (h.reads i).inbox (h.supported.grounded.ordered i) hm
  obtain rfl : index = (group.replicas i).index + 1 := by
    cases hleads
    rfl
  obtain ⟨T, l, x, hl, -, hx, hcommand, hterm⟩ := h.supported.grounded.messages.received i _ hmem
  rw [Nat.add_sub_cancel] at hx
  have hentry : ∀ committed' e, Agrees handed committed' s →
      committed'[(group.replicas i).index]? = some e → e.term = term.toNat ∧ command = some e.req := by
    intro committed' e hagrees he
    cases hx.symm.trans (hagrees.eq_chosen inv he hl)
    rw [← hterm, ← hcommand]
    exact ⟨rfl, rfl⟩
  have hle : (group.replicas i).index ≤ committed.length := by
    simpa [World.ops, Stack.world] using (hinv.logged.group.current i).index
  rcases hle.lt_or_eq with hlt | heq
  · have he := List.getElem?_eq_getElem hlt
    exact ⟨committed, _, .refl, h, he, rfl, (hinv.logged.committed _ _ he).2,
      hentry committed _ h.supported.agrees he⟩
  · obtain ⟨e, he, hindex, hagrees⟩ := h.supported.agrees.commit inv (heq ▸ hl) (heq ▸ hx)
    obtain ⟨m, hget⟩ := List.mem_iff_getElem?.mp he
    have hget : (st.world group handed committed).handed[m]? = some e := hget
    have hstep : (st.world group handed committed).step gob maxraftstate (.commit m) =
        some (st.world group handed (committed ++ [e])) := by
      simp only [World.step, World.commit, hget, Option.bind_eq_bind, Option.bind_some]
      exact if_pos hindex
    have hlast : (committed ++ [e])[(group.replicas i).index]? = some e := by
      rw [heq, List.getElem?_concat_length]
    exact ⟨committed ++ [e], e, .tail .refl (by trivial) hstep, ⟨⟨h.supported.grounded, hagrees,
      h.supported.known⟩, h.reads⟩, hlast, rfl, by rw [hindex, heq], hentry _ e hagrees hlast⟩

omit [NeZero n] in
theorem Implements.trySnapShot (h : Implements st group handed committed s) {index : ℕ}
    {kv : KeyValue K V} {persistBytes : ℕ} {cluster : Raft1.Cluster n (Command K V) B}
    (hs : st.trySnapShot gob maxraftstate i index kv persistBytes = some cluster)
    {taken : Option (Rsm.Persister B)} (htaken : taken = Rsm.trySnapShot (kvServer gob) maxraftstate
      persistBytes index kv (group.replicas i).persister) :
    (∃ s', Supported cluster handed committed (group.snapshots ++ taken.toList) s') ∧
      (∀ j, j ≠ i → cluster.node j = st.cluster.node j) ∧
      (cluster.node i).received = (st.cluster.node i).received ∧
      (cluster.node i).base = (st.cluster.node i).base ∧
      taken.getD (group.replicas i).persister =
        ⟨(cluster.node i).rf.lastIncludedIndex, (cluster.node i).rf.persister.snapshot.bytes⟩ := by
  obtain ⟨rfl, hnone⟩ | ⟨hcluster, hat⟩ := Stack.trySnapShot_cases hs (group.replicas i).persister
  · rw [htaken, hnone]
    exact ⟨⟨s, h.supported.append _⟩, fun _ _ => rfl, rfl, rfl, (h.reads i).persister⟩
  · rw [hat, (h.reads i).persister, Persister.snapshotAt] at htaken
    refine ⟨?_, ?_⟩
    · have hsound : Raft1.SoundDelivery st.cluster (.snapshot i index (snapshot gob kv)) := trivial
      have horder : Raft1.InOrder st.cluster (.snapshot i index (snapshot gob kv)) := trivial
      refine (h.supported.append _).step hsound horder hcluster (by simp) ?_
      rintro j index' bytes hsame hlt
      cases hsame
      rw [htaken, if_neg hlt.not_ge]
      simp
    · obtain ⟨-, rfl⟩ := Raft1.Cluster.step_snapshot hcluster
      refine ⟨fun j hj => ?_, ?_, ?_, ?_⟩
      · simp [Raft1.Cluster.setRf, Raft1.Cluster.setNode, hj]
      · simp [Raft1.Cluster.setRf, Raft1.Cluster.setNode]
      · simp [Raft1.Cluster.setRf, Raft1.Cluster.setNode]
      · simp only [Raft1.Cluster.setRf, Raft1.Cluster.setNode, Function.update_self]
        rw [htaken, (h.reads i).persister]
        rcases (st.cluster.node i).rf.snapshot_cases index (snapshot gob kv) with
          ⟨hle, he⟩ | ⟨hlt, e, -, he⟩ | ⟨hlt, -, he⟩ <;> rw [he]
        · rw [if_pos hle]
          rfl
        · rw [if_neg hlt.not_ge]
          rfl
        · rw [if_neg hlt.not_ge]
          rfl

theorem World.handover_command {w : World n K V B} {pointer : Bool} {e : Entry n K V}
    {rsm : RSM (Command K V) (Reply V)} (he : w.committed[(w.group.replicas i).index]? = some e)
    (hrsm : (w.rsm i).execute ⟨e.index, e.term, e.req,
      (doOp (w.group.replicas i).state (.of pointer e.req)).2⟩ = some rsm) (persistBytes : ℕ)
    {r : Replica (KeyValue K V) B × Option (Rsm.Persister B)} (hr : (w.group.replicas i).execute
      (kvServer gob) maxraftstate (.of pointer e.req) persistBytes = r) :
    w.step gob maxraftstate (.handover (.command i pointer persistBytes)) =
      some { w.setRsm i rsm with
        group := { w.group.setReplica i r.1 with snapshots := w.group.snapshots ++ r.2.toList } } := by
  simp only [World.step, World.handover, Group.step, World.getElem?_ops he, he, hrsm, hr,
    Option.bind_eq_bind, Option.map_some, Option.bind_some]
  rfl

/-- A reader executes what is committed. -/
theorem Implements.handle_command (h : Implements st group handed committed s)
    (hinv : (st.world group handed committed).Inv gob) {pointer : Bool} {persistBytes index : ℕ}
    {req : Command K V} {term : ℤ} {cluster : Raft1.Cluster n (Command K V) B}
    {rsm : RSM (Command K V) (Reply V)} (hm : st.inbox i = some (.command (some req) index term))
    (htry : st.trySnapShot gob maxraftstate i index (doOp (st.keyValue i) (.of pointer req)).1
      persistBytes = some cluster)
    (hrsm : (st.rsm i).execute ⟨index, term.toNat, req, (doOp (st.keyValue i) (.of pointer req)).2⟩ =
      some rsm) :
    Matched gob maxraftstate (st.world group handed committed)
      (st.done i cluster (doOp (st.keyValue i) (.of pointer req)).1 rsm) := by
  obtain ⟨committed', e, hrun, h', he, rfl, heindex, hterm, hreq⟩ := h.commit maxraftstate hinv hm
  cases hreq
  obtain ⟨-, hleads, past, hreceived, hpast⟩ := (h.reads i).inbox (h.supported.grounded.ordered i) hm
  generalize htaken : Rsm.trySnapShot (kvServer gob) maxraftstate persistBytes
    ((group.replicas i).index + 1) (doOp (st.keyValue i) (.of pointer e.req)).1
    (group.replicas i).persister = taken
  obtain ⟨⟨s', hs'⟩, hothers, hsame, hbase, hpersister⟩ := h'.trySnapShot htry htaken.symm
  have hexecute : (group.replicas i).execute (kvServer gob) maxraftstate (.of pointer e.req) persistBytes =
      (⟨(doOp (st.keyValue i) (.of pointer e.req)).1, (group.replicas i).index + 1,
        taken.getD (group.replicas i).persister⟩, taken) := by
    rw [← htaken, ← (h.reads i).state]
    rfl
  have hrsm' : ((st.world group handed committed').rsm i).execute ⟨e.index, e.term, e.req,
      (doOp (group.replicas i).state (.of pointer e.req)).2⟩ = some rsm := by
    rw [heindex, hterm, (h.reads i).state]
    exact hrsm
  have hstep := World.handover_command (w := st.world group handed committed') he hrsm' persistBytes hexecute
  refine ⟨_, handed, committed', s', .tail hrun (by trivial) hstep, hs', reads_setReplica ?_ fun j hj => ?_⟩
  · refine ⟨by simp [Stack.done], hpersister,
      past ++ [.command (some e.req) ((group.replicas i).index + 1) term], ?_, ?_⟩
    · simpa [Stack.done, hsame] using hreceived
    · change Raft1.Leads (cluster.node i).base _ _
      rw [hbase]
      exact hpast.append hleads
  · refine (h.reads j).congr ?_ ?_ ?_ ?_ ?_ ?_ <;> simp [Stack.done, hj, hothers j hj]

theorem Implements.handle_snapshot (h : Implements st group handed committed s)
    {data : Raft1.Snapshot (Command K V) B} {term index : ℕ}
    (hm : st.inbox i = some (.snapshot data term index)) (hidle : (st.rsm i).reader = .idle) :
    Matched gob maxraftstate (st.world group handed committed)
      (st.done i st.cluster (restore gob (st.keyValue i) data.bytes) (st.rsm i)) := by
  obtain ⟨hmem, hleads, past, hreceived, hpast⟩ :=
    (h.reads i).inbox (h.supported.grounded.ordered i) hm
  obtain ⟨m, hget⟩ := List.mem_iff_getElem?.mp
    (h.supported.known.received i _ hmem data term index rfl)
  have hidle' : ((st.world group handed committed).rsm i).reader = .idle := hidle
  have hstep : (st.world group handed committed).step gob maxraftstate (.handover (.snapshot i m)) =
      some ((st.done i st.cluster (restore gob (st.keyValue i) data.bytes) (st.rsm i)).world
        (group.setReplica i { group.replicas i with
          state := restore gob (st.keyValue i) data.bytes, index := index }) handed committed) := by
    rw [← (h.reads i).state]
    simp only [World.step, World.handover, hidle', Option.bind_eq_bind]
    simp [Group.step, Stack.world, Stack.done, hget, kvServer]
  refine ⟨_, handed, committed, s, .tail .refl (by trivial) hstep, h.supported,
    reads_setReplica ?_ fun j hj => ?_⟩
  · refine ⟨by simp [Stack.done], (h.reads i).persister, past ++ [.snapshot data term index], ?_, ?_⟩
    · simpa [Stack.done] using hreceived
    · exact hpast.append hleads
  · refine (h.reads j).congr ?_ ?_ rfl rfl rfl rfl <;> simp [Stack.done, hj]

theorem Implements.handle (h : Implements st group handed committed s)
    (hinv : (st.world group handed committed).Inv gob) {pointer : Bool} {persistBytes : ℕ}
    (hs : st.handle gob maxraftstate i pointer persistBytes = some st') :
    Matched gob maxraftstate (st.world group handed committed) st' := by
  obtain ⟨index, term, hm, -⟩ | ⟨req, index, term, cluster, rsm, hm, htry, hrsm, rfl⟩ |
    ⟨data, term, index, hm, hidle, rfl⟩ := Stack.handle_cases hs
  · obtain ⟨-, e, -, -, -, -, -, -, hnone⟩ := h.commit maxraftstate hinv hm
    cases hnone
  · exact h.handle_command hinv hm htry hrsm
  · exact h.handle_snapshot hm hidle

theorem Implements.step (h : Implements st group handed committed s)
    (hinv : (st.world group handed committed).Inv gob) {a : StackAction n K V B} (hallowed : st.Delivered a)
    (hs : st.step gob maxraftstate a = some st') (ha : ∀ b, a ≠ .front b) :
    Matched gob maxraftstate (st.world group handed committed) st' := by
  cases a with
  | front b => exact absurd rfl (ha b)
  | raft a =>
    simp only [Stack.step] at hs
    split_ifs at hs with hinner
    obtain ⟨cluster, hcluster, rfl⟩ := Option.map_eq_some_iff.mp hs
    exact h.raft hinner hallowed.1 hallowed.2 hcluster
  | start i k => exact h.start hs
  | receive i k =>
    obtain rfl : k = 0 := hallowed
    exact h.receive hs
  | handle i pointer persistBytes => exact h.handle hinv hs
  | restart i => exact h.restart hs

/-- A step of the clerks and servers is the same step of `World`. -/
theorem Implements.front (h : Implements st group handed committed s) {a : Action n K V}
    (hs : st.step gob maxraftstate (.front a) = some st') :
    Implements st' group handed committed s ∧ (st.world group handed committed).FreshPlace a ∧
      (st.world group handed committed).step gob maxraftstate a = some (st'.world group handed committed) ∧
      (st.world group handed committed).observe a = st.front.observe a := by
  simp only [Stack.step] at hs
  split_ifs at hs with ha
  obtain ⟨f, hf, rfl⟩ := Option.map_eq_some_iff.mp hs
  refine ⟨⟨h.supported, fun i => (h.reads i).congr rfl rfl rfl rfl rfl rfl⟩, ?_,
    Stack.step_front ha hf group handed committed, by cases a <;> rfl⟩
  cases a with
  | start i k answer => cases ha
  | _ => trivial

/-- A state of the stack and one of `World`. -/
def Represents (st : Stack n K V B) (w : World n K V B) : Prop :=
  ∃ group handed committed s, w = st.world group handed committed ∧ Implements st group handed committed s

/-- Every step of the stack is matched by steps of `World`, and its calls of `Start` are given places
of their own. -/
theorem Represents.step {w : World n K V B} (h : Represents st w) (hinv : w.Inv gob)
    {a : StackAction n K V B} (hallowed : st.Delivered a)
    (hs : st.step gob maxraftstate a = some st') :
    ∃ w', Reaches (World.step gob maxraftstate) World.FreshPlace w w' ∧ Represents st' w' := by
  obtain ⟨group, handed, committed, s, rfl, himpl⟩ := h
  by_cases ha : ∃ b, a = .front b
  · obtain ⟨b, rfl⟩ := ha
    obtain ⟨himpl', hfree, hstep, -⟩ := himpl.front hs
    exact ⟨_, .tail .refl hfree hstep, group, handed, committed, s, rfl, himpl'⟩
  · obtain ⟨group', handed', committed', s', hrun, himpl'⟩ :=
      himpl.step hinv hallowed hs fun b hb => ha ⟨b, hb⟩
    exact ⟨_, hrun.mono fun _ _ => World.Inner.freshPlace, group', handed', committed', s', rfl, himpl'⟩

omit [NeZero n] in
/-- What is asked of `Put`s there is what is asked here. -/
theorem Implements.reached (h : Implements st group handed committed s)
    (hinv : (st.world group handed committed).Inv gob) {a : Action n K V}
    (hallowed : st.Reached (.front a)) : (st.world group handed committed).Reached a := by
  match a, hallowed with
  | .invoke _ (.put args), ⟨i, hle⟩ =>
    have hcurrent := hinv.logged.group.current i
    have hstate : (group.replicas i).state = storeAfter ((st.world group handed committed).ops.take
      (group.replicas i).index) := hcurrent.state
    rw [← (h.reads i).state, hstate, versionOf_storeAfter] at hle
    calc args.version.toNat
      _ ≤ (UInt64.ofNat _).toNat := UInt64.le_iff_toNat_le.mp hle
      _ ≤ _ := UInt64.toNat_ofNat.trans_le (Nat.mod_le _ _)
      _ ≤ _ := successes_take_le args.key _ hcurrent.index
      _ = _ := by rw [List.take_length]
  | .invoke _ (.get _), _ => trivial
  | .send _, _ => trivial
  | .giveUp _, _ => trivial
  | .arrive _, _ => trivial
  | .reply _, _ => trivial
  | .start _ _ _, _ => trivial
  | .event _ _, _ => trivial
  | .commit _, _ => trivial
  | .handover _, _ => trivial

omit [DecidableEq K] [Inhabited V] [NeZero n] in
theorem Implements.length_committed (h : Implements st group handed committed s) :
    committed.length = 0 ∨ ∃ v, committed.length ≤ (st.cluster.node v).rf.getLastLogIndex := by
  have hrefines := h.supported.grounded.refines
  obtain ⟨T, l, hl, -⟩ := h.supported.agrees.chosen
  rcases hl.committed with hzero | ⟨t, k, -, hk, hcommitted, -⟩
  · exact .inl hzero
  · obtain ⟨Q, hQ, hkeeps⟩ := hcommitted.kept hrefines.inv
    obtain ⟨v, hv, -⟩ := hQ.inter hQ
    refine .inr ⟨v, ?_⟩
    rw [(hrefines.node v).window.getLastLogIndex_eq, ← (hrefines.node v).log]
    exact hk.trans (hkeeps v hv).1

end Steps

end DistributedLabs.Kvraft
