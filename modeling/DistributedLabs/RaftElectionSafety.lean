import DistributedLabs.MajorityQuorums
import DistributedLabs.RaftCluster
import DistributedLabs.RaftSections

/-!
# Votes and leaders of a `raft1` cluster

A vote is remembered in `votedFor`, but every `AppendEntries` clears `votedFor`
even when the term stays the same, so a server can vote twice in a term. The
condition `VoteKept` says that this does not happen: no request for a vote in the
server's own term finds a cleared vote that was given to someone else. In every
run that meets it a server votes once in a term and a term has one leader.

Most steps are calm: a server may move to a later term or become a follower, but
nobody votes, stands or wins. The three that are not are handled one by one.
-/

namespace DistributedLabs.Raft1
open TransitionRuns MajorityQuorums

variable {n : ℕ} {C D : Type}

/-- The server neither votes nor stands nor wins. -/
structure Calm (rf rf' : Raft n C D) : Prop where
  me : rf'.me = rf.me
  term : rf.currentTerm ≤ rf'.currentTerm
  vote : rf'.votedFor = none ∨
    rf'.votedFor = rf.votedFor ∧ rf'.currentTerm = rf.currentTerm
  role : rf'.state = .follower ∨ rf'.state = rf.state ∧ rf'.currentTerm = rf.currentTerm
  durable : rf'.Durable

namespace Calm
variable {rf : Raft n C D}

theorem of_sameStable {rf' : Raft n C D} (h : rf.Durable) (hs : Raft.SameStable rf rf')
    (hst : rf'.state = .follower ∨ rf'.state = rf.state) : Calm rf rf' where
  me := hs.me
  term := hs.currentTerm.ge
  vote := Or.inr ⟨hs.votedFor, hs.currentTerm⟩
  role := hst.imp_right fun he => ⟨he, hs.currentTerm⟩
  durable := h.of_sameStable hs

theorem refl (h : rf.Durable) : Calm rf rf :=
  of_sameStable h ⟨rfl, rfl, rfl, rfl, rfl, rfl, rfl⟩ (Or.inr rfl)

theorem stepDown (h : rf.Durable) {term : ℕ} (ht : rf.currentTerm ≤ term) :
    Calm rf (rf.stepDown term) :=
  ⟨rfl, ht, Or.inl rfl, Or.inl rfl, Raft.durable_persist h.logs_ne⟩

theorem observe (h : rf.Durable) (term : ℕ) : Calm rf (rf.observe term) := by
  rcases rf.observe_eq_or term with he | ⟨ht, he⟩ <;> rw [he]
  · exact refl h
  · exact stepDown h ht.le

theorem appendEntries (h : rf.Durable) (args : AppendEntriesArgs n C) :
    Calm rf (rf.appendEntries args).1 := by
  rcases rf.appendEntries_cases h.logs_ne args with
    ⟨-, he⟩ | ⟨ht, i, t, he⟩ | ⟨ht, hprev, -, -, he⟩ <;> rw [he]
  · exact refl h
  · exact stepDown h ht
  · exact ⟨rfl, ht, Or.inl rfl, Or.inl rfl, h.accept hprev⟩

theorem installSnapshot (h : rf.Durable) (args : InstallSnapshotArgs n C D) :
    Calm rf (rf.installSnapshot args).1 := by
  have hobs := observe h args.term
  rcases rf.installSnapshot_cases args with ⟨-, he⟩ | ⟨-, -, he⟩ | ⟨-, -, he⟩ <;> rw [he]
  · exact refl h
  · exact hobs
  · exact ⟨hobs.me, hobs.term, hobs.vote, hobs.role, h.install args⟩

theorem commit (h : rf.Durable) : Calm rf rf.commit := by
  rcases rf.commit_cases with he | ⟨-, target, -, -, -, he⟩ <;> rw [he]
  · exact refl h
  · exact of_sameStable h ⟨rfl, rfl, rfl, rfl, rfl, rfl, rfl⟩ (Or.inr rfl)

theorem handleAppendEntriesReply (h : rf.Durable) (server : Fin n) (args : AppendEntriesArgs n C)
    (reply : AppendEntriesReply) : Calm rf (rf.handleAppendEntriesReply server args reply) := by
  rcases rf.handleAppendEntriesReply_cases server args reply with
    ⟨ht, he⟩ | ⟨next, he⟩ | ⟨-, -, -, he⟩ <;> rw [he]
  · exact stepDown h ht.le
  · exact of_sameStable h ⟨rfl, rfl, rfl, rfl, rfl, rfl, rfl⟩ (Or.inr rfl)
  · have hmatch : (rf.noteMatch server args).Durable :=
      h.of_sameStable ⟨rfl, rfl, rfl, rfl, rfl, rfl, rfl⟩
    have hc := commit hmatch
    exact ⟨hc.me, hc.term, hc.vote, hc.role, hc.durable⟩

theorem handleInstallSnapshotReply (h : rf.Durable) (server : Fin n)
    (args : InstallSnapshotArgs n C D) (reply : InstallSnapshotReply) :
    Calm rf (rf.handleInstallSnapshotReply server args reply) := by
  rcases rf.handleInstallSnapshotReply_cases server args reply with
    ⟨ht, he⟩ | he | ⟨-, -, he⟩ <;> rw [he]
  · exact stepDown h ht.le
  · exact refl h
  · exact of_sameStable h ⟨rfl, rfl, rfl, rfl, rfl, rfl, rfl⟩ (Or.inr rfl)

theorem start (h : rf.Durable) (command : Option C) : Calm rf (rf.start command).1 := by
  by_cases hl : rf.state = .leader
  · rw [rf.start_of_leader hl]
    refine ⟨rfl, le_rfl, Or.inr ⟨rfl, rfl⟩, Or.inr ⟨rfl, rfl⟩, ?_⟩
    exact ⟨by simp [Raft.appendOwn], Or.inl rfl⟩
  · rw [rf.start_of_not_leader hl]
    exact refl h

theorem broadcastTo (h : rf.Durable) {server : Fin n} {r : Raft n C D × Raft.Request n C D}
    (hr : rf.broadcastTo server = some r) : Calm rf r.1 := by
  obtain ⟨next, he, -⟩ := rf.broadcastTo_cases hr
  rw [he]
  exact of_sameStable h ⟨rfl, rfl, rfl, rfl, rfl, rfl, rfl⟩ (Or.inr rfl)

theorem applier (h : rf.Durable) {r : Raft n C D × ApplyMsg C D} (hr : rf.applier = some r) :
    Calm rf r.1 := by
  obtain ⟨-, -, entry, -, rfl⟩ := rf.applier_cases hr
  exact of_sameStable h ⟨rfl, rfl, rfl, rfl, rfl, rfl, rfl⟩ (Or.inr rfl)

theorem snapshot (h : rf.Durable) (index : ℕ) (bytes : Option D) :
    Calm rf (rf.snapshot index bytes) := by
  have hd := h.snapshot index bytes
  rcases rf.snapshot_cases index bytes with ⟨-, he⟩ | ⟨-, e, -, he⟩ | ⟨-, -, he⟩ <;>
    rw [he] at hd ⊢
  · exact refl h
  all_goals exact ⟨rfl, le_rfl, Or.inr ⟨rfl, rfl⟩, Or.inr ⟨rfl, rfl⟩, hd⟩

theorem make (h : rf.Durable) : Calm rf (Raft.make rf.me rf.persister) := by
  rw [Raft.make_of_durable h]
  exact of_sameStable h ⟨rfl, rfl, rfl, rfl, rfl, rfl, rfl⟩ (Or.inl rfl)

end Calm

/-- Caller, term and callee of a vote request or its reply. -/
def Packet.ballot (p : Packet n C D) : Option (Fin n × ℕ × Fin n) :=
  match p.body with
  | .requestVote args => some (p.caller, args.term, p.callee)
  | .requestVoteReply args _ => some (p.caller, args.term, p.callee)
  | _ => none

def ballots (net : List (Packet n C D)) : List (Fin n × ℕ × Fin n) := net.filterMap Packet.ballot

/-- Adding packets that are not about votes adds no ballot. -/
theorem ballots_append {net extra : List (Packet n C D)} (hextra : ∀ p ∈ extra, p.ballot = none) :
    ballots (net ++ extra) = ballots net := by
  have hnil : extra.filterMap Packet.ballot = [] := List.filterMap_eq_nil_iff.mpr hextra
  rw [ballots, List.filterMap_append, hnil, List.append_nil, ballots]

/-- What vote requests and replies in flight say, given the votes cast so far. -/
structure VoteTraffic (granted : List (Fin n × ℕ × Fin n)) (net : List (Packet n C D)) : Prop where
  /-- one packet for each voter asked -/
  asked : (ballots net).Nodup
  other : ∀ b ∈ ballots net, b.1 ≠ b.2.2 ∧ (b.1, b.2.1, b.1) ∈ granted
  request : ∀ p ∈ net, ∀ args, p.body = .requestVote args → args.candidateId = p.caller
  reply : ∀ p ∈ net, ∀ args r, p.body = .requestVoteReply args r → r.voteGranted →
    (p.callee, args.term, p.caller) ∈ granted

namespace VoteTraffic
variable {granted granted' : List (Fin n × ℕ × Fin n)} {net net' : List (Packet n C D)}

theorem mono (h : VoteTraffic granted net) (hg : granted ⊆ granted') :
    VoteTraffic granted' net :=
  ⟨h.asked, fun b hb => ⟨(h.other b hb).1, hg (h.other b hb).2⟩, h.request,
    fun p hp args r hb hr => hg (h.reply p hp args r hb hr)⟩

theorem sublist (h : VoteTraffic granted net) (hs : net'.Sublist net) :
    VoteTraffic granted net' where
  asked := h.asked.sublist (hs.filterMap _)
  other b hb := h.other b ((hs.filterMap _).subset hb)
  request p hp := h.request p (hs.subset hp)
  reply p hp := h.reply p (hs.subset hp)

/-- Packets that are not about votes do not matter. -/
theorem append (h : VoteTraffic granted net) {extra : List (Packet n C D)}
    (hextra : ∀ p ∈ extra, p.ballot = none) : VoteTraffic granted (net ++ extra) := by
  have hballots : ballots (net ++ extra) = ballots net := ballots_append hextra
  have hold : ∀ p ∈ net ++ extra, p.ballot ≠ none → p ∈ net := by
    intro p hp hb
    rcases List.mem_append.mp hp with hp | hp
    · exact hp
    · exact absurd (hextra p hp) hb
  refine ⟨hballots ▸ h.asked, hballots ▸ h.other, fun p hp args hb => ?_,
    fun p hp args r hb hr => ?_⟩
  · exact h.request p (hold p hp (by simp [Packet.ballot, hb])) args hb
  · exact h.reply p (hold p hp (by simp [Packet.ballot, hb])) args r hb hr

end VoteTraffic

theorem perm_eraseIdx {α : Type*} {l : List α} {k : ℕ} {x : α} (h : l[k]? = some x) :
    l.Perm (x :: l.eraseIdx k) := by
  obtain ⟨hk, rfl⟩ := List.getElem?_eq_some_iff.mp h
  exact (List.getElem_cons_eraseIdx_perm hk).symm

structure ElectionInv (c : Cluster n C D) : Prop where
  me : ∀ i, (c.node i).rf.me = i
  durable : ∀ i, (c.node i).rf.Durable
  past : ∀ v T x, (v, T, x) ∈ c.granted → T ≤ (c.node v).rf.currentTerm
  kept : ∀ v T x, (v, T, x) ∈ c.granted → (c.node v).rf.currentTerm = T →
    (c.node v).rf.votedFor = none ∨ (c.node v).rf.votedFor = some x
  cast : ∀ v x, (c.node v).rf.votedFor = some x → (v, (c.node v).rf.currentTerm, x) ∈ c.granted
  once : ∀ v T x y, (v, T, x) ∈ c.granted → (v, T, y) ∈ c.granted → x = y
  stands : ∀ v T x, (v, T, x) ∈ c.granted → (x, T, x) ∈ c.granted
  traffic : VoteTraffic c.granted c.net
  /-- a candidate counted distinct voters, none of whom has an answer under way -/
  counted : ∀ v, (c.node v).rf.state = .candidate →
    (v, (c.node v).rf.currentTerm) ∉ c.elected ∧
    ∃ voters : Finset (Fin n), voters.card = (c.node v).votes ∧ v ∈ voters ∧
      ∀ u ∈ voters, (u, (c.node v).rf.currentTerm, v) ∈ c.granted ∧
        (v, (c.node v).rf.currentTerm, u) ∉ ballots c.net
  leads : ∀ v, (c.node v).rf.state = .leader → (v, (c.node v).rf.currentTerm) ∈ c.elected
  won : ∀ v T, (v, T) ∈ c.elected → ∃ Q : Finset (Fin n), Majority Q ∧ v ∈ Q ∧
    ∀ u ∈ Q, (u, T, v) ∈ c.granted

theorem ElectionInv.init : ElectionInv (Cluster.init n C D) where
  me i := rfl
  durable i := Raft.durable_make i
  past := by simp [Cluster.init]
  kept := by simp [Cluster.init]
  cast v x h := by simp [Cluster.init, Node.boot, Raft.make, makePersister, Raft.readPersist] at h
  once := by simp [Cluster.init]
  stands := by simp [Cluster.init]
  traffic := by constructor <;> simp [Cluster.init, ballots]
  counted v h := by simp [Cluster.init, Node.boot, Raft.make, makePersister, Raft.readPersist] at h
  leads v h := by simp [Cluster.init, Node.boot, Raft.make, makePersister, Raft.readPersist] at h
  won := by simp [Cluster.init]

/-- Two servers that won the same term would share a voter. -/
theorem ElectionInv.one_leader {c : Cluster n C D} (h : ElectionInv c) {T : ℕ} {v w : Fin n}
    (hv : (v, T) ∈ c.elected) (hw : (w, T) ∈ c.elected) : v = w := by
  obtain ⟨P, hP, -, hPv⟩ := h.won v T hv
  obtain ⟨Q, hQ, -, hQw⟩ := h.won w T hw
  obtain ⟨u, huP, huQ⟩ := hP.inter hQ
  exact h.once u T v w (hPv u huP) (hQw u huQ)

/-- Nobody votes, stands or wins. -/
structure CalmStep (c c' : Cluster n C D) : Prop where
  node : ∀ i, Calm (c.node i).rf (c'.node i).rf
  votes : ∀ i, (c'.node i).votes = (c.node i).votes ∨ (c'.node i).rf.state = .follower
  traffic : VoteTraffic c.granted c'.net
  ballots : ballots c'.net ⊆ ballots c.net
  granted : c'.granted = c.granted
  elected : c'.elected = c.elected

theorem ElectionInv.calm {c c' : Cluster n C D} (h : ElectionInv c) (hs : CalmStep c c') :
    ElectionInv c' where
  me i := (hs.node i).me.trans (h.me i)
  durable i := (hs.node i).durable
  past v T x hg := by
    rw [hs.granted] at hg
    exact (h.past v T x hg).trans (hs.node v).term
  kept v T x hg ht := by
    rw [hs.granted] at hg
    rcases (hs.node v).vote with hv | ⟨hv, hterm⟩
    · exact Or.inl hv
    · rw [hv]
      exact h.kept v T x hg (hterm.symm.trans ht)
  cast v x hv := by
    rcases (hs.node v).vote with hn | ⟨he, hterm⟩
    · rw [hn] at hv
      cases hv
    · rw [hs.granted, hterm]
      exact h.cast v x (he.symm.trans hv)
  once := by
    rw [hs.granted]
    exact h.once
  stands := by
    rw [hs.granted]
    exact h.stands
  traffic := by
    rw [hs.granted]
    exact hs.traffic
  counted v hv := by
    rcases (hs.node v).role with hf | ⟨hst, hterm⟩
    · rw [hf] at hv
      cases hv
    · obtain ⟨hnot, voters, hcard, hself, hall⟩ := h.counted v (hst.symm.trans hv)
      have hvotes : (c'.node v).votes = (c.node v).votes := by
        rcases hs.votes v with he | hf
        · exact he
        · rw [hf] at hv
          cases hv
      rw [hs.elected, hs.granted, hterm, hvotes]
      refine ⟨hnot, voters, hcard, hself, fun u hu => ⟨(hall u hu).1, fun hb => ?_⟩⟩
      exact (hall u hu).2 (hs.ballots hb)
  leads v hv := by
    rcases (hs.node v).role with hf | ⟨hst, hterm⟩
    · rw [hf] at hv
      cases hv
    · rw [hs.elected, hterm]
      exact h.leads v (hst.symm.trans hv)
  won v T hv := by
    rw [hs.elected] at hv
    rw [hs.granted]
    exact h.won v T hv

/-- A calm change of one server, with no vote traffic, is a calm step. -/
theorem ElectionInv.calm_setNode {c c' : Cluster n C D} (h : ElectionInv c) (i : Fin n)
    (nd : Node n C D) (hnode : c'.node = Function.update c.node i nd)
    (hcalm : Calm (c.node i).rf nd.rf)
    (hvotes : nd.votes = (c.node i).votes ∨ nd.rf.state = .follower)
    (htraffic : VoteTraffic c.granted c'.net) (hballots : ballots c'.net ⊆ ballots c.net)
    (hgranted : c'.granted = c.granted) (helected : c'.elected = c.elected) :
    ElectionInv c' := by
  refine h.calm ⟨fun j => ?_, fun j => ?_, htraffic, hballots, hgranted, helected⟩ <;>
    rw [hnode] <;>
    by_cases hj : j = i
  · subst hj
    rwa [Function.update_self]
  · rw [Function.update_of_ne hj]
    exact Calm.refl (h.durable j)
  · subst hj
    rwa [Function.update_self]
  · rw [Function.update_of_ne hj]
    exact Or.inl rfl

/-- The same with packets lost and packets that are not about votes sent. -/
theorem ElectionInv.quiet {c c' : Cluster n C D} (h : ElectionInv c) (i : Fin n)
    (nd : Node n C D) (hnode : c'.node = Function.update c.node i nd)
    (hcalm : Calm (c.node i).rf nd.rf)
    (hvotes : nd.votes = (c.node i).votes ∨ nd.rf.state = .follower)
    {old extra : List (Packet n C D)} (hnet : c'.net = old ++ extra) (hold : old.Sublist c.net)
    (hextra : ∀ p ∈ extra, p.ballot = none) (hgranted : c'.granted = c.granted)
    (helected : c'.elected = c.elected) : ElectionInv c' := by
  refine h.calm_setNode i nd hnode hcalm hvotes ?_ ?_ hgranted helected <;> rw [hnet]
  · exact (h.traffic.sublist hold).append hextra
  · rw [ballots_append hextra]
    exact (hold.filterMap _).subset

theorem ballots_voteRequests (i : Fin n) (incarnation : ℕ) (args : RequestVoteArgs n) :
    ballots (Cluster.voteRequests (C := C) (D := D) i incarnation args) =
      ((List.finRange n).filter (· ≠ i)).map fun server => (i, args.term, server) := by
  simp [ballots, Cluster.voteRequests, List.filterMap_map, Packet.ballot, Function.comp_def]

/-- One server votes in a term where it had not voted for anyone else. -/
theorem ElectionInv.vote {c c' : Cluster n C D} (h : ElectionInv c) {v x : Fin n} {T : ℕ}
    {nd : Node n C D} (hnode : c'.node = Function.update c.node v nd) (hme : nd.rf.me = v)
    (hdurable : nd.rf.Durable) (hterm : nd.rf.currentTerm = T)
    (hle : (c.node v).rf.currentTerm ≤ T) (hvote : nd.rf.votedFor = some x)
    (hrole : nd.rf.state ≠ .leader) (hfree : ∀ y, (v, T, y) ∈ c.granted → y = x)
    (hgranted : c'.granted = (v, T, x) :: c.granted) (hstands : (x, T, x) ∈ c'.granted)
    (helected : c'.elected = c.elected) (htraffic : VoteTraffic c'.granted c'.net)
    (hballots : ∀ w T' u, w ≠ v → (w, T', u) ∈ ballots c'.net → (w, T', u) ∈ ballots c.net)
    (hcounted : nd.rf.state = .candidate → (v, T) ∉ c.elected ∧ v = x ∧ nd.votes = 1) :
    ElectionInv c' := by
  have hsub : c.granted ⊆ c'.granted := hgranted ▸ List.subset_cons_self _ _
  have hother : ∀ j, j ≠ v → c'.node j = c.node j := fun j hj => by
    rw [hnode, Function.update_of_ne hj]
  have hself : c'.node v = nd := by rw [hnode, Function.update_self]
  have hnew : ∀ w T' y, (w, T', y) ∈ c'.granted →
      (w = v ∧ T' = T ∧ y = x) ∨ (w, T', y) ∈ c.granted := by
    intro w T' y hg
    rw [hgranted] at hg
    simpa using hg
  have hmine : (v, T, x) ∈ c'.granted := hgranted ▸ List.mem_cons_self
  refine
    { me := fun j => ?_, durable := fun j => ?_, past := fun w T' y hg => ?_
      kept := fun w T' y hg ht => ?_, cast := fun w y hv => ?_
      once := fun w T' y z hy hz => ?_, stands := fun w T' y hg => ?_, traffic := htraffic
      counted := fun w hw => ?_, leads := fun w hw => ?_, won := fun w T' hw => ?_ }
  · by_cases hj : j = v
    · rw [hj, hself, hme]
    · rw [hother j hj, h.me j]
  · by_cases hj : j = v
    · rwa [hj, hself]
    · rw [hother j hj]
      exact h.durable j
  · by_cases hw : w = v
    · subst hw
      rw [hself, hterm]
      rcases hnew w T' y hg with ⟨-, rfl, -⟩ | hg
      · exact le_rfl
      · exact (h.past w T' y hg).trans hle
    · rw [hother w hw]
      exact h.past w T' y ((hnew w T' y hg).resolve_left fun he => hw he.1)
  · by_cases hw : w = v
    · subst hw
      rw [hself] at ht ⊢
      obtain rfl : T = T' := hterm.symm.trans ht
      rcases hnew w T y hg with ⟨-, -, rfl⟩ | hg
      · exact Or.inr hvote
      · rw [hfree y hg]
        exact Or.inr hvote
    · rw [hother w hw] at ht ⊢
      exact h.kept w T' y ((hnew w T' y hg).resolve_left fun he => hw he.1) ht
  · by_cases hw : w = v
    · subst hw
      rw [hself, hvote] at hv
      cases hv
      rwa [hself, hterm]
    · rw [hother w hw] at hv ⊢
      exact hsub (h.cast w y hv)
  · rcases hnew w T' y hy with ⟨rfl, rfl, rfl⟩ | hy'
    · rcases hnew w T' z hz with ⟨-, -, rfl⟩ | hz'
      · rfl
      · exact (hfree z hz').symm
    · rcases hnew w T' z hz with ⟨rfl, rfl, rfl⟩ | hz'
      · exact hfree y hy'
      · exact h.once w T' y z hy' hz'
  · rcases hnew w T' y hg with ⟨-, rfl, rfl⟩ | hg
    · exact hstands
    · exact hsub (h.stands w T' y hg)
  · rw [helected]
    by_cases hwv : w = v
    · subst hwv
      rw [hself] at hw ⊢
      obtain ⟨hnot, rfl, hone⟩ := hcounted hw
      rw [hterm]
      refine ⟨hnot, {w}, hone.symm, Finset.mem_singleton_self w, fun u hu => ?_⟩
      cases Finset.mem_singleton.mp hu
      exact ⟨hmine, fun hb => (htraffic.other _ hb).1 rfl⟩
    · rw [hother w hwv] at hw ⊢
      obtain ⟨hnot, voters, hcard, hvv, hall⟩ := h.counted w hw
      exact ⟨hnot, voters, hcard, hvv, fun u hu =>
        ⟨hsub (hall u hu).1, fun hb => (hall u hu).2 (hballots _ _ _ hwv hb)⟩⟩
  · rw [helected]
    by_cases hwv : w = v
    · subst hwv
      rw [hself] at hw
      exact absurd hw hrole
    · rw [hother w hwv] at hw ⊢
      exact h.leads w hw
  · rw [helected] at hw
    obtain ⟨Q, hQ, hwQ, hall⟩ := h.won w T' hw
    exact ⟨Q, hQ, hwQ, fun u hu => hsub (hall u hu)⟩

theorem ElectionInv.startElection {c : Cluster n C D} (h : ElectionInv c) (i : Fin n) :
    ElectionInv (c.startElection i) := by
  have hme := h.me i
  have hfresh : ∀ x, (i, (c.node i).rf.currentTerm + 1, x) ∉ c.granted := fun x hg =>
    absurd (h.past i _ x hg) (by omega)
  have hballots : ballots (c.startElection i).net = ballots c.net ++
      ((List.finRange n).filter (· ≠ i)).map
        fun server => (i, (c.node i).rf.currentTerm + 1, server) :=
    (List.filterMap_append ..).trans (congrArg (ballots c.net ++ ·) (ballots_voteRequests ..))
  have hsub : c.granted ⊆ (c.startElection i).granted := List.subset_cons_self _ _
  have hmine : (i, (c.node i).rf.currentTerm + 1, i) ∈ (c.startElection i).granted :=
    List.mem_cons_self
  refine h.vote (x := i) rfl hme (Raft.durable_persist (h.durable i).logs_ne) rfl
    (Nat.le_succ _) (congrArg some hme) nofun (fun y hy => absurd hy (hfresh y)) rfl hmine rfl
    ⟨?_, ?_, ?_, ?_⟩ ?_ ?_
  · rw [hballots]
    refine List.Nodup.append h.traffic.asked ?_ ?_
    · exact ((List.nodup_finRange n).filter _).map fun a b hab => by simpa using hab
    · intro b hb hb'
      obtain ⟨server, -, rfl⟩ := List.mem_map.mp hb'
      exact hfresh _ (h.traffic.other _ hb).2
  · intro b hb
    rw [hballots] at hb
    rcases List.mem_append.mp hb with hb | hb
    · exact ⟨(h.traffic.other b hb).1, hsub (h.traffic.other b hb).2⟩
    · obtain ⟨server, hserver, rfl⟩ := List.mem_map.mp hb
      simp only [List.mem_filter, decide_eq_true_eq] at hserver
      exact ⟨hserver.2.symm, hmine⟩
  · intro p hp args hb
    rcases List.mem_append.mp hp with hp | hp
    · exact h.traffic.request p hp args hb
    · obtain ⟨server, -, rfl⟩ := List.mem_map.mp hp
      cases hb
      exact hme
  · intro p hp args r hb hr
    rcases List.mem_append.mp hp with hp | hp
    · exact hsub (h.traffic.reply p hp args r hb hr)
    · obtain ⟨server, -, rfl⟩ := List.mem_map.mp hp
      cases hb
  · intro w T' u hw hb
    rw [hballots] at hb
    rcases List.mem_append.mp hb with hb | hb
    · exact hb
    · obtain ⟨server, -, he⟩ := List.mem_map.mp hb
      exact absurd (congrArg Prod.fst he).symm hw
  · intro _
    refine ⟨fun hel => ?_, rfl, rfl⟩
    obtain ⟨Q, -, hiQ, hQ⟩ := h.won i _ hel
    exact hfresh i (hQ i hiQ)

/-- An answered request has the ballot its reply has. -/
theorem ballots_answer {net : List (Packet n C D)} {k : ℕ} {p : Packet n C D}
    {args : RequestVoteArgs n} (hp : net[k]? = some p) (hbody : p.body = .requestVote args)
    (r : RequestVoteReply) :
    (ballots (net.eraseIdx k ++ [{ p with body := .requestVoteReply args r }])).Perm
      (ballots net) := by
  have hballot : p.ballot = some (p.caller, args.term, p.callee) := by simp [Packet.ballot, hbody]
  have hnet := (perm_eraseIdx hp).filterMap Packet.ballot
  rw [List.filterMap_cons_some hballot] at hnet
  refine List.Perm.trans ?_ hnet.symm
  rw [ballots, List.filterMap_append]
  exact List.perm_append_singleton _ _

theorem VoteTraffic.answer {granted : List (Fin n × ℕ × Fin n)} {net : List (Packet n C D)}
    {k : ℕ} {p : Packet n C D} {args : RequestVoteArgs n} {r : RequestVoteReply}
    (h : VoteTraffic granted net) (hp : net[k]? = some p) (hbody : p.body = .requestVote args)
    (hr : r.voteGranted → (p.callee, args.term, p.caller) ∈ granted) :
    VoteTraffic granted (net.eraseIdx k ++ [{ p with body := .requestVoteReply args r }]) := by
  have hperm := ballots_answer hp hbody r
  have hrest := h.sublist (List.eraseIdx_sublist net k)
  refine ⟨hperm.nodup_iff.mpr h.asked, fun b hb => h.other b (hperm.subset hb),
    fun q hq args' hb => ?_, fun q hq args' r' hb hr' => ?_⟩
  · rcases List.mem_append.mp hq with hq | hq
    · exact hrest.request q hq args' hb
    · cases List.mem_singleton.mp hq
      cases hb
  · rcases List.mem_append.mp hq with hq | hq
    · exact hrest.reply q hq args' r' hb hr'
    · cases List.mem_singleton.mp hq
      cases hb
      exact hr hr'

/-- A request for a vote in the server's own term does not find the vote cleared after it
was given to someone else. -/
def VoteStands (c : Cluster n C D) (p : Packet n C D) : Prop :=
  ∀ args ∈ p.body.voteArgs, (c.node p.callee).rf.currentTerm = args.term →
    (c.node p.callee).rf.votedFor = none →
    ∀ g ∈ c.granted, g.1 = p.callee → g.2.1 = args.term → g.2.2 = args.candidateId

instance (c : Cluster n C D) (p : Packet n C D) : Decidable (VoteStands c p) :=
  inferInstanceAs (Decidable (∀ args ∈ p.body.voteArgs, _))

theorem ElectionInv.requestVote {c : Cluster n C D} (h : ElectionInv c) {k : ℕ}
    {p : Packet n C D} {args : RequestVoteArgs n} (hp : c.net[k]? = some p)
    (hbody : p.body = .requestVote args) (hstands : VoteStands c p) :
    ElectionInv (c.deliver p (c.net.eraseIdx k)) := by
  have hcand := h.traffic.request p (List.mem_of_getElem? hp) args hbody
  have hballot : (p.caller, args.term, p.callee) ∈ ballots c.net :=
    List.mem_filterMap.mpr ⟨p, List.mem_of_getElem? hp, by simp [Packet.ballot, hbody]⟩
  have hown := (h.traffic.other _ hballot).2
  have hcalm : ∀ rf : Raft n C D, Calm (c.node p.callee).rf rf → ∀ T,
      (c.node p.callee).rf.requestVote args = (rf, ⟨T, false⟩) →
      ElectionInv (c.deliver p (c.net.eraseIdx k)) := by
    intro rf hrf T he
    simp only [Cluster.deliver, hbody, he]
    refine h.calm_setNode p.callee { c.node p.callee with rf := rf } rfl hrf (Or.inl rfl) ?_ ?_
      rfl rfl
    · exact h.traffic.answer hp hbody nofun
    · exact (ballots_answer hp hbody _).subset
  rcases (c.node p.callee).rf.requestVote_cases args with
    ⟨-, he⟩ | ⟨-, he⟩ | ⟨hle, hfree, -, he⟩
  · exact hcalm _ (Calm.refl (h.durable p.callee)) _ he
  · exact hcalm _ (Calm.observe (h.durable p.callee) _) _ he
  · simp only [Cluster.deliver, hbody, he, if_true]
    refine h.vote (v := p.callee) (x := args.candidateId) (T := args.term) rfl
      (h.me p.callee) (Raft.durable_persist (h.durable p.callee).logs_ne) rfl hle rfl nofun
      ?_ rfl ?_ rfl ?_ ?_ nofun
    · -- a vote given before in this term is still there or was given to the same candidate
      intro y hy
      have hterm := le_antisymm hle (h.past _ _ _ hy)
      rcases hfree hterm with hsome | hnone
      · rcases h.kept _ _ _ hy hterm with hn | hs
        · rw [hn] at hsome
          cases hsome
        · rw [hs] at hsome
          exact Option.some.inj hsome
      · exact hstands args (by simp [hbody, Rpc.voteArgs]) hterm hnone _ hy rfl rfl
    · rw [hcand]
      exact List.mem_cons_of_mem _ hown
    · refine (h.traffic.mono (List.subset_cons_self _ _)).answer hp hbody fun _ => ?_
      rw [hcand]
      exact List.mem_cons_self
    · intro w T' u _ hb
      exact (ballots_answer hp hbody _).subset hb

theorem Node.handleRequestVoteReply_cases (nd : Node n C D) (args : RequestVoteArgs n)
    (reply : RequestVoteReply) :
    nd.handleRequestVoteReply args reply = nd ∨
    nd.rf.currentTerm < reply.term ∧
      nd.handleRequestVoteReply args reply = { nd with rf := nd.rf.stepDown reply.term } ∨
    nd.rf.state = .candidate ∧ nd.rf.currentTerm = args.term ∧ reply.voteGranted ∧
      (nd.handleRequestVoteReply args reply = { nd with votes := nd.votes + 1 } ∨
      n / 2 < nd.votes + 1 ∧ nd.handleRequestVoteReply args reply =
        { nd with votes := nd.votes + 1, electedFlag := true, rf := nd.rf.becomeLeader }) := by
  simp only [Node.handleRequestVoteReply]
  split_ifs with hstale hlater hgrant hmajor hflag
  · exact Or.inl rfl
  · exact Or.inr (Or.inl ⟨hlater, rfl⟩)
  · simp only [not_or, not_not] at hstale
    exact Or.inr (Or.inr ⟨hstale.1, hstale.2, hgrant, Or.inl rfl⟩)
  · simp only [not_or, not_not] at hstale
    exact Or.inr (Or.inr ⟨hstale.1, hstale.2, hgrant, Or.inr ⟨hmajor, rfl⟩⟩)
  · simp only [not_or, not_not] at hstale
    exact Or.inr (Or.inr ⟨hstale.1, hstale.2, hgrant, Or.inl rfl⟩)
  · exact Or.inl rfl

/-- The voters a candidate has counted once a granted reply is in. -/
theorem ElectionInv.counted_insert {c : Cluster n C D} (h : ElectionInv c) {k : ℕ}
    {p : Packet n C D} {args : RequestVoteArgs n} {r : RequestVoteReply}
    (hp : c.net[k]? = some p) (hbody : p.body = .requestVoteReply args r) (hr : r.voteGranted)
    (hcand : (c.node p.caller).rf.state = .candidate)
    (hterm : (c.node p.caller).rf.currentTerm = args.term) :
    ∃ voters : Finset (Fin n), voters.card = (c.node p.caller).votes + 1 ∧ p.caller ∈ voters ∧
      ∀ u ∈ voters, (u, (c.node p.caller).rf.currentTerm, p.caller) ∈ c.granted ∧
        (p.caller, (c.node p.caller).rf.currentTerm, u) ∉ ballots (c.net.eraseIdx k) := by
  obtain ⟨-, voters, hcard, hself, hall⟩ := h.counted p.caller hcand
  have hballot : p.ballot = some (p.caller, (c.node p.caller).rf.currentTerm, p.callee) := by
    simp [Packet.ballot, hbody, hterm]
  have hperm := (perm_eraseIdx hp).filterMap Packet.ballot
  rw [List.filterMap_cons_some hballot] at hperm
  have hnew : p.callee ∉ voters := fun hu => (hall _ hu).2 (hperm.mem_iff.mpr List.mem_cons_self)
  have hgone := (List.nodup_cons.mp (hperm.nodup_iff.mp h.traffic.asked)).1
  refine ⟨insert p.callee voters, by rw [Finset.card_insert_of_notMem hnew, hcard],
    Finset.mem_insert_of_mem hself, fun u hu => ?_⟩
  rcases Finset.mem_insert.mp hu with rfl | hu
  · rw [hterm] at hgone ⊢
    exact ⟨h.traffic.reply p (List.mem_of_getElem? hp) args r hbody hr, hgone⟩
  · exact ⟨(hall u hu).1, fun hb =>
      (hall u hu).2 (((List.eraseIdx_sublist c.net k).filterMap _).subset hb)⟩

/-- A candidate counts one more vote, and wins with a majority. -/
theorem ElectionInv.count {c c' : Cluster n C D} (h : ElectionInv c) {v : Fin n}
    {nd : Node n C D} {voters : Finset (Fin n)} (hnode : c'.node = Function.update c.node v nd)
    (hsame : Raft.SameStable (c.node v).rf nd.rf) (hcand : (c.node v).rf.state = .candidate)
    (hnet : c'.net.Sublist c.net) (hgranted : c'.granted = c.granted) (hself : v ∈ voters)
    (hall : ∀ u ∈ voters, (u, (c.node v).rf.currentTerm, v) ∈ c.granted ∧
      (v, (c.node v).rf.currentTerm, u) ∉ ballots c'.net)
    (hrole : nd.rf.state = .candidate ∧ voters.card = nd.votes ∧ c'.elected = c.elected ∨
      nd.rf.state = .leader ∧ n < 2 * voters.card ∧
        c'.elected = (v, (c.node v).rf.currentTerm) :: c.elected) :
    ElectionInv c' := by
  have hother : ∀ j, j ≠ v → c'.node j = c.node j := fun j hj => by
    rw [hnode, Function.update_of_ne hj]
  have hnv : c'.node v = nd := by rw [hnode, Function.update_self]
  have hstable : ∀ j, Raft.SameStable (c.node j).rf (c'.node j).rf := by
    intro j
    by_cases hj : j = v
    · subst hj
      rwa [hnv]
    · rw [hother j hj]
      exact ⟨rfl, rfl, rfl, rfl, rfl, rfl, rfl⟩
  have hballots := (hnet.filterMap Packet.ballot).subset
  have helected : ∀ w T, (w, T) ∈ c'.elected → (w, T) ∈ c.elected ∨
      w = v ∧ T = (c.node v).rf.currentTerm ∧ n < 2 * voters.card := by
    intro w T hw
    rcases hrole with ⟨-, -, he⟩ | ⟨-, hmajor, he⟩ <;> rw [he] at hw
    · exact Or.inl hw
    · rcases List.mem_cons.mp hw with heq | hw
      · cases heq
        exact Or.inr ⟨rfl, rfl, hmajor⟩
      · exact Or.inl hw
  have hkept : c.elected ⊆ c'.elected := by
    rcases hrole with ⟨-, -, he⟩ | ⟨-, -, he⟩ <;> rw [he]
    · exact fun _ hx => hx
    · exact List.subset_cons_self _ _
  refine
    { me := fun j => (hstable j).me.trans (h.me j)
      durable := fun j => (h.durable j).of_sameStable (hstable j)
      past := fun w T x hg => ?_, kept := fun w T x hg ht => ?_, cast := fun w x hw => ?_
      once := hgranted ▸ h.once, stands := hgranted ▸ h.stands
      traffic := hgranted ▸ h.traffic.sublist hnet
      counted := fun w hw => ?_, leads := fun w hw => ?_, won := fun w T hw => ?_ }
  · rw [(hstable w).currentTerm]
    exact h.past w T x (hgranted ▸ hg)
  · rw [(hstable w).votedFor]
    exact h.kept w T x (hgranted ▸ hg) ((hstable w).currentTerm.symm.trans ht)
  · rw [(hstable w).currentTerm, hgranted]
    exact h.cast w x ((hstable w).votedFor.symm.trans hw)
  · rw [(hstable w).currentTerm, hgranted]
    by_cases hwv : w = v
    · subst hwv
      rw [hnv] at hw ⊢
      rcases hrole with ⟨-, hcard, he⟩ | ⟨hl, -, -⟩
      · rw [he]
        exact ⟨(h.counted w hcand).1, voters, hcard, hself, hall⟩
      · rw [hl] at hw
        cases hw
    · rw [hother w hwv] at hw ⊢
      obtain ⟨hnot, others, hcard, hwo, hold⟩ := h.counted w hw
      refine ⟨fun hel => ?_, others, hcard, hwo, fun u hu => ⟨(hold u hu).1, fun hb => ?_⟩⟩
      · rcases helected w _ hel with hel | ⟨he, -⟩
        · exact hnot hel
        · exact hwv he
      · exact (hold u hu).2 (hballots hb)
  · rw [(hstable w).currentTerm]
    by_cases hwv : w = v
    · subst hwv
      rw [hnv] at hw
      rcases hrole with ⟨hc, -, -⟩ | ⟨-, -, he⟩
      · rw [hc] at hw
        cases hw
      · rw [he]
        exact List.mem_cons_self
    · rw [hother w hwv] at hw
      exact hkept (h.leads w hw)
  · rw [hgranted]
    rcases helected w T hw with hw | ⟨rfl, rfl, hmajor⟩
    · exact h.won w T hw
    · refine ⟨voters, ?_, hself, fun u hu => (hall u hu).1⟩
      unfold Majority
      rwa [Fintype.card_fin]

theorem ElectionInv.requestVoteReply {c : Cluster n C D} (h : ElectionInv c) {k : ℕ}
    {p : Packet n C D} {args : RequestVoteArgs n} {r : RequestVoteReply}
    (hp : c.net[k]? = some p) (hbody : p.body = .requestVoteReply args r) :
    ElectionInv (c.deliver p (c.net.eraseIdx k)) := by
  have hd := h.durable p.caller
  have hnet := List.eraseIdx_sublist c.net k
  by_cases halive : (c.node p.caller).incarnation = p.incarnation
  case neg =>
    simp only [Cluster.deliver, hbody]
    rw [if_neg halive]
    exact h.quiet p.caller (c.node p.caller) (Function.update_eq_self _ _).symm
      (Calm.refl hd) (Or.inl rfl) (List.append_nil _).symm hnet nofun rfl rfl
  simp only [Cluster.deliver, hbody]
  rw [if_pos halive]
  rcases (c.node p.caller).handleRequestVoteReply_cases args r with
    hnd | ⟨hlt, hnd⟩ | ⟨hcand, hterm, hr, hnd⟩
  · simp only [hnd]
    exact h.quiet p.caller _ rfl (Calm.refl hd) (Or.inl rfl) (List.append_nil _).symm hnet nofun
      rfl (if_neg fun hl => hl.2 hl.1)
  · simp only [hnd]
    refine h.quiet p.caller _ rfl (Calm.stepDown hd hlt.le) (Or.inl rfl)
      (List.append_nil _).symm hnet nofun rfl ?_
    simp
  · obtain ⟨voters, hcard, hself, hall⟩ := h.counted_insert hp hbody hr hcand hterm
    rcases hnd with hnd | ⟨hmajor, hnd⟩ <;> simp only [hnd]
    · exact h.count rfl ⟨rfl, rfl, rfl, rfl, rfl, rfl, rfl⟩ hcand hnet rfl hself hall
        (Or.inl ⟨hcand, hcard, if_neg fun hl => hl.2 hl.1⟩)
    · exact h.count rfl ⟨rfl, rfl, rfl, rfl, rfl, rfl, rfl⟩ hcand hnet rfl hself hall
        (Or.inr ⟨rfl, by omega, if_pos ⟨rfl, by simp [hcand]⟩⟩)

/-- Every request for a vote that is delivered meets `VoteStands`. -/
def VoteKept (c : Cluster n C D) : Action n C D → Prop
  | .deliver k => ∀ p ∈ c.net[k]?, VoteStands c p
  | _ => True

instance (c : Cluster n C D) (a : Action n C D) : Decidable (VoteKept c a) :=
  match a with
  | .deliver k => inferInstanceAs (Decidable (∀ p ∈ c.net[k]?, VoteStands c p))
  | .startElection _ | .start _ _ | .broadcast _ _ | .drop _ | .pick _ | .send _ _
  | .snapshot _ _ _ | .restart _ => .isTrue trivial

theorem ElectionInv.deliver {c : Cluster n C D} (h : ElectionInv c) {k : ℕ} {p : Packet n C D}
    (hp : c.net[k]? = some p) (hstands : VoteStands c p) :
    ElectionInv (c.deliver p (c.net.eraseIdx k)) := by
  have hnet := List.eraseIdx_sublist c.net k
  have hlost : ElectionInv { c with net := c.net.eraseIdx k } :=
    h.quiet p.caller (c.node p.caller) (Function.update_eq_self _ _).symm
      (Calm.refl (h.durable p.caller)) (Or.inl rfl) (List.append_nil _).symm hnet nofun rfl rfl
  cases hbody : p.body with
  | requestVote args => exact h.requestVote hp hbody hstands
  | requestVoteReply args r => exact h.requestVoteReply hp hbody
  | appendEntries args =>
    simp only [Cluster.deliver, hbody]
    exact h.quiet p.callee _ rfl (Calm.appendEntries (h.durable p.callee) args) (Or.inl rfl) rfl
      hnet (by simp [Packet.ballot]) rfl rfl
  | appendEntriesReply args r =>
    simp only [Cluster.deliver, hbody]
    split_ifs
    · exact h.quiet p.caller _ rfl
        (Calm.handleAppendEntriesReply (h.durable p.caller) p.callee args r) (Or.inl rfl)
        (List.append_nil _).symm hnet nofun rfl rfl
    · exact hlost
  | installSnapshot args =>
    have hcalm := Calm.installSnapshot (h.durable p.callee) args
    simp only [Cluster.deliver, hbody]
    split
    · exact h.quiet p.callee _ rfl hcalm (Or.inl rfl) rfl hnet (by simp [Packet.ballot, SnapshotCall.reply]) rfl
        rfl
    · exact h.quiet p.callee _ rfl hcalm (Or.inl rfl) (List.append_nil _).symm hnet nofun rfl rfl
  | installSnapshotReply args r =>
    simp only [Cluster.deliver, hbody]
    split_ifs
    · exact h.quiet p.caller _ rfl
        (Calm.handleInstallSnapshotReply (h.durable p.caller) p.callee args r) (Or.inl rfl)
        (List.append_nil _).symm hnet nofun rfl rfl
    · exact hlost

theorem ElectionInv.step {c c' : Cluster n C D} {a : Action n C D} (h : ElectionInv c)
    (hkept : VoteKept c a) (hs : c.step a = some c') : ElectionInv c' := by
  cases a with
  | startElection i =>
    cases hs
    exact h.startElection i
  | start i command =>
    cases hs
    exact h.quiet i _ rfl (Calm.start (h.durable i) command) (Or.inl rfl)
      (List.append_nil _).symm (List.Sublist.refl _) nofun rfl rfl
  | broadcast i server =>
    obtain ⟨r, -, -, hr, rfl⟩ := Cluster.step_broadcast hs
    refine h.quiet i _ rfl (Calm.broadcastTo (h.durable i) hr) (Or.inl rfl) rfl
      (List.Sublist.refl _) ?_ rfl rfl
    obtain ⟨rf, request⟩ := r
    cases request <;> simp [Packet.ballot]
  | deliver k =>
    obtain ⟨p, hp, rfl⟩ := Option.map_eq_some_iff.mp hs
    exact h.deliver hp (hkept p hp)
  | drop k =>
    obtain ⟨hk, rfl⟩ := Cluster.step_drop hs
    exact h.quiet (c.net.get ⟨k, hk⟩).caller _ (Function.update_eq_self _ _).symm
      (Calm.refl (h.durable _)) (Or.inl rfl) (List.append_nil _).symm
      (List.eraseIdx_sublist c.net k) nofun rfl rfl
  | pick i =>
    obtain ⟨r, hr, rfl⟩ := Cluster.step_pick hs
    exact h.quiet i _ rfl (Calm.applier (h.durable i) hr) (Or.inl rfl)
      (List.append_nil _).symm (List.Sublist.refl _) nofun rfl rfl
  | send i k =>
    obtain ⟨s, -, rfl⟩ := Option.map_eq_some_iff.mp hs
    refine h.quiet i _ rfl (Calm.refl (h.durable i)) (Or.inl rfl) rfl (List.Sublist.refl _) ?_
      rfl rfl
    cases s.call <;> simp [Packet.ballot, SnapshotCall.reply]
  | snapshot i index bytes =>
    obtain ⟨-, rfl⟩ := Cluster.step_snapshot hs
    exact h.quiet i _ rfl (Calm.snapshot (h.durable i) index bytes) (Or.inl rfl)
      (List.append_nil _).symm (List.Sublist.refl _) nofun rfl rfl
  | restart i =>
    cases hs
    have hmake := Calm.make (h.durable i)
    have hfollower := congrArg Raft.state (Raft.make_of_durable (h.durable i))
    rw [h.me i] at hmake hfollower
    exact h.quiet i _ rfl hmake (Or.inr hfollower) (List.append_nil _).symm
      (List.Sublist.refl _) nofun rfl rfl

/-- A term has one leader, and a server votes for one candidate in a term. -/
def OneVoteOneLeader (c : Cluster n C D) : Prop :=
  (∀ T v w, (v, T) ∈ c.elected → (w, T) ∈ c.elected → v = w) ∧
    ∀ v T x y, (v, T, x) ∈ c.granted → (v, T, y) ∈ c.granted → x = y

/-- In every run in which no request for a vote meets a cleared vote, a server votes for
one candidate in a term and a term has one leader. -/
theorem one_leader_of_voteKept (c : Cluster n C D)
    (h : Reaches Cluster.step VoteKept (Cluster.init n C D) c) : OneVoteOneLeader c := by
  have hinv : ElectionInv c :=
    h.invariant ElectionInv.init fun _ _ _ hc hkept hs => hc.step hkept hs
  exact ⟨fun T v w hv hw => hinv.one_leader hv hw, hinv.once⟩

/-- A cluster of three whose run elects server 0 and lets it send. -/
theorem one_leader_of_voteKept_elected : ∃ c : Cluster 3 ℕ ℕ,
    Reaches Cluster.step VoteKept (Cluster.init 3 ℕ ℕ) c ∧ (0, 1) ∈ c.elected ∧
      (2, 1, 0) ∈ c.granted ∧ OneVoteOneLeader c := by
  obtain ⟨c, hreach, helected, hgranted⟩ :=
    exists_reaches Cluster.step VoteKept (Cluster.init 3 ℕ ℕ)
      [.startElection 0, .deliver 1, .deliver 0, .deliver 0, .broadcast 0 1, .deliver 1, .deliver 0]
      (fun c => (0, 1) ∈ c.elected ∧ (2, 1, 0) ∈ c.granted) (by decide +kernel)
  exact ⟨c, hreach, helected, hgranted, one_leader_of_voteKept c hreach⟩

/-- The votes of server 2 after a heartbeat of leader 0 cleared its vote for 0: servers 0
and 1 both lead term 1. -/
theorem two_leaders_in_one_term : ∃ c : Cluster 3 ℕ ℕ,
    Reaches Cluster.step anyStep (Cluster.init 3 ℕ ℕ) c ∧ ¬OneVoteOneLeader c ∧
      (0, 1) ∈ c.elected ∧ (1, 1) ∈ c.elected ∧ (2, 1, 0) ∈ c.granted ∧
      (2, 1, 1) ∈ c.granted := by
  obtain ⟨c, hreach, h0, h1, hv0, hv1⟩ :=
    exists_reaches Cluster.step anyStep (Cluster.init 3 ℕ ℕ)
      [.startElection 0, .startElection 1, .deliver 1, .deliver 3, .broadcast 0 2, .deliver 3,
        .deliver 2, .deliver 3]
      (fun c => (0, 1) ∈ c.elected ∧ (1, 1) ∈ c.elected ∧ (2, 1, 0) ∈ c.granted ∧
        (2, 1, 1) ∈ c.granted) (by decide +kernel)
  exact ⟨c, hreach, fun h => absurd (h.1 1 0 1 h0 h1) (by decide), h0, h1, hv0, hv1⟩

end DistributedLabs.Raft1
