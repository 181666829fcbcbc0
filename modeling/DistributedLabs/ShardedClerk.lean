import DistributedLabs.ShardMigration

/-!
# `Clerk.Put` of `shardkv1`

A call of `Put` asks `Query` for the group of its key, makes a clerk for that group
and lets it try until a leader answers; an `ErrWrongGroup` sends it back to `Query`,
with a new clerk. Requests may be lost, may be executed long after the call has
given them up, and their replies may be lost as well; controllers move shards
meanwhile. Groups are atomic.

A clerk that has tried before turns `ErrVersion` into `ErrMaybe`. A new clerk for
another group has not tried before, whatever became of the requests of the old one.
-/

namespace DistributedLabs.ShardKv
open Kv RpcPrograms TransitionRuns

inductive Phase
  /-- at the top of the loop of the sharded clerk -/
  | querying
  /-- at the top of the loop of a group's clerk -/
  | calling (gid : Tgid) (isResend : Bool)
  /-- in `clnt.Call` -/
  | waiting (gid : Tgid) (isResend : Bool)
  | returned (err : Err)
  deriving DecidableEq, Repr

/-- A request for `KVServer.Put`; the attempts of a call are numbered. -/
structure PutRpc where
  attempt : ℕ
  gid : Tgid
  deriving DecidableEq, Repr

structure PutCall where
  args : PutArgs GoString GoString
  phase : Phase
  /-- the number of attempts made -/
  sent : ℕ
  /-- requests that are neither executed nor lost -/
  requests : List PutRpc
  /-- the answers of executed requests, with the number of the attempt -/
  replies : List (ℕ × Err)
  /-- history: the number of requests that took effect -/
  effects : ℕ
  deriving DecidableEq, Repr

namespace PutCall

def start (args : PutArgs GoString GoString) : PutCall := ⟨args, .querying, 0, [], [], 0⟩

/-- The configuration that `Query` returns, and a clerk for the group of the key. An empty list of
servers makes the process panic at the first access, and no configuration at all even before. -/
def query (w : World) (c : PutCall) : Option PutCall :=
  match c.phase, w.latest.bind w.config with
  | .querying, some cfg =>
    let gid := cfg.shards (key2Shard c.args.key)
    match cfg.groups.lookup gid with
    | some (_ :: _) => some { c with phase := .calling gid false }
    | _ => none
  | _, _ => none

def send (c : PutCall) : Option PutCall :=
  match c.phase with
  | .calling gid isResend =>
    some { c with
      phase := .waiting gid isResend
      sent := c.sent + 1
      requests := c.requests ++ [⟨c.sent + 1, gid⟩] }
  | _ => none

/-- The attempt timed out or was answered by `ErrWrongLeader`, which says nothing about whether
the request will be executed. -/
def retry (c : PutCall) : Option PutCall :=
  match c.phase with
  | .waiting gid _ => some { c with phase := .calling gid true }
  | _ => none

/-- What the loops make of an answer. -/
def settle (isResend : Bool) (err : Err) : Phase :=
  if isResend ∧ err = .errVersion then .returned .errMaybe
  else if err = .errWrongGroup then .querying
  else .returned err

/-- Only the answer to the latest attempt is read. -/
def receive (i : ℕ) (c : PutCall) : Option PutCall :=
  match c.phase, c.replies[i]? with
  | .waiting _ isResend, some (attempt, err) =>
    if attempt = c.sent then some { c with phase := settle isResend err } else none
  | _, _ => none

def lose (i : ℕ) (c : PutCall) : Option PutCall :=
  if i < c.requests.length then some { c with requests := c.requests.eraseIdx i } else none

def answered (i : ℕ) (rpc : PutRpc) (err : Err) (c : PutCall) : PutCall :=
  { c with
    requests := c.requests.eraseIdx i
    replies := c.replies ++ [(rpc.attempt, err)]
    effects := if err = .ok then c.effects + 1 else c.effects }

/-- A request reaches its group and is executed. -/
def serve (w : World) (i : ℕ) (c : PutCall) : Option (PutCall × World) :=
  (c.requests[i]?).map fun rpc =>
    (c.answered i rpc ((w.group rpc.gid).put c.args).2.err, w.clientPut rpc.gid c.args)

section Inversion
variable {w : World} {c c' : PutCall} {i : ℕ}

theorem query_eq_some (hs : c.query w = some c') : c.phase = .querying ∧
    ∃ l cfg, w.latest = some l ∧ w.config l = some cfg ∧
      c' = { c with phase := .calling (cfg.shards (key2Shard c.args.key)) false } := by
  unfold query at hs
  split at hs
  case h_2 => cases hs
  case h_1 cfg hphase hcfg =>
    obtain ⟨l, hlatest, hconfig⟩ := Option.bind_eq_some_iff.mp hcfg
    simp only at hs
    split at hs
    case h_2 => cases hs
    case h_1 =>
      cases hs
      exact ⟨hphase, l, cfg, hlatest, hconfig, rfl⟩

theorem send_eq_some (hs : c.send = some c') : ∃ gid isResend, c.phase = .calling gid isResend ∧
    c' = { c with
      phase := .waiting gid isResend
      sent := c.sent + 1
      requests := c.requests ++ [⟨c.sent + 1, gid⟩] } := by
  unfold send at hs
  split at hs
  case h_2 => cases hs
  case h_1 gid isResend hphase =>
    cases hs
    exact ⟨gid, isResend, hphase, rfl⟩

theorem retry_eq_some (hs : c.retry = some c') : ∃ gid isResend, c.phase = .waiting gid isResend ∧
    c' = { c with phase := .calling gid true } := by
  unfold retry at hs
  split at hs
  case h_2 => cases hs
  case h_1 gid isResend hphase =>
    cases hs
    exact ⟨gid, isResend, hphase, rfl⟩

theorem receive_eq_some (hs : c.receive i = some c') : ∃ gid isResend err,
    c.phase = .waiting gid isResend ∧ c.replies[i]? = some (c.sent, err) ∧
      c' = { c with phase := settle isResend err } := by
  unfold receive at hs
  split at hs
  case h_2 => cases hs
  case h_1 gid isResend attempt err hphase hreply =>
    split_ifs at hs with hattempt
    cases hs
    exact ⟨gid, isResend, err, hphase, hattempt ▸ hreply, rfl⟩

theorem lose_eq_some (hs : c.lose i = some c') :
    i < c.requests.length ∧ c' = { c with requests := c.requests.eraseIdx i } := by
  unfold lose at hs
  split_ifs at hs with hi
  cases hs
  exact ⟨hi, rfl⟩

end Inversion

end PutCall

structure Deployment (B : Type) where
  sys : System B
  calls : ℕ → Option PutCall

inductive ClerkAction
  | query
  | send
  | retry
  | receive (i : ℕ)
  | lose (i : ℕ)

def PutCall.act (w : World) (c : PutCall) : ClerkAction → Option PutCall
  | .query => c.query w
  | .send => c.send
  | .retry => c.retry
  | .receive i => c.receive i
  | .lose i => c.lose i

inductive Event
  | controllers (a : Action)
  | invoke (k : ℕ) (args : PutArgs GoString GoString)
  | clerk (k : ℕ) (a : ClerkAction)
  | serve (k i : ℕ)

/-- The clients are the calls here, not the anonymous ones. -/
def Action.anonymous : Action → Bool
  | .clientGet _ _ | .clientPut _ _ => true
  | .spawn | .change _ _ | .attempt _ _ | .retire _ => false

namespace Deployment
variable {B : Type}

def init (json : Json B) (first : ShardConfig) : Deployment B := ⟨System.init json first, fun _ => none⟩

def setCall (d : Deployment B) (k : ℕ) (c : PutCall) : Deployment B :=
  { d with calls := Function.update d.calls k (some c) }

def setWorld (d : Deployment B) (w : World) : Deployment B :=
  { d with sys := { d.sys with world := w } }

def step (json : Json B) (d : Deployment B) : Event → Option (Deployment B)
  | .controllers a =>
    if a.anonymous then none else (d.sys.step json a).map fun sys => { d with sys := sys }
  | .invoke k args =>
    match d.calls k with
    | none => some (d.setCall k (.start args))
    | some _ => none
  | .clerk k a => do
    let c ← d.calls k
    let c' ← c.act d.sys.world a
    pure (d.setCall k c')
  | .serve k i => do
    let c ← d.calls k
    let r ← c.serve d.sys.world i
    pure ((d.setWorld r.2).setCall k r.1)

section Inversion
variable {json : Json B} {d d' : Deployment B} {k i : ℕ}

theorem step_controllers {a : Action} (hs : d.step json (.controllers a) = some d') :
    a.anonymous = false ∧ ∃ sys, d.sys.step json a = some sys ∧ d' = { d with sys := sys } := by
  simp only [step] at hs
  split_ifs at hs with ha
  obtain ⟨sys, hsys, rfl⟩ := Option.map_eq_some_iff.mp hs
  exact ⟨Bool.eq_false_iff.mpr ha, sys, hsys, rfl⟩

theorem step_invoke {args : PutArgs GoString GoString}
    (hs : d.step json (.invoke k args) = some d') : d' = d.setCall k (.start args) := by
  simp only [step] at hs
  split at hs
  case h_2 => cases hs
  case h_1 =>
    cases hs
    rfl

theorem step_clerk {a : ClerkAction} (hs : d.step json (.clerk k a) = some d') :
    ∃ c c', d.calls k = some c ∧ c.act d.sys.world a = some c' ∧ d' = d.setCall k c' := by
  simp only [step, Option.bind_eq_bind, Option.bind_eq_some_iff] at hs
  obtain ⟨c, hc, c', hc', heq⟩ := hs
  cases heq
  exact ⟨c, c', hc, hc', rfl⟩

theorem step_serve (hs : d.step json (.serve k i) = some d') : ∃ c c' w', d.calls k = some c ∧
    c.serve d.sys.world i = some (c', w') ∧ d' = (d.setWorld w').setCall k c' := by
  simp only [step, Option.bind_eq_bind, Option.bind_eq_some_iff] at hs
  obtain ⟨c, hc, ⟨c', w'⟩, hr, heq⟩ := hs
  cases heq
  exact ⟨c, c', w', hc, hr, rfl⟩

end Inversion

end Deployment

instance (kv : KVServer) (s : Tshid) : Decidable (kv.Accepts s) :=
  inferInstanceAs (Decidable (_ ∧ _))

/-- Migrations move the entries with their versions: a group that executes a `Put` and takes
operations on its shard holds the key as the `Put`s before have left it. -/
def EntryMoved (w : World) (gid : Tgid) (key : GoString) : Prop :=
  (w.group gid).Accepts (key2Shard key) → (w.group gid).keyValue key = w.truth key

instance (w : World) (gid : Tgid) (key : GoString) : Decidable (EntryMoved w gid key) :=
  inferInstanceAs (Decidable (_ → _))

section Guards
variable {B : Type}

def EntriesMoved (d : Deployment B) : Event → Prop
  | .serve k i => ∀ c ∈ d.calls k, ∀ rpc ∈ c.requests[i]?, EntryMoved d.sys.world rpc.gid c.args.key
  | _ => True

instance (d : Deployment B) (e : Event) : Decidable (EntriesMoved d e) :=
  match e with
  | .serve k _ => inferInstanceAs (Decidable (∀ c ∈ d.calls k, _))
  | .controllers _ | .invoke _ _ | .clerk _ _ => .isTrue trivial

/-- A call is answered by `ErrWrongGroup` only if none of its requests has taken effect or is
still under way, and no version wraps around. -/
def Unambiguous (d : Deployment B) : Event → Prop
  | .clerk k (.receive i) => ∀ c ∈ d.calls k, ∀ r ∈ c.replies[i]?, r = (c.sent, .errWrongGroup) →
      c.effects = 0 ∧ c.requests = []
  | .serve k _ => ∀ c ∈ d.calls k, (versionOf d.sys.world.truth c.args.key).toNat + 1 < UInt64.size
  | _ => True

instance (d : Deployment B) (e : Event) : Decidable (Unambiguous d e) :=
  match e with
  | .clerk k (.receive _) => inferInstanceAs (Decidable (∀ c ∈ d.calls k, _))
  | .serve k _ => inferInstanceAs (Decidable (∀ c ∈ d.calls k, _))
  | .controllers _ | .invoke _ _ | .clerk _ .query | .clerk _ .send | .clerk _ .retry
  | .clerk _ (.lose _) => .isTrue trivial

end Guards

/-- The call has to be sure that nothing has come of it. -/
def Phase.blank : Phase → Bool
  | .querying | .calling _ false | .returned .errVersion => true
  | _ => false

/-- The call will believe an `ErrVersion`. -/
def Phase.trusting : Phase → Bool
  | .waiting _ false => true
  | _ => false

namespace PutCall

/-- Nothing the call sent has taken effect or can still do so. -/
def Clean (c : PutCall) : Prop := c.effects = 0 ∧ c.requests = []

/-- The latest attempt is the only one that matters. -/
inductive Single (c : PutCall) : Prop
  | underWay (gid : Tgid) (effects : c.effects = 0) (requests : c.requests = [⟨c.sent, gid⟩])
      (unanswered : ∀ r ∈ c.replies, r.1 < c.sent)
  | settled (requests : c.requests = [])
      (truthful : ∀ r ∈ c.replies, r.1 = c.sent → r.2 ≠ .ok → c.effects = 0)

structure Accounted (w : World) (c : PutCall) : Prop where
  requests : ∀ rpc ∈ c.requests, rpc.attempt ≤ c.sent
  replies : ∀ r ∈ c.replies, r.1 ≤ c.sent
  ok : ∀ r ∈ c.replies, r.2 = .ok → 0 < c.effects
  once : c.effects ≤ 1
  /-- the version that the call names is over once it has taken effect -/
  past : 0 < c.effects → c.args.version.toNat < (versionOf w.truth c.args.key).toNat
  blank : c.phase.blank → c.Clean
  trusting : c.phase.trusting → c.Single
  returned : c.phase = .returned .ok → 0 < c.effects

end PutCall

/-- No key has gone back to an earlier version. -/
def VersionsGrow (w w' : World) : Prop :=
  ∀ key, (versionOf w.truth key).toNat ≤ (versionOf w'.truth key).toNat

theorem VersionsGrow.of_truth {w w' : World} (h : w'.truth = w.truth) : VersionsGrow w w' := by
  intro key
  rw [h]

section Serving
variable {w : World} {gid : Tgid} {a : PutArgs GoString GoString}

/-- A `Put` that takes effect names the current version and writes the next one. -/
theorem truth_clientPut_of_ok (hm : EntryMoved w gid a.key)
    (hok : ((w.group gid).put a).2.err = .ok) : a.version = versionOf w.truth a.key ∧
      (w.clientPut gid a).truth = Function.update w.truth a.key (some ⟨a.value, a.version + 1⟩) := by
  have ha : (w.group gid).Accepts (key2Shard a.key) := by
    rcases (w.group gid).accepts_or_turnsAway (key2Shard a.key) with ha | ht
    · exact ha
    · rw [KVServer.put_of_turnsAway a ht] at hok
      cases hok
  have hok' : (doPut w.truth a).2.err = .ok := by
    rw [KVServer.put_of_accepts a ha, (doPut_congr (hm ha)).1] at hok
    exact hok
  obtain ⟨hversion, htruth⟩ := doPut_of_ok hok'
  refine ⟨hversion, ?_⟩
  rw [← htruth, World.truth, World.clientPut]
  simp only [hok, if_true]
  exact applyPuts_append w.puts a

theorem truth_clientPut_of_not_ok (hok : ((w.group gid).put a).2.err ≠ .ok) :
    (w.clientPut gid a).truth = w.truth := by
  simp [World.truth, World.clientPut, hok]

theorem version_clientPut_of_ok (hm : EntryMoved w gid a.key)
    (hlast : (versionOf w.truth a.key).toNat + 1 < UInt64.size)
    (hok : ((w.group gid).put a).2.err = .ok) :
    (versionOf (w.clientPut gid a).truth a.key).toNat = a.version.toNat + 1 := by
  obtain ⟨hversion, htruth⟩ := truth_clientPut_of_ok hm hok
  rw [← hversion] at hlast
  have hnext : (a.version + 1).toNat = a.version.toNat + 1 := by
    rw [UInt64.toNat_add]
    exact Nat.mod_eq_of_lt hlast
  rw [htruth, versionOf, Function.update_self]
  exact hnext

theorem versionsGrow_clientPut (hm : EntryMoved w gid a.key)
    (hlast : (versionOf w.truth a.key).toNat + 1 < UInt64.size) :
    VersionsGrow w (w.clientPut gid a) := by
  by_cases hok : ((w.group gid).put a).2.err = .ok
  · intro key
    obtain ⟨hversion, htruth⟩ := truth_clientPut_of_ok hm hok
    rcases eq_or_ne key a.key with rfl | hne
    · rw [version_clientPut_of_ok hm hlast hok, hversion]
      exact Nat.le_succ _
    · rw [htruth, versionOf, versionOf, Function.update_of_ne hne]
  · exact .of_truth (truth_clientPut_of_not_ok hok)

end Serving

namespace PutCall
variable {w w' : World} {c c' : PutCall}

theorem Accounted.grow (h : c.Accounted w) (hg : VersionsGrow w w') : c.Accounted w' :=
  { h with past := fun he => (h.past he).trans_le (hg c.args.key) }

theorem accounted_start (args : PutArgs GoString GoString) : (start args).Accounted w :=
  ⟨nofun, nofun, nofun, Nat.zero_le _, nofun, fun _ => ⟨rfl, rfl⟩, nofun, nofun⟩

theorem Accounted.query (h : c.Accounted w) (hs : c.query w = some c') : c'.Accounted w := by
  obtain ⟨hphase, -, -, -, -, rfl⟩ := query_eq_some hs
  have hclean : c.Clean := h.blank (by rw [hphase]; rfl)
  exact { h with blank := fun _ => hclean, trusting := nofun, returned := nofun }

theorem Accounted.send (h : c.Accounted w) (hs : c.send = some c') : c'.Accounted w := by
  obtain ⟨gid, isResend, hphase, rfl⟩ := send_eq_some hs
  refine ⟨fun rpc hrpc => ?_, fun r hr => (h.replies r hr).trans (Nat.le_succ _), h.ok, h.once,
    h.past, nofun, fun htrust => ?_, nofun⟩
  · rcases List.mem_append.mp hrpc with hrpc | hrpc
    · exact (h.requests rpc hrpc).trans (Nat.le_succ _)
    · rw [List.mem_singleton.mp hrpc]
  · cases isResend with
    | true => cases htrust
    | false =>
      obtain ⟨heffects, hnone⟩ := h.blank (by rw [hphase]; rfl)
      refine .underWay gid heffects ?_ fun r hr => Nat.lt_succ_of_le (h.replies r hr)
      simp [hnone]

theorem Accounted.retry (h : c.Accounted w) (hs : c.retry = some c') : c'.Accounted w := by
  obtain ⟨gid, isResend, -, rfl⟩ := retry_eq_some hs
  exact { h with blank := nofun, trusting := nofun, returned := nofun }

theorem Accounted.lose {i : ℕ} (h : c.Accounted w) (hs : c.lose i = some c') :
    c'.Accounted w := by
  obtain ⟨hi, rfl⟩ := lose_eq_some hs
  refine ⟨fun rpc hrpc => h.requests rpc (List.mem_of_mem_eraseIdx hrpc), h.replies, h.ok, h.once,
    h.past, fun hblank => ?_, fun htrust => ?_, h.returned⟩
  · obtain ⟨heffects, hnone⟩ := h.blank hblank
    exact ⟨heffects, by simp [hnone]⟩
  · cases h.trusting htrust with
    | underWay gid heffects hrequests hunanswered =>
      have hi0 : i = 0 := by simpa [hrequests] using hi
      apply Single.settled (by simp [hrequests, hi0])
      exact fun r hr hlast => absurd hlast (hunanswered r hr).ne
    | settled hrequests htruthful => exact .settled (by simp [hrequests]) htruthful

theorem Accounted.receive {i : ℕ} (h : c.Accounted w)
    (hg : ∀ r ∈ c.replies[i]?, r = (c.sent, .errWrongGroup) → c.effects = 0 ∧ c.requests = [])
    (hs : c.receive i = some c') : c'.Accounted w := by
  obtain ⟨gid, isResend, err, hphase, hreply, rfl⟩ := receive_eq_some hs
  have hmem := List.mem_of_getElem? hreply
  refine { h with blank := fun hblank => ?_, trusting := fun htrust => ?_, returned := fun hok => ?_ }
  · change (settle isResend err).blank = true at hblank
    unfold settle at hblank
    split_ifs at hblank with hmaybe haway
    · cases hblank
    · exact hg _ hreply (by rw [haway])
    · obtain rfl : err = .errVersion := by
        cases err <;> first | rfl | cases hblank
      have hfirst : isResend = false := by simpa using hmaybe
      cases h.trusting (by rw [hphase, hfirst]; rfl) with
      | underWay gid heffects hrequests hunanswered =>
        exact absurd rfl (hunanswered _ hmem).ne
      | settled hrequests htruthful => exact ⟨htruthful _ hmem rfl nofun, hrequests⟩
  · change (settle isResend err).trusting = true at htrust
    unfold settle at htrust
    split_ifs at htrust <;> cases htrust
  · change settle isResend err = _ at hok
    unfold settle at hok
    split_ifs at hok
    · cases hok
    · exact h.ok _ hmem (Phase.returned.inj hok)

theorem Accounted.act {a : ClerkAction} (h : c.Accounted w)
    (hg : ∀ i, a = .receive i → ∀ r ∈ c.replies[i]?, r = (c.sent, .errWrongGroup) →
      c.effects = 0 ∧ c.requests = [])
    (hs : c.act w a = some c') : c'.Accounted w := by
  cases a with
  | query => exact h.query hs
  | send => exact h.send hs
  | retry => exact h.retry hs
  | receive i => exact h.receive (hg i rfl) hs
  | lose i => exact h.lose hs

theorem Accounted.answered {i : ℕ} {rpc : PutRpc} {err : Err} (h : c.Accounted w)
    (hrpc : c.requests[i]? = some rpc) (hgrow : VersionsGrow w w')
    (hok : err = .ok → c.effects = 0 ∧
      c.args.version.toNat < (versionOf w'.truth c.args.key).toNat) :
    (c.answered i rpc err).Accounted w' := by
  have hmem := List.mem_of_getElem? hrpc
  have heffects : c.effects ≤ (c.answered i rpc err).effects := by
    unfold PutCall.answered
    split_ifs
    · exact Nat.le_succ _
    · exact le_rfl
  refine ⟨fun rpc hrpc => h.requests rpc (List.mem_of_mem_eraseIdx hrpc), fun r hr => ?_,
    fun r hr hrok => ?_, ?_, fun heffect => ?_, fun hblank => ?_, fun htrust => ?_,
    fun hret => (h.returned hret).trans_le heffects⟩
  · rcases List.mem_append.mp hr with hr | hr
    · exact h.replies r hr
    · rw [List.mem_singleton.mp hr]
      exact h.requests rpc hmem
  · rcases List.mem_append.mp hr with hr | hr
    · exact (h.ok r hr hrok).trans_le heffects
    · obtain rfl : err = .ok := by simpa [List.mem_singleton.mp hr] using hrok
      simp [PutCall.answered]
  · by_cases he : err = .ok
    · simp [PutCall.answered, he, (hok he).1]
    · simp [PutCall.answered, he, h.once]
  · by_cases he : err = .ok
    · exact (hok he).2
    · simp only [PutCall.answered, he, if_false] at heffect
      exact (h.past heffect).trans_le (hgrow c.args.key)
  · rw [(h.blank hblank).2] at hmem
    cases hmem
  · cases h.trusting htrust with
    | underWay gid heffects hrequests hunanswered =>
      have hi0 : i = 0 := by
        obtain ⟨hi, -⟩ := List.getElem?_eq_some_iff.mp hrpc
        simpa [hrequests] using hi
      refine .settled (by simp [PutCall.answered, hrequests, hi0]) fun r hr hlast hnot => ?_
      rcases List.mem_append.mp hr with hr | hr
      · exact absurd hlast (hunanswered r hr).ne
      · rw [List.mem_singleton.mp hr] at hnot
        simpa [PutCall.answered, hnot] using heffects
    | settled hrequests htruthful =>
      rw [hrequests] at hmem
      cases hmem

theorem Accounted.serve {i : ℕ} (h : c.Accounted w)
    (hm : ∀ rpc ∈ c.requests[i]?, EntryMoved w rpc.gid c.args.key)
    (hlast : (versionOf w.truth c.args.key).toNat + 1 < UInt64.size)
    (hs : c.serve w i = some (c', w')) : c'.Accounted w' ∧ VersionsGrow w w' := by
  obtain ⟨rpc, hrpc, heq⟩ := Option.map_eq_some_iff.mp hs
  cases heq
  have hmoved := hm rpc hrpc
  have hgrow := versionsGrow_clientPut hmoved hlast
  refine ⟨h.answered hrpc hgrow fun hok => ⟨?_, ?_⟩, hgrow⟩
  · by_contra heffects
    have hpast := h.past (Nat.pos_of_ne_zero heffects)
    rw [← (truth_clientPut_of_ok hmoved hok).1] at hpast
    exact Nat.lt_irrefl _ hpast
  · rw [version_clientPut_of_ok hmoved hlast hok]
    exact Nat.lt_succ_self _

end PutCall

section Runs
variable {B : Type} {json : Json B}

theorem puts_serve (w : World) (op : Op B) : ((service json).serve w op).2.puts = w.puts := by
  cases op <;> rfl

theorem puts_attempt {α : Type} {t t' : Running (Op.Ans (B := B)) α} {o : Outcome} {w w' : World}
    (hs : t.attempt (service json) o w = some (t', w')) : w'.puts = w.puts := by
  unfold Running.attempt at hs
  split at hs
  case h_2 => cases hs
  case h_1 op next _ =>
    cases o with
    | requestLost =>
      cases hs
      rfl
    | replyLost =>
      cases hs
      exact puts_serve w op
    | answered =>
      simp only at hs
      split at hs
      all_goals
        cases hs
        exact puts_serve w op

/-- The calls of controllers are no client's `Put`s. -/
theorem puts_step {sys sys' : System B} {a : Action} (ha : a.anonymous = false)
    (hs : sys.step json a = some sys') : sys'.world.puts = sys.world.puts := by
  cases a with
  | spawn =>
    cases hs
    rfl
  | change i new =>
    obtain ⟨-, -, -, -, rfl⟩ := System.step_change hs
    rfl
  | attempt i o =>
    obtain ⟨t, t', w', -, hr, rfl⟩ := System.step_attempt hs
    cases t with
    | starting run =>
      obtain ⟨r, hrun, heq⟩ := Option.map_eq_some_iff.mp hr
      cases heq
      exact puts_attempt hrun
    | changing new run =>
      obtain ⟨r, hrun, heq⟩ := Option.map_eq_some_iff.mp hr
      cases heq
      exact puts_attempt hrun
  | retire i => rw [System.step_retire hs]
  | clientGet gid args => cases ha
  | clientPut gid args => cases ha

theorem forall_calls_setCall {P : PutCall → Prop} {d : Deployment B} {k : ℕ} {c : PutCall}
    (h : ∀ k c, d.calls k = some c → P c) (hc : P c) (k' : ℕ) (c' : PutCall)
    (hc' : (d.setCall k c).calls k' = some c') : P c' := by
  rcases eq_or_ne k' k with rfl | hk
  · simp only [Deployment.setCall, Function.update_self, Option.some.injEq] at hc'
    exact hc' ▸ hc
  · simp only [Deployment.setCall, Function.update_of_ne hk] at hc'
    exact h k' c' hc'

def AllAccounted (d : Deployment B) : Prop :=
  ∀ k c, d.calls k = some c → c.Accounted d.sys.world

theorem AllAccounted.setCall {d : Deployment B} (h : AllAccounted d) {k : ℕ} {c : PutCall}
    (hc : c.Accounted d.sys.world) : AllAccounted (d.setCall k c) := forall_calls_setCall h hc

/-- The runs in which every `ErrVersion` and `OK` can be believed. -/
def Steady (d : Deployment B) (e : Event) : Prop := EntriesMoved d e ∧ Unambiguous d e

instance (d : Deployment B) (e : Event) : Decidable (Steady d e) :=
  inferInstanceAs (Decidable (_ ∧ _))

theorem AllAccounted.step {d d' : Deployment B} {e : Event} (h : AllAccounted d)
    (hg : Steady d e) (hs : d.step json e = some d') : AllAccounted d' := by
  cases e with
  | controllers a =>
    obtain ⟨ha, sys, hsys, rfl⟩ := Deployment.step_controllers hs
    have htruth : sys.world.truth = d.sys.world.truth := congrArg applyPuts (puts_step ha hsys)
    exact fun k c hc => (h k c hc).grow (.of_truth htruth)
  | invoke k args =>
    rw [Deployment.step_invoke hs]
    exact h.setCall (PutCall.accounted_start args)
  | clerk k a =>
    obtain ⟨c, c', hc, hc', rfl⟩ := Deployment.step_clerk hs
    apply h.setCall
    refine (h k c hc).act ?_ hc'
    rintro i rfl
    exact hg.2 c hc
  | serve k i =>
    obtain ⟨c, c', w', hc, hr, rfl⟩ := Deployment.step_serve hs
    obtain ⟨haccounted, hgrow⟩ := (h k c hc).serve (hg.1 c hc) (hg.2 c hc) hr
    have hothers : AllAccounted (d.setWorld w') := fun k c hc => (h k c hc).grow hgrow
    exact hothers.setCall haccounted

/-- In every steady run, a call that returned `ErrVersion` has had no effect, and one that
returned `OK` has had exactly one. -/
theorem put_result_sound {first : ShardConfig} (d : Deployment B)
    (h : Reaches (Deployment.step json) Steady (Deployment.init json first) d) (k : ℕ) (c : PutCall)
    (hc : d.calls k = some c) :
    (c.phase = .returned .errVersion → c.effects = 0) ∧
      (c.phase = .returned .ok → c.effects = 1) := by
  have hinit : AllAccounted (Deployment.init json first) := nofun
  have hkept : ∀ d e d', AllAccounted d → Steady d e → Deployment.step json d e = some d' →
      AllAccounted d' := fun d e d' ha hg hstep => ha.step hg hstep
  have haccounted := h.invariant hinit hkept k c hc
  constructor
  · intro hphase
    exact (haccounted.blank (by rw [hphase]; rfl)).1
  · intro hphase
    exact Nat.le_antisymm haccounted.once (haccounted.returned hphase)

/-- The attempts that take shard 0 from group 1 to group 2. -/
def moveShardZero : List Event :=
  .controllers .spawn :: List.replicate 4 (.controllers (.attempt 0 .answered)) ++
    .controllers (.change 0 (twoGroups 2 2)) ::
      List.replicate 13 (.controllers (.attempt 0 .answered))

/-- The loops of a call, from `Query` to the answer, without losses. -/
def onePass (k : ℕ) (reply : ℕ) : List Event :=
  [.clerk k .query, .clerk k .send, .serve k 0, .clerk k (.receive reply)]

/-- A call finds its shard moved away and succeeds at the new group; a second one that names the
same version fails. -/
theorem put_result_sound_moved : ∃ (d : Deployment Entries) (c c' : PutCall),
    Reaches (Deployment.step plainJson) Steady (Deployment.init plainJson (twoGroups 1 1)) d ∧
      d.calls 0 = some c ∧ d.calls 1 = some c' ∧ c.sent = 2 ∧
      c.phase = .returned .ok ∧ c.effects = 1 ∧
      c'.phase = .returned .errVersion ∧ c'.effects = 0 := by
  obtain ⟨d, hreach, c, hc, c', hc', hsent, hok, hversion⟩ :=
    exists_reaches (Deployment.step plainJson) Steady (Deployment.init plainJson (twoGroups 1 1))
      ([[.invoke 0 ⟨[109], [120], 0⟩, .clerk 0 .query], moveShardZero,
        [.clerk 0 .send, .serve 0 0, .clerk 0 (.receive 0)], onePass 0 1,
        .invoke 1 ⟨[109], [121], 0⟩ :: onePass 1 0] : List (List Event)).flatten
      (fun d => ∃ c ∈ d.calls 0, ∃ c' ∈ d.calls 1, c.sent = 2 ∧ c.phase = .returned .ok ∧
        c'.phase = .returned .errVersion)
      (by decide +kernel)
  exact ⟨d, c, c', hreach, hc, hc', hsent, hok, (put_result_sound d hreach 0 c hc).2 hok, hversion,
    (put_result_sound d hreach 1 c' hc').1 hversion⟩

/-- A `Put` takes effect at group 1 and its answer is lost. When the clerk tries again, the shard
has moved to group 2; the new clerk gets `ErrVersion` there, at its first try, and the call
returns it. -/
theorem put_returns_errVersion_after_effect : ∃ (d : Deployment Entries) (c : PutCall),
    Reaches (Deployment.step plainJson) EntriesMoved (Deployment.init plainJson (twoGroups 1 1)) d ∧
      d.calls 0 = some c ∧ c.phase = .returned .errVersion ∧ c.effects = 1 := by
  obtain ⟨d, hreach, c, hc, hphase, heffects⟩ :=
    exists_reaches (Deployment.step plainJson) EntriesMoved
      (Deployment.init plainJson (twoGroups 1 1))
      ([[.invoke 0 ⟨[109], [120], 0⟩, .clerk 0 .query, .clerk 0 .send, .serve 0 0,
        .clerk 0 .retry], moveShardZero,
        [.clerk 0 .send, .serve 0 0, .clerk 0 (.receive 1)],
        onePass 0 2] : List (List Event)).flatten
      (fun d => ∃ c ∈ d.calls 0, c.phase = .returned .errVersion ∧ c.effects = 1)
      (by decide +kernel)
  exact ⟨d, c, hreach, hc, hphase, heffects⟩

end Runs

end DistributedLabs.ShardKv
