import DistributedLabs.RpcPrograms
import DistributedLabs.ShardCfg

/-!
# The controller of `shardkv1`

The configurations, the keys under which the controller keeps them in its kvraft
store, and `InitController`, `ChangeConfigTo` and `Query` as programs of calls to
that store and to the shard groups. Store and groups are atomic; the controllers
run in any number and any interleaving, together with clients that ask `Query`
for the group of a key.
-/

namespace DistributedLabs.ShardKv
open Kv RpcPrograms TransitionRuns

/-- Published configurations are counted from 0. -/
abbrev ShardConfig := ShardCfg.ShardConfig ℕ

/-- A string in the controller's store: empty, a printed number or a configuration. -/
inductive CtrlValue
  | empty
  | num (n : ℕ)
  | config (cfg : ShardConfig)
  deriving DecidableEq

instance : Inhabited CtrlValue := ⟨.empty⟩

/-- `strconv.Atoi` with its error ignored. -/
def CtrlValue.atoi : CtrlValue → ℕ
  | .num n => n
  | _ => 0

/-- `"latest"` or `"config-"` followed by a string. -/
inductive CtrlKey
  | latest
  | config (suffix : CtrlValue)
  deriving DecidableEq

inductive Op (B : Type)
  | get (key : CtrlKey)
  /-- the `Get` of `InitController` that only wants the version of `latest`; `pending` is the
  number of the configuration that it found unfinished -/
  | readVersion (key : CtrlKey) (pending : ℕ)
  | put (args : PutArgs CtrlKey CtrlValue)
  | freezeShard (gid : Tgid) (args : FreezeShardArgs)
  | installShard (gid : Tgid) (args : InstallShardArgs B)
  | deleteShard (gid : Tgid) (args : DeleteShardArgs)

@[reducible] def Op.Ans {B : Type} : Op B → Type
  | .get _ | .readVersion _ _ => GetReply CtrlValue
  | .put _ | .installShard _ _ | .deleteShard _ _ => Err
  | .freezeShard _ _ => FreezeShardReply B

abbrev Ctrl (B α : Type) := Prog (Op.Ans (B := B)) α

variable {B : Type}

/-- `shardcfg.FromString`; a string that is no configuration ends the process. -/
def fromString : CtrlValue → Ctrl B ShardConfig
  | .config cfg => .pure cfg
  | _ => .halt

/-- The servers listed for a group are its own, so a clerk for them talks to the group; `ck.servers[0]`
of an empty list ends the process. -/
def makeClerk (gid : Tgid) : Option (List GoString) → Ctrl B Tgid
  | some (_ :: _) => .pure gid
  | _ => .halt

def query : Ctrl B (Option ShardConfig) :=
  .call (.get .latest) fun latest =>
    if latest.err ≠ .ok then .pure none
    else .call (.get (.config latest.value)) fun stored =>
      if stored.err ≠ .ok then .pure none
      else do
        let cfg ← fromString stored.value
        pure (some cfg)

def getServersForGroup (gid : Tgid) : Ctrl B (Option (List GoString)) := do
  match ← query with
  | none => .halt
  | some cfg => pure (cfg.groups.lookup gid)

/-- The three calls that move a shard; the target's servers are looked up after the freeze. -/
def handOver (fromCk toGid : Tgid) (toServers : Option (List GoString)) (shard : Tshid) (num : ℕ) :
    Ctrl B PUnit :=
  .call (.freezeShard fromCk ⟨shard, num⟩) fun frozen => do
    let toCk ← makeClerk toGid toServers
    .call (.installShard toCk ⟨shard, frozen.state, num⟩) fun _ =>
      .call (.deleteShard fromCk ⟨shard, num⟩) fun _ => .pure ⟨⟩

def migrateShard (fromGid toGid : Tgid) (shard : Tshid) (num : ℕ) (new : ShardConfig) :
    Ctrl B PUnit := do
  let currentCfg ← query
  if ∃ cfg ∈ currentCfg, cfg.shards shard ≠ fromGid then pure ⟨⟩
  else do
    let servers ← getServersForGroup fromGid
    let fromCk ← makeClerk fromGid servers
    handOver fromCk toGid (new.groups.lookup toGid) shard num

def removeShard (gid : Tgid) (shard : Tshid) (num : ℕ) : Ctrl B PUnit := do
  let servers ← getServersForGroup gid
  let ck ← makeClerk gid servers
  .call (.deleteShard ck ⟨shard, num⟩) fun _ => .pure ⟨⟩

/-- One round of the loop over the shards, in `InitController` and `ChangeConfigTo` alike. -/
def moveShard (old new : ShardConfig) (shard : Tshid) : Ctrl B PUnit :=
  let oldGid := old.shards shard
  let newGid := new.shards shard
  if oldGid = newGid then pure ⟨⟩
  else if oldGid ≠ 0 ∧ newGid ≠ 0 then migrateShard oldGid newGid shard new.num new
  else if oldGid ≠ 0 then removeShard oldGid shard new.num
  else pure ⟨⟩

def moveShards (old new : ShardConfig) : Ctrl B PUnit := (List.finRange 12).forM (moveShard old new)

/-- The last step of a change. -/
def publish (num : ℕ) (version : Tversion) : Ctrl B PUnit :=
  .call (.put ⟨.latest, .num num, version⟩) fun _ => .pure ⟨⟩

/-- The search for the highest configuration behind `latest`, up to the first gap. -/
def findPending (latestNum : ℕ) : List ℕ → ℕ × CtrlValue → Ctrl B (ℕ × CtrlValue)
  | [], found => .pure found
  | i :: rest, found =>
    .call (.get (.config (.num (latestNum + i)))) fun stored =>
      if stored.err = .ok then findPending latestNum rest (latestNum + i, stored.value)
      else .pure found

/-- The part of `InitController` that finishes the change to `newCfg`. -/
def recover (nextNum : ℕ) (newCfg : ShardConfig) : Ctrl B PUnit := do
  match ← query with
  | none => pure ⟨⟩
  | some oldCfg =>
    .call (.readVersion .latest nextNum) fun latest => do
      moveShards oldCfg newCfg
      publish nextNum latest.version

def initController : Ctrl B PUnit :=
  .call (.get .latest) fun latest =>
    if latest.err ≠ .ok then .pure ⟨⟩
    else do
      let found ← findPending latest.value.atoi (List.range' 1 100) (0, .empty)
      if found.1 = 0 then pure ⟨⟩
      else do
        let newCfg ← fromString found.2
        recover found.1 newCfg

/-- The part of `ChangeConfigTo` behind the claim of the number. -/
def carryOut (old new : ShardConfig) : Ctrl B PUnit :=
  .call (.get .latest) fun latest =>
    .call (.get .latest) fun latest2 =>
      if latest2.value ≠ latest.value ∧ latest2.value.atoi ≥ new.num then .pure ⟨⟩
      else if latest2.value.atoi ≥ new.num then .pure ⟨⟩
      else do
        moveShards old new
        publish new.num latest.version

def changeConfigTo (new : ShardConfig) : Ctrl B PUnit := do
  match ← query with
  | none => pure ⟨⟩
  | some old =>
    if old.num ≥ new.num then pure ⟨⟩
    else
      .call (.put ⟨.config (.num new.num), .config new, 0⟩) fun err =>
        if err ≠ .ok ∧ err ≠ .errMaybe then .pure ⟨⟩
        else carryOut old new

def initConfig (cfg : ShardConfig) : Ctrl B PUnit :=
  .call (.put ⟨.config (.num cfg.num), .config cfg, 0⟩) fun _ =>
    .call (.put ⟨.latest, .num cfg.num, 0⟩) fun _ => .pure ⟨⟩

def storedConfig (ctl : KeyValue CtrlKey CtrlValue) (n : ℕ) : Option ShardConfig :=
  match ctl (.config (.num n)) with
  | some ⟨.config cfg, _⟩ => some cfg
  | _ => none

structure World where
  /-- the store of the controllers -/
  ctl : KeyValue CtrlKey CtrlValue
  group : Tgid → KVServer
  /-- history: the clients' `Put`s that took effect, in order -/
  puts : List (PutArgs GoString GoString)

namespace World

def setGroup (w : World) (gid : Tgid) (kv : KVServer) : World :=
  { w with group := Function.update w.group gid kv }

/-- A client's `Put` reaches a group. -/
def clientPut (w : World) (gid : Tgid) (args : PutArgs GoString GoString) : World :=
  let r := (w.group gid).put args
  { w.setGroup gid r.1 with puts := if r.2.err = .ok then w.puts ++ [args] else w.puts }

/-- The configuration stored under a number. -/
def config (w : World) (n : ℕ) : Option ShardConfig := storedConfig w.ctl n

/-- The number stored under `latest`. -/
def latest (w : World) : Option ℕ :=
  match w.ctl .latest with
  | some ⟨.num n, _⟩ => some n
  | _ => none

/-- Some answer that `Query` has given so far assigns the shard to the group. -/
def Routed (w : World) (s : Tshid) (gid : Tgid) : Prop :=
  ∃ l ∈ w.latest, ∃ m ∈ List.range (l + 1), ∃ cfg ∈ w.config m, cfg.shards s = gid

instance (w : World) (s : Tshid) (gid : Tgid) : Decidable (w.Routed s gid) :=
  inferInstanceAs (Decidable (∃ l ∈ w.latest, _))

end World

/-- The clerks of kvraft and of the groups. A group's handlers for install and delete report
that the request was committed, whatever came of it. -/
def service (json : Json B) : Service World (Op.Ans (B := B)) where
  serve w
    | .get key => (doGet w.ctl ⟨key⟩, w)
    | .readVersion key _ => (doGet w.ctl ⟨key⟩, w)
    | .put args => ((doPut w.ctl args).2.err, { w with ctl := (doPut w.ctl args).1 })
    | .freezeShard gid args =>
      let r := (w.group gid).doFreezeShard json args
      (r.2, w.setGroup gid r.1)
    | .installShard gid args => (.ok, w.setGroup gid ((w.group gid).doInstallShard json args).1)
    | .deleteShard gid args => (.ok, w.setGroup gid ((w.group gid).doDeleteShard args).1)
  settle resend
    | .get _, reply | .readVersion _ _, reply => some reply
    | .put _, err => some (if resend ∧ err = .errVersion then .errMaybe else err)
    | .freezeShard _ _, reply => if reply.err = .ok then some reply else none
    | .installShard _ _, err | .deleteShard _ _, err => if err = .ok then some err else none

/-- `InitController`, then the `Query` from which the caller makes the next configuration. -/
def startUp : Ctrl B (Option ShardConfig) := do
  initController
  query

inductive Controller (B : Type)
  | starting (run : Running (Op.Ans (B := B)) (Option ShardConfig))
  | changing (new : ShardConfig) (run : Running (Op.Ans (B := B)) PUnit)

structure System (B : Type) where
  world : World
  controllers : List (Controller B)

def System.init (json : Json B) (cfg : ShardConfig) : System B :=
  ⟨(initConfig cfg).exec (service json)
    ⟨emptyStore _ _, fun _ => .start, []⟩, []⟩

inductive Action
  /-- a controller starts -/
  | spawn
  /-- the caller of a controller that has started asks for a change -/
  | change (i : ℕ) (new : ShardConfig)
  /-- one attempt of a call -/
  | attempt (i : ℕ) (o : Outcome)
  /-- a controller crashes or is done -/
  | retire (i : ℕ)
  | clientGet (gid : Tgid) (args : GetArgs GoString)
  | clientPut (gid : Tgid) (args : PutArgs GoString GoString)

def Controller.attempt (json : Json B) (o : Outcome) (w : World) :
    Controller B → Option (Controller B × World)
  | .starting run => (run.attempt (service json) o w).map fun r => (.starting r.1, r.2)
  | .changing new run => (run.attempt (service json) o w).map fun r => (.changing new r.1, r.2)

def System.step (json : Json B) (sys : System B) : Action → Option (System B)
  | .spawn => some { sys with controllers := sys.controllers ++ [.starting (.start startUp)] }
  | .change i new =>
    match sys.controllers[i]? with
    | some (.starting ⟨_, .pure (some cfg)⟩) =>
      if new.num = cfg.num + 1 then
        some { sys with
          controllers := sys.controllers.set i (.changing new (.start (changeConfigTo new))) }
      else none
    | _ => none
  | .attempt i o => do
    let t ← sys.controllers[i]?
    let r ← t.attempt json o sys.world
    pure ⟨r.2, sys.controllers.set i r.1⟩
  | .retire i =>
    if i < sys.controllers.length then
      some { sys with controllers := sys.controllers.eraseIdx i }
    else none
  | .clientGet gid args => if sys.world.Routed (key2Shard args.key) gid then some sys else none
  | .clientPut gid args =>
    if sys.world.Routed (key2Shard args.key) gid then
      some { sys with world := sys.world.clientPut gid args }
    else none

namespace System
variable {json : Json B} {sys sys' : System B} {i : ℕ}

theorem step_change {new : ShardConfig} (hs : sys.step json (.change i new) = some sys') :
    ∃ resend cfg, sys.controllers[i]? = some (.starting ⟨resend, .pure (some cfg)⟩) ∧
      new.num = cfg.num + 1 ∧
      sys' = { sys with
        controllers := sys.controllers.set i (.changing new (.start (changeConfigTo new))) } := by
  simp only [step] at hs
  split at hs
  case h_2 => cases hs
  case h_1 resend cfg ht =>
    split_ifs at hs with hnum
    cases hs
    exact ⟨resend, cfg, ht, hnum, rfl⟩

theorem step_attempt {o : Outcome} (hs : sys.step json (.attempt i o) = some sys') :
    ∃ t t' w', sys.controllers[i]? = some t ∧ t.attempt json o sys.world = some (t', w') ∧
      sys' = ⟨w', sys.controllers.set i t'⟩ := by
  simp only [step, Option.bind_eq_bind, Option.bind_eq_some_iff] at hs
  obtain ⟨t, ht, ⟨t', w'⟩, hr, heq⟩ := hs
  cases heq
  exact ⟨t, t', w', ht, hr, rfl⟩

theorem step_retire (hs : sys.step json (.retire i) = some sys') :
    sys' = { sys with controllers := sys.controllers.eraseIdx i } := by
  simp only [step] at hs
  split_ifs at hs
  cases hs
  rfl

theorem step_clientGet {gid : Tgid} {args : GetArgs GoString}
    (hs : sys.step json (.clientGet gid args) = some sys') : sys' = sys := by
  simp only [step] at hs
  split_ifs at hs
  cases hs
  rfl

theorem step_clientPut {gid : Tgid} {args : PutArgs GoString GoString}
    (hs : sys.step json (.clientPut gid args) = some sys') :
    sys.world.Routed (key2Shard args.key) gid ∧
      sys' = { sys with world := sys.world.clientPut gid args } := by
  simp only [step] at hs
  split_ifs at hs with hr
  cases hs
  exact ⟨hr, rfl⟩

end System

/-- The controller keeps to the rules, and `Q` holds of the configuration from which its caller
makes the next one. -/
def Controller.Keeps (R : Rules World (Op.Ans (B := B))) (Q : Option ShardConfig → World → Prop)
    (w : World) : Controller B → Prop
  | .starting run => R.Safe Q run.prog w
  | .changing _ run => R.Safe (fun _ _ => True) run.prog w

section Keeps
variable {R : Rules World (Op.Ans (B := B))} {Q : Option ShardConfig → World → Prop}
  {w w' : World} {t t' : Controller B}

theorem Controller.Keeps.stable (h : t.Keeps R Q w) (hQ : ∀ r, R.Stable (Q r))
    (hi : R.inv w) (hr : R.rely w w') (hi' : R.inv w') : t.Keeps R Q w' := by
  cases t with
  | starting run => exact Rules.Safe.stable hQ run.prog w w' hi hr hi' h
  | changing new run =>
    have htrue : ∀ r : PUnit, R.Stable fun _ => True := fun _ _ _ _ _ _ _ => trivial
    exact Rules.Safe.stable htrue run.prog w w' hi hr hi' h

theorem Controller.Keeps.attempt {json : Json B} {o : Outcome} (h : t.Keeps R Q w)
    (hservice : R.service = service json) (hi : R.inv w) (hrefl : R.guar w w)
    (ha : ∀ op resend, R.admits w resend op o) (hs : t.attempt json o w = some (t', w')) :
    R.inv w' ∧ R.guar w w' ∧ t'.Keeps R Q w' := by
  cases t with
  | starting run =>
    obtain ⟨r, hrun, heq⟩ := Option.map_eq_some_iff.mp hs
    cases heq
    rw [← hservice] at hrun
    exact Rules.Safe.attempt hi hrefl h (fun op _ => ha op _) hrun
  | changing new run =>
    obtain ⟨r, hrun, heq⟩ := Option.map_eq_some_iff.mp hs
    cases heq
    rw [← hservice] at hrun
    exact Rules.Safe.attempt hi hrefl h (fun op _ => ha op _) hrun

end Keeps

/-- A call of one of a controller's methods. -/
inductive Request
  | initController
  | query
  | changeConfigTo (new : ShardConfig)

/-- Only `Query` returns something. -/
def Request.prog : Request → Ctrl B (Option ShardConfig)
  | .initController => do
    ShardKv.initController
    pure none
  | .query => ShardKv.query
  | .changeConfigTo new => do
    ShardKv.changeConfigTo new
    pure none

/-- The configuration that the call is to bring about. -/
def Request.target : Request → Option ShardConfig
  | .changeConfigTo new => some new
  | .initController | .query => none

structure Process (B : Type) where
  request : Request
  run : Running (Op.Ans (B := B)) (Option ShardConfig)

def Process.start (r : Request) : Process B := ⟨r, .start r.prog⟩

/-- What the call has returned. -/
def Process.answer (p : Process B) : Option ShardConfig :=
  match p.run.prog with
  | .pure r => r
  | _ => none

/-- Calls of any number of controllers, under way or returned. A controller keeps nothing between
two of its calls. -/
structure Fleet (B : Type) where
  world : World
  processes : List (Process B)

inductive FleetAction
  | call (r : Request)
  /-- one attempt of a call to the store or to a group -/
  | attempt (i : ℕ) (o : Outcome)
  /-- a process crashes, or what its call has returned is forgotten -/
  | leave (i : ℕ)
  | clientPut (gid : Tgid) (args : PutArgs GoString GoString)

def Fleet.init (json : Json B) (first : ShardConfig) : Fleet B :=
  ⟨(System.init json first).world, []⟩

def Fleet.step (json : Json B) (f : Fleet B) : FleetAction → Option (Fleet B)
  | .call r => some { f with processes := f.processes ++ [.start r] }
  | .attempt i o => do
    let p ← f.processes[i]?
    let r ← p.run.attempt (service json) o f.world
    pure ⟨r.2, f.processes.set i { p with run := r.1 }⟩
  | .leave i =>
    if i < f.processes.length then some { f with processes := f.processes.eraseIdx i } else none
  | .clientPut gid args => some { f with world := f.world.clientPut gid args }

theorem Fleet.step_attempt {json : Json B} {f f' : Fleet B} {i : ℕ} {o : Outcome}
    (hs : f.step json (.attempt i o) = some f') :
    ∃ p run w', f.processes[i]? = some p ∧ p.run.attempt (service json) o f.world = some (run, w') ∧
      f' = ⟨w', f.processes.set i { p with run := run }⟩ := by
  simp only [step, Option.bind_eq_bind, Option.bind_eq_some_iff] at hs
  obtain ⟨p, hp, ⟨run, w'⟩, hr, heq⟩ := hs
  cases heq
  exact ⟨p, run, w', hp, hr, rfl⟩

theorem Fleet.step_leave {json : Json B} {f f' : Fleet B} {i : ℕ}
    (hs : f.step json (.leave i) = some f') :
    f' = { f with processes := f.processes.eraseIdx i } := by
  simp only [step] at hs
  split_ifs at hs
  cases hs
  rfl

theorem safe_makeClerk {R : Rules World (Op.Ans (B := B))} {Q : Tgid → World → Prop} {w : World}
    (gid : Tgid) (servers : Option (List GoString)) (h : Q gid w) :
    R.Safe Q (makeClerk gid servers) w := by
  unfold makeClerk
  split
  · exact h
  · trivial

/-- All shards are in the only group. -/
def oneGroup (num : ℕ) : ShardConfig where
  num := num
  shards _ := 1
  groups := [⟨1, [[97], [98], [99]]⟩].toFinmap

/-- Two groups; shard 0 is in `gid`, the others are in group 1. -/
def twoGroups (num : ℕ) (gid : Tgid) : ShardConfig where
  num := num
  shards s := if s.val = 0 then gid else 1
  groups := [⟨1, [[97], [98], [99]]⟩, ⟨2, [[100], [101], [102]]⟩].toFinmap

/-- `latest` holds the number of a stored configuration, and a configuration is stored under its
own number. -/
structure Ledger (ctl : KeyValue CtrlKey CtrlValue) (l : ℕ) (v : Tversion) : Prop where
  latest : ctl .latest = some ⟨.num l, v⟩
  stored : ∀ n e, ctl (.config (.num n)) = some e → ∃ cfg, e = ⟨.config cfg, 1⟩ ∧ cfg.num = n
  current : ctl (.config (.num l)) ≠ none

namespace Ledger
variable {ctl : KeyValue CtrlKey CtrlValue} {l n : ℕ} {v : Tversion} {cfg : ShardConfig}

theorem doGet_latest (h : Ledger ctl l v) : doGet ctl ⟨.latest⟩ = ⟨.num l, v, .ok⟩ := by
  simp [doGet, h.latest]

theorem entry_eq (h : Ledger ctl l v) (n : ℕ) :
    ctl (.config (.num n)) = (storedConfig ctl n).map fun cfg => ⟨.config cfg, 1⟩ := by
  unfold storedConfig
  cases he : ctl (.config (.num n)) with
  | none => rfl
  | some e =>
    obtain ⟨cfg, rfl, -⟩ := h.stored n e he
    rfl

theorem config_iff (h : Ledger ctl l v) :
    storedConfig ctl n = some cfg ↔ ctl (.config (.num n)) = some ⟨.config cfg, 1⟩ := by
  simp [h.entry_eq n]

theorem config_eq_none_iff (h : Ledger ctl l v) :
    storedConfig ctl n = none ↔ ctl (.config (.num n)) = none := by
  simp [h.entry_eq n]

theorem num_of_config (h : Ledger ctl l v) (hc : storedConfig ctl n = some cfg) : cfg.num = n := by
  obtain ⟨cfg', heq, hnum⟩ := h.stored n _ (h.config_iff.mp hc)
  cases heq
  exact hnum

theorem exists_current (h : Ledger ctl l v) : ∃ cfg, storedConfig ctl l = some cfg := by
  cases he : ctl (.config (.num l)) with
  | none => exact absurd he h.current
  | some e =>
    obtain ⟨cfg, rfl, -⟩ := h.stored l e he
    exact ⟨cfg, h.config_iff.mpr he⟩

theorem doGet_config (h : Ledger ctl l v) (hc : storedConfig ctl n = some cfg) :
    doGet ctl ⟨.config (.num n)⟩ = ⟨.config cfg, 1, .ok⟩ := by
  simp [doGet, h.config_iff.mp hc]

theorem doGet_missing (h : Ledger ctl l v) (hc : storedConfig ctl n = none) :
    (doGet ctl ⟨.config (.num n)⟩).err = .errNoKey := by
  simp [doGet, h.config_eq_none_iff.mp hc]

end Ledger

theorem Ledger.latest_eq {w : World} {l : ℕ} {v : Tversion} (h : Ledger w.ctl l v) :
    w.latest = some l := by
  simp [World.latest, h.latest]

theorem Ledger.routed_iff {w : World} {l : ℕ} {v : Tversion} (h : Ledger w.ctl l v) (s : Tshid)
    (g : Tgid) : w.Routed s g ↔ ∃ m cfg, m ≤ l ∧ w.config m = some cfg ∧ cfg.shards s = g := by
  constructor
  · rintro ⟨l', hl', m, hm, cfg, hcfg, hg⟩
    cases h.latest_eq.symm.trans hl'
    exact ⟨m, cfg, Nat.lt_succ_iff.mp (List.mem_range.mp hm), hcfg, hg⟩
  · rintro ⟨m, cfg, hm, hcfg, hg⟩
    exact ⟨l, h.latest_eq, m, List.mem_range.mpr (Nat.lt_succ_of_le hm), cfg, hcfg, hg⟩

/-- `latest` holds the number of a stored configuration, and no configuration beyond the next
number is stored. -/
structure Book (good : ShardConfig → Prop) (ctl : KeyValue CtrlKey CtrlValue) (l : ℕ)
    (v : Tversion) : Prop where
  latest : ctl .latest = some ⟨.num l, v⟩
  stored : ∀ n e, ctl (.config (.num n)) = some e →
    n ≤ l + 1 ∧ ∃ cfg, e = ⟨.config cfg, 1⟩ ∧ cfg.num = n ∧ good cfg
  current : ctl (.config (.num l)) ≠ none

namespace Book
variable {good : ShardConfig → Prop} {ctl : KeyValue CtrlKey CtrlValue} {l n : ℕ} {v : Tversion}
  {cfg : ShardConfig}

theorem ledger (h : Book good ctl l v) : Ledger ctl l v where
  latest := h.latest
  stored n e he := by
    obtain ⟨-, cfg, heq, hnum, -⟩ := h.stored n e he
    exact ⟨cfg, heq, hnum⟩
  current := h.current

theorem of_config (h : Book good ctl l v) (hc : storedConfig ctl n = some cfg) :
    n ≤ l + 1 ∧ cfg.num = n ∧ good cfg := by
  obtain ⟨hn, cfg', heq, hnum, hgood⟩ := h.stored n _ (h.ledger.config_iff.mp hc)
  cases heq
  exact ⟨hn, hnum, hgood⟩

end Book

/-- The store after the claim of a number. -/
def claimed (ctl : KeyValue CtrlKey CtrlValue) (new : ShardConfig) : KeyValue CtrlKey CtrlValue :=
  Function.update ctl (.config (.num new.num)) (some ⟨.config new, 1⟩)

/-- The store after a number is published. -/
def published (ctl : KeyValue CtrlKey CtrlValue) (num : ℕ) (v : Tversion) :
    KeyValue CtrlKey CtrlValue :=
  Function.update ctl .latest (some ⟨.num num, v + 1⟩)

section Writes
variable {good : ShardConfig → Prop} {ctl : KeyValue CtrlKey CtrlValue} {l num : ℕ}
  {v version : Tversion} {new : ShardConfig}

@[simp] theorem claimed_latest : claimed ctl new .latest = ctl .latest := by simp [claimed]

@[simp] theorem published_config (suffix : CtrlValue) :
    published ctl num v (.config suffix) = ctl (.config suffix) := by simp [published]

theorem storedConfig_claimed (n : ℕ) : storedConfig (claimed ctl new) n =
    if n = new.num then some new else storedConfig ctl n := by
  unfold storedConfig claimed
  by_cases hn : n = new.num
  · simp [hn]
  · simp [hn]

@[simp] theorem storedConfig_published (n : ℕ) :
    storedConfig (published ctl num v) n = storedConfig ctl n := by
  simp [storedConfig, published]

theorem doPut_claim (h : storedConfig ctl new.num = none) (hb : Ledger ctl l v) :
    doPut ctl ⟨.config (.num new.num), .config new, 0⟩ = (claimed ctl new, ⟨.ok⟩) := by
  have hnone := hb.config_eq_none_iff.mp h
  simp [doPut_eq, versionOf, hnone, claimed]

theorem doPut_claim_again {cfg : ShardConfig} (h : storedConfig ctl new.num = some cfg)
    (hb : Ledger ctl l v) :
    doPut ctl ⟨.config (.num new.num), .config new, 0⟩ = (ctl, ⟨.errVersion⟩) := by
  have hsome := hb.config_iff.mp h
  simp [doPut_eq, versionOf, hsome]

theorem doPut_publish (hb : Ledger ctl l v) :
    doPut ctl ⟨.latest, .num num, version⟩ =
      if version = v then (published ctl num v, ⟨.ok⟩) else (ctl, ⟨.errVersion⟩) := by
  have hv : versionOf ctl .latest = v := by simp [versionOf, hb.latest]
  rw [doPut_eq, hv]
  split_ifs with h
  · rw [h, published]
  · rfl

theorem Ledger.claim (hb : Ledger ctl l v) : Ledger (claimed ctl new) l v where
  latest := by rw [claimed_latest, hb.latest]
  stored n e he := by
    rcases eq_or_ne n new.num with rfl | hne
    · rw [claimed, Function.update_self] at he
      cases he
      exact ⟨new, rfl, rfl⟩
    · have hkey : CtrlKey.config (.num n) ≠ .config (.num new.num) := by simpa using hne
      rw [claimed, Function.update_of_ne hkey] at he
      exact hb.stored n e he
  current := by
    rw [claimed, Function.update_apply]
    split_ifs
    · nofun
    · exact hb.current

theorem Ledger.publish (hb : Ledger ctl l v) (hc : storedConfig ctl num ≠ none) :
    Ledger (published ctl num v) num (v + 1) where
  latest := by simp [published]
  stored n e he := by
    rw [published_config] at he
    exact hb.stored n e he
  current := by
    rw [published_config]
    exact fun hnone => hc (hb.config_eq_none_iff.mpr hnone)

theorem Book.claim (hb : Book good ctl l v) (hn : new.num ≤ l + 1) (hg : good new) :
    Book good (claimed ctl new) l v where
  latest := hb.ledger.claim.latest
  stored n e he := by
    rcases eq_or_ne n new.num with rfl | hne
    · rw [claimed, Function.update_self] at he
      cases he
      exact ⟨hn, new, rfl, rfl, hg⟩
    · have hkey : CtrlKey.config (.num n) ≠ .config (.num new.num) := by simpa using hne
      rw [claimed, Function.update_of_ne hkey] at he
      exact hb.stored n e he
  current := hb.ledger.claim.current

theorem Book.publish (hb : Book good ctl l v) (hl : l ≤ num) (hc : storedConfig ctl num ≠ none) :
    Book good (published ctl num v) num (v + 1) where
  latest := (hb.ledger.publish hc).latest
  stored n e he := by
    rw [published_config] at he
    obtain ⟨hn, h⟩ := hb.stored n e he
    exact ⟨by omega, h⟩
  current := (hb.ledger.publish hc).current

end Writes

theorem safe_query_at {R : Rules World (Op.Ans (B := B))} {P : World → Prop} {w : World} {l : ℕ}
    {v : Tversion} {ctl : KeyValue CtrlKey CtrlValue} {old : ShardConfig}
    (hget : ∀ (key : CtrlKey) (Q : GetReply CtrlValue → World → Prop),
      (∀ w, P w → Q (doGet w.ctl ⟨key⟩) w) → R.Step (.get key) P Q)
    (hctl : ∀ w, P w → w.ctl = ctl) (hb : Ledger ctl l v) (hold : storedConfig ctl l = some old)
    (hw : P w) : R.Safe (fun r w => r = some old ∧ P w) query w := by
  refine .call P hw (hget _ _ fun w hw => ?_)
  rw [hctl w hw, hb.doGet_latest]
  refine .call P hw (hget _ _ fun w hw => ?_)
  rw [hctl w hw, hb.doGet_config hold]
  exact ⟨rfl, hw⟩

theorem book_init {good : ShardConfig → Prop} (json : Json B) {cfg : ShardConfig} (hg : good cfg) :
    Book good (System.init json cfg).world.ctl cfg.num 1 ∧
      storedConfig (System.init json cfg).world.ctl cfg.num = some cfg ∧
      ∀ n, n ≠ cfg.num → storedConfig (System.init json cfg).world.ctl n = none := by
  have hctl : (System.init json cfg).world.ctl =
      Function.update (claimed (emptyStore _ _) cfg) .latest (some ⟨.num cfg.num, 1⟩) := by
    simp [System.init, initConfig, Prog.exec, service, doPut_eq, versionOf, emptyStore, claimed]
  have hstored : ∀ n, storedConfig (System.init json cfg).world.ctl n =
      if n = cfg.num then some cfg else none := by
    intro n
    rw [hctl]
    by_cases hn : n = cfg.num
    · simp [storedConfig, claimed, hn]
    · simp [storedConfig, claimed, hn, emptyStore]
  refine ⟨⟨?_, fun n e he => ?_, ?_⟩, ?_, fun n hn => ?_⟩
  · simp [hctl]
  · rcases eq_or_ne n cfg.num with rfl | hn
    · have he' : e = ⟨.config cfg, 1⟩ := by simpa [hctl, claimed, eq_comm] using he
      exact ⟨Nat.le_succ _, cfg, he', rfl, hg⟩
    · simp [hctl, claimed, hn, emptyStore] at he
  · simp [hctl, claimed]
  · rw [hstored, if_pos rfl]
  · rw [hstored, if_neg hn]

end DistributedLabs.ShardKv
