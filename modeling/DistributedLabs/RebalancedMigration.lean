import DistributedLabs.PublishedConfiguration
import DistributedLabs.ShardMembership
import DistributedLabs.ShardMigration

/-!
# Joins and leaves while clients write

A group joins or leaves like this: the caller of a controller changes a copy of the configuration it
has queried by `JoinBalance` or `LeaveBalance` and gives the result to `ChangeConfigTo`. What
`Rebalance` leaves is what a migration asks of a configuration, and it is the next one, so in every
such run the published configuration is balanced and tells where the entries of every shard are.
-/

namespace DistributedLabs.ShardKv
open Kv LoadBalancing RpcPrograms TransitionRuns
open ShardCfg.ShardConfig (MembershipCall)

variable {B : Type}

/-- Group 0 stands for no group, so it does not join. -/
def NonZero : MembershipCall → Prop
  | .joinBalance _ _ servers => (0 : Tgid) ∉ servers.keys
  | .leaveBalance _ _ _ => True

instance (call : MembershipCall) : Decidable (NonZero call) :=
  match call with
  | .joinBalance _ _ servers => inferInstanceAs (Decidable ((0 : Tgid) ∉ servers.keys))
  | .leaveBalance _ _ _ => .isTrue trivial

/-- What `Rebalance` leaves as long as there is a group. -/
structure Rebalanced (cfg : ShardConfig) : Prop where
  settled : cfg.Settled
  groups : cfg.groups ≠ ∅
  nonzero : (0 : Tgid) ∉ cfg.groups

section Membership
variable {cfg new : ShardConfig} {call : MembershipCall}

theorem Rebalanced.wellFormed (h : Rebalanced cfg) : WellFormed cfg := by
  intro s
  have hmem := h.settled.assigned h.groups s
  refine ⟨fun hzero => h.nonzero (hzero ▸ hmem), ?_⟩
  rw [Finmap.lookup_isSome]
  exact hmem

theorem rebalanced_of_succeed (hzero : (0 : Tgid) ∉ cfg.groups) (hcall : NonZero call)
    (h : cfg.succeed call = some new) (hgroups : new.groups ≠ ∅) : Rebalanced new := by
  rcases ShardCfg.ShardConfig.succeed_eq_some h with
    ⟨order, fuel, servers, rfl, hok⟩ | ⟨order, fuel, gids, rfl, hok⟩
  · obtain ⟨c₁, hjoined, hrun⟩ := ShardCfg.ShardConfig.joinBalance_eq_true hok
    obtain ⟨-, heq, hsettled⟩ := ShardCfg.ShardConfig.settled_rebalance hrun
    refine ⟨hsettled, hgroups, ?_⟩
    rw [heq, hjoined.mem_iff]
    exact not_or.mpr ⟨hzero, hcall⟩
  · obtain ⟨c₁, hleft, hrun⟩ := ShardCfg.ShardConfig.leaveBalance_eq_true hok
    obtain ⟨-, heq, hsettled⟩ := ShardCfg.ShardConfig.settled_rebalance hrun
    refine ⟨hsettled, hgroups, ?_⟩
    rw [heq, hleft.mem_iff]
    exact fun hmem => hzero hmem.1

theorem rebalanced_oneGroup : Rebalanced (oneGroup 1) := by
  have hone : (1 : Tgid) ∈ (oneGroup 1).groups := by decide
  have hkeys : (oneGroup 1).groups.keys = {1} := by decide
  have hgroups : (oneGroup 1).groups ≠ ∅ := ShardCfg.ShardConfig.ne_empty_of_mem hone
  refine ⟨⟨fun hempty => absurd hempty hgroups, fun _ _ => hone, fun _ => ?_⟩, hgroups, by decide⟩
  intro g hg g' hg'
  rw [hkeys, Finset.mem_singleton] at hg hg'
  rw [hg, hg']
  exact Nat.le_succ _

end Membership

/-- What the caller of a controller has got from `Query`. -/
def System.queried (sys : System B) (i : ℕ) : Option ShardConfig :=
  match sys.controllers[i]? with
  | some (.starting ⟨_, .pure r⟩) => r
  | _ => none

inductive Operation
  /-- the caller of a controller lets groups join or leave -/
  | membership (i : ℕ) (call : MembershipCall)
  | other (a : Action)

def System.operate (json : Json B) (sys : System B) : Operation → Option (System B)
  | .membership i call => do
    let cfg ← sys.queried i
    let new ← cfg.succeed call
    pure { sys with
      controllers := sys.controllers.set i (.changing new (.start (changeConfigTo new))) }
  | .other (.change _ _) => none
  | .other a => sys.step json a

/-- Controllers work one after another, group 0 does not join, some group stays, and clients write
strings of a kind. -/
def Administered (text : GoString → Prop) (sys : System B) : Operation → Prop
  | .membership i call =>
    NonZero call ∧ ∀ cfg ∈ sys.queried i, ∀ new ∈ cfg.succeed call, new.groups ≠ ∅
  | .other a => Sequential text sys a

instance (text : GoString → Prop) [DecidablePred text] (sys : System B) (op : Operation) :
    Decidable (Administered text sys op) :=
  match op with
  | .membership i call => inferInstanceAs (Decidable (NonZero call ∧ ∀ cfg ∈ sys.queried i, _))
  | .other a => inferInstanceAs (Decidable (Sequential text sys a))

theorem System.queried_eq_some {sys : System B} {i : ℕ} {cfg : ShardConfig}
    (h : sys.queried i = some cfg) :
    ∃ resend, sys.controllers[i]? = some (.starting ⟨resend, .pure (some cfg)⟩) := by
  unfold queried at h
  split at h
  case h_1 resend r ht =>
    subst h
    exact ⟨resend, ht⟩
  case h_2 => cases h

/-- What the caller asks for has the next number. -/
theorem System.step_change_of_succeed {json : Json B} {sys : System B} {i : ℕ}
    {cfg new : ShardConfig} {call : MembershipCall} (hcfg : sys.queried i = some cfg)
    (hnew : cfg.succeed call = some new) : sys.step json (.change i new) = some { sys with
      controllers := sys.controllers.set i (.changing new (.start (changeConfigTo new))) } := by
  obtain ⟨resend, ht⟩ := queried_eq_some hcfg
  have hnum : new.num = cfg.num + 1 := ShardCfg.ShardConfig.num_of_succeed hnew
  simp only [step, ht, hnum, if_true]

theorem System.operate_eq_some {json : Json B} {sys sys' : System B} {op : Operation}
    (h : sys.operate json op = some sys') :
    (∃ i call cfg new, op = .membership i call ∧ sys.queried i = some cfg ∧
        cfg.succeed call = some new ∧ sys.step json (.change i new) = some sys') ∨
      ∃ a, op = .other a ∧ (∀ i new, a ≠ .change i new) ∧ sys.step json a = some sys' := by
  cases op with
  | membership i call =>
    simp only [operate, Option.bind_eq_bind, Option.bind_eq_some_iff] at h
    obtain ⟨cfg, hcfg, new, hnew, hs⟩ := h
    refine Or.inl ⟨i, call, cfg, new, rfl, hcfg, hnew, ?_⟩
    rw [← hs]
    exact step_change_of_succeed hcfg hnew
  | other a =>
    right
    cases a with
    | change i new => cases h
    | spawn | attempt | retire | clientGet | clientPut => exact ⟨_, rfl, nofun, h⟩

/-- Every configuration in the store is a good one. -/
def AllStored (good : ShardConfig → Prop) (w : World) : Prop :=
  ∀ key cfg v, w.ctl key = some ⟨.config cfg, v⟩ → good cfg

def storedRules (json : Json B) (good : ShardConfig → Prop) : Rules World (Op.Ans (B := B)) where
  service := service json
  admits _ _ _ _ := True
  inv := AllStored good
  rely _ _ := True
  guar _ _ := True
  issue _ _ := True

namespace Storing
open Publishing
variable {json : Json B} {good : ShardConfig → Prop} {w : World} {new : ShardConfig}

theorem allStored_of_ctl {w' : World} (h : AllStored good w) (hctl : w'.ctl = w.ctl) :
    AllStored good w' := by
  rw [AllStored, hctl]
  exact h

theorem step_quiet {op : Op B} (hop : op.writes = false) {Q : op.Ans → World → Prop}
    (h : ∀ w b r, AllStored good w →
      (service json).settle b op ((service json).serve w op).1 = some r →
      Q r ((service json).serve w op).2) :
    (storedRules json good).Step op (fun _ => True) Q where
  stable _ _ _ _ _ _ := trivial
  issue _ _ _ := trivial
  serve w _ _ hi _ _ _ := ⟨allStored_of_ctl hi (serve_ctl hop w), trivial, trivial⟩
  answer w b r hi _ _ hr := h w b r hi hr

theorem allStored_put (h : AllStored good w) (args : PutArgs CtrlKey CtrlValue)
    (hargs : ∀ cfg, args.value = .config cfg → good cfg) :
    AllStored good { w with ctl := (doPut w.ctl args).1 } := by
  intro key cfg v hkey
  change (doPut w.ctl args).1 key = _ at hkey
  by_cases hok : (doPut w.ctl args).2.err = .ok
  · rw [(doPut_of_ok hok).2] at hkey
    rcases eq_or_ne key args.key with rfl | hne
    · rw [Function.update_self] at hkey
      exact hargs cfg (congrArg ValueEntry.value (Option.some.inj hkey))
    · rw [Function.update_of_ne hne] at hkey
      exact h key cfg v hkey
  · rw [(doPut_of_not_ok hok).2] at hkey
    exact h key cfg v hkey

theorem AllStored.of_config (h : AllStored good w) {n : ℕ} {cfg : ShardConfig}
    (hcfg : w.config n = some cfg) : good cfg := by
  unfold World.config storedConfig at hcfg
  split at hcfg
  case h_1 stored v hstored =>
    cases hcfg
    exact h _ _ v hstored
  case h_2 => cases hcfg

theorem step_put {args : PutArgs CtrlKey CtrlValue} (hargs : ∀ cfg, args.value = .config cfg → good cfg)
    {Q : Err → World → Prop} (h : ∀ err w, Q err w) :
    (storedRules json good).Step (.put args) (fun _ => True) Q where
  stable _ _ _ _ _ _ := trivial
  issue _ _ _ := trivial
  serve _ _ _ hi _ _ _ := ⟨allStored_put hi args hargs, trivial, trivial⟩
  answer _ _ _ _ _ _ _ := h _ _

theorem safe_quiet {α : Type} {p : Ctrl B α} (hp : Quiet p) :
    (storedRules json good).Safe (fun _ _ => True) p w :=
  hp.safe_of_steps (fun _ hop => step_quiet hop fun _ _ _ _ _ => trivial) trivial

theorem safe_publish (num : ℕ) (v : Tversion) :
    (storedRules json good).Safe (fun _ _ => True) (publish num v) w :=
  .call _ trivial (step_put nofun fun _ _ => trivial)

/-- What `Query` returns was in the store. -/
theorem safe_query : (storedRules json good).Safe (fun r _ => ∀ cfg ∈ r, good cfg) query w := by
  refine .call _ trivial (step_quiet rfl fun _ _ latest _ _ => ?_)
  split_ifs
  · rintro cfg ⟨⟩
  · refine .call _ trivial (step_quiet rfl fun w _ stored hi hr => ?_)
    obtain rfl : doGet w.ctl ⟨.config latest.value⟩ = stored := Option.some.inj hr
    cases hstored : w.ctl (.config latest.value) with
    | none =>
      simp only [doGet, hstored, ne_eq, reduceCtorEq, not_false_eq_true, if_true]
      rintro cfg ⟨⟩
    | some e =>
      obtain ⟨value, v⟩ := e
      simp only [doGet, hstored, ne_eq, not_true_eq_false, if_false]
      cases value with
      | config cfg =>
        rintro _ ⟨⟩
        exact hi _ cfg v hstored
      | empty => trivial
      | num n => trivial

theorem quiet_findPending (l : ℕ) (is : List ℕ) (found : ℕ × CtrlValue) :
    Quiet (findPending l is found : Ctrl B (ℕ × CtrlValue)) := by
  induction is generalizing found with
  | nil => trivial
  | cons i is ih =>
    refine .call rfl fun stored => ?_
    split_ifs
    · exact ih _
    · trivial

theorem safe_initController :
    (storedRules json good).Safe (fun _ _ => True) initController w := by
  refine .call _ trivial (step_quiet rfl fun _ _ latest _ _ => ?_)
  split_ifs
  · trivial
  · refine .bind ((safe_quiet (quiet_findPending _ _ _)).mono fun found _ _ => ?_)
    split_ifs
    · trivial
    · refine .bind ((safe_quiet (quiet_fromString _)).mono fun newCfg _ _ => ?_)
      refine .bind ((safe_quiet quiet_query).mono fun r _ _ => ?_)
      cases r with
      | none => trivial
      | some old =>
        refine .call _ trivial (step_quiet rfl fun _ _ latest _ _ => ?_)
        exact .bind ((safe_quiet (quiet_moveShards _ _)).mono fun _ _ _ => safe_publish _ _)

theorem safe_startUp : (storedRules json good).Safe (fun r _ => ∀ cfg ∈ r, good cfg) startUp w :=
  .bind (safe_initController.mono fun _ _ _ => safe_query)

theorem safe_changeConfigTo (hnew : good new) :
    (storedRules json good).Safe (fun _ _ => True) (changeConfigTo new) w := by
  refine .bind ((safe_quiet quiet_query).mono fun r _ _ => ?_)
  cases r with
  | none => trivial
  | some old =>
    change Rules.Safe _ _ (if old.num ≥ new.num then _ else _) _
    split_ifs
    · trivial
    · refine .call _ trivial (step_put ?_ fun err w => ?_)
      · rintro cfg ⟨⟩
        exact hnew
      · split_ifs
        · trivial
        · refine .call _ trivial (step_quiet rfl fun _ _ latest _ _ => ?_)
          refine .call _ trivial (step_quiet rfl fun _ _ latest2 _ _ => ?_)
          split_ifs
          · trivial
          · trivial
          · exact .bind ((safe_quiet (quiet_moveShards _ _)).mono fun _ _ _ => safe_publish _ _)

end Storing

section Runs
variable {json : Json B} {text : GoString → Prop} {good : ShardConfig → Prop} {sys sys' : System B}

/-- The store holds good configurations, and the callers of the controllers have got such. -/
structure Filed (json : Json B) (good : ShardConfig → Prop) (sys : System B) : Prop where
  stored : AllStored good sys.world
  keeps : ∀ t ∈ sys.controllers,
    t.Keeps (storedRules json good) (fun r _ => ∀ cfg ∈ r, good cfg) sys.world

theorem Filed.kept (h : Filed json good sys) {w' : World} (hi : AllStored good w')
    {t : Controller B} (ht : t ∈ sys.controllers) :
    t.Keeps (storedRules json good) (fun r _ => ∀ cfg ∈ r, good cfg) w' :=
  Controller.Keeps.stable (h.keeps t ht) (fun _ _ _ _ _ _ hr => hr) h.stored trivial hi

theorem Filed.queried (h : Filed json good sys) {i : ℕ} {cfg : ShardConfig}
    (hcfg : sys.queried i = some cfg) : good cfg := by
  obtain ⟨resend, ht⟩ := System.queried_eq_some hcfg
  exact h.keeps _ (List.mem_of_getElem? ht) cfg rfl

theorem Filed.step {a : Action} (h : Filed json good sys) (hg : ∀ i new, a = .change i new → good new)
    (hs : sys.step json a = some sys') : Filed json good sys' := by
  cases a with
  | spawn =>
    cases hs
    refine ⟨h.stored, fun t ht => ?_⟩
    rcases List.mem_append.mp ht with ht | ht
    · exact h.keeps t ht
    · rw [List.mem_singleton.mp ht]
      exact Storing.safe_startUp
  | change i new =>
    obtain ⟨resend, cfg, -, -, rfl⟩ := System.step_change hs
    refine ⟨h.stored, fun t ht => ?_⟩
    rcases List.mem_or_eq_of_mem_set ht with ht | rfl
    · exact h.keeps t ht
    · exact Storing.safe_changeConfigTo (hg i new rfl)
  | attempt i o =>
    obtain ⟨t, t', w', ht, hr, rfl⟩ := System.step_attempt hs
    obtain ⟨hi, -, hkeeps⟩ := (h.keeps t (List.mem_of_getElem? ht)).attempt rfl h.stored trivial
      (fun _ _ => trivial) hr
    refine ⟨hi, fun t₂ ht₂ => ?_⟩
    rcases List.mem_or_eq_of_mem_set ht₂ with ht₂ | rfl
    · exact h.kept hi ht₂
    · exact hkeeps
  | retire i =>
    rw [System.step_retire hs]
    exact ⟨h.stored, fun t ht => h.keeps t (List.mem_of_mem_eraseIdx ht)⟩
  | clientGet gid args =>
    rw [System.step_clientGet hs]
    exact h
  | clientPut gid args =>
    obtain ⟨-, rfl⟩ := System.step_clientPut hs
    have hi : AllStored good (sys.world.clientPut gid args) := Storing.allStored_of_ctl h.stored rfl
    exact ⟨hi, fun t ht => h.kept hi ht⟩

theorem filed_init {first : ShardConfig} (hfirst : good first) :
    Filed json good (System.init json first) := by
  have hempty : AllStored good ⟨emptyStore _ _, fun _ => .start, []⟩ := nofun
  have hvalue : ∀ cfg, CtrlValue.config first = .config cfg → good cfg := by
    rintro cfg ⟨⟩
    exact hfirst
  have hclaimed := Storing.allStored_put hempty ⟨.config (.num first.num), .config first, 0⟩ hvalue
  exact ⟨Storing.allStored_put hclaimed ⟨.latest, .num first.num, 0⟩ nofun, nofun⟩

/-- In every run in which groups join and leave, whenever no change is pending, the published
configuration is balanced and tells where the entries of every shard are. -/
theorem rebalanced_shards_preserved (hrt : json.RoundTrips text) {first : ShardConfig}
    (hfirst : Rebalanced first) (sys : System B)
    (h : Reaches (System.operate json) (Administered text) (System.init json first) sys)
    (hidle : ¬sys.world.Pending) :
    ∃ l cfg, sys.world.latest = some l ∧ sys.world.config l = some cfg ∧
      (∀ s, cfg.shards s ∈ cfg.groups) ∧ IsBalanced cfg.groups.keys cfg.shards ∧
      ∀ s, Preserved sys.world l cfg s := by
  have hkept : ∀ sys op sys', InOrder json text sys ∧ Filed json Rebalanced sys →
      Administered text sys op → System.operate json sys op = some sys' →
      InOrder json text sys' ∧ Filed json Rebalanced sys' := by
    rintro sys op sys' ⟨horder, hfiled⟩ hg hstep
    rcases System.operate_eq_some hstep with
      ⟨i, call, cfg, new, rfl, hcfg, hnew, hs⟩ | ⟨a, rfl, hother, hs⟩
    · have hrebalanced : Rebalanced new :=
        rebalanced_of_succeed (hfiled.queried hcfg).nonzero hg.1 hnew (hg.2 cfg hcfg new hnew)
      have hseq : Sequential text sys (.change i new) := hrebalanced.wellFormed
      refine ⟨(horder.step hrt hseq hs).1, hfiled.step ?_ hs⟩
      rintro _ _ ⟨⟩
      exact hrebalanced
    · exact ⟨(horder.step hrt hg hs).1, hfiled.step (fun i new ha => absurd ha (hother i new)) hs⟩
  obtain ⟨horder, hfiled⟩ := h.invariant ⟨inOrder_init hfirst.wellFormed, filed_init hfirst⟩ hkept
  obtain ⟨l, cfg, hlatest, hcfg, hpreserved⟩ := horder.preserved hidle
  have hrebalanced : Rebalanced cfg := Storing.AllStored.of_config hfiled.stored hcfg
  exact ⟨l, cfg, hlatest, hcfg, hrebalanced.settled.assigned hrebalanced.groups,
    hrebalanced.settled.balanced hrebalanced.groups, hpreserved⟩

/-- A client writes a key, and group 2 joins; the controller crashes after it has frozen the first
of the six shards that move, and the next one finishes the change. -/
theorem rebalanced_shards_preserved_second_group : ∃ sys : System Entries,
    Rebalanced (oneGroup 1) ∧
      Reaches (System.operate plainJson) (Administered fun _ => True)
        (System.init plainJson (oneGroup 1)) sys ∧
      (sys.world.latest = some 2 ∧ sys.world.puts.length = 1) ∧
      ∃ l cfg, sys.world.latest = some l ∧ sys.world.config l = some cfg ∧
        (∀ s, cfg.shards s ∈ cfg.groups) ∧ IsBalanced cfg.groups.keys cfg.shards ∧
        ∀ s, Preserved sys.world l cfg s := by
  obtain ⟨sys, hreach, hlatest, hputs, hidle⟩ :=
    exists_reaches (System.operate plainJson) (Administered fun _ => True)
      (System.init plainJson (oneGroup 1))
      ([[.other (.clientPut 1 ⟨[109], [120], 0⟩), .other .spawn],
        List.replicate 4 (.other (.attempt 0 .answered)),
        [.membership 0 (.joinBalance ShardCfg.MapOrder.ascending 145
          [⟨2, [[100], [101], [102]]⟩].toAList)],
        List.replicate 9 (.other (.attempt 0 .answered)),
        [.other (.attempt 0 .replyLost), .other (.retire 0), .other .spawn],
        List.replicate 51 (.other (.attempt 0 .answered))] : List (List Operation)).flatten
      (fun sys => sys.world.latest = some 2 ∧ sys.world.puts.length = 1 ∧ ¬sys.world.Pending)
      (by decide +kernel)
  exact ⟨sys, rebalanced_oneGroup, hreach, ⟨hlatest, hputs⟩,
    rebalanced_shards_preserved (plainJson_roundTrips _) rebalanced_oneGroup sys hreach hidle⟩

end Runs

end DistributedLabs.ShardKv
