import DistributedLabs.ConcurrentControllers

/-!
# The published configuration

Any number of processes call `InitController`, `Query` and `ChangeConfigTo`, with
any configuration and at any time, and crash where they like. The groups play no part:
of all the calls only the `Put`s to the controllers' store matter here, and what a
process knows of the store when it publishes a number is what it has read before.
-/

namespace DistributedLabs.ShardKv
open Kv RpcPrograms TransitionRuns

variable {B : Type}

/-- The version of `latest` is read by `InitController` while `latest` is not past the number it
found unfinished, and the version of `latest` does not wrap around. -/
def InTime (w : World) (op : Op B) (o : Outcome) : Prop :=
  (o = .answered → ∀ n ∈ op.pending, ∀ l ∈ w.latest, l ≤ n) ∧
  (o ≠ .requestLost → op.publishes = true → (versionOf w.ctl .latest).toNat + 1 < UInt64.size)

instance (w : World) (op : Op B) (o : Outcome) : Decidable (InTime w op o) :=
  inferInstanceAs (Decidable (_ ∧ _))

def AllInTime (f : Fleet B) : FleetAction → Prop
  | .attempt i o => ∀ p ∈ f.processes[i]?, ∀ op ∈ p.run.prog.head, InTime f.world op o
  | _ => True

instance (f : Fleet B) (a : FleetAction) : Decidable (AllInTime f a) :=
  match a with
  | .attempt i _ => inferInstanceAs (Decidable (∀ p ∈ f.processes[i]?, _))
  | .call _ | .leave _ | .clientPut _ _ => .isTrue trivial

theorem Ledgered.of_ctl {w w' : World} (h : Ledgered w) (hctl : w'.ctl = w.ctl) : Ledgered w' := by
  rw [Ledgered, hctl]
  exact h

/-- Some configuration is stored under the number. -/
def Stored (n : ℕ) (w : World) : Prop := ∃ cfg, w.config n = some cfg

theorem lasting_stored (n : ℕ) : Lasting (Stored n) :=
  .of_grows fun _ _ hg ⟨cfg, hcfg⟩ => ⟨cfg, hg.config n cfg hcfg⟩

def ledgerRules (json : Json B) : Rules World (Op.Ans (B := B)) where
  service := service json
  admits w _ op o := InTime w op o
  inv := Ledgered
  rely := Grows
  guar := Grows
  issue _ _ := True

theorem Lasting.stableLedger {json : Json B} {P : World → Prop} (h : Lasting P) :
    (ledgerRules json).Stable P :=
  fun w w' _ hg _ hp => h.grows w w' hg hp

/-- The call writes the store. -/
def Op.writes : Op B → Bool
  | .put _ => true
  | _ => false

namespace Publishing
variable {json : Json B} {w : World} {P : World → Prop} {old new : ShardConfig} {l n : ℕ}

theorem step_get (hP : Lasting P) {key : CtrlKey} {Q : GetReply CtrlValue → World → Prop}
    (h : ∀ w, Ledgered w → P w → Q (doGet w.ctl ⟨key⟩) w) :
    (ledgerRules json).Step (.get key) P Q := by
  refine .read (fun _ => rfl) (fun _ => .of_ctl rfl) hP.stableLedger (fun _ _ _ => trivial) ?_
  intro w b r hi hp _ hr
  cases hr
  exact h w hi hp

theorem step_readVersion (hP : Lasting P) {Q : GetReply CtrlValue → World → Prop}
    (h : ∀ w, Ledgered w → P w → (∀ l ∈ w.latest, l ≤ n) → Q (doGet w.ctl ⟨.latest⟩) w) :
    (ledgerRules json).Step (.readVersion .latest n) P Q := by
  refine .read (fun _ => rfl) (fun _ => .of_ctl rfl) hP.stableLedger (fun _ _ _ => trivial) ?_
  intro w b r hi hp ha hr
  cases hr
  exact h w hi hp (ha.1 rfl n rfl)

theorem serve_ctl {op : Op B} (h : op.writes = false) (w : World) :
    ((service json).serve w op).2.ctl = w.ctl := by
  cases op with
  | put args => cases h
  | get key => rfl
  | readVersion key pending => rfl
  | freezeShard gid args => rfl
  | installShard gid args => rfl
  | deleteShard gid args => rfl

/-- A call that does not write keeps what depends on the store alone, whatever it is answered. -/
theorem step_quiet {R : Rules World (Op.Ans (B := B))} (hservice : R.service = service json)
    {op : Op B} (hop : op.writes = false) (hstable : R.Stable P)
    (hissue : ∀ w, R.inv w → P w → R.issue w op)
    (hkept : ∀ w w', w'.ctl = w.ctl → R.inv w → P w → R.inv w' ∧ R.guar w w' ∧ P w') :
    R.Step op P fun _ => P := by
  have hctl : ∀ w, (R.service.serve w op).2.ctl = w.ctl := by
    rw [hservice]
    exact serve_ctl hop
  refine ⟨hstable, hissue, ?_, ?_⟩
  · intro w _ _ hi hp _ _
    exact hkept w _ (hctl w) hi hp
  · intro w _ _ hi hp _ _
    exact (hkept w _ (hctl w) hi hp).2.2

def Quiet {α : Type} : Ctrl B α → Prop
  | .pure _ | .halt => True
  | .call op next => op.writes = false ∧ ∀ r, Quiet (next r)

theorem Quiet.call {α : Type} {op : Op B} {next : op.Ans → Ctrl B α} (hop : op.writes = false)
    (h : ∀ r, Quiet (next r)) : Quiet (.call op next) := ⟨hop, h⟩

theorem Quiet.bind {α β : Type} {p : Ctrl B α} {f : α → Ctrl B β} (hp : Quiet p)
    (hf : ∀ a, Quiet (f a)) : Quiet (p >>= f) := by
  induction p with
  | pure a => exact hf a
  | halt => trivial
  | call op next ih => exact ⟨hp.1, fun r => ih r (hp.2 r)⟩

theorem Quiet.forM {ι : Type} {f : ι → Ctrl B PUnit} (hf : ∀ i, Quiet (f i)) (l : List ι) :
    Quiet (l.forM f) := by
  induction l with
  | nil => trivial
  | cons i l ih => exact (hf i).bind fun _ => ih

/-- A program that writes nothing keeps what each of its calls keeps. -/
theorem Quiet.safe_of_steps {R : Rules World (Op.Ans (B := B))} {α : Type} {p : Ctrl B α}
    (hq : Quiet p) (hstep : ∀ op : Op B, op.writes = false → R.Step op P fun _ => P) (hw : P w) :
    R.Safe (fun _ => P) p w := by
  induction p generalizing w with
  | pure a => exact hw
  | halt => trivial
  | call op next ih => exact .call P hw ((hstep op hq.1).mono fun r _ hp => ih r (hq.2 r) hp)

theorem Quiet.safe {α : Type} {p : Ctrl B α} (hq : Quiet p) (hP : Lasting P) (hw : P w) :
    (ledgerRules json).Safe (fun _ => P) p w := by
  refine hq.safe_of_steps (fun op hop => ?_) hw
  refine step_quiet rfl hop hP.stableLedger (fun _ _ _ => trivial) ?_
  exact fun w w' hctl hi hp => ⟨hi.of_ctl hctl, .of_ctl hctl, hP.ctl w w' hctl hp⟩

theorem quiet_fromString (value : CtrlValue) : Quiet (fromString value : Ctrl B ShardConfig) := by
  cases value <;> trivial

theorem quiet_makeClerk (gid : Tgid) (servers : Option (List GoString)) :
    Quiet (makeClerk gid servers : Ctrl B Tgid) := by
  unfold makeClerk
  split <;> trivial

theorem quiet_query : Quiet (query : Ctrl B (Option ShardConfig)) := by
  refine .call rfl fun latest => ?_
  split_ifs
  · trivial
  · refine .call rfl fun stored => ?_
    split_ifs
    · trivial
    · exact (quiet_fromString _).bind fun _ => trivial

theorem quiet_getServersForGroup (gid : Tgid) :
    Quiet (getServersForGroup gid : Ctrl B (Option (List GoString))) := by
  refine quiet_query.bind fun r => ?_
  cases r <;> trivial

theorem quiet_moveShard (old new : ShardConfig) (s : Tshid) :
    Quiet (moveShard old new s : Ctrl B PUnit) := by
  simp only [moveShard]
  split_ifs
  · trivial
  · refine quiet_query.bind fun currentCfg => ?_
    split_ifs
    · trivial
    · refine (quiet_getServersForGroup _).bind fun servers => ?_
      refine (quiet_makeClerk _ _).bind fun fromCk => .call rfl fun frozen => ?_
      exact (quiet_makeClerk _ _).bind fun toCk => .call rfl fun _ => .call rfl fun _ => trivial
  · refine (quiet_getServersForGroup _).bind fun servers => ?_
    exact (quiet_makeClerk _ _).bind fun ck => .call rfl fun _ => trivial
  · trivial

theorem quiet_moveShards (old new : ShardConfig) : Quiet (moveShards old new : Ctrl B PUnit) :=
  .forM (quiet_moveShard old new) _

theorem safe_publish (hP : Lasting P) {v : Tversion}
    (hread : ∀ w, P w → ReadAt v l w ∧ Stored n w) (hln : l ≤ n) (hw : P w) :
    (ledgerRules json).Safe (fun _ _ => True) (publish n v) w := by
  refine .call P hw ⟨hP.stableLedger, fun _ _ _ => trivial, ?_, fun _ _ _ _ _ _ _ => trivial⟩
  rintro w b o ⟨l', v', hb⟩ hw ha ho
  obtain ⟨hreadAt, cfg, hcfg⟩ := hread w hw
  change Ledgered { w with ctl := (doPut w.ctl ⟨.latest, .num n, v⟩).1 } ∧
    Grows w { w with ctl := (doPut w.ctl ⟨.latest, .num n, v⟩).1 } ∧
    P { w with ctl := (doPut w.ctl ⟨.latest, .num n, v⟩).1 }
  rcases doPut_publish_cases hb hreadAt hln with heq | ⟨hle, heq⟩ <;> rw [heq]
  · exact ⟨⟨l', v', hb⟩, .of_ctl rfl, hw⟩
  · have hstored : storedConfig w.ctl n ≠ none := by
      intro hnone
      cases hnone.symm.trans hcfg
    have hgrows := Grows.publish hb hle (ha.2 ho rfl)
    exact ⟨⟨n, v' + 1, hb.publish hstored⟩, hgrows, hP.grows _ _ hgrows hw⟩

theorem safe_carryOut (hw : Stored new.num w) :
    (ledgerRules json).Safe (fun _ _ => True) (carryOut old new) w := by
  refine .call _ hw (step_get (lasting_stored new.num) fun w hi hw => ?_)
  obtain ⟨l, v, hget, -, hl, hv, -⟩ := hi.read
  rw [hget]
  have hlasting := (lasting_stored new.num).and ((lasting_reached l).and (lasting_readAt v l))
  refine .call _ ⟨hw, hl, hv⟩ (step_get hlasting fun w hi hw => ?_)
  obtain ⟨l₂, v₂, hget₂, -, -, -, hmax₂⟩ := hi.read
  -- the number read first is no greater than the one that is compared
  have hle := hmax₂ _ hw.2.1
  rw [hget₂]
  split_ifs with hboth hover
  · trivial
  · trivial
  · have hlow : l₂ < new.num := not_le.mp hover
    refine .bind (((quiet_moveShards old new).safe hlasting hw).mono fun _ w hw => ?_)
    exact safe_publish hlasting (fun w hw => ⟨hw.2.2, hw.1⟩) (by omega) hw

/-- Whatever a claim is answered, some configuration has the number. -/
theorem step_claim_stored : (ledgerRules json).Step
    (.put ⟨.config (.num new.num), .config new, 0⟩) (fun _ => True) fun _ => Stored new.num := by
  have hserve : ∀ w : World, Ledgered w →
      Ledgered { w with ctl := (doPut w.ctl ⟨.config (.num new.num), .config new, 0⟩).1 } ∧
      Grows w { w with ctl := (doPut w.ctl ⟨.config (.num new.num), .config new, 0⟩).1 } ∧
      Stored new.num
        { w with ctl := (doPut w.ctl ⟨.config (.num new.num), .config new, 0⟩).1 } := by
    rintro w ⟨l, v, hb⟩
    cases hstored : storedConfig w.ctl new.num with
    | some cfg =>
      rw [doPut_claim_again hstored hb]
      exact ⟨⟨l, v, hb⟩, .of_ctl rfl, cfg, hstored⟩
    | none =>
      rw [doPut_claim hstored hb]
      refine ⟨⟨l, v, hb.claim⟩, .claim hstored, new, ?_⟩
      rw [World.config, storedConfig_claimed, if_pos rfl]
  refine ⟨lasting_true.stableLedger, fun _ _ _ => trivial, ?_, ?_⟩
  · intro w b o hi _ _ _
    exact ⟨(hserve w hi).1, (hserve w hi).2.1, trivial⟩
  · intro w b err hi _ _ _
    exact (hserve w hi).2.2

theorem safe_changeConfigTo :
    (ledgerRules json).Safe (fun _ _ => True) (changeConfigTo new) w := by
  refine .bind ((quiet_query.safe lasting_true trivial).mono fun r w _ => ?_)
  cases r with
  | none => trivial
  | some old =>
    change Rules.Safe _ _ (if old.num ≥ new.num then _ else _) w
    split_ifs with hover
    · trivial
    · refine .call _ trivial (step_claim_stored.mono fun err w hstored => ?_)
      split_ifs
      · trivial
      · exact safe_carryOut hstored

/-- The number found is the number of a stored configuration. -/
theorem safe_findStored (is : List ℕ) {found : ℕ × CtrlValue}
    (hw : found.1 = 0 ∨ Stored found.1 w) :
    (ledgerRules json).Safe (fun found w => found.1 = 0 ∨ Stored found.1 w)
      (findPending l is found) w := by
  induction is generalizing found w with
  | nil => exact hw
  | cons i is ih =>
    have hlasting : Lasting fun w => found.1 = 0 ∨ Stored found.1 w :=
      .of_grows fun w w' hg h => h.imp_right ((lasting_stored found.1).grows w w' hg)
    refine .call _ hw (step_get hlasting fun w hi hw => ?_)
    obtain ⟨l', v, hb⟩ := hi
    cases hstored : storedConfig w.ctl (l + i) with
    | none =>
      simp only [hb.doGet_missing hstored, reduceCtorEq, if_false]
      exact hw
    | some cfg =>
      rw [hb.doGet_config hstored]
      exact ih (Or.inr ⟨cfg, hstored⟩)

theorem safe_recover (hw : Stored n w) :
    (ledgerRules json).Safe (fun _ _ => True) (recover n new) w := by
  refine .bind ((quiet_query.safe (lasting_stored n) hw).mono fun r w hw => ?_)
  cases r with
  | none => trivial
  | some old =>
    refine .call _ hw (step_readVersion (lasting_stored n) fun w hi hw hpast => ?_)
    obtain ⟨l, v, hget, hlatest, -, hv, -⟩ := hi.read
    have hle : l ≤ n := hpast l hlatest
    rw [hget]
    have hlasting := (lasting_stored n).and (lasting_readAt v l)
    refine .bind (((quiet_moveShards old new).safe hlasting ⟨hw, hv⟩).mono fun _ w hw => ?_)
    exact safe_publish hlasting (fun w hw => ⟨hw.2, hw.1⟩) hle hw

theorem safe_initController : (ledgerRules json).Safe (fun _ _ => True) initController w := by
  refine .call _ trivial (step_get lasting_true fun w hi _ => ?_)
  split_ifs
  · trivial
  · refine .bind ((safe_findStored _ (Or.inl rfl)).mono fun found w hfound => ?_)
    split_ifs with hzero
    · trivial
    · have hstored := hfound.resolve_left hzero
      refine .bind (((quiet_fromString found.2).safe (lasting_stored found.1) hstored).mono ?_)
      intro newCfg w hw
      exact safe_recover hw

end Publishing

section Runs
open Publishing
variable {json : Json B}

theorem safe_request (r : Request) (w : World) :
    (ledgerRules json).Safe (fun _ _ => True) (Request.prog r) w := by
  cases r with
  | initController => exact .bind (safe_initController.mono fun _ _ _ => trivial)
  | query => exact (quiet_query.safe lasting_true trivial).mono fun _ _ _ => trivial
  | changeConfigTo new => exact .bind (safe_changeConfigTo.mono fun _ _ _ => trivial)

structure Fleet.Orderly (json : Json B) (f : Fleet B) : Prop where
  ledgered : Ledgered f.world
  safe : ∀ p ∈ f.processes, (ledgerRules json).Safe (fun _ _ => True) p.run.prog f.world

theorem Fleet.Orderly.grows {f : Fleet B} {w' : World} (h : f.Orderly json) (hi : Ledgered w')
    (hg : Grows f.world w') {p : Process B} (hp : p ∈ f.processes) :
    (ledgerRules json).Safe (fun _ _ => True) p.run.prog w' :=
  Rules.Safe.stable (fun _ _ _ _ _ _ _ => trivial) p.run.prog _ _ h.ledgered hg hi (h.safe p hp)

theorem Fleet.Orderly.step {f f' : Fleet B} {a : FleetAction} (h : f.Orderly json)
    (hg : AllInTime f a) (hs : f.step json a = some f') :
    f'.Orderly json ∧ Grows f.world f'.world := by
  cases a with
  | call r =>
    cases hs
    refine ⟨⟨h.ledgered, fun p hp => ?_⟩, .of_ctl rfl⟩
    rcases List.mem_append.mp hp with hp | hp
    · exact h.safe p hp
    · rw [List.mem_singleton.mp hp]
      exact safe_request r f.world
  | attempt i o =>
    obtain ⟨p, run, w', hp, hr, rfl⟩ := step_attempt hs
    have hsafe := h.safe p (List.mem_of_getElem? hp)
    have hattempt : p.run.attempt (ledgerRules json).service o f.world = some (run, w') := hr
    have hrefl : Grows f.world f.world := .of_ctl rfl
    obtain ⟨hi, hgrows, hsafe'⟩ := Rules.Safe.attempt h.ledgered hrefl hsafe (hg p hp) hattempt
    refine ⟨⟨hi, fun p₂ hp₂ => ?_⟩, hgrows⟩
    rcases List.mem_or_eq_of_mem_set hp₂ with hp₂ | rfl
    · exact h.grows hi hgrows hp₂
    · exact hsafe'
  | leave i =>
    rw [step_leave hs]
    exact ⟨⟨h.ledgered, fun p hp => h.safe p (List.mem_of_mem_eraseIdx hp)⟩, .of_ctl rfl⟩
  | clientPut gid args =>
    cases hs
    have hgrows : Grows f.world (f.world.clientPut gid args) := .of_ctl rfl
    have hi : Ledgered (f.world.clientPut gid args) := h.ledgered.of_ctl rfl
    exact ⟨⟨hi, fun p hp => h.grows hi hgrows hp⟩, hgrows⟩

theorem Fleet.orderly_init (first : ShardConfig) : (Fleet.init json first).Orderly json := by
  have hbook : Book (fun _ => True) (System.init json first).world.ctl first.num 1 :=
    (book_init json trivial).1
  exact ⟨⟨first.num, 1, hbook.ledger⟩, nofun⟩

/-- In every run whose attempts are all in time, `latest` holds a number in every state, a
configuration with that number is stored under it, and no later state of the run has a smaller
one. -/
theorem latest_never_goes_back {first : ShardConfig} (f f' : Fleet B)
    (h : Reaches (Fleet.step json) AllInTime (Fleet.init json first) f)
    (h' : Reaches (Fleet.step json) AllInTime f f') :
    ∃ l ∈ f.world.latest, ∃ l' ∈ f'.world.latest, l ≤ l' ∧
      ∃ cfg ∈ f'.world.config l', cfg.num = l' := by
  have hkept : ∀ f a f', Fleet.Orderly json f → AllInTime f a → Fleet.step json f a = some f' →
      Fleet.Orderly json f' := fun f a f' hf hg hs => (hf.step hg hs).1
  have horderly := h.invariant (Fleet.orderly_init first) hkept
  obtain ⟨l, v, -, hlatest, hl, -⟩ := horderly.ledgered.read
  have hkept' : ∀ f a f', Fleet.Orderly json f ∧ Reached l f.world → AllInTime f a →
      Fleet.step json f a = some f' → Fleet.Orderly json f' ∧ Reached l f'.world := by
    rintro f a f' ⟨hf, hl⟩ hg hs
    obtain ⟨hstep, hgrows⟩ := hf.step hg hs
    exact ⟨hstep, (lasting_reached l).grows _ _ hgrows hl⟩
  obtain ⟨horderly', hreached⟩ := h'.invariant ⟨horderly, hl⟩ hkept'
  obtain ⟨l', v', hb⟩ := horderly'.ledgered
  obtain ⟨cfg, hcfg⟩ := hb.exists_current
  refine ⟨l, hlatest, l', hb.latest_eq, ?_, cfg, hcfg, hb.num_of_config hcfg⟩
  obtain ⟨l₁, v₁, hl₁, hle⟩ := hreached
  cases hl₁.symm.trans hb.latest
  exact hle

/-- A change is claimed, `InitController` completes it, and the process that claimed it finds its
version of `latest` used up. -/
theorem latest_never_goes_back_completed : ∃ f f' : Fleet Entries,
    Reaches (Fleet.step plainJson) AllInTime (Fleet.init plainJson (twoGroups 1 1)) f ∧
      Reaches (Fleet.step plainJson) AllInTime f f' ∧ f.world.latest = some 1 ∧
      ∃ l ∈ f.world.latest, ∃ l' ∈ f'.world.latest, l ≤ l' ∧
        ∃ cfg ∈ f'.world.config l', cfg.num = l' := by
  obtain ⟨f, hreach, hlatest, f', hexec, -⟩ :=
    exists_reaches (Fleet.step plainJson) AllInTime (Fleet.init plainJson (twoGroups 1 1))
      ([[.call (.changeConfigTo (twoGroups 2 2)), .call .initController],
        List.replicate 5 (.attempt 0 .answered),
        List.replicate 6 (.attempt 1 .answered)] : List (List FleetAction)).flatten
      (fun f => f.world.latest = some 1 ∧
        ∃ f' ∈ execute (Fleet.step plainJson) AllInTime f
          ([List.replicate 8 (.attempt 1 .answered),
            List.replicate 3 (.attempt 0 .answered)] : List (List FleetAction)).flatten,
        f'.world.latest = some 2)
      (by decide +kernel)
  have hreach' := reaches_of_execute .refl hexec
  exact ⟨f, f', hreach, hreach', hlatest, latest_never_goes_back f f' hreach hreach'⟩

/-- `InitController` finds number 2 claimed. Before it reads the version of `latest`, numbers 2
and 3 are published; then it publishes 2. -/
theorem latest_goes_back : ∃ f f' : Fleet Entries,
    Reaches (Fleet.step plainJson) anyStep (Fleet.init plainJson (twoGroups 1 1)) f ∧
      Reaches (Fleet.step plainJson) anyStep f f' ∧
      f.world.latest = some 3 ∧ f'.world.latest = some 2 := by
  obtain ⟨f, hreach, hlatest, f', hexec, hlatest'⟩ :=
    exists_reaches (Fleet.step plainJson) anyStep (Fleet.init plainJson (twoGroups 1 1))
      ([[.call (.changeConfigTo (twoGroups 2 2)), .call .initController],
        List.replicate 3 (.attempt 0 .answered), List.replicate 5 (.attempt 1 .answered),
        List.replicate 10 (.attempt 0 .answered), [.call (.changeConfigTo (twoGroups 3 2))],
        List.replicate 6 (.attempt 2 .answered)] : List (List FleetAction)).flatten
      (fun f => f.world.latest = some 3 ∧
        ∃ f' ∈ execute (Fleet.step plainJson) anyStep f (List.replicate 4 (.attempt 1 .answered)),
        f'.world.latest = some 2)
      (by decide +kernel)
  exact ⟨f, f', hreach, reaches_of_execute .refl hexec, hlatest, hlatest'⟩

end Runs

end DistributedLabs.ShardKv
