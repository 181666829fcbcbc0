import DistributedLabs.KvraftClerk

/-!
# At most one change for each `Put`

The copies of a `Put` that a clerk has sent all name the same version, so one of them
takes effect at most. A clerk reports `OK` for a copy that took effect, and
`ErrVersion` only if it has sent a single one.
-/

namespace DistributedLabs.Kvraft.World
open Kv Rsm TransitionRuns ListPositions

variable {n : ℕ} {K V B : Type} [DecidableEq K] [Inhabited V]

omit [DecidableEq K] in
theorem handlerReply_wrongLeader (c : Command K V) :
    (handlerReply .errWrongLeader (none : Option (Reply V)) c).err = .errWrongLeader := by
  cases c <;> rfl

theorem handlerReply_ok (ops : List (Command K V)) (c : Command K V) :
    handlerReply .ok (some (replyAfter ops c)) c = replyAfter ops c := by
  cases c <;> rfl

/-- The operation comes from an RPC of the clerk's call. -/
def Sent (w : World n K V B) (c : ℕ) (e : Entry n K V) : Prop :=
  ∃ rpc ∈ w.rpcs, rpc.call = c ∧ rpc.server = e.server ∧ rpc.submission = some e.submission

/-- The operation committed at the position comes from the call and changes the map. -/
def Changes (w : World n K V B) (c m : ℕ) : Prop :=
  ∃ e, w.committed[m]? = some e ∧ w.Sent c e ∧ ChangesAt w.ops m

/-- The call has sent no other RPC. -/
def Only (w : World n K V B) (c j : ℕ) : Prop :=
  ∀ j' rpc, w.rpcs[j']? = some rpc → rpc.call = c → j' = j

/-- The call has got the reply to its RPC `j`, whose operation is committed at position `m`. -/
structure Settled (w : World n K V B) (c : ℕ) (reply : Reply V) (j m : ℕ) (e : Entry n K V)
    (isResend : Bool) : Prop where
  sent : ∃ rpc, w.rpcs[j]? = some rpc ∧ rpc.call = c ∧ rpc.server = e.server ∧
    rpc.submission = some e.submission
  committed : w.committed[m]? = some e
  reply : reply = clerkReply isResend (replyAfter (w.ops.take m) e.req)
  first : isResend = false → w.Only c j

/-- Whatever the call has committed lies behind changes that the earlier calls made. -/
def Behind (w : World n K V B) (c : ℕ) (after : List ℕ) : Prop :=
  ∀ c' ∈ after, ∃ m, w.Changes c' m ∧ ∀ m' e, w.committed[m']? = some e → w.Sent c e → m < m'

structure Accounted (w : World n K V B) (c : ℕ) (call : ClerkCall n K V) : Prop where
  sending : ∀ i, call.phase = .sending i false → ∀ rpc ∈ w.rpcs, rpc.call ≠ c
  waiting : ∀ i j, call.phase = .waiting i false j → w.Only c j
  returned : ∀ reply, call.phase = .returned reply →
    ∃ j m e isResend, w.Settled c reply j m e isResend
  after : w.Behind c call.after

/-- The requests reach the servers as the clerks sent them. -/
def Routed (w : World n K V B) : Prop :=
  ∀ rpc ∈ w.rpcs, ∃ call, w.calls[rpc.call]? = some call ∧
    ∀ k ∈ rpc.submission, ∃ p, w.header rpc.server k = some (call.command, p)

structure Inv (gob : Labgob K V B) (w : World n K V B) : Prop where
  logged : w.Logged gob
  routed : w.Routed
  calls : ∀ c call, w.calls[c]? = some call → w.Accounted c call

/-- What every step leaves as it is. -/
structure Later (w w' : World n K V B) : Prop where
  committed : ∃ more, w'.committed = w.committed ++ more
  rpcs : ∀ (j : ℕ) (rpc : Rpc n), w.rpcs[j]? = some rpc → ∃ rpc' : Rpc n, w'.rpcs[j]? = some rpc' ∧
    rpc'.call = rpc.call ∧ rpc'.server = rpc.server ∧
    ∀ k, rpc.submission = some k → rpc'.submission = some k
  sent : ∀ c, ∀ e ∈ w.handed, w'.Sent c e → w.Sent c e

section Later
variable {gob : Labgob K V B} {w w' : World n K V B} {c : ℕ}

omit [DecidableEq K] [Inhabited V] in
theorem Later.of_rpcs {more : List (Entry n K V)} (hcommitted : w'.committed = w.committed ++ more)
    (hrpcs : w'.rpcs = w.rpcs) : Later w w' := by
  refine ⟨⟨more, hcommitted⟩, fun j rpc hrpc => ⟨rpc, hrpcs ▸ hrpc, rfl, rfl, fun _ => id⟩, ?_⟩
  rintro c e - ⟨rpc, hrpc, hsent⟩
  exact ⟨rpc, hrpcs ▸ hrpc, hsent⟩

omit [DecidableEq K] [Inhabited V] in
theorem Later.mono_sent (h : Later w w') {e : Entry n K V} (hs : w.Sent c e) : w'.Sent c e := by
  obtain ⟨rpc, hrpc, rfl, hserver, hsubmission⟩ := hs
  obtain ⟨j, hj⟩ := List.mem_iff_getElem?.mp hrpc
  obtain ⟨rpc', hrpc', hcall', hserver', hsubmission'⟩ := h.rpcs j rpc hj
  exact ⟨rpc', List.mem_of_getElem? hrpc', hcall', hserver'.trans hserver,
    hsubmission' _ hsubmission⟩

theorem Changes.later {m : ℕ} (h : w.Changes c m) (hl : Later w w') : w'.Changes c m := by
  obtain ⟨e, he, hsent, hchange⟩ := h
  obtain ⟨more, hmore⟩ := hl.committed
  obtain ⟨he', htake, hsucc⟩ := committed_append hmore he
  refine ⟨e, he', hl.mono_sent hsent, ?_⟩
  rw [ChangesAt, htake, hsucc]
  exact hchange

/-- The call has sent nothing new. -/
def Silent (w w' : World n K V B) (c : ℕ) : Prop :=
  ∀ (j : ℕ) (rpc' : Rpc n), w'.rpcs[j]? = some rpc' → rpc'.call = c →
    ∃ rpc : Rpc n, w.rpcs[j]? = some rpc ∧ rpc.call = c

omit [DecidableEq K] [Inhabited V] in
theorem Only.later {j : ℕ} (h : w.Only c j) (hc : Silent w w' c) : w'.Only c j := by
  intro j' rpc' hrpc' hcall
  obtain ⟨rpc, hrpc, hcall⟩ := hc j' rpc' hrpc' hcall
  exact h j' rpc hrpc hcall

theorem Settled.later {reply : Reply V} {j m : ℕ} {e : Entry n K V} {isResend : Bool}
    (h : w.Settled c reply j m e isResend) (hl : Later w w') (hc : Silent w w' c) :
    w'.Settled c reply j m e isResend := by
  obtain ⟨rpc, hrpc, hcall, hserver, hsubmission⟩ := h.sent
  obtain ⟨rpc', hrpc', hcall', hserver', hsubmission'⟩ := hl.rpcs j rpc hrpc
  obtain ⟨more, hmore⟩ := hl.committed
  obtain ⟨hcommitted, htake, -⟩ := committed_append hmore h.committed
  refine ⟨⟨rpc', hrpc', hcall'.trans hcall, hserver'.trans hserver, hsubmission' _ hsubmission⟩,
    hcommitted, ?_, fun hfirst => (h.first hfirst).later hc⟩
  rw [htake]
  exact h.reply

theorem Behind.later {after : List ℕ} (h : w.Behind c after) (hw : w.Logged gob)
    (hl : Later w w') : w'.Behind c after := by
  intro c' hc'
  obtain ⟨m, hchange, hbefore⟩ := h c' hc'
  refine ⟨m, hchange.later hl, fun m' e he hsent => ?_⟩
  obtain ⟨more, hmore⟩ := hl.committed
  rcases Nat.lt_or_ge m' w.committed.length with hlt | hge
  · rw [hmore, List.getElem?_append_left hlt] at he
    exact hbefore m' e he (hl.sent c e (hw.committed m' e he).1 hsent)
  · obtain ⟨e', he', -⟩ := hchange
    obtain ⟨hlt, -⟩ := List.getElem?_eq_some_iff.mp he'
    omega

theorem Accounted.later {call : ClerkCall n K V} (h : w.Accounted c call) (hw : w.Logged gob)
    (hl : Later w w') (hc : Silent w w' c) : w'.Accounted c call where
  sending i hphase rpc' hrpc' hcall := by
    obtain ⟨j, hj⟩ := List.mem_iff_getElem?.mp hrpc'
    obtain ⟨rpc, hrpc, hcall⟩ := hc j rpc' hj hcall
    exact h.sending i hphase rpc (List.mem_of_getElem? hrpc) hcall
  waiting i j hphase := (h.waiting i j hphase).later hc
  returned reply hphase := by
    obtain ⟨j, m, e, isResend, hsettled⟩ := h.returned reply hphase
    exact ⟨j, m, e, isResend, hsettled.later hl hc⟩
  after := h.after.later hw hl

end Later

section Steps
variable {gob : Labgob K V B} {w w' : World n K V B}

omit [DecidableEq K] [Inhabited V] in
theorem setPhase_calls {c c' : ℕ} {call call' : ClerkCall n K V} {phase : ClerkPhase n V}
    (h : (w.setPhase c call phase).calls[c']? = some call') :
    c' = c ∧ call' = { call with phase := phase } ∨ c' ≠ c ∧ w.calls[c']? = some call' :=
  getElem?_set_cases h

omit [DecidableEq K] [Inhabited V] in
theorem setPhase_command {c c' : ℕ} {call call₁ : ClerkCall n K V} (phase : ClerkPhase n V)
    (hc : w.calls[c]? = some call) (h : w.calls[c']? = some call₁) :
    ∃ call', (w.setPhase c call phase).calls[c']? = some call' ∧
      call'.command = call₁.command := by
  obtain ⟨hlt, -⟩ := List.getElem?_eq_some_iff.mp hc
  rcases eq_or_ne c' c with rfl | hne
  · cases hc.symm.trans h
    exact ⟨{ call with phase := phase }, by simp [setPhase, hlt], rfl⟩
  · exact ⟨call₁, by simpa [setPhase, List.getElem?_set_ne hne.symm] using h, rfl⟩

theorem inv_init : (init gob : World n K V B).Inv gob := ⟨logged_init, nofun, nofun⟩

/-- A step of the servers. -/
theorem Inv.inner (h : w.Inv gob) (hlogged : w'.Logged gob) {more : List (Entry n K V)}
    (hcommitted : w'.committed = w.committed ++ more) (hrpcs : w'.rpcs = w.rpcs)
    (hcalls : w'.calls = w.calls)
    (hheader : ∀ i k req p, w.header i k = some (req, p) → ∃ p, w'.header i k = some (req, p)) :
    w'.Inv gob := by
  refine ⟨hlogged, fun rpc hrpc => ?_, fun c call hc => ?_⟩
  · rw [hrpcs] at hrpc
    obtain ⟨call, hcall, hsubmission⟩ := h.routed rpc hrpc
    refine ⟨call, hcalls ▸ hcall, fun k hk => ?_⟩
    obtain ⟨p, hp⟩ := hsubmission k hk
    exact hheader _ _ _ _ hp
  · rw [hcalls] at hc
    refine (h.calls c call hc).later h.logged (.of_rpcs hcommitted hrpcs) ?_
    intro j rpc hrpc hcall
    exact ⟨rpc, hrpcs ▸ hrpc, hcall⟩

theorem Inv.start (h : w.Inv gob) {i : Fin n} {k : ℕ} {answer : Option (ℕ × ℕ)}
    (hfree : w.FreshPlace (.start i k answer)) (hs : w.start i k answer = some w') :
    w'.Inv gob := by
  have hlogged := h.logged.start hfree hs
  obtain ⟨submission, rsm, hsubmission, hrsm, hcases⟩ := start_cases hs
  obtain ⟨-, -, req, hk, hheaders⟩ := (h.logged.rsm i).start hrsm
  have hheader : ∀ j l req' p, w.header j l = some (req', p) →
      ∃ p, (w.setRsm i rsm).header j l = some (req', p) := by
    intro j l req' p hp
    rw [header_set hk hheaders]
    split_ifs with hjl
    · obtain ⟨rfl, rfl⟩ := hjl
      cases hk.symm.trans hp
      exact ⟨_, rfl⟩
    · exact ⟨p, hp⟩
  obtain ⟨rfl, rfl⟩ | ⟨lastLogIndex, term, rfl, rfl⟩ := hcases
  · exact h.inner hlogged (List.append_nil _).symm rfl rfl hheader
  · exact h.inner hlogged (List.append_nil _).symm rfl rfl hheader

theorem Inv.event (h : w.Inv gob) {i : Fin n} {e : Event} {rsm : RSM (Command K V) (Reply V)}
    (hs : (w.rsm i).step e = some rsm) : (w.setRsm i rsm).Inv gob := by
  obtain ⟨hsound, hheaders, hexecuted⟩ := (h.logged.rsm i).step hs
  refine h.inner (h.logged.setRsm hsound hheaders (hexecuted ▸ h.logged.executed i))
    (List.append_nil _).symm rfl rfl fun j k req p hp => ⟨p, ?_⟩
  rw [header_setRsm hheaders]
  exact hp

theorem Inv.commit (h : w.Inv gob) {m : ℕ} (hs : w.commit m = some w') : w'.Inv gob := by
  have hlogged := h.logged.commit hs
  obtain ⟨e, -, -, rfl⟩ := commit_cases hs
  exact h.inner hlogged rfl rfl rfl fun j k req p hp => ⟨p, hp⟩

theorem Inv.handover (h : w.Inv gob) (hgob : gob.RoundTrips) {maxraftstate : ℤ}
    {a : Handover (Fin n)} (hs : w.handover gob maxraftstate a = some w') : w'.Inv gob := by
  have hlogged := h.logged.handover hgob hs
  obtain ⟨group, hgroup, hcases⟩ := handover_cases hs
  have hsame : ∀ {i : Fin n} {rsm : RSM (Command K V) (Reply V)},
      rsm.headers = (w.rsm i).headers → ∀ j k req p, w.header j k = some (req, p) →
        ∃ p, (w.setRsm i rsm).header j k = some (req, p) := by
    intro i rsm hheaders j k req p hp
    rw [header_setRsm hheaders]
    exact ⟨p, hp⟩
  obtain ⟨i, pointer, e, rsm, he, hrsm, rfl⟩ | rfl | ⟨i, rfl⟩ := hcases
  · have hheaders : rsm.headers = (w.rsm i).headers := by
      rw [RSM.execute_cases hrsm]
      rfl
    exact h.inner hlogged (List.append_nil _).symm rfl rfl (hsame hheaders)
  · exact h.inner hlogged (List.append_nil _).symm rfl rfl fun j k req p hp => ⟨p, hp⟩
  · exact h.inner hlogged (List.append_nil _).symm rfl rfl (hsame (h.logged.rsm i).crash.2)

/-- A clerk goes on without the network. -/
theorem Inv.setPhase (h : w.Inv gob) {c : ℕ} {call : ClerkCall n K V} {phase : ClerkPhase n V}
    {lastLeader : ℕ → Option (Fin n)} (hc : w.calls[c]? = some call)
    (hphase : w.Accounted c { call with phase := phase }) :
    Inv gob { w.setPhase c call phase with lastLeader := lastLeader } := by
  refine ⟨h.logged.congr rfl rfl rfl rfl, fun rpc hrpc => ?_, fun c' call' hc' => ?_⟩
  · obtain ⟨call₁, hcall₁, hsubmission⟩ := h.routed rpc hrpc
    obtain ⟨call', hcall', hcommand⟩ := setPhase_command phase hc hcall₁
    exact ⟨call', hcall', hcommand ▸ hsubmission⟩
  · have hold : w.Accounted c' call' := by
      rcases setPhase_calls hc' with ⟨rfl, rfl⟩ | ⟨-, hc'⟩
      · exact hphase
      · exact h.calls c' call' hc'
    exact hold.later h.logged (.of_rpcs (List.append_nil _).symm rfl)
      fun j rpc hrpc hcall => ⟨rpc, hrpc, hcall⟩

/-- A clerk that is about to send again answers for nothing but what it has seen. -/
theorem Accounted.resend {c : ℕ} {call : ClerkCall n K V} (h : w.Accounted c call) (i : Fin n) :
    w.Accounted c { call with phase := .sending i true } where
  sending := by simp
  waiting := by simp
  returned := by simp
  after := h.after

theorem Inv.giveUp [NeZero n] (h : w.Inv gob) {c : ℕ} (hs : w.giveUp c = some w') :
    w'.Inv gob := by
  obtain ⟨call, i, isResend, j, hc, -, rfl⟩ := giveUp_cases hs
  exact h.setPhase hc ((h.calls c call hc).resend (next i))

/-- A reply that a clerk accepts is the reply to its operation where that is committed. -/
theorem Inv.settled (h : w.Inv gob) {j k : ℕ} {rpc : Rpc n}
    {submission : Call (Command K V) (Reply V)} {err : Err} {value : Option (Reply V)}
    {isResend : Bool} (hrpc : w.rpcs[j]? = some rpc) (hk : rpc.submission = some k)
    (hsubmission : (w.rsm rpc.server).calls[k]? = some submission)
    (hreturned : submission.phase = .returned err value)
    (haccepted : (handlerReply err value submission.req).err ≠ .errWrongLeader)
    (hfirst : isResend = false → w.Only rpc.call j) :
    ∃ m e, w.Settled rpc.call (clerkReply isResend (handlerReply err value submission.req)) j m e
      isResend := by
  have hsound := (h.logged.rsm rpc.server).calls submission (List.mem_of_getElem? hsubmission)
  obtain ⟨rfl, p, hp, x, hx, hindex, hterm, rfl⟩ | ⟨rfl, rfl⟩ := hsound.returned err value hreturned
  case inr => exact absurd (handlerReply_wrongLeader submission.req) haccepted
  have hheader : w.header rpc.server k = some (submission.req, some p) := by
    have hplace : submission.place = some p := hp
    rw [header, RSM.headers, List.getElem?_map, hsubmission, Option.map_some, Call.header, hplace]
  obtain ⟨e, he, hserver, rfl, rfl⟩ := h.logged.placed _ _ _ _ hheader
  obtain ⟨m, e', hcommitted, hindex', hterm', hvalue⟩ := h.logged.executed _ x hx
  obtain rfl : e' = e := h.logged.unique e' (h.logged.committed m e' hcommitted).1 e he
    (hindex'.symm.trans hindex) (hterm'.symm.trans hterm)
  have hreq : e'.req = submission.req := by
    have hhanded := h.logged.handed e' he
    rw [hserver, hheader] at hhanded
    exact (congrArg Prod.fst (Option.some.inj hhanded)).symm
  refine ⟨m, e', ⟨⟨rpc, hrpc, rfl, hserver.symm, hk⟩, hcommitted, ?_, hfirst⟩⟩
  rw [hvalue, ← hreq, handlerReply_ok]

theorem Inv.reply [NeZero n] (h : w.Inv gob) {j : ℕ} (hs : w.reply j = some w') : w'.Inv gob := by
  obtain ⟨rpc, k, submission, call, err, value, i, isResend, hrpc, hk, hsubmission, hcall,
    hreturned, hwaiting, rfl⟩ := reply_cases hs
  have hold := h.calls _ call hcall
  unfold finish
  split_ifs with haccepted
  · have hfirst : isResend = false → w.Only rpc.call j := by
      rintro rfl
      exact hold.waiting i j hwaiting
    obtain ⟨m, e, hsettled⟩ :=
      h.settled hrpc hk hsubmission hreturned haccepted hfirst
    refine h.setPhase hcall ⟨by simp, by simp, fun reply hreply => ?_, hold.after⟩
    cases hreply
    exact ⟨j, m, e, isResend, hsettled⟩
  · exact h.setPhase hcall (hold.resend (next i))

theorem Inv.send (h : w.Inv gob) {c : ℕ} (hs : w.send c = some w') : w'.Inv gob := by
  obtain ⟨call, i, isResend, hc, hsending, rfl⟩ := send_cases hs
  have hold := h.calls c call hc
  set w' : World n K V B := { w.setPhase c call (.waiting i isResend w.rpcs.length) with
    rpcs := w.rpcs ++ [⟨c, i, none⟩] }
  have hnew : ∀ (j : ℕ) (rpc : Rpc n), w'.rpcs[j]? = some rpc →
      w.rpcs[j]? = some rpc ∨ j = w.rpcs.length ∧ rpc = ⟨c, i, none⟩ :=
    fun j rpc hrpc => getElem?_append_singleton_cases hrpc
  have hlater : Later w w' := by
    refine ⟨⟨[], (List.append_nil _).symm⟩, fun j rpc hrpc => ?_, ?_⟩
    · exact ⟨rpc, getElem?_append_of_some _ hrpc, rfl, rfl, fun _ => id⟩
    · rintro c' e - ⟨rpc, hrpc, hcall, hserver, hsubmission⟩
      rcases List.mem_append.mp hrpc with hrpc | hrpc
      · exact ⟨rpc, hrpc, hcall, hserver, hsubmission⟩
      · rw [List.mem_singleton.mp hrpc] at hsubmission
        cases hsubmission
  refine ⟨h.logged.congr rfl rfl rfl rfl, fun rpc hrpc => ?_, fun c' call' hc' => ?_⟩
  · rcases List.mem_append.mp hrpc with hrpc | hrpc
    · obtain ⟨call₁, hcall₁, hsubmission⟩ := h.routed rpc hrpc
      obtain ⟨call', hcall', hcommand⟩ := setPhase_command _ hc hcall₁
      exact ⟨call', hcall', hcommand ▸ hsubmission⟩
    · rw [List.mem_singleton.mp hrpc]
      obtain ⟨call', hcall', -⟩ := setPhase_command _ hc hc
      exact ⟨call', hcall', nofun⟩
  · rcases setPhase_calls hc' with ⟨rfl, rfl⟩ | ⟨hne, hc'⟩
    · refine ⟨nofun, fun i' j' hwaiting j rpc hrpc hcall => ?_, nofun, hold.after.later h.logged hlater⟩
      cases hwaiting
      rcases hnew j rpc hrpc with hrpc | ⟨hj, -⟩
      · exact absurd hcall (hold.sending i hsending rpc (List.mem_of_getElem? hrpc))
      · exact hj
    · refine (h.calls c' call' hc').later h.logged hlater fun j rpc hrpc hcall => ?_
      rcases hnew j rpc hrpc with hrpc | ⟨-, rfl⟩
      · exact ⟨rpc, hrpc, hcall⟩
      · exact absurd hcall.symm hne

theorem Inv.arrive (h : w.Inv gob) {j : ℕ} (hs : w.arrive j = some w') : w'.Inv gob := by
  obtain ⟨rpc, call, hrpc, hcall, hnone, rfl⟩ := arrive_cases hs
  have hfresh : ∀ i k req p, w.header i k = some (req, p) →
      (w.setRsm rpc.server ((w.rsm rpc.server).submit call.command)).header i k = some (req, p) ∧
        ¬(i = rpc.server ∧ k = (w.rsm rpc.server).calls.length) := by
    intro i k req p hp
    have hne : ¬(i = rpc.server ∧ k = (w.rsm rpc.server).calls.length) := by
      rintro ⟨rfl, rfl⟩
      simp [header, RSM.headers] at hp
    rw [header_submit, if_neg hne]
    exact ⟨hp, hne⟩
  obtain ⟨hj, hget⟩ := List.getElem?_eq_some_iff.mp hrpc
  refine ⟨(h.logged.submit rpc.server call.command).congr rfl rfl rfl rfl, ?_, ?_⟩
  · intro rpc' hrpc'
    rcases List.mem_or_eq_of_mem_set hrpc' with hrpc' | rfl
    · obtain ⟨call', hcall', hsubmission⟩ := h.routed rpc' hrpc'
      refine ⟨call', hcall', fun k hk => ?_⟩
      obtain ⟨p, hp⟩ := hsubmission k hk
      exact ⟨p, (hfresh _ _ _ _ hp).1⟩
    · refine ⟨call, hcall, fun k hk => ⟨none, ?_⟩⟩
      cases hk
      exact (header_submit call.command rpc.server _).trans (if_pos ⟨rfl, rfl⟩)
  · intro c' call' hc'
    refine (h.calls c' call' hc').later h.logged ⟨⟨[], (List.append_nil _).symm⟩, ?_, ?_⟩ ?_
    · intro j' rpc' hrpc'
      rcases eq_or_ne j' j with rfl | hne
      · cases hrpc.symm.trans hrpc'
        refine ⟨_, List.getElem?_set_self hj, rfl, rfl, fun k hk => ?_⟩
        cases hnone.symm.trans hk
      · exact ⟨rpc', (List.getElem?_set_ne hne.symm).trans hrpc', rfl, rfl, fun _ => id⟩
    · rintro c e he ⟨rpc', hrpc', hsent⟩
      rcases List.mem_or_eq_of_mem_set hrpc' with hrpc' | rfl
      · exact ⟨rpc', hrpc', hsent⟩
      · refine absurd ?_ (hfresh _ _ _ _ (h.logged.handed e he)).2
        exact ⟨hsent.2.1.symm, (Option.some.inj hsent.2.2).symm⟩
    · intro j' rpc' hrpc' hc
      rcases eq_or_ne j' j with rfl | hne
      · cases (List.getElem?_set_self hj).symm.trans hrpc'
        exact ⟨rpc, hrpc, hc⟩
      · exact ⟨rpc', (List.getElem?_set_ne hne.symm).symm.trans hrpc', hc⟩

omit [DecidableEq K] [Inhabited V] in
theorem mem_returnedOk {c : ℕ} (h : c ∈ w.returnedOk) :
    ∃ call, w.calls[c]? = some call ∧ call.phase = .returned (.put ⟨.ok⟩) := by
  obtain ⟨-, hok⟩ := List.mem_filter.mp h
  cases hcall : w.calls[c]? with
  | none => simp [hcall] at hok
  | some call =>
    refine ⟨call, rfl, ?_⟩
    rw [hcall, Option.any_some] at hok
    unfold ClerkPhase.isOk at hok
    split at hok
    case h_1 reply hphase =>
      obtain ⟨err⟩ := reply
      obtain rfl : err = .ok := of_decide_eq_true hok
      exact hphase
    case h_2 => cases hok

/-- The copies of an operation ask for what the clerk was asked for. -/
theorem Inv.req_eq (h : w.Inv gob) {c : ℕ} {call : ClerkCall n K V} {m : ℕ} {e : Entry n K V}
    (hc : w.calls[c]? = some call) (he : w.committed[m]? = some e) (hsent : w.Sent c e) :
    e.req = call.command := by
  obtain ⟨rpc, hrpc, rfl, hserver, hsubmission⟩ := hsent
  obtain ⟨call', hcall', hheader⟩ := h.routed rpc hrpc
  cases hc.symm.trans hcall'
  obtain ⟨p, hp⟩ := hheader _ hsubmission
  rw [hserver, h.logged.handed e (h.logged.committed m e he).1] at hp
  exact congrArg Prod.fst (Option.some.inj hp)

omit [Inhabited V] [DecidableEq K] in
theorem clerkReply_eq_ok {isResend : Bool} {reply : Reply V}
    (h : clerkReply isResend reply = .put ⟨.ok⟩) : reply = .put ⟨.ok⟩ := by
  cases reply with
  | get reply => cases h
  | put reply =>
    simp only [clerkReply, Reply.put.injEq] at h
    split_ifs at h
    · cases h
    · rw [h]

omit [Inhabited V] [DecidableEq K] in
theorem clerkReply_eq_errVersion {isResend : Bool} {reply : Reply V}
    (h : clerkReply isResend reply = .put ⟨.errVersion⟩) :
    isResend = false ∧ reply = .put ⟨.errVersion⟩ := by
  cases reply with
  | get reply => cases h
  | put reply =>
    simp only [clerkReply, Reply.put.injEq] at h
    split_ifs at h with hresend
    · cases h
    · subst h
      exact ⟨by simpa using hresend, rfl⟩

/-- A `Put` that returned `OK` has changed the map. -/
theorem Settled.changes {c j m : ℕ} {e : Entry n K V} {isResend : Bool}
    (h : w.Settled c (.put ⟨.ok⟩) j m e isResend) : w.Changes c m := by
  have hreply := clerkReply_eq_ok h.reply.symm
  obtain ⟨args, hargs⟩ := exists_put_of_replyAfter hreply
  obtain ⟨rpc, hrpc, hsent⟩ := h.sent
  refine ⟨e, h.committed, ⟨rpc, List.mem_of_getElem? hrpc, hsent⟩, ?_⟩
  rw [hargs] at hreply
  exact (changesAt_iff (hargs ▸ getElem?_ops h.committed)).mpr hreply

/-- A `Put` that returned `ErrVersion` was sent once, and that changes nothing. -/
theorem Inv.not_changes (h : w.Inv gob) {c j m : ℕ} {e : Entry n K V} {isResend : Bool}
    (hs : w.Settled c (.put ⟨.errVersion⟩) j m e isResend) (m' : ℕ) : ¬w.Changes c m' := by
  rintro ⟨e', he', ⟨rpc', hrpc', hcall', hserver', hsubmission'⟩, hchange⟩
  obtain ⟨hfirst, hreply⟩ := clerkReply_eq_errVersion hs.reply.symm
  obtain ⟨rpc, hrpc, -, hserver, hsubmission⟩ := hs.sent
  obtain ⟨j', hj'⟩ := List.mem_iff_getElem?.mp hrpc'
  obtain rfl := hs.first hfirst j' rpc' hj' hcall'
  cases hrpc.symm.trans hj'
  obtain ⟨hmem, hindex⟩ := h.logged.committed m e hs.committed
  obtain ⟨hmem', hindex'⟩ := h.logged.committed m' e' he'
  have hheader := h.logged.handed e hmem
  rw [hserver.symm.trans hserver', Option.some.inj (hsubmission.symm.trans hsubmission'),
    h.logged.handed e' hmem'] at hheader
  simp only [Option.some.injEq, Prod.mk.injEq] at hheader
  obtain rfl : m' = m := by omega
  cases hs.committed.symm.trans he'
  obtain ⟨args, hargs⟩ := exists_put_of_replyAfter hreply
  rw [hargs] at hreply
  cases hreply.symm.trans ((changesAt_iff (hargs ▸ getElem?_ops he')).mp hchange)

theorem Inv.invoke [NeZero n] (h : w.Inv gob) (clerk : ℕ) (command : Command K V) :
    (w.invoke clerk command).Inv gob := by
  have hlt : ∀ rpc ∈ w.rpcs, rpc.call < w.calls.length := by
    intro rpc hrpc
    obtain ⟨call, hcall, -⟩ := h.routed rpc hrpc
    exact (List.getElem?_eq_some_iff.mp hcall).1
  refine ⟨h.logged.congr rfl rfl rfl rfl, fun rpc hrpc => ?_, fun c call hc => ?_⟩
  · obtain ⟨call, hcall, hsubmission⟩ := h.routed rpc hrpc
    exact ⟨call, getElem?_append_of_some _ hcall, hsubmission⟩
  · have hold : w.Accounted c call := by
      rcases getElem?_append_singleton_cases hc with hc | ⟨rfl, rfl⟩
      · exact h.calls c call hc
      · refine ⟨fun _ _ rpc hrpc hcall => ?_, nofun, nofun, fun c' hc' => ?_⟩
        · exact absurd hcall (Nat.ne_of_lt (hlt rpc hrpc))
        · obtain ⟨call', hcall', hok⟩ := mem_returnedOk hc'
          obtain ⟨j, m, e, isResend, hsettled⟩ := (h.calls c' call' hcall').returned _ hok
          refine ⟨m, hsettled.changes, ?_⟩
          rintro m' e' - ⟨rpc, hrpc, hcall, -⟩
          exact absurd hcall (Nat.ne_of_lt (hlt rpc hrpc))
    exact hold.later h.logged (.of_rpcs (List.append_nil _).symm rfl)
      fun j rpc hrpc hcall => ⟨rpc, hrpc, hcall⟩

theorem Inv.step [NeZero n] (h : w.Inv gob) (hgob : gob.RoundTrips) {maxraftstate : ℤ}
    {a : Action n K V} (hfree : w.FreshPlace a) (hs : w.step gob maxraftstate a = some w') :
    w'.Inv gob := by
  cases a with
  | invoke clerk command =>
    cases hs
    exact h.invoke clerk command
  | send c => exact h.send hs
  | giveUp c => exact h.giveUp hs
  | arrive j => exact h.arrive hs
  | reply j => exact h.reply hs
  | start i k answer => exact h.start hfree hs
  | event i e =>
    obtain ⟨rsm, hrsm, rfl⟩ := Option.map_eq_some_iff.mp hs
    exact h.event hrsm
  | commit m => exact h.commit hs
  | handover a => exact h.handover hgob hs

/-- A call that has returned stays as it is. -/
theorem returned_step [NeZero n] {maxraftstate : ℤ} {a : Action n K V}
    (hs : w.step gob maxraftstate a = some w') {c : ℕ} {call : ClerkCall n K V} {reply : Reply V}
    (hc : w.calls[c]? = some call) (hreply : call.phase = .returned reply) :
    w'.calls[c]? = some call := by
  have hother : ∀ {c' : ℕ} {call' : ClerkCall n K V} (phase : ClerkPhase n V),
      w.calls[c']? = some call' → (∀ reply, call'.phase ≠ .returned reply) →
        (w.setPhase c' call' phase).calls[c]? = some call := by
    intro c' call' phase hc' hphase
    have hne : c' ≠ c := by
      rintro rfl
      cases hc.symm.trans hc'
      exact hphase reply hreply
    exact (List.getElem?_set_ne hne).trans hc
  cases a with
  | invoke clerk command =>
    cases hs
    exact getElem?_append_of_some _ hc
  | send c' =>
    obtain ⟨call', i, isResend, hc', hphase, rfl⟩ := send_cases hs
    exact hother _ hc' (by simp [hphase])
  | giveUp c' =>
    obtain ⟨call', i, isResend, j, hc', hphase, rfl⟩ := giveUp_cases hs
    exact hother _ hc' (by simp [hphase])
  | arrive j =>
    obtain ⟨rpc, call', -, -, -, rfl⟩ := arrive_cases hs
    exact hc
  | reply j =>
    obtain ⟨rpc, k, submission, call', err, value, i, isResend, -, -, -, hc', -, hphase, rfl⟩ :=
      reply_cases hs
    unfold finish
    split_ifs
    · exact hother _ hc' (by simp [hphase])
    · exact hother _ hc' (by simp [hphase])
  | start i k answer =>
    obtain ⟨submission, rsm, -, -, ⟨-, rfl⟩ | ⟨lastLogIndex, term, -, rfl⟩⟩ := start_cases hs
    · exact hc
    · exact hc
  | event i e =>
    obtain ⟨rsm, -, rfl⟩ := Option.map_eq_some_iff.mp hs
    exact hc
  | commit m =>
    obtain ⟨e, -, -, rfl⟩ := commit_cases hs
    exact hc
  | handover a =>
    obtain ⟨group, -, ⟨i, pointer, e, rsm, -, -, rfl⟩ | rfl | ⟨i, rfl⟩⟩ := handover_cases hs
    · exact hc
    · exact hc
    · exact hc

end Steps

variable [NeZero n] {gob : Labgob K V B} {maxraftstate : ℤ} {w : World n K V B}

theorem inv_of_reaches (hgob : gob.RoundTrips)
    (hw : Reaches (step gob maxraftstate) FreshPlace (init gob) w) : w.Inv gob := by
  have hkept : ∀ (w : World n K V B) a w', w.Inv gob → w.FreshPlace a →
      w.step gob maxraftstate a = some w' → w'.Inv gob :=
    fun w a w' h hfree hs => h.step hgob hfree hs
  exact hw.invariant inv_init hkept

theorem returned_of_reaches {w' : World n K V B}
    (hw : Reaches (step gob maxraftstate) FreshPlace w w') {c : ℕ} {call : ClerkCall n K V}
    {reply : Reply V} (hc : w.calls[c]? = some call) (hreply : call.phase = .returned reply) :
    w'.calls[c]? = some call := by
  have hkept : ∀ (w : World n K V B) a w', w.calls[c]? = some call → w.FreshPlace a →
      w.step gob maxraftstate a = some w' → w'.calls[c]? = some call :=
    fun w a w' h _ hs => returned_step hs h hreply
  exact @Reaches.invariant _ _ _ _ _ _ (fun w => w.calls[c]? = some call) hw hc hkept

omit [NeZero n] in
/-- A `Get` that is made after the `Put` has returned `OK` is answered behind the change. -/
theorem Inv.version_of_get (h : w.Inv gob) {c : ℕ} {call : ClerkCall n K V} {args : PutArgs K V}
    (hc : w.calls[c]? = some call) (hput : call.command = .put args)
    (hfew : successes args.key w.ops < UInt64.size) {g : ℕ} {get : ClerkCall n K V}
    {reply : Reply V} (hg : w.calls[g]? = some get) (hget : get.command = .get ⟨args.key⟩)
    (hafter : c ∈ get.after) (hreply : get.phase = .returned reply) :
    ∃ r, reply = .get r ∧ r.err = .ok ∧ args.version.toNat + 1 ≤ r.version.toNat := by
  have hacc := h.calls g get hg
  obtain ⟨j, m, e, isResend, hsettled⟩ := hacc.returned reply hreply
  obtain ⟨m₀, ⟨e₀, he₀, hsent₀, hchange⟩, hbefore⟩ := hacc.after c hafter
  obtain ⟨rpc, hrpc, hsent⟩ := hsettled.sent
  have hsent : w.Sent g e := ⟨rpc, List.mem_of_getElem? hrpc, hsent⟩
  have hlt : m₀ < m := hbefore m e hsettled.committed hsent
  have hargs : w.ops[m₀]? = some (.put args) := by
    rw [getElem?_ops he₀, h.req_eq hc he₀ hsent₀, hput]
  have hversion := version_lt_of_changesAt hfew hargs hchange hlt
  have hanswer := hsettled.reply
  rw [h.req_eq hg hsettled.committed hsent, hget] at hanswer
  have hget : replyAfter (w.ops.take m) (.get ⟨args.key⟩) = .get _ := rfl
  obtain ⟨hr, hok⟩ := replyAfter_get hget
  refine ⟨_, hanswer, hok fun hzero => ?_, ?_⟩
  · rw [hr] at hzero
    simp [hzero] at hversion
  · rw [hr]
    exact hversion

/-- Let no two calls of `Start` be given the same place. Of all the copies of a `Put` that a clerk has
sent, one at most changes the map. If the clerk returned `OK`, one has; if it returned `ErrVersion`,
none does, however long one waits; and a `Get` that is made after `OK` finds a larger version. -/
theorem put_at_most_once (hgob : gob.RoundTrips)
    (hw : Reaches (step gob maxraftstate) FreshPlace (init gob) w) {c : ℕ} {call : ClerkCall n K V}
    {args : PutArgs K V} (hc : w.calls[c]? = some call) (hput : call.command = .put args)
    (hfew : successes args.key w.ops < UInt64.size) :
    (∀ m m', w.Changes c m → w.Changes c m' → m = m') ∧
    (call.phase = .returned (.put ⟨.ok⟩) → ∃! m, w.Changes c m) ∧
    (call.phase = .returned (.put ⟨.errVersion⟩) →
      ∀ w', Reaches (step gob maxraftstate) FreshPlace w w' → ∀ m, ¬w'.Changes c m) ∧
    ∀ (g : ℕ) (get : ClerkCall n K V) (reply : Reply V), w.calls[g]? = some get →
      get.command = .get ⟨args.key⟩ → c ∈ get.after → get.phase = .returned reply →
      ∃ r, reply = .get r ∧ r.err = .ok ∧ args.version.toNat + 1 ≤ r.version.toNat := by
  have h := inv_of_reaches hgob hw
  have hunique : ∀ m m', w.Changes c m → w.Changes c m' → m = m' := by
    rintro m m' ⟨e, he, hsent, hchange⟩ ⟨e', he', hsent', hchange'⟩
    have hm := getElem?_ops he
    have hm' := getElem?_ops he'
    rw [h.req_eq hc he hsent, hput] at hm
    rw [h.req_eq hc he' hsent', hput] at hm'
    exact changesAt_unique hfew hm hchange hm' hchange'
  refine ⟨hunique, fun hok => ?_, fun herr w' hw' => ?_, fun g get reply hg hget hafter hreply => ?_⟩
  · obtain ⟨j, m, e, isResend, hsettled⟩ := (h.calls c call hc).returned _ hok
    exact ⟨m, hsettled.changes, fun m' hm' => hunique m' m hm' hsettled.changes⟩
  · have h' := inv_of_reaches hgob (hw.trans hw')
    have hc' := returned_of_reaches hw' hc herr
    obtain ⟨j, m, e, isResend, hsettled⟩ := (h'.calls c call hc').returned _ herr
    exact h'.not_changes hsettled
  · exact h.version_of_get hc hput hfew hg hget hafter hreply

/-- The first RPC of a `Put` arrives after the second one has been answered, and a second copy of
the operation is committed before the `Get`. -/
theorem put_at_most_once_late_copy : ∃ w : World 2 ℕ ℕ (KeyValue ℕ ℕ),
    Reaches (step (plainGob ℕ ℕ) 0) FreshPlace (init (plainGob ℕ ℕ)) w ∧ w.ops.length = 3 ∧
      (∃! m, w.Changes 0 m) ∧ ∃ (get : ClerkCall 2 ℕ ℕ) (reply : GetReply ℕ),
        w.calls[1]? = some get ∧ 0 ∈ get.after ∧ get.phase = .returned (.get reply) ∧
          1 ≤ reply.version.toNat := by
  obtain ⟨w, hreach, hlength, hcalls, hfew⟩ :=
    exists_reaches (step (plainGob ℕ ℕ) 0) FreshPlace (init (n := 2) (plainGob ℕ ℕ))
      [.invoke 0 (.put ⟨7, 5, 0⟩), .send 0, .giveUp 0, .send 0, .arrive 1, .start 1 0 (some (0, 1)),
        .event 1 (.register 0), .commit 0, .handover (.command 1 true 0), .event 1 .notify,
        .event 1 (.receive 0), .event 1 (.leave 0), .reply 1, .arrive 0, .start 0 0 (some (1, 2)),
        .commit 1, .invoke 1 (.get ⟨7⟩), .send 1, .arrive 2, .start 0 1 (some (2, 2)),
        .event 0 (.register 1), .commit 2, .handover (.command 0 false 0), .event 0 .notify,
        .handover (.command 0 true 0), .event 0 .notify, .handover (.command 0 true 0),
        .event 0 .notify, .event 0 (.receive 1), .event 0 (.leave 1), .reply 2]
      (fun w => w.ops.length = 3 ∧ w.calls = [⟨0, .put ⟨7, 5, 0⟩, .returned (.put ⟨.ok⟩), []⟩,
          ⟨1, .get ⟨7⟩, .returned (.get ⟨5, 1, .ok⟩), [0]⟩] ∧ successes 7 w.ops = 1)
      (by decide +kernel)
  have hput : w.calls[0]? = some ⟨0, .put ⟨7, 5, 0⟩, .returned (.put ⟨.ok⟩), []⟩ := by rw [hcalls]; rfl
  have hget : w.calls[1]? = some ⟨1, .get ⟨7⟩, .returned (.get ⟨5, 1, .ok⟩), [0]⟩ := by
    rw [hcalls]; rfl
  obtain ⟨-, hok, -, hlater⟩ :=
    put_at_most_once (fun _ _ => rfl) hreach hput rfl (by rw [hfew]; decide)
  obtain ⟨r, hr, -, hversion⟩ := hlater 1 _ _ hget rfl (by simp) rfl
  cases hr
  exact ⟨w, hreach, hlength, hok rfl, _, _, hget, by simp, rfl, hversion⟩

/-- Two servers lead in one term, and `Start` gives a `Put` at each of them the same place. The one
that is not committed is answered with the result of the other: its clerk returns `OK`, and a `Get`
that is made afterwards does not find the key. -/
theorem put_ok_without_effect : ∃ w : World 2 ℕ ℕ (KeyValue ℕ ℕ),
    Reaches (step (plainGob ℕ ℕ) 0) anyStep (init (plainGob ℕ ℕ)) w ∧
      (w.committed.map fun e => (e.server, e.submission)).Nodup ∧
      successes 8 w.ops < UInt64.size ∧
      w.calls[1]? = some ⟨1, .put ⟨8, 6, 0⟩, .returned (.put ⟨.ok⟩), []⟩ ∧
      (∀ m, ¬w.Changes 1 m) ∧
      w.calls[2]? = some ⟨2, .get ⟨8⟩, .returned (.get ⟨0, 0, .errNoKey⟩), [1]⟩ := by
  obtain ⟨w, hreach, honce, hfew, hput, hget, hcommitted, hsent⟩ :=
    exists_reaches (step (plainGob ℕ ℕ) 0) anyStep (init (n := 2) (plainGob ℕ ℕ))
      [.invoke 0 (.put ⟨7, 5, 0⟩), .send 0, .invoke 1 (.put ⟨8, 6, 0⟩), .send 1, .giveUp 1, .send 1,
        .arrive 0, .arrive 2, .start 0 0 (some (0, 1)), .start 1 0 (some (0, 1)),
        .event 1 (.register 0), .commit 0, .handover (.command 1 false 0), .event 1 .notify,
        .event 1 (.receive 0), .event 1 (.leave 0), .reply 2, .invoke 2 (.get ⟨8⟩), .send 2,
        .arrive 3, .start 0 1 (some (1, 1)), .event 0 (.register 1), .commit 2,
        .handover (.command 0 true 0), .event 0 .notify, .handover (.command 0 true 0),
        .event 0 .notify, .event 0 (.receive 1), .event 0 (.leave 1), .reply 3]
      (fun w => (w.committed.map fun e => (e.server, e.submission)).Nodup ∧
        successes 8 w.ops < UInt64.size ∧
        w.calls[1]? = some ⟨1, .put ⟨8, 6, 0⟩, .returned (.put ⟨.ok⟩), []⟩ ∧
        w.calls[2]? = some ⟨2, .get ⟨8⟩, .returned (.get ⟨0, 0, .errNoKey⟩), [1]⟩ ∧
        (∀ e ∈ w.committed, e.server = 0) ∧
        ∀ rpc ∈ w.rpcs, rpc.call = 1 → rpc.submission ≠ none → rpc.server = 1)
      (by decide +kernel)
  refine ⟨w, hreach, honce, hfew, hput, ?_, hget⟩
  rintro m ⟨e, he, ⟨rpc, hrpc, hcall, hserver, hsubmission⟩, -⟩
  have hzero : e.server = 0 := hcommitted e (List.mem_of_getElem? he)
  have hone : rpc.server = 1 := hsent rpc hrpc hcall (by simp [hsubmission])
  rw [hserver, hzero] at hone
  cases hone

end DistributedLabs.Kvraft.World
