import DistributedLabs.Rsm
import DistributedLabs.VersionedStore
import Mathlib.Data.List.Pairwise
import Mathlib.Order.Nat

/-!
# `Submit`

Any number of calls of `Submit` on one `RSM`, the goroutine that reads the channel
from Raft, and the channels on which the calls wait. The map `waitChs` knows a
channel by its index only, so calls that were given the same index overwrite and
delete each other's registrations. What a call makes of a result depends on the
index and the term in the result alone, and these say which command was executed.
-/

namespace DistributedLabs.Rsm
open Kv TransitionRuns

/-- What `Submit` hands to Raft; the id is always 0. -/
structure Op (C : Type) where
  me : ℕ
  id : ℕ
  req : C
  deriving DecidableEq

structure Result (R : Type) where
  index : ℕ
  term : ℕ
  value : Option R
  deriving DecidableEq

/-- What a channel gives that is closed and empty. -/
def Result.zero (R : Type) : Result R := ⟨0, 0, none⟩

/-- A channel with room for one result. -/
structure Channel (R : Type) where
  buffer : Option (Result R)
  closed : Bool
  deriving DecidableEq

namespace Channel
variable {R : Type}

def make (R : Type) : Channel R := ⟨none, false⟩

/-- A receive blocks while there is nothing in an open channel. -/
def receive (ch : Channel R) : Option (Result R × Channel R) :=
  match ch.buffer with
  | some result => some (result, { ch with buffer := none })
  | none => if ch.closed then some (.zero R, ch) else none

/-- A send with a default branch. -/
def trySend (ch : Channel R) (result : Result R) : Channel R :=
  { ch with buffer := ch.buffer.or (some result) }

theorem receive_cases {ch ch' : Channel R} {r : Result R} (hs : ch.receive = some (r, ch')) :
    ch.buffer = some r ∧ ch'.buffer = none ∨ ch.buffer = none ∧ r = .zero R ∧ ch' = ch := by
  unfold receive at hs
  split at hs
  case h_1 result hbuffer =>
    cases hs
    exact Or.inl ⟨hbuffer, rfl⟩
  case h_2 hbuffer =>
    split_ifs at hs
    cases hs
    exact Or.inr ⟨hbuffer, rfl, rfl⟩

end Channel

inductive Phase (R : Type)
  | invoked
  /-- `Start` has answered, the channel is not registered yet -/
  | started
  | waiting
  /-- the answer is settled, the deferred deletion is still to come -/
  | leaving (err : Err) (value : Option R)
  | returned (err : Err) (value : Option R)
  /-- the process has crashed -/
  | lost
  deriving DecidableEq

structure Call (C R : Type) where
  req : C
  /-- the index and the term that `Start` gave -/
  place : Option (ℕ × ℕ)
  ch : Channel R
  phase : Phase R

namespace Call
variable {C R : Type}

def submit (req : C) : Call C R := ⟨req, none, .make R, .invoked⟩

/-- A leader answers with the index behind its last one and its term. -/
def start (c : Call C R) (answer : Option (ℕ × ℕ)) : Option (Call C R) :=
  match c.phase with
  | .invoked =>
    match answer with
    | none => some { c with phase := .returned .errWrongLeader none }
    | some (lastLogIndex, term) =>
      some { c with place := some (lastLogIndex + 1, term), phase := .started }
  | _ => none

def register (c : Call C R) : Option (Call C R) :=
  match c.phase with
  | .started => some { c with phase := .waiting }
  | _ => none

/-- What the call makes of a result. -/
def settle (index term : ℕ) (result : Result R) : Phase R :=
  if result.index = index ∧ result.term = term then .leaving .ok result.value
  else .leaving .errWrongLeader none

def receive (c : Call C R) : Option (Call C R) :=
  match c.phase, c.place with
  | .waiting, some (index, term) =>
    c.ch.receive.map fun r => { c with ch := r.2, phase := settle index term r.1 }
  | _, _ => none

def timeout (c : Call C R) : Option (Call C R) :=
  match c.phase with
  | .waiting => some { c with phase := .leaving .errWrongLeader none }
  | _ => none

def leave (c : Call C R) : Option (Call C R) :=
  match c.phase with
  | .leaving err value => some { c with phase := .returned err value }
  | _ => none

/-- A crash ends the calls that have not returned. -/
def crash (c : Call C R) : Call C R :=
  match c.phase with
  | .returned _ _ => c
  | _ => { c with phase := .lost }

end Call

inductive Reader (R : Type)
  | idle
  /-- the command is executed, the waiter is not told yet -/
  | notifying (result : Result R)
  /-- the channel from Raft was closed -/
  | stopped

/-- History: what the reader has executed, and what `DoOp` returned. -/
structure Execution (C R : Type) where
  index : ℕ
  term : ℕ
  req : C
  value : R

structure RSM (C R : Type) where
  /-- for an index the call whose channel is registered -/
  waitChs : List (ℕ × ℕ)
  calls : List (Call C R)
  reader : Reader R
  executed : List (Execution C R)

inductive Event
  | register (k : ℕ)
  | receive (k : ℕ)
  | timeout (k : ℕ)
  | leave (k : ℕ)
  | notify
  | shutdown

namespace RSM
variable {C R : Type}

def make (C R : Type) : RSM C R := ⟨[], [], .idle, []⟩

def update (s : RSM C R) (k : ℕ) (f : Call C R → Option (Call C R)) : Option (RSM C R) := do
  let c ← s.calls[k]?
  let c' ← f c
  pure { s with calls := s.calls.set k c' }

/-- The map without the entry of the call's index. -/
def unregistered (s : RSM C R) (k : ℕ) : List (ℕ × ℕ) :=
  s.waitChs.filter fun entry => (s.calls[k]?).bind Call.place |>.all fun p => p.1 ≠ entry.1

/-- The map with the call's channel under its index. -/
def registered (s : RSM C R) (k : ℕ) : List (ℕ × ℕ) :=
  (((s.calls[k]?).bind Call.place).map fun p => (p.1, k)).toList ++ s.unregistered k

def submit (s : RSM C R) (req : C) : RSM C R := { s with calls := s.calls ++ [.submit req] }

def start (s : RSM C R) (k : ℕ) (answer : Option (ℕ × ℕ)) : Option (RSM C R) :=
  s.update k fun c => c.start answer

/-- The reader takes a command from Raft and executes it. -/
def execute (s : RSM C R) (e : Execution C R) : Option (RSM C R) :=
  match s.reader with
  | .idle => some
    { s with reader := .notifying ⟨e.index, e.term, some e.value⟩, executed := s.executed ++ [e] }
  | _ => none

/-- The reader tells whoever waits under the index. -/
def notify (s : RSM C R) (result : Result R) : RSM C R :=
  match s.waitChs.lookup result.index with
  | none => { s with reader := .idle }
  | some k =>
    { s with
      reader := .idle
      calls := s.calls.modify k fun c => { c with ch := c.ch.trySend result } }

/-- The reader closes every channel in the map. -/
def shutdown (s : RSM C R) : RSM C R :=
  { s with
    reader := .stopped
    calls := s.calls.mapIdx fun k c =>
      if k ∈ s.waitChs.map Prod.snd then { c with ch := { c.ch with closed := true } } else c }

def step (s : RSM C R) : Event → Option (RSM C R)
  | .register k => (s.update k Call.register).map fun s' => { s' with waitChs := s.registered k }
  | .receive k => s.update k Call.receive
  | .timeout k => s.update k Call.timeout
  | .leave k => (s.update k Call.leave).map fun s' => { s' with waitChs := s.unregistered k }
  | .notify =>
    match s.reader with
    | .notifying result => some (s.notify result)
    | _ => none
  | .shutdown =>
    match s.reader with
    | .idle => some s.shutdown
    | _ => none

/-- A crash; what has been executed stays part of the history. -/
def crash (s : RSM C R) : RSM C R := ⟨[], s.calls.map Call.crash, .idle, s.executed⟩

end RSM

section Sound
variable {C R : Type} {executed : List (Execution C R)}

/-- The result reports something that was executed. -/
def Told (executed : List (Execution C R)) (r : Result R) : Prop :=
  ∃ e ∈ executed, r = ⟨e.index, e.term, some e.value⟩

/-- The value is what `DoOp` returned for the command at the index and the term of the call. -/
def Call.Earned (executed : List (Execution C R)) (c : Call C R) (v : Option R) : Prop :=
  ∃ p ∈ c.place, ∃ e ∈ executed, e.index = p.1 ∧ e.term = p.2 ∧ v = some e.value

/-- The call has its own result, or the client has to try elsewhere. -/
def Call.Outcome (executed : List (Execution C R)) (c : Call C R) (err : Err) (v : Option R) : Prop :=
  err = .ok ∧ c.Earned executed v ∨ err = .errWrongLeader ∧ v = none

structure Call.Sound (executed : List (Execution C R)) (c : Call C R) : Prop where
  invoked : c.phase = .invoked → c.place = none
  place : ∀ p ∈ c.place, 0 < p.1
  buffer : ∀ r ∈ c.ch.buffer, Told executed r
  leaving : ∀ err v, c.phase = .leaving err v → c.Outcome executed err v
  returned : ∀ err v, c.phase = .returned err v → c.Outcome executed err v

namespace Call
variable {c c' : Call C R}

theorem sound_submit (req : C) : (submit req : Call C R).Sound executed :=
  ⟨fun _ => rfl, nofun, nofun, nofun, nofun⟩

theorem start_cases {answer : Option (ℕ × ℕ)} (hs : c.start answer = some c') :
    c.phase = .invoked ∧ (answer = none ∧ c' = { c with phase := .returned .errWrongLeader none } ∨
      ∃ lastLogIndex term, answer = some (lastLogIndex, term) ∧
        c' = { c with place := some (lastLogIndex + 1, term), phase := .started }) := by
  unfold start at hs
  split at hs
  case h_2 => cases hs
  case h_1 hphase =>
    refine ⟨hphase, ?_⟩
    cases answer with
    | none =>
      cases hs
      exact Or.inl ⟨rfl, rfl⟩
    | some answer =>
      cases hs
      exact Or.inr ⟨answer.1, answer.2, rfl, rfl⟩

theorem Sound.start {answer : Option (ℕ × ℕ)} (h : c.Sound executed)
    (hs : c.start answer = some c') : c'.Sound executed := by
  obtain ⟨-, ⟨-, rfl⟩ | ⟨lastLogIndex, term, -, rfl⟩⟩ := start_cases hs
  · refine ⟨nofun, h.place, h.buffer, nofun, fun err v hv => ?_⟩
    cases hv
    exact Or.inr ⟨rfl, rfl⟩
  · refine ⟨nofun, ?_, h.buffer, nofun, nofun⟩
    rintro p ⟨⟩
    exact Nat.succ_pos _

/-- The inner steps of a call keep its request and its place. -/
def header (c : Call C R) : C × Option (ℕ × ℕ) := (c.req, c.place)

theorem Sound.register (h : c.Sound executed) (hs : c.register = some c') :
    c'.Sound executed ∧ c'.header = c.header := by
  unfold Call.register at hs
  split at hs <;> cases hs
  exact ⟨⟨nofun, h.place, h.buffer, nofun, nofun⟩, rfl⟩

theorem Sound.timeout (h : c.Sound executed) (hs : c.timeout = some c') :
    c'.Sound executed ∧ c'.header = c.header := by
  unfold Call.timeout at hs
  split at hs <;> cases hs
  refine ⟨⟨nofun, h.place, h.buffer, fun err v hv => ?_, nofun⟩, rfl⟩
  cases hv
  exact Or.inr ⟨rfl, rfl⟩

theorem Sound.leave (h : c.Sound executed) (hs : c.leave = some c') :
    c'.Sound executed ∧ c'.header = c.header := by
  unfold Call.leave at hs
  split at hs
  case h_2 => cases hs
  case h_1 err value hphase =>
    cases hs
    refine ⟨⟨nofun, h.place, h.buffer, nofun, ?_⟩, rfl⟩
    intro err v hv
    cases hv
    exact h.leaving _ _ hphase

theorem receive_cases (hs : c.receive = some c') :
    ∃ index term r ch, c.phase = .waiting ∧ c.place = some (index, term) ∧
      c.ch.receive = some (r, ch) ∧ c' = { c with ch := ch, phase := settle index term r } := by
  unfold Call.receive at hs
  split at hs
  case h_2 => cases hs
  case h_1 index term hphase hplace =>
    obtain ⟨⟨r, ch⟩, hr, rfl⟩ := Option.map_eq_some_iff.mp hs
    exact ⟨index, term, r, ch, hphase, hplace, hr, rfl⟩

theorem settle_cases (index term : ℕ) (r : Result R) :
    settle index term r = .leaving .ok r.value ∧ r.index = index ∧ r.term = term ∨
      settle index term r = .leaving .errWrongLeader none ∧ ¬(r.index = index ∧ r.term = term) := by
  unfold settle
  split_ifs with hmatch
  · exact Or.inl ⟨rfl, hmatch⟩
  · exact Or.inr ⟨rfl, hmatch⟩

theorem Sound.settle_zero (h : c.Sound executed) {index term : ℕ}
    (hplace : c.place = some (index, term)) :
    settle index term (.zero R) = .leaving .errWrongLeader none := by
  have hpos : 0 < index := h.place (index, term) hplace
  rcases settle_cases index term (.zero R) with ⟨-, hindex, -⟩ | ⟨hsettle, -⟩
  · exact absurd hindex (Nat.ne_of_lt hpos)
  · exact hsettle

theorem Sound.receive (h : c.Sound executed) (hs : c.receive = some c') :
    c'.Sound executed ∧ c'.header = c.header := by
  obtain ⟨index, term, r, ch, -, hplace, hr, rfl⟩ := receive_cases hs
  refine ⟨?_, rfl⟩
  rcases Channel.receive_cases hr with ⟨hbuffer, hempty⟩ | ⟨-, rfl, rfl⟩
  · have hch : ∀ r ∈ ch.buffer, Told executed r := by
      rw [hempty]
      nofun
    rcases settle_cases index term r with ⟨hsettle, hindex, hterm⟩ | ⟨hsettle, -⟩ <;> rw [hsettle]
    · refine ⟨nofun, h.place, hch, fun err v hv => ?_, nofun⟩
      cases hv
      obtain ⟨e, he, rfl⟩ := h.buffer r hbuffer
      exact Or.inl ⟨rfl, (index, term), hplace, e, he, hindex, hterm, rfl⟩
    · refine ⟨nofun, h.place, hch, fun err v hv => ?_, nofun⟩
      cases hv
      exact Or.inr ⟨rfl, rfl⟩
  · rw [h.settle_zero hplace]
    refine ⟨nofun, h.place, h.buffer, fun err v hv => ?_, nofun⟩
    cases hv
    exact Or.inr ⟨rfl, rfl⟩

theorem Sound.crash (h : c.Sound executed) : c.crash.Sound executed ∧ c.crash.header = c.header := by
  unfold Call.crash
  split
  · exact ⟨h, rfl⟩
  · exact ⟨⟨nofun, h.place, h.buffer, nofun, nofun⟩, rfl⟩

theorem Sound.trySend (h : c.Sound executed) {r : Result R} (hr : Told executed r) :
    Call.Sound executed { c with ch := c.ch.trySend r } := by
  refine ⟨h.invoked, h.place, fun r' hr' => ?_, h.leaving, h.returned⟩
  unfold Channel.trySend at hr'
  cases hbuffer : c.ch.buffer with
  | none =>
    simp only [hbuffer, Option.none_or, Option.mem_def, Option.some.injEq] at hr'
    exact hr' ▸ hr
  | some full =>
    simp only [hbuffer, Option.some_or, Option.mem_def, Option.some.injEq] at hr'
    exact hr' ▸ h.buffer full hbuffer

theorem Sound.mono (h : c.Sound executed) {more : List (Execution C R)} :
    c.Sound (executed ++ more) := by
  have htold : ∀ r, Told executed r → Told (executed ++ more) r := by
    rintro r ⟨e, he, rfl⟩
    exact ⟨e, List.mem_append_left _ he, rfl⟩
  have houtcome : ∀ err v, c.Outcome executed err v → c.Outcome (executed ++ more) err v := by
    rintro err v (⟨rfl, p, hp, e, he, hindex, hterm, hv⟩ | hother)
    · exact Or.inl ⟨rfl, p, hp, e, List.mem_append_left _ he, hindex, hterm, hv⟩
    · exact Or.inr hother
  exact ⟨h.invoked, h.place, fun r hr => htold r (h.buffer r hr),
    fun err v hv => houtcome err v (h.leaving err v hv),
    fun err v hv => houtcome err v (h.returned err v hv)⟩

end Call

namespace RSM
variable {s s' : RSM C R}

structure Sound (s : RSM C R) : Prop where
  calls : ∀ c ∈ s.calls, c.Sound s.executed
  reader : ∀ r, s.reader = .notifying r → Told s.executed r

/-- The requests and the places of the calls. -/
def headers (s : RSM C R) : List (C × Option (ℕ × ℕ)) := s.calls.map Call.header

theorem update_cases {k : ℕ} {f : Call C R → Option (Call C R)} (hs : s.update k f = some s') :
    ∃ c c', s.calls[k]? = some c ∧ f c = some c' ∧ s' = { s with calls := s.calls.set k c' } := by
  simp only [update, Option.bind_eq_bind, Option.bind_eq_some_iff] at hs
  obtain ⟨c, hc, c', hc', heq⟩ := hs
  cases heq
  exact ⟨c, c', hc, hc', rfl⟩

theorem Sound.setCall (h : s.Sound) {k : ℕ} {c' : Call C R} (hc' : c'.Sound s.executed) :
    ∀ c ∈ s.calls.set k c', c.Sound s.executed := by
  intro c hc
  rcases List.mem_or_eq_of_mem_set hc with hc | rfl
  · exact h.calls c hc
  · exact hc'

theorem headers_set {k : ℕ} {c c' : Call C R} (hc : s.calls[k]? = some c)
    (hheader : c'.header = c.header) : (s.calls.set k c').map Call.header = s.headers := by
  have hk : (s.calls.map Call.header)[k]? = some c'.header := by
    rw [List.getElem?_map, hc, Option.map_some, hheader]
  obtain ⟨hlt, hget⟩ := List.getElem?_eq_some_iff.mp hk
  rw [List.map_set, ← hget]
  exact List.set_getElem_self hlt

theorem Sound.update (h : s.Sound) {k : ℕ} {f : Call C R → Option (Call C R)}
    (hf : ∀ c c', c.Sound s.executed → f c = some c' → c'.Sound s.executed ∧ c'.header = c.header)
    (hs : s.update k f = some s') :
    s'.Sound ∧ s'.headers = s.headers ∧ s'.executed = s.executed ∧ s'.reader = s.reader := by
  obtain ⟨c, c', hc, hc', rfl⟩ := update_cases hs
  obtain ⟨hsound, hheader⟩ := hf c c' (h.calls c (List.mem_of_getElem? hc)) hc'
  exact ⟨⟨h.setCall hsound, h.reader⟩, headers_set hc hheader, rfl, rfl⟩

theorem sound_make : (make C R).Sound := ⟨by simp [make], by simp [make]⟩

theorem Sound.submit (h : s.Sound) (req : C) : (s.submit req).Sound := by
  refine ⟨fun c hc => ?_, h.reader⟩
  rcases List.mem_append.mp hc with hc | hc
  · exact h.calls c hc
  · rw [List.mem_singleton.mp hc]
    exact Call.sound_submit req

theorem Sound.start (h : s.Sound) {k : ℕ} {answer : Option (ℕ × ℕ)}
    (hs : s.start k answer = some s') :
    s'.Sound ∧ s'.executed = s.executed ∧ ∃ req, s.headers[k]? = some (req, none) ∧
      s'.headers = s.headers.set k (req, answer.map fun a => (a.1 + 1, a.2)) := by
  obtain ⟨c, c', hc, hc', rfl⟩ := update_cases hs
  have hsound := h.calls c (List.mem_of_getElem? hc)
  refine ⟨⟨h.setCall (hsound.start hc'), h.reader⟩, rfl, c.req, ?_, ?_⟩
  · have hnone := hsound.invoked (Call.start_cases hc').1
    rw [headers, List.getElem?_map, hc, Option.map_some, Call.header, hnone]
  · obtain ⟨hphase, ⟨rfl, rfl⟩ | ⟨lastLogIndex, term, rfl, rfl⟩⟩ := Call.start_cases hc'
    · simp [headers, List.map_set, Call.header, hsound.invoked hphase]
    · simp [headers, List.map_set, Call.header]

theorem execute_cases {e : Execution C R} (hs : s.execute e = some s') :
    s' = { s with
      reader := .notifying ⟨e.index, e.term, some e.value⟩, executed := s.executed ++ [e] } := by
  unfold execute at hs
  split at hs <;> cases hs
  rfl

theorem Sound.execute (h : s.Sound) {e : Execution C R} (hs : s.execute e = some s') :
    s'.Sound := by
  rw [execute_cases hs]
  refine ⟨fun c hc => (h.calls c hc).mono, ?_⟩
  rintro r ⟨⟩
  exact ⟨e, by simp, rfl⟩

theorem Sound.notify (h : s.Sound) {r : Result R} (hr : Told s.executed r) :
    (s.notify r).Sound ∧ (s.notify r).headers = s.headers ∧
      (s.notify r).executed = s.executed := by
  unfold RSM.notify
  split
  · exact ⟨⟨h.calls, nofun⟩, rfl, rfl⟩
  · refine ⟨⟨fun c hc => ?_, nofun⟩, ?_, rfl⟩
    · obtain ⟨i, hi⟩ := List.mem_iff_getElem?.mp hc
      rw [List.getElem?_modify] at hi
      obtain ⟨c₀, hc₀, rfl⟩ := Option.map_eq_some_iff.mp hi
      have hsound := h.calls c₀ (List.mem_of_getElem? hc₀)
      split_ifs
      · exact hsound.trySend hr
      · exact hsound
    · apply List.ext_getElem?
      intro i
      simp only [headers, List.getElem?_map, List.getElem?_modify]
      cases s.calls[i]? with
      | none => rfl
      | some c => split_ifs <;> rfl

theorem Sound.shutdown (h : s.Sound) : s.shutdown.Sound ∧ s.shutdown.headers = s.headers := by
  refine ⟨⟨fun c hc => ?_, nofun⟩, ?_⟩
  · obtain ⟨i, hi⟩ := List.mem_iff_getElem?.mp hc
    simp only [RSM.shutdown, List.getElem?_mapIdx, Option.map_eq_some_iff] at hi
    obtain ⟨c₀, hc₀, rfl⟩ := hi
    have hsound := h.calls c₀ (List.mem_of_getElem? hc₀)
    split_ifs
    · exact ⟨hsound.invoked, hsound.place, hsound.buffer, hsound.leaving, hsound.returned⟩
    · exact hsound
  · apply List.ext_getElem?
    intro i
    simp only [headers, RSM.shutdown, List.getElem?_map, List.getElem?_mapIdx]
    cases s.calls[i]? with
    | none => rfl
    | some c => simp only [Option.map_some]; split_ifs <;> rfl

theorem Sound.step (h : s.Sound) {e : Event} (hs : s.step e = some s') :
    s'.Sound ∧ s'.headers = s.headers ∧ s'.executed = s.executed := by
  cases e with
  | register k =>
    obtain ⟨t, ht, rfl⟩ := Option.map_eq_some_iff.mp hs
    obtain ⟨hsound, hheaders, hexecuted, -⟩ := h.update (fun _ _ hc => hc.register) ht
    exact ⟨⟨hsound.calls, hsound.reader⟩, hheaders, hexecuted⟩
  | receive k =>
    obtain ⟨hsound, hheaders, hexecuted, -⟩ := h.update (fun _ _ hc => hc.receive) hs
    exact ⟨hsound, hheaders, hexecuted⟩
  | timeout k =>
    obtain ⟨hsound, hheaders, hexecuted, -⟩ := h.update (fun _ _ hc => hc.timeout) hs
    exact ⟨hsound, hheaders, hexecuted⟩
  | leave k =>
    obtain ⟨t, ht, rfl⟩ := Option.map_eq_some_iff.mp hs
    obtain ⟨hsound, hheaders, hexecuted, -⟩ := h.update (fun _ _ hc => hc.leave) ht
    exact ⟨⟨hsound.calls, hsound.reader⟩, hheaders, hexecuted⟩
  | notify =>
    simp only [RSM.step] at hs
    split at hs <;> cases hs
    case h_1 r hreader => exact h.notify (h.reader r hreader)
  | shutdown =>
    simp only [RSM.step] at hs
    split at hs <;> cases hs
    obtain ⟨hsound, hheaders⟩ := h.shutdown
    exact ⟨hsound, hheaders, rfl⟩

theorem Sound.crash (h : s.Sound) : s.crash.Sound ∧ s.crash.headers = s.headers := by
  refine ⟨⟨fun c hc => ?_, nofun⟩, ?_⟩
  · obtain ⟨c₀, hc₀, rfl⟩ := List.mem_map.mp hc
    exact (h.calls c₀ hc₀).crash.1
  · unfold headers RSM.crash
    rw [List.map_map]
    exact List.map_congr_left fun c hc => (h.calls c hc).crash.2

end RSM
end Sound

structure Server (S C R : Type) where
  state : S
  /-- history: the index of the last command from Raft -/
  last : ℕ
  rsm : RSM C R

inductive Action (C B : Type)
  | submit (req : C)
  /-- the answer of a leader's `Start`: its last index so far and its term -/
  | start (k : ℕ) (answer : Option (ℕ × ℕ))
  | event (e : Event)
  /-- Raft delivers what its logs hold at the index and the term -/
  | command (index term : ℕ) (pointer : Bool)
  | snapshot (data : Option B)

namespace Server
variable {S C R B : Type} [DecidableEq C] (sm : StateMachine S C R B)
  (logged : ℕ → ℕ → Option (Op C)) (me : ℕ)

/-- The server that `MakeRSM` starts, from whatever snapshot. -/
def make (state : S) (last : ℕ) : Server S C R := ⟨state, last, .make C R⟩

/-- `logged` says what Raft's logs hold at an index and a term. The logs hold what was handed to a
leader's `Start` at the place it answered, and commands come in the order of their indices. -/
def step (s : Server S C R) : Action C B → Option (Server S C R)
  | .submit req => some { s with rsm := s.rsm.submit req }
  | .start k none => (s.rsm.start k none).map fun rsm => { s with rsm := rsm }
  | .start k (some (lastLogIndex, term)) =>
    if ∃ c ∈ s.rsm.calls[k]?, logged (lastLogIndex + 1) term = some ⟨me, 0, c.req⟩ then
      (s.rsm.start k (some (lastLogIndex, term))).map fun rsm => { s with rsm := rsm }
    else none
  | .event e => (s.rsm.step e).map fun rsm => { s with rsm := rsm }
  | .command index term pointer =>
    if s.last < index then
      match logged index term with
      | some op =>
        let r := sm.doOp s.state (.of pointer op.req)
        (s.rsm.execute ⟨index, term, op.req, r.2⟩).map fun rsm => ⟨r.1, index, rsm⟩
      | none =>
        -- not an `Op`
        match s.rsm.reader with
        | .idle => some { s with last := index }
        | _ => none
    else none
  | .snapshot data =>
    match s.rsm.reader with
    | .idle => some { s with state := sm.restore s.state data }
    | _ => none

structure Sound (s : Server S C R) : Prop where
  rsm : s.rsm.Sound
  placed : ∀ header ∈ s.rsm.headers, ∀ p ∈ header.2, logged p.1 p.2 = some ⟨me, 0, header.1⟩
  logged : ∀ e ∈ s.rsm.executed, ∃ op, logged e.index e.term = some op ∧ op.req = e.req
  ordered : s.rsm.executed.Pairwise fun e e' => e.index < e'.index
  last : ∀ e ∈ s.rsm.executed, e.index ≤ s.last

variable {sm logged me} {s s' : Server S C R}

omit [DecidableEq C] in
theorem sound_make (state : S) (last : ℕ) : (make state last : Server S C R).Sound logged me :=
  ⟨RSM.sound_make, nofun, nofun, .nil, nofun⟩

omit [DecidableEq C] in
theorem Sound.inner (h : s.Sound logged me) {state : S} {rsm : RSM C R} (hrsm : rsm.Sound)
    (hheaders : rsm.headers = s.rsm.headers) (hexecuted : rsm.executed = s.rsm.executed) :
    Sound logged me ⟨state, s.last, rsm⟩ :=
  ⟨hrsm, hheaders ▸ h.placed, hexecuted ▸ h.logged, hexecuted ▸ h.ordered, hexecuted ▸ h.last⟩

omit [DecidableEq C] in
theorem Sound.execute (h : s.Sound logged me) {index term : ℕ} {op : Op C} {value : R} {state : S}
    {rsm : RSM C R} (hlast : s.last < index) (hlogged : logged index term = some op)
    (hs : s.rsm.execute ⟨index, term, op.req, value⟩ = some rsm) :
    Sound logged me ⟨state, index, rsm⟩ := by
  have hsound := h.rsm.execute hs
  rw [RSM.execute_cases hs] at hsound ⊢
  refine ⟨hsound, h.placed, fun e he => ?_, ?_, fun e he => ?_⟩
  · rcases List.mem_append.mp he with he | he
    · exact h.logged e he
    · rw [List.mem_singleton.mp he]
      exact ⟨op, hlogged, rfl⟩
  · refine List.pairwise_append.mpr ⟨h.ordered, List.pairwise_singleton _ _, ?_⟩
    intro e he e' he'
    rw [List.mem_singleton.mp he']
    exact (h.last e he).trans_lt hlast
  · rcases List.mem_append.mp he with he | he
    · exact (h.last e he).trans hlast.le
    · exact (congrArg Execution.index (List.mem_singleton.mp he)).le

theorem Sound.step {a : Action C B} (h : s.Sound logged me)
    (hs : s.step sm logged me a = some s') : s'.Sound logged me := by
  cases a with
  | submit req =>
    cases hs
    refine ⟨h.rsm.submit req, fun header hheader => ?_, h.logged, h.ordered, h.last⟩
    simp only [RSM.headers, RSM.submit, List.map_append, List.mem_append] at hheader
    rcases hheader with hheader | hheader
    · exact h.placed header hheader
    · rw [List.mem_singleton.mp hheader]
      nofun
  | start k answer =>
    cases answer with
    | none =>
      obtain ⟨rsm, hrsm, rfl⟩ := Option.map_eq_some_iff.mp hs
      obtain ⟨hsound, hexecuted, req, hk, hheaders⟩ := h.rsm.start hrsm
      refine h.inner hsound ?_ hexecuted
      obtain ⟨hlt, hget⟩ := List.getElem?_eq_some_iff.mp hk
      rw [hheaders, Option.map_none, ← hget]
      exact List.set_getElem_self hlt
    | some answer =>
      obtain ⟨lastLogIndex, term⟩ := answer
      simp only [Server.step] at hs
      split_ifs at hs with hlogged
      obtain ⟨c, hc, hplace⟩ := hlogged
      obtain ⟨rsm, hrsm, rfl⟩ := Option.map_eq_some_iff.mp hs
      obtain ⟨hsound, hexecuted, req, hk, hheaders⟩ := h.rsm.start hrsm
      have hreq : c.req = req := by
        rw [RSM.headers, List.getElem?_map, hc, Option.map_some] at hk
        exact congrArg Prod.fst (Option.some.inj hk)
      refine ⟨hsound, fun header hheader => ?_, hexecuted ▸ h.logged, hexecuted ▸ h.ordered,
        hexecuted ▸ h.last⟩
      rw [hheaders] at hheader
      rcases List.mem_or_eq_of_mem_set hheader with hheader | rfl
      · exact h.placed header hheader
      · rintro p ⟨⟩
        rw [← hreq]
        exact hplace
  | event e =>
    obtain ⟨rsm, hrsm, rfl⟩ := Option.map_eq_some_iff.mp hs
    obtain ⟨hsound, hheaders, hexecuted⟩ := h.rsm.step hrsm
    exact h.inner hsound hheaders hexecuted
  | command index term pointer =>
    simp only [Server.step] at hs
    split_ifs at hs with hlast
    split at hs
    case h_1 op hlogged =>
      obtain ⟨rsm, hrsm, rfl⟩ := Option.map_eq_some_iff.mp hs
      exact h.execute hlast hlogged hrsm
    case h_2 hnone =>
      split at hs <;> cases hs
      exact ⟨h.rsm, h.placed, h.logged, h.ordered, fun e he => (h.last e he).trans hlast.le⟩
  | snapshot data =>
    simp only [Server.step] at hs
    split at hs <;> cases hs
    exact h.inner h.rsm rfl rfl

omit [DecidableEq C] in
theorem Sound.unique (h : s.Sound logged me) {e e' : Execution C R} (he : e ∈ s.rsm.executed)
    (he' : e' ∈ s.rsm.executed) (hindex : e'.index = e.index) : e' = e := by
  by_contra hne
  have hpairwise : s.rsm.executed.Pairwise fun e e' => e.index ≠ e'.index :=
    h.ordered.imp fun hlt => hlt.ne
  have : Std.Symm fun e e' : Execution C R => e.index ≠ e'.index := ⟨fun _ _ h => h.symm⟩
  exact hpairwise.forall he' he hne hindex

end Server

end DistributedLabs.Rsm
