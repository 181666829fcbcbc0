import DistributedLabs.TransitionRuns

/-!
# Programs that talk to atomic services by calls

A program is a tree of calls; between two calls it touches nothing shared. The
process that runs it may stop anywhere. A call goes through a clerk, which tries
again until it is satisfied: an attempt may get lost before or after it was
served, and the clerk then knows no more than that it is resending.

The second half is a logic for such programs among others that interfere. An
assertion about the shared state is attached to every call; interference and
repeated service of the call keep it, and the answer carries it on.
-/

namespace DistributedLabs.RpcPrograms

/-- A program over the calls `Op`, whose answers have the types `Ans`. -/
inductive Prog {Op : Type} (Ans : Op → Type) (α : Type) : Type
  | pure (a : α)
  /-- the process dies -/
  | halt
  | call (op : Op) (next : Ans op → Prog Ans α)

namespace Prog
variable {Op : Type} {Ans : Op → Type} {α β : Type}

def bind : Prog Ans α → (α → Prog Ans β) → Prog Ans β
  | .pure a, f => f a
  | .halt, _ => .halt
  | .call op next, f => .call op fun r => (next r).bind f

instance : Monad (Prog Ans) where
  pure := .pure
  bind := .bind

/-- The call the program is about to make. -/
def head : Prog Ans α → Option Op
  | .call op _ => some op
  | _ => none

instance (p : Prog Ans α) : Decidable (p = .halt) :=
  match p with
  | .halt => .isTrue rfl
  | .pure _ => .isFalse fun h => by cases h
  | .call _ _ => .isFalse fun h => by cases h

end Prog

/-- An atomic service, and what its clerks make of an answer: `none` sends the clerk round
its loop again. The flag says whether the clerk is resending. -/
structure Service (σ : Type) {Op : Type} (Ans : Op → Type) where
  serve : σ → (op : Op) → Ans op × σ
  settle : Bool → (op : Op) → Ans op → Option (Ans op)

/-- How one attempt of a clerk ends. -/
inductive Outcome
  | requestLost
  | replyLost
  | answered
  deriving DecidableEq, Repr

/-- A program under way, with the flag of the clerk it is waiting for. -/
structure Running {Op : Type} (Ans : Op → Type) (α : Type) where
  resend : Bool
  prog : Prog Ans α

section Execution
variable {σ Op : Type} {Ans : Op → Type} {α : Type} (S : Service σ Ans)

/-- The program runs alone and every call is answered at once. -/
def Prog.exec : Prog Ans α → σ → σ
  | .pure _, s => s
  | .halt, s => s
  | .call op next, s => (next (S.serve s op).1).exec (S.serve s op).2

def Running.start (p : Prog Ans α) : Running Ans α := ⟨false, p⟩

def Running.attempt (o : Outcome) (t : Running Ans α) (s : σ) : Option (Running Ans α × σ) :=
  match t.prog with
  | .call op next =>
    match o with
    | .requestLost => some (⟨true, .call op next⟩, s)
    | .replyLost => some (⟨true, .call op next⟩, (S.serve s op).2)
    | .answered =>
      match S.settle t.resend op (S.serve s op).1 with
      | some r => some (⟨false, next r⟩, (S.serve s op).2)
      | none => some (⟨true, .call op next⟩, (S.serve s op).2)
  | _ => none

variable {S}

theorem Running.attempt_state {o : Outcome} {t t' : Running Ans α} {s s' : σ}
    (hs : t.attempt S o s = some (t', s')) :
    s' = s ∨ o ≠ .requestLost ∧ ∃ op, t.prog.head = some op ∧ s' = (S.serve s op).2 := by
  obtain ⟨resend, prog⟩ := t
  cases prog with
  | pure a => cases hs
  | halt => cases hs
  | call op next =>
    cases o with
    | requestLost =>
      cases hs
      exact Or.inl rfl
    | replyLost =>
      cases hs
      exact Or.inr ⟨nofun, op, rfl, rfl⟩
    | answered =>
      refine Or.inr ⟨nofun, op, rfl, ?_⟩
      simp only [attempt] at hs
      split at hs
      · cases hs
        rfl
      · cases hs
        rfl

end Execution

/-- What a program may rely on and has to guarantee. -/
structure Rules (σ : Type) {Op : Type} (Ans : Op → Type) where
  service : Service σ Ans
  /-- which attempts can happen -/
  admits : σ → Bool → Op → Outcome → Prop
  /-- holds in every state -/
  inv : σ → Prop
  /-- what others do to the state between two attempts -/
  rely : σ → σ → Prop
  /-- what a served call may do to it -/
  guar : σ → σ → Prop
  /-- what has to hold of a call when it is made -/
  issue : σ → Op → Prop

namespace Rules
variable {σ Op : Type} {Ans : Op → Type} {α β : Type} (R : Rules σ Ans)

def Stable (P : σ → Prop) : Prop := ∀ s s', R.inv s → R.rely s s' → R.inv s' → P s → P s'

/-- A call keeps `P` as often as it is served, and an answer to it establishes `Q`. -/
structure Step (op : Op) (P : σ → Prop) (Q : Ans op → σ → Prop) : Prop where
  stable : R.Stable P
  issue : ∀ s, R.inv s → P s → R.issue s op
  serve : ∀ s b o, R.inv s → P s → R.admits s b op o → o ≠ .requestLost →
    R.inv (R.service.serve s op).2 ∧ R.guar s (R.service.serve s op).2 ∧
      P (R.service.serve s op).2
  answer : ∀ s b r, R.inv s → P s → R.admits s b op .answered →
    R.service.settle b op (R.service.serve s op).1 = some r → Q r (R.service.serve s op).2

/-- The program keeps to the rules from `s` on, and if it returns then `Q` holds. -/
def Safe (Q : α → σ → Prop) : Prog Ans α → σ → Prop
  | .pure a, s => Q a s
  | .halt, _ => True
  | .call op next, s => ∃ P : σ → Prop, P s ∧ R.Step op P fun r => Safe Q (next r)

/-- The program keeps to the rules, `Q` holds if it returns, and it dies only if `dead` holds. -/
def Within (dead : Prop) (Q : α → σ → Prop) : Prog Ans α → σ → Prop
  | .pure a, s => Q a s
  | .halt, _ => dead
  | .call op next, s => ∃ P : σ → Prop, P s ∧ R.Step op P fun r => Within dead Q (next r)

theorem safe_eq (Q : α → σ → Prop) : R.Safe Q = R.Within True Q := by
  funext p
  induction p with
  | pure a => rfl
  | halt => rfl
  | call op next ih =>
    funext s
    simp only [Safe, Within, ih]

variable {R}

theorem Safe.call {Q : α → σ → Prop} {op : Op} {next : Ans op → Prog Ans α} {s : σ}
    (P : σ → Prop) (hs : P s) (h : R.Step op P fun r => R.Safe Q (next r)) :
    R.Safe Q (.call op next) s := ⟨P, hs, h⟩

theorem Step.mono {op : Op} {P : σ → Prop} {Q Q' : Ans op → σ → Prop} (h : R.Step op P Q)
    (hQ : ∀ r s, Q r s → Q' r s) : R.Step op P Q' :=
  ⟨h.stable, h.issue, h.serve, fun s b r hi hp ha hr => hQ r _ (h.answer s b r hi hp ha hr)⟩

theorem Step.read {op : Op} {P : σ → Prop} {Q : Ans op → σ → Prop}
    (hserve : ∀ s, (R.service.serve s op).2 = s) (hguar : ∀ s, R.guar s s) (hP : R.Stable P)
    (hissue : ∀ s, R.inv s → P s → R.issue s op)
    (h : ∀ s b r, R.inv s → P s → R.admits s b op .answered →
      R.service.settle b op (R.service.serve s op).1 = some r → Q r s) : R.Step op P Q where
  stable := hP
  issue := hissue
  serve s _ _ hi hp _ _ := by
    rw [hserve s]
    exact ⟨hi, hguar s, hp⟩
  answer s b r hi hp ha hr := by
    rw [hserve s]
    exact h s b r hi hp ha hr

theorem Within.call {dead : Prop} {Q : α → σ → Prop} {op : Op} {next : Ans op → Prog Ans α} {s : σ}
    (P : σ → Prop) (hs : P s) (h : R.Step op P fun r => R.Within dead Q (next r)) :
    R.Within dead Q (.call op next) s := ⟨P, hs, h⟩

theorem Within.bind {dead : Prop} {Q : β → σ → Prop} {p : Prog Ans α} {f : α → Prog Ans β} {s : σ}
    (h : R.Within dead (fun a => R.Within dead Q (f a)) p s) : R.Within dead Q (p >>= f) s := by
  induction p generalizing s with
  | pure a => exact h
  | halt => exact h
  | call op next ih =>
    obtain ⟨P, hs, hstep⟩ := h
    exact ⟨P, hs, hstep.mono fun r s hr => ih r hr⟩

theorem Within.mono {dead : Prop} {Q Q' : α → σ → Prop} {p : Prog Ans α} {s : σ}
    (h : R.Within dead Q p s) (hQ : ∀ a s, Q a s → Q' a s) : R.Within dead Q' p s := by
  induction p generalizing s with
  | pure a => exact hQ a s h
  | halt => exact h
  | call op next ih =>
    obtain ⟨P, hs, hstep⟩ := h
    exact ⟨P, hs, hstep.mono fun r s hr => ih r hr⟩

theorem Within.stable {dead : Prop} {Q : α → σ → Prop} (hQ : ∀ a, R.Stable (Q a))
    (p : Prog Ans α) : R.Stable (R.Within dead Q p) := by
  intro s s' hi hr hi' h
  cases p with
  | pure a => exact hQ a s s' hi hr hi' h
  | halt => exact h
  | call op next =>
    obtain ⟨P, hs, hstep⟩ := h
    exact ⟨P, hstep.stable s s' hi hr hi' hs, hstep⟩

theorem Within.forM {dead : Prop} {ι : Type} {f : ι → Prog Ans PUnit} (L : List ι → σ → Prop)
    (l : List ι) (step : ∀ done i rest, done ++ i :: rest = l → ∀ s, L done s →
      R.Within dead (fun _ => L (done ++ [i])) (f i) s) {s : σ} (hs : L [] s) :
    R.Within dead (fun _ => L l) (l.forM f) s := by
  suffices h : ∀ rest done, done ++ rest = l → ∀ s, L done s →
      R.Within dead (fun _ => L l) (rest.forM f) s from h l [] rfl s hs
  intro rest
  induction rest with
  | nil =>
    intro done hdone s hs
    rw [List.append_nil] at hdone
    exact hdone ▸ hs
  | cons i rest ih =>
    intro done hdone s hs
    apply Within.bind
    apply (step done i rest hdone s hs).mono
    intro _ s hs
    exact ih (done ++ [i]) (by rw [List.append_assoc]; exact hdone) s hs

theorem Within.attempt {dead : Prop} {Q : α → σ → Prop} {t t' : Running Ans α} {s s' : σ}
    {o : Outcome} (hi : R.inv s) (hrefl : R.guar s s) (h : R.Within dead Q t.prog s)
    (ha : ∀ op ∈ t.prog.head, R.admits s t.resend op o)
    (hs : t.attempt R.service o s = some (t', s')) :
    R.inv s' ∧ R.guar s s' ∧ R.Within dead Q t'.prog s' := by
  obtain ⟨resend, prog⟩ := t
  cases prog with
  | pure a => cases hs
  | halt => cases hs
  | call op next =>
    obtain ⟨P, hP, hstep⟩ := h
    have hadm := ha op rfl
    cases o with
    | requestLost =>
      cases hs
      exact ⟨hi, hrefl, P, hP, hstep⟩
    | replyLost =>
      cases hs
      obtain ⟨hi', hg, hP'⟩ := hstep.serve s resend _ hi hP hadm nofun
      exact ⟨hi', hg, P, hP', hstep⟩
    | answered =>
      obtain ⟨hi', hg, hP'⟩ := hstep.serve s resend _ hi hP hadm nofun
      simp only [Running.attempt] at hs
      cases hr : R.service.settle resend op (R.service.serve s op).1 with
      | none =>
        rw [hr] at hs
        cases hs
        exact ⟨hi', hg, P, hP', hstep⟩
      | some r =>
        rw [hr] at hs
        cases hs
        exact ⟨hi', hg, hstep.answer s resend r hi hP hadm hr⟩

theorem Within.ne_halt {Q : α → σ → Prop} {p : Prog Ans α} {s : σ} (h : R.Within False Q p s) :
    p ≠ .halt := by
  rintro rfl
  exact h

theorem Safe.bind {Q : β → σ → Prop} {p : Prog Ans α} {f : α → Prog Ans β} {s : σ}
    (h : R.Safe (fun a => R.Safe Q (f a)) p s) : R.Safe Q (p >>= f) s := by
  simp only [safe_eq] at h ⊢
  exact h.bind

theorem Safe.mono {Q Q' : α → σ → Prop} {p : Prog Ans α} {s : σ} (h : R.Safe Q p s)
    (hQ : ∀ a s, Q a s → Q' a s) : R.Safe Q' p s := by
  rw [safe_eq] at h ⊢
  exact h.mono hQ

theorem Safe.stable {Q : α → σ → Prop} (hQ : ∀ a, R.Stable (Q a)) (p : Prog Ans α) :
    R.Stable (R.Safe Q p) := by
  rw [safe_eq]
  exact Within.stable hQ p

theorem Safe.forM {ι : Type} {f : ι → Prog Ans PUnit} (L : List ι → σ → Prop) (l : List ι)
    (step : ∀ done i rest, done ++ i :: rest = l → ∀ s, L done s →
      R.Safe (fun _ => L (done ++ [i])) (f i) s) {s : σ} (hs : L [] s) :
    R.Safe (fun _ => L l) (l.forM f) s := by
  simp only [safe_eq] at step ⊢
  exact Within.forM L l step hs

theorem Safe.attempt {Q : α → σ → Prop} {t t' : Running Ans α} {s s' : σ} {o : Outcome}
    (hi : R.inv s) (hrefl : R.guar s s) (h : R.Safe Q t.prog s)
    (ha : ∀ op ∈ t.prog.head, R.admits s t.resend op o)
    (hs : t.attempt R.service o s = some (t', s')) :
    R.inv s' ∧ R.guar s s' ∧ R.Safe Q t'.prog s' := by
  rw [safe_eq] at h ⊢
  exact Within.attempt hi hrefl h ha hs

theorem Safe.issue {Q : α → σ → Prop} {p : Prog Ans α} {s : σ} (hi : R.inv s) (h : R.Safe Q p s)
    {op : Op} (hop : p.head = some op) : R.issue s op := by
  cases p with
  | pure a => cases hop
  | halt => cases hop
  | call op' next =>
    cases hop
    obtain ⟨P, hP, hstep⟩ := h
    exact hstep.issue s hi hP

end Rules

end DistributedLabs.RpcPrograms
