import Mathlib.Data.List.Basic

/-!
# Guarded runs of a partial step function

A system is a partial step function on states, one successor for each enabled
action. A guard restricts the runs considered: every action of a guarded run
meets the guard in the state it is taken from. An unrestricted run is a guarded
run whose guard is always true, so one induction rule serves both. What happens
after finitely many rounds of one fixed course of action comes with a rule of its
own, by a rank that every round lowers.
-/

namespace DistributedLabs.TransitionRuns

variable {σ α : Type*}

/-- States reached from `s₀` when every step meets `guard` where it is taken. -/
inductive Reaches (step : σ → α → Option σ) (guard : σ → α → Prop) (s₀ : σ) : σ → Prop
  | refl : Reaches step guard s₀ s₀
  | tail {s s' : σ} {a : α} (run : Reaches step guard s₀ s) (allowed : guard s a)
      (taken : step s a = some s') : Reaches step guard s₀ s'

/-- The guard of an unrestricted run. -/
def anyStep (_ : σ) (_ : α) : Prop := True

instance (s : σ) (a : α) : Decidable (anyStep s a) := .isTrue trivial

namespace Reaches

variable {step : σ → α → Option σ} {guard : σ → α → Prop} {s₀ s s' : σ}

/-- What holds at the start and is kept by every allowed step holds in every
state of a guarded run. -/
theorem invariant {inv : σ → Prop} (h : Reaches step guard s₀ s) (start : inv s₀)
    (kept : ∀ s a s', inv s → guard s a → step s a = some s' → inv s') : inv s := by
  induction h with
  | refl => exact start
  | tail _ allowed taken ih => exact kept _ _ _ ih allowed taken

theorem mono {guard' : σ → α → Prop} (h : Reaches step guard s₀ s)
    (hle : ∀ s a, guard s a → guard' s a) : Reaches step guard' s₀ s := by
  induction h with
  | refl => exact .refl
  | tail _ allowed taken ih => exact .tail ih (hle _ _ allowed) taken

theorem trans {t : σ} (h : Reaches step guard s₀ s) (h' : Reaches step guard s t) :
    Reaches step guard s₀ t := by
  induction h' with
  | refl => exact h
  | tail _ allowed taken ih => exact .tail ih allowed taken

theorem simulation {τ β : Type*} {step' : τ → β → Option τ} {guard' : τ → β → Prop} {t₀ : τ}
    {rel : σ → τ → Prop} (h : Reaches step guard s₀ s) (start : rel s₀ t₀)
    (matched : ∀ s a s' t, Reaches step' guard' t₀ t → rel s t → guard s a → step s a = some s' →
      ∃ t', Reaches step' guard' t t' ∧ rel s' t') : ∃ t, Reaches step' guard' t₀ t ∧ rel s t := by
  induction h with
  | refl => exact ⟨t₀, .refl, start⟩
  | tail _ allowed taken ih =>
    obtain ⟨t, hreach, hrel⟩ := ih
    obtain ⟨t', hstep, hrel'⟩ := matched _ _ _ t hreach hrel allowed taken
    exact ⟨t', hreach.trans hstep, hrel'⟩

end Reaches

section Recording
variable {η : Type*}

/-- The system with a history beside its state; `note` says what a step adds to it. -/
def recording (step : σ → α → Option σ) (note : σ → α → η → η) (s : σ × η) (a : α) :
    Option (σ × η) := (step s.1 a).map fun s' => (s', note s.1 a s.2)

theorem recording_eq_some {step : σ → α → Option σ} {note : σ → α → η → η} {s s' : σ × η} {a : α}
    (h : recording step note s a = some s') : step s.1 a = some s'.1 ∧ s'.2 = note s.1 a s.2 := by
  obtain ⟨t, ht, rfl⟩ := Option.map_eq_some_iff.mp h
  exact ⟨ht, rfl⟩

theorem Reaches.of_recording {step : σ → α → Option σ} {note : σ → α → η → η} {guard : σ → α → Prop}
    {s s' : σ × η} (h : Reaches (recording step note) (fun s a => guard s.1 a) s s') :
    Reaches step guard s.1 s'.1 := by
  induction h with
  | refl => exact .refl
  | tail _ allowed taken ih => exact .tail ih allowed (recording_eq_some taken).1

end Recording

section Rounds
variable {round : σ → Option σ} {P Q : σ → Prop} {s s' : σ}

/-- The state after `k` rounds. -/
def rounds (round : σ → Option σ) : ℕ → σ → Option σ
  | 0, s => some s
  | k + 1, s => (round s).bind (rounds round k)

/-- After finitely many rounds there is a state with `P`. -/
def Eventually (round : σ → Option σ) (P : σ → Prop) (s : σ) : Prop := ∃ k, ∃ s' ∈ rounds round k s, P s'

theorem Eventually.now (h : P s) : Eventually round P s := ⟨0, s, rfl, h⟩

theorem Eventually.next (hround : round s = some s') (h : Eventually round P s') :
    Eventually round P s := by
  obtain ⟨k, t, ht, hP⟩ := h
  exact ⟨k + 1, t, by simpa [rounds, hround] using ht, hP⟩

theorem rounds_add {k : ℕ} {t : σ} (h : rounds round k s = some t) (j : ℕ) :
    rounds round (k + j) s = rounds round j t := by
  induction k generalizing s with
  | zero =>
    cases h
    rw [Nat.zero_add]
  | succ k ih =>
    obtain ⟨s', hround, hrest⟩ := Option.bind_eq_some_iff.mp h
    rw [Nat.add_right_comm, rounds, hround]
    exact ih hrest

theorem Eventually.trans (h : Eventually round P s) (hPQ : ∀ t, P t → Eventually round Q t) :
    Eventually round Q s := by
  obtain ⟨k, t, ht, hP⟩ := h
  obtain ⟨j, u, hu, hQ⟩ := hPQ t hP
  exact ⟨k + j, u, (rounds_add ht j).trans hu, hQ⟩

/-- A round that reaches `Q` or keeps `P` and lowers a rank leads from `P` to `Q`. -/
theorem eventually_of_rank (rank : σ → ℕ) (h : P s)
    (progress : ∀ s, P s → Q s ∨ ∃ s', round s = some s' ∧ (Q s' ∨ P s' ∧ rank s' < rank s)) :
    Eventually round Q s := by
  induction hn : rank s using Nat.strongRecOn generalizing s with
  | ind n ih =>
    rcases progress s h with hQ | ⟨s', hround, hQ | ⟨hP, hlt⟩⟩
    · exact .now hQ
    · exact .next hround (.now hQ)
    · exact .next hround (ih (rank s') (hn ▸ hlt) hP rfl)

/-- What every round keeps and excludes `Q` excludes it for good. -/
theorem not_eventually (h : P s) (kept : ∀ s s', P s → round s = some s' → P s')
    (excludes : ∀ s, P s → ¬Q s) : ¬Eventually round Q s := by
  rintro ⟨k, t, ht, hQ⟩
  induction k generalizing s with
  | zero =>
    cases ht
    exact excludes _ h hQ
  | succ k ih =>
    obtain ⟨s', hround, hrest⟩ := Option.bind_eq_some_iff.mp ht
    exact ih (kept s s' h hround) hrest

end Rounds

section Ends
variable {step : σ → α → Option σ} {s : σ}

/-- Every run from `s` has at most `n` steps. -/
def EndsWithin (step : σ → α → Option σ) : ℕ → σ → Prop
  | 0, s => ∀ a, step s a = none
  | n + 1, s => ∀ a s', step s a = some s' → EndsWithin step n s'

theorem EndsWithin.succ {n : ℕ} (h : EndsWithin step n s) : EndsWithin step (n + 1) s := by
  induction n generalizing s with
  | zero =>
    intro a s' hstep
    rw [h a] at hstep
    cases hstep
  | succ n ih => exact fun a s' hstep => ih (h a s' hstep)

theorem EndsWithin.mono {n m : ℕ} (h : EndsWithin step n s) (hle : n ≤ m) : EndsWithin step m s := by
  induction hle with
  | refl => exact h
  | step _ ih => exact ih.succ

theorem EndsWithin.exists_stuck {n : ℕ} (h : EndsWithin step n s) :
    ∃ s', Reaches step anyStep s s' ∧ ∀ a, step s' a = none := by
  induction n generalizing s with
  | zero => exact ⟨s, .refl, h⟩
  | succ n ih =>
    by_cases hstuck : ∀ a, step s a = none
    · exact ⟨s, .refl, hstuck⟩
    · obtain ⟨a, ha⟩ := not_forall.mp hstuck
      obtain ⟨s₁, hs₁⟩ := Option.ne_none_iff_exists'.mp ha
      obtain ⟨s', hreach, hnone⟩ := ih (h a s₁ hs₁)
      exact ⟨s', (Reaches.tail .refl trivial hs₁).trans hreach, hnone⟩

theorem endsWithin_of_rank {rank : σ → ℕ → Prop}
    (lowered : ∀ s a s' n, rank s n → step s a = some s' → ∃ m < n, rank s' m) {n : ℕ} (h : rank s n) :
    EndsWithin step n s := by
  induction n using Nat.strongRecOn generalizing s with
  | ind n ih =>
    cases n with
    | zero =>
      intro a
      cases hstep : step s a with
      | none => rfl
      | some s' =>
        obtain ⟨m, hlt, -⟩ := lowered s a s' 0 h hstep
        cases hlt
    | succ n =>
      intro a s' hstep
      obtain ⟨m, hlt, hrank⟩ := lowered s a s' _ h hstep
      exact (ih m hlt hrank).mono (Nat.lt_succ_iff.mp hlt)

end Ends

/-- Execute a list of actions, stopping with `none` when one of them is disabled
or breaks the guard. -/
def execute (step : σ → α → Option σ) (guard : σ → α → Prop) [∀ s a, Decidable (guard s a)] :
    σ → List α → Option σ
  | s, [] => some s
  | s, a :: as => if guard s a then (step s a).bind (execute step guard · as) else none

theorem reaches_of_execute {step : σ → α → Option σ} {guard : σ → α → Prop}
    [∀ s a, Decidable (guard s a)] {s₀ s : σ} {as : List α} {s' : σ}
    (h : Reaches step guard s₀ s) (he : execute step guard s as = some s') :
    Reaches step guard s₀ s' := by
  induction as generalizing s with
  | nil =>
    simp only [execute, Option.some.injEq] at he
    exact he ▸ h
  | cons a as ih =>
    simp only [execute] at he
    split_ifs at he with allowed
    obtain ⟨t, taken, rest⟩ := Option.bind_eq_some_iff.mp he
    exact ih (.tail h allowed taken) rest

/-- A list of actions that can be executed and ends in a state with `P` reaches one. -/
theorem exists_reaches (step : σ → α → Option σ) (guard : σ → α → Prop)
    [∀ s a, Decidable (guard s a)] (s₀ : σ) (as : List α) (P : σ → Prop)
    (h : ∃ s ∈ execute step guard s₀ as, P s) : ∃ s, Reaches step guard s₀ s ∧ P s := by
  obtain ⟨s, hs, hP⟩ := h
  exact ⟨s, reaches_of_execute .refl hs, hP⟩

theorem exists_reaches_twice (step : σ → α → Option σ) (guard : σ → α → Prop)
    [∀ s a, Decidable (guard s a)] (s₀ : σ) (as bs : List α) (P : σ → σ → Prop)
    (h : ∃ s ∈ execute step guard s₀ as, ∃ s' ∈ execute step guard s bs, P s s') :
    ∃ s s', Reaches step guard s₀ s ∧ Reaches step guard s s' ∧ P s s' := by
  obtain ⟨s, hs, s', hs', hP⟩ := h
  exact ⟨s, s', reaches_of_execute .refl hs, reaches_of_execute .refl hs', hP⟩

end DistributedLabs.TransitionRuns
