import Mathlib.Data.List.Basic
import Mathlib.Logic.Relation
import Mathlib.Tactic.Ring

/-!
# Depth-first search that remembers what it has seen

A search looks for a goal among the configurations that can be reached from a first one. From a
configuration there is a list of attempts, each of which fails or leads to another configuration.
The search keeps a stack of configurations with the attempts that are left, and does not enter
a configuration that is the same as one it has entered before. One step makes one attempt, or
goes back when none is left.

Whatever "the same" means, the search ends and a goal it finds can be reached. If attempts from
one of two same configurations can be matched from the other, a search that ends without a goal
has met everything that can be reached.
-/

namespace DistributedLabs.MemoisedSearch

variable {σ : Type*}

structure Problem (σ : Type*) where
  tries : σ → List (Option σ)
  goal : σ → Bool
  same : σ → σ → Bool

/-- A configuration on the stack and the attempts that are left there. -/
structure Frame (σ : Type*) where
  config : σ
  rest : List (Option σ)

/-- The stack, its top apart, and the configurations that were entered. -/
structure State (σ : Type*) where
  top : Frame σ
  below : List (Frame σ)
  seen : List σ

namespace State

def stack (s : State σ) : List (Frame σ) := s.top :: s.below

/-- The attempt on the top is used up. -/
def skip (s : State σ) (rest : List (Option σ)) : State σ :=
  { s with top := ⟨s.top.config, rest⟩ }

end State

inductive Outcome (σ : Type*) where
  | found
  | exhausted
  | again (s : State σ)

namespace Problem

variable (p : Problem σ)

def fresh (c : σ) : Frame σ := ⟨c, p.tries c⟩

def start (c₀ : σ) : State σ := ⟨p.fresh c₀, [], []⟩

def enter (s : State σ) (c : σ) (rest : List (Option σ)) : State σ :=
  ⟨p.fresh c, ⟨s.top.config, rest⟩ :: s.below, c :: s.seen⟩

def step (s : State σ) : Outcome σ :=
  if p.goal s.top.config then .found
  else match s.top.rest with
    | none :: rest => .again (s.skip rest)
    | some c :: rest => if s.seen.any (p.same c) then .again (s.skip rest) else .again (p.enter s c rest)
    | [] => match s.below with
      | [] => .exhausted
      | frame :: below => .again ⟨frame, below, s.seen⟩

/-- What one step can do. -/
inductive Steps : State σ → State σ → Prop
  | failed {s : State σ} {rest : List (Option σ)} (hrest : s.top.rest = none :: rest) :
      Steps s (s.skip rest)
  | known {s : State σ} {c : σ} {rest : List (Option σ)} (hrest : s.top.rest = some c :: rest)
      (hseen : s.seen.any (p.same c)) : Steps s (s.skip rest)
  | enter {s : State σ} {c : σ} {rest : List (Option σ)} (hrest : s.top.rest = some c :: rest) :
      Steps s (p.enter s c rest)
  | back {s : State σ} {frame : Frame σ} {below : List (Frame σ)} (hrest : s.top.rest = [])
      (hbelow : s.below = frame :: below) : Steps s ⟨frame, below, s.seen⟩

variable {p} {s s' : State σ}

theorem step_again (h : p.step s = .again s') : p.goal s.top.config = false ∧ p.Steps s s' := by
  unfold step at h
  split_ifs at h with hgoal
  refine ⟨by simpa using hgoal, ?_⟩
  split at h
  · cases h
    exact .failed ‹_›
  · split_ifs at h with hseen
    · cases h
      exact .known ‹_› hseen
    · cases h
      exact .enter ‹_›
  · split at h
    · cases h
    · cases h
      exact .back ‹_› ‹_›

theorem step_exhausted (h : p.step s = .exhausted) :
    p.goal s.top.config = false ∧ s.top.rest = [] ∧ s.below = [] := by
  unfold step at h
  split_ifs at h with hgoal
  refine ⟨by simpa using hgoal, ?_⟩
  split at h
  · cases h
  · split_ifs at h
  · split at h
    · exact ⟨‹_›, ‹_›⟩
    · cases h

theorem step_found (h : p.step s = .found) : p.goal s.top.config := by
  unfold step at h
  split_ifs at h with hgoal
  · exact hgoal
  · split at h
    · cases h
    · split_ifs at h
    · split at h <;> cases h

variable (p) in
/-- The configurations that attempts lead to from `c₀`. -/
inductive Reachable (c₀ : σ) : σ → Prop
  | start : Reachable c₀ c₀
  | attempt {c c' : σ} (run : Reachable c₀ c) (hc : some c' ∈ p.tries c) : Reachable c₀ c'

variable {c₀ : σ}

variable (p c₀) in
/-- Only configurations that can be reached are entered, and each frame on the stack has some of
the attempts of its configuration left. The bottom of the stack is where the search began. -/
structure Sound (s : State σ) : Prop where
  reachable : ∀ f ∈ s.stack, p.Reachable c₀ f.config
  rest : ∀ f ∈ s.stack, ∀ c, some c ∈ f.rest → some c ∈ p.tries f.config
  seen : ∀ c ∈ s.seen, p.Reachable c₀ c
  bottom : (s.stack.getLast?.map Frame.config) = some c₀

theorem sound_start : p.Sound c₀ (p.start c₀) where
  reachable := by simp [State.stack, start, fresh, Reachable.start]
  rest := by simp [State.stack, start, fresh]
  seen := by simp [start]
  bottom := rfl

theorem Sound.skip (h : p.Sound c₀ s) {rest : List (Option σ)}
    (hrest : ∀ c, some c ∈ rest → some c ∈ s.top.rest) : p.Sound c₀ (s.skip rest) where
  reachable := by
    intro f hf
    rcases List.mem_cons.mp hf with rfl | hf
    · exact h.reachable s.top List.mem_cons_self
    · exact h.reachable f (List.mem_cons_of_mem _ hf)
  rest := by
    intro f hf
    rcases List.mem_cons.mp hf with rfl | hf
    · intro c hc
      exact h.rest s.top List.mem_cons_self c (hrest c hc)
    · exact h.rest f (List.mem_cons_of_mem _ hf)
  seen := h.seen
  bottom := by
    have hb := h.bottom
    unfold State.stack State.skip at *
    cases hs : s.below with
    | nil => simpa [hs] using hb
    | cons f fs => simpa [hs] using hb

theorem Sound.step (h : p.Sound c₀ s) (hs : p.Steps s s') : p.Sound c₀ s' := by
  cases hs with
  | failed hrest => exact h.skip (by simp [hrest])
  | known hrest => exact h.skip (by simp +contextual [hrest])
  | @enter c rest hrest =>
    have hskip : p.Sound c₀ (s.skip rest) := h.skip (by simp +contextual [hrest])
    have hc : p.Reachable c₀ c :=
      .attempt (h.reachable s.top List.mem_cons_self)
        (h.rest s.top List.mem_cons_self c (by simp [hrest]))
    constructor
    · intro f hf
      rcases List.mem_cons.mp hf with rfl | hf
      · exact hc
      · exact hskip.reachable f hf
    · intro f hf
      rcases List.mem_cons.mp hf with rfl | hf
      · exact fun c hc => hc
      · exact hskip.rest f hf
    · intro d hd
      rcases List.mem_cons.mp hd with rfl | hd
      · exact hc
      · exact h.seen d hd
    · exact hskip.bottom
  | @back frame below hrest hbelow =>
    have hsub : ∀ f ∈ frame :: below, f ∈ s.stack := by
      intro f hf
      exact List.mem_cons_of_mem _ (hbelow ▸ hf)
    refine ⟨fun f hf => h.reachable f (hsub f hf), fun f hf => h.rest f (hsub f hf), h.seen, ?_⟩
    simpa [State.stack, hbelow] using h.bottom

variable (p) in
/-- Whatever can be attempted from a configuration can be attempted from one that is the same. -/
structure SameSimulates : Prop where
  goal : ∀ c d, p.same c d → p.goal c → p.goal d
  attempt : ∀ c d, p.same c d → ∀ c', some c' ∈ p.tries c → ∃ d', some d' ∈ p.tries d ∧ p.same c' d'

variable (p) in
/-- Linked by configurations that are the same. -/
def Like : σ → σ → Prop := Relation.ReflTransGen fun c d => p.same c d

variable (p) in
/-- Something like `c` was entered. -/
def Covered (seen : List σ) (c : σ) : Prop := ∃ d ∈ seen, p.Like c d

theorem Like.goal {c d : σ} (hsame : p.SameSimulates) (h : p.Like c d) (hc : p.goal c) : p.goal d := by
  induction h with
  | refl => exact hc
  | tail _ hlast ih => exact hsame.goal _ _ hlast ih

theorem Like.attempt {c d c' : σ} (hsame : p.SameSimulates) (h : p.Like c d)
    (hc : some c' ∈ p.tries c) : ∃ d', some d' ∈ p.tries d ∧ p.Like c' d' := by
  induction h with
  | refl => exact ⟨c', hc, .refl⟩
  | tail _ hlast ih =>
    obtain ⟨d', hd', hlike⟩ := ih
    obtain ⟨e', he', hlast'⟩ := hsame.attempt _ _ hlast d' hd'
    exact ⟨e', he', hlike.tail hlast'⟩

theorem Covered.mono {seen seen' : List σ} {c : σ} (h : p.Covered seen c)
    (hsub : ∀ d ∈ seen, d ∈ seen') : p.Covered seen' c := by
  obtain ⟨d, hd, hlike⟩ := h
  exact ⟨d, hsub d hd, hlike⟩

variable (p) in
/-- Every attempt from `c` has been looked at, up to those in `rest`. -/
def Closed (seen : List σ) (rest : List (Option σ)) (c : σ) : Prop :=
  ∀ c', some c' ∈ p.tries c → some c' ∈ rest ∨ p.Covered seen c'

theorem Closed.mono {seen seen' : List σ} {rest : List (Option σ)} {c : σ} (h : p.Closed seen rest c)
    (hsub : ∀ d ∈ seen, d ∈ seen') : p.Closed seen' rest c :=
  fun c' hc' => (h c' hc').imp id (·.mono hsub)

variable (p) in
/-- Attempts that are not left on the stack have been looked at, and a configuration that was
entered and is not on the stack has none left. No goal was passed by. -/
structure Complete (s : State σ) : Prop where
  stack : ∀ f ∈ s.stack, p.Closed s.seen f.rest f.config
  seen : ∀ c ∈ s.seen, p.Closed s.seen [] c ∨ ∃ f ∈ s.stack, f.config = c
  goal : ∀ c ∈ s.seen, p.goal c → s.top.config = c
  below : ∀ f ∈ s.below, p.goal f.config = false

theorem complete_start : p.Complete (p.start c₀) where
  stack := by
    intro f hf
    obtain rfl := List.mem_singleton.mp hf
    exact fun c' hc' => .inl hc'
  seen := by simp [start]
  goal := by simp [start]
  below := by simp [start]

theorem Complete.skip (h : p.Complete s) {a : Option σ} {rest : List (Option σ)}
    (hrest : s.top.rest = a :: rest) (hcover : ∀ c, a = some c → p.Covered s.seen c) :
    p.Complete (s.skip rest) where
  stack := by
    intro f hf
    rcases List.mem_cons.mp hf with rfl | hf
    · intro c' hc'
      rcases h.stack s.top List.mem_cons_self c' hc' with hleft | hcovered
      · rw [hrest] at hleft
        rcases List.mem_cons.mp hleft with hfirst | hleft
        · exact .inr (hcover c' hfirst.symm)
        · exact .inl hleft
      · exact .inr hcovered
    · exact h.stack f (List.mem_cons_of_mem _ hf)
  seen := by
    intro c hc
    refine (h.seen c hc).imp id ?_
    rintro ⟨f, hf, rfl⟩
    rcases List.mem_cons.mp hf with rfl | hf
    · exact ⟨_, List.mem_cons_self, rfl⟩
    · exact ⟨f, List.mem_cons_of_mem _ hf, rfl⟩
  goal := h.goal
  below := h.below

theorem Complete.step (h : p.Complete s) (hgoal : p.goal s.top.config = false) (hs : p.Steps s s') :
    p.Complete s' := by
  cases hs with
  | failed hrest => exact h.skip hrest (by simp)
  | @known c rest hrest hseen =>
    apply h.skip hrest
    rintro c' ⟨rfl⟩
    obtain ⟨d, hd, hsame⟩ := List.any_eq_true.mp hseen
    exact ⟨d, hd, .single hsame⟩
  | @enter c rest hrest =>
    have hsub : ∀ d ∈ s.seen, d ∈ c :: s.seen := fun d hd => List.mem_cons_of_mem _ hd
    have hcovered : p.Covered (c :: s.seen) c := ⟨c, List.mem_cons_self, .refl⟩
    constructor
    · intro f hf
      rcases List.mem_cons.mp hf with rfl | hf
      · exact fun c' hc' => .inl hc'
      · rcases List.mem_cons.mp hf with rfl | hf
        · intro c' hc'
          rcases (h.stack s.top List.mem_cons_self).mono hsub c' hc' with hleft | hleft
          · rw [hrest] at hleft
            rcases List.mem_cons.mp hleft with hfirst | hleft
            · exact .inr (Option.some.inj hfirst ▸ hcovered)
            · exact .inl hleft
          · exact .inr hleft
        · exact (h.stack f (List.mem_cons_of_mem _ hf)).mono hsub
    · intro d hd
      rcases List.mem_cons.mp hd with rfl | hd
      · exact .inr ⟨_, List.mem_cons_self, rfl⟩
      · refine (h.seen d hd).imp (·.mono hsub) ?_
        rintro ⟨f, hf, rfl⟩
        rcases List.mem_cons.mp hf with rfl | hf
        · exact ⟨_, List.mem_cons_of_mem _ List.mem_cons_self, rfl⟩
        · exact ⟨f, List.mem_cons_of_mem _ (List.mem_cons_of_mem _ hf), rfl⟩
    · intro d hd hgoal'
      rcases List.mem_cons.mp hd with rfl | hd
      · rfl
      · rw [h.goal d hd hgoal'] at hgoal
        exact absurd hgoal' (by simp [hgoal])
    · intro f hf
      rcases List.mem_cons.mp hf with rfl | hf
      · exact hgoal
      · exact h.below f hf
  | @back frame below hrest hbelow =>
    have hsub : ∀ f ∈ frame :: below, f ∈ s.stack := by
      intro f hf
      exact List.mem_cons_of_mem _ (hbelow ▸ hf)
    constructor
    · exact fun f hf => h.stack f (hsub f hf)
    · intro c hc
      rcases h.seen c hc with hclosed | ⟨f, hf, rfl⟩
      · exact .inl hclosed
      · rcases List.mem_cons.mp hf with rfl | hf
        · left
          have hclosed := h.stack s.top List.mem_cons_self
          rwa [hrest] at hclosed
        · rw [hbelow] at hf
          exact .inr ⟨f, hf, rfl⟩
    · intro c hc hgoal'
      rw [h.goal c hc hgoal'] at hgoal
      exact absurd hgoal' (by simp [hgoal])
    · intro f hf
      exact h.below f (hbelow ▸ List.mem_cons_of_mem _ hf)

/-- When nothing is left, something like each configuration that can be reached was entered. -/
theorem Complete.covered (h : p.Complete s) (hsound : p.Sound c₀ s) (hsame : p.SameSimulates)
    (hend : p.step s = .exhausted) {c : σ} (hc : p.Reachable c₀ c) : c = c₀ ∨ p.Covered s.seen c := by
  obtain ⟨-, hrest, hbelow⟩ := step_exhausted hend
  have hroot : s.top.config = c₀ := by
    have hb := hsound.bottom
    simpa [State.stack, hbelow] using hb
  have htop : p.Closed s.seen [] c₀ := by
    have hclosed := h.stack s.top List.mem_cons_self
    rwa [hrest, hroot] at hclosed
  induction hc with
  | start => exact .inl rfl
  | @attempt c c' _ hc' ih =>
    right
    rcases ih with rfl | ⟨d, hd, hlike⟩
    · exact (htop c' hc').resolve_left (by simp)
    · obtain ⟨d', hd', hlike'⟩ := hlike.attempt hsame hc'
      have hclosed : p.Closed s.seen [] d := by
        rcases h.seen d hd with hclosed | ⟨f, hf, hfd⟩
        · exact hclosed
        · obtain rfl : f = s.top := by simpa [State.stack, hbelow] using hf
          rw [← hfd, hroot]
          exact htop
      obtain ⟨e, he, hlike''⟩ := (hclosed d' hd').resolve_left (by simp)
      exact ⟨e, he, hlike'.trans hlike''⟩

theorem Complete.not_goal (h : p.Complete s) (hsound : p.Sound c₀ s) (hsame : p.SameSimulates)
    (hend : p.step s = .exhausted) {c : σ} (hc : p.Reachable c₀ c) : p.goal c = false := by
  obtain ⟨hgoal, -, hbelow⟩ := step_exhausted hend
  have hroot : s.top.config = c₀ := by
    have hb := hsound.bottom
    simpa [State.stack, hbelow] using hb
  rw [Bool.eq_false_iff]
  intro hcgoal
  rcases h.covered hsound hsame hend hc with rfl | ⟨d, hd, hlike⟩
  · rw [hroot] at hgoal
    exact absurd hcgoal (by simp [hgoal])
  · have hdgoal := hlike.goal hsame hcgoal
    rw [h.goal d hd hdgoal] at hgoal
    exact absurd hdgoal (by simp [hgoal])

end Problem

/-- How many steps the search takes at most from a configuration of a depth below the given one,
where no configuration has more than `width` attempts. -/
def bound (width : ℕ) : ℕ → ℕ
  | 0 => 0
  | depth + 1 => 1 + width * (1 + bound width depth)

theorem bound_mono (width : ℕ) : Monotone (bound width) := by
  apply monotone_nat_of_le_succ
  intro n
  induction n with
  | zero => simp [bound]
  | succ n ih =>
    simp only [bound]
    gcongr
    simpa [bound] using ih

section Bounded
variable {depth : σ → ℕ} {width : ℕ}

/-- The steps that may still be made in a frame and in those that are entered from it. -/
def Frame.weight (depth : σ → ℕ) (width : ℕ) (f : Frame σ) : ℕ :=
  1 + f.rest.length * (1 + bound width (depth f.config))

def State.weight (depth : σ → ℕ) (width : ℕ) (s : State σ) : ℕ :=
  (s.stack.map (Frame.weight depth width)).sum

theorem State.weight_skip (depth : σ → ℕ) (width : ℕ) (s : State σ) {a : Option σ} {rest : List (Option σ)}
    (hrest : s.top.rest = a :: rest) :
    (s.skip rest).weight depth width + (1 + bound width (depth s.top.config)) =
      s.weight depth width := by
  simp only [State.weight, State.stack, State.skip, List.map_cons, List.sum_cons, Frame.weight, hrest,
    List.length_cons]
  ring

namespace Problem
variable {p : Problem σ} {s s' : State σ} {c₀ : σ}

variable (p) in
/-- Attempts lower the depth, and there are at most `width` of them. -/
structure Bounded (depth : σ → ℕ) (width : ℕ) : Prop where
  depth : ∀ c c', some c' ∈ p.tries c → depth c' < depth c
  width : ∀ c, (p.tries c).length ≤ width

theorem weight_fresh_le (hp : p.Bounded depth width) (c : σ) :
    (p.fresh c).weight depth width ≤ bound width (depth c + 1) := by
  simp only [Frame.weight, fresh, bound]
  gcongr
  exact hp.width c

theorem weight_start_le (hp : p.Bounded depth width) :
    (p.start c₀).weight depth width ≤ bound width (depth c₀ + 1) := by
  simpa [State.weight, State.stack, start] using weight_fresh_le hp c₀

/-- A step uses up an attempt or a frame, and what it enters weighs less than the attempt did. -/
theorem weight_lt (hp : p.Bounded depth width) (hsound : p.Sound c₀ s) (hs : p.Steps s s') :
    s'.weight depth width < s.weight depth width := by
  cases hs with
  | failed hrest =>
    have hskip := s.weight_skip depth width hrest
    omega
  | known hrest =>
    have hskip := s.weight_skip depth width hrest
    omega
  | @enter c rest hrest =>
    have hskip := s.weight_skip depth width hrest
    have hlt : depth c < depth s.top.config :=
      hp.depth _ _ (hsound.rest s.top List.mem_cons_self c (by simp [hrest]))
    have hfresh : (p.fresh c).weight depth width ≤ bound width (depth s.top.config) :=
      (weight_fresh_le hp c).trans (bound_mono width hlt)
    have henter : (p.enter s c rest).weight depth width =
        (p.fresh c).weight depth width + (s.skip rest).weight depth width := by
      simp [State.weight, State.stack, Problem.enter, State.skip]
    omega
  | @back frame below hrest hbelow =>
    simp [State.weight, State.stack, hbelow, Frame.weight, hrest]

end Problem

end Bounded

end DistributedLabs.MemoisedSearch
