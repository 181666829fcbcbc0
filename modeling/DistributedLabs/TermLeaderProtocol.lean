import DistributedLabs.MajorityQuorums
import DistributedLabs.TermLogs
import Mathlib.Logic.Function.Basic

/-!
# Replicated logs under one leader per term

An abstract protocol on whole logs. Servers carry a term that only grows, vote
at most once in a term, and take over prefixes of the log of a term's leader.
Nothing is ever forgotten: votes, the log each candidate stood with, the log of
every term's leader and how much of it each server has taken over stay recorded,
so that every claim about the past is a claim about the present state.

A server that takes over part of a leader's log keeps everything its own log had
in common with it. That is all the completeness argument needs to know about how
logs are merged.
-/

namespace DistributedLabs.TermLeader
open MajorityQuorums TermLogs

variable {S E : Type*}

/-- Replace one value of a two-place function. -/
def set₂ {α β γ : Type*} [DecidableEq α] [DecidableEq β] (f : α → β → γ) (a : α) (b : β) (x : γ) :
    α → β → γ := fun a' b' => if a' = a ∧ b' = b then x else f a' b'

@[simp] theorem set₂_self {α β γ : Type*} [DecidableEq α] [DecidableEq β] (f : α → β → γ)
    (a : α) (b : β) (x : γ) : set₂ f a b x a b = x := by simp [set₂]

theorem set₂_of_ne {α β γ : Type*} [DecidableEq α] [DecidableEq β] (f : α → β → γ)
    {a a' : α} {b b' : β} (x : γ) (h : ¬(a' = a ∧ b' = b)) : set₂ f a b x a' b' = f a' b' := by
  simp [set₂, h]

/-- Servers and the record of everything they did. -/
structure State (S E : Type*) where
  term : S → ℕ
  log : S → List E
  /-- whom a server voted for in a term -/
  vote : S → ℕ → Option S
  /-- the log a candidate stood with in a term -/
  candLog : S → ℕ → List E
  leader : ℕ → Option S
  /-- the longest log the leader of a term had while it was in that term -/
  leaderLog : ℕ → List E
  /-- how much of a term's leader log a server took over while in that term -/
  acked : S → ℕ → ℕ

def initial (S E : Type*) : State S E where
  term _ := 0
  log _ := []
  vote _ _ := none
  candLog _ _ := []
  leader _ := none
  leaderLog _ := []
  acked _ _ := 0

namespace State
variable [DecidableEq S]

/-- A server moves to a later term. -/
@[simps] def bump (s : State S E) (v : S) (T : ℕ) : State S E :=
  { s with term := Function.update s.term v T }

/-- A server stands for a term with the log it has. -/
@[simps] def stand (s : State S E) (c : S) (T : ℕ) : State S E :=
  { s with
    term := Function.update s.term c T
    vote := set₂ s.vote c T (some c)
    candLog := set₂ s.candLog c T (s.log c) }

@[simps] def grant (s : State S E) (v c : S) (T : ℕ) : State S E :=
  { s with
    term := Function.update s.term v T
    vote := set₂ s.vote v T (some c) }

@[simps] def elect (s : State S E) (c : S) (T : ℕ) : State S E :=
  { s with
    leader := Function.update s.leader T (some c)
    leaderLog := Function.update s.leaderLog T (s.log c)
    acked := set₂ s.acked c T (s.log c).length }

/-- The leader of a term writes one entry. -/
@[simps] def append (s : State S E) (c : S) (T : ℕ) (e : E) : State S E :=
  { s with
    log := Function.update s.log c (s.log c ++ [e])
    leaderLog := Function.update s.leaderLog T (s.log c ++ [e])
    acked := set₂ s.acked c T (s.log c ++ [e]).length }

/-- A server takes over the first `k` entries of a leader log and now has `l`. -/
@[simps] def adopt (s : State S E) (v : S) (T : ℕ) (l : List E) (k : ℕ) : State S E :=
  { s with
    term := Function.update s.term v T
    log := Function.update s.log v l
    acked := set₂ s.acked v T (max (s.acked v T) k) }

end State

section Protocol
variable [Fintype S] (termOf : E → ℕ)

/-- One step of the protocol. -/
inductive Step [DecidableEq S] (s : State S E) : State S E → Prop
  | bump (v : S) (T : ℕ) (ht : s.term v ≤ T) : Step s (s.bump v T)
  | stand (c : S) (T : ℕ) (ht : s.term c < T) : Step s (s.stand c T)
  | grant (v c : S) (T : ℕ) (ht : s.term v ≤ T)
      (free : s.vote v T = none ∨ s.vote v T = some c) (stands : s.vote c T = some c)
      (recent : UpToDate termOf (s.candLog c T) (s.log v)) : Step s (s.grant v c T)
  | elect (c : S) (T : ℕ) (Q : Finset S) (hQ : Majority Q)
      (voted : ∀ v ∈ Q, s.vote v T = some c) (stands : s.vote c T = some c)
      (ht : s.term c = T) (hl : s.log c = s.candLog c T) (vacant : s.leader T = none) :
      Step s (s.elect c T)
  | append (c : S) (T : ℕ) (e : E) (leads : s.leader T = some c) (ht : s.term c = T)
      (he : termOf e = T) : Step s (s.append c T e)
  | adopt (v l₀ : S) (T : ℕ) (l : List E) (k : ℕ) (ht : s.term v ≤ T)
      (leads : s.leader T = some l₀) (other : v ≠ l₀) (hk : k ≤ (s.leaderLog T).length)
      (agrees : l.take k = (s.leaderLog T).take k)
      (origin : l = s.log v ∨ ∃ m, l = (s.leaderLog T).take m)
      (kept : Retains (s.leaderLog T) (s.log v) l) : Step s (s.adopt v T l k)

/-- The log holds the first `i` entries of the leader log of term `t`. -/
def Keeps (s : State S E) (l : List E) (t i : ℕ) : Prop :=
  i ≤ l.length ∧ l.take i = (s.leaderLog t).take i

/-- Some leader of a term above `t` and at most `T` stood without those entries. -/
def Diverged (s : State S E) (t i T : ℕ) : Prop :=
  ∃ t' c, t < t' ∧ t' ≤ T ∧ s.leader t' = some c ∧ ¬Keeps s (s.candLog c t') t i

/-- Every entry comes from the leader of its term, with all that precedes it. -/
def Sourced (s : State S E) (T : ℕ) (l : List E) : Prop :=
  ∀ i e, l[i]? = some e → termOf e ≤ T ∧ (∃ c, s.leader (termOf e) = some c) ∧
    i < (s.leaderLog (termOf e)).length ∧
    l.take (i + 1) = (s.leaderLog (termOf e)).take (i + 1)

/-- What votes say about a candidate's log: it holds whatever the voter took over
under an earlier leader, unless some leader in between already lacked it. -/
def Backed (s : State S E) (v c : S) (T U : ℕ) : Prop :=
  ∀ t < T, ∀ i ≤ s.acked v t, 0 < i → termAt termOf (s.leaderLog t) i = t →
    Keeps s (s.candLog c T) t i ∨ Diverged s t i U

structure Inv (s : State S E) : Prop where
  vote_term : ∀ v T c, s.vote v T = some c → T ≤ s.term v
  vote_stands : ∀ v T c, s.vote v T = some c → s.vote c T = some c
  leader_term : ∀ T c, s.leader T = some c → T ≤ s.term c ∧ s.vote c T = some c
  leader_log : ∀ T c, s.leader T = some c → s.term c = T → s.log c = s.leaderLog T
  leader_stood : ∀ T c, s.leader T = some c → s.candLog c T <+: s.leaderLog T
  log_sourced : ∀ v, Sourced termOf s (s.term v) (s.log v)
  cand_sourced : ∀ c T, s.vote c T = some c →
    Sourced termOf s T (s.candLog c T) ∧ ∀ e ∈ s.candLog c T, termOf e < T
  leader_sourced : ∀ T c, s.leader T = some c → Sourced termOf s T (s.leaderLog T)
  acked_le : ∀ v T, s.acked v T ≤ (s.leaderLog T).length
  acked_leader : ∀ v T, 0 < s.acked v T → (∃ c, s.leader T = some c) ∧ T ≤ s.term v
  holds : ∀ v t, ∀ i ≤ s.acked v t, Keeps s (s.log v) t i ∨ Diverged s t i (s.term v)
  backed : ∀ v T c, s.vote v T = some c → Backed termOf s v c T T
  elected : ∀ T c, s.leader T = some c → ∃ Q : Finset S, Majority Q ∧
    ∀ v ∈ Q, T ≤ s.term v ∧ Backed termOf s v c T (T - 1)

end Protocol

/-- The second state has at least the record of the first. -/
structure Extends (s s' : State S E) : Prop where
  term : ∀ v, s.term v ≤ s'.term v
  vote : ∀ v T c, s.vote v T = some c → s'.vote v T = some c
  candLog : ∀ c T, s.vote c T = some c → s'.candLog c T = s.candLog c T
  leader : ∀ T c, s.leader T = some c → s'.leader T = some c
  leaderLog : ∀ T c, s.leader T = some c → s.leaderLog T <+: s'.leaderLog T
  acked : ∀ v t, s.acked v t ≤ s'.acked v t
  frozen : ∀ v t, t < s.term v → s'.acked v t = s.acked v t

theorem Extends.refl (s : State S E) : Extends s s :=
  ⟨fun _ => le_rfl, fun _ _ _ h => h, fun _ _ _ => rfl, fun _ _ h => h, fun _ _ _ => List.prefix_rfl,
    fun _ _ => le_rfl, fun _ _ _ => rfl⟩

theorem Extends.trans {s s' s'' : State S E} (h : Extends s s') (h' : Extends s' s'') : Extends s s'' where
  term v := (h.term v).trans (h'.term v)
  vote v T c hv := h'.vote v T c (h.vote v T c hv)
  candLog c T hv := (h'.candLog c T (h.vote c T c hv)).trans (h.candLog c T hv)
  leader T c hc := h'.leader T c (h.leader T c hc)
  leaderLog T c hc := (h.leaderLog T c hc).trans (h'.leaderLog T c (h.leader T c hc))
  acked v t := (h.acked v t).trans (h'.acked v t)
  frozen v t ht := (h'.frozen v t (ht.trans_le (h.term v))).trans (h.frozen v t ht)

section Growth
variable {termOf : E → ℕ} {s s' : State S E} (hext : Extends s s')
include hext

theorem Extends.take_leaderLog {t i : ℕ} {c : S} (hc : s.leader t = some c)
    (hi : i ≤ (s.leaderLog t).length) : (s'.leaderLog t).take i = (s.leaderLog t).take i := by
  obtain ⟨r, hr⟩ := hext.leaderLog t c hc
  rw [← hr, List.take_append_of_le_length hi]

theorem Extends.sourced_mono {T T' : ℕ} {l : List E} (hT : T ≤ T') (h : Sourced termOf s T l) :
    Sourced termOf s' T' l := by
  intro i e he
  obtain ⟨hle, ⟨c, hc⟩, hlt, htake⟩ := h i e he
  refine ⟨hle.trans hT, ⟨c, hext.leader _ c hc⟩, ?_, ?_⟩
  · exact hlt.trans_le (hext.leaderLog _ c hc).length_le
  · rw [hext.take_leaderLog hc hlt, htake]

variable [Fintype S] (inv : Inv termOf s)
include inv

theorem take_acked {v : S} {t i : ℕ} (hi : i ≤ s.acked v t) :
    (s'.leaderLog t).take i = (s.leaderLog t).take i := by
  rcases Nat.eq_zero_or_pos i with rfl | hpos
  · simp
  · obtain ⟨⟨c, hc⟩, -⟩ := inv.acked_leader v t (by omega)
    exact hext.take_leaderLog hc (hi.trans (inv.acked_le v t))

theorem keeps_acked {v : S} {l : List E} {t i : ℕ} (hi : i ≤ s.acked v t) :
    Keeps s' l t i ↔ Keeps s l t i := by
  unfold Keeps
  rw [take_acked hext inv hi]

theorem diverged_mono {v : S} {t i U U' : ℕ} (hi : i ≤ s.acked v t) (hU : U ≤ U')
    (h : Diverged s t i U) : Diverged s' t i U' := by
  obtain ⟨t', c, hlt, hle, hc, hn⟩ := h
  refine ⟨t', c, hlt, hle.trans hU, hext.leader t' c hc, ?_⟩
  rw [hext.candLog c t' (inv.leader_term t' c hc).2, keeps_acked hext inv hi]
  exact hn

theorem backed_mono {v c : S} {T U : ℕ} (hv : T ≤ s.term v) (hc : s.vote c T = some c)
    (h : Backed termOf s v c T U) : Backed termOf s' v c T U := by
  intro t ht i hi hpos hterm
  rw [hext.frozen v t (by omega)] at hi
  rw [termAt_congr termOf (take_acked hext inv hi)] at hterm
  rw [hext.candLog c T hc]
  rcases h t ht i hi hpos hterm with hk | hd
  · exact Or.inl ((keeps_acked hext inv hi).mpr hk)
  · exact Or.inr (diverged_mono hext inv hi le_rfl hd)

theorem Extends.inv_of_new
    (votes : ∀ v T c, s'.vote v T = some c → s.vote v T = some c ∨
      T ≤ s'.term v ∧ s'.vote c T = some c ∧ Backed termOf s' v c T T)
    (cands : ∀ c T, s'.vote c T = some c → s.vote c T = some c ∨
      Sourced termOf s' T (s'.candLog c T) ∧ ∀ e ∈ s'.candLog c T, termOf e < T)
    (leaders : ∀ T c, s'.leader T = some c → s.leader T = some c ∨
      T ≤ s'.term c ∧ s'.vote c T = some c ∧ s'.candLog c T <+: s'.leaderLog T ∧
      ∃ Q : Finset S, Majority Q ∧ ∀ v ∈ Q, T ≤ s'.term v ∧ Backed termOf s' v c T (T - 1))
    (own : ∀ T c, s'.leader T = some c → s'.term c = T → s'.log c = s'.leaderLog T)
    (logs : ∀ v, s'.log v = s.log v ∨ Sourced termOf s' (s'.term v) (s'.log v))
    (leaderLogs : ∀ T c, s'.leader T = some c →
      s.leader T = some c ∧ s'.leaderLog T = s.leaderLog T ∨ Sourced termOf s' T (s'.leaderLog T))
    (acks : ∀ v t, s'.acked v t = s.acked v t ∨ s'.acked v t ≤ (s'.leaderLog t).length ∧
      (∃ c, s'.leader t = some c) ∧ t ≤ s'.term v)
    (holding : ∀ v t, s'.log v = s.log v ∧ s'.acked v t = s.acked v t ∨
      ∀ i ≤ s'.acked v t, Keeps s' (s'.log v) t i ∨ Diverged s' t i (s'.term v)) :
    Inv termOf s' where
  vote_term v T c h := by
    rcases votes v T c h with h | h
    · exact (inv.vote_term v T c h).trans (hext.term v)
    · exact h.1
  vote_stands v T c h := by
    rcases votes v T c h with h | h
    · exact hext.vote c T c (inv.vote_stands v T c h)
    · exact h.2.1
  leader_term T c h := by
    rcases leaders T c h with h | h
    · obtain ⟨ht, hv⟩ := inv.leader_term T c h
      exact ⟨ht.trans (hext.term c), hext.vote c T c hv⟩
    · exact ⟨h.1, h.2.1⟩
  leader_log := own
  leader_stood T c h := by
    rcases leaders T c h with h | h
    · rw [hext.candLog c T (inv.leader_term T c h).2]
      exact (inv.leader_stood T c h).trans (hext.leaderLog T c h)
    · exact h.2.2.1
  log_sourced v := by
    rcases logs v with h | h
    · rw [h]
      exact hext.sourced_mono (hext.term v) (inv.log_sourced v)
    · exact h
  cand_sourced c T h := by
    rcases cands c T h with h | h
    · rw [hext.candLog c T h]
      obtain ⟨hs, ht⟩ := inv.cand_sourced c T h
      exact ⟨hext.sourced_mono le_rfl hs, ht⟩
    · exact h
  leader_sourced T c h := by
    rcases leaderLogs T c h with ⟨h, he⟩ | h
    · rw [he]
      exact hext.sourced_mono le_rfl (inv.leader_sourced T c h)
    · exact h
  acked_le v T := by
    rcases acks v T with h | h
    · rw [h]
      rcases Nat.eq_zero_or_pos (s.acked v T) with h0 | hpos
      · omega
      · obtain ⟨⟨c, hc⟩, -⟩ := inv.acked_leader v T hpos
        exact (inv.acked_le v T).trans (hext.leaderLog T c hc).length_le
    · exact h.1
  acked_leader v T hpos := by
    rcases acks v T with h | h
    · rw [h] at hpos
      obtain ⟨⟨c, hc⟩, ht⟩ := inv.acked_leader v T hpos
      exact ⟨⟨c, hext.leader T c hc⟩, ht.trans (hext.term v)⟩
    · exact h.2
  holds v t := by
    rcases holding v t with ⟨hl, ha⟩ | h
    · intro i hi
      rw [ha] at hi
      rw [hl]
      rcases inv.holds v t i hi with hk | hd
      · exact Or.inl ((keeps_acked hext inv hi).mpr hk)
      · exact Or.inr (diverged_mono hext inv hi (hext.term v) hd)
    · exact h
  backed v T c h := by
    rcases votes v T c h with h | h
    · exact backed_mono hext inv (inv.vote_term v T c h) (inv.vote_stands v T c h)
        (inv.backed v T c h)
    · exact h.2.2
  elected T c h := by
    rcases leaders T c h with h | h
    · obtain ⟨Q, hQ, hb⟩ := inv.elected T c h
      refine ⟨Q, hQ, fun v hv => ?_⟩
      obtain ⟨ht, hback⟩ := hb v hv
      exact ⟨ht.trans (hext.term v), backed_mono hext inv ht (inv.leader_term T c h).2 hback⟩
    · exact h.2.2.2

end Growth

end DistributedLabs.TermLeader
