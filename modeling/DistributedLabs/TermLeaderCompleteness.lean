import DistributedLabs.TermLeaderInvariant

/-!
# Committed prefixes are final

A prefix of a leader log is committed when a majority took it over while in that
leader's term and its last entry is of that term. Every later leader stood with
it, by strong induction on the term: the majority that elected the leader meets
the majority that took the prefix over. Hence any two committed prefixes agree
as far as both reach.
-/

namespace DistributedLabs.TermLeader
open MajorityQuorums TermLogs

variable {S E : Type*} [Fintype S] {termOf : E → ℕ} {s s' : State S E}

/-- A majority took the first `i` entries of the leader log of `t` over in term `t`. -/
structure Committed (termOf : E → ℕ) (s : State S E) (t i : ℕ) : Prop where
  pos : 0 < i
  own : termAt termOf (s.leaderLog t) i = t
  majority : ∃ Q : Finset S, Majority Q ∧ ∀ v ∈ Q, i ≤ s.acked v t

/-- The first `k` entries of `l` were committed by a leader of a term up to `T`. -/
structure Chosen (termOf : E → ℕ) (s : State S E) (T k : ℕ) (l : List E) : Prop where
  reaches : k ≤ l.length
  committed : k = 0 ∨ ∃ t i, t ≤ T ∧ k ≤ i ∧ Committed termOf s t i ∧
    l.take k = (s.leaderLog t).take k

theorem Committed.le_length {t i : ℕ} (inv : Inv termOf s) (h : Committed termOf s t i) :
    ∃ c, s.leader t = some c ∧ i ≤ (s.leaderLog t).length := by
  obtain ⟨Q, hQ, hack⟩ := h.majority
  obtain ⟨v, hv⟩ : Q.Nonempty := by
    rw [← Finset.card_pos]
    unfold Majority at hQ
    omega
  obtain ⟨⟨c, hc⟩, -⟩ := inv.acked_leader v t (h.pos.trans_le (hack v hv))
  exact ⟨c, hc, (hack v hv).trans (inv.acked_le v t)⟩

theorem Committed.later_leader (inv : Inv termOf s) {t i : ℕ} (h : Committed termOf s t i)
    {T : ℕ} {c : S} (hlt : t < T) (hc : s.leader T = some c) :
    Keeps s (s.candLog c T) t i := by
  classical
  induction T using Nat.strong_induction_on generalizing c with
  | _ T ih =>
    obtain ⟨Q, hQ, hack⟩ := h.majority
    obtain ⟨P, hP, hback⟩ := inv.elected T c hc
    obtain ⟨v, hvQ, hvP⟩ := hQ.inter hP
    rcases (hback v hvP).2 t hlt i (hack v hvQ) h.pos h.own with hk | ⟨t', d, h₁, h₂, h₃, h₄⟩
    · exact hk
    · exact absurd (ih t' (by omega) h₁ h₃) h₄

theorem Committed.leaderLog (inv : Inv termOf s) {t i : ℕ} (h : Committed termOf s t i)
    {T : ℕ} {c : S} (hle : t ≤ T) (hc : s.leader T = some c) :
    Keeps s (s.leaderLog T) t i := by
  rcases hle.eq_or_lt with rfl | hlt
  · obtain ⟨-, -, hi⟩ := h.le_length inv
    exact ⟨hi, rfl⟩
  · obtain ⟨hlen, htake⟩ := h.later_leader inv hlt hc
    obtain ⟨r, hr⟩ := inv.leader_stood T c hc
    unfold Keeps
    rw [← hr, List.take_append_of_le_length hlen, List.length_append]
    exact ⟨by omega, htake⟩

theorem Committed.kept (inv : Inv termOf s) {t i : ℕ} (h : Committed termOf s t i) :
    ∃ Q : Finset S, Majority Q ∧ ∀ v ∈ Q, Keeps s (s.log v) t i := by
  obtain ⟨Q, hQ, hack⟩ := h.majority
  refine ⟨Q, hQ, fun v hv => ?_⟩
  rcases inv.holds v t i (hack v hv) with hkeeps | ⟨T, c, hlt, -, hc, hlost⟩
  · exact hkeeps
  · exact absurd (h.later_leader inv hlt hc) hlost

namespace Chosen

theorem zero (T : ℕ) (l : List E) : Chosen termOf s T 0 l := ⟨Nat.zero_le _, Or.inl rfl⟩

theorem of_le {T k j : ℕ} {l : List E} (h : Chosen termOf s T k l) (hj : j ≤ k) :
    Chosen termOf s T j l := by
  refine ⟨hj.trans h.reaches, ?_⟩
  rcases h.committed with rfl | ⟨t, i, ht, hi, hc, htake⟩
  · exact Or.inl (by omega)
  · exact Or.inr ⟨t, i, ht, hj.trans hi, hc, take_le_congr htake hj⟩

theorem of_term_le {T U k : ℕ} {l : List E} (h : Chosen termOf s T k l) (hU : T ≤ U) :
    Chosen termOf s U k l := by
  refine ⟨h.reaches, h.committed.imp_right ?_⟩
  rintro ⟨t, i, ht, hrest⟩
  exact ⟨t, i, ht.trans hU, hrest⟩

theorem congr {T k : ℕ} {l l' : List E} (h : Chosen termOf s T k l) (he : l'.take k = l.take k) :
    Chosen termOf s T k l' := by
  refine ⟨?_, ?_⟩
  · have := congrArg List.length he
    have := h.reaches
    simp only [List.length_take] at *
    omega
  · rw [he]
    exact h.committed

/-- A leader of the same or a later term has the chosen prefix. -/
theorem leaderLog (inv : Inv termOf s) {T U k : ℕ} {c : S} {l : List E}
    (h : Chosen termOf s T k l) (hU : T ≤ U) (hc : s.leader U = some c) :
    k ≤ (s.leaderLog U).length ∧ l.take k = (s.leaderLog U).take k := by
  rcases h.committed with rfl | ⟨t, i, ht, hi, hcom, htake⟩
  · simp
  · obtain ⟨hlen, hL⟩ := hcom.leaderLog inv (ht.trans hU) hc
    exact ⟨hi.trans hlen, htake.trans (take_le_congr hL hi).symm⟩

/-- Two chosen prefixes agree as far as both reach. -/
theorem agree (inv : Inv termOf s) {T U k j n : ℕ} {l m : List E}
    (hl : Chosen termOf s T k l) (hm : Chosen termOf s U j m) (hk : n ≤ k) (hj : n ≤ j) :
    l.take n = m.take n := by
  rcases (hl.of_le hk).committed with rfl | ⟨t, i, -, hi, hc, htake⟩
  · simp
  rcases (hm.of_le hj).committed with rfl | ⟨u, i', -, hi', hc', htake'⟩
  · simp
  rw [htake, htake']
  rcases le_total t u with h | h
  · obtain ⟨c, hlead, -⟩ := hc'.le_length inv
    exact (take_le_congr (hc.leaderLog inv h hlead).2 hi).symm
  · obtain ⟨c, hlead, -⟩ := hc.le_length inv
    exact take_le_congr (hc'.leaderLog inv h hlead).2 hi'

theorem getElem?_agree (inv : Inv termOf s) {T U k j i : ℕ} {l m : List E}
    (hl : Chosen termOf s T k l) (hm : Chosen termOf s U j m) (hk : i < k) (hj : i < j) :
    l[i]? = m[i]? := by
  have htake := congrArg (·[i]?) (hl.agree inv hm hk hj)
  simpa [List.getElem?_take] using htake

/-- A chosen entry is at its place in the log of the leader that made it. -/
theorem getElem?_own (inv : Inv termOf s) {T k i : ℕ} {l : List E} {e : E} (h : Chosen termOf s T k l)
    (hi : i < k) (he : l[i]? = some e) : (s.leaderLog (termOf e))[i]? = some e := by
  rcases (h.of_le hi).committed with hzero | ⟨t, j, -, -, hc, htake⟩
  · cases hzero
  · obtain ⟨c, hlead, -⟩ := hc.le_length inv
    have hsame := congrArg (·[i]?) htake
    simp only [List.getElem?_take, Nat.lt_succ_self, if_true, he] at hsame
    obtain ⟨-, -, -, hsource⟩ := inv.leader_sourced t c hlead i e hsame.symm
    have hown := congrArg (·[i]?) hsource
    simp only [List.getElem?_take, Nat.lt_succ_self, if_true] at hown
    exact hown.symm.trans hsame.symm

/-- A server that takes over a leader's prefix keeps its chosen entries. -/
theorem retained (inv : Inv termOf s) {T U k : ℕ} {c : S} {l r : List E}
    (h : Chosen termOf s T k l) (hU : T ≤ U) (hc : s.leader U = some c)
    (kept : Retains (s.leaderLog U) l r) : Chosen termOf s T k r := by
  obtain ⟨hlen, htake⟩ := h.leaderLog inv hU hc
  exact h.congr (kept k h.reaches hlen htake)

end Chosen

/-- What was committed stays committed. -/
theorem Committed.mono (inv : Inv termOf s) (hext : Extends s s') {t i : ℕ}
    (h : Committed termOf s t i) : Committed termOf s' t i := by
  obtain ⟨c, hc, hlen⟩ := h.le_length inv
  obtain ⟨Q, hQ, hack⟩ := h.majority
  refine ⟨h.pos, ?_, Q, hQ, fun v hv => (hack v hv).trans (hext.acked v t)⟩
  rw [termAt_congr termOf (hext.take_leaderLog hc hlen)]
  exact h.own

theorem Chosen.mono (inv : Inv termOf s) (hext : Extends s s') {T k : ℕ} {l : List E}
    (h : Chosen termOf s T k l) : Chosen termOf s' T k l := by
  refine ⟨h.reaches, h.committed.imp_right ?_⟩
  rintro ⟨t, i, ht, hi, hc, htake⟩
  obtain ⟨c, hlead, hlen⟩ := hc.le_length inv
  exact ⟨t, i, ht, hi, hc.mono inv hext,
    htake.trans (hext.take_leaderLog hlead (hi.trans hlen)).symm⟩

omit [Fintype S] in
theorem Sourced.matching {T U : ℕ} {l m : List E} (hl : Sourced termOf s T l)
    (hm : Sourced termOf s U m) : Matching termOf l m := by
  intro i x y hx hy hxy
  obtain ⟨-, -, -, hlt⟩ := hl i x hx
  obtain ⟨-, -, -, hmt⟩ := hm i y hy
  rw [hlt, hmt, hxy]

end DistributedLabs.TermLeader
