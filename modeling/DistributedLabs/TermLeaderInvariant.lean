import DistributedLabs.TermLeaderProtocol

/-!
# The protocol invariant is kept by every step

One lemma for each kind of step. A step adds to the record, so only what it adds
has to be justified; everything older is carried over by `Extends.inv_of_new`.
-/

namespace DistributedLabs.TermLeader
open MajorityQuorums TermLogs

variable {S E : Type*} [Fintype S] {termOf : E → ℕ} {s : State S E}

theorem inv_initial : Inv termOf (initial S E) where
  vote_term := by simp [initial]
  vote_stands := by simp [initial]
  leader_term := by simp [initial]
  leader_log := by simp [initial]
  leader_stood := by simp [initial]
  log_sourced := by simp [initial, Sourced]
  cand_sourced := by simp [initial]
  leader_sourced := by simp [initial]
  acked_le := by simp [initial]
  acked_leader := by simp [initial]
  holds v t i hi := Or.inl ⟨by simpa [initial] using hi, by simp [initial]⟩
  backed := by simp [initial]
  elected := by simp [initial]

omit [Fintype S] in
theorem Sourced.take {T : ℕ} {l : List E} (h : Sourced termOf s T l) (m : ℕ) :
    Sourced termOf s T (l.take m) := by
  intro i e he
  rw [List.getElem?_take] at he
  split_ifs at he with hi
  obtain ⟨ht, hc, hlt, htake⟩ := h i e he
  refine ⟨ht, hc, hlt, ?_⟩
  rw [List.take_take, Nat.min_eq_left hi, htake]

omit [Fintype S] in
/-- The last entry of a nonempty sourced log carries its last term. -/
theorem Sourced.last {T : ℕ} {l : List E} (h : Sourced termOf s T l) (hl : l ≠ []) :
    lastTerm termOf l ≤ T ∧ (∃ c, s.leader (lastTerm termOf l) = some c) ∧
      Keeps s l (lastTerm termOf l) l.length := by
  obtain ⟨i, hi⟩ : ∃ i, l.length = i + 1 := Nat.exists_eq_succ_of_ne_zero (by simpa using hl)
  obtain ⟨e, he⟩ : ∃ e, l[i]? = some e := ⟨l[i], List.getElem?_eq_getElem (by omega)⟩
  obtain ⟨ht, hc, -, htake⟩ := h i e he
  have hlast : lastTerm termOf l = termOf e := by
    rw [lastTerm, hi]
    exact termAt_of_getElem? termOf he
  rw [hlast, hi]
  exact ⟨ht, hc, hi.ge, htake⟩

/-- Terms never decrease along a sourced log. -/
theorem Inv.termAt_le_lastTerm (inv : Inv termOf s) {T i : ℕ} {l : List E}
    (h : Sourced termOf s T l) (hpos : 0 < i) (hi : i ≤ l.length) :
    termAt termOf l i ≤ lastTerm termOf l := by
  obtain ⟨-, ⟨c, hc⟩, -, htake⟩ := h.last (List.ne_nil_of_length_pos (by omega))
  obtain ⟨j, rfl⟩ : ∃ j, i = j + 1 := ⟨i - 1, by omega⟩
  have he := List.getElem?_eq_getElem (l := l) (show j < l.length by omega)
  rw [termAt_of_getElem? termOf he]
  have hL := congrArg (·[j]?) htake
  simp only [List.getElem?_take, if_pos (show j < l.length by omega)] at hL
  exact (inv.leader_sourced _ c hc j _ (hL ▸ he)).1

/-- A vote is given on a log that holds what the voter took over earlier, unless
some leader in between already lacked it. -/
theorem Inv.backed_of_upToDate (inv : Inv termOf s) {v c : S} {T : ℕ} (ht : s.term v ≤ T)
    (stands : s.vote c T = some c) (recent : UpToDate termOf (s.candLog c T) (s.log v)) :
    Backed termOf s v c T T := by
  intro t hlt i hi hpos hterm
  rcases inv.holds v t i hi with ⟨hlen, htake⟩ | ⟨t', d, h₁, h₂, h₃⟩
  swap
  · exact Or.inr ⟨t', d, h₁, h₂.trans ht, h₃⟩
  have hown : t ≤ lastTerm termOf (s.log v) := by
    have h := inv.termAt_le_lastTerm (inv.log_sourced v) hpos hlen
    rwa [termAt_congr termOf htake, hterm] at h
  have hne : s.candLog c T ≠ [] := by
    intro hnil
    simp only [UpToDate, hnil, lastTerm, List.length_nil, termAt_zero] at recent
    rcases recent with h | ⟨-, h⟩ <;> omega
  obtain ⟨hsourced, hterms⟩ := inv.cand_sourced c T stands
  obtain ⟨hle, ⟨d, hd⟩, -, hcand⟩ := hsourced.last hne
  generalize hL : lastTerm termOf (s.candLog c T) = u at recent hle hd hcand
  have htu : t ≤ u := by rcases recent with h | ⟨h, -⟩ <;> omega
  rcases htu.eq_or_lt with rfl | htu
  · have hcl : i ≤ (s.candLog c T).length := by rcases recent with h | ⟨-, h⟩ <;> omega
    exact Or.inl ⟨hcl, take_le_congr hcand hcl⟩
  · by_cases hkeep : Keeps s (s.candLog d u) t i
    · obtain ⟨hdlen, hdtake⟩ := hkeep
      have hprefix := inv.leader_stood u d hd
      -- the last entry was written by that leader, behind everything it stood with
      have hreach : i < (s.candLog c T).length := by
        by_contra hshort
        have hj : (s.candLog c T).length - 1 < (s.candLog c T).length := by
          have := List.length_pos_of_ne_nil hne
          omega
        have he := List.getElem?_eq_getElem hj
        have hlast := termAt_of_getElem? termOf he
        rw [show (s.candLog c T).length - 1 + 1 = (s.candLog c T).length by omega] at hlast
        have hmem : (s.candLog c T)[(s.candLog c T).length - 1] ∈ s.candLog d u := by
          have hLget := congrArg (·[(s.candLog c T).length - 1]?) hcand
          simp only [List.getElem?_take, if_pos hj, he] at hLget
          obtain ⟨r, hr⟩ := hprefix
          rw [← hr, List.getElem?_append_left (by omega)] at hLget
          exact List.mem_of_getElem? hLget.symm
        have hsmall := (inv.cand_sourced d u (inv.leader_term u d hd).2).2 _ hmem
        have : lastTerm termOf (s.candLog c T) = u := hL
        rw [lastTerm, hlast] at this
        omega
      refine Or.inl ⟨hreach.le, ?_⟩
      rw [take_le_congr hcand hreach.le, ← hdtake]
      obtain ⟨r, hr⟩ := hprefix
      rw [← hr, List.take_append_of_le_length hdlen]
    · exact Or.inr ⟨u, d, htu, hle, hd, hkeep⟩

/-- A leader that is still in its term has exactly the leader log. -/
theorem Inv.leader_log_of_le (inv : Inv termOf s) {T U : ℕ} {c : S} (hc : s.leader T = some c)
    (grows : s.term c ≤ U) (hU : U = T) : s.log c = s.leaderLog T :=
  inv.leader_log T c hc (le_antisymm (grows.trans hU.le) (inv.leader_term T c hc).1)

variable [DecidableEq S]

omit [Fintype S] in
private theorem le_update {f : S → ℕ} {v : S} {T : ℕ} (h : f v ≤ T) (w : S) :
    f w ≤ Function.update f v T w := by
  by_cases hw : w = v
  · subst hw
    simpa using h
  · simp [hw]

omit [Fintype S] in
theorem extends_bump (v : S) (T : ℕ) (ht : s.term v ≤ T) : Extends s (s.bump v T) :=
  ⟨le_update ht, fun _ _ _ h => h, fun _ _ _ => rfl, fun _ _ h => h, fun _ _ _ => List.prefix_rfl,
    fun _ _ => le_rfl, fun _ _ _ => rfl⟩

theorem inv_bump (inv : Inv termOf s) (v : S) (T : ℕ) (ht : s.term v ≤ T) :
    Inv termOf (s.bump v T) := by
  exact (extends_bump v T ht).inv_of_new inv (fun _ _ _ h => Or.inl h) (fun _ _ h => Or.inl h)
    (fun _ _ h => Or.inl h) (fun U d hd => inv.leader_log_of_le hd (le_update ht d))
    (fun _ => Or.inl rfl) (fun _ _ h => Or.inl ⟨h, rfl⟩) (fun _ _ => Or.inl rfl)
    (fun _ _ => Or.inl ⟨rfl, rfl⟩)

theorem extends_stand (inv : Inv termOf s) (c : S) (T : ℕ) (ht : s.term c < T) :
    Extends s (s.stand c T) := by
  have fresh : ∀ w U x, s.vote w U = some x → ¬(w = c ∧ U = T) := by
    rintro w U x h ⟨rfl, rfl⟩
    have := inv.vote_term w U x h
    omega
  refine ⟨le_update ht.le, ?_, ?_, fun _ _ h => h, fun _ _ _ => List.prefix_rfl,
    fun _ _ => le_rfl, fun _ _ _ => rfl⟩
  · intro w U x h
    rwa [State.stand_vote, set₂_of_ne _ _ (fresh w U x h)]
  · intro w U h
    rw [State.stand_candLog, set₂_of_ne _ _ (fresh w U w h)]

theorem inv_stand (inv : Inv termOf s) (c : S) (T : ℕ) (ht : s.term c < T) :
    Inv termOf (s.stand c T) := by
  have hext := extends_stand inv c T ht
  refine hext.inv_of_new inv ?_ ?_ (fun _ _ h => Or.inl h)
    (fun U d hd => inv.leader_log_of_le hd (le_update ht.le d)) (fun _ => Or.inl rfl)
    (fun _ _ h => Or.inl ⟨h, rfl⟩) (fun _ _ => Or.inl rfl) (fun _ _ => Or.inl ⟨rfl, rfl⟩)
  · intro v U x h
    by_cases hv : v = c ∧ U = T
    · obtain ⟨rfl, rfl⟩ := hv
      obtain rfl : v = x := by simpa using h
      refine Or.inr ⟨by simp, by simp, ?_⟩
      intro t hlt i hi _ _
      rw [State.stand_candLog, set₂_self]
      rcases inv.holds v t i hi with hk | hd
      · exact Or.inl hk
      · exact Or.inr (diverged_mono hext inv hi ht.le hd)
    · rw [State.stand_vote, set₂_of_ne _ _ hv] at h
      exact Or.inl h
  · intro d U h
    by_cases hd : d = c ∧ U = T
    · obtain ⟨rfl, rfl⟩ := hd
      apply Or.inr
      rw [State.stand_candLog, set₂_self]
      refine ⟨hext.sourced_mono ht.le (inv.log_sourced d), fun e he => ?_⟩
      obtain ⟨i, hi⟩ := List.mem_iff_getElem?.mp he
      exact (inv.log_sourced d i e hi).1.trans_lt ht
    · rw [State.stand_vote, set₂_of_ne _ _ hd] at h
      exact Or.inl h

omit [Fintype S] in
theorem extends_grant (v c : S) (T : ℕ) (ht : s.term v ≤ T)
    (free : s.vote v T = none ∨ s.vote v T = some c) : Extends s (s.grant v c T) := by
  refine ⟨le_update ht, ?_, fun _ _ _ => rfl, fun _ _ h => h, fun _ _ _ => List.prefix_rfl,
    fun _ _ => le_rfl, fun _ _ _ => rfl⟩
  intro w U x h
  rw [State.grant_vote]
  by_cases hw : w = v ∧ U = T
  · obtain ⟨rfl, rfl⟩ := hw
    rcases free with hf | hf
    · simp [hf] at h
    · rw [set₂_self, ← hf, h]
  · rwa [set₂_of_ne _ _ hw]

theorem inv_grant (inv : Inv termOf s) (v c : S) (T : ℕ) (ht : s.term v ≤ T)
    (free : s.vote v T = none ∨ s.vote v T = some c) (stands : s.vote c T = some c)
    (recent : UpToDate termOf (s.candLog c T) (s.log v)) :
    Inv termOf (s.grant v c T) := by
  have hext := extends_grant v c T ht free
  refine hext.inv_of_new inv ?_ ?_ (fun _ _ h => Or.inl h)
    (fun U d hd => inv.leader_log_of_le hd (le_update ht d)) (fun _ => Or.inl rfl)
    (fun _ _ h => Or.inl ⟨h, rfl⟩) (fun _ _ => Or.inl rfl) (fun _ _ => Or.inl ⟨rfl, rfl⟩)
  · intro w U x h
    by_cases hw : w = v ∧ U = T
    · obtain ⟨rfl, rfl⟩ := hw
      obtain rfl : c = x := by simpa using h
      exact Or.inr ⟨by simp, hext.vote _ _ _ stands, inv.backed_of_upToDate ht stands recent⟩
    · rw [State.grant_vote, set₂_of_ne _ _ hw] at h
      exact Or.inl h
  · intro d U h
    by_cases hd : d = v ∧ U = T
    · obtain ⟨rfl, rfl⟩ := hd
      obtain rfl : c = d := by simpa using h
      exact Or.inl stands
    · rw [State.grant_vote, set₂_of_ne _ _ hd] at h
      exact Or.inl h

theorem extends_elect (inv : Inv termOf s) (c : S) (T : ℕ) (ht : s.term c = T)
    (vacant : s.leader T = none) : Extends s (s.elect c T) := by
  have other : ∀ U d, s.leader U = some d → U ≠ T := by
    rintro U d h rfl
    simp [vacant] at h
  refine ⟨fun _ => le_rfl, fun _ _ _ h => h, fun _ _ _ => rfl, ?_, ?_, ?_, ?_⟩
  · intro U d h
    simpa [other U d h] using h
  · intro U d h
    simp [other U d h]
  · intro v t
    by_cases hv : v = c ∧ t = T
    · obtain ⟨rfl, rfl⟩ := hv
      rcases Nat.eq_zero_or_pos (s.acked v t) with h | h
      · omega
      · obtain ⟨⟨d, hd⟩, -⟩ := inv.acked_leader v t h
        exact absurd rfl (other t d hd)
    · rw [State.elect_acked, set₂_of_ne _ _ hv]
  · intro v t hlt
    rw [State.elect_acked, set₂_of_ne]
    rintro ⟨rfl, rfl⟩
    omega

theorem inv_elect (inv : Inv termOf s) (c : S) (T : ℕ) (Q : Finset S) (hQ : Majority Q)
    (voted : ∀ v ∈ Q, s.vote v T = some c) (stands : s.vote c T = some c)
    (ht : s.term c = T) (hl : s.log c = s.candLog c T) (vacant : s.leader T = none) :
    Inv termOf (s.elect c T) := by
  have hext := extends_elect inv c T ht vacant
  refine hext.inv_of_new inv (fun _ _ _ h => Or.inl h) (fun _ _ h => Or.inl h) ?_ ?_
    (fun _ => Or.inl rfl) ?_ ?_ ?_
  · intro U d h
    by_cases hU : U = T
    · subst hU
      obtain rfl : c = d := by simpa using h
      refine Or.inr ⟨ht.ge, stands, by simp [hl], Q, hQ, fun v hv => ?_⟩
      refine ⟨inv.vote_term v U c (voted v hv), ?_⟩
      intro t hlt i hi hpos hterm
      have hne : t ≠ U := by omega
      rw [State.elect_acked, set₂_of_ne _ _ (fun h => hne h.2)] at hi
      rw [State.elect_leaderLog, Function.update_of_ne hne] at hterm
      rcases inv.backed v U c (voted v hv) t hlt i hi hpos hterm with hk | hd
      · exact Or.inl ((keeps_acked hext inv hi).mpr hk)
      · obtain ⟨t', d, h₁, h₂, h₃, h₄⟩ := hd
        have hne' : t' ≠ U := by
          rintro rfl
          simp [vacant] at h₃
        exact Or.inr (diverged_mono hext inv hi le_rfl ⟨t', d, h₁, by omega, h₃, h₄⟩)
    · rw [State.elect_leader, Function.update_of_ne hU] at h
      exact Or.inl h
  · intro U d h hU
    by_cases hUT : U = T
    · subst hUT
      obtain rfl : c = d := by simpa using h
      simp
    · rw [State.elect_leader, Function.update_of_ne hUT] at h
      rw [State.elect_leaderLog, Function.update_of_ne hUT]
      exact inv.leader_log U d h hU
  · intro U d h
    by_cases hUT : U = T
    · subst hUT
      apply Or.inr
      rw [State.elect_leaderLog, Function.update_self]
      exact hext.sourced_mono ht.le (inv.log_sourced c)
    · rw [State.elect_leader, Function.update_of_ne hUT] at h
      exact Or.inl ⟨h, by rw [State.elect_leaderLog, Function.update_of_ne hUT]⟩
  · intro v t
    by_cases hv : v = c ∧ t = T
    · obtain ⟨rfl, rfl⟩ := hv
      exact Or.inr ⟨by simp, ⟨v, by simp⟩, ht.ge⟩
    · exact Or.inl (set₂_of_ne _ _ hv)
  · intro v t
    by_cases hv : v = c ∧ t = T
    · obtain ⟨rfl, rfl⟩ := hv
      exact Or.inr fun i hi => Or.inl ⟨by simpa using hi, by simp⟩
    · exact Or.inl ⟨rfl, set₂_of_ne _ _ hv⟩

theorem extends_append (inv : Inv termOf s) (c : S) (T : ℕ) (e : E)
    (leads : s.leader T = some c) (ht : s.term c = T) : Extends s (s.append c T e) := by
  have hown := inv.leader_log T c leads ht
  refine ⟨fun _ => le_rfl, fun _ _ _ h => h, fun _ _ _ => rfl, fun _ _ h => h, ?_, ?_, ?_⟩
  · intro U d _
    by_cases hU : U = T
    · subst hU
      simp [hown]
    · simp [hU]
  · intro v t
    by_cases hv : v = c ∧ t = T
    · obtain ⟨rfl, rfl⟩ := hv
      have := inv.acked_le v t
      rw [State.append_acked, set₂_self, List.length_append, hown]
      omega
    · rw [State.append_acked, set₂_of_ne _ _ hv]
  · intro v t hlt
    rw [State.append_acked, set₂_of_ne]
    rintro ⟨rfl, rfl⟩
    omega

theorem inv_append (inv : Inv termOf s) (c : S) (T : ℕ) (e : E) (leads : s.leader T = some c)
    (ht : s.term c = T) (he : termOf e = T) : Inv termOf (s.append c T e) := by
  have hext := extends_append inv c T e leads ht
  have sourced : Sourced termOf (s.append c T e) T (s.log c ++ [e]) := by
    intro i x hx
    rcases lt_or_ge i (s.log c).length with hi | hi
    · rw [List.getElem?_append_left hi] at hx
      obtain ⟨h₁, h₂, h₃, h₄⟩ := hext.sourced_mono ht.le (inv.log_sourced c) i x hx
      refine ⟨h₁, h₂, h₃, ?_⟩
      rw [List.take_append_of_le_length hi, h₄]
    · rw [List.getElem?_append_right hi] at hx
      obtain ⟨hi', rfl⟩ := List.getElem?_eq_some_iff.mp hx
      simp only [List.length_singleton] at hi'
      simp only [List.getElem_singleton, he]
      refine ⟨le_rfl, ⟨c, leads⟩, ?_, by simp⟩
      simp only [State.append_leaderLog, Function.update_self, List.length_append,
        List.length_singleton]
      omega
  refine hext.inv_of_new inv (fun _ _ _ h => Or.inl h) (fun _ _ h => Or.inl h)
    (fun _ _ h => Or.inl h) ?_ ?_ ?_ ?_ ?_
  · intro U d h hU
    by_cases hUT : U = T
    · subst hUT
      obtain rfl : c = d := by simpa [leads] using h
      simp
    · have hdc : d ≠ c := by
        rintro rfl
        exact hUT (hU.symm.trans ht)
      rw [State.append_log, State.append_leaderLog, Function.update_of_ne hUT,
        Function.update_of_ne hdc]
      exact inv.leader_log U d h hU
  · intro v
    by_cases hv : v = c
    · subst hv
      apply Or.inr
      rw [State.append_log, Function.update_self, State.append_term, ht]
      exact sourced
    · exact Or.inl (Function.update_of_ne hv _ _)
  · intro U d h
    by_cases hUT : U = T
    · subst hUT
      apply Or.inr
      rw [State.append_leaderLog, Function.update_self]
      exact sourced
    · exact Or.inl ⟨h, Function.update_of_ne hUT _ _⟩
  · intro v t
    by_cases hv : v = c ∧ t = T
    · obtain ⟨rfl, rfl⟩ := hv
      exact Or.inr ⟨by simp, ⟨v, leads⟩, ht.ge⟩
    · exact Or.inl (set₂_of_ne _ _ hv)
  · intro v t
    by_cases hv : v = c
    · subst hv
      refine Or.inr fun i hi => ?_
      rw [State.append_log, Function.update_self]
      by_cases htT : t = T
      · subst htT
        exact Or.inl ⟨by simpa using hi, by simp⟩
      · rw [State.append_acked, set₂_of_ne _ _ (fun h => htT h.2)] at hi
        rcases inv.holds v t i hi with ⟨hlen, htake⟩ | hd
        · refine Or.inl ((keeps_acked hext inv hi).mpr ⟨?_, ?_⟩)
          · rw [List.length_append]
            omega
          · rw [List.take_append_of_le_length hlen, htake]
        · exact Or.inr (diverged_mono hext inv hi le_rfl hd)
    · exact Or.inl ⟨Function.update_of_ne hv _ _, set₂_of_ne _ _ (fun h => hv h.1)⟩

omit [Fintype S] in
theorem extends_adopt (v : S) (T : ℕ) (l : List E) (k : ℕ) (ht : s.term v ≤ T) :
    Extends s (s.adopt v T l k) := by
  refine ⟨le_update ht, fun _ _ _ h => h, fun _ _ _ => rfl, fun _ _ h => h,
    fun _ _ _ => List.prefix_rfl, ?_, ?_⟩
  · intro w t
    by_cases hw : w = v ∧ t = T
    · obtain ⟨rfl, rfl⟩ := hw
      rw [State.adopt_acked, set₂_self]
      exact le_max_left _ _
    · rw [State.adopt_acked, set₂_of_ne _ _ hw]
  · intro w t hlt
    rw [State.adopt_acked, set₂_of_ne]
    rintro ⟨rfl, rfl⟩
    omega

theorem inv_adopt (inv : Inv termOf s) (v l₀ : S) (T : ℕ) (l : List E) (k : ℕ)
    (ht : s.term v ≤ T) (leads : s.leader T = some l₀) (other : v ≠ l₀)
    (hk : k ≤ (s.leaderLog T).length) (agrees : l.take k = (s.leaderLog T).take k)
    (origin : l = s.log v ∨ ∃ m, l = (s.leaderLog T).take m)
    (kept : Retains (s.leaderLog T) (s.log v) l) :
    Inv termOf (s.adopt v T l k) := by
  have hext := extends_adopt v T l k ht
  have reach : ∀ i, i ≤ (s.leaderLog T).length → l.take i = (s.leaderLog T).take i →
      i ≤ l.length := by
    intro i hi h
    have := congrArg List.length h
    simp only [List.length_take] at this
    omega
  -- a prefix shared with this leader stays; one it lacks makes it the diverging leader
  have keep : ∀ t, ∀ i ≤ s.acked v t, Keeps s l t i ∨ Diverged s t i T := by
    intro t i hi
    rcases inv.holds v t i hi with ⟨hlen, htake⟩ | ⟨t', d, h₁, h₂, h₃⟩
    · by_cases hL : Keeps s (s.leaderLog T) t i
      · have hsame := kept i hlen hL.1 (htake.trans hL.2.symm)
        exact Or.inl ⟨reach i hL.1 (hsame.trans (htake.trans hL.2.symm)), hsame.trans htake⟩
      · have hpos : 0 < i := by
          rcases Nat.eq_zero_or_pos i with rfl | h
          · exact absurd ⟨by omega, by simp⟩ hL
          · exact h
        obtain ⟨-, htv⟩ := inv.acked_leader v t (by omega)
        have hne : t ≠ T := by
          rintro rfl
          exact hL ⟨hi.trans (inv.acked_le v t), rfl⟩
        refine Or.inr ⟨T, l₀, by omega, le_rfl, leads, fun hc => hL ?_⟩
        obtain ⟨r, hr⟩ := inv.leader_stood T l₀ leads
        unfold Keeps
        rw [← hr, List.take_append_of_le_length hc.1, List.length_append]
        exact ⟨hc.1.trans (by omega), hc.2⟩
    · exact Or.inr ⟨t', d, h₁, h₂.trans ht, h₃⟩
  refine hext.inv_of_new inv (fun _ _ _ h => Or.inl h) (fun _ _ h => Or.inl h)
    (fun _ _ h => Or.inl h) ?_ ?_ (fun _ _ h => Or.inl ⟨h, rfl⟩) ?_ ?_
  · intro U c h hU
    have hcv : c ≠ v := by
      rintro rfl
      rw [State.adopt_term, Function.update_self] at hU
      subst hU
      rw [State.adopt_leader, leads, Option.some.injEq] at h
      exact other h.symm
    rw [State.adopt_log, Function.update_of_ne hcv]
    rw [State.adopt_term, Function.update_of_ne hcv] at hU
    exact inv.leader_log U c h hU
  · intro w
    by_cases hw : w = v
    · subst hw
      apply Or.inr
      rw [State.adopt_log, State.adopt_term, Function.update_self, Function.update_self]
      rcases origin with rfl | ⟨m, rfl⟩
      · exact hext.sourced_mono ht (inv.log_sourced w)
      · exact hext.sourced_mono le_rfl ((inv.leader_sourced T l₀ leads).take m)
    · exact Or.inl (Function.update_of_ne hw _ _)
  · intro w t
    by_cases hw : w = v ∧ t = T
    · obtain ⟨rfl, rfl⟩ := hw
      refine Or.inr ⟨?_, ⟨l₀, leads⟩, by simp⟩
      rw [State.adopt_acked, set₂_self]
      exact max_le (inv.acked_le w t) hk
    · exact Or.inl (set₂_of_ne _ _ hw)
  · intro w t
    by_cases hw : w = v
    swap
    · exact Or.inl ⟨Function.update_of_ne hw _ _, set₂_of_ne _ _ (fun h => hw h.1)⟩
    subst hw
    refine Or.inr fun i hi => ?_
    rw [State.adopt_log, State.adopt_term, Function.update_self, Function.update_self]
    by_cases htT : t = T
    · subst htT
      rw [State.adopt_acked, set₂_self] at hi
      rcases le_or_gt i k with hik | hik
      · have h := take_le_congr agrees hik
        exact Or.inl ⟨reach i (hik.trans hk) h, h⟩
      · exact keep t i (by rcases le_max_iff.mp hi with h | h <;> omega)
    · rw [State.adopt_acked, set₂_of_ne _ _ (fun h => htT h.2)] at hi
      exact keep t i hi

theorem Step.extends {s s' : State S E} (h : Step termOf s s') (inv : Inv termOf s) :
    Extends s s' := by
  cases h with
  | bump v T ht => exact extends_bump v T ht
  | stand c T ht => exact extends_stand inv c T ht
  | grant v c T ht free => exact extends_grant v c T ht free
  | elect c T Q hQ voted stands ht hl vacant => exact extends_elect inv c T ht vacant
  | append c T e leads ht => exact extends_append inv c T e leads ht
  | adopt v l₀ T l k ht => exact extends_adopt v T l k ht

/-- The invariant holds along every run of the protocol. -/
theorem Step.inv {s s' : State S E} (h : Step termOf s s') (inv : Inv termOf s) :
    Inv termOf s' := by
  cases h with
  | bump v T ht => exact inv_bump inv v T ht
  | stand c T ht => exact inv_stand inv c T ht
  | grant v c T ht free stands recent => exact inv_grant inv v c T ht free stands recent
  | elect c T Q hQ voted stands ht hl vacant =>
    exact inv_elect inv c T Q hQ voted stands ht hl vacant
  | append c T e leads ht he => exact inv_append inv c T e leads ht he
  | adopt v l₀ T l k ht leads other hk agrees origin kept =>
    exact inv_adopt inv v l₀ T l k ht leads other hk agrees origin kept

end DistributedLabs.TermLeader
