import Mathlib.Data.List.Basic
import Mathlib.Data.List.TakeDrop

/-!
# Logs whose entries carry a term

Positions are counted from one, position zero standing for the empty prefix. A
merge walks along the overlap of a log with incoming entries and cuts the log at
the first differing term. When the incoming entries are a segment of another log
that agrees with the first wherever their terms agree, the merge keeps every
prefix the two logs have in common.
-/

namespace DistributedLabs.TermLogs

variable {E : Type*} (termOf : E → ℕ)

/-- The term at a position, zero where the log has no entry. -/
def termAt (l : List E) : ℕ → ℕ
  | 0 => 0
  | i + 1 => (l[i]?.map termOf).getD 0

/-- The term of the last entry, zero for the empty log. -/
def lastTerm (l : List E) : ℕ := termAt termOf l l.length

/-- The first log is at least as up to date as the second. -/
def UpToDate (l own : List E) : Prop :=
  lastTerm termOf own < lastTerm termOf l ∨
    lastTerm termOf own = lastTerm termOf l ∧ own.length ≤ l.length

/-- Everything `l` has in common with `L` is still in `r`. -/
def Retains (L l r : List E) : Prop :=
  ∀ j ≤ l.length, j ≤ L.length → l.take j = L.take j → r.take j = l.take j

/-- Equal terms at a position mean equal prefixes up to it. -/
def Matching (l L : List E) : Prop :=
  ∀ i x y, l[i]? = some x → L[i]? = some y → termOf x = termOf y →
    l.take (i + 1) = L.take (i + 1)

/-- Merge entries into `l` behind its first `k`, cutting at the first conflict. -/
def mergeAt (l : List E) : ℕ → List E → List E
  | _, [] => l
  | k, e :: es => match l[k]? with
    | none => l ++ e :: es
    | some x => if termOf x = termOf e then mergeAt l (k + 1) es else l.take k ++ e :: es

@[simp] theorem termAt_zero (l : List E) : termAt termOf l 0 = 0 := rfl

theorem termAt_of_getElem? {l : List E} {i : ℕ} {e : E} (h : l[i]? = some e) :
    termAt termOf l (i + 1) = termOf e := by simp [termAt, h]

theorem termAt_congr {l L : List E} {i : ℕ} (h : l.take i = L.take i) :
    termAt termOf l i = termAt termOf L i := by
  cases i with
  | zero => rfl
  | succ i =>
    have hi := congrArg (·[i]?) h
    simp only [List.getElem?_take, Nat.lt_succ_self, if_true] at hi
    simp [termAt, hi]

@[simp] theorem termAt_take (l : List E) (i : ℕ) : termAt termOf (l.take i) i = termAt termOf l i :=
  termAt_congr termOf (by rw [List.take_take, Nat.min_self])

theorem termAt_append_left {l r : List E} {i : ℕ} (h : i ≤ l.length) :
    termAt termOf (l ++ r) i = termAt termOf l i :=
  termAt_congr termOf (by rw [List.take_append_of_le_length h])

theorem take_le_congr {l L : List E} {i j : ℕ} (h : l.take j = L.take j) (hij : i ≤ j) :
    l.take i = L.take i := by
  have hi := congrArg (List.take i) h
  simpa [List.take_take, Nat.min_eq_left hij] using hi

theorem Retains.refl (L l : List E) : Retains L l l := fun _ _ _ _ => rfl

theorem Retains.of_take {L l : List E} {m : ℕ}
    (h : ∀ j ≤ l.length, j ≤ L.length → l.take j = L.take j → j ≤ m) :
    Retains L l (L.take m) := by
  intro j hl hL heq
  rw [List.take_take, Nat.min_eq_left (h j hl hL heq), heq]

/-- A prefix matches the log it is taken from. -/
theorem matching_take (L : List E) (m : ℕ) : Matching termOf (L.take m) L := by
  intro i x y hx _ _
  have hlt := (List.getElem?_eq_some_iff.mp hx).1
  rw [List.length_take] at hlt
  rw [List.take_take, Nat.min_eq_left (by omega)]

variable {termOf}

theorem Matching.take_eq_of_termAt {l L : List E} (hm : Matching termOf l L) {i : ℕ}
    (hl : i ≤ l.length) (hL : i ≤ L.length) (ht : termAt termOf l i = termAt termOf L i) :
    l.take i = L.take i := by
  cases i with
  | zero => simp
  | succ i =>
    have hx := List.getElem?_eq_getElem hl
    have hy := List.getElem?_eq_getElem hL
    rw [termAt_of_getElem? _ hx, termAt_of_getElem? _ hy] at ht
    exact hm i _ _ hx hy ht

theorem take_succ_of_getElem? {l L : List E} {k : ℕ} {x y : E} (hl : l[k]? = some x)
    (hL : L[k]? = some y) (h : l.take (k + 1) = L.take (k + 1)) : x = y := by
  have hk := congrArg (·[k]?) h
  simpa [List.getElem?_take, hl, hL] using hk

/-- Merging a segment of `L` behind a common prefix. -/
theorem mergeAt_spec {L l : List E} (hm : Matching termOf l L) {k m : ℕ} {es : List E}
    (hk : k ≤ l.length) (hes : es = (L.drop k).take m) (hL : k + m ≤ L.length)
    (hpre : l.take k = L.take k) :
    (mergeAt termOf l k es).take (k + m) = L.take (k + m) ∧
      (mergeAt termOf l k es = l ∨ mergeAt termOf l k es = L.take (k + m)) ∧
      Retains L l (mergeAt termOf l k es) := by
  induction es generalizing k m with
  | nil =>
    have hm0 : m = 0 := by
      have := congrArg List.length hes
      simp only [List.length_nil, List.length_take, List.length_drop] at this
      omega
    subst hm0
    exact ⟨by simpa [mergeAt] using hpre, Or.inl rfl, Retains.refl L l⟩
  | cons e es ih =>
    obtain ⟨m, rfl⟩ : ∃ m', m = m' + 1 := by
      cases m with
      | zero => simp at hes
      | succ m => exact ⟨m, rfl⟩
    have hget : L[k]? = some e := by
      have := congrArg (·[0]?) hes
      simpa [List.getElem?_take, List.getElem?_drop] using this.symm
    have hrest : es = (L.drop (k + 1)).take m := by
      obtain ⟨hlt, rfl⟩ := List.getElem?_eq_some_iff.mp hget
      rw [List.drop_eq_getElem_cons hlt, List.take_succ_cons] at hes
      exact (List.cons.inj hes).2
    have hall : l.take k ++ e :: es = L.take (k + (m + 1)) := by
      rw [hes, hpre, ← List.take_add]
    cases hx : l[k]? with
    | none =>
      have hend : l.length = k := by
        have := List.getElem?_eq_none_iff.mp hx
        omega
      have hmerge : mergeAt termOf l k (e :: es) = L.take (k + (m + 1)) := by
        rw [← hall, List.take_of_length_le (by omega)]
        simp [mergeAt, hx]
      rw [hmerge]
      refine ⟨by simp [List.take_take], Or.inr rfl, Retains.of_take ?_⟩
      intro j hj _ _
      omega
    | some x =>
      by_cases ht : termOf x = termOf e
      · have hnext := hm k x e hx hget ht
        have hk' : k + 1 ≤ l.length := (List.getElem?_eq_some_iff.mp hx).1
        have h := ih hk' hrest (by omega) hnext
        have hmerge : mergeAt termOf l k (e :: es) = mergeAt termOf l (k + 1) es := by
          simp [mergeAt, hx, ht]
        rw [hmerge, show k + (m + 1) = k + 1 + m by omega]
        exact h
      · -- a conflict: nothing from this position on is common
        have hmerge : mergeAt termOf l k (e :: es) = L.take (k + (m + 1)) := by
          rw [← hall]
          simp [mergeAt, hx, ht]
        rw [hmerge]
        refine ⟨by simp [List.take_take], Or.inr rfl, Retains.of_take ?_⟩
        intro j _ _ heq
        by_contra hlt
        have hxe := take_succ_of_getElem? hx hget (take_le_congr heq (by omega))
        exact ht (by rw [hxe])

/-- A merge behind a prefix leaves the prefix alone. -/
theorem mergeAt_append (past l : List E) (k : ℕ) (es : List E) :
    mergeAt termOf (past ++ l) (past.length + k) es = past ++ mergeAt termOf l k es := by
  induction es generalizing k with
  | nil => rfl
  | cons e es ih =>
    have hget : (past ++ l)[past.length + k]? = l[k]? := by
      rw [List.getElem?_append_right (by omega)]
      congr 1
      omega
    cases hx : l[k]? with
    | none => simp [mergeAt, hget, hx]
    | some x =>
      by_cases ht : termOf x = termOf e
      · have h := ih (k + 1)
        simp only [mergeAt, hget, hx, ht, if_true]
        exact h
      · simp [mergeAt, hget, hx, ht, List.take_append]

section Shape
variable {l es : List E} {k : ℕ}

theorem mem_mergeAt {x : E} (h : x ∈ mergeAt termOf l k es) : x ∈ l ∨ x ∈ es := by
  induction es generalizing k with
  | nil => exact Or.inl h
  | cons e es ih =>
    simp only [mergeAt] at h
    split at h
    · exact List.mem_append.mp h
    · split_ifs at h
      · exact (ih h).imp_right (List.mem_cons_of_mem e)
      · exact (List.mem_append.mp h).imp_left List.mem_of_mem_take

variable (termOf es) in
/-- Nothing before the place of the merge changes. -/
theorem take_mergeAt (hk : k ≤ l.length) : (mergeAt termOf l k es).take k = l.take k := by
  induction es generalizing k with
  | nil => rfl
  | cons e es ih =>
    cases hx : l[k]? with
    | none =>
      simp only [mergeAt, hx]
      rw [List.take_append_of_le_length hk]
    | some x =>
      have hlt : k < l.length := (List.getElem?_eq_some_iff.mp hx).1
      simp only [mergeAt, hx]
      split_ifs
      · exact take_le_congr (ih hlt) (Nat.le_succ k)
      · rw [List.take_append_of_le_length (by rw [List.length_take]; omega), List.take_take,
          Nat.min_self]

theorem mergeAt_of_agree (hk : k ≤ l.length)
    (h : ∀ j x e, l[k + j]? = some x → es[j]? = some e → termOf x = termOf e) :
    mergeAt termOf l k es = l ++ es.drop (l.length - k) := by
  induction es generalizing k with
  | nil => simp [mergeAt]
  | cons e es ih =>
    cases hx : l[k]? with
    | none =>
      have hend := List.getElem?_eq_none_iff.mp hx
      have hzero : l.length - k = 0 := by omega
      simp only [mergeAt, hx, hzero, List.drop_zero]
    | some x =>
      have hlt : k < l.length := (List.getElem?_eq_some_iff.mp hx).1
      have hterm : termOf x = termOf e := h 0 x e hx rfl
      have hrest := ih hlt fun j y e' hy he' => h (j + 1) y e' (by rw [← hy]; congr 1; omega) he'
      have hdrop : (e :: es).drop (l.length - k) = es.drop (l.length - (k + 1)) := by
        rw [show l.length - k = l.length - (k + 1) + 1 by omega, List.drop_succ_cons]
      simp only [mergeAt, hx, hterm, if_true]
      rw [hrest, hdrop]

theorem mergeAt_of_conflict {j : ℕ} {x e : E} (hx : l[k + j]? = some x) (he : es[j]? = some e)
    (hne : termOf x ≠ termOf e)
    (h : ∀ i < j, ∀ y d, l[k + i]? = some y → es[i]? = some d → termOf y = termOf d) :
    mergeAt termOf l k es = l.take (k + j) ++ es.drop j := by
  induction j generalizing k es with
  | zero =>
    cases es with
    | nil => cases he
    | cons d es =>
      cases he
      simp only [mergeAt, Nat.add_zero] at hx ⊢
      simp only [hx, hne, if_false, List.drop_zero]
  | succ j ih =>
    cases es with
    | nil => cases he
    | cons d es =>
      have hlt : k < l.length := by
        have hj := (List.getElem?_eq_some_iff.mp hx).1
        omega
      have hget := List.getElem?_eq_getElem hlt
      have hterm : termOf l[k] = termOf d := h 0 (Nat.succ_pos j) _ d hget rfl
      have hrest : mergeAt termOf l (k + 1) es = l.take (k + 1 + j) ++ es.drop j :=
        ih (by rw [← hx]; congr 1; omega) he fun i hi y d' hy hd' =>
          h (i + 1) (Nat.succ_lt_succ hi) y d' (by rw [← hy]; congr 1; omega) hd'
      simp only [mergeAt, hget, hterm, if_true]
      rw [hrest, List.drop_succ_cons, show k + 1 + j = k + (j + 1) by omega]

variable (termOf) in
theorem mergeAt_terms (hk : k ≤ l.length) {j : ℕ} {e : E} (he : es[j]? = some e) :
    ∃ x, (mergeAt termOf l k es)[k + j]? = some x ∧ termOf x = termOf e := by
  induction es generalizing k j with
  | nil => cases he
  | cons d es ih =>
    cases hx : l[k]? with
    | none =>
      have hend := List.getElem?_eq_none_iff.mp hx
      refine ⟨e, ?_, rfl⟩
      simp only [mergeAt, hx]
      rw [List.getElem?_append_right (by omega), ← he]
      congr 1
      omega
    | some x =>
      have hlt : k < l.length := (List.getElem?_eq_some_iff.mp hx).1
      by_cases hterm : termOf x = termOf d
      · simp only [mergeAt, hx, hterm, if_true]
        cases j with
        | zero =>
          cases he
          have hkeep := congrArg (·[k]?) (take_mergeAt termOf es hlt)
          simp only [List.getElem?_take, Nat.lt_succ_self, if_true, hx] at hkeep
          exact ⟨x, hkeep, hterm⟩
        | succ j =>
          obtain ⟨y, hy, hye⟩ := ih hlt he
          exact ⟨y, by rw [← hy]; congr 1; omega, hye⟩
      · refine ⟨e, ?_, rfl⟩
        have hlen : (l.take k).length = k := by rw [List.length_take]; omega
        simp only [mergeAt, hx, hterm, if_false]
        rw [List.getElem?_append_right (by omega), ← he, hlen]
        congr 1
        omega

variable (termOf es) in
theorem length_mergeAt (hk : k ≤ l.length) : k + es.length ≤ (mergeAt termOf l k es).length := by
  rcases Nat.eq_zero_or_pos es.length with hzero | hpos
  · rw [List.length_eq_zero_iff.mp hzero]
    exact hk
  · have hlast := List.getElem?_eq_getElem (show es.length - 1 < es.length by omega)
    obtain ⟨x, hx, -⟩ := mergeAt_terms termOf hk hlast
    have hlt := (List.getElem?_eq_some_iff.mp hx).1
    omega

theorem mergeAt_mergeAt {es' : List E} (hk : k ≤ l.length) (h : es' <+: es) :
    mergeAt termOf (mergeAt termOf l k es) k es' = mergeAt termOf l k es := by
  have hlen := length_mergeAt termOf es hk
  have hle := h.length_le
  have hagree : ∀ j x e, (mergeAt termOf l k es)[k + j]? = some x → es'[j]? = some e →
      termOf x = termOf e := by
    intro j x e hx he
    have hes : es[j]? = some e := by
      obtain ⟨more, rfl⟩ := h
      rw [List.getElem?_append_left (List.getElem?_eq_some_iff.mp he).1, he]
    obtain ⟨y, hy, hye⟩ := mergeAt_terms termOf hk hes
    rw [hx] at hy
    cases hy
    exact hye
  rw [mergeAt_of_agree (by omega) hagree, List.drop_eq_nil_of_le (by omega), List.append_nil]

/-- Terms that never decrease, in the log and in the entries and from one to the other, still do
not after the merge. -/
theorem pairwise_mergeAt (hl : l.Pairwise fun x y => termOf x ≤ termOf y)
    (hes : es.Pairwise fun x y => termOf x ≤ termOf y) {x : E} (hx : l[k]? = some x)
    (hjoin : ∀ e ∈ es, termOf x ≤ termOf e) :
    (mergeAt termOf l (k + 1) es).Pairwise fun x y => termOf x ≤ termOf y := by
  induction es generalizing k x with
  | nil => exact hl
  | cons e es ih =>
    have hlt : k < l.length := (List.getElem?_eq_some_iff.mp hx).1
    have hbelow : ∀ y ∈ l.take (k + 1), termOf y ≤ termOf x := by
      intro y hy
      obtain ⟨j, hj, rfl⟩ := List.mem_take_iff_getElem.mp hy
      obtain ⟨-, rfl⟩ := List.getElem?_eq_some_iff.mp hx
      rcases Nat.lt_or_ge j k with hjk | hjk
      · exact List.pairwise_iff_getElem.mp hl j k (by omega) hlt hjk
      · obtain rfl : j = k := by omega
        exact Nat.le_refl _
    cases hnext : l[k + 1]? with
    | none =>
      have hend := List.getElem?_eq_none_iff.mp hnext
      rw [List.take_of_length_le hend] at hbelow
      simp only [mergeAt, hnext]
      exact List.pairwise_append.mpr ⟨hl, hes, fun y hy d hd => Nat.le_trans (hbelow y hy) (hjoin d hd)⟩
    | some y =>
      simp only [mergeAt, hnext]
      split_ifs with hterm
      · refine ih (List.pairwise_cons.mp hes).2 hnext fun d hd => ?_
        rw [hterm]
        exact (List.pairwise_cons.mp hes).1 d hd
      · exact List.pairwise_append.mpr
          ⟨hl.sublist (List.take_sublist _ _), hes, fun y hy d hd => Nat.le_trans (hbelow y hy) (hjoin d hd)⟩

end Shape

end DistributedLabs.TermLogs
