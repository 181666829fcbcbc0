import Mathlib.Data.List.Induction
import Mathlib.Logic.Function.Basic

/-!
# Operations on one part of a state

A state is seen as a family of parts. An operation is local to a part if it keeps the
others and if its reply and the new part depend on the old part only. Operations that
are local to different parts do not notice each other, and what a run leaves in a part
is what the operations on that part alone would have left in it.
-/

namespace DistributedLabs.LocalOperations

variable {σ ι β ρ ρ' α : Type*} {part : σ → ι → β} {i j : ι}

structure LocalAt (part : σ → ι → β) (i : ι) (op : σ → σ × ρ) : Prop where
  others : ∀ s k, k ≠ i → part (op s).1 k = part s k
  reply : ∀ s t, part s i = part t i → (op s).2 = (op t).2
  own : ∀ s t, part s i = part t i → part (op s).1 i = part (op t).1 i

namespace LocalAt
variable {f : σ → σ × ρ} {g : σ → σ × ρ'}

/-- Reading a part is local to it. -/
theorem read (value : β → ρ) : LocalAt part i fun s => (s, value (part s i)) where
  others _ _ _ := rfl
  reply _ _ h := congrArg value h
  own _ _ h := h

theorem of_choice (h : ∀ s, ∃ op : σ → σ × ρ, LocalAt part i op ∧ ∀ t, part s i = part t i → f t = op t) :
    LocalAt part i f where
  others s k hk := by
    obtain ⟨op, hop, heq⟩ := h s
    rw [heq s rfl]
    exact hop.others s k hk
  reply s t hst := by
    obtain ⟨op, hop, heq⟩ := h s
    rw [heq s rfl, heq t hst]
    exact hop.reply s t hst
  own s t hst := by
    obtain ⟨op, hop, heq⟩ := h s
    rw [heq s rfl, heq t hst]
    exact hop.own s t hst

/-- And what is made of its reply. -/
theorem map (hf : LocalAt part i f) (r : ρ → ρ') : LocalAt part i fun s => (f s).map id r where
  others := hf.others
  reply s t hst := congrArg r (hf.reply s t hst)
  own := hf.own

theorem reply_after (hf : LocalAt part i f) (hg : LocalAt part j g) (hne : i ≠ j) (s : σ) :
    (f (g s).1).2 = (f s).2 :=
  hf.reply _ _ (hg.others s i hne)

theorem comm (hf : LocalAt part i f) (hg : LocalAt part j g) (hne : i ≠ j)
    (hpart : Function.Injective part) (s : σ) : (f (g s).1).1 = (g (f s).1).1 := by
  apply hpart
  funext k
  by_cases hi : k = i
  · subst hi
    calc part (f (g s).1).1 k = part (f s).1 k := hf.own _ _ (hg.others s k hne)
      _ = part (g (f s).1).1 k := (hg.others _ k hne).symm
  · rw [hf.others _ k hi]
    by_cases hj : k = j
    · subst hj
      exact hg.own _ _ (hf.others s k hi).symm
    · rw [hg.others _ k hj, hg.others _ k hj, hf.others _ k hi]

end LocalAt

section Runs
variable (op : α → σ → σ × ρ)

/-- The state after a list of operations. -/
def run (s : σ) (as : List α) : σ := as.foldl (fun s a => (op a s).1) s

@[simp] theorem run_append_singleton (s : σ) (as : List α) (a : α) :
    run op s (as ++ [a]) = (op a (run op s as)).1 := by
  simp [run]

variable {op} [DecidableEq ι] {target : α → ι}

theorem part_run_filter {as : List α} (h : ∀ a ∈ as, LocalAt part (target a) (op a)) (s : σ) (i : ι) :
    part (run op s (as.filter fun a => target a = i)) i = part (run op s as) i := by
  induction as using List.reverseRecOn with
  | nil => rfl
  | append_singleton as a ih =>
    have ih := ih fun b hb => h b (List.mem_append_left _ hb)
    have h := h a (List.mem_append_right _ List.mem_cons_self)
    rw [List.filter_append, run_append_singleton]
    by_cases ha : target a = i
    · have hone : [a].filter (fun a => target a = i) = [a] := by simp [ha]
      rw [hone, run_append_singleton]
      subst ha
      exact h.own _ _ ih
    · have hnone : [a].filter (fun a => target a = i) = [] := by simp [ha]
      rw [hnone, List.append_nil, h.others _ i (Ne.symm ha), ih]

end Runs

end DistributedLabs.LocalOperations
