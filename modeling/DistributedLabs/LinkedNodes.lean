import Mathlib.Data.List.Basic
import Mathlib.Data.List.Nodup
import Mathlib.Logic.Function.Basic
import Mathlib.Tactic.SplitIfs

/-!
# Doubly linked nodes in a heap

A heap maps addresses to nodes with two pointers. A node that is taken out of its list keeps its
own pointers, so that it can be put back between the neighbours it had. Taken out last, put back
first: then putting it back restores the heap as it was.

Each operation fails where the program would follow a nil pointer.
-/

namespace DistributedLabs.LinkedNodes

variable {α P : Type}

structure Node (α P : Type) where
  data : α
  next : Option P
  prev : Option P

abbrev Heap (α P : Type) := P → Option (Node α P)

section
variable [DecidableEq P]

def setNext (h : Heap α P) (p : P) (q : Option P) : Option (Heap α P) :=
  (h p).map fun n => Function.update h p (some { n with next := q })

def setPrev (h : Heap α P) (p : P) (q : Option P) : Option (Heap α P) :=
  (h p).map fun n => Function.update h p (some { n with prev := q })

/-- The neighbours of `p` are linked past it. -/
def unlink (h : Heap α P) (p : P) : Option (Heap α P) := do
  let n ← h p
  let before ← n.prev
  let h ← setNext h before n.next
  match n.next with
  | none => some h
  | some after => setPrev h after n.prev

/-- The neighbours that `p` has are linked to it again. -/
def relink (h : Heap α P) (p : P) : Option (Heap α P) := do
  let n ← h p
  let before ← n.prev
  let h ← setNext h before (some p)
  match n.next with
  | none => some h
  | some after => setPrev h after (some p)

end

/-- The nodes at `ps` are linked in this order, between `before` and `after`. -/
def Linked (h : Heap α P) (before : Option P) : List P → Option P → Prop
  | [], _ => True
  | p :: ps, after =>
    (∃ d, h p = some ⟨d, ps.head?.or after, before⟩) ∧ Linked h (some p) ps after

variable {h h' : Heap α P} {before after : Option P} {p q : P} {ps qs : List P}

theorem linked_append :
    Linked h before (ps ++ qs) after ↔
      Linked h before ps (qs.head?.or after) ∧ Linked h (ps.getLast?.or before) qs after := by
  induction ps generalizing before with
  | nil => simp [Linked]
  | cons p ps ih =>
    have hlast : (p :: ps).getLast?.or before = ps.getLast?.or (some p) := by
      cases ps <;> simp [List.getLast?_cons]
    rw [List.cons_append, Linked, Linked, ih, hlast, and_assoc, List.head?_append, Option.or_assoc]

theorem Linked.congr (hl : Linked h before ps after) (heq : ∀ p ∈ ps, h' p = h p) :
    Linked h' before ps after := by
  induction ps generalizing before with
  | nil => trivial
  | cons p ps ih =>
    obtain ⟨⟨d, hd⟩, hl⟩ := hl
    exact ⟨⟨d, (heq p List.mem_cons_self).trans hd⟩,
      ih hl fun q hq => heq q (List.mem_cons_of_mem _ hq)⟩

theorem Linked.next_eq (hl : Linked h before (ps ++ p :: qs) after) :
    ∃ d, h p = some ⟨d, qs.head?.or after, ps.getLast?.or before⟩ :=
  (linked_append.mp hl).2.1

section
variable [DecidableEq P]

theorem Linked.unlink_concat {a : P} (hl : Linked h before (ps ++ a :: p :: qs) none)
    (hnodup : (ps ++ a :: p :: qs).Nodup) :
    ∃ h', unlink h p = some h' ∧ Linked h' before (ps ++ a :: qs) none ∧ relink h' p = some h ∧
      h' p = h p ∧ ∀ q, (h' q).map Node.data = (h q).map Node.data := by
  obtain ⟨hps, ⟨da, ha⟩, ⟨dp, hp⟩, hqs⟩ := linked_append.mp hl
  obtain ⟨-, hrest, hdisj⟩ := List.nodup_append'.mp hnodup
  obtain ⟨hap, hrest⟩ := List.nodup_cons.mp hrest
  obtain ⟨hpq, hnqs⟩ := List.nodup_cons.mp hrest
  have hne : a ≠ p := fun heq => hap (heq ▸ List.mem_cons_self)
  have haps : a ∉ ps := fun hmem => hdisj hmem List.mem_cons_self
  simp only [Option.or_none, List.head?_cons] at ha hp hps
  cases qs with
  | nil =>
    refine ⟨Function.update h a (some ⟨da, none, ps.getLast?.or before⟩), ?_, ?_, ?_,
      Function.update_of_ne hne.symm _ _, ?_⟩
    · simp [LinkedNodes.unlink, hp, ha, setNext]
    · refine linked_append.mpr ⟨?_, ⟨da, by simp⟩, trivial⟩
      exact hps.congr fun q hq => Function.update_of_ne (ne_of_mem_of_not_mem hq haps) _ _
    · simp [relink, Function.update_of_ne hne.symm, hp, setNext, ← ha]
    · intro q
      rcases eq_or_ne q a with rfl | hqa
      · simp [ha]
      · simp [Function.update_of_ne hqa]
  | cons c cs =>
    obtain ⟨⟨dc, hc⟩, hcs⟩ := hqs
    have hac : a ≠ c := fun heq => hap (heq ▸ List.mem_cons_of_mem _ List.mem_cons_self)
    have hpc : p ≠ c := fun heq => hpq (heq ▸ List.mem_cons_self)
    have hcps : c ∉ ps := fun hmem =>
      hdisj hmem (List.mem_cons_of_mem _ (List.mem_cons_of_mem _ List.mem_cons_self))
    have hccs : c ∉ cs := (List.nodup_cons.mp hnqs).1
    have hacs : a ∉ cs := fun hmem => hap (List.mem_cons_of_mem _ (List.mem_cons_of_mem _ hmem))
    simp only [Option.or_none] at hc
    refine ⟨Function.update (Function.update h a (some ⟨da, some c, ps.getLast?.or before⟩)) c
      (some ⟨dc, cs.head?, some a⟩), ?_, ?_, ?_,
      by rw [Function.update_of_ne hpc, Function.update_of_ne hne.symm], ?_⟩
    · simp [LinkedNodes.unlink, hp, ha, setNext, setPrev, Function.update_of_ne hac.symm, hc]
    · refine linked_append.mpr ⟨?_, ⟨da, ?_⟩, ⟨dc, by simp⟩, ?_⟩
      · apply hps.congr
        intro q hq
        rw [Function.update_of_ne (ne_of_mem_of_not_mem hq hcps),
          Function.update_of_ne (ne_of_mem_of_not_mem hq haps)]
      · simp [Function.update_of_ne hac]
      · apply hcs.congr
        intro q hq
        rw [Function.update_of_ne (ne_of_mem_of_not_mem hq hccs),
          Function.update_of_ne (ne_of_mem_of_not_mem hq hacs)]
    · have hrestore : Function.update (Function.update (Function.update (Function.update h a
          (some ⟨da, some c, ps.getLast?.or before⟩)) c (some ⟨dc, cs.head?, some a⟩)) a
          (some ⟨da, some p, ps.getLast?.or before⟩)) c (some ⟨dc, cs.head?, some p⟩) = h := by
        rw [Function.update_comm hac.symm, Function.update_idem, Function.update_idem, ← hc, ← ha]
        simp
      simp [relink, Function.update_of_ne hpc, Function.update_of_ne hne.symm, hp, setNext, setPrev,
        Function.update_of_ne hac, Function.update_of_ne hac.symm, hrestore]
    · intro q
      rcases eq_or_ne q c with rfl | hqc
      · simp [hc]
      · rw [Function.update_of_ne hqc]
        rcases eq_or_ne q a with rfl | hqa
        · simp [ha]
        · simp [Function.update_of_ne hqa]

/-- What the two operations do at a node behind another: the heap that is left by `unlink` has the
list without the node, the node itself as it was, the same data, and gives the old heap back to
`relink`. -/
theorem Linked.unlink (hl : Linked h before (ps ++ p :: qs) none) (hps : ps ≠ [])
    (hnodup : (ps ++ p :: qs).Nodup) :
    ∃ h', unlink h p = some h' ∧ Linked h' before (ps ++ qs) none ∧ relink h' p = some h ∧
      h' p = h p ∧ ∀ q, (h' q).map Node.data = (h q).map Node.data := by
  obtain ⟨ps', a, rfl⟩ := (List.eq_nil_or_concat' ps).resolve_left hps
  rw [List.append_assoc, List.singleton_append] at hl hnodup ⊢
  exact hl.unlink_concat hnodup

/-- A new node in front of a list. -/
theorem Linked.push (hl : Linked h none (p :: ps) none) (hq : q ∉ p :: ps) (hnodup : p ∉ ps) (d : α) :
    ∃ d' next, h p = some ⟨d', next, none⟩ ∧
      Linked (Function.update (Function.update h q (some ⟨d, some p, none⟩)) p
        (some ⟨d', next, some q⟩)) none (q :: p :: ps) none := by
  obtain ⟨⟨d', hp⟩, hps⟩ := hl
  have hqp : q ≠ p := (ne_of_mem_of_not_mem List.mem_cons_self hq).symm
  refine ⟨d', _, hp, ⟨d, by simp [Function.update_of_ne hqp]⟩, ⟨d', by simp⟩, hps.congr ?_⟩
  intro r hr
  rw [Function.update_of_ne (ne_of_mem_of_not_mem hr hnodup),
    Function.update_of_ne (ne_of_mem_of_not_mem (List.mem_cons_of_mem _ hr) hq)]

end

end DistributedLabs.LinkedNodes
