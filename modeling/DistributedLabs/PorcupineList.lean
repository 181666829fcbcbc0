import DistributedLabs.PorcupineSearch

/-!
# The linked entries of the linearizability checker

`makeLinkedEntries` makes the list of the entries of a history, each call with a pointer to its
return. While the search goes on, the list in the heap is that of the entries of the operations
that are not in the order. `lift` takes an operation out, and `unlift` gives the heap back as it
was before.
-/

namespace DistributedLabs.Porcupine
open LinkedNodes

variable {I O : Type} {entries : List (Entry I O)} {ops : List (I × O)}

/-- The first return of an operation, with the name of its node. -/
def returnOf (cells : List (Entry I O × ℕ)) (id : ℕ) : Option ℕ :=
  (cells.find? fun r => !r.1.isCall && r.1.id = id).map Prod.snd

/-- What the node of an entry holds, where `later` are the entries behind it. -/
def nodeData (later : List (Entry I O × ℕ)) (e : Entry I O) : NodeData I O :=
  ⟨e.value, if e.isCall then returnOf later e.id else none, e.id⟩

/-- What `makeLinkedEntries` has made of the last entries. -/
structure LinkedCells (cells : List (Entry I O × ℕ)) (l : Linking I O) : Prop where
  linked : Linked l.heap none (cells.map Prod.snd) none
  free : ∀ p, p ∉ cells.map Prod.snd → l.heap p = none
  root : l.root = (cells.map Prod.snd).head?
  matching : l.matching = returnOf cells
  data : ∀ xs c ys, cells = xs ++ c :: ys → (l.heap c.2).map Node.data = some (nodeData ys c.1)

/-- A node in front of a list: the list is one longer and all data stay. -/
theorem insertBefore_head {h : NodeHeap I O} {n : ℕ} {ps : List ℕ} (hl : Linked h none ps none)
    (hnodup : (n :: ps).Nodup) (data : NodeData I O) :
    ∃ h', insertBefore (alloc h n data) n ps.head? = some h' ∧ Linked h' none (n :: ps) none ∧
      (h' n).map Node.data = some data ∧
      ∀ q, q ≠ n → (h' q).map Node.data = (h q).map Node.data := by
  obtain ⟨hn, hps⟩ := List.nodup_cons.mp hnodup
  cases ps with
  | nil =>
    refine ⟨alloc h n data, rfl, ⟨⟨data, by simp [alloc]⟩, trivial⟩, by simp [alloc], ?_⟩
    intro q hq
    simp [alloc, Function.update_of_ne hq]
  | cons p ps =>
    have hne : n ≠ p := (ne_of_mem_of_not_mem List.mem_cons_self hn).symm
    obtain ⟨d, next, hp, hpush⟩ := hl.push hn (List.nodup_cons.mp hps).1 data
    refine ⟨_, ?_, hpush, by simp [Function.update_of_ne hne], ?_⟩
    · simp only [insertBefore, List.head?_cons, alloc, Option.bind_eq_bind, setPrev, setNext,
        Function.update_of_ne hne.symm, hp, Option.bind_some, Option.map_some,
        Function.update_of_ne hne, Function.update_self]
      rw [Function.update_comm hne.symm, Function.update_idem, Function.update_comm hne]
    · intro q hq
      rcases eq_or_ne q p with rfl | hqp
      · simp [hp]
      · simp [Function.update_of_ne hqp, Function.update_of_ne hq]

theorem returnOf_cons (c : Entry I O × ℕ) (cells : List (Entry I O × ℕ)) :
    returnOf (c :: cells) =
      if c.1.isCall then returnOf cells else Function.update (returnOf cells) c.1.id (some c.2) := by
  funext id
  unfold returnOf
  cases hcall : c.1.isCall with
  | true => simp [hcall]
  | false =>
    rcases eq_or_ne id c.1.id with rfl | hne
    · simp [hcall]
    · simp [hcall, Function.update_of_ne hne, hne.symm]

theorem LinkedCells.cons {cells : List (Entry I O × ℕ)} {l : Linking I O} (hl : LinkedCells cells l)
    {c : Entry I O × ℕ} (hnodup : ((c :: cells).map Prod.snd).Nodup) :
    ∃ l', linkEntry c l = some l' ∧ LinkedCells (c :: cells) l' := by
  obtain ⟨heap, hinsert, hlinked, hself, hothers⟩ :=
    insertBefore_head hl.linked hnodup (nodeData cells c.1)
  have hfree : ∀ p, p ∉ (c :: cells).map Prod.snd → heap p = none := by
    intro p hp
    simp only [List.map_cons, List.mem_cons, not_or] at hp
    have hdata := hothers p hp.1
    rw [hl.free p hp.2] at hdata
    simpa using hdata
  have hdata : ∀ xs d ys, c :: cells = xs ++ d :: ys →
      (heap d.2).map Node.data = some (nodeData ys d.1) := by
    intro xs d ys hsplit
    cases xs with
    | nil =>
      obtain ⟨rfl, rfl⟩ := List.cons.inj hsplit
      exact hself
    | cons x xs =>
      obtain ⟨rfl, rfl⟩ := List.cons.inj hsplit
      have hne : d.2 ≠ c.2 :=
        ne_of_mem_of_not_mem (by simp) (List.nodup_cons.mp hnodup).1
      rw [hothers _ hne]
      exact hl.data xs d ys rfl
  rw [← hl.root] at hinsert
  obtain ⟨e, i⟩ := c
  unfold linkEntry
  cases hkind : e.kind with
  | returnEntry =>
    have hcall : e.isCall = false := by simp [Entry.isCall, hkind]
    refine ⟨⟨heap, some i, Function.update l.matching e.id (some i)⟩, ?_, hlinked, hfree, rfl, ?_, hdata⟩
    · simp only [nodeData, hcall, Bool.false_eq_true, ↓reduceIte] at hinsert
      simp [hkind, hinsert]
    · simp [returnOf_cons, hcall, hl.matching]
  | callEntry =>
    have hcall : e.isCall = true := by simp [Entry.isCall, hkind]
    refine ⟨⟨heap, some i, l.matching⟩, ?_, hlinked, hfree, rfl, ?_, hdata⟩
    · simp only [nodeData, hcall, ↓reduceIte] at hinsert
      simp [hkind, hinsert, hl.matching]
    · simp [returnOf_cons, hcall, hl.matching]

theorem exists_makeLinkedEntries (entries : List (Entry I O)) :
    ∃ l, makeLinkedEntries entries = some l ∧ LinkedCells entries.zipIdx l := by
  have hall : ∀ cells : List (Entry I O × ℕ), (cells.map Prod.snd).Nodup →
      ∃ l, cells.foldrM linkEntry ⟨fun _ => none, none, fun _ => none⟩ = some l ∧ LinkedCells cells l := by
    intro cells hnodup
    induction cells with
    | nil => exact ⟨_, rfl, trivial, fun _ _ => rfl, rfl, rfl, by simp⟩
    | cons c cells ih =>
      obtain ⟨l, hl, hcells⟩ := ih (List.nodup_cons.mp hnodup).2
      obtain ⟨l', hl', hcells'⟩ := hcells.cons hnodup
      exact ⟨l', by simp [hl, hl'], hcells'⟩
  apply hall
  rw [List.zipIdx_map_snd]
  exact List.nodup_range'

theorem length_of_linked {h : NodeHeap I O} {before : Option ℕ} {ps : List ℕ} {fuel : ℕ}
    (hl : Linked h before ps none) (hfuel : ps.length ≤ fuel) : length h fuel ps.head? = some ps.length := by
  induction ps generalizing before fuel with
  | nil => simp [length]
  | cons p ps ih =>
    obtain ⟨⟨d, hp⟩, hps⟩ := hl
    cases fuel with
    | zero => simp at hfuel
    | succ fuel =>
      have := ih hps (by simpa using hfuel)
      simp [length, hp, this]

/-- The entries that are left, with the names of their nodes. -/
def cells (entries : List (Entry I O)) (done : List ℕ) : List (Entry I O × ℕ) :=
  entries.zipIdx.filter fun c => c.1.id ∉ done

theorem map_fst_cells (done : List ℕ) : (cells entries done).map Prod.fst = live entries done := by
  have hzip : entries.zipIdx.map Prod.fst = entries := List.zipIdx_map_fst 0 entries
  unfold cells live
  conv_rhs => rw [← hzip, List.filter_map]
  rfl

theorem cells_cons (i : ℕ) (done : List ℕ) :
    cells entries (i :: done) = (cells entries done).filter fun c => c.1.id ≠ i := by
  simp only [cells, List.filter_filter]
  apply List.filter_congr
  intro c _
  simp [not_or]

theorem mem_entries_of_mem_zipIdx {c : Entry I O × ℕ} (hc : c ∈ entries.zipIdx) : c.1 ∈ entries := by
  have hmem := List.mem_map_of_mem (f := Prod.fst) hc
  rwa [List.zipIdx_map_fst] at hmem

theorem snd_lt_of_mem_zipIdx {c : Entry I O × ℕ} (hc : c ∈ entries.zipIdx) : c.2 < entries.length := by
  have hmem := List.mem_map_of_mem (f := Prod.snd) hc
  rw [List.zipIdx_map_snd] at hmem
  simpa using hmem

theorem nodup_zipIdx_snd : (entries.zipIdx.map Prod.snd).Nodup := by
  rw [List.zipIdx_map_snd]
  exact List.nodup_range'

/-- In the cells, too, there is one call and one return of an operation. -/
theorem Describes.cell_eq (hd : Describes entries ops) {a b : Entry I O × ℕ} (ha : a ∈ entries.zipIdx)
    (hb : b ∈ entries.zipIdx) (hkind : a.1.isCall = b.1.isCall) (hid : a.1.id = b.1.id) : a = b := by
  have hfst : a.1 = b.1 :=
    hd.eq_of_id_eq (mem_entries_of_mem_zipIdx ha) (mem_entries_of_mem_zipIdx hb) hkind hid
  have hnodup : (entries.zipIdx.map Prod.fst).Nodup := by
    rw [List.zipIdx_map_fst]
    exact hd.nodup
  exact List.inj_on_of_nodup_map hnodup ha hb hfst

theorem Describes.exists_cell (hd : Describes entries ops) {i : ℕ} (hi : i < ops.length) (isCall : Bool) :
    ∃ c ∈ entries.zipIdx, c.1.isCall = isCall ∧ c.1.id = i := by
  obtain ⟨e, he, hcall, hid⟩ := hd.exists_entry hi isCall
  rw [← List.zipIdx_map_fst 0 entries] at he
  obtain ⟨c, hc, rfl⟩ := List.mem_map.mp he
  exact ⟨c, hc, hcall, hid⟩

theorem Describes.id_ne_of_sublist (hd : Describes entries ops) {r c : Entry I O × ℕ}
    (hsub : [r, c].Sublist entries.zipIdx) (hreturn : r.1.isCall = false) (hcall : c.1.isCall) :
    r.1.id ≠ c.1.id := by
  have hsub' : [r.1, c.1].Sublist entries := by
    simpa [List.zipIdx_map_fst] using hsub.map Prod.fst
  have hpair := hd.ordered.sublist hsub'
  simp only [List.pairwise_cons, List.mem_singleton, forall_eq] at hpair
  exact hpair.1 hreturn hcall

theorem Describes.mem_of_return (hd : Describes entries ops) {l xs ys : List (Entry I O × ℕ)}
    {c r : Entry I O × ℕ} (hl : l.Sublist entries.zipIdx) (hsplit : l = xs ++ c :: ys) (hr : r ∈ l)
    (hcall : c.1.isCall) (hreturn : r.1.isCall = false) (hid : r.1.id = c.1.id) : r ∈ ys := by
  rw [hsplit, List.mem_append, List.mem_cons] at hr
  rcases hr with hr | rfl | hr
  · exfalso
    have hsub : [r, c].Sublist l := by
      rw [hsplit]
      exact (List.singleton_sublist.mpr hr).append (List.singleton_sublist.mpr List.mem_cons_self)
    exact hd.id_ne_of_sublist (hsub.trans hl) hreturn hcall hid
  · simp [hcall] at hreturn
  · exact hr

/-- The return of an operation is behind its call. -/
theorem Describes.exists_return (hd : Describes entries ops) {xs ys : List (Entry I O × ℕ)}
    {c : Entry I O × ℕ} (hsplit : entries.zipIdx = xs ++ c :: ys) (hcall : c.1.isCall) :
    ∃ r ∈ ys, r.1.isCall = false ∧ r.1.id = c.1.id ∧ returnOf ys c.1.id = some r.2 := by
  have hc : c ∈ entries.zipIdx := by simp [hsplit]
  obtain ⟨r, hr, hreturn, hid⟩ := hd.exists_cell (hd.id_lt (mem_entries_of_mem_zipIdx hc)) false
  have hmem : r ∈ ys := hd.mem_of_return (List.Sublist.refl _) hsplit hr hcall hreturn hid
  refine ⟨r, hmem, hreturn, hid, ?_⟩
  obtain ⟨r', hfind⟩ : ∃ r', ys.find? (fun r => !r.1.isCall && r.1.id = c.1.id) = some r' := by
    rw [← Option.isSome_iff_exists, List.find?_isSome]
    exact ⟨r, hmem, by simp [hreturn, hid]⟩
  have hr' := List.find?_some hfind
  simp only [Bool.and_eq_true, Bool.not_eq_eq_eq_not, Bool.not_true, decide_eq_true_eq] at hr'
  have heq : r' = r := by
    apply hd.cell_eq _ _ (hr'.1.trans hreturn.symm) (hr'.2.trans hid.symm)
    · rw [hsplit]
      exact List.mem_append_right _ (List.mem_cons_of_mem _ (List.mem_of_find?_eq_some hfind))
    · rw [hsplit]
      exact List.mem_append_right _ (List.mem_cons_of_mem _ hmem)
  rw [returnOf, hfind, heq]
  rfl

variable (entries) in
/-- The heap has the list of the entries that are left, behind the node in front, and the nodes hold
what `makeLinkedEntries` put into them. -/
structure ListOf (heap : NodeHeap I O) (done : List ℕ) : Prop where
  linked : Linked heap none (entries.length :: (cells entries done).map Prod.snd) none
  data : ∀ xs c ys, entries.zipIdx = xs ++ c :: ys →
    (heap c.2).map Node.data = some (nodeData ys c.1)

theorem nodup_cells (done : List ℕ) : (entries.length :: (cells entries done).map Prod.snd).Nodup := by
  refine List.nodup_cons.mpr ⟨?_, nodup_zipIdx_snd.sublist (List.filter_sublist.map _)⟩
  intro hmem
  obtain ⟨c, hc, hlen⟩ := List.mem_map.mp hmem
  exact absurd (snd_lt_of_mem_zipIdx (List.mem_of_mem_filter hc)) (by omega)

/-- The node of an entry that is left. -/
theorem ListOf.node {heap : NodeHeap I O} {done : List ℕ} (h : ListOf entries heap done)
    {xs ys : List (Entry I O × ℕ)} {c : Entry I O × ℕ} (hsplit : cells entries done = xs ++ c :: ys) :
    ∃ node, heap c.2 = some node ∧ node.next = (ys.map Prod.snd).head? ∧
      node.data.value = c.1.value ∧ node.data.id = c.1.id ∧
      (c.1.isCall = false → node.data.matching = none) := by
  have hl := h.linked
  rw [hsplit, List.map_append, List.map_cons, ← List.cons_append] at hl
  obtain ⟨d, hnode⟩ := hl.next_eq
  have hc : c ∈ entries.zipIdx := List.mem_of_mem_filter (hsplit ▸ List.mem_append_right _ List.mem_cons_self)
  obtain ⟨us, vs, hzip⟩ := List.append_of_mem hc
  have hdata := h.data us c vs hzip
  rw [hnode] at hdata
  obtain rfl : d = nodeData vs c.1 := by simpa using hdata
  exact ⟨_, hnode, by simp, rfl, rfl, fun hcall => by simp [nodeData, hcall]⟩

theorem lift_eq {h : NodeHeap I O} {entry m after : ℕ} {node : Node (NodeData I O) ℕ}
    (hnode : h entry = some node) (hnext : node.next = some after) (hm : node.data.matching = some m) :
    Porcupine.lift h entry = (unlink h entry).bind fun h' => unlink h' m := by
  simp [Porcupine.lift, unlink, hnode, hnext, hm, Option.bind_assoc]

theorem unlift_eq {h h' : NodeHeap I O} {entry m after : ℕ} {node node' : Node (NodeData I O) ℕ}
    (hnode : h entry = some node) (hm : node.data.matching = some m) (hrelink : relink h m = some h')
    (hnode' : h' entry = some node') (hnext : node'.next = some after) :
    unlift h entry = relink h' entry := by
  simp only [unlift, hnode, hm, hrelink, hnode', hnext, Option.bind_eq_bind, Option.bind_some]
  simp [relink, hnode', hnext]

/-- The entries that are left when an operation is taken out. -/
theorem Describes.cells_cons (hd : Describes entries ops) {done : List ℕ} {xs ys zs : List (Entry I O × ℕ)}
    {c r : Entry I O × ℕ} (hsplit : cells entries done = xs ++ c :: (ys ++ r :: zs)) (hcall : c.1.isCall)
    (hreturn : r.1.isCall = false) (hid : r.1.id = c.1.id) :
    cells entries (c.1.id :: done) = xs ++ (ys ++ zs) := by
  have hnodup : (cells entries done).Nodup := (List.nodup_cons.mp (nodup_cells done)).2.of_map
  have hzip : ∀ d ∈ cells entries done, d ∈ entries.zipIdx := fun d hd => List.mem_of_mem_filter hd
  have hkeep : ∀ d ∈ cells entries done, d ≠ c → d ≠ r → d.1.id ≠ c.1.id := by
    intro d hdmem hdc hdr hdid
    cases hkind : d.1.isCall with
    | true => exact hdc (hd.cell_eq (hzip d hdmem) (hzip c (by simp [hsplit])) (hkind.trans hcall.symm) hdid)
    | false =>
      exact hdr (hd.cell_eq (hzip d hdmem) (hzip r (by simp [hsplit])) (hkind.trans hreturn.symm)
        (hdid.trans hid.symm))
  have hperm : (xs ++ c :: (ys ++ r :: zs)).Perm (c :: r :: (xs ++ (ys ++ zs))) := by
    refine List.perm_middle.trans (.cons c ?_)
    rw [← List.append_assoc, ← List.append_assoc]
    exact List.perm_middle
  rw [hsplit] at hnodup hkeep
  obtain ⟨hc, hnodup⟩ := List.nodup_cons.mp (hperm.nodup_iff.mp hnodup)
  have hr := (List.nodup_cons.mp hnodup).1
  have hrest : ∀ d ∈ xs ++ (ys ++ zs), d.1.id ≠ c.1.id := by
    intro d hmem
    apply hkeep d (hperm.mem_iff.mpr (List.mem_cons_of_mem _ (List.mem_cons_of_mem _ hmem)))
    · exact ne_of_mem_of_not_mem (List.mem_cons_of_mem _ hmem) hc
    · exact ne_of_mem_of_not_mem hmem hr
  have hself : (xs ++ (ys ++ zs)).filter (fun d => d.1.id ≠ c.1.id) = xs ++ (ys ++ zs) :=
    List.filter_eq_self.mpr (by simpa using hrest)
  rw [Porcupine.cells_cons, hsplit, ← hself]
  simp [hid]

theorem ListOf.lift (hd : Describes entries ops) {heap : NodeHeap I O} {done : List ℕ}
    (h : ListOf entries heap done) {xs ys : List (Entry I O × ℕ)} {c : Entry I O × ℕ}
    (hsplit : cells entries done = xs ++ c :: ys) (hcall : c.1.isCall) :
    ∃ r ∈ ys, r.1.isCall = false ∧ r.1.id = c.1.id ∧
      (∃ node, heap c.2 = some node ∧ node.data.matching = some r.2) ∧
      ∃ heap', lift heap c.2 = some heap' ∧ ListOf entries heap' (c.1.id :: done) ∧
        unlift heap' c.2 = some heap := by
  have hc : c ∈ cells entries done := hsplit ▸ List.mem_append_right _ List.mem_cons_self
  obtain ⟨hczip, hcdone⟩ := List.mem_filter.mp hc
  obtain ⟨us, vs, hzip⟩ := List.append_of_mem hczip
  obtain ⟨r, hr, hreturn, hid, hreturnOf⟩ := hd.exists_return hzip hcall
  have hnodup := @nodup_cells _ _ entries done
  have hrcells : r ∈ cells entries done := by
    refine List.mem_filter.mpr ⟨?_, by simpa [hid] using hcdone⟩
    simp [hzip, hr]
  have hrys : r ∈ ys := hd.mem_of_return List.filter_sublist hsplit hrcells hcall hreturn hid
  obtain ⟨ys₁, ys₂, rfl⟩ := List.append_of_mem hrys
  obtain ⟨node, hnode, hnext, -, -, -⟩ := h.node hsplit
  have hm : node.data.matching = some r.2 := by
    have hdata := h.data us c vs hzip
    rw [hnode] at hdata
    have : node.data = nodeData vs c.1 := by simpa using hdata
    simp [this, nodeData, hcall, hreturnOf]
  obtain ⟨after, hafter⟩ : ∃ after, node.next = some after := by
    rw [hnext]
    cases ys₁ <;> simp
  have hlinked := h.linked
  rw [hsplit, List.map_append, List.map_cons, ← List.cons_append] at hlinked hnodup
  obtain ⟨h₁, hunlink₁, hlinked₁, hrelink₁, hc₁, hdata₁⟩ := hlinked.unlink (by simp) hnodup
  have hnodup₁ := hnodup.sublist ((List.sublist_cons_self c.2 _).append_left _)
  rw [List.map_append, List.map_cons, ← List.append_assoc] at hlinked₁ hnodup₁
  obtain ⟨h₂, hunlink₂, hlinked₂, hrelink₂, -, hdata₂⟩ := hlinked₁.unlink (by simp) hnodup₁
  obtain ⟨node₂, hnode₂, hnodedata₂⟩ : ∃ node₂, h₂ c.2 = some node₂ ∧ node₂.data = node.data := by
    have hdata := (hdata₂ c.2).trans (hdata₁ c.2)
    rw [hnode] at hdata
    simpa using hdata
  refine ⟨r, hrys, hreturn, hid, ⟨node, hnode, hm⟩, h₂, ?_, ⟨?_, ?_⟩, ?_⟩
  · rw [lift_eq hnode hafter hm, hunlink₁]
    exact hunlink₂
  · rw [hd.cells_cons hsplit hcall hreturn hid]
    simpa using hlinked₂
  · intro as d bs hd'
    rw [hdata₂, hdata₁]
    exact h.data as d bs hd'
  · rw [unlift_eq hnode₂ (hnodedata₂ ▸ hm) hrelink₂ (hc₁.trans hnode) hafter]
    exact hrelink₁

end DistributedLabs.Porcupine
