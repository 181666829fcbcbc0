import Mathlib.Data.List.Basic
import Mathlib.Data.UInt
import Mathlib.Tactic.SplitIfs

/-!
# Bit sets of the linearizability checker

The checker keeps the numbers of the operations it has linearized as bits of 64-bit words. An
access behind the last word panics, which is `none` here. What a bit set says is a function from
positions to bits, and two sets with equally many words are equal if they have the same bits.
-/

namespace DistributedLabs.Porcupine

abbrev Bitset := List UInt64

namespace Bitset

def newBitset (bits : ℕ) : Bitset :=
  let extra := if bits % 64 ≠ 0 then 1 else 0
  let chunks := bits / 64 + extra
  List.replicate chunks 0

def bitsetIndex (pos : ℕ) : ℕ × ℕ := (pos / 64, pos % 64)

/-- The word with one bit. -/
def one (minor : ℕ) : UInt64 := 1 <<< UInt64.ofNat minor

def set (b : Bitset) (pos : ℕ) : Option Bitset :=
  let (major, minor) := bitsetIndex pos
  b[major]?.map fun word => List.set b major (word ||| one minor)

def clear (b : Bitset) (pos : ℕ) : Option Bitset :=
  let (major, minor) := bitsetIndex pos
  b[major]?.map fun word => List.set b major (word &&& ~~~one minor)

/-- `bits.OnesCount64`. -/
def onesCount64 (word : UInt64) : ℕ := (List.range 64).countP word.toBitVec.getLsbD

def popcnt (b : Bitset) : ℕ := b.foldl (fun total word => total + onesCount64 word) 0

def hash (b : Bitset) : UInt64 := b.foldl (· ^^^ ·) (UInt64.ofNat b.popcnt)

def equals (b b2 : Bitset) : Bool :=
  b.length == b2.length && (List.range b.length).all fun i => b[i]? == b2[i]?

/-- The bit at a position; there are none behind the last word. -/
def bit (b : Bitset) (pos : ℕ) : Bool := (b[pos / 64]?.getD 0).toBitVec.getLsbD (pos % 64)

theorem getLsbD_one {minor : ℕ} (h : minor < 64) (i : ℕ) :
    (one minor).toBitVec.getLsbD i = decide (i = minor) := by
  have hshift : ((UInt64.ofNat minor).toBitVec % 64).toNat = minor := by
    simp
    omega
  rw [one, UInt64.toBitVec_shiftLeft]
  simp only [UInt64.toBitVec_ofNat, BitVec.shiftLeft_eq', BitVec.getLsbD_shiftLeft, hshift,
    BitVec.getLsbD_one]
  grind

/-- A change of the word of a position is a change of its bits. -/
theorem bit_modify {b : Bitset} {pos : ℕ} {word new : UInt64} (hword : b[pos / 64]? = some word) (q : ℕ) :
    bit (List.set b (pos / 64) new) q =
      if q / 64 = pos / 64 then new.toBitVec.getLsbD (q % 64) else bit b q := by
  have hlt : pos / 64 < b.length := (List.getElem?_eq_some_iff.mp hword).1
  unfold bit
  rw [List.getElem?_set]
  split_ifs with h h' h'
  · rfl
  · exact absurd h.symm h'
  · exact absurd h'.symm h
  · rfl

theorem set_eq_some {b b' : Bitset} {pos : ℕ} :
    b.set pos = some b' ↔
      ∃ word, b[pos / 64]? = some word ∧ b' = List.set b (pos / 64) (word ||| one (pos % 64)) := by
  simp [set, bitsetIndex, eq_comm]

theorem clear_eq_some {b b' : Bitset} {pos : ℕ} :
    b.clear pos = some b' ↔
      ∃ word, b[pos / 64]? = some word ∧ b' = List.set b (pos / 64) (word &&& ~~~one (pos % 64)) := by
  simp [clear, bitsetIndex, eq_comm]

theorem bit_set {b b' : Bitset} {pos : ℕ} (h : b.set pos = some b') (q : ℕ) :
    b'.bit q = (b.bit q || decide (q = pos)) := by
  obtain ⟨word, hword, rfl⟩ := set_eq_some.mp h
  rw [bit_modify hword]
  split_ifs with hq
  · rw [UInt64.toBitVec_or, BitVec.getLsbD_or, getLsbD_one (by omega), bit, hq, hword]
    have : q % 64 = pos % 64 ↔ q = pos := by omega
    simp [this]
  · have : q ≠ pos := fun heq => hq (heq ▸ rfl)
    simp [this]

theorem bit_clear {b b' : Bitset} {pos : ℕ} (h : b.clear pos = some b') (q : ℕ) :
    b'.bit q = (b.bit q && decide (q ≠ pos)) := by
  obtain ⟨word, hword, rfl⟩ := clear_eq_some.mp h
  rw [bit_modify hword]
  split_ifs with hq
  · have hlt : q % 64 < 64 := by omega
    rw [UInt64.toBitVec_and, BitVec.getLsbD_and, UInt64.toBitVec_not, BitVec.getLsbD_not,
      getLsbD_one (by omega), bit, hq, hword]
    have : q % 64 = pos % 64 ↔ q = pos := by omega
    simp [this, hlt]
  · have : q ≠ pos := fun heq => hq (heq ▸ rfl)
    simp [this]

theorem ext {b b2 : Bitset} (hlen : b.length = b2.length) (h : ∀ pos, b.bit pos = b2.bit pos) :
    b = b2 := by
  apply List.ext_getElem hlen
  intro i hi hi2
  apply UInt64.toBitVec_inj.mp
  apply BitVec.eq_of_getLsbD_eq
  intro j hj
  have hbit := h (64 * i + j)
  have hdiv : (64 * i + j) / 64 = i := by omega
  have hmod : (64 * i + j) % 64 = j := by omega
  simpa [bit, hdiv, hmod, hi, hi2] using hbit

theorem equals_iff {b b2 : Bitset} : b.equals b2 ↔ b = b2 := by
  simp only [equals, Bool.and_eq_true, beq_iff_eq, List.all_eq_true, List.mem_range]
  constructor
  · rintro ⟨hlen, hwords⟩
    apply List.ext_getElem hlen
    intro i hi hi2
    simpa [hi, hi2] using hwords i hi
  · rintro rfl
    exact ⟨rfl, fun _ _ => rfl⟩

/-- `b` has room for `n` numbers and has those of `done`. -/
structure Holds (b : Bitset) (n : ℕ) (done : List ℕ) : Prop where
  length : b.length = (newBitset n).length
  bit : ∀ pos, b.bit pos = decide (pos ∈ done)

theorem div_lt_length_newBitset {n pos : ℕ} (h : pos < n) : pos / 64 < (newBitset n).length := by
  simp only [newBitset, List.length_replicate]
  split_ifs <;> omega

theorem holds_newBitset (n : ℕ) : Holds (newBitset n) n [] where
  length := rfl
  bit pos := by
    simp only [Bitset.bit, newBitset, List.getElem?_replicate]
    split_ifs <;> simp

theorem Holds.set {b : Bitset} {n pos : ℕ} {done : List ℕ} (h : b.Holds n done) (hpos : pos < n) :
    ∃ b', b.set pos = some b' ∧ b'.Holds n (pos :: done) := by
  have hlt : pos / 64 < b.length := h.length ▸ div_lt_length_newBitset hpos
  have hset := set_eq_some.mpr ⟨_, List.getElem?_eq_getElem hlt, rfl⟩
  refine ⟨_, hset, by simp [h.length], fun q => ?_⟩
  rw [bit_set hset, h.bit]
  simp [Bool.or_comm]

theorem Holds.clear {b : Bitset} {n pos : ℕ} {done : List ℕ} (h : b.Holds n (pos :: done))
    (hpos : pos < n) (hnot : pos ∉ done) : ∃ b', b.clear pos = some b' ∧ b'.Holds n done := by
  have hlt : pos / 64 < b.length := h.length ▸ div_lt_length_newBitset hpos
  have hclear := clear_eq_some.mpr ⟨_, List.getElem?_eq_getElem hlt, rfl⟩
  refine ⟨_, hclear, by simp [h.length], fun q => ?_⟩
  rw [bit_clear hclear, h.bit]
  rcases eq_or_ne q pos with rfl | hne
  · simp [hnot]
  · simp [hne]

/-- Two bit sets for equally many numbers are equal if they have the same ones. -/
theorem Holds.equals_iff {b b2 : Bitset} {n : ℕ} {done done2 : List ℕ} (h : b.Holds n done)
    (h2 : b2.Holds n done2) : b.equals b2 ↔ ∀ pos, pos ∈ done ↔ pos ∈ done2 := by
  rw [Bitset.equals_iff]
  constructor
  · rintro rfl pos
    have := h2.bit pos
    rw [h.bit] at this
    simpa using this
  · intro hiff
    apply ext (h.length.trans h2.length.symm)
    intro pos
    rw [h.bit, h2.bit]
    simp [hiff]

end Bitset

end DistributedLabs.Porcupine
