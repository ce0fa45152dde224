import NetTest.Basic.FixedBitSet.Model
import Mathlib.Data.List.Induction

/-!
# The bit set as a set of indices

Every bit of the array is followed, those behind the last index included: a call
changes at most the bit of its own index, and no call changes the padding.
-/

namespace NetTest.BitSet

open Bits Wrapping

variable {n : Nat}

def FixedBitSet.bitAt (s : FixedBitSet n) (p : Nat) : Bool :=
  match s.bits[p / 8]? with
  | some byte => bit byte (p % 8)
  | none => false

theorem bitAt_create (counted : n + 7 < sizeT) (p : Nat) :
    (create counted : FixedBitSet n).bitAt p = false := by
  rw [FixedBitSet.bitAt, create, Vector.getElem?_replicate]
  split
  · rename_i byte hbyte
    split at hbyte
    · cases hbyte
      exact bit_zero (p % 8)
    · cases hbyte
  · rfl

theorem test_eq_bitAt (s : FixedBitSet n) {p : Nat} (hp : p < n) : s.test p = s.bitAt p := by
  have hbyte := s.byte_lt (Nat.not_le_of_lt hp)
  rw [FixedBitSet.test, dif_neg (Nat.not_le_of_lt hp), FixedBitSet.bitAt,
    Vector.getElem?_eq_getElem hbyte]

theorem test_of_ge (s : FixedBitSet n) {p : Nat} (hp : n ≤ p) : s.test p = false := dif_pos hp

/-- What a store does to the bits when the new byte differs from the old one in the
bit of `index` only. -/
theorem bitAt_store (s : FixedBitSet n) {index : Nat} (hidx : index / 8 < cap n) {byte : UInt8}
    {value : Bool}
    (hbyte : ∀ j < 8, bit byte j = if index % 8 = j then value else bit s.bits[index / 8] j)
    (p : Nat) :
    ({ s with bits := s.bits.set (index / 8) byte } : FixedBitSet n).bitAt p =
      if index = p then value else s.bitAt p := by
  rw [FixedBitSet.bitAt, Vector.getElem?_set]
  by_cases hp : index / 8 = p / 8
  · have hold : s.bitAt p = bit s.bits[index / 8] (p % 8) := by
      rw [FixedBitSet.bitAt, ← hp, Vector.getElem?_eq_getElem hidx]
    rw [if_pos hp, hold]
    simp only [hbyte (p % 8) (by omega)]
    by_cases hsame : index = p
    · rw [if_pos (by omega), if_pos hsame]
    · rw [if_neg (by omega), if_neg hsame]
  · rw [if_neg hp, if_neg (by omega)]
    rfl

theorem bitAt_set (s : FixedBitSet n) (index p : Nat) :
    (s.set index).bitAt p = if index < n ∧ index = p then true else s.bitAt p := by
  by_cases hn : n ≤ index
  · rw [FixedBitSet.set, dif_pos hn, if_neg (by omega)]
  · have hidx := s.byte_lt hn
    have hbyte := fun j (hj : j < 8) =>
      bit_setBit s.bits[index / 8] (Nat.mod_lt index (by omega : 0 < 8)) hj
    rw [FixedBitSet.set, dif_neg hn, bitAt_store s hidx hbyte]
    simp only [Nat.lt_of_not_le hn, true_and]

theorem bitAt_clear (s : FixedBitSet n) (index p : Nat) :
    (s.clear index).bitAt p = if index < n ∧ index = p then false else s.bitAt p := by
  by_cases hn : n ≤ index
  · rw [FixedBitSet.clear, dif_pos hn, if_neg (by omega)]
  · have hidx := s.byte_lt hn
    have hbyte := fun j (hj : j < 8) =>
      bit_clearBit s.bits[index / 8] (Nat.mod_lt index (by omega : 0 < 8)) hj
    rw [FixedBitSet.clear, dif_neg hn, bitAt_store s hidx hbyte]
    simp only [Nat.lt_of_not_le hn, true_and]

/-! ## Sequences of calls -/

inductive Call where
  | set (index : Nat)
  | clear (index : Nat)
  deriving DecidableEq, Repr

def Call.index : Call → Nat
  | .set index => index
  | .clear index => index

def step (s : FixedBitSet n) : Call → FixedBitSet n
  | .set index => s.set index
  | .clear index => s.clear index

def lastCall (j : Nat) (calls : List Call) : Option Call :=
  calls.reverse.find? fun call => call.index = j

theorem lastCall_append (j : Nat) (calls : List Call) (call : Call) :
    lastCall j (calls ++ [call]) = if call.index = j then some call else lastCall j calls := by
  rw [lastCall, List.reverse_append, List.reverse_singleton, List.singleton_append, List.find?_cons]
  by_cases hj : call.index = j
  · rw [if_pos hj, decide_eq_true hj]
  · rw [if_neg hj, decide_eq_false hj]
    rfl

theorem bitAt_step (s : FixedBitSet n) (call : Call) (p : Nat) :
    (step s call).bitAt p =
      if p < n ∧ call.index = p then decide (call = .set p) else s.bitAt p := by
  cases call with
  | set index =>
      rw [step, bitAt_set, Call.index]
      by_cases hp : index = p
      · subst hp
        simp only [and_true, decide_true]
      · rw [if_neg (by omega), if_neg (by omega)]
  | clear index =>
      rw [step, bitAt_clear, Call.index]
      by_cases hp : index = p
      · subst hp
        simp only [and_true, reduceCtorEq, decide_false]
      · rw [if_neg (by omega), if_neg (by omega)]

/-- The bits after a sequence of calls on a fresh set. -/
theorem bitAt_run (counted : n + 7 < sizeT) (calls : List Call) (p : Nat) :
    (calls.foldl step (create counted : FixedBitSet n)).bitAt p =
      decide (p < n ∧ lastCall p calls = some (.set p)) := by
  induction calls using List.reverseRecOn with
  | nil =>
      rw [List.foldl_nil, bitAt_create, decide_eq_false]
      intro hset
      rcases hset with ⟨_, hlast⟩
      cases hlast
  | append_singleton calls call ih =>
      rw [List.foldl_append, List.foldl_cons, List.foldl_nil, bitAt_step, ih, lastCall_append]
      by_cases hp : call.index = p
      · by_cases hn : p < n
        · simp only [hp, hn, true_and, if_true, Option.some.injEq]
        · simp only [hn, false_and, if_false]
      · rw [if_neg (by omega), if_neg hp]

theorem allSet_iff (s : FixedBitSet n) (i turns : Nat) :
    s.allSet i turns = true ↔ ∀ j, i ≤ j → j < i + turns → s.test j = true := by
  induction turns generalizing i with
  | zero =>
      constructor
      · intro _ j hj hlt
        omega
      · intro _
        rfl
  | succ turns ih =>
      rw [FixedBitSet.allSet]
      constructor
      · intro h j hj hlt
        split at h
        · rename_i hi
          rcases Nat.eq_or_lt_of_le hj with rfl | hj
          · exact hi
          · exact (ih (i + 1)).mp h j hj (by omega)
        · contradiction
      · intro h
        rw [if_pos (h i (Nat.le_refl i) (by omega))]
        exact (ih (i + 1)).mpr fun j hj hlt => h j (by omega) (by omega)

theorem testRange_iff (s : FixedBitSet n) (start stop : Nat) :
    s.testRange start stop = true ↔
      start < stop ∧ stop ≤ n ∧ ∀ j, start ≤ j → j < stop → s.test j = true := by
  rw [FixedBitSet.testRange]
  split
  · constructor
    · intro h
      contradiction
    · intro h
      omega
  · rw [allSet_iff, show start + (stop - start) = stop by omega]
    constructor
    · intro h
      exact ⟨by omega, by omega, h⟩
    · intro h
      exact h.2.2

/-- The bit set holds the indices whose last call was `set`, its padding stays
zero, and a range tests true when it is a range of the set and full. -/
theorem bitSet_is_set (counted : n + 7 < sizeT) (calls : List Call) :
    let s : FixedBitSet n := calls.foldl step (create counted)
    (∀ j, s.test j = true ↔ j < n ∧ lastCall j calls = some (.set j)) ∧
      (∀ p, n ≤ p → p < 8 * cap n → s.bitAt p = false) ∧
      ∀ start stop, s.testRange start stop = true ↔
        start < stop ∧ stop ≤ n ∧ ∀ j, start ≤ j → j < stop → s.test j = true := by
  intro s
  have hbits : ∀ p, s.bitAt p = decide (p < n ∧ lastCall p calls = some (.set p)) :=
    bitAt_run counted calls
  constructor
  · intro j
    by_cases hj : j < n
    · rw [test_eq_bitAt s hj, hbits, decide_eq_true_iff]
    · rw [test_of_ge s (Nat.le_of_not_lt hj)]
      simp only [hj, false_and, Bool.false_eq_true]
  constructor
  · intro p hp _
    rw [hbits, decide_eq_false (by omega)]
  · exact testRange_iff s

theorem bitSet_is_set_ten :
    let calls := [Call.set 3, .set 9, .clear 3, .set 10, .set 2]
    let s : FixedBitSet 10 := calls.foldl step (create (by decide))
    (∀ j, s.test j = true ↔ j < 10 ∧ lastCall j calls = some (.set j)) ∧
      (∀ p, 10 ≤ p → p < 8 * cap 10 → s.bitAt p = false) ∧
      ∀ start stop, s.testRange start stop = true ↔
        start < stop ∧ stop ≤ 10 ∧ ∀ j, start ≤ j → j < stop → s.test j = true :=
  bitSet_is_set (by decide) [Call.set 3, .set 9, .clear 3, .set 10, .set 2]

end NetTest.BitSet
