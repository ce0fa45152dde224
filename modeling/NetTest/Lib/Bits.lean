import Mathlib.Algebra.Group.Nat.Defs

/-!
# Bits of a byte

A byte takes part in bit arithmetic as a 32-bit `int` and is cut back to eight
bits when the result is stored.
-/

namespace NetTest.Bits

/-- `(byte >> i) & 1`. -/
def bit (byte : UInt8) (i : Nat) : Bool := byte.toUInt32 >>> UInt32.ofNat i &&& 1 != 0

/-- `byte | (1 << i)`. -/
def setBit (byte : UInt8) (i : Nat) : UInt8 := (byte.toUInt32 ||| 1 <<< UInt32.ofNat i).toUInt8

/-- `byte & ~(1 << i)`. -/
def clearBit (byte : UInt8) (i : Nat) : UInt8 :=
  (byte.toUInt32 &&& ~~~(1 <<< UInt32.ofNat i)).toUInt8

variable {byte : UInt8} {i j : Nat}

theorem toNat_ofNat_lt (hi : i < 8) : (UInt32.ofNat i).toNat = i := by
  rw [UInt32.toNat_ofNat']
  exact Nat.mod_eq_of_lt (by omega)

theorem bit_eq_testBit (byte : UInt8) (hi : i < 8) : bit byte i = byte.toNat.testBit i := by
  have hone : (byte.toUInt32 >>> UInt32.ofNat i &&& 1).toNat = byte.toNat >>> i &&& 1 := by
    rw [UInt32.toNat_and, UInt32.toNat_shiftRight, UInt8.toNat_toUInt32, toNat_ofNat_lt hi,
      Nat.mod_eq_of_lt (by omega : i < 32)]
    rfl
  have hzero : byte.toUInt32 >>> UInt32.ofNat i &&& 1 = 0 ↔ byte.toNat >>> i &&& 1 = 0 := by
    rw [← hone, ← UInt32.toNat_inj]
    rfl
  rw [bit, Nat.testBit, Nat.and_comm 1, Bool.eq_iff_iff, bne_iff_ne, bne_iff_ne, Ne, Ne, hzero]

theorem mask_testBit (hi : i < 8) (j : Nat) :
    (1 <<< UInt32.ofNat i : UInt32).toNat.testBit j = decide (i = j) := by
  have hmask : (1 <<< UInt32.ofNat i : UInt32).toNat = 2 ^ i := by
    have hlt : 2 ^ i < 2 ^ 32 := Nat.pow_lt_pow_right (by omega) (by omega)
    rw [UInt32.toNat_shiftLeft, toNat_ofNat_lt hi, Nat.mod_eq_of_lt (by omega : i < 32),
      show (1 : UInt32).toNat = 1 from rfl, Nat.shiftLeft_eq, Nat.one_mul, Nat.mod_eq_of_lt hlt]
  rw [hmask, Nat.testBit_two_pow]

theorem toUInt8_testBit (word : UInt32) (hj : j < 8) :
    word.toUInt8.toNat.testBit j = word.toNat.testBit j := by
  rw [UInt32.toNat_toUInt8, Nat.testBit_mod_two_pow, decide_eq_true hj, Bool.true_and]

theorem bit_setBit (byte : UInt8) (hi : i < 8) (hj : j < 8) :
    bit (setBit byte i) j = if i = j then true else bit byte j := by
  rw [bit_eq_testBit _ hj, bit_eq_testBit _ hj, setBit, toUInt8_testBit _ hj, UInt32.toNat_or,
    Nat.testBit_or, mask_testBit hi, UInt8.toNat_toUInt32]
  by_cases hij : i = j
  · rw [if_pos hij, decide_eq_true hij, Bool.or_true]
  · rw [if_neg hij, decide_eq_false hij, Bool.or_false]

theorem bit_clearBit (byte : UInt8) (hi : i < 8) (hj : j < 8) :
    bit (clearBit byte i) j = if i = j then false else bit byte j := by
  have hnot : (~~~(1 <<< UInt32.ofNat i) : UInt32).toNat.testBit j = !decide (i = j) := by
    have hlt : (1 <<< UInt32.ofNat i : UInt32).toNat < 2 ^ 32 := UInt32.toNat_lt _
    rw [UInt32.toNat_not, show UInt32.size = 2 ^ 32 from rfl, Nat.sub_sub, Nat.add_comm 1,
      Nat.testBit_two_pow_sub_succ hlt, mask_testBit hi, decide_eq_true (by omega), Bool.true_and]
  rw [bit_eq_testBit _ hj, bit_eq_testBit _ hj, clearBit, toUInt8_testBit _ hj, UInt32.toNat_and,
    Nat.testBit_and, hnot, UInt8.toNat_toUInt32]
  by_cases hij : i = j
  · rw [if_pos hij, decide_eq_true hij, Bool.not_true, Bool.and_false]
  · rw [if_neg hij, decide_eq_false hij, Bool.not_false, Bool.and_true]

theorem bit_zero (i : Nat) : bit 0 i = false := by
  rw [bit, show (0 : UInt8).toUInt32 = 0 from rfl, UInt32.zero_shiftRight, UInt32.zero_and]
  rfl

theorem exists_bit_of_ne_zero (h : byte ≠ 0) : ∃ i < 8, bit byte i = true := by
  have hne : byte.toNat ≠ 0 := by
    intro hzero
    exact h (UInt8.toNat_inj.mp hzero)
  rcases Nat.exists_testBit_of_ne_zero hne with ⟨i, hi⟩
  have hlt : i < 8 := by
    apply Nat.lt_of_not_ge
    intro hge
    have hbyte : byte.toNat < 2 ^ i :=
      Nat.lt_of_lt_of_le (UInt8.toNat_lt byte) (Nat.pow_le_pow_right (by omega) (by omega))
    rw [Nat.testBit_lt_two_pow hbyte] at hi
    contradiction
  exact ⟨i, hlt, by rw [bit_eq_testBit byte hlt, hi]⟩

end NetTest.Bits
