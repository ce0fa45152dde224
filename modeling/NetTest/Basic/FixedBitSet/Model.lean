import NetTest.Lib.Bits
import NetTest.Lib.Wrapping

/-!
# The fixed bit set

`fixed_bit_set.h`: `N` bits in `cap_` bytes.  `cap_` is computed in `size_t`; the
seven sizes where `N + 7` wraps leave an array without elements, whose
initializer `{0}` does not compile, and are no sizes of the class.

Both searches return a `pos_t`, a signed 64-bit number that a larger position is
wrapped to.
-/

namespace NetTest.BitSet

open Bits Wrapping

def cap (n : Nat) : Nat := (n + 7) % sizeT / 8

structure FixedBitSet (n : Nat) where
  bits : Vector UInt8 (cap n)
  counted : n + 7 < sizeT

variable {n : Nat}

def create (counted : n + 7 < sizeT) : FixedBitSet n :=
  { bits := Vector.replicate (cap n) 0, counted }

theorem cap_eq (counted : n + 7 < sizeT) : cap n = (n + 7) / 8 := by
  rw [cap, Nat.mod_eq_of_lt counted]

theorem FixedBitSet.byte_lt (s : FixedBitSet n) {index : Nat} (h : ¬ n ≤ index) :
    index / 8 < cap n := by
  rw [cap_eq s.counted]
  omega

def FixedBitSet.test (s : FixedBitSet n) (index : Nat) : Bool :=
  if h : n ≤ index then false
  else
    have := s.byte_lt h
    bit s.bits[index / 8] (index % 8)

/-- The loop of `test(begin, end)`, from `i` on. -/
def FixedBitSet.allSet (s : FixedBitSet n) (i : Nat) : Nat → Bool
  | 0 => true
  | turns + 1 => if s.test i then s.allSet (i + 1) turns else false

def FixedBitSet.testRange (s : FixedBitSet n) (start stop : Nat) : Bool :=
  if n ≤ start ∨ n < stop ∨ stop ≤ start then false else s.allSet start (stop - start)

def FixedBitSet.set (s : FixedBitSet n) (index : Nat) : FixedBitSet n :=
  if h : n ≤ index then s
  else
    have := s.byte_lt h
    { s with bits := s.bits.set (index / 8) (setBit s.bits[index / 8] (index % 8)) }

def FixedBitSet.clear (s : FixedBitSet n) (index : Nat) : FixedBitSet n :=
  if h : n ≤ index then s
  else
    have := s.byte_lt h
    { s with bits := s.bits.set (index / 8) (clearBit s.bits[index / 8] (index % 8)) }

/-! ## The searches -/

def toPos (p : Nat) : Int := Int.bmod p sizeT

def npos : Int := -1

/-- The bit loop of `find_first_set` over byte `idx`; `none` when it runs to its
end. -/
def FixedBitSet.scanByte (s : FixedBitSet n) (idx i : Nat) : Nat → Option Int
  | 0 => none
  | turns + 1 =>
      if n ≤ idx * 8 + i then some npos
      else if s.test (idx * 8 + i) then some (toPos (idx * 8 + i))
      else s.scanByte idx (i + 1) turns

/-- The byte loop of `find_first_set`, with `turns` bytes to go. -/
def FixedBitSet.scanBytes (s : FixedBitSet n) (idx : Nat) : Nat → Int
  | 0 => npos
  | turns + 1 =>
      if s.bits[idx]? ≠ some 0 then
        match s.scanByte idx 0 8 with
        | some p => p
        | none => s.scanBytes (idx + 1) turns
      else s.scanBytes (idx + 1) turns

def FixedBitSet.findFirstSet (s : FixedBitSet n) (offset : Nat) : Int :=
  if n ≤ offset then npos
  else
    match s.scanByte (offset / 8) (offset % 8) (8 - offset % 8) with
    | some p => p
    | none => s.scanBytes (offset / 8) ((n + 7) / 8 - offset / 8)

/-- How a call of `find_last_set` ends: with a position, with a read of `bits_`
outside the array, or with an overflow of the `int` that holds a position. -/
inductive Found where
  | pos (p : Int)
  | outside (index : Nat)
  | overflow
  deriving DecidableEq, Repr

/-- The bit loop over the partial byte.  Its variable is a `size_t`, the test
`bit >= 0` always holds, and only a position that is set ends it; `none` when
the turns do not suffice. -/
def FixedBitSet.scanPartial (s : FixedBitSet n) (c bit : Nat) : Nat → Option Int
  | 0 => none
  | turns + 1 =>
      if s.test ((c / 8 * 8 + bit) % sizeT) then some (toPos ((c / 8 * 8 + bit) % sizeT))
      else s.scanPartial c (diff bit 1) turns

def FixedBitSet.scanByteDown (s : FixedBitSet n) (i : Nat) : Nat → Option Found
  | 0 => none
  | bit + 1 =>
      if 2 ^ 31 ≤ i * 8 + bit then some .overflow
      else if s.test (i * 8 + bit) then some (.pos ((i * 8 + bit : Nat) : Int))
      else s.scanByteDown i bit

def FixedBitSet.scanBytesDown (s : FixedBitSet n) : Nat → Found
  | 0 => .pos npos
  | i + 1 =>
      match s.bits[i]? with
      | none => .outside i
      | some byte =>
          if byte ≠ 0 then
            match s.scanByteDown i 8 with
            | some found => found
            | none => s.scanBytesDown i
          else s.scanBytesDown i

/-- `none` when the turns do not suffice for the loop over the partial byte. -/
def FixedBitSet.findLastSet (s : FixedBitSet n) (offset turns : Nat) : Option Found :=
  if n ≤ offset then some (.pos npos)
  else
    let c := n - offset
    match s.bits[c / 8]? with
    | none => some (.outside (c / 8))
    | some byte =>
        if byte ≠ 0 then (s.scanPartial c (diff (c % 8) 1) turns).map .pos
        -- the byte number is cut to the 32 bits of `int i`
        else some (s.scanBytesDown (Int.bmod ((c / 8 : Nat) : Int) (2 ^ 32) + 1).toNat)

end NetTest.BitSet
