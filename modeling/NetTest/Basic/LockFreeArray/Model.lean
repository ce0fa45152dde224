import NetTest.Lib.Wrapping
import Mathlib.Logic.Function.Basic

/-!
# The lock-free array

`lock_free_array.h`: three free-running `size_t` counters over an array of `N`
slots.  A push reserves the slot of the write counter, stores its element and
publishes it by moving `max_num_read_index`; a pop looks at the read and write
counters only.

This module has the operations as one thread runs them, where every
compare-and-swap finds what it expects.  The atomic steps of many threads are in
`LockFreeArray.Concurrent`.
-/

namespace NetTest.LockFree

open Wrapping

variable {α : Type*}

structure LockFreeArray (α : Type*) where
  writeIndex : Nat
  readIndex : Nat
  maxNumReadIndex : Nat
  queue : Nat → α

/-- The counters start at zero and the slots are whatever they were. -/
def create (queue : Nat → α) : LockFreeArray α :=
  { writeIndex := 0, readIndex := 0, maxNumReadIndex := 0, queue := queue }

/-- The `static_assert` of the class, which lets through what it means to
exclude: `N & (N - 1)` is zero for the powers of two. -/
def Admits (n : Nat) : Prop := n &&& (n - 1) ≠ 0

instance (n : Nat) : Decidable (Admits n) := inferInstanceAs (Decidable (_ ≠ _))

def index (n count : Nat) : Nat := count &&& (n - 1)

def next (count : Nat) : Nat := (count + 1) % sizeT

def empty (a : LockFreeArray α) : Bool := a.readIndex == a.writeIndex

def size (n : Nat) (a : LockFreeArray α) : Nat :=
  (diff a.writeIndex a.readIndex + n) % sizeT &&& (n - 1)

/-- `none` stands for a push that waits for its turn to publish and never gets
it. -/
def push (n : Nat) (a : LockFreeArray α) (data : α) : Option (LockFreeArray α × Bool) :=
  if index n (next a.writeIndex) = index n a.readIndex then some (a, false)
  else
    let a' := { a with
      writeIndex := next a.writeIndex
      queue := Function.update a.queue (index n a.writeIndex) data }
    if a'.maxNumReadIndex = a.writeIndex then
      some ({ a' with maxNumReadIndex := next a.writeIndex }, true)
    else none

def tryPop (n : Nat) (a : LockFreeArray α) : LockFreeArray α × Option α :=
  if empty a then (a, none)
  else ({ a with readIndex := next a.readIndex }, some (a.queue (index n a.readIndex)))

/-! ## Powers of two -/

theorem index_two_pow (k count : Nat) : index (2 ^ k) count = count % 2 ^ k :=
  Nat.and_two_pow_sub_one_eq_mod count k

theorem two_pow_dvd_sizeT {k : Nat} (hk : k ≤ 63) : 2 ^ k ∣ sizeT :=
  Nat.pow_dvd_pow 2 (by omega)

theorem two_pow_lt_sizeT {k : Nat} (hk : k ≤ 63) : 2 ^ k < sizeT :=
  Nat.pow_lt_pow_right (by decide) (by omega)

theorem mod_sizeT_mod {k : Nat} (hk : k ≤ 63) (count : Nat) :
    count % sizeT % 2 ^ k = count % 2 ^ k :=
  Nat.mod_mod_of_dvd count (two_pow_dvd_sizeT hk)

/-! ## Runs of one thread -/

inductive Op (α : Type*) where
  | push (data : α)
  | tryPop

/-- The array, and the elements it holds with the counter each was pushed at,
oldest first. -/
structure Solo (α : Type*) where
  array : LockFreeArray α
  held : List (Nat × α)

def Solo.create (queue : Nat → α) : Solo α :=
  { array := LockFree.create queue, held := [] }

def soloStep (n : Nat) (s : Solo α) : Op α → Solo α
  | .push data =>
      match push n s.array data with
      | some (a, true) => { array := a, held := s.held ++ [(s.array.writeIndex, data)] }
      | some (a, false) => { s with array := a }
      | none => s
  | .tryPop =>
      match tryPop n s.array with
      | (a, some _) => { array := a, held := s.held.tail }
      | (a, none) => { s with array := a }

end NetTest.LockFree
