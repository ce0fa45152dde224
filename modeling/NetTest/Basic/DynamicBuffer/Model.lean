import NetTest.Lib.Memory
import NetTest.Lib.Stride

/-!
# The growing buffer

`dynamic_buffer.h`: `size_` bytes at the start of an allocation of `capacity_` bytes,
which grows in steps of `expand_size_`.  `head_` shifts what the readers see, and
only them.
-/

namespace NetTest

open Wrapping

structure DynamicBuffer where
  capacity : Nat
  size : Nat
  head : Nat
  /-- The allocation, with its offsets; none before the first one. -/
  data : Option Memory
  expandSize : Nat

namespace DynamicBuffer

/-- `DynamicBufferr()`. -/
def create : DynamicBuffer :=
  { capacity := 0, size := 0, head := 0, data := none, expandSize := 256 }

def load (s : DynamicBuffer) (offset count : Nat) : List UInt8 :=
  match s.data with
  | some m => m.load offset count
  | none => []

/-- What comes of a call: the buffer and the stretches of the allocation that were
written. -/
inductive Outcome where
  | done (s : DynamicBuffer) (writes : List Region)
  /-- `new` throws. -/
  | thrown
  /-- A loop does not end. -/
  | running

/-- The loop of `reserve`. -/
def allocateSize (s : DynamicBuffer) (size : Nat) : Option Nat :=
  Stride.climb sizeT s.expandSize size sizeT s.capacity

/-- `fresh` is the memory that `new` returns. -/
def reserve (s : DynamicBuffer) (size : Nat) (fresh : Option Memory) : Outcome :=
  if size ≤ s.capacity then .done s []
  else
    match s.allocateSize size with
    | none => .running
    | some allocate =>
        match fresh with
        | none => .thrown
        | some fresh =>
            .done
              { s with
                data := some ((fresh.store 0 (s.load 0 s.size)).store (allocate - 1) [0])
                capacity := allocate }
              [⟨0, s.size⟩, ⟨allocate - 1, 1⟩]

def resize (s : DynamicBuffer) (size : Nat) (fresh : Option Memory) : Outcome :=
  match s.reserve size fresh with
  | .done s writes => .done { s with size := size } writes
  | outcome => outcome

def append (s : DynamicBuffer) (data : List UInt8) (fresh : Option Memory) : Outcome :=
  match s.reserve ((s.size + data.length) % sizeT) fresh with
  | .done s writes =>
      .done
        { s with
          data := s.data.map fun m => m.store s.size data
          size := (s.size + data.length) % sizeT }
        (writes ++ [⟨s.size, data.length⟩])
  | outcome => outcome

def setExpandSize (s : DynamicBuffer) (size : Nat) : DynamicBuffer := { s with expandSize := size }

def setHeadSize (s : DynamicBuffer) (head : Nat) : DynamicBuffer := { s with head := head }

def clear (s : DynamicBuffer) (resetCapacity : Bool) : DynamicBuffer :=
  if resetCapacity && s.data.isSome then
    { s with size := 0, head := 0, capacity := 0, data := none }
  else { s with size := 0, head := 0 }

/-! ## Readers -/

def toString (s : DynamicBuffer) : Region × List UInt8 := (⟨s.head, s.size⟩, s.load s.head s.size)

/-- What `as<T>()` gives access to; `none` is a null pointer. -/
def as (s : DynamicBuffer) (sizeofT : Nat) : Option Region :=
  if s.size < sizeofT then none else some ⟨s.head, sizeofT⟩

/-! ## Runs -/

inductive Op where
  | append (data : List UInt8) (fresh : Option Memory)
  | reserve (size : Nat) (fresh : Option Memory)
  | resize (size : Nat) (fresh : Option Memory)
  | setExpandSize (size : Nat)
  | clear (resetCapacity : Bool)

def call (s : DynamicBuffer) : Op → Outcome
  | .append data fresh => s.append data fresh
  | .reserve size fresh => s.reserve size fresh
  | .resize size fresh => s.resize size fresh
  | .setExpandSize size => .done (s.setExpandSize size) []
  | .clear resetCapacity => .done (s.clear resetCapacity) []

def step (s : DynamicBuffer) (op : Op) : DynamicBuffer :=
  match s.call op with
  | .done s _ => s
  | _ => s

end DynamicBuffer

end NetTest
