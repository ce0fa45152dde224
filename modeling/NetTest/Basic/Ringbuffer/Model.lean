import NetTest.Lib.Wrapping
import Mathlib.Logic.Function.Basic

/-!
# The ring buffer

`ringbuffer.hpp`: a buffer of a power-of-two size between one producer, which
moves `head`, and one consumer, which moves `tail`.  The two indexes run freely
modulo the range of `index_t` and are masked where they name a slot.

This module has the template arguments with the assertions on them, and the
operations as each side runs them while the other one rests.  The steps of both
sides at once are in `Ringbuffer.Concurrent`.
-/

namespace NetTest.Spsc

open Wrapping

variable {α : Type*}

/-- The template arguments that the operations read, with what the
`static_assert`s check.  `index_t` has `indexBits` bits, and `buffer_mask` is
`buffer_size - 1` cut to it. -/
structure Params where
  bufferSize : Nat
  indexBits : Nat
  bufferSize_lt : bufferSize < sizeT
  indexBits_ge : 8 ≤ indexBits
  indexBits_le : indexBits ≤ 64
  size_ne_zero : bufferSize ≠ 0
  size_and_mask : bufferSize &&& (bufferSize - 1) % 2 ^ indexBits = 0
  mask_le : (bufferSize - 1) % 2 ^ indexBits ≤ (2 ^ indexBits - 1) >>> 1

def Params.defaults : Params where
  bufferSize := 16
  indexBits := 64
  bufferSize_lt := by decide
  indexBits_ge := by decide
  indexBits_le := by decide
  size_ne_zero := by decide
  size_and_mask := by decide
  mask_le := by decide

def Params.indexT (p : Params) : Nat := 2 ^ p.indexBits

def Params.bufferMask (p : Params) : Nat := (p.bufferSize - 1) % p.indexT

structure Ringbuffer (α : Type*) where
  head : Nat
  tail : Nat
  dataBuff : Nat → α

/-- The indexes start at zero and the slots are whatever they were. -/
def create (dataBuff : Nat → α) : Ringbuffer α :=
  { head := 0, tail := 0, dataBuff := dataBuff }

variable (p : Params)

/-- `a - b` of two `index_t` values, where it meets a `size_t`.  Types narrower
than `int` are promoted to `int` first. -/
def gap (a b : Nat) : Nat :=
  if p.indexBits < 32 then diff a b else (a + p.indexT - b) % p.indexT

def slot (index : Nat) : Nat := index &&& p.bufferMask

/-- `index + 1` as an `index_t`. -/
def next (index : Nat) : Nat := (index + 1) % p.indexT

/-- `head - tail`, stored in an `index_t`. -/
def unread (head tail : Nat) : Nat := gap p head tail % p.indexT

/-- `buffer_size - (head - tail)`, stored in an `index_t`. -/
def unwritten (head tail : Nat) : Nat := diff p.bufferSize (gap p head tail) % p.indexT

def readAvailable (r : Ringbuffer α) : Nat := unread p r.head r.tail

def writeAvailable (r : Ringbuffer α) : Nat := unwritten p r.head r.tail

def isEmpty (r : Ringbuffer α) : Bool := readAvailable p r == 0

def isFull (r : Ringbuffer α) : Bool := writeAvailable p r == 0

/-! ## The side of the producer -/

def insert (r : Ringbuffer α) (data : α) : Ringbuffer α × Bool :=
  if gap p r.head r.tail = p.bufferSize then (r, false)
  else
    ({ r with
      dataBuff := Function.update r.dataBuff (slot p r.head) data
      head := next p r.head }, true)

/-- `data_buff[tmp_head++ & buffer_mask] = buff[i]` for the elements of `buff`. -/
def copyIn (cells : Nat → α) (tmpHead : Nat) : List α → (Nat → α) × Nat
  | [] => (cells, tmpHead)
  | x :: rest => copyIn (Function.update cells (slot p tmpHead) x) (next p tmpHead) rest

def clip (count available : Nat) : Nat := if count > available then available else count

def writeBuff (r : Ringbuffer α) (buff : List α) : Ringbuffer α × Nat :=
  let toWrite := clip buff.length (writeAvailable p r)
  let copied := copyIn p r.dataBuff r.head (buff.take toWrite)
  ({ r with dataBuff := copied.1, head := copied.2 }, toWrite)

/-! ## The side of the consumer -/

/-- `remove()`, which drops an element unread. -/
def removeOne (r : Ringbuffer α) : Ringbuffer α × Bool :=
  if r.tail = r.head then (r, false) else ({ r with tail := next p r.tail }, true)

/-- `remove(cnt)`, which drops up to `cnt` elements unread. -/
def removeCount (r : Ringbuffer α) (cnt : Nat) : Ringbuffer α × Nat :=
  let cnt := clip cnt (readAvailable p r)
  ({ r with tail := (r.tail + cnt) % sizeT % p.indexT }, cnt)

def remove (r : Ringbuffer α) : Ringbuffer α × Option α :=
  if r.tail = r.head then (r, none)
  else ({ r with tail := next p r.tail }, some (r.dataBuff (slot p r.tail)))

def elementAt (r : Ringbuffer α) (index : Nat) : Option Nat :=
  if gap p r.head r.tail ≤ index then none else some (slot p ((r.tail + index) % sizeT))

def peek (r : Ringbuffer α) : Option Nat :=
  if r.tail = r.head then none else some (slot p r.tail)

/-- `buff[i] = data_buff[tmp_tail++ & buffer_mask]`, as often as `toRead` says. -/
def copyOut (cells : Nat → α) (tmpTail : Nat) : Nat → List α × Nat
  | 0 => ([], tmpTail)
  | toRead + 1 =>
      let rest := copyOut cells (next p tmpTail) toRead
      (cells (slot p tmpTail) :: rest.1, rest.2)

def readBuff (r : Ringbuffer α) (count : Nat) : Ringbuffer α × List α :=
  let toRead := clip count (readAvailable p r)
  let copied := copyOut p r.dataBuff r.tail toRead
  ({ r with tail := copied.2 }, copied.1)

def consumerClear (r : Ringbuffer α) : Ringbuffer α := { r with tail := r.head }

/-! ## Template arguments that work -/

/-- `index_t` is not promoted and can count the slots. -/
def Params.Counts (p : Params) : Prop := 32 ≤ p.indexBits ∧ p.bufferSize < p.indexT

instance (p : Params) : Decidable p.Counts := inferInstanceAs (Decidable (_ ∧ _))

end NetTest.Spsc
