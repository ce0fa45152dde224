import Mathlib.Logic.Function.Basic

/-!
# The pool-backed queue

`ngx_queue.cpp`: an array of `nalloc` slots behind one header, with two
positions that are folded back to slot zero only when they are next used.  A
slot holds one value; the byte size of a slot only scales addresses, so a slot
is named here by its index.  Queue pointers are non-null: every caller passes
the queue it created.
-/

namespace NetTest.Queue

variable {α : Type*}

/-- `ngx_queue_s`: the slots behind `elts`, and the `head` and `end` positions. -/
structure NgxQueue (α : Type*) where
  elts : Nat → α
  nalloc : Nat
  head : Nat
  tail : Nat

/-- The slots of a new queue are whatever the pool memory held. -/
def ngxCreateQueue (memory : Nat → α) (n : Nat) : NgxQueue α :=
  { elts := memory, nalloc := n, head := 0, tail := 0 }

/-- The field the source calls `end` is `tail` here. -/
def ngxQueueSize (q : NgxQueue α) : Nat :=
  if q.tail < q.head then q.tail + q.nalloc - q.head else q.tail - q.head

def ngxQueueEmpty (q : NgxQueue α) : Bool := q.tail == q.head

/-- Returns the slot of the removed element; the slot itself is not cleared. -/
def ngxQueueGet (q : NgxQueue α) : NgxQueue α × Option Nat :=
  if ngxQueueEmpty q then (q, none)
  else
    let head := if q.nalloc ≤ q.head then 0 else q.head
    ({ q with head := head + 1 }, some head)

def ngxQueuePush (q : NgxQueue α) (val : α) : NgxQueue α × Bool :=
  if q.nalloc = ngxQueueSize q then (q, false)
  else
    let slot := if q.nalloc ≤ q.tail then 0 else q.tail
    ({ q with elts := Function.update q.elts slot val, tail := slot + 1 }, true)

end NetTest.Queue
