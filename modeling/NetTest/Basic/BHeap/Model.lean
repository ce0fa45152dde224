import Mathlib.Data.List.Basic
import NetTest.Lib.BinaryHeap

/-!
# The binary heap with handles

`bheap.h`: `heap_` is an array of pointers to contexts, and every context knows
its own position.  Contexts live in `ctx`, which is empty at an address that
holds no allocated context.  The two exceptions of the class are separate from
`badAccess`, which stands for a read outside `heap_` or through a pointer to no
context.
-/

namespace NetTest

abbrev BHeap.Ptr := Nat

structure BHeap.Context (α : Type) where
  idx : Nat
  val : α

structure BHeap (α : Type) where
  heap : List BHeap.Ptr
  ctx : BHeap.Ptr → Option (BHeap.Context α)

namespace BHeap

variable {α : Type}

inductive Fault where
  | badAccess
  | runtimeError (what : String)
  deriving DecidableEq

def empty : BHeap α := ⟨[], fun _ => none⟩

def size (h : BHeap α) : Nat := h.heap.length

def context (h : BHeap α) (i : Nat) : Except Fault (Ptr × Context α) :=
  match h.heap[i]? with
  | none => .error .badAccess
  | some p =>
      match h.ctx p with
      | none => .error .badAccess
      | some c => .ok (p, c)

/-- `comp_(heap_[i]->val, heap_[j]->val)`. -/
def less (comp : α → α → Bool) (h : BHeap α) (i j : Nat) : Except Fault Bool := do
  let ci ← h.context i
  let cj ← h.context j
  return comp ci.2.val cj.2.val

/-- The two exchanges that move an element: of the pointers `heap_[i]` and
`heap_[j]`, and then of the `idx` fields behind them. -/
def swapSlots (h : BHeap α) (i j : Nat) : Except Fault (BHeap α) := do
  let ci ← h.context i
  let cj ← h.context j
  return {
    heap := (h.heap.set i cj.1).set j ci.1
    ctx := Function.update
      (Function.update h.ctx cj.1 (some { cj.2 with idx := ci.2.idx }))
      ci.1 (some { ci.2 with idx := cj.2.idx }) }

/-- At `idx = 0` the parent position wraps around; the loop test stops before
reading it. -/
def siftUp (comp : α → α → Bool) (h : BHeap α) (idx : Nat) : Except Fault (BHeap α) :=
  if hidx : idx = 0 then .ok h
  else do
    let parent := (idx - 1) / 2
    if ← h.less comp parent idx then
      let h' ← h.swapSlots parent idx
      siftUp comp h' parent
    else
      return h
termination_by idx
decreasing_by omega

/-- One of the two tests of the loop body: take `child` if it exists and the
element at `largest` compares below it. -/
def pickLarger (comp : α → α → Bool) (h : BHeap α) (size largest child : Nat) :
    Except Fault Nat :=
  if child < size then do
    if ← h.less comp largest child then return child else return largest
  else
    return largest

/-- The position the loop body of `sift_down` calls `largest`. -/
def largestOf (comp : α → α → Bool) (h : BHeap α) (size idx : Nat) : Except Fault Nat := do
  let left := 2 * idx + 1
  let right := 2 * idx + 2
  let largest ← pickLarger comp h size idx left
  pickLarger comp h size largest right

theorem pickLarger_cases {comp : α → α → Bool} {h : BHeap α} {size largest child r : Nat}
    (hr : h.pickLarger comp size largest child = .ok r) :
    r = largest ∨ (r = child ∧ child < size) := by
  unfold pickLarger at hr
  split at hr
  · rename_i hchild
    cases hless : h.less comp largest child with
    | error e => simp [hless, bind, Except.bind] at hr
    | ok b => cases b <;> simp_all [bind, Except.bind, pure, Except.pure]
  · cases hr
    exact Or.inl rfl

/-- A position other than `idx` is one of its children inside the array. -/
theorem largestOf_cases {comp : α → α → Bool} {h : BHeap α} {size idx largest : Nat}
    (hl : h.largestOf comp size idx = .ok largest) :
    largest = idx ∨ (idx < largest ∧ largest < size ∧ BinaryHeap.parent largest = idx) := by
  unfold largestOf at hl
  cases hleft : h.pickLarger comp size idx (2 * idx + 1) with
  | error e => simp [hleft, bind, Except.bind] at hl
  | ok l =>
      simp only [hleft, bind, Except.bind] at hl
      rcases pickLarger_cases hl with rfl | ⟨rfl, hright⟩
      · rcases pickLarger_cases hleft with rfl | ⟨rfl, hlt⟩
        · exact Or.inl rfl
        · exact Or.inr ⟨by omega, hlt, BinaryHeap.parent_left idx⟩
      · exact Or.inr ⟨by omega, hright, BinaryHeap.parent_right idx⟩

/-- One call of `sift_down`, entered with `size = heap_.size()`.  The recursive
call and the next round of the loop both start at `largest`. -/
def siftDownFrom (comp : α → α → Bool) (size : Nat) (h : BHeap α) (idx : Nat) :
    Except Fault (BHeap α) :=
  match _ : h.largestOf comp size idx with
  | .error e => .error e
  | .ok largest =>
      if _ : largest = idx then .ok h
      else do
        let swapped ← h.swapSlots largest idx
        let sunk ← siftDownFrom comp size swapped largest
        siftDownFrom comp size sunk largest
termination_by size - idx
decreasing_by
  all_goals
    have hl : h.largestOf comp size idx = .ok largest := by assumption
    rcases largestOf_cases hl with heq | hchild
    · contradiction
    · omega

def siftDown (comp : α → α → Bool) (h : BHeap α) (idx : Nat) : Except Fault (BHeap α) :=
  siftDownFrom comp h.size h idx

/-- `context` is the address `new` returned. -/
def insert (comp : α → α → Bool) (h : BHeap α) (t : α) (context : Ptr) :
    Except Fault (BHeap α) :=
  let h' : BHeap α := {
    heap := h.heap ++ [context]
    ctx := Function.update h.ctx context (some ⟨h.size, t⟩) }
  siftUp comp h' (h'.size - 1)

/-- `delete heap_[size() - 1]; heap_.pop_back();` -/
def dropLast (h : BHeap α) : Except Fault (BHeap α) := do
  let last ← h.context (h.size - 1)
  return { heap := h.heap.dropLast, ctx := Function.update h.ctx last.1 none }

def erase (comp : α → α → Bool) (h : BHeap α) (idx : Nat) : Except Fault (BHeap α) :=
  if h.size ≤ idx then
    .error (.runtimeError "erase idx invalid(exceed size)")
  else do
    let swapped ← h.swapSlots idx (h.size - 1)
    let rest ← swapped.dropLast
    if idx < rest.size then
      if ← rest.less comp idx (rest.size - 1) then rest.siftUp comp idx
      else rest.siftDown comp idx
    else
      return rest

def top (h : BHeap α) : Except Fault α :=
  if h.size = 0 then .error (.runtimeError "bheap is empty.")
  else do
    let c ← h.context 0
    return c.2.val

def pop (comp : α → α → Bool) (h : BHeap α) : Except Fault (α × BHeap α) :=
  if h.size = 0 then .error (.runtimeError "pop empty binary heap")
  else do
    let c ← h.context 0
    let h' ← h.erase comp 0
    return (c.2.val, h')

end BHeap

end NetTest
