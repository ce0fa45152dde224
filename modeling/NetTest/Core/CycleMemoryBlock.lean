import NetTest.Lib.Memory
import NetTest.Lib.Runs
import NetTest.Lib.Wrapping

/-!
# The circular memory block

`cycle_memory_block.h`: bytes are to be appended at `_data_end` and removed at
`_data_start`, both wrapping at the end of the block.  `append` copies and leaves
`_data_end` where it is, and its copy into an unwrapped rest starts one byte late, so
nothing is ever stored.
-/

namespace NetTest

open Memory Runs Wrapping

/-- `cycle_memory_block`; pointers are offsets from `_begin`. -/
structure CycleMemoryBlock where
  bytes : Memory
  cap : Nat
  dataStart : Nat
  dataEnd : Nat

namespace CycleMemoryBlock

def size (b : CycleMemoryBlock) : Nat :=
  if b.dataEnd < b.dataStart then b.dataEnd + b.cap - b.dataStart else b.dataEnd - b.dataStart

def clear (b : CycleMemoryBlock) : CycleMemoryBlock := { b with dataStart := 0, dataEnd := 0 }

/-- The calls of `memcpy` in `append`, each with its destination. -/
def copies (b : CycleMemoryBlock) (data : List UInt8) : List (Nat × List UInt8) :=
  if b.cap < b.dataEnd + data.length then
    let cLen := b.cap - b.dataEnd
    [(b.dataEnd, data.take cLen), (0, data.drop cLen)]
  else [(b.dataEnd + 1, data)]

def append (b : CycleMemoryBlock) (data : List UInt8) : CycleMemoryBlock × Bool :=
  if diff b.cap b.size < data.length then (b, false)
  else
    let bytes := (b.copies data).foldl (fun m copy => store m copy.1 copy.2) b.bytes
    ({ b with bytes }, true)

/-- More than there is comes back here with all there is. -/
def pop (b : CycleMemoryBlock) (size : Nat) : CycleMemoryBlock :=
  let len := b.size
  if len < size then pop b len
  else if size = len then b.clear
  else if b.cap < b.dataStart + size then
    { b with dataStart := size - (b.cap - b.dataStart) }
  else { b with dataStart := b.dataStart + size }
termination_by size - b.size

/-! ## Calls -/

inductive Call where
  | append (data : List UInt8)
  | pop (size : Nat)

/-- The block and the bytes a FIFO of its capacity would hold. -/
structure World where
  block : CycleMemoryBlock
  stored : List UInt8

def init (bytes : Memory) (cap start stop : Nat) : World where
  block := clear { bytes, cap, dataStart := start, dataEnd := stop }
  stored := []

def step (w : World) : Call → World
  | .append data =>
      { block := (w.block.append data).1
        stored :=
          if data.length ≤ w.block.cap - w.stored.length then w.stored ++ data else w.stored }
  | .pop size =>
      { block := w.block.pop size, stored := w.stored.drop (min size w.stored.length) }

/-- `size()` bytes from `data()`, wrapping at `end()`. -/
def readable (b : CycleMemoryBlock) : List UInt8 :=
  (List.range b.size).map fun i => b.bytes ((b.dataStart + i) % b.cap)

structure Fifo (w : World) : Prop where
  size : w.block.size = w.stored.length
  contents : w.block.readable = w.stored

/-- `append` fails for want of space only, and writes inside the block. -/
def Answers (w : World) : Call → Prop
  | .append data =>
      ((w.block.append data).2 = false ↔ w.block.cap - w.block.size < data.length) ∧
        ((w.block.append data).2 = true → ∀ copy ∈ w.block.copies data,
          ∀ i < copy.2.length, copy.1 + i < w.block.cap)
  | .pop _ => True

def StoresNothing (cap : Nat) : Call → Prop
  | .append data => data = [] ∨ cap < data.length
  | .pop _ => True

/-! ## Steps -/

theorem append_eq_false_iff (b : CycleMemoryBlock) (data : List UInt8) :
    (b.append data).2 = false ↔ diff b.cap b.size < data.length := by
  rw [append]
  by_cases hlen : diff b.cap b.size < data.length
  · rw [if_pos hlen]
    exact ⟨fun _ => hlen, fun _ => rfl⟩
  · rw [if_neg hlen]
    exact ⟨fun h => absurd h Bool.noConfusion, fun h => absurd h hlen⟩

theorem append_positions (b : CycleMemoryBlock) (data : List UInt8) :
    ∃ bytes fits, b.append data = ({ b with bytes }, fits) := by
  rw [append]
  by_cases hlen : diff b.cap b.size < data.length
  · rw [if_pos hlen]
    exact ⟨b.bytes, false, rfl⟩
  · rw [if_neg hlen]
    exact ⟨_, true, rfl⟩

structure Fresh (cap : Nat) (b : CycleMemoryBlock) : Prop where
  cap_eq : b.cap = cap
  dataStart_eq : b.dataStart = 0
  dataEnd_eq : b.dataEnd = 0

variable {cap : Nat} {b : CycleMemoryBlock} {w : World}

theorem Fresh.size_eq (h : Fresh cap b) : b.size = 0 := by
  rw [size, h.dataStart_eq, h.dataEnd_eq, if_neg (Nat.lt_irrefl 0)]

theorem Fresh.room (h : Fresh cap b) (hcap : cap < sizeT) : diff b.cap b.size = cap := by
  rw [h.cap_eq, h.size_eq, diff_eq (Nat.zero_le cap) hcap, Nat.sub_zero]

theorem Fresh.pop (h : Fresh cap b) (n : Nat) : b.pop n = b.clear := by
  have hall : b.pop 0 = b.clear := by
    rw [CycleMemoryBlock.pop, h.size_eq]
    rfl
  by_cases hn : 0 < n
  · rw [CycleMemoryBlock.pop, h.size_eq]
    simp only [if_pos hn]
    exact hall
  · have hzero : n = 0 := by omega
    rw [hzero]
    exact hall

theorem Fresh.fifo (h : Fresh cap w.block) (hstored : w.stored = []) : Fifo w := by
  constructor
  · rw [h.size_eq, hstored, List.length_nil]
  · rw [readable, h.size_eq, hstored, List.range_zero, List.map_nil]

theorem Fresh.step (h : Fresh cap w.block) (call : Call) : Fresh cap (step w call).block := by
  cases call with
  | append data =>
      rcases append_positions w.block data with ⟨bytes, fits, heq⟩
      rw [CycleMemoryBlock.step, heq]
      exact ⟨h.cap_eq, h.dataStart_eq, h.dataEnd_eq⟩
  | pop n =>
      rw [CycleMemoryBlock.step, h.pop n]
      exact ⟨h.cap_eq, rfl, rfl⟩

theorem stored_append (h : Fresh cap w.block) (hstored : w.stored = []) (data : List UInt8) :
    (step w (.append data)).stored = if data.length ≤ cap then data else [] := by
  rw [step, hstored, h.cap_eq, List.length_nil, Nat.sub_zero, List.nil_append]

theorem stored_step (h : Fresh cap w.block) (hstored : w.stored = []) {call : Call}
    (hcall : StoresNothing cap call) : (step w call).stored = [] := by
  cases call with
  | append data =>
      rw [stored_append h hstored]
      rcases hcall with hnil | hlen
      · rw [hnil, ite_self]
      · exact if_neg (Nat.not_le.mpr hlen)
  | pop n =>
      rw [step, hstored]
      exact List.drop_nil

theorem answers_fresh (h : Fresh cap w.block) (hcap : cap < sizeT) {call : Call}
    (hcall : StoresNothing cap call) : Answers w call := by
  cases call with
  | pop n => trivial
  | append data =>
      rw [Answers, append_eq_false_iff, h.room hcap, h.cap_eq, h.size_eq, Nat.sub_zero]
      refine ⟨Iff.rfl, ?_⟩
      intro hfits copy hcopy i hi
      rcases hcall with hnil | hlen
      · rw [copies, h.dataEnd_eq, hnil, List.length_nil, Nat.zero_add,
          if_neg (Nat.not_lt_zero _), List.mem_singleton] at hcopy
        rw [hcopy] at hi
        exact absurd hi (Nat.not_lt_zero i)
      · have hfull := (append_eq_false_iff w.block data).mpr (by rw [h.room hcap]; exact hlen)
        rw [hfull] at hfits
        exact absurd hfits Bool.noConfusion

/-- Bytes that fit are lost: `size()` stays zero. -/
theorem not_fifo_append (h : Fresh cap w.block) (hstored : w.stored = []) {data : List UInt8}
    (hdata : ¬ StoresNothing cap (.append data)) : ¬ Fifo (step w (.append data)) := by
  have hlen : data.length ≤ cap := Nat.le_of_not_lt fun hlt => hdata (Or.inr hlt)
  intro hfifo
  have hsize := hfifo.size
  rw [stored_append h hstored, if_pos hlen, (h.step _).size_eq] at hsize
  exact hdata (Or.inl (List.eq_nil_of_length_eq_zero hsize.symm))

/-! ## Runs -/

/-- The block is a FIFO in the runs that never have anything to store, and in no
others. -/
theorem fifo_iff_stores_nothing (bytes : Memory) (cap start stop : Nat) (calls : List Call)
    (hcap : cap < sizeT) :
    (Always step Fifo (init bytes cap start stop) calls ∧
        Guarded step Answers (init bytes cap start stop) calls) ↔
      ∀ call ∈ calls, StoresNothing cap call := by
  have hmem : Guarded step (fun _ => StoresNothing cap) (init bytes cap start stop) calls ↔
      ∀ call ∈ calls, StoresNothing cap call := guarded_iff_mem
  rw [← hmem]
  apply always_guarded_iff (fun w => Fresh cap w.block ∧ w.stored = []) (fun _ _ => True) Answers
  · intro w h
    exact h.1.fifo h.2
  · intro w call h _ hcall
    exact ⟨⟨h.1.step call, stored_step h.1 h.2 hcall⟩, answers_fresh h.1 hcap hcall⟩
  · intro w call h _ hcall _
    cases call with
    | append data => exact not_fifo_append h.1 h.2 hcall
    | pop n => exact absurd trivial hcall
  · exact ⟨⟨rfl, rfl, rfl⟩, rfl⟩
  · exact guarded_of_forall (fun _ _ => trivial) _ _

/-- An append of nothing, one that does not fit and a removal. -/
theorem fifo_iff_stores_nothing_four :
    (Always step Fifo (init (fun _ => 0) 4 0 0) [.append [], .append [1, 2, 3, 4, 5], .pop 2] ∧
        Guarded step Answers (init (fun _ => 0) 4 0 0)
          [.append [], .append [1, 2, 3, 4, 5], .pop 2]) ↔
      ∀ call ∈ [Call.append [], .append [1, 2, 3, 4, 5], .pop 2], StoresNothing 4 call :=
  fifo_iff_stores_nothing (fun _ => 0) 4 0 0 _ (by decide)

/-- Four bytes into a block of four: `append` succeeds, its last byte is written behind
the block, and `size()` is zero. -/
theorem append_lost :
    ¬ ∀ (bytes : Memory) (cap start stop : Nat) (calls : List Call), cap < sizeT →
      Always step Fifo (init bytes cap start stop) calls ∧
        Guarded step Answers (init bytes cap start stop) calls := by
  intro h
  have hfresh : Fresh 4 (init (fun _ => 0) 4 0 0).block := ⟨rfl, rfl, rfl⟩
  have hstores : ¬ StoresNothing 4 (.append [1, 2, 3, 4]) := by
    rintro (hnil | hlen)
    · exact List.cons_ne_nil _ _ hnil
    · exact Nat.lt_irrefl 4 hlen
  have hrun := (h (fun _ => 0) 4 0 0 [.append [1, 2, 3, 4]] (by decide)).1
  exact not_fifo_append hfresh rfl hstores hrun.2.head

end CycleMemoryBlock

end NetTest
