import NetTest.Lib.Wrapping

/-!
# The staging buffer

`staging_buffer.h`: a byte FIFO over `storage_[N]`.  Pointers into the storage
are offsets from its start.  The producer allocates behind its position and
wraps to the start when the end is too near, after noting in `end_of_record_`
where the record stops; the consumer position only moves back to the start in
`peek`, which `allocate` calls.  `num_allocates_` is written and never read, and
left out.
-/

namespace NetTest.Staging

open Wrapping

structure StagingBuffer where
  producerPos : Nat
  consumerPos : Nat
  endOfRecord : Nat
  minFreeSpace : Nat
  deriving DecidableEq, Repr

def create (n : Nat) : StagingBuffer :=
  { minFreeSpace := n, consumerPos := 0, producerPos := 0, endOfRecord := n }

/-- The second component is what `byte_available` is set to; the pointer that is
returned is the new consumer position. -/
def peek (s : StagingBuffer) : StagingBuffer × Nat :=
  if s.producerPos < s.consumerPos then
    if 0 < diff s.endOfRecord s.consumerPos then (s, diff s.endOfRecord s.consumerPos)
    else ({ s with consumerPos := 0 }, s.producerPos)
  else (s, diff s.producerPos s.consumerPos)

inductive Pass where
  | leave
  | giveUp
  | again

def endPass (size : Nat) (blocking : Bool) (s : StagingBuffer) : StagingBuffer × Pass :=
  if blocking = false ∧ s.minFreeSpace ≤ size then (s, .giveUp) else ((peek s).1, .again)

def pass (n size : Nat) (blocking : Bool) (s : StagingBuffer) : StagingBuffer × Pass :=
  if s.consumerPos ≤ s.producerPos then
    let s := { s with minFreeSpace := diff n s.producerPos }
    if size < s.minFreeSpace then (s, .leave)
    else
      let s := { s with endOfRecord := s.producerPos }
      if s.consumerPos ≠ 0 then
        endPass size blocking { s with producerPos := 0, minFreeSpace := diff s.consumerPos 0 }
      else endPass size blocking s
  else endPass size blocking { s with minFreeSpace := diff s.consumerPos s.producerPos }

/-- The loop: `true` when there is room, `false` when it gives up, `none` when
the passes do not suffice. -/
def allocateLoop (n size : Nat) (blocking : Bool) : Nat → StagingBuffer →
    Option (StagingBuffer × Bool)
  | 0, s => if size < s.minFreeSpace then some (s, true) else none
  | passes + 1, s =>
      if size < s.minFreeSpace then some (s, true)
      else
        match pass n size blocking s with
        | (s, .leave) => some (s, true)
        | (s, .giveUp) => some (s, false)
        | (s, .again) => allocateLoop n size blocking passes s

def allocate (n size : Nat) (blocking : Bool) (passes : Nat) (s : StagingBuffer) :
    Option (StagingBuffer × Option Nat) :=
  match allocateLoop n size blocking passes s with
  | none => none
  | some (s, false) => some (s, none)
  | some (s, true) =>
      some ({ s with
        minFreeSpace := diff s.minFreeSpace size
        producerPos := s.producerPos + size }, some s.producerPos)

def deallocate (size : Nat) (s : StagingBuffer) : StagingBuffer :=
  { s with consumerPos := s.consumerPos + size }

theorem allocateLoop_of_room {n size passes : Nat} {blocking : Bool} {s : StagingBuffer}
    (hroom : size < s.minFreeSpace) :
    allocateLoop n size blocking passes s = some (s, true) := by
  cases passes with
  | zero => exact if_pos hroom
  | succ passes => exact if_pos hroom

/-! ## A call that does not block -/

/-- A pass that goes on has found room, unless the call may block. -/
theorem endPass_again {size : Nat} {s s' : StagingBuffer}
    (h : endPass size false s = (s', .again)) : size < s'.minFreeSpace := by
  unfold endPass at h
  split at h
  · cases h
  · rename_i hroom
    cases h
    have hlt : size < s.minFreeSpace := Nat.not_le.mp fun hle => hroom ⟨rfl, hle⟩
    unfold peek
    split
    · split <;> exact hlt
    · exact hlt

theorem pass_again {n size : Nat} {s s' : StagingBuffer}
    (h : pass n size false s = (s', .again)) : size < s'.minFreeSpace := by
  unfold pass at h
  split at h
  · simp only at h
    split at h
    · cases h
    · split at h <;> exact endPass_again h
  · exact endPass_again h

theorem allocateLoop_nonblocking (n size passes : Nat) (s : StagingBuffer) :
    ∃ r, allocateLoop n size false (passes + 1) s = some r := by
  by_cases hroom : size < s.minFreeSpace
  · exact ⟨_, allocateLoop_of_room hroom⟩
  · rw [allocateLoop, if_neg hroom]
    cases hpass : pass n size false s with
    | mk s' ending =>
        cases ending with
        | leave => exact ⟨_, rfl⟩
        | giveUp => exact ⟨_, rfl⟩
        | again => exact ⟨_, allocateLoop_of_room (pass_again hpass)⟩

theorem allocate_nonblocking (n size passes : Nat) (s : StagingBuffer) :
    ∃ r, allocate n size false (passes + 1) s = some r := by
  rcases allocateLoop_nonblocking n size passes s with ⟨⟨s', ok⟩, hloop⟩
  cases ok with
  | true => exact ⟨_, by simp only [allocate, hloop]; rfl⟩
  | false => exact ⟨_, by simp only [allocate, hloop]; rfl⟩

end NetTest.Staging
