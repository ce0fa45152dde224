import NetTest.Basic.DynamicBuffer.Model

/-!
# Where growth ends

The loop of `reserve` adds `expand_size_` modulo `2^64`.  It passes by a size that no
multiple of the step hits, and `set_expand_size` takes any step, zero included.
-/

namespace NetTest.DynamicBuffer

open Wrapping

variable {s : DynamicBuffer} {size : Nat}

/-- The loop ends with an allocation that is large enough. -/
def Grows (s : DynamicBuffer) (size : Nat) : Prop :=
  ∃ turns allocate, Stride.climb sizeT s.expandSize size turns s.capacity = some allocate ∧
    size ≤ allocate

/-- The greatest allocation that the steps can come to. -/
def maxAllocate (capacity expandSize : Nat) : Nat :=
  sizeT - Nat.gcd expandSize sizeT + capacity % Nat.gcd expandSize sizeT

theorem grows_iff (hcapacity : s.capacity < sizeT) :
    Grows s size ↔ size ≤ maxAllocate s.capacity s.expandSize := by
  have hpos : 0 < sizeT := by decide
  exact (Stride.climb_iff hcapacity s.expandSize size).trans
    (Stride.exists_le_iff hpos s.expandSize s.capacity size)

theorem allocateSize_eq_none_iff (hcapacity : s.capacity < sizeT) :
    s.allocateSize size = none ↔ ¬ Grows s size := by
  constructor
  · intro h hgrows
    rcases hgrows with ⟨turns, allocate, hloop, _⟩
    have henough := Stride.climb_enough hcapacity hloop
    rw [allocateSize, henough] at h
    cases h
  · intro h
    cases hloop : s.allocateSize size with
    | none => rfl
    | some allocate =>
        rcases Stride.first_of_climb hcapacity hloop with ⟨_, _, hle, _⟩
        exact absurd ⟨sizeT, allocate, hloop, hle⟩ h

/-- `reserve` hangs for the sizes that its loop does not reach. -/
theorem reserve_running_iff (hcapacity : s.capacity < sizeT) (fresh : Option Memory) :
    s.reserve size fresh = .running ↔
      s.capacity < size ∧ maxAllocate s.capacity s.expandSize < size := by
  rw [reserve]
  by_cases hle : size ≤ s.capacity
  · rw [if_pos hle]
    constructor
    · intro h
      cases h
    · intro h
      omega
  · rw [if_neg hle]
    cases hloop : s.allocateSize size with
    | none =>
        rw [allocateSize_eq_none_iff hcapacity, grows_iff hcapacity] at hloop
        exact iff_of_true rfl ⟨Nat.lt_of_not_le hle, Nat.lt_of_not_le hloop⟩
    | some allocate =>
        have hgrows : Grows s size := by
          by_contra hnot
          rw [(allocateSize_eq_none_iff hcapacity).mpr hnot] at hloop
          cases hloop
        have hmax := (grows_iff hcapacity).mp hgrows
        constructor
        · intro h
          cases fresh with
          | none => cases h
          | some fresh => cases h
        · intro h
          omega

/-- With every step that `set_expand_size` accepts, growth ends exactly for the sizes
up to the greatest one that agrees with the capacity modulo the greatest common
divisor of the step and `2^64`. -/
theorem growth_ends_iff (s : DynamicBuffer) (expandSize size : Nat)
    (hcapacity : s.capacity < sizeT) :
    Grows (s.setExpandSize expandSize) size ↔ size ≤ maxAllocate s.capacity expandSize := by
  have hsame : (s.setExpandSize expandSize).capacity < sizeT := hcapacity
  exact grows_iff hsame

theorem growth_ends_iff_default :
    Grows (create.setExpandSize 256) 1000 ↔ 1000 ≤ maxAllocate 0 256 :=
  growth_ends_iff create 256 1000 (by decide)

/-- With the step zero `reserve(1)` never returns, and half of all sizes are out of
reach of the step `2^63`. -/
theorem growth_never_ends :
    ¬ Grows (create.setExpandSize 0) 1 ∧ ¬ Grows (create.setExpandSize (2 ^ 63)) (2 ^ 63 + 1) ∧
      (create.setExpandSize 0).reserve 1 none = .running := by
  have hzero : create.capacity < sizeT := by decide
  have hsame : (create.setExpandSize 0).capacity < sizeT := hzero
  refine ⟨?_, ?_, ?_⟩
  · rw [grows_iff hsame]
    decide
  · rw [grows_iff (s := create.setExpandSize (2 ^ 63)) hzero]
    decide
  · rw [reserve_running_iff hsame]
    decide

end NetTest.DynamicBuffer
