import Mathlib.Data.List.Nodup
import Mathlib.Data.List.Perm.Basic
import NetTest.Core.Pool.Model
import NetTest.Lib.Runs

/-!
# The slot allocator

`allocator.h`: one block from `malloc` is cut into `N` slots of `sizeof(T)` bytes, which
wait in a queue.  A pointer is its address, zero the null pointer.  The constructor and
the destructor of `T` are taken to return and to leave the allocator alone.
-/

namespace NetTest.Allocator

open Pool Runs

def slot (sizeofT buffer i : Nat) : Nat := buffer + i * sizeofT

/-- The loop of the constructor, `none` after so many turns without leaving it.  Its
index is an `unsigned int`. -/
def fill (sizeofT n buffer : Nat) : Nat → Nat → List Nat → Option (List Nat)
  | 0, _, _ => none
  | turns + 1, i, memPool =>
      if i < n then
        fill sizeofT n buffer turns (succUint i) (memPool ++ [slot sizeofT buffer i])
      else some memPool

/-- `Allocator()`, for the block that `malloc` returned. -/
def create (sizeofT n buffer turns : Nat) : Option (List Nat) :=
  fill sizeofT n buffer turns 0 []

def allocate : List Nat → List Nat × Nat
  | [] => ([], 0)
  | ptr :: memPool => (memPool, ptr)

def deallocate (memPool : List Nat) (p : Nat) : List Nat :=
  if p = 0 then memPool else memPool ++ [p]

/-! ## The constructor -/

def slots (sizeofT n buffer : Nat) : List Nat := (List.range n).map (slot sizeofT buffer)

theorem fill_eq {sizeofT n buffer turns i : Nat} {memPool : List Nat} (hn : n < uintSize)
    (hi : i ≤ n) :
    fill sizeofT n buffer turns i memPool =
      if n - i < turns then
        some (memPool ++ (List.range' i (n - i)).map (slot sizeofT buffer))
      else none := by
  induction turns generalizing i memPool with
  | zero => rfl
  | succ turns ih =>
      rw [fill]
      by_cases hlt : i < n
      · have hnext : succUint i = i + 1 := Nat.mod_eq_of_lt (by omega)
        have hrest : n - i = n - (i + 1) + 1 := by omega
        rw [if_pos hlt, hnext, ih hlt, hrest, List.range'_succ, List.map_cons,
          List.append_assoc, List.singleton_append]
        simp only [Nat.add_lt_add_iff_right]
      · have hdone : n - i = 0 := by omega
        rw [if_neg hlt, hdone, if_pos (Nat.succ_pos turns)]
        simp only [List.range'_zero, List.map_nil, List.append_nil]

theorem fill_wraps {sizeofT n buffer i : Nat} (hn : uintSize ≤ n) (hi : i < uintSize)
    (turns : Nat) (memPool : List Nat) : fill sizeofT n buffer turns i memPool = none := by
  induction turns generalizing i memPool with
  | zero => rfl
  | succ turns ih =>
      have hnext : succUint i < uintSize := Nat.mod_lt _ (by decide)
      rw [fill, if_pos (Nat.lt_of_lt_of_le hi hn)]
      exact ih hnext _

/-- The constructor returns if `n` fits into its index, and has queued the slots in
order then. -/
theorem create_eq (sizeofT n buffer turns : Nat) :
    create sizeofT n buffer turns =
      if n < uintSize ∧ n < turns then some (slots sizeofT n buffer) else none := by
  rw [create, slots, List.range_eq_range']
  by_cases hn : n < uintSize
  · rw [fill_eq hn (Nat.zero_le n), Nat.sub_zero, List.nil_append]
    simp only [hn, true_and]
  · rw [fill_wraps (Nat.le_of_not_lt hn) (by decide), if_neg (fun h => hn h.1)]

theorem create_some {sizeofT n buffer turns : Nat} {memPool : List Nat}
    (h : create sizeofT n buffer turns = some memPool) : memPool = slots sizeofT n buffer := by
  rw [create_eq, Option.ite_none_right_eq_some] at h
  exact (Option.some.inj h.2).symm

theorem slots_nodup {sizeofT : Nat} (n buffer : Nat) (hsize : 0 < sizeofT) :
    (slots sizeofT n buffer).Nodup := by
  apply List.Nodup.map _ List.nodup_range
  intro i j hij
  have hmul : i * sizeofT = j * sizeofT := Nat.add_left_cancel hij
  exact Nat.eq_of_mul_eq_mul_right hsize hmul

theorem ne_zero_of_mem_slots {sizeofT n buffer p : Nat} (hbuffer : buffer ≠ 0)
    (h : p ∈ slots sizeofT n buffer) : p ≠ 0 := by
  rcases List.mem_map.mp h with ⟨i, -, rfl⟩
  rw [slot]
  omega

/-! ## Calls -/

structure World where
  memPool : List Nat
  live : List Nat

inductive Call where
  | allocate
  | deallocate (p : Nat)

def step (w : World) : Call → World
  | .allocate =>
      let (memPool, ptr) := Allocator.allocate w.memPool
      { memPool, live := if ptr = 0 then w.live else ptr :: w.live }
  | .deallocate p => { memPool := Allocator.deallocate w.memPool p, live := w.live.erase p }

/-- Only what `allocate` returned comes back, and only once. -/
def Legal (w : World) : Call → Prop
  | .allocate => True
  | .deallocate p => p = 0 ∨ p ∈ w.live

def Answers (sizeofT n buffer : Nat) (w : World) : Call → Prop
  | .allocate =>
      let ptr := (Allocator.allocate w.memPool).2
      (ptr ≠ 0 → (∃ i < n, ptr = buffer + i * sizeofT) ∧ ptr ∉ w.live) ∧
        (ptr = 0 ↔ w.live.length = n)
  | .deallocate _ => True

/-- Nothing is lost and nothing is twice there. -/
def Kept (sizeofT n buffer : Nat) (w : World) : Prop :=
  (w.memPool ++ w.live).Perm (slots sizeofT n buffer)

theorem answers_allocate {sizeofT n buffer : Nat} {w : World} (hsize : 0 < sizeofT)
    (hbuffer : buffer ≠ 0) (h : Kept sizeofT n buffer w) :
    Answers sizeofT n buffer w .allocate := by
  have hlength : w.memPool.length + w.live.length = n := by
    have hslots : (slots sizeofT n buffer).length = n := by
      rw [slots, List.length_map, List.length_range]
    rw [← List.length_append, h.length_eq, hslots]
  have hnodup : (w.memPool ++ w.live).Nodup := h.nodup_iff.mpr (slots_nodup n buffer hsize)
  cases hpool : w.memPool with
  | nil =>
      rw [hpool, List.length_nil, Nat.zero_add] at hlength
      simp only [Answers, hpool, Allocator.allocate]
      exact ⟨fun h => absurd rfl h, fun _ => hlength, fun _ => trivial⟩
  | cons ptr rest =>
      have hmem : ptr ∈ slots sizeofT n buffer := by
        apply h.mem_iff.mp
        rw [hpool]
        exact List.mem_cons_self
      have hzero := ne_zero_of_mem_slots hbuffer hmem
      rw [hpool, List.cons_append, List.nodup_cons, List.mem_append] at hnodup
      rw [hpool, List.length_cons] at hlength
      simp only [Answers, hpool, Allocator.allocate]
      constructor
      · intro _
        rcases List.mem_map.mp hmem with ⟨i, hi, rfl⟩
        exact ⟨⟨i, List.mem_range.mp hi, rfl⟩, fun h => hnodup.1 (Or.inr h)⟩
      · exact ⟨fun h => absurd h hzero, fun h => by omega⟩

theorem kept_step {sizeofT n buffer : Nat} {w : World} {call : Call} (hbuffer : buffer ≠ 0)
    (h : Kept sizeofT n buffer w) (hlegal : Legal w call) :
    Kept sizeofT n buffer (step w call) := by
  have hzero : ∀ p ∈ w.memPool ++ w.live, p ≠ 0 := fun p hp =>
    ne_zero_of_mem_slots hbuffer (h.mem_iff.mp hp)
  cases call with
  | allocate =>
      cases hpool : w.memPool with
      | nil =>
          rw [Kept, hpool] at h
          simp only [Kept, step, hpool, Allocator.allocate, if_pos]
          exact h
      | cons ptr rest =>
          have hptr : ptr ≠ 0 := hzero ptr (by rw [hpool]; exact List.mem_cons_self)
          rw [Kept, hpool] at h
          simp only [Kept, step, hpool, Allocator.allocate, if_neg hptr]
          exact List.perm_middle.trans h
  | deallocate p =>
      rw [Kept, step, Allocator.deallocate]
      rcases hlegal with rfl | hlive
      · have hnot : 0 ∉ w.live := fun h0 => hzero 0 (List.mem_append_right _ h0) rfl
        rw [if_pos rfl, List.erase_of_not_mem hnot]
        exact h
      · have hp : p ≠ 0 := hzero p (List.mem_append_right _ hlive)
        rw [if_neg hp]
        have hback : (p :: w.live.erase p).Perm w.live := (List.perm_cons_erase hlive).symm
        rw [List.append_assoc, List.singleton_append]
        exact (hback.append_left w.memPool).trans h

/-- No slot is handed out twice: along every run of legal calls on a constructed
allocator the answers are right, and queue and live pointers are the slots. -/
theorem slots_kept (sizeofT n buffer turns : Nat) (memPool : List Nat) (ops : List Call)
    (hsize : 0 < sizeofT) (hbuffer : buffer ≠ 0)
    (hcreate : create sizeofT n buffer turns = some memPool)
    (hlegal : Guarded step Legal { memPool, live := [] } ops) :
    Guarded step (Answers sizeofT n buffer) { memPool, live := [] } ops ∧
      Always step (fun w => (w.memPool ++ w.live).Perm
        ((List.range n).map fun i => buffer + i * sizeofT)) { memPool, live := [] } ops := by
  have hstart : Kept sizeofT n buffer { memPool, live := [] } := by
    rw [Kept, create_some hcreate, List.append_nil]
  constructor
  · apply guarded_of_inv (Kept sizeofT n buffer) _ hstart hlegal
    intro w call hkept hcall
    refine ⟨kept_step hbuffer hkept hcall, ?_⟩
    cases call with
    | allocate => exact answers_allocate hsize hbuffer hkept
    | deallocate p => trivial
  · exact always_of_guarded (fun w call => kept_step hbuffer) hstart hlegal

/-- Two slots: the third call finds none, the last one gets the slot given back. -/
theorem slots_kept_reused :
    Guarded step (Answers 8 2 4096) { memPool := [4096, 4104], live := [] }
        [.allocate, .allocate, .allocate, .deallocate 4104, .allocate] ∧
      Always step (fun w => (w.memPool ++ w.live).Perm
        ((List.range 2).map fun i => 4096 + i * 8)) { memPool := [4096, 4104], live := [] }
        [.allocate, .allocate, .allocate, .deallocate 4104, .allocate] :=
  slots_kept 8 2 4096 3 [4096, 4104] _ (by decide) (by decide) rfl
    ⟨trivial, trivial, trivial, Or.inr (by decide), trivial, trivial⟩

end NetTest.Allocator
