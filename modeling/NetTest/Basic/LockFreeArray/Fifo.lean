import NetTest.Basic.LockFreeArray.Model
import NetTest.Lib.Ring
import NetTest.Lib.Runs
import NetTest.Lib.Wrapping

/-!
# One thread on the lock-free array

For a power of two, masking is reduction modulo `N`, and since `N` divides the
number of counter values the reduction survives the wrap of the counters: the
array is a FIFO of capacity `N - 1`.
-/

namespace NetTest.LockFree

open Runs NetTest.Ring Wrapping

variable {α : Type*}

/-! ## Powers of two -/

structure Agrees (n : Nat) (s : Solo α) : Prop where
  push : ∀ data, ∃ a, LockFree.push n s.array data = some (a, decide (s.held.length ≠ n - 1))
  tryPop : (LockFree.tryPop n s.array).2 = s.held.head?.map Prod.snd
  size : LockFree.size n s.array = s.held.length

/-- The values held are a window of the slots that starts at the read counter. -/
structure Represents (n : Nat) (s : Solo α) : Prop where
  read_lt : s.array.readIndex < sizeT
  write_eq : s.array.writeIndex = (s.array.readIndex + s.held.length) % sizeT
  published : s.array.maxNumReadIndex = s.array.writeIndex
  room : s.held.length < n
  held_eq : s.held.map Prod.snd =
    window s.array.queue n (s.array.readIndex % n) s.held.length

theorem represents_create {n : Nat} (hn : 0 < n) (queue : Nat → α) :
    Represents n (Solo.create queue) := by
  constructor
  · exact Nat.pow_pos (by decide)
  · rfl
  · rfl
  · exact hn
  · rfl

namespace Represents

variable {k : Nat} {s : Solo α}

theorem full_iff (h : Represents (2 ^ k) s) (hk : k ≤ 63) :
    index (2 ^ k) (next s.array.writeIndex) = index (2 ^ k) s.array.readIndex ↔
      s.held.length = 2 ^ k - 1 := by
  have hroom := h.room
  rw [index_two_pow, index_two_pow, next, mod_sizeT_mod hk, h.write_eq, Nat.add_mod,
    mod_sizeT_mod hk, ← Nat.add_mod]
  constructor
  · intro heq
    rw [Nat.add_assoc] at heq
    have hle := Nat.le_of_dvd (Nat.succ_pos _) (dvd_of_add_mod_eq heq)
    omega
  · intro heq
    rw [Nat.add_assoc, heq, Nat.sub_add_cancel (Nat.pos_of_ne_zero (by omega)), Nat.add_mod_right]

theorem empty_iff (h : Represents (2 ^ k) s) (hk : k ≤ 63) :
    empty s.array = true ↔ s.held = [] := by
  have hroom := h.room
  have hsize := two_pow_lt_sizeT hk
  have hread := h.read_lt
  rw [empty, beq_iff_eq, h.write_eq, ← List.length_eq_zero_iff]
  constructor
  · intro heq
    have hmod : (s.array.readIndex + s.held.length) % sizeT = s.array.readIndex % sizeT := by
      rw [← heq, Nat.mod_eq_of_lt hread]
    exact Nat.eq_zero_of_dvd_of_lt (dvd_of_add_mod_eq hmod) (by omega)
  · intro heq
    rw [heq, Nat.add_zero, Nat.mod_eq_of_lt hread]

theorem size_eq (h : Represents (2 ^ k) s) (hk : k ≤ 63) :
    size (2 ^ k) s.array = s.held.length := by
  have hroom := h.room
  have hsize := two_pow_lt_sizeT hk
  have hread := h.read_lt
  have hdiff : diff s.array.writeIndex s.array.readIndex = s.held.length := by
    rw [h.write_eq, diff]
    exact add_mod_sub_mod hread (by omega)
  rw [size, hdiff, Nat.and_two_pow_sub_one_eq_mod, mod_sizeT_mod hk, Nat.add_mod_right,
    Nat.mod_eq_of_lt hroom]

theorem push_eq (h : Represents (2 ^ k) s) (hk : k ≤ 63) (data : α) :
    push (2 ^ k) s.array data =
      if s.held.length = 2 ^ k - 1 then some (s.array, false)
      else some ({ s.array with
        writeIndex := next s.array.writeIndex
        maxNumReadIndex := next s.array.writeIndex
        queue := Function.update s.array.queue (s.array.writeIndex % 2 ^ k) data }, true) := by
  unfold push
  by_cases hfull : s.held.length = 2 ^ k - 1
  · rw [if_pos ((h.full_iff hk).mpr hfull), if_pos hfull]
  · rw [if_neg (fun heq => hfull ((h.full_iff hk).mp heq)), if_neg hfull]
    simp only [h.published, if_true, index_two_pow]

theorem tryPop_eq (h : Represents (2 ^ k) s) (hk : k ≤ 63) :
    tryPop (2 ^ k) s.array =
      if s.held = [] then (s.array, none)
      else ({ s.array with readIndex := next s.array.readIndex },
        some (s.array.queue (s.array.readIndex % 2 ^ k))) := by
  unfold tryPop
  by_cases hempty : s.held = []
  · rw [if_pos ((h.empty_iff hk).mpr hempty), if_pos hempty]
  · rw [if_neg (fun heq => hempty ((h.empty_iff hk).mp heq)), if_neg hempty, index_two_pow]

theorem head_eq (h : Represents (2 ^ k) s) (hempty : s.held ≠ []) :
    s.held.head?.map Prod.snd = some (s.array.queue (s.array.readIndex % 2 ^ k)) := by
  have hheld := h.held_eq
  cases hs : s.held with
  | nil => exact absurd hs hempty
  | cons x rest =>
      rw [hs, List.length_cons, window_succ_first, List.map_cons] at hheld
      have hpos : 0 < 2 ^ k := Nat.pow_pos (by decide)
      rw [wrap_of_lt (Nat.mod_lt _ hpos)] at hheld
      rw [List.head?_cons, Option.map_some, (List.cons.inj hheld).1]

theorem agrees (h : Represents (2 ^ k) s) (hk : k ≤ 63) : Agrees (2 ^ k) s := by
  constructor
  · intro data
    rw [h.push_eq hk data]
    by_cases hfull : s.held.length = 2 ^ k - 1
    · rw [if_pos hfull]
      exact ⟨s.array, by simp [hfull]⟩
    · rw [if_neg hfull]
      exact ⟨_, by simp [hfull]; rfl⟩
  · rw [h.tryPop_eq hk]
    by_cases hempty : s.held = []
    · rw [if_pos hempty, hempty]
      rfl
    · rw [if_neg hempty, h.head_eq hempty]
  · exact h.size_eq hk

theorem step_push (h : Represents (2 ^ k) s) (hk : k ≤ 63) (data : α) :
    Represents (2 ^ k) (soloStep (2 ^ k) s (.push data)) := by
  simp only [soloStep, h.push_eq hk data]
  by_cases hfull : s.held.length = 2 ^ k - 1
  · rw [if_pos hfull]
    exact h
  · rw [if_neg hfull]
    have hroom := h.room
    have hslot : s.array.writeIndex % 2 ^ k =
        wrap (2 ^ k) (s.array.readIndex % 2 ^ k + s.held.length) := by
      rw [wrap_mod hroom, h.write_eq, mod_sizeT_mod hk]
    exact {
      read_lt := h.read_lt
      write_eq := by
        simp only [List.length_append, List.length_singleton, next]
        rw [h.write_eq, Nat.mod_add_mod, Nat.add_assoc]
      published := rfl
      room := by
        simp only [List.length_append, List.length_singleton]
        omega
      held_eq := by
        simp only [List.length_append, List.length_singleton, List.map_append, List.map_cons,
          List.map_nil, hslot]
        rw [window_succ_last, window_update s.array.queue data hroom, ← h.held_eq,
          Function.update_self] }

theorem step_tryPop (h : Represents (2 ^ k) s) (hk : k ≤ 63) :
    Represents (2 ^ k) (soloStep (2 ^ k) s .tryPop) := by
  simp only [soloStep, h.tryPop_eq hk]
  by_cases hempty : s.held = []
  · rw [if_pos hempty]
    exact h
  · rw [if_neg hempty]
    have hroom := h.room
    have hpos : 0 < 2 ^ k := Nat.pow_pos (by decide)
    cases hs : s.held with
    | nil => exact absurd hs hempty
    | cons x rest =>
        have hlen : s.held.length = rest.length + 1 := by rw [hs, List.length_cons]
        have hheld := h.held_eq
        rw [hs, List.length_cons, window_succ_first, List.map_cons] at hheld
        exact {
          read_lt := Nat.mod_lt _ (Nat.pow_pos (by decide))
          write_eq := by
            simp only [List.tail_cons, next]
            rw [h.write_eq, hlen, Nat.mod_add_mod]
            congr 1
            omega
          published := h.published
          room := by
            simp only [List.tail_cons]
            omega
          held_eq := by
            simp only [List.tail_cons, next, mod_sizeT_mod hk]
            rw [(List.cons.inj hheld).2]
            -- the next start is either one further or folded back to zero
            rcases Nat.lt_or_ge (s.array.readIndex % 2 ^ k + 1) (2 ^ k) with hlt | hge
            · rw [← Nat.mod_add_mod, Nat.mod_eq_of_lt hlt]
            · have hlast : s.array.readIndex % 2 ^ k + 1 = 2 ^ k := by
                have := Nat.mod_lt s.array.readIndex hpos
                omega
              rw [← Nat.mod_add_mod, hlast, Nat.mod_self]
              exact window_start_self _ (by omega) }

end Represents

/-- With a power of two the array is, for one thread, a FIFO of capacity
`N - 1`, however often the counters wrap. -/
theorem lockFreeArray_fifo (k : Nat) (hk : k ≤ 63) (queue : Nat → α) (ops : List (Op α)) :
    Always (soloStep (2 ^ k)) (Agrees (2 ^ k)) (Solo.create queue) ops := by
  have hinv : Always (soloStep (2 ^ k)) (Represents (2 ^ k)) (Solo.create queue) ops := by
    refine always_of_step ?_ (represents_create (Nat.pow_pos (by decide)) queue) ops
    intro s op hs
    cases op with
    | push data => exact hs.step_push hk data
    | tryPop => exact hs.step_tryPop hk
  exact hinv.mono fun s hs => hs.agrees hk

theorem lockFreeArray_fifo_four :
    Always (soloStep 4) (Agrees 4) (Solo.create fun _ => (0 : Nat))
      [.push 5, .tryPop, .push 6, .push 7, .push 8, .push 9] :=
  lockFreeArray_fifo 2 (by decide) (fun _ => 0) _

end NetTest.LockFree
