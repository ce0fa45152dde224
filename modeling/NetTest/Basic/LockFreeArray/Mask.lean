import NetTest.Basic.LockFreeArray.Model
import NetTest.Lib.Runs
import Mathlib.Data.Nat.Find

/-!
# The sizes the class admits

The `static_assert` admits exactly the sizes that are no power of two.  The mask
`N - 1` of such a size has a zero below a one, and counters that differ in that
bit share a slot.  For an even size one thread gets two such elements into the
array at the same time; for an odd size the first push already finds the array
full, and nothing is ever held.
-/

namespace NetTest.LockFree

open Runs Wrapping

variable {α : Type*}

/-- A pop delivers the oldest element held, and no two elements held share a
slot. -/
structure Ordered (n : Nat) (s : Solo α) : Prop where
  oldest : ∀ data, (tryPop n s.array).2 = some data → s.held.head?.map Prod.snd = some data
  apart : s.held.Pairwise fun x y => index n x.1 ≠ index n y.1

/-! ## Odd sizes -/

theorem index_next_zero_odd {n : Nat} (hodd : n % 2 = 1) : index n (next 0) = index n 0 := by
  have heven : (n - 1) % 2 = 0 := by omega
  rw [index, index, next, Nat.zero_and, Nat.and_comm, show (0 + 1) % sizeT = 1 from rfl,
    Nat.and_one_is_mod, heven]

theorem soloStep_odd {n : Nat} (hodd : n % 2 = 1) (queue : Nat → α) (op : Op α) :
    soloStep n (Solo.create queue) op = Solo.create queue := by
  cases op with
  | push data =>
      have hfull : push n (create queue) data = some (create queue, false) :=
        if_pos (index_next_zero_odd hodd)
      simp only [soloStep, Solo.create, hfull]
  | tryPop => rfl

theorem ordered_create (n : Nat) (queue : Nat → α) : Ordered n (Solo.create queue) where
  oldest data h := by cases h
  apart := List.Pairwise.nil

theorem always_ordered_odd {n : Nat} (hodd : n % 2 = 1) (queue : Nat → α) (ops : List (Op α)) :
    Always (soloStep n) (Ordered n) (Solo.create queue) ops := by
  induction ops with
  | nil => exact ordered_create n queue
  | cons op rest ih =>
      constructor
      · exact ordered_create n queue
      · rw [soloStep_odd hodd queue op]
        exact ih

/-! ## A zero below a one -/

theorem exists_unset_below {m i : Nat} (hm : m.testBit i = true) (hn : (m + 1).testBit i = true) :
    ∃ z < i, m.testBit z = false := by
  by_contra hall
  have hset : ∀ z < i, m.testBit z = true := by
    intro z hz
    by_contra hunset
    exact hall ⟨z, hz, by simpa using hunset⟩
  have hlow : m % 2 ^ i = 2 ^ i - 1 := by
    apply Nat.eq_of_testBit_eq
    intro z
    rw [Nat.testBit_mod_two_pow, Nat.testBit_two_pow_sub_one]
    by_cases hz : z < i
    · simp [hz, hset z hz]
    · simp [hz]
  have hpos : 0 < 2 ^ i := Nat.two_pow_pos i
  have hdiv : (m + 1) / 2 ^ i = m / 2 ^ i + 1 := by
    rw [show m + 1 = 2 ^ i * (m / 2 ^ i + 1) by
      have hsplit := Nat.div_add_mod m (2 ^ i)
      rw [Nat.mul_add, Nat.mul_one]
      omega]
    exact Nat.mul_div_cancel_left _ hpos
  rw [Nat.testBit_eq_decide_div_mod_eq, decide_eq_true_eq] at hm hn
  rw [hdiv] at hn
  omega

/-- The mask of an admitted size has a zero right below a one. -/
theorem exists_gap {n : Nat} (hadmits : Admits n) :
    ∃ j, (n - 1).testBit (j + 1) = true ∧ (n - 1).testBit j = false := by
  have hone : ∃ i, n.testBit i = true ∧ (n - 1).testBit i = true := by
    rcases Nat.exists_testBit_of_ne_zero hadmits with ⟨i, hi⟩
    rw [Nat.testBit_and, Bool.and_eq_true] at hi
    exact ⟨i, hi⟩
  rcases hone with ⟨i, hni, hmi⟩
  have hpos : n - 1 + 1 = n := by
    cases n with
    | zero => simp at hni
    | succ n => rfl
  rcases exists_unset_below hmi (by rw [hpos]; exact hni) with ⟨z, hz, hunset⟩
  -- the first one above `z`
  have hex : ∃ d, (n - 1).testBit (z + 1 + d) = true := ⟨i - (z + 1), by
    rw [show z + 1 + (i - (z + 1)) = i by omega]
    exact hmi⟩
  cases hfind : Nat.find hex with
  | zero =>
      have hspec := Nat.find_spec hex
      rw [hfind] at hspec
      exact ⟨z, hspec, hunset⟩
  | succ d =>
      have hspec := Nat.find_spec hex
      have hmin := Nat.find_min hex (m := d) (by omega)
      rw [hfind] at hspec
      exact ⟨z + 1 + d, hspec, by simpa using hmin⟩

theorem index_testBit (n count i : Nat) :
    (index n count).testBit i = (count.testBit i && (n - 1).testBit i) :=
  Nat.testBit_and count (n - 1) i

/-- Neighbours have different slots in an even array. -/
theorem index_succ_ne {n : Nat} (hpos : 0 < n) (heven : n % 2 = 0) (count : Nat) :
    index n (count + 1) ≠ index n count := by
  intro heq
  have hbit : (index n (count + 1)).testBit 0 = (index n count).testBit 0 := by rw [heq]
  have hmask : (n - 1).testBit 0 = true := by
    rw [Nat.testBit_zero, decide_eq_true_eq]
    omega
  rw [index_testBit, index_testBit, hmask, Bool.and_true, Bool.and_true, Nat.testBit_zero,
    Nat.testBit_zero, decide_eq_decide] at hbit
  omega

/-- A zero in the mask: the counters on its two sides share a slot. -/
theorem index_shared {n j : Nat} (hzero : (n - 1).testBit j = false) :
    index n (2 ^ (j + 1) + 2 ^ j) = index n (2 ^ (j + 1)) := by
  have hlt : 2 ^ j < 2 ^ (j + 1) := Nat.pow_lt_pow_right (by decide) (by omega)
  have hor : 2 ^ (j + 1) + 2 ^ j = 2 ^ (j + 1) ||| 2 ^ j := by
    simpa using Nat.two_pow_add_eq_or_of_lt hlt 1
  apply Nat.eq_of_testBit_eq
  intro i
  rw [index_testBit, index_testBit, hor, Nat.testBit_or]
  by_cases hi : j = i
  · subst hi
    rw [hzero, Bool.and_false, Bool.and_false]
  · rw [Nat.testBit_two_pow_of_ne hi, Bool.or_false]

/-- A one in the mask: no counter of the next block shares the slot of the last
counter before it. -/
theorem index_ne_of_block {n j count : Nat} (hone : (n - 1).testBit (j + 1) = true)
    (hlow : 2 ^ (j + 1) ≤ count) (hhigh : count < 2 ^ (j + 2)) :
    index n count ≠ index n (2 ^ (j + 1) - 1) := by
  intro heq
  have hbit : (index n count).testBit (j + 1) = (index n (2 ^ (j + 1) - 1)).testBit (j + 1) := by
    rw [heq]
  have hset : count.testBit (j + 1) = true := by
    have hdiv : count / 2 ^ (j + 1) = 1 := by
      rw [Nat.div_eq_iff (Nat.two_pow_pos _)]
      rw [show 2 ^ (j + 2) = 2 * 2 ^ (j + 1) by rw [Nat.pow_succ]; omega] at hhigh
      omega
    rw [Nat.testBit_eq_decide_div_mod_eq, hdiv]
    rfl
  simp [index_testBit, hone, hset] at hbit

/-! ## Even sizes -/

/-- One thread has pushed the counters from `base` on and popped those below. -/
structure Filled (base count : Nat) (s : Solo α) : Prop where
  read : s.array.readIndex = base
  write : s.array.writeIndex = base + count
  published : s.array.maxNumReadIndex = base + count
  held : s.held.map Prod.fst = List.range' base count

theorem Filled.push {n base count : Nat} {s : Solo α} (h : Filled base count s)
    (hlt : base + count + 1 < sizeT) (hne : index n (base + count + 1) ≠ index n base) (data : α) :
    Filled base (count + 1) (soloStep n s (.push data)) := by
  have hnext : next (base + count) = base + count + 1 := Nat.mod_eq_of_lt hlt
  have hpush : LockFree.push n s.array data = some ({ s.array with
      writeIndex := base + count + 1
      maxNumReadIndex := base + count + 1
      queue := Function.update s.array.queue (index n (base + count)) data }, true) := by
    simp only [LockFree.push, h.read, h.write, h.published, hnext, if_neg hne, if_true]
  simp only [soloStep, hpush]
  exact {
    read := h.read
    write := rfl
    published := rfl
    held := by
      simp only [List.map_append, List.map_cons, List.map_nil, h.held, h.write]
      rw [← List.range'_append_1, List.range'_one] }

theorem Filled.tryPop {n base : Nat} {s : Solo α} (h : Filled base 1 s)
    (hlt : base + 1 < sizeT) : Filled (base + 1) 0 (soloStep n s .tryPop) := by
  have hnext : next base = base + 1 := Nat.mod_eq_of_lt hlt
  have hfull : empty s.array = false := by
    rw [empty, h.read, h.write]
    simp
  have hlen : s.held.length = 1 := by
    rw [← List.length_map (f := Prod.fst), h.held, List.length_range']
  simp only [soloStep, LockFree.tryPop, hfull, Bool.false_eq_true, if_false]
  exact {
    read := by simp only [h.read, hnext]
    write := h.write
    published := h.published
    held := by
      cases hs : s.held with
      | nil => rfl
      | cons x rest =>
          rw [hs, List.length_cons, Nat.add_right_cancel_iff, List.length_eq_zero_iff] at hlen
          rw [hlen]
          rfl }

/-- By pushing and popping in turn the counters reach any value. -/
theorem exists_filled_zero {n : Nat} (hpos : 0 < n) (heven : n % 2 = 0) (data : α)
    (queue : Nat → α) (base : Nat) (hbase : base < sizeT) :
    ∃ ops : List (Op α), Filled base 0 (ops.foldl (soloStep n) (Solo.create queue)) := by
  induction base with
  | zero => exact ⟨[], rfl, rfl, rfl, rfl⟩
  | succ base ih =>
      rcases ih (by omega) with ⟨ops, hops⟩
      refine ⟨ops ++ [.push data, .tryPop], ?_⟩
      rw [List.foldl_append]
      exact (hops.push hbase (index_succ_ne hpos heven base) data).tryPop hbase

theorem exists_filled {n base : Nat} (data : α) (queue : Nat → α)
    (hrest : ∃ ops : List (Op α), Filled base 0 (ops.foldl (soloStep n) (Solo.create queue))) (count : Nat)
    (hlt : base + count < sizeT)
    (hne : ∀ i, 1 ≤ i → i ≤ count → index n (base + i) ≠ index n base) :
    ∃ ops : List (Op α), Filled base count (ops.foldl (soloStep n) (Solo.create queue)) := by
  induction count with
  | zero => exact hrest
  | succ count ih =>
      rcases ih (by omega) (fun i hi hle => hne i hi (by omega)) with ⟨ops, hops⟩
      refine ⟨ops ++ [.push data], ?_⟩
      rw [List.foldl_append]
      exact hops.push hlt (hne (count + 1) (by omega) (Nat.le_refl _)) data

theorem not_ordered_of_filled {n base count i j : Nat} {s : Solo α} (h : Filled base count s)
    (hij : i < j) (hj : j < count) (hshared : index n (base + i) = index n (base + j)) :
    ¬ Ordered n s := by
  intro hordered
  have hapart : (s.held.map Prod.fst).Pairwise fun x y => index n x ≠ index n y :=
    List.pairwise_map.mpr hordered.apart
  rw [h.held, List.pairwise_iff_getElem] at hapart
  have hne := hapart i j (by rw [List.length_range']; omega) (by rw [List.length_range']; omega) hij
  simp only [List.getElem_range', Nat.one_mul] at hne
  exact hne hshared

theorem exists_not_ordered_even {n : Nat} (hsize : n < sizeT) (hadmits : Admits n)
    (heven : n % 2 = 0) (data : α) (queue : Nat → α) :
    ∃ ops : List (Op α), ¬ Ordered n (ops.foldl (soloStep n) (Solo.create queue)) := by
  have hpos : 0 < n := by
    rcases Nat.eq_zero_or_pos n with hzero | hpos
    · subst hzero
      exact absurd rfl hadmits
    · exact hpos
  rcases exists_gap hadmits with ⟨j, hone, hzero⟩
  have hge : 2 ^ (j + 1) ≤ n - 1 := Nat.ge_two_pow_of_testBit hone
  have hj : 1 ≤ j := by
    rcases Nat.eq_zero_or_pos j with hj | hj
    · rw [hj, Nat.testBit_zero, decide_eq_false_iff_not] at hzero
      omega
    · exact hj
  have hpow : 2 ^ (j + 1) = 2 * 2 ^ j := by rw [Nat.pow_succ, Nat.mul_comm]
  have hpow' : 2 ^ (j + 2) = 4 * 2 ^ j := by rw [Nat.pow_succ, hpow]; omega
  have htwo : 2 ≤ 2 ^ j := by
    calc 2 = 2 ^ 1 := rfl
      _ ≤ 2 ^ j := Nat.pow_le_pow_right (by decide) hj
  have hbound : 4 * 2 ^ j ≤ sizeT := by
    have hlt : j + 1 < 64 := by
      rw [← Nat.pow_lt_pow_iff_right (a := 2) (by decide)]
      exact Nat.lt_of_le_of_lt hge (Nat.lt_of_le_of_lt (Nat.sub_le n 1) hsize)
    rw [← hpow']
    exact Nat.pow_le_pow_right (by decide) (by omega)
  have hfilled := exists_filled data queue
    (exists_filled_zero hpos heven data queue (2 ^ (j + 1) - 1) (by omega)) (2 ^ j + 2) (by omega)
    (fun i hi hle => index_ne_of_block hone (by omega) (by omega))
  rcases hfilled with ⟨ops, hops⟩
  refine ⟨ops, not_ordered_of_filled hops (i := 1) (j := 1 + 2 ^ j) (by omega) (by omega) ?_⟩
  rw [show 2 ^ (j + 1) - 1 + 1 = 2 ^ (j + 1) by omega,
    show 2 ^ (j + 1) - 1 + (1 + 2 ^ j) = 2 ^ (j + 1) + 2 ^ j by omega]
  exact (index_shared hzero).symm

/-- Of the sizes the class admits, exactly the odd ones never mix up elements. -/
theorem lockFreeArray_sizes (n : Nat) (hsize : n < sizeT) (hadmits : Admits n) (data : α) :
    (∀ (queue : Nat → α) (ops : List (Op α)),
      Always (soloStep n) (Ordered n) (Solo.create queue) ops) ↔ n % 2 = 1 := by
  constructor
  · intro hordered
    by_contra hodd
    rcases exists_not_ordered_even hsize hadmits (by omega) data (fun _ => data) with ⟨ops, hops⟩
    exact hops (always_iff_prefixes.mp (hordered (fun _ => data) ops) ops List.prefix_rfl)
  · intro hodd queue ops
    exact always_ordered_odd hodd queue ops

theorem lockFreeArray_sizes_six :
    ¬ ∀ (queue : Nat → Nat) (ops : List (Op Nat)),
      Always (soloStep 6) (Ordered 6) (Solo.create queue) ops := by
  rw [lockFreeArray_sizes 6 (by decide) (by decide) 0]
  decide

/-- Six slots.  The counters are moved to two, and then five elements are pushed:
those of the counters four and six are both in slot four. -/
theorem lockFreeArray_mixes_elements :
    ¬ ∀ n, n < sizeT → Admits n → ∀ (queue : Nat → Nat) (ops : List (Op Nat)),
      Always (soloStep n) (Ordered n) (Solo.create queue) ops := by
  intro h
  have hordered := always_iff_prefixes.mp
    (h 6 (by decide) (by decide) (fun _ => 0)
      [.push 0, .tryPop, .push 1, .tryPop, .push 2, .push 3, .push 4, .push 5, .push 6,
        .tryPop, .tryPop]) _ List.prefix_rfl
  exact absurd (hordered.oldest 6 rfl) (by decide)

end NetTest.LockFree
