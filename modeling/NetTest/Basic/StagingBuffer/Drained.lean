import Mathlib.Algebra.GroupWithZero.Nat
import NetTest.Basic.StagingBuffer.Safety

/-!
# What a drained staging buffer accepts

A call that does not block looks at the stretch before the producer and the one
behind it, and gives up when neither is longer than `size`.  In a drained buffer
the positions lie where the last block ended, and the capacity is split between
the two stretches.

The positions are followed through every run, those included in which a release
has taken the consumer beyond the end-of-record mark.
-/

namespace NetTest.Staging

open Wrapping Runs

def Accepts (n size : Nat) (s : StagingBuffer) : Prop :=
  ∃ s' p, allocate n size false 1 s = some (s', some p)

/-- The longest stretch a call can come to, and one more than the largest size it
accepts. -/
def room (n : Nat) (s : StagingBuffer) : Nat :=
  if s.consumerPos ≤ s.producerPos then max (n - s.producerPos) s.consumerPos
  else s.consumerPos - s.producerPos

/-! ## The positions -/

/-- The producer is ahead of the consumer by the live bytes. -/
structure Ahead (n live : Nat) (s : StagingBuffer) : Prop where
  count : s.consumerPos + live = s.producerPos
  inside : s.producerPos ≤ n
  free : s.minFreeSpace ≤ n - s.producerPos

/-- The producer has wrapped: the live bytes are those up to the mark and those from
the start, and the consumer may have gone beyond the mark. -/
structure Behind (n live : Nat) (s : StagingBuffer) : Prop where
  order : s.producerPos < s.consumerPos
  count : s.consumerPos + live = s.endOfRecord + s.producerPos
  mark : s.endOfRecord ≤ n
  free : s.minFreeSpace ≤ s.consumerPos - s.producerPos
  address : s.producerPos < sizeT

def Placed (n live : Nat) (s : StagingBuffer) : Prop := Ahead n live s ∨ Behind n live s

theorem ahead_create (n : Nat) : Ahead n 0 (create n) where
  count := rfl
  inside := Nat.zero_le n
  free := Nat.le_refl n

theorem diff_of_sub_lt {a b : Nat} (hle : b ≤ a) (hlt : a - b < sizeT) : diff a b = a - b := by
  rw [diff, show a + sizeT - b = a - b + sizeT by omega, Nat.add_mod_right, Nat.mod_eq_of_lt hlt]

/-- The difference of positions that lie less than the address space apart is zero
for equal positions only. -/
theorem diff_eq_zero_iff {a b : Nat} (hab : a < b + sizeT) (hba : b < a + sizeT) :
    diff a b = 0 ↔ a = b := by
  unfold diff sizeT at *
  omega

theorem placed_peek {n live : Nat} (hn : n < sizeT) {s : StagingBuffer} (h : Placed n live s) :
    Placed n live (peek s).1 := by
  unfold peek
  rcases h with ha | hb
  · have hcount := ha.count
    rw [if_neg (by omega)]
    exact Or.inl ha
  · have horder := hb.order
    have hcount := hb.count
    have hmark := hb.mark
    have hfree := hb.free
    have haddress := hb.address
    have hzero := diff_eq_zero_iff (a := s.endOfRecord) (b := s.consumerPos) (by omega) (by omega)
    rw [if_pos horder]
    by_cases hroll : s.endOfRecord = s.consumerPos
    · rw [if_neg (by omega)]
      exact Or.inl ⟨by simp only; omega, by simp only; omega, by simp only; omega⟩
    · rw [if_pos (by omega)]
      exact Or.inr hb

theorem placed_endPass {n live : Nat} (hn : n < sizeT) {s : StagingBuffer} (h : Placed n live s)
    (size : Nat) (blocking : Bool) : Placed n live (endPass size blocking s).1 := by
  unfold endPass
  split
  · exact h
  · exact placed_peek hn h

theorem placed_pass {n live : Nat} (hn : n < sizeT) {s : StagingBuffer} (h : Placed n live s)
    (size : Nat) (blocking : Bool) : Placed n live (pass n size blocking s).1 := by
  unfold pass
  rcases h with ha | hb
  · have hcount := ha.count
    have hinside := ha.inside
    rw [if_pos (by omega)]
    simp only [diff_eq hinside hn]
    split
    · exact Or.inl ⟨hcount, hinside, Nat.le_refl _⟩
    · split
      · have hzero : diff s.consumerPos 0 = s.consumerPos := diff_eq (Nat.zero_le _) (by omega)
        simp only [hzero]
        apply placed_endPass hn
        right
        constructor <;> simp only <;> omega
      · apply placed_endPass hn
        exact Or.inl ⟨hcount, hinside, Nat.le_refl _⟩
  · have horder := hb.order
    have hcount := hb.count
    have hmark := hb.mark
    rw [if_neg (by omega), diff_of_sub_lt (by omega) (by omega)]
    apply placed_endPass hn
    exact Or.inr ⟨horder, hcount, hmark, Nat.le_refl _, hb.address⟩

theorem placed_take {n live size : Nat} {s : StagingBuffer} (h : Placed n live s)
    (hn : n < sizeT) (hroom : size < s.minFreeSpace) (haddress : s.producerPos + size < sizeT) :
    Placed n (live + size) { s with
      minFreeSpace := diff s.minFreeSpace size
      producerPos := s.producerPos + size } := by
  rcases h with ha | hb
  · have hcount := ha.count
    have hinside := ha.inside
    have hfree := ha.free
    rw [diff_eq (by omega) (by omega)]
    left
    constructor <;> simp only <;> omega
  · have horder := hb.order
    have hcount := hb.count
    have hmark := hb.mark
    have hfree := hb.free
    rw [diff_eq (by omega) (by omega)]
    right
    constructor <;> simp only <;> omega

theorem placed_deallocate {n live size : Nat} {s : StagingBuffer} (h : Placed n live s)
    (hsize : size ≤ live) : Placed n (live - size) (deallocate size s) := by
  rcases h with ha | hb
  · have hcount := ha.count
    exact Or.inl ⟨by simp only [deallocate]; omega, ha.inside, ha.free⟩
  · have horder := hb.order
    have hcount := hb.count
    have hfree := hb.free
    exact Or.inr ⟨by simp only [deallocate]; omega, by simp only [deallocate]; omega, hb.mark,
      by simp only [deallocate]; omega, hb.address⟩

/-! ## Runs -/

def World.liveSize (w : World) : Nat := (w.live.map Region.size).sum

def Addressable (n : Nat) (w : World) : Op → Prop
  | .allocate size =>
      match allocate n size false 1 w.buffer with
      | some (_, some p) => p + size < sizeT
      | _ => True
  | .deallocate _ => True

instance (n : Nat) (w : World) (op : Op) : Decidable (Addressable n w op) :=
  match op with
  | .allocate size =>
      match h : allocate n size false 1 w.buffer with
      | some (_, some p) => decidable_of_iff (p + size < sizeT) (by rw [Addressable, h])
      | some (_, none) => isTrue (by rw [Addressable, h]; trivial)
      | none => isTrue (by rw [Addressable, h]; trivial)
  | .deallocate _ => isTrue trivial

def World.Placed (n : Nat) (w : World) : Prop := Staging.Placed n w.liveSize w.buffer

theorem placed_create (n : Nat) : (World.create n).Placed n := Or.inl (ahead_create n)

theorem placed_step {n : Nat} (hn : n < sizeT) {w : World} (h : w.Placed n) (op : Op)
    (hlegal : Legal w op) (haddressable : Addressable n w op) : (step n w op).Placed n := by
  cases op with
  | allocate size =>
      have hpass : ∀ t, Placed n w.liveSize t → Placed n w.liveSize (pass n size false t).1 :=
        fun t ht => placed_pass hn ht size false
      rcases allocateLoop_nonblocking n size 0 w.buffer with ⟨⟨s, ok⟩, hloop⟩
      rcases allocateLoop_inv hpass h hloop with ⟨hs, hroom⟩
      cases ok with
      | false =>
          have hcall : allocate n size false 1 w.buffer = some (s, none) := by
            simp only [allocate, hloop]
          simp only [step, hcall]
          exact hs
      | true =>
          have hcall : allocate n size false 1 w.buffer = some ({ s with
              minFreeSpace := diff s.minFreeSpace size
              producerPos := s.producerPos + size }, some s.producerPos) := by
            simp only [allocate, hloop]
          have hlive : (step n w (.allocate size)).liveSize = w.liveSize + size := by
            simp only [step, hcall, World.liveSize, List.map_append, List.sum_append, List.map_cons,
              List.map_nil, List.sum_cons, List.sum_nil, Nat.add_zero]
          rw [World.Placed, hlive]
          simp only [step, hcall]
          rw [Addressable, hcall] at haddressable
          exact placed_take hs hn (hroom rfl) haddressable
  | deallocate size =>
      rcases Option.map_eq_some_iff.mp hlegal with ⟨b, hb, hsize⟩
      rcases List.head?_eq_some_iff.mp hb with ⟨rest, hrest⟩
      have hlive : w.liveSize = size + (rest.map Region.size).sum := by
        rw [World.liveSize, hrest, List.map_cons, List.sum_cons, hsize]
      have hafter : (step n w (.deallocate size)).liveSize = w.liveSize - size := by
        rw [hlive, Nat.add_sub_cancel_left]
        simp only [step, World.liveSize, hrest, List.tail_cons]
      rw [World.Placed, hafter]
      exact placed_deallocate h (by omega)

theorem placed_run {n : Nat} (hn : n < sizeT) (ops : List Op)
    (hlegal : Guarded (step n) Legal (World.create n) ops)
    (haddressable : Guarded (step n) (Addressable n) (World.create n) ops) :
    (ops.foldl (step n) (World.create n)).Placed n := by
  have halways : Always (step n) (World.Placed n) (World.create n) ops :=
    always_of_guarded (P := World.Placed n)
      (fun w op h hop => placed_step hn h op hop.1 hop.2) (placed_create n)
      (guarded_and.mpr ⟨hlegal, haddressable⟩)
  exact halways.last

/-! ## What is accepted -/

theorem endPass_giveUp_iff (size : Nat) (s : StagingBuffer) :
    (endPass size false s).2 = .giveUp ↔ s.minFreeSpace ≤ size := by
  unfold endPass
  split
  · rename_i hfull
    exact iff_of_true rfl hfull.2
  · rename_i hfull
    apply iff_of_false
    · intro h
      cases h
    · intro hle
      exact hfull ⟨rfl, hle⟩

/-- A pass gives up when neither stretch is long enough. -/
theorem pass_giveUp_iff {n live : Nat} (hn : n < sizeT) {s : StagingBuffer} (h : Placed n live s)
    (size : Nat) : (pass n size false s).2 = .giveUp ↔ room n s ≤ size := by
  rcases h with ha | hb
  · have hcount := ha.count
    have hinside := ha.inside
    have hroom : room n s ≤ size ↔ n - s.producerPos ≤ size ∧ s.consumerPos ≤ size := by
      rw [room, if_pos (by omega)]
      exact Nat.max_le
    rw [hroom, pass, if_pos (by omega)]
    simp only [diff_eq hinside hn]
    by_cases hend : size < n - s.producerPos
    · rw [if_pos hend]
      apply iff_of_false
      · intro h
        cases h
      · omega
    · rw [if_neg hend]
      by_cases hstart : s.consumerPos ≠ 0
      · have hzero : diff s.consumerPos 0 = s.consumerPos := diff_eq (Nat.zero_le _) (by omega)
        rw [if_pos hstart, endPass_giveUp_iff]
        simp only [hzero]
        omega
      · rw [if_neg hstart, endPass_giveUp_iff]
        simp only
        omega
  · have horder := hb.order
    have hcount := hb.count
    have hmark := hb.mark
    have hfree : diff s.consumerPos s.producerPos = s.consumerPos - s.producerPos :=
      diff_of_sub_lt (by omega) (by omega)
    rw [room, if_neg (by omega), pass, if_neg (by omega), endPass_giveUp_iff, hfree]

theorem minFreeSpace_le_room {n live : Nat} {s : StagingBuffer} (h : Placed n live s) :
    s.minFreeSpace ≤ room n s := by
  rcases h with ha | hb
  · have hcount := ha.count
    have hfree := ha.free
    rw [room, if_pos (by omega)]
    exact Nat.le_trans hfree (Nat.le_max_left _ _)
  · have horder := hb.order
    rw [room, if_neg (by omega)]
    exact hb.free

theorem accepts_iff_loop (n size : Nat) (s : StagingBuffer) :
    Accepts n size s ↔ ∃ s', allocateLoop n size false 1 s = some (s', true) := by
  constructor
  · intro h
    rcases h with ⟨s', p, hcall⟩
    unfold allocate at hcall
    split at hcall
    · cases hcall
    · cases hcall
    · rename_i t ht
      exact ⟨t, ht⟩
  · intro h
    rcases h with ⟨t, ht⟩
    simp only [Accepts, allocate, ht]
    exact ⟨_, _, rfl⟩

theorem accepts_iff {n live : Nat} (hn : n < sizeT) {s : StagingBuffer} (h : Placed n live s)
    (size : Nat) : Accepts n size s ↔ size < room n s := by
  rw [accepts_iff_loop]
  by_cases hcached : size < s.minFreeSpace
  · have hroom := minFreeSpace_le_room h
    exact iff_of_true ⟨s, allocateLoop_of_room hcached⟩ (by omega)
  · rw [← Nat.not_le, ← pass_giveUp_iff hn h size, allocateLoop, if_neg hcached]
    cases hpass : pass n size false s with
    | mk s' ending =>
        cases ending with
        | leave =>
            exact iff_of_true ⟨s', rfl⟩ (fun hend => by cases hend)
        | giveUp =>
            apply iff_of_false
            · intro hfound
              rcases hfound with ⟨t, ht⟩
              cases ht
            · intro hend
              exact hend rfl
        | again =>
            exact iff_of_true ⟨s', allocateLoop_of_room (pass_again hpass)⟩
              (fun hend => by cases hend)

/-! ## Drained buffers -/

/-- The positions of a drained buffer that leave one stretch of the whole capacity:
both at one end of the storage, or the mark of a wrapped producer at the end. -/
def OneStretch (n : Nat) (s : StagingBuffer) : Prop :=
  if s.consumerPos ≤ s.producerPos then s.producerPos = 0 ∨ s.producerPos = n
  else s.endOfRecord = n

theorem le_room_iff {n : Nat} {s : StagingBuffer} (h : Placed n 0 s) :
    n ≤ room n s ↔ OneStretch n s := by
  rcases h with ha | hb
  · have hcount := ha.count
    have hinside := ha.inside
    have horder : s.consumerPos ≤ s.producerPos := by omega
    rw [room, if_pos horder, OneStretch, if_pos horder]
    omega
  · have horder := hb.order
    have hcount := hb.count
    have hmark := hb.mark
    rw [room, if_neg (by omega), OneStretch, if_neg (by omega)]
    omega

/-- In every run, a buffer that is drained accepts every size below its capacity
exactly when its capacity is one stretch. -/
theorem drained_accepts_iff (n : Nat) (hn : n < sizeT) (ops : List Op)
    (hlegal : Guarded (step n) Legal (World.create n) ops)
    (haddressable : Guarded (step n) (Addressable n) (World.create n) ops)
    (hdrained : (ops.foldl (step n) (World.create n)).liveSize = 0) :
    (∀ size < n, Accepts n size (ops.foldl (step n) (World.create n)).buffer) ↔
      OneStretch n (ops.foldl (step n) (World.create n)).buffer := by
  have hplaced := placed_run hn ops hlegal haddressable
  rw [World.Placed, hdrained] at hplaced
  rw [← le_room_iff hplaced]
  constructor
  · intro h
    apply Nat.le_of_not_lt
    intro hroom
    have hlast := (accepts_iff hn hplaced (room n _)).mp (h _ hroom)
    exact Nat.lt_irrefl _ hlast
  · intro h size hsize
    exact (accepts_iff hn hplaced size).mpr (Nat.lt_of_lt_of_le hsize h)

theorem drained_accepts_iff_run :
    let w := [Op.allocate 127, .deallocate 127, .allocate 64, .deallocate 64, .allocate 63,
      .deallocate 63].foldl (step 128) (World.create 128)
    (∀ size < 128, Accepts 128 size w.buffer) ↔ OneStretch 128 w.buffer :=
  drained_accepts_iff 128 (by decide) [.allocate 127, .deallocate 127, .allocate 64,
    .deallocate 64, .allocate 63, .deallocate 63] (by decide) (by decide) (by decide)

/-- A buffer of 128 bytes that has held one block of 100 does not accept another. -/
theorem drained_refuses :
    ¬ ∀ n, n < sizeT → ∀ ops : List Op, Guarded (step n) Legal (World.create n) ops →
      Guarded (step n) (Addressable n) (World.create n) ops →
      (ops.foldl (step n) (World.create n)).liveSize = 0 →
      ∀ size < n, Accepts n size (ops.foldl (step n) (World.create n)).buffer := by
  intro h
  rcases h 128 (by decide) [.allocate 100, .deallocate 100] (by decide) (by decide) (by decide)
    100 (by decide) with ⟨s, p, hcall⟩
  have hnull : (allocate 128 100 false 1 ([Op.allocate 100, .deallocate 100].foldl (step 128)
      (World.create 128)).buffer).map Prod.snd = some none := by decide
  rw [hcall] at hnull
  cases hnull

end NetTest.Staging
