import NetTest.Basic.StagingBuffer.Model
import NetTest.Lib.Regions
import NetTest.Lib.Runs
import Mathlib.Data.List.Range

/-!
# What the staging buffer hands out

A good state is one of two shapes: the live bytes are one stretch from the
consumer to the producer, or they run from the consumer to the end-of-record
mark and go on from the start to the producer.  `allocate` keeps this, and so
does a `deallocate` that stays on its side of the mark.  The consumer is not
moved past the mark by `deallocate` itself, so one that releases the first block
behind the mark before an `allocate` has rolled the consumer over leaves the
good states.
-/

namespace NetTest.Staging

open Wrapping Runs

/-! ## Good states -/

/-- The live bytes are `[consumer, producer)`. -/
structure Straight (n : Nat) (s : StagingBuffer) : Prop where
  order : s.consumerPos ≤ s.producerPos
  inside : s.producerPos ≤ n
  free : s.minFreeSpace ≤ n - s.producerPos

/-- The live bytes are `[consumer, end_of_record)` and then `[0, producer)`. -/
structure Wrapped (n : Nat) (s : StagingBuffer) : Prop where
  order : s.producerPos < s.consumerPos
  mark : s.consumerPos ≤ s.endOfRecord
  inside : s.endOfRecord ≤ n
  free : s.minFreeSpace ≤ s.consumerPos - s.producerPos

def Good (n : Nat) (s : StagingBuffer) : Prop := Straight n s ∨ Wrapped n s

def liveBytes (s : StagingBuffer) : List Nat :=
  if s.consumerPos ≤ s.producerPos then
    List.range' s.consumerPos (s.producerPos - s.consumerPos)
  else List.range' s.consumerPos (s.endOfRecord - s.consumerPos) ++ List.range' 0 s.producerPos

theorem Straight.liveBytes_eq {n : Nat} {s : StagingBuffer} (h : Straight n s) :
    liveBytes s = List.range' s.consumerPos (s.producerPos - s.consumerPos) := if_pos h.order

theorem Wrapped.liveBytes_eq {n : Nat} {s : StagingBuffer} (h : Wrapped n s) :
    liveBytes s = List.range' s.consumerPos (s.endOfRecord - s.consumerPos) ++
      List.range' 0 s.producerPos := if_neg (Nat.not_le.mpr h.order)

theorem straight_create (n : Nat) : Straight n (create n) where
  order := Nat.le_refl 0
  inside := Nat.zero_le n
  free := Nat.le_refl n

theorem good_peek {n : Nat} (hn : n < sizeT) {s : StagingBuffer} (h : Good n s) :
    Good n (peek s).1 ∧ liveBytes (peek s).1 = liveBytes s ∧
      (peek s).1.minFreeSpace = s.minFreeSpace := by
  unfold peek
  rcases h with hs | hw
  · rw [if_neg (Nat.not_lt.mpr hs.order)]
    exact ⟨Or.inl hs, rfl, rfl⟩
  · have horder := hw.order
    have hmark := hw.mark
    have hinside := hw.inside
    have hfree := hw.free
    rw [if_pos horder, diff_eq hmark (by omega)]
    by_cases hrest : 0 < s.endOfRecord - s.consumerPos
    · rw [if_pos hrest]
      exact ⟨Or.inr hw, rfl, rfl⟩
    · rw [if_neg hrest]
      have hrolled : Straight n { s with consumerPos := 0 } := by
        constructor <;> simp only <;> omega
      refine ⟨Or.inl hrolled, ?_, rfl⟩
      rw [hrolled.liveBytes_eq, hw.liveBytes_eq, show s.endOfRecord - s.consumerPos = 0 by omega]
      rfl

theorem good_endPass {n : Nat} (hn : n < sizeT) {s : StagingBuffer} (h : Good n s) (size : Nat)
    (blocking : Bool) : Good n (endPass size blocking s).1 ∧
      liveBytes (endPass size blocking s).1 = liveBytes s := by
  unfold endPass
  split
  · exact ⟨h, rfl⟩
  · exact ⟨(good_peek hn h).1, (good_peek hn h).2.1⟩

theorem good_pass {n : Nat} (hn : n < sizeT) {s : StagingBuffer} (h : Good n s) (size : Nat)
    (blocking : Bool) : Good n (pass n size blocking s).1 ∧
      liveBytes (pass n size blocking s).1 = liveBytes s := by
  unfold pass
  rcases h with hs | hw
  · have horder := hs.order
    have hinside := hs.inside
    rw [if_pos horder]
    have hfree : diff n s.producerPos = n - s.producerPos := diff_eq hinside hn
    simp only [hfree]
    have hsame : Straight n { s with minFreeSpace := n - s.producerPos } :=
      ⟨horder, hinside, Nat.le_refl _⟩
    by_cases hroom : size < n - s.producerPos
    · rw [if_pos hroom]
      exact ⟨Or.inl hsame, rfl⟩
    · rw [if_neg hroom]
      by_cases hstart : s.consumerPos ≠ 0
      · -- the record ends here and the producer goes back to the start
        rw [if_pos hstart]
        have hzero : diff s.consumerPos 0 = s.consumerPos := diff_eq (Nat.zero_le _) (by omega)
        simp only [hzero]
        have hwrapped : Wrapped n { s with
            endOfRecord := s.producerPos, producerPos := 0, minFreeSpace := s.consumerPos } := by
          constructor <;> simp only <;> omega
        have hend := good_endPass hn (Or.inr hwrapped) size blocking
        refine ⟨hend.1, hend.2.trans ?_⟩
        rw [hwrapped.liveBytes_eq, hs.liveBytes_eq]
        simp
      · rw [if_neg hstart]
        have hkept : Straight n { s with
            minFreeSpace := n - s.producerPos, endOfRecord := s.producerPos } :=
          ⟨horder, hinside, Nat.le_refl _⟩
        have hend := good_endPass hn (Or.inl hkept) size blocking
        refine ⟨hend.1, hend.2.trans ?_⟩
        rw [hkept.liveBytes_eq, hs.liveBytes_eq]
  · have horder := hw.order
    have hmark := hw.mark
    have hinside := hw.inside
    rw [if_neg (Nat.not_le.mpr horder)]
    have hfree : diff s.consumerPos s.producerPos = s.consumerPos - s.producerPos :=
      diff_eq (by omega) (by omega)
    simp only [hfree]
    have hsame : Wrapped n { s with minFreeSpace := s.consumerPos - s.producerPos } :=
      ⟨horder, hmark, hinside, Nat.le_refl _⟩
    have hend := good_endPass hn (Or.inr hsame) size blocking
    refine ⟨hend.1, hend.2.trans ?_⟩
    rw [hsame.liveBytes_eq, hw.liveBytes_eq]

theorem pass_leave {n size : Nat} {blocking : Bool} {s s' : StagingBuffer}
    (h : pass n size blocking s = (s', .leave)) : size < s'.minFreeSpace := by
  have hend : ∀ t, endPass size blocking t ≠ (s', .leave) := by
    intro t ht
    unfold endPass at ht
    split at ht <;> cases ht
  unfold pass at h
  split at h
  · simp only at h
    split at h
    · rename_i hroom
      cases h
      exact hroom
    · split at h <;> exact absurd h (hend _)
  · exact absurd h (hend _)

/-- What every pass keeps, the loop keeps. -/
theorem allocateLoop_inv {P : StagingBuffer → Prop} {n size : Nat} {blocking ok : Bool}
    (hpass : ∀ s, P s → P (pass n size blocking s).1) {passes : Nat} {s s' : StagingBuffer} (h : P s)
    (hloop : allocateLoop n size blocking passes s = some (s', ok)) :
    P s' ∧ (ok = true → size < s'.minFreeSpace) := by
  induction passes generalizing s with
  | zero =>
      rw [allocateLoop] at hloop
      split at hloop
      · rename_i hroom
        cases hloop
        exact ⟨h, fun _ => hroom⟩
      · cases hloop
  | succ passes ih =>
      rw [allocateLoop] at hloop
      split at hloop
      · rename_i hroom
        cases hloop
        exact ⟨h, fun _ => hroom⟩
      · have hkept := hpass s h
        split at hloop
        · rename_i heq
          rw [heq] at hkept
          cases hloop
          exact ⟨hkept, fun _ => pass_leave heq⟩
        · rename_i heq
          rw [heq] at hkept
          cases hloop
          exact ⟨hkept, fun hok => by cases hok⟩
        · rename_i heq
          rw [heq] at hkept
          exact ih hkept hloop

theorem good_allocateLoop {n : Nat} (hn : n < sizeT) {size : Nat} {blocking ok : Bool}
    {passes : Nat} {s s' : StagingBuffer} (h : Good n s)
    (hloop : allocateLoop n size blocking passes s = some (s', ok)) :
    Good n s' ∧ liveBytes s' = liveBytes s ∧ (ok = true → size < s'.minFreeSpace) := by
  have hpass : ∀ t, Good n t ∧ liveBytes t = liveBytes s →
      Good n (pass n size blocking t).1 ∧ liveBytes (pass n size blocking t).1 = liveBytes s := by
    intro t h
    rcases h with ⟨hgood, hlive⟩
    have hkept := good_pass hn hgood size blocking
    exact ⟨hkept.1, hkept.2.trans hlive⟩
  have hend := allocateLoop_inv hpass ⟨h, rfl⟩ hloop
  exact ⟨hend.1.1, hend.1.2, hend.2⟩

theorem good_take {n : Nat} (hn : n < sizeT) {size : Nat} {s : StagingBuffer} (h : Good n s)
    (hroom : size < s.minFreeSpace) :
    let s' := { s with
      minFreeSpace := diff s.minFreeSpace size
      producerPos := s.producerPos + size }
    Good n s' ∧ liveBytes s' = liveBytes s ++ List.range' s.producerPos size ∧
      s.producerPos + size ≤ n ∧
      ∀ x ∈ liveBytes s, ¬ (s.producerPos ≤ x ∧ x < s.producerPos + size) := by
  rcases h with hs | hw
  · have horder := hs.order
    have hinside := hs.inside
    have hfree := hs.free
    have hdiff : diff s.minFreeSpace size = s.minFreeSpace - size := diff_eq (by omega) (by omega)
    have hs' : Straight n { s with
        minFreeSpace := s.minFreeSpace - size, producerPos := s.producerPos + size } := by
      constructor <;> simp only <;> omega
    simp only [hdiff]
    refine ⟨Or.inl hs', ?_, by omega, ?_⟩
    · rw [hs'.liveBytes_eq, hs.liveBytes_eq]
      simp only
      rw [show s.producerPos + size - s.consumerPos = s.producerPos - s.consumerPos + size by omega,
        ← List.range'_append_1, show s.consumerPos + (s.producerPos - s.consumerPos) =
          s.producerPos by omega]
    · intro x hx
      rw [hs.liveBytes_eq, List.mem_range'_1] at hx
      omega
  · have horder := hw.order
    have hmark := hw.mark
    have hinside := hw.inside
    have hfree := hw.free
    have hdiff : diff s.minFreeSpace size = s.minFreeSpace - size := diff_eq (by omega) (by omega)
    have hw' : Wrapped n { s with
        minFreeSpace := s.minFreeSpace - size, producerPos := s.producerPos + size } := by
      constructor <;> simp only <;> omega
    simp only [hdiff]
    refine ⟨Or.inr hw', ?_, by omega, ?_⟩
    · rw [hw'.liveBytes_eq, hw.liveBytes_eq]
      simp only
      rw [← List.range'_append_1, Nat.zero_add, List.append_assoc]
    · intro x hx
      rw [hw.liveBytes_eq, List.mem_append, List.mem_range'_1, List.mem_range'_1] at hx
      omega

/-- Every way in which a call of `allocate` returns. -/
theorem allocate_spec {n : Nat} (hn : n < sizeT) {size passes : Nat} {blocking : Bool}
    {s s' : StagingBuffer} (h : Good n s) {p : Option Nat}
    (hcall : allocate n size blocking passes s = some (s', p)) :
    Good n s' ∧
      (p = none → liveBytes s' = liveBytes s) ∧
      ∀ addr, p = some addr → liveBytes s' = liveBytes s ++ List.range' addr size ∧
        addr + size ≤ n ∧ ∀ x ∈ liveBytes s, ¬ (addr ≤ x ∧ x < addr + size) := by
  unfold allocate at hcall
  split at hcall
  · cases hcall
  · rename_i s₁ hloop
    cases hcall
    rcases good_allocateLoop hn h hloop with ⟨hgood, hlive, _⟩
    exact ⟨hgood, fun _ => hlive, fun addr heq => by cases heq⟩
  · rename_i s₁ hloop
    cases hcall
    rcases good_allocateLoop hn h hloop with ⟨hgood, hlive, hroom⟩
    rcases good_take hn hgood (hroom rfl) with ⟨hgood', hlive', hinside, hfree⟩
    rw [hlive] at hlive' hfree
    refine ⟨hgood', (fun heq => by cases heq), ?_⟩
    intro addr heq
    cases heq
    exact ⟨hlive', hinside, hfree⟩

/-- What a call leaves behind, by what it returns. -/
def Extends (n size : Nat) (s s' : StagingBuffer) : Option Nat → Prop
  | none => liveBytes s' = liveBytes s
  | some addr => addr + size ≤ n ∧ (List.range' addr size).Disjoint (liveBytes s) ∧
      liveBytes s' = liveBytes s ++ List.range' addr size

/-- `allocate` keeps the representation, whether or not it may block. -/
theorem allocate_extends (n : Nat) (hn : n < sizeT) {s s' : StagingBuffer} (h : Good n s)
    {size passes : Nat} {blocking : Bool} {p : Option Nat}
    (hcall : allocate n size blocking passes s = some (s', p)) :
    Good n s' ∧ Extends n size s s' p := by
  rcases allocate_spec hn h hcall with ⟨hgood, hnull, hsome⟩
  cases p with
  | none => exact ⟨hgood, hnull rfl⟩
  | some addr =>
      rcases hsome addr rfl with ⟨hlive, hinside, hfree⟩
      refine ⟨hgood, hinside, ?_, hlive⟩
      intro x hx hlive
      exact hfree x hlive (List.mem_range'_1.mp hx)

/-- A blocking call that wraps behind a drained record and rolls the consumer over. -/
theorem allocate_extends_wrap :
    let s : StagingBuffer :=
      { producerPos := 100, consumerPos := 100, endOfRecord := 128, minFreeSpace := 28 }
    let s' : StagingBuffer :=
      { producerPos := 64, consumerPos := 0, endOfRecord := 100, minFreeSpace := 36 }
    allocate 128 64 true 1 s = some (s', some 0) ∧ Good 128 s' ∧ Extends 128 64 s s' (some 0) := by
  intro s s'
  have hcall : allocate 128 64 true 1 s = some (s', some 0) := by decide
  have hgood : Good 128 s := Or.inl ⟨by decide, by decide, by decide⟩
  exact ⟨hcall, allocate_extends 128 (by decide) hgood hcall⟩

/-! ## Runs -/

structure World where
  buffer : StagingBuffer
  live : List Region

def World.create (n : Nat) : World := { buffer := Staging.create n, live := [] }

inductive Op where
  | allocate (size : Nat)
  | deallocate (size : Nat)

/-- The calls with `blocking` false. -/
def step (n : Nat) (w : World) : Op → World
  | .allocate size =>
      match allocate n size false 1 w.buffer with
      | none => w
      | some (s, none) => { w with buffer := s }
      | some (s, some p) => { buffer := s, live := w.live ++ [⟨p, size⟩] }
  | .deallocate size => { buffer := deallocate size w.buffer, live := w.live.tail }

/-- Sizes are `size_t`, and blocks are released oldest first with their sizes. -/
def Legal (w : World) : Op → Prop
  | .allocate size => size < sizeT
  | .deallocate size => w.live.head?.map Region.size = some size

instance (w : World) (op : Op) : Decidable (Legal w op) :=
  match op with
  | .allocate size => inferInstanceAs (Decidable (size < sizeT))
  | .deallocate size => inferInstanceAs (Decidable (w.live.head?.map Region.size = some size))

def HandsOutFree (n : Nat) (w : World) : Op → Prop
  | .allocate size => ∀ s p, allocate n size false 1 w.buffer = some (s, some p) →
      p + size ≤ n ∧ ∀ b ∈ w.live, ∀ x, p ≤ x → x < p + size → ¬ (b.addr ≤ x ∧ x < b.stop)
  | .deallocate _ => True

def StaysBelowMark (w : World) : Op → Prop
  | .allocate _ => True
  | .deallocate size => w.buffer.producerPos < w.buffer.consumerPos →
      w.buffer.consumerPos + size ≤ w.buffer.endOfRecord

instance (w : World) (op : Op) : Decidable (StaysBelowMark w op) :=
  match op with
  | .allocate _ => inferInstanceAs (Decidable True)
  | .deallocate size => inferInstanceAs (Decidable
      (w.buffer.producerPos < w.buffer.consumerPos →
        w.buffer.consumerPos + size ≤ w.buffer.endOfRecord))

def blockBytes (live : List Region) : List Nat :=
  live.flatMap fun b => List.range' b.addr b.size

/-- The live blocks are, one after the other, the live bytes. -/
structure Inv (n : Nat) (w : World) : Prop where
  good : Good n w.buffer
  blocks : blockBytes w.live = liveBytes w.buffer

theorem inv_create (n : Nat) : Inv n (World.create n) where
  good := Or.inl (straight_create n)
  blocks := rfl

theorem handsOutFree {n : Nat} (hn : n < sizeT) {w : World} (h : Inv n w) (op : Op) :
    HandsOutFree n w op := by
  cases op with
  | deallocate size => trivial
  | allocate size =>
      intro s p hcall
      rcases (allocate_spec hn h.good hcall).2.2 p rfl with ⟨_, hinside, hfree⟩
      refine ⟨hinside, ?_⟩
      intro b hb x hx hx' hbx
      refine hfree x ?_ ⟨hx, hx'⟩
      rw [← h.blocks, blockBytes, List.mem_flatMap]
      exact ⟨b, hb, List.mem_range'_1.mpr hbx⟩

theorem inv_allocate {n : Nat} (hn : n < sizeT) {w : World} (h : Inv n w) (size : Nat) :
    Inv n (step n w (.allocate size)) := by
  rcases allocate_nonblocking n size 0 w.buffer with ⟨⟨s, p⟩, hcall⟩
  rcases allocate_spec hn h.good hcall with ⟨hgood, hnull, hsome⟩
  cases p with
  | none =>
      simp only [step, hcall]
      exact ⟨hgood, h.blocks.trans (hnull rfl).symm⟩
  | some p =>
      simp only [step, hcall]
      refine ⟨hgood, ?_⟩
      rw [(hsome p rfl).1, ← h.blocks]
      simp [blockBytes]

theorem inv_deallocate {n : Nat} {w : World} (h : Inv n w) {size : Nat}
    (hlegal : Legal w (.deallocate size)) (hmark : StaysBelowMark w (.deallocate size)) :
    Inv n (step n w (.deallocate size)) := by
  have holdest : ∃ addr rest, w.live = ⟨addr, size⟩ :: rest := by
    rcases Option.map_eq_some_iff.mp hlegal with ⟨b, hb, hsize⟩
    rcases List.head?_eq_some_iff.mp hb with ⟨rest, hrest⟩
    subst hsize
    exact ⟨b.addr, rest, hrest⟩
  rcases holdest with ⟨addr, rest, hlive⟩
  have hblocks : List.range' addr size ++ blockBytes rest = liveBytes w.buffer := by
    rw [← h.blocks, hlive]
    rfl
  have hlen : size ≤ (liveBytes w.buffer).length := by
    rw [← hblocks, List.length_append, List.length_range']
    omega
  have hrest : blockBytes rest = (liveBytes w.buffer).drop size := by
    rw [← hblocks, List.drop_append_of_le_length (by rw [List.length_range']),
      List.drop_of_length_le (by rw [List.length_range']), List.nil_append]
  simp only [step, deallocate, hlive, List.tail_cons]
  rcases h.good with hs | hw
  · have horder := hs.order
    rw [hs.liveBytes_eq, List.length_range'] at hlen
    have hs' : Straight n { w.buffer with consumerPos := w.buffer.consumerPos + size } :=
      ⟨by simp only; omega, hs.inside, hs.free⟩
    refine ⟨Or.inl hs', ?_⟩
    rw [hrest, hs'.liveBytes_eq, hs.liveBytes_eq, List.drop_range', Nat.mul_one, Nat.sub_sub]
  · have horder := hw.order
    have hbelow := hmark horder
    have hfree := hw.free
    have hw' : Wrapped n { w.buffer with consumerPos := w.buffer.consumerPos + size } :=
      ⟨by simp only; omega, hbelow, hw.inside, by simp only; omega⟩
    refine ⟨Or.inr hw', ?_⟩
    rw [hrest, hw'.liveBytes_eq, hw.liveBytes_eq,
      List.drop_append_of_le_length (by rw [List.length_range']; omega), List.drop_range',
      Nat.mul_one, Nat.sub_sub]

/-- As long as no release crosses the end-of-record mark, every pointer that is
handed out denotes free bytes of the storage. -/
theorem stagingBuffer_handsOutFree (n : Nat) (hn : n < sizeT) (ops : List Op)
    (hlegal : Guarded (step n) Legal (World.create n) ops)
    (hmark : Guarded (step n) StaysBelowMark (World.create n) ops) :
    Guarded (step n) (HandsOutFree n) (World.create n) ops := by
  refine guarded_of_inv (Inv n) ?_ (inv_create n) (guarded_and.mpr ⟨hlegal, hmark⟩)
  intro w op hw hop
  refine ⟨?_, handsOutFree hn hw op⟩
  cases op with
  | allocate size => exact inv_allocate hn hw size
  | deallocate size => exact inv_deallocate hw hop.1 hop.2

theorem stagingBuffer_handsOutFree_run :
    Guarded (step 128) (HandsOutFree 128) (World.create 128)
      [.allocate 64, .deallocate 64, .allocate 60, .deallocate 60, .allocate 60, .deallocate 60] :=
  stagingBuffer_handsOutFree 128 (by decide) _ (by decide) (by decide)

/-- An allocation that fails wraps the producer, so that the consumer stands at
the mark while the next block is at the start.  Releasing that block takes the
consumer beyond the mark, and a few calls later a block ends behind the
storage. -/
theorem stagingBuffer_overruns :
    ¬ ∀ n, n < sizeT → ∀ ops : List Op, Guarded (step n) Legal (World.create n) ops →
      Guarded (step n) (HandsOutFree n) (World.create n) ops := by
  intro h
  have hruns := h 128 (by decide) [.allocate 64, .deallocate 64, .allocate 100, .allocate 10,
    .deallocate 10, .allocate 60, .deallocate 60, .allocate 63] (by decide)
  have hlast := hruns.2.2.2.2.2.2.2.1 _ 70 rfl
  exact absurd hlast.1 (by decide)

end NetTest.Staging
