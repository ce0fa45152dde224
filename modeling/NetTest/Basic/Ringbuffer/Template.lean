import NetTest.Basic.Ringbuffer.Alone

/-!
# The template arguments that work

The assertions on the template arguments let two kinds through that do not
work.  An `index_t` narrower than `int` is promoted before the subtraction, so
that a difference of wrapped indexes is negative and `insert` takes a full
buffer for one with room.  And a size that does not fit `index_t` leaves a mask
of a smaller ring behind, which never looks full.
-/

namespace NetTest.Spsc

open Wrapping Runs

variable {α : Type*} {p : Params}

/-- Both sides rest, with this many elements put and taken, and `head` so. -/
structure Resting (s : System α) (put taken head : Nat) : Prop where
  producer : s.producer = .idle
  consumer : s.consumer = .idle
  put : s.reported.length = put
  taken : s.removed.length = taken
  head : s.ring.head = head

theorem Resting.insert {s : System α} {put taken : Nat} (h : Resting s put taken (put % p.indexT))
    (hroom : gap p s.ring.head s.ring.tail ≠ p.bufferSize) (data : α) :
    Resting ((insertEvents data).foldl (step p) s) (put + 1) taken ((put + 1) % p.indexT) ∧
      ((insertEvents data).foldl (step p) s).ring.tail = s.ring.tail := by
  have hinsert : Spsc.insert p s.ring data =
      ({ s.ring with
        dataBuff := Function.update s.ring.dataBuff (slot p s.ring.head) data
        head := next p s.ring.head }, true) := by
    rw [Spsc.insert, if_neg hroom]
  have hput := h.put
  rw [insert_alone h.producer, hinsert]
  refine ⟨⟨h.producer, h.consumer, ?_, h.taken, ?_⟩, rfl⟩
  · rw [System.reported, h.producer] at hput
    rw [System.reported]
    simp only [h.producer]
    simp only [Producer.published, List.append_nil, List.length_flatMap, List.map_append,
      List.sum_append] at hput ⊢
    simpa using hput
  · simp only [h.head, next_mod]

theorem Resting.remove {s : System α} {put taken : Nat} (h : Resting s put taken (put % p.indexT))
    (hsome : s.ring.tail ≠ s.ring.head) :
    Resting (removeEvents.foldl (step p) s) put (taken + 1) (put % p.indexT) ∧
      (removeEvents.foldl (step p) s).ring.tail = next p s.ring.tail := by
  have hremove : Spsc.remove p s.ring =
      ({ s.ring with tail := next p s.ring.tail },
        some (s.ring.dataBuff (slot p s.ring.tail))) := by
    rw [Spsc.remove, if_neg hsome]
  rw [remove_alone h.consumer, hremove]
  refine ⟨⟨h.producer, h.consumer, h.put, ?_, h.head⟩, rfl⟩
  simp [h.taken]

/-- Inserts that are never refused. -/
theorem exists_inserted (data : α) {s : System α} {put taken : Nat}
    (h : Resting s put taken (put % p.indexT)) (count : Nat)
    (hroom : ∀ i, i < count → gap p ((put + i) % p.indexT) s.ring.tail ≠ p.bufferSize) :
    ∃ events : List (Event α),
      Resting (events.foldl (step p) s) (put + count) taken ((put + count) % p.indexT) ∧
        (events.foldl (step p) s).ring.tail = s.ring.tail := by
  induction count with
  | zero => exact ⟨[], h, rfl⟩
  | succ count ih =>
      rcases ih fun i hi => hroom i (Nat.lt_succ_of_lt hi) with ⟨events, hrest, htail⟩
      have hgap := hroom count (Nat.lt_succ_self count)
      rw [← htail, ← hrest.head] at hgap
      have hinsert := hrest.insert hgap data
      refine ⟨events ++ insertEvents data, ?_, ?_⟩
      · rw [List.foldl_append]
        exact hinsert.1
      · rw [List.foldl_append, hinsert.2, htail]

theorem gap_self (p : Params) (index : Nat) : gap p index index = 0 := by
  unfold gap diff
  split
  · rw [Nat.add_sub_cancel_left, Nat.mod_self]
  · rw [Nat.add_sub_cancel_left, Nat.mod_self]

theorem indexT_ge (p : Params) : 256 ≤ p.indexT := by
  have hpow : 2 ^ 8 ≤ 2 ^ p.indexBits := Nat.pow_le_pow_right Nat.two_pos p.indexBits_ge
  exact hpow

theorem exists_moved (p : Params) (data : α) (dataBuff : Nat → α) (count : Nat) :
    ∃ events : List (Event α),
      Resting (events.foldl (step p) (System.create dataBuff)) count count (count % p.indexT) ∧
        (events.foldl (step p) (System.create dataBuff)).ring.tail = count % p.indexT := by
  induction count with
  | zero => exact ⟨[], ⟨rfl, rfl, rfl, rfl, (Nat.zero_mod _).symm⟩, (Nat.zero_mod _).symm⟩
  | succ count ih =>
      rcases ih with ⟨events, hrest, htail⟩
      have hempty : gap p (events.foldl (step p) (System.create dataBuff)).ring.head
          (events.foldl (step p) (System.create dataBuff)).ring.tail ≠ p.bufferSize := by
        rw [hrest.head, htail, gap_self]
        exact p.size_ne_zero.symm
      have hinsert := hrest.insert hempty data
      have hne : ((insertEvents data).foldl (step p)
            (events.foldl (step p) (System.create dataBuff))).ring.tail ≠
          ((insertEvents data).foldl (step p)
            (events.foldl (step p) (System.create dataBuff))).ring.head := by
        have hwide := indexT_ge p
        rw [hinsert.2, hinsert.1.head, htail]
        intro hsame
        have hone := Nat.le_of_dvd (by omega) (dvd_of_add_mod_eq hsame.symm)
        omega
      have hremove := hinsert.1.remove hne
      refine ⟨events ++ (insertEvents data ++ removeEvents), ?_, ?_⟩
      · rw [List.foldl_append, List.foldl_append]
        exact hremove.1
      · rw [List.foldl_append, List.foldl_append, hremove.2, hinsert.2, htail, next_mod]

/-- A narrow index lets an element in over a full buffer, once `head` has wrapped
and `tail` has not. -/
theorem exists_overfull (hnarrow : p.indexBits < 32) (hsize : p.bufferSize < p.indexT) (data : α)
    (dataBuff : Nat → α) :
    ∃ events : List (Event α),
      ¬ Fifo p (events.foldl (step p) (System.create dataBuff)) := by
  have hwide := indexT_ge p
  have hmask : p.bufferSize - 1 ≤ (p.indexT - 1) / 2 := by
    have hle := p.mask_le
    rw [Nat.shiftRight_eq_div_pow, Nat.pow_one] at hle
    have hmod : (p.bufferSize - 1) % p.indexT = p.bufferSize - 1 := Nat.mod_eq_of_lt (by omega)
    rwa [Params.indexT, ← hmod]
  have hindexT : p.indexT < 2 ^ 32 := Nat.pow_lt_pow_right (by decide) hnarrow
  rcases exists_moved p data dataBuff (p.indexT - 1) with ⟨moved, hrest, htail⟩
  rw [Nat.mod_eq_of_lt (by omega)] at htail
  have hroom : ∀ i, i < p.bufferSize + 1 →
      gap p ((p.indexT - 1 + i) % p.indexT)
        (moved.foldl (step p) (System.create dataBuff)).ring.tail ≠ p.bufferSize := by
    intro i hi
    rw [htail]
    rcases Nat.eq_zero_or_pos i with rfl | hpos
    · rw [Nat.add_zero, Nat.mod_eq_of_lt (by omega), gap_self]
      exact p.size_ne_zero.symm
    · rw [mod_of_wrapped (by omega) (by omega), gap, if_pos hnarrow, diff,
        Nat.mod_eq_of_lt (by unfold sizeT; omega)]
      unfold sizeT
      omega
  rcases exists_inserted data hrest (p.bufferSize + 1) hroom with ⟨events, hfull, _⟩
  refine ⟨moved ++ events, ?_⟩
  rw [List.foldl_append]
  intro hfifo
  have hbounded := hfifo.bounded
  rw [hfull.put, hfull.taken] at hbounded
  omega

/-- A size beyond the range of the index never looks full, and a buffer that was
filled up to the range looks empty. -/
theorem exists_lost (hsize : p.indexT ≤ p.bufferSize) (data : α) (dataBuff : Nat → α) :
    ∃ events : List (Event α),
      ¬ Fifo p (events.foldl (step p) (System.create dataBuff)) := by
  have hwide := indexT_ge p
  have hstart : Resting (System.create dataBuff) 0 0 (0 % p.indexT) :=
    ⟨rfl, rfl, rfl, rfl, (Nat.zero_mod _).symm⟩
  have hroom : ∀ i, i < p.indexT →
      gap p ((0 + i) % p.indexT) (System.create dataBuff).ring.tail ≠ p.bufferSize := by
    intro i hi
    have hgap : gap p i 0 = i := by
      unfold gap
      split
      · have hle := Nat.le_of_dvd (Nat.two_pow_pos 64) (indexT_dvd p)
        exact diff_eq (Nat.zero_le i) (Nat.lt_of_lt_of_le hi hle)
      · rw [Nat.sub_zero, Nat.add_mod_right, Nat.mod_eq_of_lt hi]
    rw [Nat.zero_add, Nat.mod_eq_of_lt hi]
    intro hfull
    have heq : gap p i 0 = p.bufferSize := hfull
    omega
  rcases exists_inserted data hstart p.indexT hroom with ⟨events, hfull, htail⟩
  refine ⟨events, ?_⟩
  intro hfifo
  have hcontents := congrArg List.length hfifo.contents
  have hread : readAvailable p (events.foldl (step p) (System.create dataBuff)).ring = 0 := by
    rw [readAvailable, hfull.head, htail, Nat.zero_add, Nat.mod_self, unread]
    have hzero : gap p 0 0 = 0 := gap_self p 0
    rw [show (System.create dataBuff).ring.tail = 0 from rfl, hzero, Nat.zero_mod]
  rw [contents, hread, List.length_drop, hfull.put, hfull.taken] at hcontents
  simp at hcontents
  omega

/-- The buffer keeps its order in every interleaving for exactly these template
arguments: the index is not narrower than `int`, and the size is in its range. -/
theorem spsc_fifo_iff (p : Params) (data : α) :
    (∀ (dataBuff : Nat → α) (events : List (Event α)),
      Always (step p) (Fifo p) (System.create dataBuff) events) ↔ p.Counts := by
  constructor
  · intro h
    by_contra hcounts
    have hbad : ∃ events : List (Event α),
        ¬ Fifo p (events.foldl (step p) (System.create fun _ => data)) := by
      rcases Nat.lt_or_ge p.bufferSize p.indexT with hsize | hsize
      · have hnarrow : p.indexBits < 32 := by
          apply Nat.lt_of_not_ge
          intro hwide
          exact hcounts ⟨hwide, hsize⟩
        exact exists_overfull hnarrow hsize data fun _ => data
      · exact exists_lost hsize data fun _ => data
    rcases hbad with ⟨events, hbad⟩
    exact hbad (h (fun _ => data) events).last
  · intro hp dataBuff events
    exact always_fifo hp dataBuff events

end NetTest.Spsc
