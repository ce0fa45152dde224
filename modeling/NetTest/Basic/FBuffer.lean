import NetTest.Lib.Memory
import NetTest.Lib.Runs
import NetTest.Lib.Wrapping

/-!
# The fixed buffer

`fbuffer.h`: bytes are appended at `tail_` and consumed by moving `head_`, and
`shrink_to_fit` is to move what is left to the start.  It moves from `data()`,
and `data()` is the start already, so the bytes stay while the positions change.
The guard of `peak` adds the offset to `head_` modulo `2^64`.  `fixed_buffer.h` has the
same algorithm.
-/

namespace NetTest

open Memory Runs Wrapping

/-- `fbuffer<N>`; the capacity is an argument of the operations. -/
structure FBuffer where
  data : Memory
  head : Nat
  tail : Nat

namespace FBuffer

/-- The constructor; the other bytes are what the memory held. -/
def create (data : Memory) : FBuffer := { data := store data 0 [0], head := 0, tail := 0 }

def length (n : Nat) (b : FBuffer) : Nat :=
  if b.head ≤ b.tail then diff b.tail b.head else (diff ((n + 1) % sizeT) b.head + b.tail) % sizeT

/-- The pointer is returned as an offset into the data. -/
def peak (b : FBuffer) (off : Nat) : FBuffer × Option Nat :=
  if b.tail < (b.head + off) % sizeT then (b, none)
  else ({ b with head := (b.head + off) % sizeT }, some ((b.head + off) % sizeT))

/-- `memmove(data_, data(), length())`, where `data()` returns `data_`. -/
def shrinkToFit (n : Nat) (b : FBuffer) : FBuffer where
  data := store b.data 0 (load b.data 0 (b.length n))
  tail := diff b.tail b.head
  head := 0

/-- `none` is a null pointer. -/
def append (n : Nat) (b : FBuffer) (data : Option (List UInt8)) : FBuffer × Bool :=
  match data with
  | none => (b, false)
  | some bytes =>
      if diff n b.tail < bytes.length then (b, false)
      else
        ({ b with data := store b.data b.tail bytes, tail := (b.tail + bytes.length) % sizeT }, true)

/-! ## Runs -/

inductive Op where
  | append (data : Option (List UInt8))
  | peak (off : Nat)
  | shrinkToFit

structure World where
  buf : FBuffer
  appended : List UInt8
  consumed : Nat

def init (data : Memory) : World := { buf := create data, appended := [], consumed := 0 }

def step (n : Nat) (w : World) : Op → World
  | .append data =>
      let r := append n w.buf data
      { w with
        buf := r.1
        appended := if r.2 then w.appended ++ data.getD [] else w.appended }
  | .peak off =>
      let r := peak w.buf off
      { w with buf := r.1, consumed := if r.2.isSome then w.consumed + off else w.consumed }
  | .shrinkToFit => { w with buf := shrinkToFit n w.buf }

def Legal (n : Nat) (w : World) : Op → Prop
  | .append data => ∀ bytes ∈ data, bytes.length < sizeT
  | .peak off => off ≤ w.buf.length n
  | .shrinkToFit => True

instance (n : Nat) (w : World) : ∀ op : Op, Decidable (Legal n w op)
  | .append data => inferInstanceAs (Decidable (∀ bytes ∈ data, bytes.length < sizeT))
  | .peak off => inferInstanceAs (Decidable (off ≤ w.buf.length n))
  | .shrinkToFit => inferInstanceAs (Decidable True)

/-- The readable bytes, `data()[head_ .. tail_)`. -/
def readable (b : FBuffer) : List UInt8 := load b.data b.head (b.tail - b.head)

structure Fifo (n : Nat) (w : World) : Prop where
  head_le : w.buf.head ≤ w.buf.tail
  tail_le : w.buf.tail ≤ n
  consumed_le : w.consumed ≤ w.appended.length
  contents : readable w.buf = w.appended.drop w.consumed

/-- Bytes are refused only for want of space. -/
def RefusesFull (n : Nat) (w : World) : Op → Prop
  | .append data => ∀ bytes ∈ data, (append n w.buf data).2 = false →
      n - w.buf.tail < bytes.length
  | _ => True

/-- A compaction that finds at the start what is to be moved there. -/
def InPlace (n : Nat) (w : World) : Op → Prop
  | .shrinkToFit => load w.buf.data 0 (w.buf.length n) = load w.buf.data w.buf.head (w.buf.length n)
  | _ => True

/-! ## Steps -/

variable {n off : Nat} {w : World} {b : FBuffer} {bytes : List UInt8}

structure Ordered (n : Nat) (b : FBuffer) : Prop where
  head_le : b.head ≤ b.tail
  tail_le : b.tail ≤ n

theorem Ordered.length_eq (h : Ordered n b) (hn : n < sizeT) : b.length n = b.tail - b.head := by
  have htail := h.tail_le
  rw [length, if_pos h.head_le, diff_eq h.head_le (by omega)]

theorem peak_of_le (hlt : b.head + off < sizeT) (h : b.head + off ≤ b.tail) :
    peak b off = ({ b with head := b.head + off }, some (b.head + off)) := by
  rw [peak, Nat.mod_eq_of_lt hlt, if_neg (Nat.not_lt.mpr h)]

theorem peak_of_lt (hlt : b.head + off < sizeT) (h : b.tail < b.head + off) :
    peak b off = (b, none) := by
  rw [peak, Nat.mod_eq_of_lt hlt, if_pos h]

theorem append_of_full (htail : b.tail ≤ n) (hn : n < sizeT) (h : n - b.tail < bytes.length) :
    append n b (some bytes) = (b, false) := by
  have hroom : diff n b.tail = n - b.tail := diff_eq htail hn
  simp only [append, hroom, if_pos h]

theorem append_of_room (htail : b.tail ≤ n) (hn : n < sizeT) (h : ¬ n - b.tail < bytes.length) :
    append n b (some bytes) =
      ({ b with data := store b.data b.tail bytes, tail := b.tail + bytes.length }, true) := by
  have hroom : diff n b.tail = n - b.tail := diff_eq htail hn
  have hmod : (b.tail + bytes.length) % sizeT = b.tail + bytes.length :=
    Nat.mod_eq_of_lt (by omega)
  simp only [append, hroom, if_neg h, hmod]

theorem Fifo.length_eq (h : Fifo n w) (hn : n < sizeT) :
    w.buf.length n = w.buf.tail - w.buf.head :=
  Ordered.length_eq ⟨h.head_le, h.tail_le⟩ hn

theorem Fifo.append (h : Fifo n w) (hn : n < sizeT) (bytes : List UInt8) :
    Fifo n (step n w (.append (some bytes))) ∧ RefusesFull n w (.append (some bytes)) := by
  have hhead := h.head_le
  have htail := h.tail_le
  by_cases hfull : n - w.buf.tail < bytes.length
  · have hrefused := append_of_full htail hn hfull
    constructor
    · simp only [step, hrefused]
      exact h
    · intro bytes' hbytes _
      cases hbytes
      exact hfull
  · have haccepted := append_of_room htail hn hfull
    constructor
    · simp only [step, haccepted, if_true, Option.getD_some]
      constructor
      · exact Nat.le_trans hhead (Nat.le_add_right _ _)
      · simp only
        omega
      · rw [List.length_append]
        exact Nat.le_trans h.consumed_le (Nat.le_add_right _ _)
      · -- the new bytes lie behind the readable ones
        have hsum : w.buf.tail + bytes.length - w.buf.head =
            (w.buf.tail - w.buf.head) + bytes.length := by omega
        have hend : w.buf.head + (w.buf.tail - w.buf.head) = w.buf.tail := by omega
        have hold : load (store w.buf.data w.buf.tail bytes) w.buf.head
            (w.buf.tail - w.buf.head) = w.appended.drop w.consumed := by
          rw [load_store_of_disjoint _ (.inl (by omega))]
          exact h.contents
        rw [readable, hsum, load_add, hend, hold, load_store_self,
          List.drop_append_of_le_length h.consumed_le]
    · intro bytes' _ hfalse
      rw [haccepted] at hfalse
      cases hfalse

theorem Fifo.peak (h : Fifo n w) (hn : n < sizeT) {off : Nat} (hoff : off ≤ w.buf.length n) :
    Fifo n (step n w (.peak off)) := by
  have hhead := h.head_le
  have htail := h.tail_le
  rw [h.length_eq hn] at hoff
  have hpeak : FBuffer.peak w.buf off =
      ({ w.buf with head := w.buf.head + off }, some (w.buf.head + off)) :=
    peak_of_le (by omega) (by omega)
  have hlen : (w.appended.drop w.consumed).length = w.buf.tail - w.buf.head := by
    rw [← h.contents, readable, length_load]
  simp only [step, hpeak, Option.isSome_some, if_true]
  constructor
  · simp only
    omega
  · exact htail
  · rw [List.length_drop] at hlen
    have hle := h.consumed_le
    simp only
    omega
  · have hdrop := congrArg (List.drop off) h.contents
    rw [readable, drop_load, List.drop_drop, Nat.sub_sub] at hdrop
    exact hdrop

/-- The compaction leaves the bytes where they are. -/
theorem shrinkToFit_eq (h : Fifo n w) (hn : n < sizeT) :
    shrinkToFit n w.buf = { data := w.buf.data, head := 0, tail := w.buf.tail - w.buf.head } := by
  have htail := h.tail_le
  rw [shrinkToFit, store_load, diff_eq h.head_le (by omega)]

theorem fifo_shrinkToFit_iff (h : Fifo n w) (hn : n < sizeT) :
    Fifo n (step n w .shrinkToFit) ↔ InPlace n w .shrinkToFit := by
  have hhead := h.head_le
  have htail := h.tail_le
  have hold := h.contents
  unfold InPlace
  simp only [step, shrinkToFit_eq h hn, h.length_eq hn]
  constructor
  · intro h'
    have hnew := h'.contents
    exact hnew.trans hold.symm
  · intro hsame
    refine ⟨Nat.zero_le _, ?_, h.consumed_le, ?_⟩
    · simp only
      omega
    · exact hsame.trans hold

/-- In every run the buffer is a FIFO of bytes exactly as long as every
compaction finds the readable bytes at the start already: nothing had been
consumed, nothing was left, or what was left happens to equal the bytes in front
of it. -/
theorem fbuffer_fifo_iff (n : Nat) (hn : n < sizeT) (data : Memory) (ops : List Op)
    (hlegal : Guarded (step n) (Legal n) (init data) ops) :
    (Always (step n) (Fifo n) (init data) ops ∧
        Guarded (step n) (RefusesFull n) (init data) ops) ↔
      Guarded (step n) (InPlace n) (init data) ops := by
  apply always_guarded_iff (Fifo n) (Legal n) (RefusesFull n) (fun _ h => h) ?_ ?_ ?_ hlegal
  · intro w op h hop hok
    cases op with
    | append data =>
        cases data with
        | none => exact ⟨h, fun _ hbytes => (nomatch hbytes)⟩
        | some bytes => exact h.append hn bytes
    | peak off => exact ⟨h.peak hn hop, trivial⟩
    | shrinkToFit => exact ⟨(fifo_shrinkToFit_iff h hn).mpr hok, trivial⟩
  · intro w op h _ hbad _
    cases op with
    | append data => exact absurd trivial hbad
    | peak off => exact absurd trivial hbad
    | shrinkToFit => exact fun h' => hbad ((fifo_shrinkToFit_iff h hn).mp h')
  · exact ⟨Nat.le_refl _, Nat.zero_le _, Nat.le_refl _, rfl⟩

/-- Everything is consumed before the compaction, so the space is free again. -/
theorem fbuffer_fifo_emptied :
    (Always (step 4) (Fifo 4) (init fun _ => 0)
        [.append (some [104, 105]), .peak 2, .shrinkToFit, .append (some [1, 2, 3, 4])] ∧
      Guarded (step 4) (RefusesFull 4) (init fun _ => 0)
        [.append (some [104, 105]), .peak 2, .shrinkToFit, .append (some [1, 2, 3, 4])]) ↔
      Guarded (step 4) (InPlace 4) (init fun _ => 0)
        [.append (some [104, 105]), .peak 2, .shrinkToFit, .append (some [1, 2, 3, 4])] :=
  fbuffer_fifo_iff 4 (by decide) (fun _ => 0) _ (by decide)

/-- Two bytes arrive and the first is read: after the compaction it is read once
more, and the second never. -/
theorem shrinkToFit_keeps_consumed :
    ¬ ∀ (n : Nat), n < sizeT → ∀ (data : Memory) (ops : List Op),
      Guarded (step n) (Legal n) (init data) ops →
        Always (step n) (Fifo n) (init data) ops ∧
          Guarded (step n) (RefusesFull n) (init data) ops := by
  intro h
  have hfifo := (h 16 (by decide) (fun _ => 0)
    [.append (some [104, 105]), .peak 1, .shrinkToFit] (by decide)).1.last
  have hreadable : ([104] : List UInt8) = [105] := hfifo.contents
  cases hreadable

/-! ## Consuming -/

structure Consumes (n : Nat) (b : FBuffer) (off : Nat) : Prop where
  succeeds : (peak b off).2.isSome = true ↔ off ≤ b.length n
  failed : (peak b off).2 = none → (peak b off).1 = b
  advanced : ∀ pos, (peak b off).2 = some pos →
    (peak b off).1 = { b with head := b.head + off } ∧ pos = b.head + off

/-- Consuming is bounded, and only `shrink_to_fit` moves the head back. -/
def Bounded (n : Nat) (w : World) : Op → Prop
  | .append data => w.buf.head ≤ (step n w (.append data)).buf.head
  | .peak off => Consumes n w.buf off ∧ w.buf.head ≤ (step n w (.peak off)).buf.head
  | .shrinkToFit => True

def Sized (_ : World) : Op → Prop
  | .peak off => off < sizeT
  | _ => True

def NoWrap (w : World) : Op → Prop
  | .peak off => w.buf.head + off < sizeT
  | _ => True

instance (w : World) : ∀ op : Op, Decidable (Sized w op)
  | .append _ => inferInstanceAs (Decidable True)
  | .peak off => inferInstanceAs (Decidable (off < sizeT))
  | .shrinkToFit => inferInstanceAs (Decidable True)

/-- An offset that wraps the sum always passes the guard. -/
theorem consumes_iff (h : Ordered n b) (hn : n < sizeT) (hoff : off < sizeT) :
    Consumes n b off ↔ b.head + off < sizeT := by
  have hhead := h.head_le
  have htail := h.tail_le
  have hlen := h.length_eq hn
  constructor
  · intro hconsumes
    by_contra hwrap
    have hmod : (b.head + off) % sizeT = b.head + off - sizeT :=
      mod_of_wrapped (Nat.le_of_not_lt hwrap) (by omega)
    have hpasses : (peak b off).2.isSome = true := by
      rw [peak, hmod, if_neg (by omega)]
      rfl
    have hle := hconsumes.succeeds.mp hpasses
    omega
  · intro hlt
    by_cases hfew : b.tail < b.head + off
    · have hpeak := peak_of_lt hlt hfew
      constructor
      · rw [hpeak]
        apply iff_of_false Bool.false_ne_true
        omega
      · intro _
        rw [hpeak]
      · intro pos hpos
        rw [hpeak] at hpos
        cases hpos
    · have hpeak := peak_of_le hlt (Nat.le_of_not_lt hfew)
      constructor
      · rw [hpeak]
        apply iff_of_true rfl
        omega
      · intro hnone
        rw [hpeak] at hnone
        cases hnone
      · intro pos hpos
        rw [hpeak] at hpos ⊢
        cases hpos
        exact ⟨rfl, rfl⟩

theorem ordered_step (hn : n < sizeT) (w : World) (op : Op) (h : Ordered n w.buf) :
    Ordered n (step n w op).buf := by
  have hhead := h.head_le
  have htail := h.tail_le
  cases op with
  | append data =>
      cases data with
      | none => exact h
      | some bytes =>
          by_cases hfull : n - w.buf.tail < bytes.length
          · simp only [step, append_of_full htail hn hfull]
            exact h
          · simp only [step, append_of_room htail hn hfull]
            constructor
            · exact Nat.le_trans hhead (Nat.le_add_right _ _)
            · simp only
              omega
  | peak off =>
      show Ordered n (peak w.buf off).1
      rw [peak]
      split
      · exact h
      · rename_i hguard
        exact ⟨Nat.le_of_not_lt hguard, htail⟩
  | shrinkToFit =>
      constructor
      · exact Nat.zero_le _
      · show diff w.buf.tail w.buf.head ≤ n
        rw [diff_eq hhead (by omega)]
        omega

theorem bounded_iff (hn : n < sizeT) (w : World) (op : Op) (h : Ordered n w.buf)
    (hsized : Sized w op) : Bounded n w op ↔ NoWrap w op := by
  cases op with
  | append data =>
      apply iff_of_true
      · cases data with
        | none => simp only [Bounded, step, append, Nat.le_refl]
        | some bytes =>
            by_cases hfull : n - w.buf.tail < bytes.length
            · simp only [Bounded, step, append_of_full h.tail_le hn hfull, Nat.le_refl]
            · simp only [Bounded, step, append_of_room h.tail_le hn hfull, Nat.le_refl]
      · trivial
  | peak off =>
      have hiff := consumes_iff h hn hsized
      constructor
      · intro hbounded
        exact hiff.mp hbounded.1
      · intro hlt
        refine ⟨hiff.mpr hlt, ?_⟩
        by_cases hfew : w.buf.tail < w.buf.head + off
        · simp only [step, peak_of_lt hlt hfew, Nat.le_refl]
        · simp only [step, peak_of_le hlt (Nat.le_of_not_lt hfew), Nat.le_add_right]
  | shrinkToFit => exact Iff.rfl

/-- In every run consuming is bounded exactly as long as no sum in the guard wraps. -/
theorem peak_bounded_iff (n : Nat) (hn : n < sizeT) (data : Memory) (ops : List Op)
    (hsized : Guarded (step n) Sized (init data) ops) :
    Guarded (step n) (Bounded n) (init data) ops ↔ Guarded (step n) NoWrap (init data) ops := by
  have hstart : Ordered n (init data).buf := ⟨Nat.le_refl 0, Nat.zero_le n⟩
  have hiff : ∀ w op, Ordered n w.buf →
      ((Sized w op ∧ Bounded n w op) ↔ (Sized w op ∧ NoWrap w op)) :=
    fun w op h => and_congr_right fun hop => bounded_iff hn w op h hop
  have hboth := guarded_congr (P := fun w : World => Ordered n w.buf) (ordered_step hn) hiff hstart ops
  rw [guarded_and, guarded_and] at hboth
  constructor
  · intro h
    exact (hboth.mp ⟨hsized, h⟩).2
  · intro h
    exact (hboth.mpr ⟨hsized, h⟩).2

theorem peak_bounded_iff_five :
    Guarded (step 16) (Bounded 16) (init fun _ => 0)
        [.append (some [104, 105]), .peak 1, .peak 5, .shrinkToFit, .peak (sizeT - 1)] ↔
      Guarded (step 16) NoWrap (init fun _ => 0)
        [.append (some [104, 105]), .peak 1, .peak 5, .shrinkToFit, .peak (sizeT - 1)] :=
  peak_bounded_iff 16 (by decide) _ _ (by decide)

/-- With the head at 1 the offset `2^64 - 1` is accepted, and the head goes back to
0. -/
theorem peak_moves_back :
    let ops : List Op := [.append (some [104, 105]), .peak 1, .peak (sizeT - 1)]
    (ops.foldl (step 16) (init fun _ => 0)).buf.head = 0 ∧
      ¬ Guarded (step 16) (Bounded 16) (init fun _ => 0) ops := by
  intro ops
  constructor
  · decide
  · intro h
    have hback := h.2.2.1.2
    revert hback
    decide

end FBuffer

end NetTest
