import NetTest.Core.Queue.Model
import NetTest.Lib.Ring
import NetTest.Lib.Runs

/-!
# The queue against a bounded FIFO

The abstract queue is a list of at most `n` held elements.  Concrete and
abstract queue run in lock step, and `Agrees` says that everything a caller
could observe next is what the abstract queue says.

Two positions in `0..n` cannot tell a full queue from an empty one once `head`
has moved: the push that would fill the queue then makes `end` meet `head`.
That push is the only way to lose agreement, and it always does.
-/

namespace NetTest.Queue

open Runs NetTest.Ring

variable {α : Type*}

inductive Op (α : Type*) where
  | push (val : α)
  | get

/-! ## The abstract queue -/

def fifoPush (n : Nat) (held : List α) (val : α) : List α :=
  if held.length = n then held else held ++ [val]

/-- The code and the abstract queue perform the same call. -/
def lockStep (n : Nat) (s : NgxQueue α × List α) : Op α → NgxQueue α × List α
  | .push val => ((ngxQueuePush s.1 val).1, fifoPush n s.2 val)
  | .get => ((ngxQueueGet s.1).1, s.2.tail)

/-- Whatever is called next, the code answers as the abstract queue: `push`
fails exactly on `n` held elements, `get` yields a slot of the array that holds
the oldest element, or null exactly when nothing is held. -/
structure Agrees (n : Nat) (q : NgxQueue α) (held : List α) : Prop where
  size : ngxQueueSize q = held.length
  empty : ngxQueueEmpty q = true ↔ held = []
  push : ∀ val, (ngxQueuePush q val).2 = false ↔ held.length = n
  get_value : (ngxQueueGet q).2.map q.elts = held.head?
  get_slot : ∀ slot, (ngxQueueGet q).2 = some slot → slot < n

/-- The push that fills the queue finds `head` at slot zero, which means that no
element has been removed so far. -/
def FillsFromZero (n : Nat) (s : NgxQueue α × List α) : Op α → Prop
  | .push _ => s.2.length + 1 = n → s.1.head = 0
  | .get => True

/-! ## Representation -/

/-- The held elements are the window from `head`; `end` is where the window
stops, left unfolded at `n`; a full queue starts at slot zero. -/
structure Represents (n : Nat) (q : NgxQueue α) (held : List α) : Prop where
  nalloc : q.nalloc = n
  head_le : q.head ≤ n
  length_le : held.length ≤ n
  full : held.length = n → q.head = 0
  tail_eq : q.tail = if q.head + held.length ≤ n then q.head + held.length
    else q.head + held.length - n
  held_eq : held = window q.elts n q.head held.length

theorem ngxQueuePush_head (q : NgxQueue α) (val : α) : (ngxQueuePush q val).1.head = q.head := by
  rw [ngxQueuePush]
  split <;> rfl

theorem represents_create (n : Nat) (memory : Nat → α) :
    Represents n (ngxCreateQueue memory n) [] := by
  constructor <;> simp [ngxCreateQueue]

namespace Represents

variable {n : Nat} {q : NgxQueue α} {held : List α}

theorem size_eq (h : Represents n q held) : ngxQueueSize q = held.length := by
  obtain ⟨hn, hhead, hlen, hfull, htail, _⟩ := h
  unfold ngxQueueSize
  rw [hn, htail]
  split <;> split <;> omega

theorem empty_iff (h : Represents n q held) : ngxQueueEmpty q = true ↔ held = [] := by
  have hsize := h.size_eq
  obtain ⟨hn, hhead, hlen, hfull, htail, _⟩ := h
  rw [← List.length_eq_zero_iff]
  simp only [ngxQueueEmpty, beq_iff_eq, htail]
  split <;> omega

/-- The folded `head`, as `get` computes it, is the first cell of the window. -/
theorem head_slot (h : Represents n q held) :
    (if q.nalloc ≤ q.head then 0 else q.head) = wrap n q.head := by
  have hhead := h.head_le
  rw [h.nalloc]
  unfold wrap
  split <;> split <;> omega

/-- The folded `end`, as `push` computes it, is the cell behind the window. -/
theorem tail_slot (h : Represents n q held) (hroom : held.length < n) :
    (if q.nalloc ≤ q.tail then 0 else q.tail) = wrap n (q.head + held.length) := by
  have hhead := h.head_le
  have htail := h.tail_eq
  rw [h.nalloc, htail]
  unfold wrap
  split <;> split <;> (try split) <;> omega

theorem get_value (h : Represents n q held) : (ngxQueueGet q).2.map q.elts = held.head? := by
  unfold ngxQueueGet
  by_cases hempty : held = []
  · rw [if_pos (h.empty_iff.mpr hempty), hempty]
    rfl
  · obtain ⟨count, hcount⟩ := Nat.exists_eq_succ_of_ne_zero
      (fun hz => hempty (List.length_eq_zero_iff.mp hz))
    have hwindow := h.held_eq
    rw [hcount, Nat.succ_eq_add_one, window_succ_first] at hwindow
    rw [if_neg (fun he => hempty (h.empty_iff.mp he)), h.head_slot, hwindow]
    rfl

theorem get_slot (h : Represents n q held) {slot : Nat}
    (hget : (ngxQueueGet q).2 = some slot) : slot < n := by
  unfold ngxQueueGet at hget
  by_cases hempty : held = []
  · rw [if_pos (h.empty_iff.mpr hempty)] at hget
    cases hget
  · have hlen : 0 < held.length := List.length_pos_iff.mpr hempty
    have hhead := h.head_le
    have hle := h.length_le
    rw [if_neg (fun he => hempty (h.empty_iff.mp he)), h.head_slot] at hget
    cases hget
    exact wrap_lt (by omega)

theorem push_result (h : Represents n q held) (val : α) :
    (ngxQueuePush q val).2 = false ↔ held.length = n := by
  unfold ngxQueuePush
  rw [h.nalloc, h.size_eq]
  split <;> simp <;> omega

theorem agrees (h : Represents n q held) : Agrees n q held where
  size := h.size_eq
  empty := h.empty_iff
  push := h.push_result
  get_value := h.get_value
  get_slot _ hget := h.get_slot hget

theorem get (h : Represents n q held) : Represents n (ngxQueueGet q).1 held.tail := by
  unfold ngxQueueGet
  by_cases hempty : held = []
  · rw [if_pos (h.empty_iff.mpr hempty)]
    subst hempty
    exact h
  · have hlen : 0 < held.length := List.length_pos_iff.mpr hempty
    rw [if_neg (fun he => hempty (h.empty_iff.mp he)), h.head_slot]
    obtain ⟨hn, hhead, hle, hfull, htail, hwindow⟩ := h
    obtain ⟨count, hcount⟩ := Nat.exists_eq_succ_of_ne_zero (Nat.ne_of_gt hlen)
    have htaillen : held.tail.length = count := by simp [hcount]
    refine ⟨hn, ?_, ?_, ?_, ?_, ?_⟩
    · exact wrap_lt (by omega)
    · omega
    · intro hfull'
      omega
    · simp only [htaillen, htail, hcount]
      unfold wrap
      split <;> split <;> split <;> omega
    · rw [htaillen, hwindow, hcount, Nat.succ_eq_add_one, window_succ_first, List.tail_cons]
      rcases Nat.lt_or_ge q.head n with hlt | hge
      · rw [wrap_of_lt hlt]
      · have hq : q.head = n := by omega
        have hfold := window_start_self q.elts (show count + 1 ≤ n by omega)
        rw [window_succ_first, window_succ_first] at hfold
        rw [hq, wrap_self]
        exact (List.cons.inj hfold).2

/-- A push that finds room keeps the representation, unless it fills the queue
with `head` off slot zero. -/
theorem push (h : Represents n q held) (val : α)
    (hfill : held.length + 1 = n → q.head = 0) :
    Represents n (ngxQueuePush q val).1 (fifoPush n held val) := by
  unfold ngxQueuePush fifoPush
  by_cases hlen : held.length = n
  · rw [if_pos (by rw [h.nalloc, h.size_eq, hlen]), if_pos hlen]
    exact h
  · have hroom : held.length < n := lt_of_le_of_ne h.length_le hlen
    rw [if_neg (by rw [h.nalloc, h.size_eq]; omega), if_neg hlen, h.tail_slot hroom]
    obtain ⟨hn, hhead, hle, hfull, htail, hwindow⟩ := h
    refine ⟨hn, hhead, ?_, ?_, ?_, ?_⟩
    · simp only [List.length_append, List.length_singleton]
      omega
    · simp only [List.length_append, List.length_singleton]
      exact hfill
    · simp only [List.length_append, List.length_singleton]
      unfold wrap
      split <;> split <;> omega
    · simp only [List.length_append, List.length_singleton]
      rw [window_succ_last, window_update q.elts val hroom, ← hwindow, Function.update_self]

/-- The other pushes make `end` meet `head`. -/
theorem push_lost_size (h : Represents n q held) (val : α) (hsize : held.length + 1 = n)
    (hhead0 : q.head ≠ 0) : ngxQueueSize (ngxQueuePush q val).1 = 0 := by
  have hroom : held.length < n := by omega
  have hhead := h.head_le
  unfold ngxQueuePush
  rw [if_neg (by rw [h.nalloc, h.size_eq]; omega), h.tail_slot hroom]
  simp only [ngxQueueSize, h.nalloc]
  unfold wrap
  split <;> split <;> omega

theorem push_lost (h : Represents n q held) (val : α)
    (hsize : held.length + 1 = n) (hhead0 : q.head ≠ 0) :
    ¬ Agrees n (ngxQueuePush q val).1 (fifoPush n held val) := by
  intro hagrees
  have hheld : (fifoPush n held val).length = n := by
    rw [fifoPush, if_neg (by omega), List.length_append, List.length_singleton, hsize]
  have hsize' := hagrees.size
  rw [hheld, h.push_lost_size val hsize hhead0] at hsize'
  omega

end Represents

/-! ## Runs -/

/-- Along a run of a fresh queue the code answers every call as the bounded
FIFO exactly when each push that fills the queue finds `head` at slot zero. -/
theorem ngxQueue_agrees_iff (n : Nat) (memory : Nat → α) (ops : List (Op α)) :
    Always (lockStep n) (fun s => Agrees n s.1 s.2) (ngxCreateQueue memory n, []) ops ↔
      Guarded (lockStep n) (FillsFromZero n) (ngxCreateQueue memory n, []) ops := by
  refine always_iff_guarded (fun s => Represents n s.1 s.2) (fun _ _ => True)
    ?_ ?_ ?_ (represents_create n memory) (guarded_of_forall (fun _ _ => trivial) _ _)
  · intro s hs
    exact hs.agrees
  · intro s op hs _ hop
    cases op with
    | push val => exact hs.push val hop
    | get => exact hs.get
  · intro s op hs _ hop
    cases op with
    | push val =>
        simp only [FillsFromZero, Classical.not_imp] at hop
        exact hs.push_lost val hop.1 hop.2
    | get => exact absurd trivial hop

/-- Two slots, filled, drained by one and filled again: the queue then holds
two elements and reports none. -/
theorem ngxQueue_refill_reports_empty :
    ¬ ∀ (n : Nat) (memory : Nat → Nat) (ops : List (Op Nat)), 1 ≤ n →
      Always (lockStep n) (fun s => Agrees n s.1 s.2) (ngxCreateQueue memory n, []) ops := by
  intro h
  obtain ⟨_, _, _, _, hlast⟩ := h 2 (fun _ => 0) [.push 7, .push 8, .get, .push 9] (by decide)
  exact absurd hlast.size (by decide)

end NetTest.Queue
