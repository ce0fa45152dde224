import Mathlib.Order.Lattice
import Mathlib.Order.RelClasses
import NetTest.Basic.BHeap.World

/-!
# The heap as a priority queue

`erase` fills the hole with the last element `x` and then decides from a single
comparison, with the new last element of the array, whether `x` moves up or
down.  That comparison says nothing about the neighbours of the hole.
`RepairFits` is the exact condition under which the chosen direction is one
that repairs the order; along a run it is met at every `erase` and `pop` if and
only if the heap is a priority queue throughout.
-/

namespace NetTest.BHeap

open Runs BinaryHeap

variable {α : Type} {h : BHeap α} {live : Ptr → Option α} {comp : α → α → Bool}

/-- The order `comp_` decides. -/
abbrev Below (comp : α → α → Bool) : α → α → Prop := fun a b => comp a b = true

def stdLess [LinearOrder α] (a b : α) : Bool := decide (a < b)

instance [LinearOrder α] : IsStrictWeakOrder α (Below stdLess) := by
  have heq : Below (stdLess (α := α)) = (· < ·) := by
    funext a b
    simp [Below, stdLess]
  rw [heq]
  exact isStrictWeakOrder_of_isOrderConnected

/-! ## What `sift_down` chooses -/

theorem largestKey_spec [IsStrictWeakOrder α (Below comp)] {a : Nat → α} {n i : Nat} (hne : largestKey comp a n i ≠ i) :
    parent (largestKey comp a n i) = i ∧ 0 < largestKey comp a n i ∧
      largestKey comp a n i < n ∧ Below comp (a i) (a (largestKey comp a n i)) ∧
      ∀ s, parent s = i → 0 < s → s < n → ¬ Below comp (a (largestKey comp a n i)) (a s) := by
  unfold largestKey at hne ⊢
  by_cases hleft : 2 * i + 1 < n ∧ comp (a i) (a (2 * i + 1)) = true
  · simp only [if_pos hleft] at hne ⊢
    by_cases hright : 2 * i + 2 < n ∧ comp (a (2 * i + 1)) (a (2 * i + 2)) = true
    · simp only [if_pos hright]
      refine ⟨parent_right i, by omega, hright.1, ?_, ?_⟩
      · exact IsTrans.trans (r := Below comp) _ _ _ hleft.2 hright.2
      · intro s hs hspos _
        rcases child_cases hspos hs with rfl | rfl
        · exact asymm_of (Below comp) hright.2
        · exact irrefl (r := Below comp) _
    · simp only [if_neg hright]
      refine ⟨parent_left i, by omega, hleft.1, hleft.2, ?_⟩
      intro s hs hspos hsn
      rcases child_cases hspos hs with rfl | rfl
      · exact irrefl (r := Below comp) _
      · exact fun hcomp => hright ⟨hsn, hcomp⟩
  · simp only [if_neg hleft] at hne ⊢
    by_cases hright : 2 * i + 2 < n ∧ comp (a i) (a (2 * i + 2)) = true
    · simp only [if_pos hright]
      refine ⟨parent_right i, by omega, hright.1, hright.2, ?_⟩
      intro s hs hspos hsn
      rcases child_cases hspos hs with rfl | rfl
      · -- the left child is not above `i`, so not above the right one either
        have hnot : ¬ Below comp (a i) (a (2 * i + 1)) := fun hcomp => hleft ⟨hsn, hcomp⟩
        exact not_lt_trans (asymm_of (Below comp) hright.2) hnot
      · exact irrefl (r := Below comp) _
    · simp only [if_neg hright, ne_eq, not_true_eq_false] at hne

theorem largestKey_stop {a : Nat → α} {n i : Nat} (heq : largestKey comp a n i = i) :
    ∀ c, parent c = i → 0 < c → c < n → ¬ Below comp (a i) (a c) := by
  intro c hc hpos hlt hcomp
  unfold largestKey at heq
  by_cases hleft : 2 * i + 1 < n ∧ comp (a i) (a (2 * i + 1)) = true
  · simp only [if_pos hleft] at heq
    split at heq <;> omega
  · simp only [if_neg hleft] at heq
    split at heq
    · omega
    · rename_i hright
      rcases child_cases hpos hc with rfl | rfl
      · exact hleft ⟨hlt, hcomp⟩
      · exact hright ⟨hlt, hcomp⟩

theorem live_of_update_none {p c : Ptr} {v : α}
    (hc : Function.update live p none c = some v) : live c = some v := by
  by_cases hcp : c = p
  · subst hcp
    simp at hc
  · rwa [Function.update_of_ne hcp] at hc

/-! ## When the repair fits -/

section Keys

variable [Inhabited α]

/-- The direction `erase idx` takes is one that repairs the order: if the
element `x` that fills the hole compares below the new last element, no child of
the hole is above `x`; otherwise `x` is not above the parent of the hole. -/
def RepairFits (comp : α → α → Bool) (h : BHeap α) (idx : Nat) : Prop :=
  idx + 1 < h.size →
    let x := h.key (h.size - 1)
    let newLast := if idx + 2 = h.size then x else h.key (h.size - 2)
    if comp x newLast then
      ∀ c, c < h.size - 1 → parent c = idx → 0 < c → comp x (h.key c) = false
    else
      0 < idx → comp (h.key (parent idx)) x = false

instance (comp : α → α → Bool) (h : BHeap α) (idx : Nat) : Decidable (RepairFits comp h idx) :=
  inferInstanceAs (Decidable (_ → ite _ _ _))

/-- The array with the last element `x` in the hole: off the hole nothing has
changed, and the old neighbours of the hole are still in order. -/
structure Filled (comp : α → α → Bool) (h rest : BHeap α) (idx : Nat) : Prop where
  size : rest.size = h.size - 1
  hole : rest.key idx = h.key (h.size - 1)
  off : ∀ i, i ≠ idx → i < rest.size → rest.key i = h.key i
  edge : ∀ j, j ≠ idx → parent j ≠ idx → 0 < j → j < rest.size →
    ¬ Below comp (rest.key (parent j)) (rest.key j)
  grand : 0 < idx → ∀ c, parent c = idx → 0 < c → c < rest.size →
    ¬ Below comp (rest.key (parent idx)) (rest.key c)

theorem Filled.repairFits_iff {rest : BHeap α} {idx : Nat} (hf : Filled comp h rest idx)
    (hidx : idx < rest.size) :
    RepairFits comp h idx ↔
      if comp (rest.key idx) (rest.key (rest.size - 1)) then
        ∀ c, parent c = idx → 0 < c → c < rest.size → ¬ Below comp (rest.key idx) (rest.key c)
      else 0 < idx → ¬ Below comp (rest.key (parent idx)) (rest.key idx) := by
  have hsize := hf.size
  have hlast : rest.key (rest.size - 1) =
      if idx + 2 = h.size then h.key (h.size - 1) else h.key (h.size - 2) := by
    split
    · rw [show rest.size - 1 = idx by omega, hf.hole]
    · rw [hf.off _ (by omega) (by omega), hsize]
      rfl
  unfold RepairFits
  rw [hlast, hf.hole, forall_prop_of_true (show idx + 1 < h.size by omega)]
  dsimp only
  generalize (if idx + 2 = h.size then h.key (h.size - 1) else h.key (h.size - 2)) = newLast
  by_cases hcomp : comp (h.key (h.size - 1)) newLast = true
  · simp only [if_pos hcomp]
    constructor
    · intro hcond c hc hcpos hcl
      have hcp := parent_lt hcpos
      rw [hf.off c (by omega) hcl, Below, Bool.not_eq_true]
      exact hcond c (by omega) hc hcpos
    · intro hcond c hcl hc hcpos
      have hcp := parent_lt hcpos
      have := hcond c hc hcpos (by omega)
      rwa [hf.off c (by omega) (by omega), Below, Bool.not_eq_true] at this
  · simp only [if_neg hcomp]
    refine forall_congr' fun hpos => ?_
    have hpp := parent_lt hpos
    rw [hf.off (parent idx) (by omega) (by omega), Below, Bool.not_eq_true]

/-! ## Loops that stop at once -/

theorem Holds.siftUp_stop (hh : Holds h live) {idx : Nat} (hidx : idx < h.size)
    (hstop : 0 < idx → comp (h.key (parent idx)) (h.key idx) = false) :
    h.siftUp comp idx = .ok h := by
  rcases Nat.eq_zero_or_pos idx with rfl | hpos
  · rw [BHeap.siftUp]
    rfl
  · have hp := parent_lt hpos
    have hless : h.less comp ((idx - 1) / 2) idx = .ok false := by
      rw [← hstop hpos]
      exact hh.less (show parent idx < h.size by omega) hidx
    rw [BHeap.siftUp, dif_neg (by omega)]
    simp [hless, bind, Except.bind, pure, Except.pure]

theorem Holds.siftDown_stop (hh : Holds h live) {idx : Nat} (hidx : idx < h.size)
    (hstop : ∀ c, parent c = idx → 0 < c → c < h.size → comp (h.key idx) (h.key c) = false) :
    h.siftDown comp idx = .ok h := by
  have hlargest : largestKey comp h.key h.size idx = idx := by
    have hleft : ¬ (2 * idx + 1 < h.size ∧ comp (h.key idx) (h.key (2 * idx + 1)) = true) := by
      rintro ⟨hlt, hcomp⟩
      rw [hstop _ (parent_left idx) (by omega) hlt] at hcomp
      cases hcomp
    have hright : ¬ (2 * idx + 2 < h.size ∧ comp (h.key idx) (h.key (2 * idx + 2)) = true) := by
      rintro ⟨hlt, hcomp⟩
      rw [hstop _ (parent_right idx) (by omega) hlt] at hcomp
      cases hcomp
    simp only [largestKey, if_neg hleft, if_neg hright]
  have hl : h.largestOf comp h.size idx = .ok idx := by
    rw [hh.largestOf hidx, hlargest]
  exact siftDownFrom_stop hl

/-- The order as the code tests it. -/
theorem Holds.less_iff_ordered (hh : Holds h live) :
    (∀ i, 0 < i → i < h.size → h.less comp ((i - 1) / 2) i = .ok false) ↔
      Ordered (Below comp) h.key h.size := by
  have hless : ∀ i, 0 < i → i < h.size →
      h.less comp ((i - 1) / 2) i = .ok (comp (h.key (parent i)) (h.key i)) := by
    intro i hpos hlt
    have hp := parent_lt hpos
    exact hh.less (show parent i < h.size by omega) hlt
  constructor
  · intro hall i _ hpos hlt
    have := (hless i hpos hlt).symm.trans (hall i hpos hlt)
    simpa [Below] using this
  · intro hord i hpos hlt
    rw [hless i hpos hlt]
    simpa [Below] using hord i trivial hpos hlt

/-! ## The loops repair the order -/

section Order

variable [IsStrictWeakOrder α (Below comp)]

theorem Holds.siftUp_ordered (hh : Holds h live) {idx : Nat} (hidx : idx < h.size)
    (hready : UpReady (Below comp) h.key h.size idx) :
    ∃ h', h.siftUp comp idx = .ok h' ∧ Holds h' live ∧ h'.size = h.size ∧
      Ordered (Below comp) h'.key h'.size := by
  obtain ⟨h', heq, hh', hsize, hord⟩ :=
    siftUp_rule comp (n := h.size) (Φ := fun a i => UpReady (Below comp) a h.size i)
      (Ψ := fun a => Ordered (Below comp) a h.size)
      (fun a i ha hpos hi hlt => ha.move hpos hi hlt)
      (fun a i ha hstop => ha.finish fun hpos => by simp [Below, hstop hpos])
      hh rfl hidx hready
  exact ⟨h', heq, hh', hsize, hsize ▸ hord⟩

theorem Holds.siftDown_ordered (hh : Holds h live) {idx : Nat} (hidx : idx < h.size)
    (hready : DownReady (Below comp) (fun _ => True) h.key h.size idx) :
    ∃ h', h.siftDown comp idx = .ok h' ∧ Holds h' live ∧ h'.size = h.size ∧
      Ordered (Below comp) h'.key h'.size := by
  obtain ⟨h', heq, hh', hsize, hord⟩ :=
    siftDown_rule comp (n := h.size)
      (Φ := fun a i => i < h.size ∧ DownReady (Below comp) (fun _ => True) a h.size i)
      (Ψ := fun a => Ordered (Below comp) a h.size)
      (fun a i ha _ hne => by
        obtain ⟨hparent, hpos, hlt, hbelow, hmax⟩ := largestKey_spec hne
        exact ⟨hlt, ha.2.move (fun _ _ _ => trivial) hparent hpos hlt hbelow hmax⟩)
      (fun a i ha hstop => ha.2.finish (largestKey_stop hstop))
      (fun a a' i ha hord => ⟨ha.1, hord.downReady (fun _ _ _ => trivial) ha.1⟩)
      hh rfl hidx ⟨hidx, hready⟩
  exact ⟨h', heq, hh', hsize, hsize ▸ hord⟩

/-! ## Operations on an ordered heap -/

theorem Holds.insert_ordered (hh : Holds h live) (hord : Ordered (Below comp) h.key h.size)
    {t : α} {p : Ptr} (hfresh : h.ctx p = none) :
    ∃ h', h.insert comp t p = .ok h' ∧ Holds h' (Function.update live p (some t)) ∧
      Ordered (Below comp) h'.key h'.size := by
  have hready : UpReady (Below comp) (h.pushBack t p).key (h.pushBack t p).size h.size := by
    rw [pushBack_size]
    constructor
    · intro j hj hpos hlt
      have hp := parent_lt hpos
      rw [hh.pushBack_key hfresh (by omega), hh.pushBack_key hfresh (by omega)]
      exact hord j trivial hpos (by omega)
    · intro _ c hc hpos hlt
      have := parent_lt hpos
      omega
  rw [insert_eq]
  obtain ⟨h', heq, hh', _, hord'⟩ := (hh.pushBack hfresh).siftUp_ordered (by simp) hready
  exact ⟨h', heq, hh', hord'⟩

theorem filled_of_erase (hord : Ordered (Below comp) h.key h.size) {rest : BHeap α} {idx : Nat}
    (hidx : idx < rest.size) (hsize : rest.size = h.size - 1)
    (hkey : ∀ i, i < h.size - 1 → rest.key i = h.key (Equiv.swap idx (h.size - 1) i)) :
    Filled comp h rest idx := by
  have hoff : ∀ i, i ≠ idx → i < rest.size → rest.key i = h.key i := by
    intro i hi hlt
    rw [hkey i (by omega), Equiv.swap_apply_of_ne_of_ne hi (by omega)]
  refine ⟨hsize, ?_, hoff, ?_, ?_⟩
  · rw [hkey idx (by omega), Equiv.swap_apply_left]
  · intro j hj hpj hpos hlt
    have hp := parent_lt hpos
    rw [hoff j hj hlt, hoff (parent j) hpj (by omega)]
    exact hord j trivial hpos (by omega)
  · intro hpos c hc hcpos hlt
    have hp := parent_lt hpos
    have hcp := parent_lt hcpos
    rw [hoff c (by omega) hlt, hoff (parent idx) (by omega) (by omega)]
    have hedge : ¬ Below comp (h.key idx) (h.key c) := hc ▸ hord c trivial hcpos (by omega)
    exact not_lt_trans (hord idx trivial hpos (by omega)) hedge

theorem Filled.not_below_child {rest : BHeap α} {idx : Nat} (hf : Filled comp h rest idx)
    (hpos : 0 < idx) (habove : Below comp (rest.key (parent idx)) (rest.key idx))
    {c : Nat} (hc : parent c = idx) (hcpos : 0 < c) (hlt : c < rest.size) :
    ¬ Below comp (rest.key idx) (rest.key c) :=
  not_lt_trans (asymm_of (Below comp) habove) (hf.grand hpos c hc hcpos hlt)

/-- Moving up ends in order exactly when no child is above the moved element. -/
theorem Filled.siftUp_iff {rest : BHeap α} {idx : Nat} (hf : Filled comp h rest idx)
    (hh : Holds rest live) (hidx : idx < rest.size) :
    ∃ h', rest.siftUp comp idx = .ok h' ∧ Holds h' live ∧ h'.size = rest.size ∧
      (Ordered (Below comp) h'.key h'.size ↔
        ∀ c, parent c = idx → 0 < c → c < rest.size →
          ¬ Below comp (rest.key idx) (rest.key c)) := by
  by_cases hchild : ∀ c, parent c = idx → 0 < c → c < rest.size →
      ¬ Below comp (rest.key idx) (rest.key c)
  · have hready : UpReady (Below comp) rest.key rest.size idx := by
      refine ⟨?_, hf.grand⟩
      intro j hj hpos hlt
      by_cases hpj : parent j = idx
      · exact hpj ▸ hchild j hpj hpos hlt
      · exact hf.edge j hj hpj hpos hlt
    obtain ⟨h', heq, hh', hsize, hord⟩ := hh.siftUp_ordered hidx hready
    exact ⟨h', heq, hh', hsize, fun _ => hchild, fun _ => hord⟩
  · push Not at hchild
    obtain ⟨c, hc, hcpos, hlt, hbelow⟩ := hchild
    have hstop : 0 < idx → comp (rest.key (parent idx)) (rest.key idx) = false := by
      intro hpos
      rw [← Bool.not_eq_true]
      exact fun habove => hf.not_below_child hpos habove hc hcpos hlt hbelow
    refine ⟨rest, hh.siftUp_stop hidx hstop, hh, rfl, ?_, ?_⟩
    · intro hord
      exact absurd hbelow (hc ▸ hord c trivial hcpos hlt)
    · intro hno
      exact absurd hbelow (hno c hc hcpos hlt)

/-- Moving down ends in order exactly when the moved element is not above the
parent of the hole. -/
theorem Filled.siftDown_iff {rest : BHeap α} {idx : Nat} (hf : Filled comp h rest idx)
    (hh : Holds rest live) (hidx : idx < rest.size) :
    ∃ h', rest.siftDown comp idx = .ok h' ∧ Holds h' live ∧ h'.size = rest.size ∧
      (Ordered (Below comp) h'.key h'.size ↔
        (0 < idx → ¬ Below comp (rest.key (parent idx)) (rest.key idx))) := by
  by_cases habove : 0 < idx → ¬ Below comp (rest.key (parent idx)) (rest.key idx)
  · have hready : DownReady (Below comp) (fun _ => True) rest.key rest.size idx := by
      refine ⟨?_, fun _ => hf.grand⟩
      intro j _ hpj hpos hlt
      by_cases hj : j = idx
      · subst hj
        exact habove hpos
      · exact hf.edge j hj hpj hpos hlt
    obtain ⟨h', heq, hh', hsize, hord⟩ := hh.siftDown_ordered hidx hready
    exact ⟨h', heq, hh', hsize, fun _ => habove, fun _ => hord⟩
  · rw [Classical.not_imp, Classical.not_not] at habove
    obtain ⟨hpos, habove⟩ := habove
    have hstop : ∀ c, parent c = idx → 0 < c → c < rest.size →
        comp (rest.key idx) (rest.key c) = false := by
      intro c hc hcpos hlt
      rw [← Bool.not_eq_true]
      exact hf.not_below_child hpos habove hc hcpos hlt
    refine ⟨rest, hh.siftDown_stop hidx hstop, hh, rfl, ?_, ?_⟩
    · intro hord
      exact absurd habove (hord idx trivial hpos hidx)
    · intro hno
      exact absurd habove (hno hpos)

/-- What `erase` does to an ordered heap. -/
theorem Holds.erase_ordered_iff (hh : Holds h live) (hord : Ordered (Below comp) h.key h.size)
    {idx : Nat} (hidx : idx < h.size) {p : Ptr} (hp : h.heap[idx]? = some p) :
    ∃ h', h.erase comp idx = .ok h' ∧ Holds h' (Function.update live p none) ∧
      (Ordered (Below comp) h'.key h'.size ↔ RepairFits comp h idx) := by
  obtain ⟨rest, hrest, hsize, hkey, _, heq⟩ := hh.erase_eq comp hidx hp
  rw [heq]
  by_cases hlt : idx < rest.size
  · have hf := filled_of_erase hord hlt hsize hkey
    rw [if_pos hlt, hf.repairFits_iff hlt]
    split
    · obtain ⟨h', heq', hh', _, hiff⟩ := hf.siftUp_iff hrest hlt
      exact ⟨h', heq', hh', hiff⟩
    · obtain ⟨h', heq', hh', _, hiff⟩ := hf.siftDown_iff hrest hlt
      exact ⟨h', heq', hh', hiff⟩
  · -- the erased element was the last one
    rw [if_neg hlt]
    refine ⟨rest, rfl, hrest, ?_⟩
    have hord' : Ordered (Below comp) rest.key rest.size := by
      intro j _ hpos hj
      have hpj := parent_lt hpos
      rw [hkey j (by omega), hkey (parent j) (by omega),
        Equiv.swap_apply_of_ne_of_ne (by omega) (by omega),
        Equiv.swap_apply_of_ne_of_ne (by omega) (by omega)]
      exact hord j trivial hpos (by omega)
    exact ⟨fun _ hsmall => absurd hsmall (by omega), fun _ => hord'⟩

theorem Holds.live_key (hh : Holds h live) {c : Ptr} {v : α} (hc : live c = some v) :
    ∃ i, i < h.size ∧ h.key i = v := by
  obtain ⟨i, hi⟩ := List.getElem?_of_mem (hh.held c v hc)
  obtain ⟨v', hctx, hlive⟩ := hh.slot i c hi
  rw [hc] at hlive
  cases hlive
  exact ⟨i, (List.getElem?_eq_some_iff.mp hi).choose, key_of_slot hi hctx⟩

theorem Holds.root_max (hh : Holds h live) (hord : Ordered (Below comp) h.key h.size)
    {c : Ptr} {v : α} (hc : live c = some v) : comp (h.key 0) v = false := by
  obtain ⟨i, hi, rfl⟩ := hh.live_key hc
  simpa [Below] using hord.root hi

/-! ## Runs -/

/-- A priority queue as its callers see it. -/
structure PriorityQueue (comp : α → α → Bool) (w : World α) : Prop where
  ordered : ∀ i, 0 < i → i < w.heap.size → w.heap.less comp ((i - 1) / 2) i = .ok false
  top_max : 0 < w.heap.size → ∃ x, w.heap.top = .ok x ∧ (∃ c, w.live c = some x) ∧
    ∀ c v, w.live c = some v → comp x v = false
  pop_max : 0 < w.heap.size → ∃ x h', w.heap.pop comp = .ok (x, h') ∧ (∃ c, w.live c = some x) ∧
    ∀ c v, w.live c = some v → comp x v = false
  drained : w.drained.Pairwise fun x y => comp x y = false

/-- What carries the induction: besides the order, everything popped since the
last insertion is not below what is left. -/
structure OrderedWorld (comp : α → α → Bool) (w : World α) : Prop where
  holds : Holds w.heap w.live
  ordered : Ordered (Below comp) w.heap.key w.heap.size
  above : ∀ x ∈ w.drained, ∀ c v, w.live c = some v → comp x v = false
  drained : w.drained.Pairwise fun x y => comp x y = false

def FitsOp (comp : α → α → Bool) : Option (World α) → Op α → Prop
  | some w, .erase idx => RepairFits comp w.heap idx
  | some w, .pop => RepairFits comp w.heap 0
  | _, _ => True

instance : ∀ (s : Option (World α)) (op : Op α), Decidable (FitsOp comp s op)
  | some w, .erase idx => inferInstanceAs (Decidable (RepairFits comp w.heap idx))
  | some w, .pop => inferInstanceAs (Decidable (RepairFits comp w.heap 0))
  | some _, .insert _ _ => inferInstanceAs (Decidable True)
  | none, _ => inferInstanceAs (Decidable True)

theorem OrderedWorld.priorityQueue {w : World α} (ho : OrderedWorld comp w) :
    PriorityQueue comp w := by
  have hroot : 0 < w.heap.size → ∃ c, w.live c = some (w.heap.key 0) := by
    intro hpos
    obtain ⟨p, _, _, hlive, _⟩ := ho.holds.context hpos
    exact ⟨p, hlive⟩
  refine ⟨ho.holds.less_iff_ordered.mpr ho.ordered, ?_, ?_, ho.drained⟩
  · intro hpos
    obtain ⟨p, _, _, _, hctx⟩ := ho.holds.context hpos
    refine ⟨w.heap.key 0, ?_, hroot hpos, fun c v hc => ho.holds.root_max ho.ordered hc⟩
    unfold BHeap.top
    rw [if_neg (by omega)]
    simp only [hctx, bind, Except.bind]
    rfl
  · intro hpos
    obtain ⟨p, hp, _⟩ := ho.holds.context hpos
    obtain ⟨h', heq, _⟩ := ho.holds.erase comp hpos hp
    exact ⟨w.heap.key 0, h', ho.holds.pop_ok comp hpos heq, hroot hpos,
      fun c v hc => ho.holds.root_max ho.ordered hc⟩

/-- One step from an ordered heap: it stays ordered exactly when the step fits. -/
theorem OrderedWorld.step {w : World α} (ho : OrderedWorld comp w) {op : Op α}
    (hfresh : Fresh (some w) op) :
    ∃ w', BHeap.step comp (some w) op = some w' ∧ Holds w'.heap w'.live ∧
      (∀ x ∈ w'.drained, ∀ c v, w'.live c = some v → comp x v = false) ∧
      (w'.drained.Pairwise fun x y => comp x y = false) ∧
      (Ordered (Below comp) w'.heap.key w'.heap.size ↔ FitsOp comp (some w) op) := by
  obtain ⟨hh, hord, habove, hdrained⟩ := ho
  cases op with
  | insert t context =>
      obtain ⟨h', heq, hh', hord'⟩ := hh.insert_ordered (t := t) hord hfresh
      exact ⟨_, step_insert heq, hh', by simp, by simp,
        fun _ => trivial, fun _ => hord'⟩
  | erase idx =>
      rcases Nat.lt_or_ge idx w.heap.size with hlt | hge
      · obtain ⟨p, hp, _⟩ := hh.context hlt
        obtain ⟨h', heq, hh', hiff⟩ := hh.erase_ordered_iff hord hlt hp
        refine ⟨_, step_erase heq, ?_, ?_, hdrained, hiff⟩
        · rw [forget_of_slot hp]
          exact hh'
        · intro x hx c v hc
          rw [forget_of_slot hp] at hc
          exact habove x hx c v (live_of_update_none hc)
      · exact ⟨w, step_erase_out hge, hh, habove, hdrained,
          fun _ hsmall => absurd hsmall (by omega), fun _ => hord⟩
  | pop =>
      rcases Nat.eq_zero_or_pos w.heap.size with hzero | hpos
      · exact ⟨w, step_pop_empty hzero, hh, habove, hdrained,
          fun _ hsmall => absurd hsmall (by omega), fun _ => hord⟩
      · obtain ⟨p, hp, _, hlive, _⟩ := hh.context hpos
        obtain ⟨h', heq, hh', hiff⟩ := hh.erase_ordered_iff hord hpos hp
        refine ⟨_, step_pop (hh.pop_ok comp hpos heq), ?_, ?_, ?_, hiff⟩
        · rw [forget_of_slot hp]
          exact hh'
        · intro x hx c v hc
          rw [forget_of_slot hp] at hc
          rcases List.mem_append.mp hx with hx | hx
          · exact habove x hx c v (live_of_update_none hc)
          · rw [List.mem_singleton.mp hx]
            exact hh.root_max hord (live_of_update_none hc)
        · refine List.pairwise_append.mpr ⟨hdrained, List.pairwise_singleton _ _, ?_⟩
          intro x hx y hy
          rw [List.mem_singleton.mp hy]
          exact habove x hx p _ hlive

end Order

/-- Along a run of a fresh heap the heap is a priority queue exactly when every
`erase` and every `pop` takes a direction that fits. -/
theorem bheap_priorityQueue_iff (comp : α → α → Bool) [IsStrictWeakOrder α (Below comp)]
    (ops : List (Op α)) (hfresh : Guarded (step comp) Fresh (some World.init) ops) :
    Always (step comp) (fun s => ∃ w, s = some w ∧ PriorityQueue comp w) (some World.init) ops ↔
      Guarded (step comp) (FitsOp comp) (some World.init) ops := by
  refine always_iff_guarded (fun s => ∃ w, s = some w ∧ OrderedWorld comp w) Fresh
    ?_ ?_ ?_ ⟨World.init, rfl, holds_empty, ?_, ?_, ?_⟩ hfresh
  · rintro _ ⟨w, rfl, ho⟩
    exact ⟨w, rfl, ho.priorityQueue⟩
  · rintro _ op ⟨w, rfl, ho⟩ hlegal hok
    obtain ⟨w', heq, hh, habove, hdrained, hiff⟩ := ho.step hlegal
    exact ⟨w', heq, hh, hiff.mpr hok, habove, hdrained⟩
  · rintro _ op ⟨w, rfl, ho⟩ hlegal hbad ⟨w'', heq'', hpq⟩
    obtain ⟨w', heq, hh, _, _, hiff⟩ := ho.step hlegal
    rw [heq] at heq''
    cases heq''
    exact hbad (hiff.mp (hh.less_iff_ordered.mp hpq.ordered))
  · intro j _ _ hlt
    simp [World.init, empty, size] at hlt
  · simp [World.init]
  · simp [World.init]

/-- Three elements inserted in ascending order and popped again. -/
theorem bheap_priorityQueue_run :
    Always (step stdLess) (fun s => ∃ w, s = some w ∧ PriorityQueue stdLess w) (some World.init)
      [.insert 8 1, .insert 10 2, .insert 11 3, .pop, .pop] :=
  (bheap_priorityQueue_iff (stdLess : Nat → Nat → Bool) _ (by decide +kernel)).mpr
    (by decide +kernel)

/-- Four elements inserted; the pop finds the moved element below the new last
one and leaves it at the root. -/
theorem bheap_pop_breaks_order :
    ¬ ∀ (α : Type) [Inhabited α] (comp : α → α → Bool) [IsStrictWeakOrder α (Below comp)]
      (ops : List (Op α)), Guarded (step comp) Fresh (some World.init) ops →
      Always (step comp) (fun s => ∃ w, s = some w ∧ PriorityQueue comp w)
        (some World.init) ops := by
  intro hall
  let ops : List (Op Nat) := [.insert 4 1, .insert 2 2, .insert 3 3, .insert 1 4, .pop]
  obtain ⟨w, hw, hpq⟩ :=
    always_iff_prefixes.mp (hall Nat stdLess ops (by decide +kernel)) ops List.prefix_rfl
  have hsize : (ops.foldl (step stdLess) (some World.init)).map (·.heap.size) = some 3 := by
    decide +kernel
  have hroot : (ops.foldl (step stdLess) (some World.init)).map (·.heap.less stdLess 0 1) =
      some (.ok true) := by
    decide +kernel
  rw [hw] at hsize hroot
  have hthree : w.heap.size = 3 := Option.some.inj hsize
  have habove : w.heap.less stdLess 0 1 = .ok true := Option.some.inj hroot
  have hedge : w.heap.less stdLess 0 1 = .ok false := hpq.ordered 1 (by decide) (by omega)
  rw [habove] at hedge
  cases hedge

end Keys

end NetTest.BHeap
