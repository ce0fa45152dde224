import NetTest.Basic.BHeap.Order
import NetTest.Lib.Wrapping

/-!
# The sift loops on their own

`sift_up` computes the parent position before it tests that there is one.  `sift_down`
sinks the element twice, once in a recursive call and once in its own loop: the second
visit finds an ordered subtree and changes nothing, so the loop alone does the same.
-/

namespace NetTest.BHeap

open BinaryHeap Wrapping

variable {α : Type} {h h' : BHeap α} {live : Ptr → Option α} {comp : α → α → Bool}

/-! ## The loops as they stand -/

/-- `sift_up` with the position `parent` it computes in every turn, a `size_t`. -/
def siftUpUnsigned (comp : α → α → Bool) (h : BHeap α) (idx : Nat) : Except Fault (BHeap α) :=
  let parent := diff idx 1 / 2
  if _ : 0 < idx then do
    if ← h.less comp parent idx then
      let h' ← h.swapSlots parent idx
      siftUpUnsigned comp h' parent
    else
      return h
  else
    return h
termination_by idx
decreasing_by
  have hmod : (idx + sizeT - 1) % sizeT ≤ idx - 1 := by
    rw [show idx + sizeT - 1 = idx - 1 + sizeT by omega, Nat.add_mod_right]
    exact Nat.mod_le _ _
  rw [diff]
  omega

/-- The plain sift-down: the loop of `sift_down` without the recursive call. -/
def siftDownLoop (comp : α → α → Bool) (size : Nat) (h : BHeap α) (idx : Nat) :
    Except Fault (BHeap α) :=
  match _ : h.largestOf comp size idx with
  | .error e => .error e
  | .ok largest =>
      if _ : largest = idx then .ok h
      else do
        let swapped ← h.swapSlots largest idx
        siftDownLoop comp size swapped largest
termination_by size - idx
decreasing_by
  have hl : h.largestOf comp size idx = .ok largest := by assumption
  rcases largestOf_cases hl with heq | hchild
  · contradiction
  · omega

/-- The slots of `h'` are those of `h`, moved below `root` only. -/
def MovedBelow (root : Nat) (h h' : BHeap α) : Prop :=
  ∃ σ : Equiv.Perm Nat, (∀ j, ¬ InSubtree root j → σ j = j) ∧
    ∀ j, h'.heap[j]? = h.heap[σ j]?

theorem MovedBelow.refl (root : Nat) (h : BHeap α) : MovedBelow root h h :=
  ⟨Equiv.refl Nat, fun _ _ => rfl, fun _ => rfl⟩

theorem MovedBelow.swap {root i j : Nat} {h₁ h₂ : BHeap α} (hi : InSubtree root i)
    (hj : InSubtree root j) (hswap : ∀ k, h₁.heap[k]? = h.heap[Equiv.swap i j k]?)
    (hmoved : MovedBelow root h₁ h₂) : MovedBelow root h h₂ := by
  rcases hmoved with ⟨σ, hfix, hslots⟩
  refine ⟨σ.trans (Equiv.swap i j), ?_, ?_⟩
  · intro k hk
    have hki : k ≠ i := fun heq => hk (heq ▸ hi)
    have hkj : k ≠ j := fun heq => hk (heq ▸ hj)
    rw [Equiv.trans_apply, hfix k hk, Equiv.swap_apply_of_ne_of_ne hki hkj]
  · intro k
    rw [hslots, hswap, Equiv.trans_apply]

/-! ## Down -/

theorem siftDownLoop_eq {n idx largest : Nat} (hl : h.largestOf comp n idx = .ok largest) :
    siftDownLoop comp n h idx =
      if largest = idx then .ok h
      else (do
        let swapped ← h.swapSlots largest idx
        siftDownLoop comp n swapped largest) := by
  rw [siftDownLoop]
  split
  · rename_i e he
    rw [hl] at he
    cases he
  · rename_i largest' heq
    rw [hl] at heq
    cases heq
    rfl

theorem siftDownLoop_stop {n idx : Nat} (hl : h.largestOf comp n idx = .ok idx) :
    siftDownLoop comp n h idx = .ok h := by
  rw [siftDownLoop_eq hl, if_pos rfl]

theorem siftDownLoop_turn {n idx largest : Nat} (hl : h.largestOf comp n idx = .ok largest)
    (hne : largest ≠ idx) (hswap : h.swapSlots largest idx = .ok h') :
    siftDownLoop comp n h idx = siftDownLoop comp n h' largest := by
  rw [siftDownLoop_eq hl, if_neg hne, hswap]
  rfl

section Keys

variable [Inhabited α] [IsStrictWeakOrder α (Below comp)]

/-- Sinking the element at `i`, a cell below `root`. -/
theorem Holds.siftDownFrom_repairs {root n i : Nat} (hh : Holds h live) (hn : h.size = n)
    (hi : i < n) (hroot : InSubtree root i)
    (hready : DownReady (Below comp) (fun j => InSubtree root (parent j)) h.key n i) :
    ∃ h', siftDownFrom comp n h i = .ok h' ∧ siftDownLoop comp n h i = .ok h' ∧ Holds h' live ∧
      h'.size = n ∧ MovedBelow root h h' ∧
      OrderedOn (Below comp) (fun j => InSubtree root (parent j)) h'.key n := by
  induction hm : n - i using Nat.strongRecOn generalizing h i with
  | ind m ih =>
      have hl : h.largestOf comp n i = .ok (largestKey comp h.key n i) := by
        rw [← hn]
        exact hh.largestOf (hn ▸ hi)
      by_cases hne : largestKey comp h.key n i = i
      · rw [hne] at hl
        exact ⟨h, siftDownFrom_stop hl, siftDownLoop_stop hl, hh, hn, MovedBelow.refl root h,
          hready.finish (largestKey_stop hne)⟩
      · rcases largestKey_spec hne with ⟨hparent, hpos, hlt, hbelow, hmax⟩
        generalize largestKey comp h.key n i = c at *
        have hc : InSubtree root c := .child hpos (hparent ▸ hroot)
        have hic : i < c := hparent ▸ parent_lt hpos
        rcases hh.swapSlots (i := c) (j := i) (by omega) (by omega) with
          ⟨h₁, heq, hh₁, hsize₁, hkey₁, hslots₁⟩
        have hready₁ : DownReady (Below comp) (fun j => InSubtree root (parent j)) h₁.key n c := by
          rw [hkey₁]
          exact hready.move (fun j _ hj => hj ▸ hc) hparent hpos hlt hbelow hmax
        rcases ih (n - c) (by omega) hh₁ (by omega) hlt hc hready₁ rfl with
          ⟨h₂, hsunk, hloop, hh₂, hsize₂, hmoved, hord⟩
        -- the second visit finds the subtree of `c` in order
        have hagain : siftDownFrom comp n h₂ c = .ok h₂ := by
          rw [← hsize₂]
          apply hh₂.siftDown_stop (by omega)
          intro d hd hdpos hdlt
          have hroot_d : InSubtree root (parent d) := hd ▸ hc
          have hedge := hord d hroot_d hdpos (by omega)
          rw [hd] at hedge
          exact Bool.eq_false_iff.mpr hedge
        refine ⟨h₂, ?_, ?_, hh₂, hsize₂, hmoved.swap hc hroot hslots₁, hord⟩
        · rw [siftDownFrom_turn hl hne heq, hsunk]
          exact hagain
        · rw [siftDownLoop_turn hl hne heq]
          exact hloop

end Keys

/-! ## Up -/

/-- The unsigned parent position is the right one where it is read. -/
theorem siftUpUnsigned_eq {idx : Nat} (hidx : idx < sizeT) :
    siftUpUnsigned comp h idx = siftUp comp h idx := by
  induction idx using Nat.strongRecOn generalizing h with
  | ind idx ih =>
      rw [siftUpUnsigned, siftUp]
      rcases Nat.eq_zero_or_pos idx with hzero | hpos
      · rw [dif_neg (by omega), dif_pos hzero]
        rfl
      · have hparent : diff idx 1 / 2 = (idx - 1) / 2 := by
          rw [diff_eq hpos hidx]
        have hlt : (idx - 1) / 2 < idx := by omega
        rw [dif_pos hpos, dif_neg (by omega), hparent]
        simp only [ih _ hlt (Nat.lt_trans hlt hidx)]

theorem Holds.perm (hh : Holds h live) (hh' : Holds h' live) : h'.heap.Perm h.heap := by
  rw [List.perm_ext_iff_of_nodup hh'.nodup hh.nodup]
  intro p
  rw [hh'.mem_iff, hh.mem_iff]

/-! ## The repairs -/

def ofValues (values : List α) : BHeap α where
  heap := (List.range values.length).map (· + 1)
  ctx
    | 0 => none
    | p + 1 => values[p]?.map fun v => ⟨p, v⟩

def liveOf (values : List α) : Ptr → Option α
  | 0 => none
  | p + 1 => values[p]?

theorem holds_ofValues (values : List α) : Holds (ofValues values) (liveOf values) := by
  have hmem : ∀ p, values[p]? ≠ none → p + 1 ∈ (List.range values.length).map (· + 1) := by
    intro p hp
    apply List.mem_map_of_mem
    rw [List.mem_range]
    exact Nat.lt_of_not_le fun hle => hp (List.getElem?_eq_none hle)
  constructor
  · intro i p hp
    rw [ofValues, List.getElem?_map, Option.map_eq_some_iff] at hp
    rcases hp with ⟨k, hk, rfl⟩
    rcases List.getElem?_eq_some_iff.mp hk with ⟨hi, rfl⟩
    rw [List.length_range] at hi
    refine ⟨values[i], ?_, ?_⟩
    · simp only [ofValues, List.getElem_range, List.getElem?_eq_getElem hi, Option.map_some]
    · simp only [liveOf, List.getElem_range, List.getElem?_eq_getElem hi]
  · intro p v hp
    cases p with
    | zero => cases hp
    | succ p =>
        apply hmem p
        rw [show values[p]? = some v from hp]
        exact Option.some_ne_none v
  · intro p hp
    cases p with
    | zero => exact absurd rfl hp
    | succ p =>
        apply hmem p
        intro hnone
        exact hp (by simp only [ofValues, hnone, Option.map_none])

variable [Inhabited α]

/-- `sift_down` repairs the heap below an index: if only the edges out of `idx` may be
out of order in the subtree of `idx`, all its edges end in order, only cells of the
subtree move, every context knows its slot, and the loop without the recursive call
leaves the same heap. -/
theorem siftDown_repairs (comp : α → α → Bool) [IsStrictWeakOrder α (Below comp)] (h : BHeap α)
    (live : Ptr → Option α) (hh : Holds h live) (idx : Nat) (hidx : idx < h.size)
    (hbelow : OrderedOn (Below comp) (fun j => InSubtree idx (parent j) ∧ parent j ≠ idx)
      h.key h.size) :
    ∃ h', h.siftDown comp idx = .ok h' ∧ siftDownLoop comp h.size h idx = .ok h' ∧
      Holds h' live ∧ h'.size = h.size ∧ MovedBelow idx h h' ∧
      OrderedOn (Below comp) (fun j => InSubtree idx (parent j)) h'.key h'.size := by
  rcases hh.siftDownFrom_repairs rfl hidx .root (downReady_root hbelow) with
    ⟨h', hsift, hloop, hh', hsize, hmoved, hord⟩
  exact ⟨h', hsift, hloop, hh', hsize, hmoved, by rw [hsize]; exact hord⟩

/-- A one above the heap 5, 4, 3, 2. -/
theorem siftDown_repairs_root :
    ∃ h', (ofValues [1, 5, 4, 3, 2]).siftDown stdLess 0 = .ok h' ∧
      siftDownLoop stdLess 5 (ofValues [1, 5, 4, 3, 2]) 0 = .ok h' ∧
      Holds h' (liveOf [1, 5, 4, 3, 2]) ∧ h'.size = 5 ∧
      MovedBelow 0 (ofValues [1, 5, 4, 3, 2]) h' ∧
      OrderedOn (Below stdLess) (fun j => InSubtree 0 (parent j)) h'.key h'.size := by
  have hedges : ∀ j < 5, 0 < j → parent j ≠ 0 → ¬ Below stdLess
      ((ofValues [1, 5, 4, 3, 2]).key (parent j)) ((ofValues [1, 5, 4, 3, 2]).key j) := by
    decide
  exact siftDown_repairs stdLess (ofValues [1, 5, 4, 3, 2]) _ (holds_ofValues _) 0 (by decide)
    fun j hj hpos hlt => hedges j hlt hpos hj.2

/-- `sift_up` repairs the heap above an index: if only the edge into `idx` may be out
of order and no child of `idx` is above the parent of `idx`, the loop returns without a
read outside the array, the whole array ends in order, and it holds the same contexts. -/
theorem siftUp_repairs (comp : α → α → Bool) [IsStrictWeakOrder α (Below comp)] (h : BHeap α)
    (live : Ptr → Option α) (hh : Holds h live) (hsize : h.size < sizeT) (idx : Nat)
    (hidx : idx < h.size) (hready : UpReady (Below comp) h.key h.size idx) :
    ∃ h', siftUpUnsigned comp h idx = .ok h' ∧ h.siftUp comp idx = .ok h' ∧ Holds h' live ∧
      h'.heap.Perm h.heap ∧ Ordered (Below comp) h'.key h'.size := by
  rcases hh.siftUp_ordered hidx hready with ⟨h', hsift, hh', -, hord⟩
  have hunsigned : siftUpUnsigned comp h idx = h.siftUp comp idx :=
    siftUpUnsigned_eq (Nat.lt_trans hidx hsize)
  exact ⟨h', hunsigned.trans hsift, hsift, hh', hh.perm hh', hord⟩

/-- A six below the heap 5, 4, 3. -/
theorem siftUp_repairs_last :
    ∃ h', siftUpUnsigned stdLess (ofValues [5, 4, 3, 6]) 3 = .ok h' ∧
      (ofValues [5, 4, 3, 6]).siftUp stdLess 3 = .ok h' ∧
      Holds h' (liveOf [5, 4, 3, 6]) ∧ h'.heap.Perm (ofValues [5, 4, 3, 6]).heap ∧
      Ordered (Below stdLess) h'.key h'.size := by
  have hedges : ∀ j < 4, j ≠ 3 → 0 < j → ¬ Below stdLess
      ((ofValues [5, 4, 3, 6]).key (parent j)) ((ofValues [5, 4, 3, 6]).key j) := by
    decide
  have hready : UpReady (Below stdLess) (ofValues [5, 4, 3, 6]).key 4 3 := by
    constructor
    · intro j hj hpos hlt
      exact hedges j hlt hj hpos
    · intro _ c hc hpos hlt
      have hp := parent_lt hpos
      omega
  exact siftUp_repairs stdLess (ofValues [5, 4, 3, 6]) _ (holds_ofValues _) (by decide) 3
    (by decide) hready

end NetTest.BHeap
