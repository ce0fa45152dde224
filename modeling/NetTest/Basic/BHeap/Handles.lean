import Mathlib.Data.List.Nodup
import NetTest.Basic.BHeap.Model

/-!
# Handles stay with their elements

`live` is the heap as its callers see it: the contexts `insert` returned and
`erase` has not deleted, with the values they were given.  `Holds` ties it to
the array.  The sift loops are used through one rule each, which hides pointers
and `idx` fields: an array of values changes only by exchanging a cell with its
parent or with its largest child.
-/

namespace NetTest.BHeap

open BinaryHeap

variable {α : Type}

/-! ## The invariant -/

/-- Every slot holds a live context that knows the slot, every live context has
a slot, and no other context is allocated. -/
structure Holds (h : BHeap α) (live : Ptr → Option α) : Prop where
  slot : ∀ i p, h.heap[i]? = some p → ∃ v, h.ctx p = some ⟨i, v⟩ ∧ live p = some v
  held : ∀ p v, live p = some v → p ∈ h.heap
  alloc : ∀ p, h.ctx p ≠ none → p ∈ h.heap

variable {h : BHeap α} {live : Ptr → Option α} {comp : α → α → Bool}

theorem holds_empty : Holds (empty : BHeap α) (fun _ => none) := by
  constructor <;> simp [empty]

theorem Holds.slot_inj (hh : Holds h live) {i j : Nat} {p : Ptr}
    (hi : h.heap[i]? = some p) (hj : h.heap[j]? = some p) : i = j := by
  obtain ⟨v, hv, _⟩ := hh.slot i p hi
  obtain ⟨w, hw, _⟩ := hh.slot j p hj
  rw [hv] at hw
  cases hw
  rfl

theorem Holds.nodup (hh : Holds h live) : h.heap.Nodup := by
  rw [List.nodup_iff_getElem?_ne_getElem?]
  intro i j hij hj heq
  have hi : i < h.heap.length := by omega
  rw [List.getElem?_eq_getElem hi] at heq
  have := hh.slot_inj (List.getElem?_eq_getElem hi) heq.symm
  omega

theorem Holds.mem_iff (hh : Holds h live) (c : Ptr) : c ∈ h.heap ↔ ∃ v, live c = some v := by
  constructor
  · intro hc
    obtain ⟨i, hi⟩ := List.getElem?_of_mem hc
    obtain ⟨v, _, hv⟩ := hh.slot i c hi
    exact ⟨v, hv⟩
  · rintro ⟨v, hv⟩
    exact hh.held c v hv

theorem Holds.not_mem (hh : Holds h live) {p : Ptr} (hfresh : h.ctx p = none) : p ∉ h.heap := by
  intro hp
  obtain ⟨i, hi⟩ := List.getElem?_of_mem hp
  obtain ⟨v, hv, _⟩ := hh.slot i p hi
  rw [hfresh] at hv
  cases hv

/-! ## One turn of `sift_down` -/

theorem siftDownFrom_eq {n idx largest : Nat} (hl : h.largestOf comp n idx = .ok largest) :
    siftDownFrom comp n h idx =
      if largest = idx then .ok h
      else (do
        let swapped ← h.swapSlots largest idx
        let sunk ← siftDownFrom comp n swapped largest
        siftDownFrom comp n sunk largest) := by
  rw [siftDownFrom]
  split
  · rename_i e he
    rw [hl] at he
    cases he
  · rename_i largest' heq
    rw [hl] at heq
    cases heq
    rfl

theorem siftDownFrom_stop {n idx : Nat} (hl : h.largestOf comp n idx = .ok idx) :
    siftDownFrom comp n h idx = .ok h := by
  rw [siftDownFrom_eq hl, if_pos rfl]

theorem siftDownFrom_turn {n idx largest : Nat} {h' : BHeap α}
    (hl : h.largestOf comp n idx = .ok largest) (hne : largest ≠ idx)
    (hswap : h.swapSlots largest idx = .ok h') :
    siftDownFrom comp n h idx = (do
      let sunk ← siftDownFrom comp n h' largest
      siftDownFrom comp n sunk largest) := by
  rw [siftDownFrom_eq hl, if_neg hne, hswap]
  rfl

section Keys

variable [Inhabited α]

/-- The value at position `i`, with the value of a new context outside. -/
def key (h : BHeap α) (i : Nat) : α :=
  ((h.heap[i]?.bind h.ctx).map (·.val)).getD default

theorem key_of_slot {i : Nat} {p : Ptr} {c : Context α} (hp : h.heap[i]? = some p)
    (hc : h.ctx p = some c) : h.key i = c.val := by
  simp [key, hp, hc]

theorem Holds.context (hh : Holds h live) {i : Nat} (hi : i < h.size) :
    ∃ p, h.heap[i]? = some p ∧ h.ctx p = some ⟨i, h.key i⟩ ∧ live p = some (h.key i) ∧
      h.context i = .ok (p, ⟨i, h.key i⟩) := by
  have hget : h.heap[i]? = some h.heap[i] := List.getElem?_eq_getElem hi
  obtain ⟨v, hv, hlive⟩ := hh.slot i _ hget
  have hkey : h.key i = v := key_of_slot hget hv
  refine ⟨h.heap[i], hget, ?_, ?_, ?_⟩
  · rw [hv, hkey]
  · rw [hlive, hkey]
  · simp [BHeap.context, hget, hv, hkey]

theorem Holds.less (hh : Holds h live) {i j : Nat} (hi : i < h.size) (hj : j < h.size) :
    h.less comp i j = .ok (comp (h.key i) (h.key j)) := by
  obtain ⟨p, _, _, _, hci⟩ := hh.context hi
  obtain ⟨q, _, _, _, hcj⟩ := hh.context hj
  simp [BHeap.less, hci, hcj, bind, Except.bind, pure, Except.pure]

/-! ## Exchanging two slots -/

theorem getElem?_set_set_swap {β : Type*} {l : List β} {i j : Nat} {p q : β}
    (hp : l[i]? = some p) (hq : l[j]? = some q) (k : Nat) :
    ((l.set i q).set j p)[k]? = l[Equiv.swap i j k]? := by
  have hi : i < l.length := (List.getElem?_eq_some_iff.mp hp).choose
  have hj : j < l.length := (List.getElem?_eq_some_iff.mp hq).choose
  by_cases hkj : k = j
  · subst hkj
    rw [Equiv.swap_apply_right, hp]
    simp [hj]
  · by_cases hki : k = i
    · subst hki
      rw [Equiv.swap_apply_left, hq]
      simp [Ne.symm hkj, hi]
    · rw [Equiv.swap_apply_of_ne_of_ne hki hkj]
      simp [Ne.symm hkj, Ne.symm hki]

theorem Holds.swapped_context (hh : Holds h live) {i j : Nat} {p q : Ptr}
    (hp : h.heap[i]? = some p) (hpc : h.ctx p = some ⟨i, h.key i⟩) (hq : h.heap[j]? = some q)
    (hqc : h.ctx q = some ⟨j, h.key j⟩) {k : Nat} {r : Ptr} {v : α}
    (hr : h.heap[Equiv.swap i j k]? = some r) (hrc : h.ctx r = some ⟨Equiv.swap i j k, v⟩) :
    (Function.update (Function.update h.ctx q (some ⟨i, h.key j⟩)) p (some ⟨j, h.key i⟩)) r =
      some ⟨k, v⟩ := by
  by_cases hrp : r = p
  · subst hrp
    have hk : Equiv.swap i j k = i := hh.slot_inj hr hp
    have hkj : k = j := by
      rw [Equiv.swap_apply_eq_iff.mp hk, Equiv.swap_apply_left]
    rw [hpc, hk] at hrc
    cases hrc
    simp [hkj]
  · by_cases hrq : r = q
    · subst hrq
      have hk : Equiv.swap i j k = j := hh.slot_inj hr hq
      have hki : k = i := by
        rw [Equiv.swap_apply_eq_iff.mp hk, Equiv.swap_apply_right]
      rw [hqc, hk] at hrc
      cases hrc
      simp [Function.update_of_ne hrp, hki]
    · have hk : k ≠ i ∧ k ≠ j := by
        constructor
        · rintro rfl
          rw [Equiv.swap_apply_left, hq] at hr
          exact hrq (Option.some.inj hr).symm
        · rintro rfl
          rw [Equiv.swap_apply_right, hp] at hr
          exact hrp (Option.some.inj hr).symm
      rw [Equiv.swap_apply_of_ne_of_ne hk.1 hk.2] at hrc
      rw [Function.update_of_ne hrp, Function.update_of_ne hrq, hrc]

theorem Holds.swapSlots (hh : Holds h live) {i j : Nat} (hi : i < h.size) (hj : j < h.size) :
    ∃ h', h.swapSlots i j = .ok h' ∧ Holds h' live ∧ h'.size = h.size ∧
      h'.key = h.key ∘ Equiv.swap i j ∧ (∀ k, h'.heap[k]? = h.heap[Equiv.swap i j k]?) := by
  obtain ⟨p, hp, hpc, hpl, hci⟩ := hh.context hi
  obtain ⟨q, hq, hqc, hql, hcj⟩ := hh.context hj
  refine ⟨_, by simp only [BHeap.swapSlots, hci, hcj, bind, Except.bind]; rfl, ?_⟩
  have hslots : ∀ k, ((h.heap.set i q).set j p)[k]? = h.heap[Equiv.swap i j k]? :=
    getElem?_set_set_swap hp hq
  have hctx := fun k r v => hh.swapped_context hp hpc hq hqc (k := k) (r := r) (v := v)
  have hmem : ∀ r, r ∈ h.heap → r ∈ (h.heap.set i q).set j p := by
    intro r hr
    obtain ⟨k, hk⟩ := List.getElem?_of_mem hr
    refine List.mem_of_getElem? (i := Equiv.swap i j k) ?_
    rw [hslots, Equiv.swap_apply_self, hk]
  refine ⟨⟨?_, ?_, ?_⟩, ?_, ?_, hslots⟩
  · intro k r hr
    rw [hslots] at hr
    obtain ⟨v, hv, hlive⟩ := hh.slot _ r hr
    exact ⟨v, hctx k r v hr hv, hlive⟩
  · intro r v hr
    exact hmem r (hh.held r v hr)
  · intro r hr
    apply hmem
    by_cases hrp : r = p
    · exact hrp ▸ List.mem_of_getElem? hp
    · by_cases hrq : r = q
      · exact hrq ▸ List.mem_of_getElem? hq
      · exact hh.alloc r (by simpa [Function.update_of_ne hrp, Function.update_of_ne hrq] using hr)
  · simp [size]
  · funext k
    cases hk : h.heap[Equiv.swap i j k]? with
    | none => simp [key, hslots, hk]
    | some r =>
        obtain ⟨v, hv, _⟩ := hh.slot _ r hk
        rw [Function.comp_apply, key_of_slot hk hv]
        exact key_of_slot (c := ⟨k, v⟩) ((hslots k).trans hk) (hctx k r v hk hv)

/-! ## The sift loops -/

/-- The rule for `sift_up`: `Φ` describes the array while the element at the
given position is misplaced, `Ψ` the array the loop stops with. -/
theorem siftUp_rule (comp : α → α → Bool) {n : Nat} {Φ : (Nat → α) → Nat → Prop} {Ψ : (Nat → α) → Prop}
    (hmove : ∀ a i, Φ a i → 0 < i → i < n → comp (a (parent i)) (a i) = true →
      Φ (a ∘ Equiv.swap (parent i) i) (parent i))
    (hstop : ∀ a i, Φ a i → (0 < i → comp (a (parent i)) (a i) = false) → Ψ a)
    (hh : Holds h live) (hn : h.size = n) {idx : Nat} (hidx : idx < n) (hΦ : Φ h.key idx) :
    ∃ h', h.siftUp comp idx = .ok h' ∧ Holds h' live ∧ h'.size = n ∧ Ψ h'.key := by
  induction idx using Nat.strongRecOn generalizing h with
  | ind idx ih =>
      rw [siftUp]
      by_cases hzero : idx = 0
      · rw [dif_pos hzero]
        exact ⟨h, rfl, hh, hn, hstop _ idx hΦ (by omega)⟩
      · have hp : parent idx < idx := parent_lt (by omega)
        rw [dif_neg hzero]
        change ∃ h', (do
          if ← h.less comp (parent idx) idx then
            let h' ← h.swapSlots (parent idx) idx
            siftUp comp h' (parent idx)
          else
            return h) = .ok h' ∧ _
        rw [hh.less (by omega) (by omega)]
        cases hcomp : comp (h.key (parent idx)) (h.key idx) with
        | false => exact ⟨h, rfl, hh, hn, hstop _ idx hΦ (fun _ => hcomp)⟩
        | true =>
            obtain ⟨h₁, heq, hh₁, hsize, hkey, _⟩ :=
              hh.swapSlots (i := parent idx) (j := idx) (by omega) (by omega)
            have hΦ₁ : Φ h₁.key (parent idx) := by
              rw [hkey]
              exact hmove _ idx hΦ (by omega) hidx hcomp
            obtain ⟨h₂, hres, hh₂, hsize₂, hΨ⟩ :=
              ih (parent idx) hp hh₁ (by omega) (by omega) hΦ₁
            refine ⟨h₂, ?_, hh₂, hsize₂, hΨ⟩
            simp only [bind, Except.bind, if_true, heq]
            exact hres

/-- What `sift_down` chooses, on the values alone. -/
def largestKey (comp : α → α → Bool) (a : Nat → α) (n idx : Nat) : Nat :=
  let largest := if 2 * idx + 1 < n ∧ comp (a idx) (a (2 * idx + 1)) then 2 * idx + 1 else idx
  if 2 * idx + 2 < n ∧ comp (a largest) (a (2 * idx + 2)) then 2 * idx + 2 else largest

theorem Holds.pickLarger (hh : Holds h live) {largest child : Nat} (hl : largest < h.size) :
    h.pickLarger comp h.size largest child =
      .ok (if child < h.size ∧ comp (h.key largest) (h.key child) then child else largest) := by
  unfold BHeap.pickLarger
  by_cases hchild : child < h.size
  · rw [if_pos hchild, hh.less hl hchild]
    cases hcomp : comp (h.key largest) (h.key child) <;>
      simp [bind, Except.bind, pure, Except.pure, hchild]
  · simp [hchild, pure, Except.pure]

theorem Holds.largestOf (hh : Holds h live) {idx : Nat} (hidx : idx < h.size) :
    h.largestOf comp h.size idx = .ok (largestKey comp h.key h.size idx) := by
  unfold BHeap.largestOf
  dsimp only
  rw [hh.pickLarger hidx]
  simp only [bind, Except.bind]
  rw [hh.pickLarger (by split <;> omega)]
  rfl

/-- The rule for `sift_down`.  The last premise is the second visit of the loop
to the position the recursive call has just left. -/
theorem siftDown_rule (comp : α → α → Bool) {n : Nat} {Φ : (Nat → α) → Nat → Prop} {Ψ : (Nat → α) → Prop}
    (hmove : ∀ a i, Φ a i → i < n → largestKey comp a n i ≠ i →
      Φ (a ∘ Equiv.swap (largestKey comp a n i) i) (largestKey comp a n i))
    (hstop : ∀ a i, Φ a i → largestKey comp a n i = i → Ψ a)
    (hagain : ∀ a a' i, Φ a i → Ψ a' → Φ a' i)
    (hh : Holds h live) (hn : h.size = n) {idx : Nat} (hidx : idx < n) (hΦ : Φ h.key idx) :
    ∃ h', h.siftDown comp idx = .ok h' ∧ Holds h' live ∧ h'.size = n ∧ Ψ h'.key := by
  have key : ∀ m idx (h : BHeap α), n - idx = m → Holds h live → h.size = n → idx < n →
      Φ h.key idx → ∃ h', siftDownFrom comp n h idx = .ok h' ∧ Holds h' live ∧ h'.size = n ∧
        Ψ h'.key := by
    intro m
    induction m using Nat.strongRecOn with
    | ind m ih =>
        intro idx h hm hh hn hidx hΦ
        have hl : h.largestOf comp n idx = .ok (largestKey comp h.key n idx) := by
          rw [← hn]
          exact hh.largestOf (by omega)
        by_cases hne : largestKey comp h.key n idx = idx
        · rw [hne] at hl
          exact ⟨h, siftDownFrom_stop hl, hh, hn, hstop _ idx hΦ hne⟩
        · have hbounds := (largestOf_cases hl).resolve_left hne
          obtain ⟨h₁, heq₁, hh₁, hsize₁, hkey₁, _⟩ :=
            hh.swapSlots (i := largestKey comp h.key n idx) (j := idx) (by omega) (by omega)
          have hΦ₁ : Φ h₁.key (largestKey comp h.key n idx) := by
            rw [hkey₁]
            exact hmove _ idx hΦ hidx hne
          obtain ⟨h₂, heq₂, hh₂, hsize₂, hΨ₂⟩ :=
            ih _ (by omega) _ h₁ rfl hh₁ (by omega) (by omega) hΦ₁
          obtain ⟨h₃, heq₃, hh₃, hsize₃, hΨ₃⟩ :=
            ih _ (by omega) _ h₂ rfl hh₂ hsize₂ (by omega) (hagain _ _ _ hΦ₁ hΨ₂)
          refine ⟨h₃, ?_, hh₃, hsize₃, hΨ₃⟩
          rw [siftDownFrom_turn hl hne heq₁, heq₂]
          exact heq₃
  unfold siftDown
  rw [hn]
  exact key _ idx h rfl hh hn hidx hΦ

/-- Whatever the comparator answers, the sift loops only exchange slots. -/
theorem Holds.siftUp (comp : α → α → Bool) (hh : Holds h live) {idx : Nat} (hidx : idx < h.size) :
    ∃ h', h.siftUp comp idx = .ok h' ∧ Holds h' live ∧ h'.size = h.size := by
  obtain ⟨h', heq, hh', hsize, _⟩ := siftUp_rule comp (Φ := fun _ _ => True)
    (Ψ := fun _ => True) (fun _ _ _ _ _ _ => trivial) (fun _ _ _ _ => trivial) hh rfl hidx trivial
  exact ⟨h', heq, hh', hsize⟩

theorem Holds.siftDown (comp : α → α → Bool) (hh : Holds h live) {idx : Nat} (hidx : idx < h.size) :
    ∃ h', h.siftDown comp idx = .ok h' ∧ Holds h' live ∧ h'.size = h.size := by
  obtain ⟨h', heq, hh', hsize, _⟩ := siftDown_rule comp (Φ := fun _ _ => True)
    (Ψ := fun _ => True) (fun _ _ _ _ _ => trivial) (fun _ _ _ _ => trivial)
    (fun _ _ _ _ _ => trivial) hh rfl hidx trivial
  exact ⟨h', heq, hh', hsize⟩

end Keys

end NetTest.BHeap
