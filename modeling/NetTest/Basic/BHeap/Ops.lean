import NetTest.Basic.BHeap.Handles

/-!
# Operations of the heap

What `insert`, `erase` and `pop` do to the array and to the live contexts, for
every comparator.
-/

namespace NetTest.BHeap

variable {α : Type} {h : BHeap α} {live : Ptr → Option α} {comp : α → α → Bool}

/-! ## Inserting -/

def pushBack (h : BHeap α) (t : α) (context : Ptr) : BHeap α where
  heap := h.heap ++ [context]
  ctx := Function.update h.ctx context (some ⟨h.size, t⟩)

@[simp] theorem pushBack_size (h : BHeap α) (t : α) (p : Ptr) :
    (h.pushBack t p).size = h.size + 1 := by
  simp [pushBack, size]

theorem insert_eq (h : BHeap α) (t : α) (p : Ptr) :
    h.insert comp t p = (h.pushBack t p).siftUp comp h.size := by
  simp [BHeap.insert, BHeap.pushBack, size]

theorem Holds.pushBack (hh : Holds h live) {t : α} {p : Ptr} (hfresh : h.ctx p = none) :
    Holds (h.pushBack t p) (Function.update live p (some t)) := by
  have hp := hh.not_mem hfresh
  constructor
  · intro i q hq
    rcases Nat.lt_or_ge i h.heap.length with hi | hi
    · rw [BHeap.pushBack, List.getElem?_append_left hi] at hq
      have hne : q ≠ p := by
        rintro rfl
        exact hp (List.mem_of_getElem? hq)
      simpa [BHeap.pushBack, Function.update_of_ne hne] using hh.slot i q hq
    · rw [BHeap.pushBack, List.getElem?_append_right hi] at hq
      obtain ⟨hi0, rfl⟩ : i - h.heap.length = 0 ∧ p = q := by
        simpa [List.getElem?_singleton] using hq
      have hisz : h.size = i := by
        simp only [size]
        omega
      exact ⟨t, by simp [BHeap.pushBack, hisz], by simp⟩
  · intro q v hq
    by_cases hne : q = p
    · simp [BHeap.pushBack, hne]
    · rw [Function.update_of_ne hne] at hq
      simp [BHeap.pushBack, hh.held q v hq]
  · intro q hq
    by_cases hne : q = p
    · simp [BHeap.pushBack, hne]
    · have := hh.alloc q (by simpa [BHeap.pushBack, Function.update_of_ne hne] using hq)
      simp [BHeap.pushBack, this]

theorem erase_out {idx : Nat} (hidx : h.size ≤ idx) :
    h.erase comp idx = .error (.runtimeError "erase idx invalid(exceed size)") := by
  simp [BHeap.erase, hidx]

theorem pop_empty (hsize : h.size = 0) :
    h.pop comp = .error (.runtimeError "pop empty binary heap") := by
  simp [BHeap.pop, hsize]

section Keys

variable [Inhabited α]

theorem Holds.pushBack_key (hh : Holds h live) {t : α} {p : Ptr} (hfresh : h.ctx p = none)
    {i : Nat} (hi : i < h.size) : (h.pushBack t p).key i = h.key i := by
  obtain ⟨q, hq, hqc, _, _⟩ := hh.context hi
  have hne : q ≠ p := by
    rintro rfl
    exact hh.not_mem hfresh (List.mem_of_getElem? hq)
  have hq' : (h.pushBack t p).heap[i]? = some q := by
    rw [BHeap.pushBack, List.getElem?_append_left hi, hq]
  exact key_of_slot hq' (c := ⟨i, h.key i⟩) (by simp [BHeap.pushBack, Function.update_of_ne hne, hqc])

/-! ## Erasing -/

theorem Holds.dropLast (hh : Holds h live) (hpos : 0 < h.size) :
    ∃ rest p, h.dropLast = .ok rest ∧ h.heap[h.size - 1]? = some p ∧
      Holds rest (Function.update live p none) ∧ rest.size = h.size - 1 ∧
      (∀ i, i < h.size - 1 → rest.key i = h.key i) ∧
      (∀ c, c ∈ rest.heap ↔ c ∈ h.heap ∧ c ≠ p) := by
  obtain ⟨p, hp, hpc, hpl, hctx⟩ := hh.context (i := h.size - 1) (by omega)
  have hne : ∀ i q, i < h.size - 1 → h.heap[i]? = some q → q ≠ p := by
    rintro i q hi hq rfl
    have := hh.slot_inj hq hp
    omega
  have hslots : ∀ i, i < h.size - 1 → h.heap.dropLast[i]? = h.heap[i]? := by
    intro i hi
    simp only [size] at hi
    rw [List.dropLast_eq_take, List.getElem?_take_of_lt hi]
  have hmem : ∀ c, c ∈ h.heap.dropLast ↔ c ∈ h.heap ∧ c ≠ p := by
    intro c
    constructor
    · intro hc
      obtain ⟨i, hi⟩ := List.getElem?_of_mem hc
      have hlt : i < h.size - 1 := by
        have := (List.getElem?_eq_some_iff.mp hi).choose
        simpa [size] using this
      rw [hslots i hlt] at hi
      exact ⟨List.mem_of_getElem? hi, hne i c hlt hi⟩
    · rintro ⟨hc, hcp⟩
      obtain ⟨i, hi⟩ := List.getElem?_of_mem hc
      have hlen : i < h.size := (List.getElem?_eq_some_iff.mp hi).choose
      have hlt : i < h.size - 1 := by
        rcases Nat.lt_or_ge i (h.size - 1) with hlt | hge
        · exact hlt
        · have heq : i = h.size - 1 := by omega
          rw [heq, hp] at hi
          exact absurd (Option.some.inj hi).symm hcp
      exact List.mem_of_getElem? ((hslots i hlt).trans hi)
  refine ⟨_, p, by simp only [BHeap.dropLast, hctx, bind, Except.bind]; rfl, hp,
    ⟨?_, ?_, ?_⟩, by simp [size], ?_, hmem⟩
  · intro i q hq
    have hlt : i < h.size - 1 := by
      have := (List.getElem?_eq_some_iff.mp hq).choose
      simpa [size] using this
    rw [hslots i hlt] at hq
    simpa [Function.update_of_ne (hne i q hlt hq)] using hh.slot i q hq
  · intro q v hq
    have hqp : q ≠ p := by
      rintro rfl
      simp at hq
    rw [Function.update_of_ne hqp] at hq
    exact (hmem q).mpr ⟨hh.held q v hq, hqp⟩
  · intro q hq
    have hqp : q ≠ p := by
      rintro rfl
      simp at hq
    exact (hmem q).mpr ⟨hh.alloc q (by simpa [Function.update_of_ne hqp] using hq), hqp⟩
  · intro i hi
    obtain ⟨q, hq, hqc, _, _⟩ := hh.context (i := i) (by omega)
    refine key_of_slot (c := ⟨i, h.key i⟩) ((hslots i hi).trans hq) ?_
    simpa [Function.update_of_ne (hne i q hi hq)] using hqc

/-- Everything `erase` does before it repairs the order: the last element takes
the place of the erased one.  The repair then depends on a single comparison. -/
theorem Holds.erase_eq (comp : α → α → Bool) (hh : Holds h live) {idx : Nat} (hidx : idx < h.size) {p : Ptr}
    (hp : h.heap[idx]? = some p) :
    ∃ rest, Holds rest (Function.update live p none) ∧ rest.size = h.size - 1 ∧
      (∀ i, i < h.size - 1 → rest.key i = h.key (Equiv.swap idx (h.size - 1) i)) ∧
      (∀ c, c ∈ rest.heap ↔ c ∈ h.heap ∧ c ≠ p) ∧
      h.erase comp idx =
        if idx < rest.size then
          if comp (rest.key idx) (rest.key (rest.size - 1)) then rest.siftUp comp idx
          else rest.siftDown comp idx
        else .ok rest := by
  obtain ⟨h₁, heq₁, hh₁, hsize₁, hkey₁, hslots₁⟩ :=
    hh.swapSlots (i := idx) (j := h.size - 1) hidx (by omega)
  obtain ⟨rest, q, heq, hq, hrest, hsize, hkey, hmem⟩ := hh₁.dropLast (by omega)
  have hqp : q = p := by
    rw [hslots₁, hsize₁, Equiv.swap_apply_right, hp] at hq
    exact (Option.some.inj hq).symm
  have hmem₁ : ∀ c, c ∈ h₁.heap ↔ c ∈ h.heap := by
    intro c
    constructor
    · intro hc
      obtain ⟨k, hk⟩ := List.getElem?_of_mem hc
      exact List.mem_of_getElem? ((hslots₁ k).symm.trans hk)
    · intro hc
      obtain ⟨k, hk⟩ := List.getElem?_of_mem hc
      refine List.mem_of_getElem? (i := Equiv.swap idx (h.size - 1) k) ?_
      rw [hslots₁, Equiv.swap_apply_self, hk]
  rw [hsize₁] at hsize hkey
  subst hqp
  refine ⟨rest, hrest, hsize, ?_, ?_, ?_⟩
  · intro i hi
    rw [hkey i hi, hkey₁, Function.comp_apply]
  · intro c
    rw [hmem, hmem₁]
  · unfold BHeap.erase
    rw [if_neg (by omega)]
    simp only [heq₁, heq, bind, Except.bind]
    by_cases hlt : idx < rest.size
    · rw [if_pos hlt, if_pos hlt, hrest.less hlt (by omega)]
    · rw [if_neg hlt, if_neg hlt]
      rfl

theorem Holds.insert (comp : α → α → Bool) (hh : Holds h live) {t : α} {p : Ptr} (hfresh : h.ctx p = none) :
    ∃ h', h.insert comp t p = .ok h' ∧ Holds h' (Function.update live p (some t)) := by
  rw [insert_eq]
  obtain ⟨h', heq, hh', _⟩ :=
    Holds.siftUp comp (hh.pushBack (t := t) hfresh) (show h.size < _ by simp)
  exact ⟨h', heq, hh'⟩

theorem Holds.erase (comp : α → α → Bool) (hh : Holds h live) {idx : Nat} (hidx : idx < h.size) {p : Ptr}
    (hp : h.heap[idx]? = some p) :
    ∃ h', h.erase comp idx = .ok h' ∧ Holds h' (Function.update live p none) := by
  obtain ⟨rest, hrest, hsize, _, _, heq⟩ := hh.erase_eq comp hidx hp
  rw [heq]
  by_cases hlt : idx < rest.size
  · rw [if_pos hlt]
    split
    · obtain ⟨h', heq', hh', _⟩ := hrest.siftUp comp hlt
      exact ⟨h', heq', hh'⟩
    · obtain ⟨h', heq', hh', _⟩ := hrest.siftDown comp hlt
      exact ⟨h', heq', hh'⟩
  · rw [if_neg hlt]
    exact ⟨rest, rfl, hrest⟩

theorem Holds.pop_ok (comp : α → α → Bool) (hh : Holds h live) (hpos : 0 < h.size) {h' : BHeap α}
    (heq : h.erase comp 0 = .ok h') : h.pop comp = .ok (h.key 0, h') := by
  obtain ⟨p, _, _, _, hctx⟩ := hh.context hpos
  unfold BHeap.pop
  rw [if_neg (by omega)]
  simp only [hctx, heq, bind, Except.bind]
  rfl

end Keys

end NetTest.BHeap
