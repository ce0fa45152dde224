import NetTest.Lib.Counting
import NetTest.Threadpool.Clients

/-!
# The slots of the table

What `process_add` and `process_rmv` do to the slots, whatever has happened to
the table before.  It may hold counted null slots and tasks behind the counted
slots.  The search of `process_rmv` cannot miss a task of the second kind, because
a counted null slot stops it before.
-/

namespace NetTest.Threadpool.Clients

open Counting

/-! ## The shape of the table -/

/-- A task behind the counted slots comes with a counted null slot. -/
structure Shape (e : Executor) : Prop where
  cap_le : e.cap ≤ e.tasks.length
  size_le : e.taskSize ≤ e.tasks.length
  lost : ∀ j c, e.taskSize ≤ j → e.tasks[j]? = some (some c) →
    ∃ m, m < e.taskSize ∧ e.tasks[m]? = some none

def slotHas (id : Int) (o : Option TaskContext) : Bool := o.map TaskContext.id == some id

theorem Shape.frame {e e' : Executor} (h : Shape e) (htasks : e'.tasks = e.tasks)
    (hcap : e'.cap = e.cap) (hsize : e'.taskSize = e.taskSize) : Shape e' := by
  constructor
  · rw [hcap, htasks]
    exact h.cap_le
  · rw [hsize, htasks]
    exact h.size_le
  · rw [hsize, htasks]
    exact h.lost

theorem shape_create : Shape create := by
  refine ⟨Nat.le_of_eq List.length_replicate.symm, Nat.zero_le _, ?_⟩
  intro j c _ hslot
  cases List.eq_of_mem_replicate (List.mem_of_getElem? hslot)

theorem Shape.processAdd {e : Executor} (h : Shape e) (context : TaskContext) :
    Shape (processAdd e context) := by
  simp only [Threadpool.processAdd, notify]
  by_cases hcap : e.taskSize < e.cap
  · have hlen : e.taskSize < e.tasks.length := Nat.lt_of_lt_of_le hcap h.cap_le
    simp only [if_pos hcap]
    refine ⟨by simpa using h.cap_le, by simpa using Nat.succ_le_of_lt hlen, ?_⟩
    intro j c hj hslot
    simp only at hj hslot ⊢
    rw [List.getElem?_set_ne (by omega)] at hslot
    rcases h.lost j c (by omega) hslot with ⟨m, hm, hnull⟩
    refine ⟨m, by omega, ?_⟩
    rw [List.getElem?_set_ne (by omega)]
    exact hnull
  · simp only [if_neg hcap]
    constructor
    · have := h.cap_le
      simp only [List.length_append, List.length_singleton]
      omega
    · have := h.size_le
      simp only [List.length_append, List.length_singleton]
      omega
    · intro j c hj hslot
      simp only at hj hslot ⊢
      have hlost : ∀ j' c', e.taskSize ≤ j' → e.tasks[j']? = some (some c') →
          ∃ m, m < e.taskSize + 1 ∧ (e.tasks ++ [some context])[m]? = some none := by
        intro j' c' hj' hslot'
        rcases h.lost j' c' hj' hslot' with ⟨m, hm, hnull⟩
        have hlt : m < e.tasks.length := (List.getElem?_eq_some_iff.mp hnull).choose
        exact ⟨m, by omega, by rw [List.getElem?_append_left hlt, hnull]⟩
      rcases Nat.lt_or_ge j e.tasks.length with hlt | hge
      · rw [List.getElem?_append_left hlt] at hslot
        exact hlost j c (by omega) hslot
      · -- the new task went behind a slot that was not counted before
        have hj' : j = e.tasks.length := by
          have hbound : j < (e.tasks ++ [some context]).length :=
            (List.getElem?_eq_some_iff.mp hslot).choose
          simp only [List.length_append, List.length_singleton] at hbound
          omega
        have hlen : e.taskSize < e.tasks.length := by omega
        cases hnext : e.tasks[e.taskSize] with
        | none =>
            refine ⟨e.taskSize, by omega, ?_⟩
            rw [List.getElem?_append_left hlen, List.getElem?_eq_getElem hlen, hnext]
        | some c' =>
            apply hlost e.taskSize c' (Nat.le_refl _)
            rw [List.getElem?_eq_getElem hlen, hnext]

/-- The table after the task in slot `i` has been swapped to the end of the
counted slots and deleted there. -/
def removeSlot (tasks : List (Option TaskContext)) (i last : Nat) : List (Option TaskContext) :=
  ((tasks.set i (tasks.getD last none)).set last (tasks.getD i none)).set last none

theorem length_removeSlot (tasks : List (Option TaskContext)) (i last : Nat) :
    (removeSlot tasks i last).length = tasks.length := by
  simp [removeSlot]

theorem removeSlot_last {tasks : List (Option TaskContext)} {last : Nat}
    (hlast : last < tasks.length) (i : Nat) : (removeSlot tasks i last)[last]? = some none := by
  simp [removeSlot, hlast]

theorem removeSlot_ne {tasks : List (Option TaskContext)} {i last j : Nat} (hi : j ≠ i)
    (hlast : j ≠ last) : (removeSlot tasks i last)[j]? = tasks[j]? := by
  simp [removeSlot, List.getElem?_set_ne hi.symm, List.getElem?_set_ne hlast.symm]

theorem removeSlot_moved {tasks : List (Option TaskContext)} {i last : Nat}
    (hi : i < tasks.length) (hne : i ≠ last) :
    (removeSlot tasks i last)[i]? = some (tasks.getD last none) := by
  rw [removeSlot, List.getElem?_set_ne hne.symm, List.getElem?_set_ne hne.symm,
    List.getElem?_set_self hi]

theorem countP_removeSlot {tasks : List (Option TaskContext)} {i last : Nat} {c : TaskContext}
    (hi : tasks[i]? = some (some c)) (hlast : last < tasks.length) (id : Int) :
    (removeSlot tasks i last).countP (slotHas id) + (if slotHas id (some c) then 1 else 0) =
      tasks.countP (slotHas id) := by
  have hbound : i < tasks.length := (List.getElem?_eq_some_iff.mp hi).choose
  have hslot : tasks.getD i none = some c := by simp [List.getD, hi]
  have hend : tasks[last]? = some (tasks.getD last none) := by
    simp [List.getD, List.getElem?_eq_getElem hlast]
  have hmoved : (tasks.set i (tasks.getD last none))[last]? = some (tasks.getD last none) := by
    by_cases heq : i = last
    · rw [← heq, List.getElem?_set_self hbound]
    · rw [List.getElem?_set_ne heq, hend]
  have hswapped : ((tasks.set i (tasks.getD last none)).set last (some c))[last]? =
      some (some c) := by
    rw [List.getElem?_set_self (by simpa using hlast)]
  have h1 := countP_set_add hi (tasks.getD last none) (slotHas id)
  have h2 := countP_set_add hmoved (some c) (slotHas id)
  have h3 := countP_set_add hswapped none (slotHas id)
  have hnone : slotHas id none = false := rfl
  rw [hnone] at h3
  simp only [removeSlot, hslot]
  simp only [Bool.false_eq_true, if_false] at h3
  omega

theorem Shape.of_removeSlot {e : Executor} (h : Shape e) {i : Nat} {c : TaskContext}
    (hi : i < e.taskSize) (hslot : e.tasks[i]? = some (some c)) {e' : Executor}
    (hcap : e'.cap = e.cap) (htasks : e'.tasks = removeSlot e.tasks i (e.taskSize - 1))
    (hsize : e'.taskSize = e.taskSize - 1) : Shape e' := by
  have hlen := h.size_le
  constructor
  · rw [hcap, htasks, length_removeSlot]
    exact h.cap_le
  · rw [hsize, htasks, length_removeSlot]
    omega
  · intro j d hj hd
    rw [hsize] at hj ⊢
    rw [htasks] at hd ⊢
    have hne : j ≠ e.taskSize - 1 := by
      intro heq
      rw [heq, removeSlot_last (by omega)] at hd
      cases hd
    rw [removeSlot_ne (by omega) hne] at hd
    rcases h.lost j d (by omega) hd with ⟨m, hm, hnull⟩
    have hmi : m ≠ i := by
      intro heq
      rw [heq, hslot] at hnull
      cases hnull
    by_cases hmlast : m = e.taskSize - 1
    · -- the null slot has been swapped to where the task was
      refine ⟨i, by omega, ?_⟩
      rw [removeSlot_moved (by omega) (by omega), ← hmlast]
      simp [List.getD, hnull]
    · refine ⟨m, by omega, ?_⟩
      rw [removeSlot_ne hmi hmlast]
      exact hnull

/-! ## What the operations do to the table -/

theorem countP_processAdd {e : Executor} (h : Shape e) (context : TaskContext) (id : Int) :
    (processAdd e context).tasks.countP (slotHas id) ≤
      e.tasks.countP (slotHas id) + if context.id = id then 1 else 0 := by
  have hslot : (if slotHas id (some context) = true then 1 else 0) =
      if context.id = id then 1 else 0 := by
    simp [slotHas]
  simp only [processAdd, notify]
  by_cases hcap : e.taskSize < e.cap
  · have hlen : e.taskSize < e.tasks.length := Nat.lt_of_lt_of_le hcap h.cap_le
    have hcount := countP_set_add (List.getElem?_eq_getElem hlen) (some context) (slotHas id)
    simp only [if_pos hcap]
    omega
  · simp only [if_neg hcap, List.countP_append, List.countP_singleton]
    omega

/-- Where the search of `process_rmv` stops. -/
theorem found_slot {e : Executor} {id : Int} {i : Nat}
    (hfind : findId id (e.tasks.take e.taskSize) = some (some i)) :
    i < e.taskSize ∧ ∃ c, e.tasks[i]? = some (some c) ∧ c.id = id := by
  rcases findId_some hfind with ⟨c, hc, hid⟩
  have hlt : i < e.taskSize := by
    have hbound := (List.getElem?_eq_some_iff.mp hc).choose
    simp only [List.length_take] at hbound
    omega
  rw [List.getElem?_take_of_lt hlt] at hc
  exact ⟨hlt, c, hc, hid⟩

/-- A search that runs to the end misses nothing, not even behind the counted
slots. -/
theorem Shape.not_found {e : Executor} (h : Shape e) {id : Int}
    (hfind : findId id (e.tasks.take e.taskSize) = some none) :
    e.tasks.countP (slotHas id) = 0 := by
  have hcounted := findId_none hfind
  rw [List.countP_eq_zero]
  intro o ho hhas
  rcases List.mem_iff_getElem?.mp ho with ⟨j, hj⟩
  cases o with
  | none => cases hhas
  | some c =>
      have hid : c.id = id := by simpa [slotHas] using hhas
      rcases Nat.lt_or_ge j e.taskSize with hlt | hge
      · have hmem : some c ∈ e.tasks.take e.taskSize := by
          apply List.mem_of_getElem? (i := j)
          rw [List.getElem?_take_of_lt hlt, hj]
        rcases hcounted _ hmem with ⟨c', hc', hne⟩
        cases hc'
        exact hne hid
      · rcases h.lost j c hge hj with ⟨m, hm, hnull⟩
        have hmem : none ∈ e.tasks.take e.taskSize := by
          apply List.mem_of_getElem? (i := m)
          rw [List.getElem?_take_of_lt hm, hnull]
        rcases hcounted _ hmem with ⟨c', hc', _⟩
        cases hc'

/-- `process_rmv` takes tasks out only, and if it comes to its end the id is in
no slot. -/
theorem Shape.processRmv {e : Executor} (h : Shape e) (context : TaskContext) (stale : Int) :
    Shape (processRmv e context stale) ∧
      (∀ id, (processRmv e context stale).tasks.countP (slotHas id) ≤
        e.tasks.countP (slotHas id)) ∧
      ((processRmv e context stale).status ≠ .crashed →
        e.tasks.countP (slotHas context.id) ≤ 1 →
          (processRmv e context stale).tasks.countP (slotHas context.id) = 0) := by
  simp only [Threadpool.processRmv]
  cases hfind : findId context.id (e.tasks.take e.taskSize) with
  | none =>
      refine ⟨⟨h.cap_le, h.size_le, h.lost⟩, fun id => Nat.le_refl _, ?_⟩
      intro hstatus
      exact absurd rfl hstatus
  | some found =>
      cases found with
      | none => exact ⟨h, fun id => Nat.le_refl _, fun _ _ => h.not_found hfind⟩
      | some i =>
          rcases found_slot hfind with ⟨hi, c, hslot, hid⟩
          have hlast : e.taskSize - 1 < e.tasks.length := by
            have := h.size_le
            omega
          have hcount := countP_removeSlot hslot hlast
          refine ⟨h.of_removeSlot hi hslot rfl rfl rfl, ?_, ?_⟩
          · intro id
            have := hcount id
            change (removeSlot e.tasks i (e.taskSize - 1)).countP (slotHas id) ≤ _
            omega
          · intro _ hone
            have := hcount context.id
            rw [if_pos (by simp [slotHas, hid])] at this
            change (removeSlot e.tasks i (e.taskSize - 1)).countP (slotHas context.id) = 0
            omega

end NetTest.Threadpool.Clients
