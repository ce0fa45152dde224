import Mathlib.Data.List.Count

/-!
# Lists whose entries are overwritten

Resources that move between lists are followed by how often they occur: a list
entry that is overwritten gives back what it counted for and takes up what the
new entry counts for.
-/

namespace NetTest.Counting

variable {α : Type*} {p q : α → Bool} {l : List α}

theorem forall_mem_set {P : α → Prop} (hold : ∀ x ∈ l, P x) {y : α} (hnew : P y) (k : Nat) :
    ∀ x ∈ l.set k y, P x := by
  intro x hx
  rcases List.mem_or_eq_of_mem_set hx with hmem | heq
  · exact hold x hmem
  · rw [heq]
    exact hnew

theorem countP_set_add {k : Nat} {x : α} (h : l[k]? = some x) (y : α) (p : α → Bool) :
    (l.set k y).countP p + (if p x then 1 else 0) = l.countP p + (if p y then 1 else 0) := by
  induction l generalizing k with
  | nil => simp at h
  | cons a l ih =>
      cases k with
      | zero =>
          rw [List.getElem?_cons_zero] at h
          cases h
          simp only [List.set_cons_zero, List.countP_cons]
          omega
      | succ k =>
          rw [List.getElem?_cons_succ] at h
          have hrec := ih h
          simp only [List.set_cons_succ, List.countP_cons]
          omega

theorem countP_lt_of_mem (hpq : ∀ x, q x = true → p x = true) {x : α} (hx : x ∈ l)
    (hp : p x = true) (hq : q x = false) : l.countP q < l.countP p := by
  induction l with
  | nil => cases hx
  | cons a l ih =>
      have hle : l.countP q ≤ l.countP p := List.countP_mono_left fun x _ => hpq x
      rw [List.countP_cons, List.countP_cons]
      rcases List.mem_cons.mp hx with heq | hmem
      · rw [← heq, if_pos hp, hq]
        simp only [Bool.false_eq_true, if_false]
        omega
      · have hlt := ih hmem
        by_cases hqa : q a = true
        · rw [if_pos hqa, if_pos (hpq a hqa)]
          omega
        · rw [if_neg hqa]
          omega

end NetTest.Counting
