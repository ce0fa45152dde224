import Mathlib.Order.Bounds.Basic

/-!
# Bounded searches

The least member of an interval that satisfies a test, searched upwards, and the
greatest one below a bound, searched downwards.
-/

namespace NetTest.Search

variable {P : Nat → Bool} {start count bound p : Nat}

/-! ## Upwards -/

def findUp (P : Nat → Bool) (start : Nat) : Nat → Option Nat
  | 0 => none
  | count + 1 => if P start then some start else findUp P (start + 1) count

theorem findUp_eq_none_iff :
    findUp P start count = none ↔ ∀ q, start ≤ q → q < start + count → P q = false := by
  induction count generalizing start with
  | zero =>
      constructor
      · intro _ q hq hlt
        omega
      · intro _
        rfl
  | succ count ih =>
      rw [findUp]
      cases hP : P start with
      | true =>
          constructor
          · intro h
            simp at h
          · intro h
            have hstart := h start (Nat.le_refl start) (by omega)
            rw [hP] at hstart
            contradiction
      | false =>
          rw [if_neg Bool.false_ne_true, ih]
          constructor
          · intro h q hq hlt
            rcases Nat.eq_or_lt_of_le hq with rfl | hq
            · exact hP
            · exact h q hq (by omega)
          · intro h q hq hlt
            exact h q (by omega) (by omega)

theorem findUp_isLeast (h : findUp P start count = some p) :
    IsLeast {q | start ≤ q ∧ q < start + count ∧ P q = true} p := by
  induction count generalizing start with
  | zero => cases h
  | succ count ih =>
      rw [findUp] at h
      cases hP : P start with
      | true =>
          rw [hP, if_pos rfl] at h
          cases h
          exact ⟨⟨Nat.le_refl p, by omega, hP⟩, fun q hq => hq.1⟩
      | false =>
          rw [hP, if_neg Bool.false_ne_true] at h
          rcases ih h with ⟨⟨hge, hlt, htrue⟩, hleast⟩
          constructor
          · exact ⟨by omega, by omega, htrue⟩
          · intro q hmem
            rcases hmem with ⟨hq, hqlt, hqtrue⟩
            rcases Nat.eq_or_lt_of_le hq with rfl | hq
            · rw [hP] at hqtrue
              contradiction
            · exact hleast ⟨hq, by omega, hqtrue⟩

/-- A search that is cut in two goes on where the first part found nothing. -/
theorem findUp_add (P : Nat → Bool) (start a b : Nat) :
    findUp P start (a + b) = (findUp P start a).or (findUp P (start + a) b) := by
  induction a generalizing start with
  | zero => rw [Nat.zero_add, findUp, Option.none_or, Nat.add_zero]
  | succ a ih =>
      rw [show a + 1 + b = a + b + 1 by omega, findUp, findUp]
      cases hP : P start with
      | true => rfl
      | false =>
          rw [if_neg Bool.false_ne_true, if_neg Bool.false_ne_true, ih,
            show start + 1 + a = start + (a + 1) by omega]

/-! ## Downwards -/

def findDown (P : Nat → Bool) : Nat → Option Nat
  | 0 => none
  | bound + 1 => if P bound then some bound else findDown P bound

theorem findDown_eq_none_iff : findDown P bound = none ↔ ∀ q < bound, P q = false := by
  induction bound with
  | zero =>
      constructor
      · intro _ q hq
        omega
      · intro _
        rfl
  | succ bound ih =>
      rw [findDown]
      cases hP : P bound with
      | true =>
          constructor
          · intro h
            simp at h
          · intro h
            have hbound := h bound (by omega)
            rw [hP] at hbound
            contradiction
      | false =>
          rw [if_neg Bool.false_ne_true, ih]
          constructor
          · intro h q hq
            rcases Nat.eq_or_lt_of_le (Nat.le_of_lt_succ hq) with rfl | hq
            · exact hP
            · exact h q hq
          · intro h q hq
            exact h q (by omega)

theorem findDown_isGreatest (h : findDown P bound = some p) :
    IsGreatest {q | q < bound ∧ P q = true} p := by
  induction bound with
  | zero => cases h
  | succ bound ih =>
      rw [findDown] at h
      cases hP : P bound with
      | true =>
          rw [hP, if_pos rfl] at h
          cases h
          exact ⟨⟨by omega, hP⟩, fun q hq => Nat.le_of_lt_succ hq.1⟩
      | false =>
          rw [hP, if_neg Bool.false_ne_true] at h
          rcases ih h with ⟨⟨hlt, htrue⟩, hgreatest⟩
          constructor
          · exact ⟨by omega, htrue⟩
          · intro q hmem
            rcases hmem with ⟨hq, hqtrue⟩
            rcases Nat.eq_or_lt_of_le (Nat.le_of_lt_succ hq) with rfl | hq
            · rw [hP] at hqtrue
              contradiction
            · exact hgreatest ⟨hq, hqtrue⟩

theorem findDown_add (h : ∀ q, bound ≤ q → q < bound + count → P q = false) :
    findDown P (bound + count) = findDown P bound := by
  induction count with
  | zero => rfl
  | succ count ih =>
      rw [← Nat.add_assoc, findDown, h (bound + count) (by omega) (by omega),
        if_neg Bool.false_ne_true]
      exact ih fun q hq hlt => h q hq (by omega)

end NetTest.Search
