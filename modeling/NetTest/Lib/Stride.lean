import Mathlib.Data.Int.GCD
import Mathlib.Data.Nat.Find
import NetTest.Lib.Wrapping

/-!
# Strides that wrap

A counter modulo `m` is raised by `step` until it reaches a target.  The values it
takes are those that agree with the first one modulo the greatest common divisor of
`step` and `m`, so the target is reached exactly if it is not above the greatest of
them.
-/

namespace NetTest.Stride

open Wrapping

variable {m step target turns a x : Nat}

/-- The loop, for at most so many tests of its condition; `none` is a loop that is
still running. -/
def climb (m step target : Nat) : Nat → Nat → Option Nat
  | 0, _ => none
  | turns + 1, a => if a < target then climb m step target turns ((a + step) % m) else some a

/-! ## The values that are taken -/

theorem add_mod_of_dvd {d n : Nat} (h : n ∣ d) (a : Nat) : (a + d) % n = a % n := by
  rcases h with ⟨q, rfl⟩
  exact Nat.add_mul_mod_self_left a n q

/-- Multiples of `step` come to every multiple of the greatest common divisor. -/
theorem exists_mul_mod_eq (hm : 0 < m) {d : Nat} (h : Nat.gcd step m ∣ d) :
    ∃ k, k * step % m = d % m := by
  rcases Nat.eq_or_lt_of_le (Nat.gcd_le_right step hm) with heq | hlt
  · rw [heq] at h
    exact ⟨0, by rw [Nat.zero_mul, Nat.zero_mod, Nat.mod_eq_zero_of_dvd h]⟩
  · rcases Nat.exists_mul_mod_eq_gcd hlt with ⟨t, _, ht⟩
    rcases h with ⟨j, rfl⟩
    refine ⟨t * j, ?_⟩
    calc
      t * j * step % m = step * t * j % m := by rw [Nat.mul_comm (t * j), Nat.mul_assoc]
      _ = step * t % m * j % m := (Nat.mod_mul_mod (step * t) j m).symm
      _ = Nat.gcd step m * j % m := by rw [ht]

theorem exists_add_mul_mod_iff (hm : 0 < m) (step a x : Nat) :
    (∃ k, (a + k * step) % m = x) ↔ x < m ∧ x % Nat.gcd step m = a % Nat.gcd step m := by
  have hdvd : Nat.gcd step m ∣ m := Nat.gcd_dvd_right step m
  constructor
  · intro h
    rcases h with ⟨k, rfl⟩
    have hmul : Nat.gcd step m ∣ k * step := Dvd.dvd.mul_left (Nat.gcd_dvd_left step m) k
    rw [Nat.mod_mod_of_dvd _ hdvd, add_mod_of_dvd hmul]
    exact ⟨Nat.mod_lt _ hm, rfl⟩
  · intro h
    rcases h with ⟨hx, hmod⟩
    -- the way from `a` up to a number that is `x` modulo `m`
    have hle : a ≤ a * m := Nat.le_mul_of_pos_right a hm
    have hway : a + (x + a * m - a) = x + m * a := by
      rw [Nat.mul_comm m a]
      omega
    have hgap : Nat.gcd step m ∣ x + a * m - a := by
      apply dvd_of_add_mod_eq (a := a)
      rw [hway, add_mod_of_dvd (Dvd.dvd.mul_right hdvd a), hmod]
    rcases exists_mul_mod_eq hm hgap with ⟨k, hk⟩
    refine ⟨k, ?_⟩
    rw [Nat.add_mod, hk, ← Nat.add_mod, hway, Nat.add_mul_mod_self_left, Nat.mod_eq_of_lt hx]

/-! ## The target -/

/-- A number below `m` that agrees with `a` is no greater than the last of them. -/
theorem le_last {g : Nat} (hg : g ∣ m) (hx : x < m) (hmod : x % g = a % g) :
    x ≤ m - g + a % g := by
  rcases hg with ⟨q, rfl⟩
  have hdiv : x / g < q := Nat.div_lt_of_lt_mul hx
  have hsplit : g * (x / g) + x % g = x := Nat.div_add_mod x g
  have hmul : g * (x / g) ≤ g * q - g := by
    rw [← Nat.mul_sub_one]
    exact Nat.mul_le_mul_left g (Nat.le_sub_one_of_lt hdiv)
  omega

theorem exists_le_iff (hm : 0 < m) (step a target : Nat) :
    (∃ k, target ≤ (a + k * step) % m) ↔
      target ≤ m - Nat.gcd step m + a % Nat.gcd step m := by
  have hdvd : Nat.gcd step m ∣ m := Nat.gcd_dvd_right step m
  have hle : Nat.gcd step m ≤ m := Nat.le_of_dvd hm hdvd
  have hlt : a % Nat.gcd step m < Nat.gcd step m := Nat.mod_lt a (Nat.gcd_pos_of_pos_right step hm)
  constructor
  · intro h
    rcases h with ⟨k, hk⟩
    rcases (exists_add_mul_mod_iff hm step a _).mp ⟨k, rfl⟩ with ⟨hx, hmod⟩
    exact Nat.le_trans hk (le_last hdvd hx hmod)
  · intro h
    have hmod : (m - Nat.gcd step m + a % Nat.gcd step m) % Nat.gcd step m =
        a % Nat.gcd step m := by
      rw [Nat.add_comm, add_mod_of_dvd (Nat.dvd_sub hdvd (Nat.dvd_refl _)), Nat.mod_mod]
    rcases (exists_add_mul_mod_iff hm step a _).mpr ⟨by omega, hmod⟩ with ⟨k, hk⟩
    exact ⟨k, by rw [hk]; exact h⟩

/-! ## The loop -/

theorem value_zero (ha : a < m) : (a + 0 * step) % m = a := by
  rw [Nat.zero_mul, Nat.add_zero, Nat.mod_eq_of_lt ha]

theorem value_succ (m step a k : Nat) :
    ((a + step) % m + k * step) % m = (a + (k + 1) * step) % m := by
  rw [Nat.mod_add_mod, Nat.add_assoc, Nat.succ_mul, Nat.add_comm step]

/-- The loop ends with the first value that reaches the target. -/
theorem climb_of_first {k : Nat} (ha : a < m) (hk : target ≤ (a + k * step) % m)
    (hbefore : ∀ j < k, (a + j * step) % m < target) (hturns : k < turns) :
    climb m step target turns a = some ((a + k * step) % m) := by
  induction k generalizing a turns with
  | zero =>
      rw [value_zero ha] at hk ⊢
      cases turns with
      | zero => cases hturns
      | succ turns => rw [climb, if_neg (Nat.not_lt.mpr hk)]
  | succ k ih =>
      have hlow := hbefore 0 (Nat.succ_pos k)
      rw [value_zero ha] at hlow
      cases turns with
      | zero => cases hturns
      | succ turns =>
          rw [climb, if_pos hlow, ← value_succ]
          apply ih (Nat.mod_lt _ (by omega))
          · rw [value_succ]
            exact hk
          · intro j hj
            rw [value_succ]
            exact hbefore (j + 1) (Nat.succ_lt_succ hj)
          · exact Nat.lt_of_succ_lt_succ hturns

theorem first_of_climb (ha : a < m) (h : climb m step target turns a = some x) :
    ∃ k, x = (a + k * step) % m ∧ target ≤ x ∧ ∀ j < k, (a + j * step) % m < target := by
  induction turns generalizing a with
  | zero => cases h
  | succ turns ih =>
      rw [climb] at h
      by_cases hlow : a < target
      · rw [if_pos hlow] at h
        rcases ih (Nat.mod_lt _ (by omega)) h with ⟨k, hk, hle, hbefore⟩
        rw [value_succ] at hk
        refine ⟨k + 1, hk, hle, ?_⟩
        intro j hj
        cases j with
        | zero =>
            rw [value_zero ha]
            exact hlow
        | succ j =>
            rw [← value_succ]
            exact hbefore j (Nat.lt_of_succ_lt_succ hj)
      · rw [if_neg hlow] at h
        cases h
        exact ⟨0, (value_zero ha).symm, Nat.le_of_not_lt hlow, fun j hj => absurd hj j.not_lt_zero⟩

/-- The loop ends if and only if some value reaches the target. -/
theorem climb_iff (ha : a < m) (step target : Nat) :
    (∃ turns x, climb m step target turns a = some x ∧ target ≤ x) ↔
      ∃ k, target ≤ (a + k * step) % m := by
  constructor
  · intro h
    rcases h with ⟨turns, x, hx, hle⟩
    rcases first_of_climb ha hx with ⟨k, rfl, _⟩
    exact ⟨k, hle⟩
  · intro h
    have hfirst := Nat.find_spec h
    exact ⟨Nat.find h + 1, _, climb_of_first ha hfirst
      (fun j hj => Nat.lt_of_not_le (Nat.find_min h hj)) (Nat.lt_succ_self _), hfirst⟩

theorem climb_enough (ha : a < m) (h : climb m step target turns a = some x) :
    climb m step target m a = some x := by
  rcases first_of_climb ha h with ⟨k, rfl, hle, hbefore⟩
  apply climb_of_first ha hle hbefore
  -- a later turn would only repeat a value
  apply Nat.lt_of_not_le
  intro hmk
  have hagain : (a + (k - m) * step) % m = (a + k * step) % m := by
    have hsplit : a + k * step = a + (k - m) * step + m * step := by
      rw [Nat.add_assoc, ← Nat.add_mul, Nat.sub_add_cancel hmk]
    rw [hsplit, Nat.add_mul_mod_self_left]
  have hlow := hbefore (k - m) (by omega)
  omega

/-- Without a wrap the loop ends with the first multiple of `step` that is enough. -/
theorem climb_of_room (hstep : 0 < step) (htarget : a ≤ target)
    (hroom : a + (target - a + step - 1) / step * step < m) :
    climb m step target m a = some (a + (target - a + step - 1) / step * step) := by
  generalize hq : (target - a + step - 1) / step = q at *
  have hup : target - a ≤ q * step := by
    have hlt := Nat.lt_mul_div_succ (target - a + step - 1) hstep
    rw [hq, Nat.mul_add_one, Nat.mul_comm] at hlt
    omega
  have hdown : ∀ j < q, a + j * step < target := by
    intro j hj
    have hle := Nat.mul_le_mul_right step (Nat.succ_le_of_lt hj)
    have hdiv := Nat.div_mul_le_self (target - a + step - 1) step
    rw [hq] at hdiv
    rw [Nat.succ_mul] at hle
    omega
  have hplain : ∀ j ≤ q, (a + j * step) % m = a + j * step := by
    intro j hj
    have hle := Nat.mul_le_mul_right step hj
    exact Nat.mod_eq_of_lt (by omega)
  rw [← hplain q (Nat.le_refl q)]
  apply climb_of_first (by omega)
  · rw [hplain q (Nat.le_refl q)]
    omega
  · intro j hj
    rw [hplain j (Nat.le_of_lt hj)]
    exact hdown j hj
  · have hle := Nat.le_mul_of_pos_right q hstep
    omega

end NetTest.Stride
