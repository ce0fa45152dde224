import Mathlib.Algebra.Group.Nat.Defs

/-!
# Wrapping counters

A counter that runs freely modulo `n` still tells positions apart as long as
they lie within `n` of each other.
-/

namespace NetTest.Wrapping

/-- The number of values of a 64-bit `size_t`. -/
def sizeT : Nat := 2 ^ 64

/-- The difference of two addresses or counts, as a `size_t`. -/
def diff (a b : Nat) : Nat := (a + sizeT - b) % sizeT

theorem diff_eq {a b : Nat} (hle : b ≤ a) (ha : a < sizeT) : diff a b = a - b := by
  rw [diff, show a + sizeT - b = a - b + sizeT by omega, Nat.add_mod_right,
    Nat.mod_eq_of_lt (by omega)]

theorem mod_of_wrapped {n x : Nat} (hle : n ≤ x) (hlt : x < n + n) : x % n = x - n := by
  rw [Nat.mod_eq_sub_mod hle, Nat.mod_eq_of_lt (by omega)]

/-- Positions less than `n` apart are told apart modulo `n`. -/
theorem eq_of_mod_eq {n base x y : Nat} (hx : base ≤ x) (hxn : x < base + n) (hy : base ≤ y)
    (hyn : y < base + n) (h : x % n = y % n) : x = y := by
  have key : ∀ u v : Nat, base ≤ u → v < base + n → u % n = v % n → v ≤ u := by
    intro u v hu hv huv
    have hzero := Nat.sub_mod_eq_zero_of_mod_eq huv.symm
    rw [Nat.mod_eq_of_lt (by omega)] at hzero
    omega
  exact Nat.le_antisymm (key y x hy hxn h.symm) (key x y hx hyn h)

/-- A counter meets its old value again after multiples of `n` only. -/
theorem dvd_of_add_mod_eq {n a d : Nat} (h : (a + d) % n = a % n) : n ∣ d := by
  have hzero := Nat.sub_mod_eq_zero_of_mod_eq h
  rw [Nat.add_sub_cancel_left] at hzero
  exact Nat.dvd_of_mod_eq_zero hzero

/-- The difference of two counters less than `n` apart is their distance. -/
theorem add_mod_sub_mod {n a d : Nat} (ha : a < n) (hd : d < n) :
    ((a + d) % n + n - a) % n = d := by
  rcases Nat.lt_or_ge (a + d) n with hlt | hge
  · rw [Nat.mod_eq_of_lt hlt, show a + d + n - a = d + n by omega, Nat.add_mod_right,
      Nat.mod_eq_of_lt hd]
  · have hmod : (a + d) % n = a + d - n := mod_of_wrapped hge (by omega)
    rw [hmod, show a + d - n + n - a = d by omega, Nat.mod_eq_of_lt hd]

end NetTest.Wrapping
