import Mathlib.Data.List.Range
import Mathlib.Logic.Function.Basic

/-!
# Circular storage

A ring of `n` cells is read through `window`: `count` consecutive cells from a
start position, wrapping once at the end.  Start positions may be `n` itself,
which denotes the same cell as `0`; rings that fold their indices lazily visit
that position.
-/

namespace NetTest.Ring

variable {α : Type*}

/-- Fold a position below `2 * n` back into the ring of `n` cells. -/
def wrap (n x : Nat) : Nat := if x < n then x else x - n

theorem wrap_of_lt {n x : Nat} (h : x < n) : wrap n x = x := if_pos h

theorem wrap_of_le {n x : Nat} (h : n ≤ x) : wrap n x = x - n := if_neg (by omega)

@[simp] theorem wrap_self (n : Nat) : wrap n n = 0 := by simp [wrap]

theorem wrap_lt {n x : Nat} (h : x < 2 * n) : wrap n x < n := by
  unfold wrap
  split <;> omega

/-- Fewer than `n` steps from a reduced position, folding once is reduction. -/
theorem wrap_mod {n base i : Nat} (hi : i < n) : wrap n (base % n + i) = (base + i) % n := by
  have hbase : base % n < n := Nat.mod_lt base (by omega)
  rw [← Nat.mod_add_mod base]
  generalize base % n = start at hbase
  rcases Nat.lt_or_ge (start + i) n with hlt | hge
  · rw [wrap_of_lt hlt, Nat.mod_eq_of_lt hlt]
  · rw [wrap_of_le hge, Nat.mod_eq_sub_mod hge, Nat.mod_eq_of_lt (by omega)]

theorem wrap_ne {n x y : Nat} (hlt : x < y) (hgap : y < x + n) :
    wrap n x ≠ wrap n y := by
  unfold wrap
  split <;> split <;> omega

/-- The `count` cells from `start` on, oldest first. -/
def window (cells : Nat → α) (n start count : Nat) : List α :=
  (List.range count).map fun i => cells (wrap n (start + i))

@[simp] theorem window_zero (cells : Nat → α) (n start : Nat) :
    window cells n start 0 = [] := rfl

theorem window_succ_last (cells : Nat → α) (n start count : Nat) :
    window cells n start (count + 1) =
      window cells n start count ++ [cells (wrap n (start + count))] := by
  simp [window, List.range_succ]

theorem window_succ_first (cells : Nat → α) (n start count : Nat) :
    window cells n start (count + 1) =
      cells (wrap n start) :: window cells n (start + 1) count := by
  simp [window, List.range_succ_eq_map, Nat.add_assoc, Nat.add_comm 1]

/-- Starting one past the last cell is starting at the first one. -/
theorem window_start_self {n count : Nat} (cells : Nat → α) (hcount : count ≤ n) :
    window cells n n count = window cells n 0 count := by
  unfold window
  apply List.map_congr_left
  intro i hi
  have hi : i < count := List.mem_range.mp hi
  rw [wrap_of_le (by omega), wrap_of_lt (by omega)]
  congr 1
  omega

/-- Writing the cell right behind a window that does not fill the ring leaves
the window as it was. -/
theorem window_update {n start count : Nat} (cells : Nat → α) (v : α)
    (hcount : count < n) :
    window (Function.update cells (wrap n (start + count)) v) n start count =
      window cells n start count := by
  unfold window
  apply List.map_congr_left
  intro i hi
  have hi : i < count := List.mem_range.mp hi
  exact Function.update_of_ne (wrap_ne (by omega) (by omega)) _ _

end NetTest.Ring
