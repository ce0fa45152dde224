import NetTest.Lib.Wrapping
import Mathlib.Logic.Function.Basic

/-!
# A stream behind a ring

The elements of a stream are stored in `n` cells, element `i` in cell `i % n`,
so that the cells hold a window of the stream.  Appending to the stream while
the window is shorter than the ring overwrites nothing that is in the window.
-/

namespace NetTest.Stream

variable {α : Type*} {n lo hi i : Nat} {cells : Nat → α} {stream : List α} {x : α}

/-- The cells hold the elements of the stream from position `lo` on. -/
def Holds (n : Nat) (cells : Nat → α) (stream : List α) (lo : Nat) : Prop :=
  ∀ i x, lo ≤ i → stream[i]? = some x → cells (i % n) = x

theorem Holds.nil (n : Nat) (cells : Nat → α) (lo : Nat) : Holds n cells [] lo := by
  intro i x _ hx
  cases hx

theorem Holds.mono (h : Holds n cells stream lo) (hle : lo ≤ hi) : Holds n cells stream hi :=
  fun i x hi hx => h i x (Nat.le_trans hle hi) hx

/-- The cell behind a window that does not fill the ring is not in the window. -/
theorem Holds.push (h : Holds n cells stream lo) (hle : lo ≤ stream.length)
    (hroom : stream.length < lo + n) (x : α) :
    Holds n (Function.update cells (stream.length % n) x) (stream ++ [x]) lo := by
  intro i y hi hy
  rcases Nat.lt_trichotomy i stream.length with hlt | rfl | hgt
  · rw [List.getElem?_append_left hlt] at hy
    have hne : i % n ≠ stream.length % n := by
      intro hsame
      have := Wrapping.eq_of_mod_eq hi (by omega) hle hroom hsame
      omega
    rw [Function.update_of_ne hne]
    exact h i y hi hy
  · rw [List.getElem?_append_right (Nat.le_refl _), Nat.sub_self] at hy
    cases hy
    exact Function.update_self _ _ _
  · rw [List.getElem?_eq_none (by simp; omega)] at hy
    cases hy

theorem Holds.map_range (h : Holds n cells stream lo) {count : Nat}
    (hcount : lo + count ≤ stream.length) :
    (List.range count).map (fun i => cells ((lo + i) % n)) = (stream.drop lo).take count := by
  apply List.ext_getElem
  · simp
    omega
  · intro i hleft hright
    have hi : i < count := by simpa using hleft
    rw [List.getElem_map, List.getElem_range, List.getElem_take, List.getElem_drop]
    exact h (lo + i) _ (by omega) (List.getElem?_eq_getElem (by omega))

/-- A counter that wraps modulo a multiple of the ring still names the cell. -/
theorem cell_of_wrapped {m : Nat} (hdvd : n ∣ m) (count i : Nat) :
    (count % m + i) % n = (count + i) % n := by
  rw [Nat.add_mod, Nat.mod_mod_of_dvd count hdvd, ← Nat.add_mod]

end NetTest.Stream
