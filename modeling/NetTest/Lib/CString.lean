import Mathlib.Data.List.TakeWhile

/-!
# C strings

Byte arrays as the C library reads them: the text of an array ends before its
first NUL, and the comparisons look at the first bytes that differ.  The end of a
list stands for the NUL behind it.
-/

namespace NetTest.CString

/-- The bytes before the first NUL. -/
def cstr (bytes : List UInt8) : List UInt8 := bytes.takeWhile (· ≠ 0)

/-- The difference of two bytes as `unsigned char`s. -/
def byteDiff (x y : UInt8) : Int := (x.toNat : Int) - (y.toNat : Int)

/-- Both arrays have the same length. -/
def memcmp : List UInt8 → List UInt8 → Int
  | x :: xs, y :: ys => if x = y then memcmp xs ys else byteDiff x y
  | _, _ => 0

def strcmp : List UInt8 → List UInt8 → Int
  | [], [] => 0
  | [], y :: _ => byteDiff 0 y
  | x :: _, [] => byteDiff x 0
  | x :: xs, y :: ys => if x ≠ y then byteDiff x y else if x = 0 then 0 else strcmp xs ys

/-- `strcmp` of at most so many bytes. -/
def strncmp : Nat → List UInt8 → List UInt8 → Int
  | 0, _, _ => 0
  | _ + 1, [], [] => 0
  | _ + 1, [], y :: _ => byteDiff 0 y
  | _ + 1, x :: _, [] => byteDiff x 0
  | k + 1, x :: xs, y :: ys =>
      if x ≠ y then byteDiff x y else if x = 0 then 0 else strncmp k xs ys

/-! ## The text -/

theorem cstr_cons_zero (xs : List UInt8) : cstr (0 :: xs) = [] := rfl

theorem cstr_cons_ne {x : UInt8} (hx : x ≠ 0) (xs : List UInt8) : cstr (x :: xs) = x :: cstr xs :=
  List.takeWhile_cons_of_pos (decide_eq_true hx)

theorem cstr_of_no_nul {xs : List UInt8} (h : 0 ∉ xs) : cstr xs = xs := by
  apply List.takeWhile_eq_self_iff.mpr
  intro x hx
  apply decide_eq_true
  intro hzero
  rw [hzero] at hx
  exact h hx

/-- An array with a NUL in it is longer than its text. -/
theorem length_cstr_lt {xs : List UInt8} (h : 0 ∈ xs) : (cstr xs).length < xs.length := by
  induction xs with
  | nil => cases h
  | cons x xs ih =>
      by_cases hx : x = 0
      · rw [hx, cstr_cons_zero]
        exact Nat.succ_pos xs.length
      · rcases List.mem_cons.mp h with hzero | hrest
        · exact absurd hzero.symm hx
        · rw [cstr_cons_ne hx, List.length_cons, List.length_cons]
          exact Nat.succ_lt_succ (ih hrest)

/-- What lies behind a NUL is not part of the text. -/
theorem cstr_append_zero (xs ys : List UInt8) : cstr (xs ++ 0 :: ys) = cstr xs := by
  induction xs with
  | nil => rfl
  | cons x xs ih =>
      rw [List.cons_append]
      by_cases hx : x = 0
      · rw [hx, cstr_cons_zero, cstr_cons_zero]
      · rw [cstr_cons_ne hx, cstr_cons_ne hx, ih]

theorem cstr_take (xs : List UInt8) (count : Nat) : cstr (xs.take count) = (cstr xs).take count := by
  induction xs generalizing count with
  | nil => rw [List.take_nil, cstr, List.takeWhile_nil, List.take_nil]
  | cons x xs ih =>
      cases count with
      | zero => rfl
      | succ count =>
          rw [List.take_succ_cons]
          by_cases hx : x = 0
          · rw [hx, cstr_cons_zero, cstr_cons_zero, List.take_nil]
          · rw [cstr_cons_ne hx, cstr_cons_ne hx, List.take_succ_cons, ih]

theorem length_cstr_le (xs : List UInt8) : (cstr xs).length ≤ xs.length :=
  (List.takeWhile_prefix _).length_le

theorem cstr_cstr (xs : List UInt8) : cstr (cstr xs) = cstr xs := by
  apply cstr_of_no_nul
  intro hzero
  have hne := List.mem_takeWhile_imp hzero
  contradiction

theorem cstr_append (xs ys : List UInt8) : cstr (cstr xs ++ ys) = cstr xs ++ cstr ys := by
  apply List.takeWhile_append_of_pos
  intro x hx
  have htest := List.mem_takeWhile_imp hx
  exact htest

theorem take_length_cstr (xs : List UInt8) : xs.take (cstr xs).length = cstr xs :=
  (List.prefix_iff_eq_take.mp (List.takeWhile_prefix _)).symm

/-! ## The comparisons -/

theorem byteDiff_neg_iff (x y : UInt8) : byteDiff x y < 0 ↔ x < y := by
  rw [byteDiff, UInt8.lt_iff_toNat_lt]
  omega

theorem byteDiff_eq_zero_iff (x y : UInt8) : byteDiff x y = 0 ↔ x = y := by
  rw [byteDiff, ← UInt8.toNat_inj]
  omega

theorem byteDiff_swap (x y : UInt8) : byteDiff y x = -byteDiff x y := by
  unfold byteDiff
  omega

theorem strcmp_swap (xs ys : List UInt8) : strcmp ys xs = -strcmp xs ys := by
  induction xs generalizing ys with
  | nil =>
      cases ys with
      | nil => rfl
      | cons y ys => exact byteDiff_swap 0 y
  | cons x xs ih =>
      cases ys with
      | nil => exact byteDiff_swap x 0
      | cons y ys =>
          rw [strcmp, strcmp]
          by_cases hxy : x = y
          · subst hxy
            by_cases hx : x = 0
            · simp only [hx, ne_eq, not_true_eq_false, if_false, if_true, Int.neg_zero]
            · simp only [hx, ne_eq, not_true_eq_false, if_false]
              exact ih ys
          · rw [if_pos (Ne.symm hxy), if_pos hxy]
            exact byteDiff_swap x y

theorem cstr_cons_lt_iff {x y : UInt8} (hxy : x ≠ y) (xs ys : List UInt8) :
    cstr (x :: xs) < cstr (y :: ys) ↔ x < y := by
  by_cases hx : x = 0
  · have hy : y ≠ 0 := by
      intro hy
      exact hxy (hx.trans hy.symm)
    rw [hx, cstr_cons_zero, cstr_cons_ne hy]
    exact iff_of_true (List.nil_lt_cons y _) (UInt8.pos_iff_ne_zero.mpr hy)
  · by_cases hy : y = 0
    · rw [hy, cstr_cons_zero]
      exact iff_of_false (List.not_lt_nil _) UInt8.not_lt_zero
    · rw [cstr_cons_ne hx, cstr_cons_ne hy, List.cons_lt_cons_iff]
      simp only [hxy, false_and, or_false]

theorem cstr_cons_inj {x y : UInt8} {xs ys : List UInt8} (h : cstr (x :: xs) = cstr (y :: ys)) :
    x = y := by
  by_cases hx : x = 0
  · by_cases hy : y = 0
    · exact hx.trans hy.symm
    · rw [hx, cstr_cons_zero, cstr_cons_ne hy] at h
      cases h
  · by_cases hy : y = 0
    · rw [hy, cstr_cons_zero, cstr_cons_ne hx] at h
      cases h
    · rw [cstr_cons_ne hx, cstr_cons_ne hy] at h
      exact List.head_eq_of_cons_eq h

/-- The sign of `strcmp` is the order of the texts. -/
theorem strcmp_neg_iff (xs ys : List UInt8) : strcmp xs ys < 0 ↔ cstr xs < cstr ys := by
  induction xs generalizing ys with
  | nil =>
      cases ys with
      | nil => exact iff_of_false (by decide) (List.not_lt_nil _)
      | cons y ys =>
          rw [strcmp, byteDiff_neg_iff]
          by_cases hy : y = 0
          · rw [hy, cstr_cons_zero]
            exact iff_of_false (by decide) (List.not_lt_nil _)
          · rw [cstr_cons_ne hy]
            exact iff_of_true (UInt8.pos_iff_ne_zero.mpr hy) (List.nil_lt_cons y _)
  | cons x xs ih =>
      cases ys with
      | nil =>
          rw [strcmp, byteDiff_neg_iff]
          exact iff_of_false UInt8.not_lt_zero (List.not_lt_nil _)
      | cons y ys =>
          rw [strcmp]
          by_cases hxy : x = y
          · subst hxy
            rw [if_neg (not_not_intro rfl)]
            by_cases hx : x = 0
            · rw [if_pos hx, hx, cstr_cons_zero, cstr_cons_zero]
              exact iff_of_false (by decide) (List.not_lt_nil _)
            · rw [if_neg hx, cstr_cons_ne hx, cstr_cons_ne hx, List.cons_lt_cons_iff, ih]
              simp only [UInt8.lt_irrefl, true_and, false_or]
          · rw [if_pos hxy, byteDiff_neg_iff, cstr_cons_lt_iff hxy]

theorem strcmp_pos_iff (xs ys : List UInt8) : 0 < strcmp xs ys ↔ cstr ys < cstr xs := by
  rw [← strcmp_neg_iff, strcmp_swap]
  omega

theorem strcmp_eq_zero_iff (xs ys : List UInt8) : strcmp xs ys = 0 ↔ cstr xs = cstr ys := by
  induction xs generalizing ys with
  | nil =>
      cases ys with
      | nil => exact iff_of_true rfl rfl
      | cons y ys =>
          rw [strcmp, byteDiff_eq_zero_iff]
          by_cases hy : y = 0
          · rw [hy, cstr_cons_zero]
            exact iff_of_true rfl rfl
          · rw [cstr_cons_ne hy]
            exact iff_of_false (Ne.symm hy) (List.cons_ne_nil y _).symm
  | cons x xs ih =>
      cases ys with
      | nil =>
          rw [strcmp, byteDiff_eq_zero_iff]
          by_cases hx : x = 0
          · rw [hx, cstr_cons_zero]
            exact iff_of_true rfl rfl
          · rw [cstr_cons_ne hx]
            exact iff_of_false hx (List.cons_ne_nil x _)
      | cons y ys =>
          rw [strcmp]
          by_cases hxy : x = y
          · subst hxy
            rw [if_neg (not_not_intro rfl)]
            by_cases hx : x = 0
            · rw [if_pos hx, hx, cstr_cons_zero, cstr_cons_zero]
              exact iff_of_true rfl rfl
            · rw [if_neg hx, cstr_cons_ne hx, cstr_cons_ne hx, List.cons_inj_right, ih]
          · rw [if_pos hxy, byteDiff_eq_zero_iff]
            exact iff_of_false hxy fun h => hxy (cstr_cons_inj h)

/-- A text that ends within the bytes compared is compared as a whole. -/
theorem strncmp_eq_strcmp {k : Nat} {xs : List UInt8} (h : (cstr xs).length < k)
    (ys : List UInt8) : strncmp k xs ys = strcmp xs ys := by
  induction k generalizing xs ys with
  | zero => exact absurd h (Nat.not_lt_zero _)
  | succ k ih =>
      cases xs with
      | nil =>
          cases ys with
          | nil => rfl
          | cons y ys => rfl
      | cons x xs =>
          cases ys with
          | nil => rfl
          | cons y ys =>
              rw [strncmp, strcmp]
              by_cases hx : x = 0
              · simp only [if_pos hx]
              · rw [cstr_cons_ne hx, List.length_cons] at h
                rw [ih (Nat.lt_of_succ_lt_succ h) ys]

theorem memcmp_eq_zero_iff {xs ys : List UInt8} (h : xs.length = ys.length) :
    memcmp xs ys = 0 ↔ xs = ys := by
  induction xs generalizing ys with
  | nil =>
      cases ys with
      | nil => exact iff_of_true rfl rfl
      | cons y ys => cases h
  | cons x xs ih =>
      cases ys with
      | nil => cases h
      | cons y ys =>
          rw [memcmp]
          by_cases hxy : x = y
          · rw [if_pos hxy, ih (Nat.succ.inj h), hxy, List.cons_inj_right]
          · rw [if_neg hxy, byteDiff_eq_zero_iff]
            exact iff_of_false hxy fun heq => hxy (List.head_eq_of_cons_eq heq)

/-- Arrays whose texts differ are told apart within the texts. -/
theorem memcmp_eq_strcmp {xs ys : List UInt8} (h : xs.length = ys.length)
    (hne : cstr xs ≠ cstr ys) : memcmp xs ys = strcmp xs ys := by
  induction xs generalizing ys with
  | nil =>
      cases ys with
      | nil => exact absurd rfl hne
      | cons y ys => cases h
  | cons x xs ih =>
      cases ys with
      | nil => cases h
      | cons y ys =>
          rw [memcmp, strcmp]
          by_cases hxy : x = y
          · subst hxy
            rw [if_pos rfl, if_neg (not_not_intro rfl)]
            by_cases hx : x = 0
            · rw [hx] at hne
              exact absurd rfl hne
            · rw [if_neg hx]
              apply ih (Nat.succ.inj h)
              intro heq
              rw [cstr_cons_ne hx, cstr_cons_ne hx, heq] at hne
              exact hne rfl
          · rw [if_neg hxy, if_pos hxy]

end NetTest.CString
