import Mathlib.Algebra.Group.Int.Defs
import NetTest.Basic.FixedBitSet.Sets
import NetTest.Lib.Search

/-!
# The search upwards

`find_first_set` scans the byte of `offset` from `offset` on and then scans bytes,
but starts again with the byte it has just been through.  A bit below `offset` in
that byte is found when the rest of the byte is empty.
-/

namespace NetTest.BitSet

open Bits Search Wrapping

variable {n : Nat}

/-! ## Positions as signed numbers -/

theorem toPos_of_lt {p : Nat} (hp : p < 2 ^ 63) : toPos p = p := by
  rw [toPos, Int.bmod_def, Int.emod_eq_of_lt (by omega) (by unfold sizeT; omega),
    if_pos (by unfold sizeT; omega)]

theorem toPos_of_ge {p : Nat} (hp : 2 ^ 63 ≤ p) (hlt : p < sizeT) : toPos p = p - 2 ^ 64 := by
  have h64 : sizeT = 2 ^ 64 := rfl
  rw [toPos, Int.bmod_def, Int.emod_eq_of_lt (by omega) (by omega), if_neg (by omega), h64]
  rfl

theorem toPos_eq_iff {p : Nat} (hlt : p < sizeT) : toPos p = p ↔ p < 2 ^ 63 := by
  by_cases hp : p < 2 ^ 63
  · exact iff_of_true (toPos_of_lt hp) hp
  · rw [toPos_of_ge (Nat.le_of_not_lt hp) hlt]
    omega

theorem toPos_le {p : Nat} (hlt : p < sizeT) : toPos p ≤ p := by
  by_cases hp : p < 2 ^ 63
  · exact Int.le_of_eq (toPos_of_lt hp)
  · rw [toPos_of_ge (Nat.le_of_not_lt hp) hlt]
    omega

theorem toPos_ne_npos {p : Nat} (hlt : p + 1 < sizeT) : toPos p ≠ npos := by
  have h64 : sizeT = 2 ^ 64 := rfl
  by_cases hp : p < 2 ^ 63
  · rw [toPos_of_lt hp, npos]
    omega
  · rw [toPos_of_ge (Nat.le_of_not_lt hp) (by omega), npos]
    omega

/-! ## The loops -/

theorem lt_of_test {s : FixedBitSet n} {p : Nat} (h : s.test p = true) : p < n := by
  apply Nat.lt_of_not_le
  intro hp
  rw [test_of_ge s hp] at h
  contradiction

theorem test_of_byte_zero {s : FixedBitSet n} {idx p : Nat} (hzero : s.bits[idx]? = some 0)
    (hp : p / 8 = idx) : s.test p = false := by
  by_cases hn : p < n
  · rw [test_eq_bitAt s hn, FixedBitSet.bitAt, hp, hzero]
    exact bit_zero (p % 8)
  · exact test_of_ge s (Nat.le_of_not_lt hn)

theorem findUp_beyond (s : FixedBitSet n) {start : Nat} (h : n ≤ start) (turns : Nat) :
    findUp s.test start turns = none :=
  findUp_eq_none_iff.mpr fun _ hq _ => test_of_ge s (Nat.le_trans h hq)

/-- The bit loop finds the first index of its stretch, and gives up where the
stretch runs past the last index. -/
theorem scanByte_eq (s : FixedBitSet n) (idx i turns : Nat) (hstart : idx * 8 + i ≤ n) :
    s.scanByte idx i turns =
      match findUp s.test (idx * 8 + i) turns with
      | some p => some (toPos p)
      | none => if n < idx * 8 + i + turns then some npos else none := by
  induction turns generalizing i with
  | zero => rw [FixedBitSet.scanByte, findUp, if_neg (by omega)]
  | succ turns ih =>
      rw [FixedBitSet.scanByte]
      by_cases hn : n ≤ idx * 8 + i
      · rw [if_pos hn, findUp_beyond s hn, if_pos (by omega)]
      · rw [if_neg hn, findUp]
        cases htest : s.test (idx * 8 + i) with
        | true => rfl
        | false =>
            rw [if_neg Bool.false_ne_true, if_neg Bool.false_ne_true, ih (i + 1) (by omega)]
            simp only [show idx * 8 + (i + 1) = idx * 8 + i + 1 by omega,
              show idx * 8 + i + 1 + turns = idx * 8 + i + (turns + 1) by omega]

/-- The byte loop finds the first index from its byte on. -/
theorem scanBytes_eq (s : FixedBitSet n) (idx turns : Nat) (hcap : idx + turns ≤ (n + 7) / 8) :
    s.scanBytes idx turns =
      match findUp s.test (idx * 8) (8 * turns) with
      | some p => toPos p
      | none => npos := by
  induction turns generalizing idx with
  | zero => rfl
  | succ turns ih =>
      have hrest := ih (idx + 1) (by omega)
      rw [Nat.add_mul, Nat.one_mul] at hrest
      rw [FixedBitSet.scanBytes, show 8 * (turns + 1) = 8 + 8 * turns by omega, findUp_add]
      by_cases hzero : s.bits[idx]? = some 0
      · have hnone : findUp s.test (idx * 8) 8 = none :=
          findUp_eq_none_iff.mpr fun q hq hlt => test_of_byte_zero hzero (by omega)
        rw [if_neg (not_not_intro hzero), hnone, Option.none_or, hrest]
      · have hbyte := scanByte_eq s idx 0 8 (by omega)
        rw [Nat.add_zero] at hbyte
        rw [if_pos hzero, hbyte]
        cases hfind : findUp s.test (idx * 8) 8 with
        | some p => rfl
        | none =>
            rw [Option.none_or]
            by_cases hn : n < idx * 8 + 8
            · simp only [if_pos hn, findUp_beyond s (Nat.le_of_lt hn)]
            · simp only [if_neg hn, hrest]

theorem findFirstSet_eq (s : FixedBitSet n) {offset : Nat} (hoffset : offset < n) :
    s.findFirstSet offset =
      match findUp s.test offset (8 - offset % 8) with
      | some p => toPos p
      | none =>
          if n < offset / 8 * 8 + 8 then npos
          else
            match findUp s.test (offset / 8 * 8) (8 * ((n + 7) / 8 - offset / 8)) with
            | some p => toPos p
            | none => npos := by
  have hscan := scanByte_eq s (offset / 8) (offset % 8) (8 - offset % 8) (by omega)
  rw [show offset / 8 * 8 + offset % 8 = offset by omega,
    show offset + (8 - offset % 8) = offset / 8 * 8 + 8 by omega] at hscan
  rw [FixedBitSet.findFirstSet, if_neg (by omega), hscan, scanBytes_eq s _ _ (by omega)]
  cases findUp s.test offset (8 - offset % 8) with
  | some p => rfl
  | none =>
      by_cases hn : n < offset / 8 * 8 + 8
      · simp only [if_pos hn]
      · simp only [if_neg hn]

/-! ## When the search is right -/

def setFrom (s : FixedBitSet n) (offset : Nat) : Set Nat :=
  {p | offset ≤ p ∧ p < n ∧ s.test p = true}

/-- The answer is the index that is wanted, or `npos` when there is none to choose
from. -/
def Answers (choices : Set Nat) (Wanted : Nat → Prop) (answer : Int) : Prop :=
  (∀ p, Wanted p → answer = p) ∧ (choices = ∅ → answer = npos)

def IsFirstSet (s : FixedBitSet n) (offset : Nat) : Int → Prop :=
  Answers (setFrom s offset) (IsLeast (setFrom s offset))

def FitsPos (s : FixedBitSet n) (offset : Nat) : Prop :=
  ∀ p, IsLeast (setFrom s offset) p → p < 2 ^ 63

/-- When nothing is set from `offset` to the end of its byte, and the byte ends
before the last index, then nothing is set in that byte below `offset` either. -/
def CleanBelow (s : FixedBitSet n) (offset : Nat) : Prop :=
  offset < n → offset / 8 * 8 + 8 ≤ n →
    (∀ p, offset ≤ p → p < offset / 8 * 8 + 8 → s.test p = false) →
      ∀ p, offset / 8 * 8 ≤ p → p < offset → s.test p = false

theorem FixedBitSet.lt_sizeT (s : FixedBitSet n) {p : Nat} (hp : p < n) : p + 1 < sizeT := by
  have hcounted := s.counted
  omega

theorem answers_best {choices : Set Nat} {Wanted : Nat → Prop} {p : Nat} (h : Wanted p)
    (hunique : ∀ q, Wanted q → q = p) (hmem : p ∈ choices) (answer : Int) :
    Answers choices Wanted answer ↔ answer = p := by
  constructor
  · intro hanswer
    exact hanswer.1 p h
  · intro hanswer
    constructor
    · intro q hq
      rw [hanswer, hunique q hq]
    · intro hempty
      rw [hempty] at hmem
      exact absurd hmem (Set.notMem_empty p)

theorem answers_empty {choices : Set Nat} {Wanted : Nat → Prop} (h : choices = ∅)
    (hnone : ∀ p, ¬ Wanted p) (answer : Int) : Answers choices Wanted answer ↔ answer = npos := by
  constructor
  · intro hanswer
    exact hanswer.2 h
  · intro hanswer
    constructor
    · intro q hq
      exact absurd hq (hnone q)
    · intro _
      exact hanswer

theorem isFirstSet_least {s : FixedBitSet n} {offset p : Nat} (h : IsLeast (setFrom s offset) p)
    (answer : Int) : IsFirstSet s offset answer ↔ answer = p :=
  answers_best h (fun _ hq => hq.unique h) h.1 answer

theorem not_isLeast_empty {s : FixedBitSet n} {offset : Nat} (h : setFrom s offset = ∅) (p : Nat) :
    ¬ IsLeast (setFrom s offset) p := by
  intro hp
  have hmem := hp.1
  rw [h] at hmem
  exact Set.notMem_empty p hmem

theorem isFirstSet_empty {s : FixedBitSet n} {offset : Nat} (h : setFrom s offset = ∅)
    (answer : Int) : IsFirstSet s offset answer ↔ answer = npos :=
  answers_empty h (not_isLeast_empty h) answer

theorem fitsPos_least {s : FixedBitSet n} {offset p : Nat} (h : IsLeast (setFrom s offset) p) :
    FitsPos s offset ↔ p < 2 ^ 63 := by
  constructor
  · intro hfits
    exact hfits p h
  · intro hp q hq
    rw [hq.unique h]
    exact hp

theorem fitsPos_empty {s : FixedBitSet n} {offset : Nat} (h : setFrom s offset = ∅) :
    FitsPos s offset :=
  fun q hq => absurd hq (not_isLeast_empty h q)

theorem setFrom_cases (s : FixedBitSet n) (offset : Nat) :
    (∃ p, IsLeast (setFrom s offset) p) ∨ setFrom s offset = ∅ := by
  cases hfind : findUp s.test offset n with
  | some p =>
      rcases findUp_isLeast hfind with ⟨⟨hge, _, htrue⟩, hleast⟩
      left
      refine ⟨p, ⟨hge, lt_of_test htrue, htrue⟩, ?_⟩
      intro q hmem
      rcases hmem with ⟨hq, hqn, hqtrue⟩
      exact hleast ⟨hq, by omega, hqtrue⟩
  | none =>
      right
      apply Set.eq_empty_of_forall_notMem
      intro q hmem
      rcases hmem with ⟨hq, hqn, hqtrue⟩
      rw [findUp_eq_none_iff.mp hfind q hq (by omega)] at hqtrue
      contradiction

theorem isFirstSet_toPos {s : FixedBitSet n} {offset p : Nat} (h : IsLeast (setFrom s offset) p) :
    IsFirstSet s offset (toPos p) ↔ FitsPos s offset := by
  have hsize := s.lt_sizeT h.1.2.1
  rw [isFirstSet_least h, fitsPos_least h]
  exact toPos_eq_iff (by omega)

theorem isFirstSet_npos {s : FixedBitSet n} {offset : Nat} (h : setFrom s offset = ∅) :
    IsFirstSet s offset npos ↔ FitsPos s offset :=
  iff_of_true ((isFirstSet_empty h npos).mpr rfl) (fitsPos_empty h)

/-- A search that starts early and meets nothing below `offset`. -/
theorem isFirstSet_findUp {s : FixedBitSet n} {offset start turns : Nat}
    (hbelow : ∀ p, start ≤ p → p < offset → s.test p = false) (hstart : start ≤ offset)
    (hstop : n ≤ start + turns) :
    IsFirstSet s offset
        (match findUp s.test start turns with
        | some p => toPos p
        | none => npos) ↔
      FitsPos s offset := by
  cases hfind : findUp s.test start turns with
  | some p =>
      rcases findUp_isLeast hfind with ⟨⟨hge, _, htrue⟩, hleast⟩
      have hoffset : offset ≤ p := by
        apply Nat.le_of_not_lt
        intro hlow
        rw [hbelow p hge hlow] at htrue
        contradiction
      apply isFirstSet_toPos
      constructor
      · exact ⟨hoffset, lt_of_test htrue, htrue⟩
      · intro q hmem
        rcases hmem with ⟨hq, hqn, hqtrue⟩
        exact hleast ⟨by omega, by omega, hqtrue⟩
  | none =>
      apply isFirstSet_npos
      apply Set.eq_empty_of_forall_notMem
      intro q hmem
      rcases hmem with ⟨hq, hqn, hqtrue⟩
      rw [findUp_eq_none_iff.mp hfind q (by omega) (by omega)] at hqtrue
      contradiction

theorem not_isFirstSet_below {s : FixedBitSet n} {offset p : Nat} (hp : p < offset) (hn : p < n) :
    ¬ IsFirstSet s offset (toPos p) := by
  intro h
  have hsize := s.lt_sizeT hn
  rcases setFrom_cases s offset with ⟨q, hq⟩ | hempty
  · have hle := toPos_le (show p < sizeT by omega)
    have hge := hq.1.1
    have heq := h.1 q hq
    omega
  · exact toPos_ne_npos hsize (h.2 hempty)

/-- A search that starts early and meets an index below `offset`. -/
theorem not_isFirstSet_findUp {s : FixedBitSet n} {offset start turns q : Nat} (hstart : start ≤ q)
    (hstop : q < start + turns) (hq : q < offset) (htrue : s.test q = true) :
    ¬ IsFirstSet s offset
      (match findUp s.test start turns with
      | some p => toPos p
      | none => npos) := by
  cases hfind : findUp s.test start turns with
  | some p =>
      rcases findUp_isLeast hfind with ⟨⟨_, _, hptrue⟩, hleast⟩
      have hle : p ≤ q := hleast ⟨hstart, hstop, htrue⟩
      exact not_isFirstSet_below (by omega) (lt_of_test hptrue)
  | none =>
      rw [findUp_eq_none_iff.mp hfind q hstart hstop] at htrue
      contradiction

/-- `find_first_set` is right exactly when its second look at the byte of `offset`
finds nothing below `offset`. -/
theorem isFirstSet_findFirstSet (s : FixedBitSet n) (offset : Nat) :
    IsFirstSet s offset (s.findFirstSet offset) ↔ FitsPos s offset ∧ CleanBelow s offset := by
  by_cases hoffset : offset < n
  · rw [findFirstSet_eq s hoffset]
    cases hfind : findUp s.test offset (8 - offset % 8) with
    | some p =>
        rcases findUp_isLeast hfind with ⟨⟨hge, hlt, htrue⟩, hleast⟩
        have hfirst : IsLeast (setFrom s offset) p := by
          constructor
          · exact ⟨hge, lt_of_test htrue, htrue⟩
          · intro q hmem
            rcases hmem with ⟨hq, _, hqtrue⟩
            rcases Nat.lt_or_ge q p with hqp | hpq
            · exact hleast ⟨hq, by omega, hqtrue⟩
            · exact hpq
        have hclean : CleanBelow s offset := by
          intro _ _ hrest
          rw [hrest p hge (by omega)] at htrue
          contradiction
        exact (isFirstSet_toPos hfirst).trans (iff_self_and.mpr fun _ => hclean)
    | none =>
        have hrest : ∀ p, offset ≤ p → p < offset / 8 * 8 + 8 → s.test p = false :=
          fun p hp hlt => findUp_eq_none_iff.mp hfind p hp (by omega)
        by_cases hn : n < offset / 8 * 8 + 8
        · have hempty : setFrom s offset = ∅ := by
            apply Set.eq_empty_of_forall_notMem
            intro q hmem
            rcases hmem with ⟨hq, hqn, hqtrue⟩
            rw [hrest q hq (by omega)] at hqtrue
            contradiction
          have hclean : CleanBelow s offset := by
            intro _ hstop
            omega
          simp only [if_pos hn]
          exact (isFirstSet_npos hempty).trans (iff_self_and.mpr fun _ => hclean)
        · simp only [if_neg hn]
          by_cases hbelow : ∀ p, offset / 8 * 8 ≤ p → p < offset → s.test p = false
          · rw [isFirstSet_findUp hbelow (by omega) (by omega), iff_self_and]
            exact fun _ _ _ _ => hbelow
          · apply iff_of_false
            · rw [not_forall] at hbelow
              rcases hbelow with ⟨q, hq⟩
              simp only [Classical.not_imp, Bool.not_eq_false] at hq
              exact not_isFirstSet_findUp hq.1 (by omega) hq.2.1 hq.2.2
            · intro h
              exact hbelow (h.2 hoffset (by omega) hrest)
  · have hempty : setFrom s offset = ∅ := by
      apply Set.eq_empty_of_forall_notMem
      intro q hmem
      rcases hmem with ⟨hq, hqn, _⟩
      omega
    have hclean : CleanBelow s offset := fun h => absurd h hoffset
    rw [FixedBitSet.findFirstSet, if_pos (Nat.le_of_not_lt hoffset)]
    exact (isFirstSet_npos hempty).trans (iff_self_and.mpr fun _ => hclean)

/-- After any sequence of calls, from any offset. -/
theorem findFirstSet_right_iff (counted : n + 7 < sizeT) (calls : List Call) (offset : Nat) :
    let s : FixedBitSet n := calls.foldl step (create counted)
    IsFirstSet s offset (s.findFirstSet offset) ↔ FitsPos s offset ∧ CleanBelow s offset :=
  isFirstSet_findFirstSet _ offset

theorem findFirstSet_right_iff_ten :
    let s : FixedBitSet 10 := [Call.set 9, .set 3, .clear 3].foldl step (create (by decide))
    IsFirstSet s 4 (s.findFirstSet 4) ↔ FitsPos s 4 ∧ CleanBelow s 4 :=
  findFirstSet_right_iff (by decide) [Call.set 9, .set 3, .clear 3] 4

/-- With bit 0 the only one set, the search from 1 on answers 0. -/
theorem findFirstSet_finds_below :
    let s : FixedBitSet 8 := (create (by decide)).set 0
    s.findFirstSet 1 = 0 ∧ ¬ IsFirstSet s 1 (s.findFirstSet 1) := by
  intro s
  have hzero : s.findFirstSet 1 = toPos 0 := by decide
  constructor
  · exact hzero
  · rw [hzero]
    exact not_isFirstSet_below (by decide) (by decide)

end NetTest.BitSet
