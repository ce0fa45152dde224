import Mathlib.Data.List.Count
import NetTest.Lib.Wrapping

/-!
# The filter for repeated events

`repeat_filter_limit.h`: the first events pass, then every `threshold1_`-th up to the
second bar, and every `threshold2_`-th from there on.
-/

namespace NetTest

open Wrapping

structure RepeatFilterLimit where
  counter : Nat
  bar1 : Nat
  bar2 : Nat
  threshold1 : Nat
  threshold2 : Nat

namespace RepeatFilterLimit

/-- The constructor; its defaults are `create bar1 threshold1 50000 100000`. -/
def create (bar1 threshold1 bar2 threshold2 : Nat) : RepeatFilterLimit :=
  { counter := 0, bar1, bar2, threshold1, threshold2 }

/-- The result of `repeat()` for the value the counter has been raised to. -/
def passes (s : RepeatFilterLimit) (counter : Nat) : Bool :=
  if counter < s.bar1 then true
  else if counter < s.bar2 then (counter - s.bar1) % s.threshold1 == 0
  else (counter - s.bar2) % s.threshold2 == 0

def repeats (s : RepeatFilterLimit) : RepeatFilterLimit × Bool :=
  let counter := (s.counter + 1) % sizeT
  ({ s with counter }, s.passes counter)

def calls : Nat → RepeatFilterLimit → List Bool
  | 0, _ => []
  | n + 1, s => s.repeats.2 :: calls n s.repeats.1

/-! ## Every so many -/

/-- How many of the numbers up to `n` are `start` or lie a multiple of `step` behind
it. -/
def everyFrom (start step n : Nat) : Nat := if start ≤ n then (n - start) / step + 1 else 0

theorem everyFrom_of_lt {start n : Nat} (step : Nat) (h : n < start) : everyFrom start step n = 0 :=
  if_neg (Nat.not_le.mpr h)

theorem everyFrom_succ {start n : Nat} (step : Nat) (h : start ≤ n + 1) :
    everyFrom start step (n + 1) =
      everyFrom start step n + if (n + 1 - start) % step = 0 then 1 else 0 := by
  rcases Nat.eq_or_lt_of_le h with heq | hlt
  · rw [everyFrom, everyFrom, if_pos h, if_neg (by omega), heq, Nat.sub_self, Nat.zero_div,
      Nat.zero_mod, if_pos rfl]
  · have hsub : n + 1 - start = n - start + 1 := by omega
    rw [everyFrom, everyFrom, if_pos h, if_pos (by omega), hsub]
    by_cases hmod : (n - start + 1) % step = 0
    · rw [if_pos hmod, Nat.succ_div_of_mod_eq_zero hmod]
    · rw [if_neg hmod, Nat.succ_div_of_mod_ne_zero hmod, Nat.add_zero]

/-! ## How many pass -/

def between (bar1 threshold1 bar2 n : Nat) : Nat :=
  if bar1 < bar2 ∧ bar1 ≤ n then (min n (bar2 - 1) - bar1) / threshold1 + 1 else 0

def behind (bar2 threshold2 n : Nat) : Nat :=
  if bar2 ≤ n then (n - bar2) / threshold2 + 1 else 0

/-- Of the first `n` calls. -/
def passed (s : RepeatFilterLimit) (n : Nat) : Nat :=
  min n (s.bar1 - 1) + between s.bar1 s.threshold1 s.bar2 n + behind s.bar2 s.threshold2 n

structure Valid (s : RepeatFilterLimit) : Prop where
  bar1_pos : 1 ≤ s.bar1
  bars : s.bar1 ≤ s.bar2
  threshold1_pos : 1 ≤ s.threshold1
  threshold2_pos : 1 ≤ s.threshold2

theorem between_eq {bar1 bar2 : Nat} (threshold1 n : Nat) :
    between bar1 threshold1 bar2 n =
      if bar1 < bar2 then everyFrom bar1 threshold1 (min n (bar2 - 1)) else 0 := by
  rw [between, everyFrom]
  by_cases hbars : bar1 < bar2
  · rw [if_pos hbars]
    by_cases hn : bar1 ≤ n
    · rw [if_pos ⟨hbars, hn⟩, if_pos (by omega)]
    · rw [if_neg (fun h => hn h.2), if_neg (by omega)]
  · rw [if_neg hbars, if_neg (fun h => hbars h.1)]

theorem behind_eq (bar2 threshold2 n : Nat) :
    behind bar2 threshold2 n = everyFrom bar2 threshold2 n := rfl

theorem passed_first {s : RepeatFilterLimit} (hs : Valid s) {n : Nat} (h : n + 1 < s.bar1) :
    s.passed (n + 1) = s.passed n + 1 := by
  have hbars := hs.bars
  have hmin : min (n + 1) (s.bar1 - 1) = min n (s.bar1 - 1) + 1 := by omega
  have hzero : ∀ k ≤ n + 1, between s.bar1 s.threshold1 s.bar2 k = 0 := by
    intro k hk
    rw [between, if_neg (by omega)]
  rw [passed, passed, hmin, hzero (n + 1) (Nat.le_refl _), hzero n (Nat.le_succ n), behind_eq,
    behind_eq, everyFrom_of_lt _ (by omega), everyFrom_of_lt _ (by omega)]

theorem passed_between {s : RepeatFilterLimit} {n : Nat} (h : s.bar1 ≤ n + 1)
    (hlt : n + 1 < s.bar2) :
    s.passed (n + 1) = s.passed n + if (n + 1 - s.bar1) % s.threshold1 = 0 then 1 else 0 := by
  have hmin : min (n + 1) (s.bar1 - 1) = min n (s.bar1 - 1) := by omega
  have hnext : min (n + 1) (s.bar2 - 1) = n + 1 := by omega
  have hthis : min n (s.bar2 - 1) = n := by omega
  have hbars : s.bar1 < s.bar2 := Nat.lt_of_le_of_lt h hlt
  rw [passed, passed, hmin, between_eq, between_eq, if_pos hbars, if_pos hbars, hnext, hthis,
    everyFrom_succ _ h, behind_eq, behind_eq, everyFrom_of_lt _ hlt,
    everyFrom_of_lt _ (Nat.lt_of_succ_lt hlt)]
  simp only [Nat.add_zero, Nat.add_assoc]

theorem passed_behind {s : RepeatFilterLimit} (hs : Valid s) {n : Nat} (h : s.bar2 ≤ n + 1) :
    s.passed (n + 1) = s.passed n + if (n + 1 - s.bar2) % s.threshold2 = 0 then 1 else 0 := by
  have hbars := hs.bars
  have hmin : min (n + 1) (s.bar1 - 1) = min n (s.bar1 - 1) := by omega
  have hlast : min (n + 1) (s.bar2 - 1) = min n (s.bar2 - 1) := by omega
  rw [passed, passed, hmin, between_eq, between_eq, hlast, behind_eq, behind_eq,
    everyFrom_succ _ h, ← Nat.add_assoc]

theorem passed_succ {s : RepeatFilterLimit} (hs : Valid s) (n : Nat) :
    s.passed (n + 1) = s.passed n + if s.passes (n + 1) then 1 else 0 := by
  rw [passes]
  by_cases hfirst : n + 1 < s.bar1
  · rw [if_pos hfirst, passed_first hs hfirst]
    rfl
  · rw [if_neg hfirst]
    by_cases hbetween : n + 1 < s.bar2
    · rw [if_pos hbetween, passed_between (Nat.le_of_not_lt hfirst) hbetween]
      simp only [beq_iff_eq]
    · rw [if_neg hbetween, passed_behind hs (Nat.le_of_not_lt hbetween)]
      simp only [beq_iff_eq]

theorem passed_add {s : RepeatFilterLimit} (hs : Valid s) (n : Nat)
    (hn : s.counter + n < sizeT) :
    s.passed (s.counter + n) = s.passed s.counter + (calls n s).count true := by
  induction n generalizing s with
  | zero => rfl
  | succ n ih =>
      have hmod : (s.counter + 1) % sizeT = s.counter + 1 := Nat.mod_eq_of_lt (by omega)
      have hnext : s.repeats = ({ s with counter := s.counter + 1 }, s.passes (s.counter + 1)) := by
        rw [repeats, hmod]
      have hrest := ih (s := { s with counter := s.counter + 1 })
        ⟨hs.bar1_pos, hs.bars, hs.threshold1_pos, hs.threshold2_pos⟩
        (by simp only; omega)
      have hstart : s.counter + 1 + n = s.counter + (n + 1) := by omega
      calc s.passed (s.counter + (n + 1))
          = s.passed (s.counter + 1 + n) := by rw [hstart]
        _ = s.passed (s.counter + 1) + (calls n { s with counter := s.counter + 1 }).count true :=
            hrest
        _ = s.passed s.counter + ((if s.passes (s.counter + 1) then 1 else 0) +
              (calls n { s with counter := s.counter + 1 }).count true) := by
            rw [passed_succ hs, Nat.add_assoc]
        _ = s.passed s.counter + (calls (n + 1) s).count true := by
            rw [calls, hnext, List.count_cons, Nat.add_comm (List.count _ _)]
            simp only [beq_iff_eq]

/-- Among the first `n` calls exactly so many return true. -/
theorem count_calls (bar1 threshold1 bar2 threshold2 n : Nat) (hbar1 : 1 ≤ bar1)
    (hbars : bar1 ≤ bar2) (hthreshold1 : 1 ≤ threshold1) (hthreshold2 : 1 ≤ threshold2)
    (hn : n < sizeT) :
    (calls n (create bar1 threshold1 bar2 threshold2)).count true =
      min n (bar1 - 1) +
        (if bar1 < bar2 ∧ bar1 ≤ n then (min n (bar2 - 1) - bar1) / threshold1 + 1 else 0) +
        (if bar2 ≤ n then (n - bar2) / threshold2 + 1 else 0) := by
  have hs : Valid (create bar1 threshold1 bar2 threshold2) :=
    ⟨hbar1, hbars, hthreshold1, hthreshold2⟩
  have hzero : (create bar1 threshold1 bar2 threshold2).passed 0 = 0 := by
    have hfirst := hs.bar1_pos
    have hsecond := hs.bars
    rw [passed, between, behind, if_neg (by omega), if_neg (by omega), Nat.zero_min]
  have hstart : (create bar1 threshold1 bar2 threshold2).counter = 0 := rfl
  have hall := passed_add hs n (by rw [hstart, Nat.zero_add]; exact hn)
  rw [hstart, Nat.zero_add, hzero, Nat.zero_add] at hall
  exact hall.symm

/-- The configuration of the test: six of the first fifteen calls pass. -/
theorem count_calls_fifteen :
    (calls 15 (create 5 10 50000 100000)).count true = 4 + (10 / 10 + 1) + 0 :=
  count_calls 5 10 50000 100000 15 (by decide) (by decide) (by decide) (by decide) (by decide)

end RepeatFilterLimit

end NetTest
