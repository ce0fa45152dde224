import Mathlib.Algebra.Group.Int.Defs
import Mathlib.Data.List.Basic

/-!
# The timers

The first loop of `eventloop::process_timer`.  Only `erase` ever changes what
the iterator refers to, and it leaves it dangling: a timer that is not due is
looked at again and again, and so is one that was rescheduled.

The loop of `remove_timer` goes on with what `erase` returns, but it is given the id
as an `unsigned short`.
-/

namespace NetTest.EventLoop

structure Timer where
  tid : Int
  /-- A negative count is unlimited. -/
  count : Int
  gap : Int
  expire : Int
  cb : Nat
  param : Nat
  deriving DecidableEq

def Timer.countDown (t : Timer) : Timer := if 0 < t.count then { t with count := t.count - 1 } else t

def Timer.reschedule (t : Timer) : Timer := { t with expire := t.expire + t.gap }

/-- The variables of the loop. -/
structure Scan where
  timers : List Timer
  /-- The position of `it`; none once its element has been erased. -/
  it : Option Nat
  vecTmp : List Timer

def Scan.start (timers : List Timer) : Scan := ⟨timers, some 0, []⟩

inductive Turn where
  | running (s : Scan)
  | done (s : Scan)
  /-- The behaviour is undefined. -/
  | undefined

/-- The test of the loop and its body. -/
def scanTurn (now : Int) (s : Scan) : Turn :=
  match s.it with
  -- an iterator to an erased element is compared and dereferenced
  | none => .undefined
  | some pos =>
      match s.timers[pos]? with
      | none => .done s
      | some t =>
          if now < t.expire then .running s
          else
            let vecTmp := s.vecTmp ++ [t]
            let t := t.countDown
            if t.count = 0 then .running ⟨s.timers.eraseIdx pos, none, vecTmp⟩
            else if t.expire + t.gap < 2 ^ 63 then
              .running ⟨s.timers.set pos t.reschedule, some pos, vecTmp⟩
            else .undefined

def scan (now : Int) : Nat → Scan → Turn
  | 0, s => .running s
  | turns + 1, s =>
      match scanTurn now s with
      | .running s => scan now turns s
      | .done s => .done s
      | .undefined => .undefined

/-! ## What the scan is for -/

/-- What one timer contributes: the firings that are queued for it, each with
the count it had then, and the timer that is left. -/
inductive Fires (now : Int) : Timer → List Timer → Option Timer → Prop where
  | pending {t : Timer} (h : now < t.expire) : Fires now t [] (some t)
  | last {t : Timer} (h : t.expire ≤ now) (hcount : t.countDown.count = 0) : Fires now t [t] none
  | again {t : Timer} {fired : List Timer} {left : Option Timer} (h : t.expire ≤ now)
      (hcount : t.countDown.count ≠ 0) (hrest : Fires now t.countDown.reschedule fired left) :
      Fires now t (t :: fired) left

/-- The state in which the scan should leave its loop: every timer has fired as
often as it was due, counted down by one each time, and is gone if its count
reached zero. -/
structure Scanned (now : Int) (timers : List Timer) (s : Scan) : Prop where
  queued : ∀ t ∈ timers, t.expire ≤ now → t ∈ s.vecTmp
  counted : ∃ parts : List (List Timer × Option Timer),
    List.Forall₂ (fun t part => Fires now t part.1 part.2) timers parts ∧
      s.vecTmp = parts.flatMap Prod.fst ∧ s.timers = parts.filterMap Prod.snd
  later : ∀ t ∈ s.timers, now < t.expire
  unchanged : ∀ t ∈ timers, now < t.expire → t ∈ s.timers

def Scans (now : Int) (timers : List Timer) : Prop :=
  ∃ turns s, scan now turns (Scan.start timers) = .done s ∧ Scanned now timers s

/-! ## Every turn is the first -/

def Stuck (s : Scan) : Prop := s.it = some 0 ∧ s.timers ≠ [] ∨ s.it = none

/-- A turn on a stuck scan does not leave the loop. -/
theorem scanTurn_stuck (now : Int) {s : Scan} (h : Stuck s) :
    (∃ s', scanTurn now s = .running s' ∧ Stuck s') ∨ scanTurn now s = .undefined := by
  unfold scanTurn
  rcases h with ⟨hit, hne⟩ | hit
  · rw [hit]
    cases htimers : s.timers with
    | nil => exact absurd htimers hne
    | cons t rest =>
        dsimp only [List.getElem?_cons_zero]
        by_cases hlater : now < t.expire
        · rw [if_pos hlater]
          exact .inl ⟨s, rfl, .inl ⟨hit, hne⟩⟩
        · rw [if_neg hlater]
          by_cases hlast : t.countDown.count = 0
          · rw [if_pos hlast]
            exact .inl ⟨_, rfl, .inr rfl⟩
          · rw [if_neg hlast]
            split
            · exact .inl ⟨_, rfl, .inl ⟨rfl, List.cons_ne_nil _ _⟩⟩
            · exact .inr rfl
  · rw [hit]
    exact .inr rfl

theorem scan_stuck (now : Int) {s : Scan} (h : Stuck s) (turns : Nat) :
    (∃ s', scan now turns s = .running s') ∨ scan now turns s = .undefined := by
  induction turns generalizing s with
  | zero => exact .inl ⟨s, rfl⟩
  | succ turns ih =>
      rw [scan]
      rcases scanTurn_stuck now h with ⟨s', hturn, hs'⟩ | hturn
      · rw [hturn]
        exact ih hs'
      · rw [hturn]
        exact .inr rfl

/-- The scan does what it is for exactly when there is no timer. -/
theorem scan_terminates_iff (now : Int) (timers : List Timer) : Scans now timers ↔ timers = [] := by
  constructor
  · rintro ⟨turns, s, hdone, _⟩
    by_contra hne
    rcases scan_stuck now (s := Scan.start timers) (.inl ⟨rfl, hne⟩) turns with
      ⟨s', hrunning⟩ | hundefined
    · rw [hrunning] at hdone
      cases hdone
    · rw [hundefined] at hdone
      cases hdone
  · rintro rfl
    refine ⟨1, Scan.start [], rfl, ?_⟩
    constructor
    case counted => exact ⟨[], .nil, rfl, rfl⟩
    all_goals
      intro t ht
      cases ht

/-- One timer that is due in an hour: the loop looks at it for ever. -/
theorem scan_hangs_on_pending_timer :
    let t : Timer :=
      { tid := 1, count := -1, gap := 3600000000000, expire := 3600000000000, cb := 0, param := 0 }
    0 < t.gap ∧ (∀ turns, scan 0 turns (Scan.start [t]) = .running (Scan.start [t])) ∧
      ¬ Scans 0 [t] := by
  intro t
  have hturn : scanTurn 0 (Scan.start [t]) = .running (Scan.start [t]) := rfl
  have hloop : ∀ turns, scan 0 turns (Scan.start [t]) = .running (Scan.start [t]) := by
    intro turns
    induction turns with
    | zero => rfl
    | succ turns ih =>
        rw [scan, hturn]
        exact ih
  refine ⟨by decide, hloop, ?_⟩
  rintro ⟨turns, s, hdone, _⟩
  rw [hloop] at hdone
  cases hdone

/-! ## Removing a timer -/

/-- The loop of `remove_timer`, with the timers in front of `it` and those from `it`
on. -/
def removeLoop (timerId : Int) (passed : List Timer) : List Timer → List Timer
  | [] => passed
  | t :: rest =>
      if t.tid = timerId then removeLoop timerId passed rest
      else removeLoop timerId (passed ++ [t]) rest

/-- An `int` that is passed as an `unsigned short`, and compared as an `int` again. -/
def toShort (tid : Int) : Int := tid % 2 ^ 16

def removeTimer (tid : Int) (timers : List Timer) : List Timer := removeLoop (toShort tid) [] timers

def Removed (tid : Int) (timers left : List Timer) : Prop :=
  left = timers.filter fun t => t.tid ≠ tid

theorem removeLoop_eq (timerId : Int) (passed timers : List Timer) :
    removeLoop timerId passed timers = passed ++ timers.filter fun t => t.tid ≠ timerId := by
  induction timers generalizing passed with
  | nil => exact (List.append_nil passed).symm
  | cons t rest ih =>
      rw [removeLoop]
      by_cases heq : t.tid = timerId
      · have hdrop : ¬ decide (t.tid ≠ timerId) = true := by simpa using heq
        rw [if_pos heq, ih, List.filter_cons, if_neg hdrop]
      · have hkeep : decide (t.tid ≠ timerId) = true := by simpa using heq
        rw [if_neg heq, ih, List.filter_cons, if_pos hkeep, List.append_assoc,
          List.singleton_append]

theorem filter_eq_filter_iff {α : Type} {p q : α → Bool} {xs : List α} :
    xs.filter p = xs.filter q ↔ ∀ x ∈ xs, (p x = true ↔ q x = true) := by
  constructor
  · intro h x hx
    have hmem : x ∈ xs.filter p ↔ x ∈ xs.filter q := by rw [h]
    rw [List.mem_filter, List.mem_filter] at hmem
    simpa only [hx, true_and] using hmem
  · intro h
    apply List.filter_congr
    intro x hx
    exact Bool.eq_iff_iff.mpr (h x hx)

/-- `remove_timer` removes what it is asked to remove exactly if the id fits an
`unsigned short`, or neither the id nor what it is cut to belongs to a timer. -/
theorem removeTimer_iff (tid : Int) (timers : List Timer) :
    Removed tid timers (removeTimer tid timers) ↔
      (0 ≤ tid ∧ tid < 2 ^ 16) ∨ ∀ t ∈ timers, t.tid ≠ tid ∧ t.tid ≠ tid % 2 ^ 16 := by
  rw [Removed, removeTimer, removeLoop_eq, toShort, List.nil_append, filter_eq_filter_iff]
  constructor
  · intro h
    by_cases hfits : 0 ≤ tid ∧ tid < 2 ^ 16
    · exact Or.inl hfits
    · right
      intro t ht
      have hsame := h t ht
      simp only [decide_eq_true_eq] at hsame
      omega
  · intro h t ht
    simp only [decide_eq_true_eq]
    rcases h with hfits | hnone
    · omega
    · have hother := hnone t ht
      omega

/-- Asked to remove the timer 65537, the loop removes the timer 1. -/
theorem removeTimer_removes_other :
    let timer (tid : Int) : Timer :=
      { tid := tid, count := -1, gap := 1000, expire := 1000, cb := 0, param := 0 }
    let timers := [timer 1, timer 65537, timer (-1)]
    removeTimer 65537 timers = [timer 65537, timer (-1)] ∧ removeTimer (-1) timers = timers ∧
      ¬ Removed 65537 timers (removeTimer 65537 timers) := by
  intro timer timers
  refine ⟨by decide, by decide, ?_⟩
  intro h
  have hmem : timer 65537 ∈ removeTimer 65537 timers := by decide
  rw [h, List.mem_filter] at hmem
  revert hmem
  decide

end NetTest.EventLoop
