import NetTest.Basic.LockFreeArray.Concurrent
import NetTest.Lib.Runs

/-!
# Several consumers

`try_pop` tests for emptiness first and loads the counter that feeds its
compare-and-swap later.  Between the two another consumer can take the last
element; the swap still succeeds, and the read counter runs past the write
counter.
-/

namespace NetTest.LockFree

open Runs Wrapping

variable {α : Type*}

/-- No more pops than reservations, and a counter value is claimed a second time
only after the counter has gone all the way round. -/
structure Claims (s : System α) : Prop where
  bounded : s.popped.length ≤ s.reserved.length
  distinct : ∀ i j x y, i < j → s.popped[i]? = some x → s.popped[j]? = some y → x.1 = y.1 →
    i + sizeT ≤ j

def SwapsNonEmpty (s : System α) : Event α → Prop
  | .run k => ∀ writeFirst data,
      s.calls k = some (.tryPop writeFirst (.commit s.array.readIndex data)) →
        empty s.array = false
  | _ => True

theorem Counted.claims {s : System α} (h : Counted s)
    (hbounded : s.popped.length ≤ s.reserved.length) : Claims s where
  bounded := hbounded
  distinct i j x y hij hx hy heq := by
    have hmod : j % sizeT = i % sizeT := by
      rw [← h.popped i x hx, ← h.popped j y hy, heq]
    have hzero := Nat.sub_mod_eq_zero_of_mod_eq hmod
    have hle := Nat.le_of_dvd (by omega) (Nat.dvd_of_mod_eq_zero hzero)
    omega

theorem Counted.empty_of_eq {s : System α} (h : Counted s)
    (heq : s.popped.length = s.reserved.length) : empty s.array = true := by
  rw [empty, beq_iff_eq, h.read, h.write, heq]

/-- An empty array has nothing left, as long as the counters cannot have met by
going round. -/
theorem Counted.eq_of_empty {s : System α} (h : Counted s)
    (hle : s.popped.length ≤ s.reserved.length) (hshort : s.reserved.length < sizeT)
    (hempty : empty s.array = true) : s.popped.length = s.reserved.length := by
  rw [empty, beq_iff_eq, h.read, h.write, Nat.mod_eq_of_lt (by omega),
    Nat.mod_eq_of_lt hshort] at hempty
  exact hempty

theorem bounded_step {s : System α} (h : Counted s)
    (hbounded : s.popped.length ≤ s.reserved.length) {n : Nat} {e : Event α}
    (hok : SwapsNonEmpty s e) :
    (step n s e).popped.length ≤ (step n s e).reserved.length := by
  have heffect := step_effect n s e
  generalize step n s e = s' at heffect
  cases heffect with
  | idle => exact hbounded
  | quiet hquiet => exact hbounded
  | reserve hcall =>
      simp only [System.setCall, List.length_append, List.length_singleton]
      omega
  | store hcall => exact hbounded
  | publish hcall => exact hbounded
  | commit hcall =>
      have hne : s.popped.length ≠ s.reserved.length := by
        intro heq
        have hfull := hok _ _ hcall
        rw [h.empty_of_eq heq] at hfull
        cases hfull
      simp only [System.setCall, List.length_append, List.length_singleton]
      omega

theorem not_bounded_step {s : System α} (h : Counted s)
    (hbounded : s.popped.length ≤ s.reserved.length) (hshort : s.reserved.length < sizeT) {n : Nat}
    {e : Event α} (hbad : ¬ SwapsNonEmpty s e) : ¬ Claims (step n s e) := by
  cases e with
  | push k data => exact absurd trivial hbad
  | tryPop k writeFirst => exact absurd trivial hbad
  | run k =>
      simp only [SwapsNonEmpty, not_forall, Bool.not_eq_false] at hbad
      rcases hbad with ⟨writeFirst, data, hcall, hempty⟩
      have heq := h.eq_of_empty hbounded hshort hempty
      intro hclaims
      have hle := hclaims.bounded
      simp only [step, hcall, runPop, if_true, System.setCall, List.length_append,
        List.length_singleton] at hle
      omega

/-- Whatever the schedule, the pops stay within the reservations if every
successful swap finds the array non-empty; in schedules too short for a counter
to go round, only then. -/
theorem tryPop_claims (n : Nat) (queue : Nat → α) (events : List (Event α)) :
    (Guarded (step n) SwapsNonEmpty (System.create queue) events →
      Always (step n) Claims (System.create queue) events) ∧
    (events.length ≤ sizeT →
      (Always (step n) Claims (System.create queue) events ↔
        Guarded (step n) SwapsNonEmpty (System.create queue) events)) := by
  constructor
  · intro hok
    have hinv := always_of_guarded
      (P := fun s : System α => Counted s ∧ s.popped.length ≤ s.reserved.length)
      (fun s e hs he => ⟨counted_step hs.1 n e, bounded_step hs.1 hs.2 he⟩)
      ⟨counted_create queue, Nat.le_refl 0⟩ hok
    exact hinv.mono fun s hs => hs.1.claims hs.2
  · intro hshort
    refine always_iff_guarded
      (fun s : System α => Counted s ∧ s.popped.length ≤ s.reserved.length)
      (fun s _ => s.reserved.length < sizeT) ?_ ?_ ?_ ⟨counted_create queue, Nat.le_refl 0⟩ ?_
    · intro s hs
      exact hs.1.claims hs.2
    · intro s e hs _ he
      exact ⟨counted_step hs.1 n e, bounded_step hs.1 hs.2 he⟩
    · intro s e hs hlt he
      exact not_bounded_step hs.1 hs.2 hlt he
    · exact guarded_of_measure (fun s : System α => s.reserved.length) (reserved_length_step n)
        (by simpa [System.create] using hshort)

/-- One element and two consumers: both pass the test, the first takes the
element, and the second loads the counter after that. -/
def twoConsumers : List (Event Nat) :=
  [.push 0 7, .run 0, .run 0, .run 0, .run 0, .run 0,
    .tryPop 1 false, .run 1, .run 1, .tryPop 2 false, .run 2, .run 2,
    .run 1, .run 1, .run 1, .run 2, .run 2, .run 2]

/-- Two pops succeed and one element was pushed. -/
theorem tryPop_overtakes :
    ¬ ∀ (k : Nat) (queue : Nat → Nat) (events : List (Event Nat)), k ≤ 63 →
      Always (step (2 ^ k)) Claims (System.create queue) events := by
  intro h
  have hclaims := always_iff_prefixes.mp (h 2 (fun _ => 0) twoConsumers (by decide)) _ List.prefix_rfl
  exact absurd hclaims.bounded (by decide)

end NetTest.LockFree
