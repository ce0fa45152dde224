import Mathlib.Data.List.Infix
import Mathlib.Tactic.Tauto

/-!
# Runs of a deterministic machine

A machine is a step function `step : σ → ι → σ` and a run is the list of inputs
it is fed.  `Always` speaks about every state a run visits, `Guarded` about
every step in the state where it is taken.  The rules below turn facts about
one step into facts about whole runs, including the exact form: a property
holds along a run if and only if every step of the run met a condition.
-/

namespace NetTest.Runs

variable {σ ι : Type*} {step : σ → ι → σ} {P Q : σ → Prop} {Ok : σ → ι → Prop}

/-- `P` holds in every state the run visits, the first and the last included. -/
def Always (step : σ → ι → σ) (P : σ → Prop) : σ → List ι → Prop
  | s, [] => P s
  | s, i :: rest => P s ∧ Always step P (step s i) rest

/-- Every input of the run satisfies `Ok` in the state where it is consumed. -/
def Guarded (step : σ → ι → σ) (Ok : σ → ι → Prop) : σ → List ι → Prop
  | _, [] => True
  | s, i :: rest => Ok s i ∧ Guarded step Ok (step s i) rest

instance Always.decidable [DecidablePred P] :
    ∀ (s : σ) (ops : List ι), Decidable (Always step P s ops)
  | s, [] => inferInstanceAs (Decidable (P s))
  | s, i :: rest =>
      have := Always.decidable (step s i) rest
      inferInstanceAs (Decidable (P s ∧ Always step P (step s i) rest))

instance Guarded.decidable [∀ s i, Decidable (Ok s i)] :
    ∀ (s : σ) (ops : List ι), Decidable (Guarded step Ok s ops)
  | _, [] => inferInstanceAs (Decidable True)
  | s, i :: rest =>
      have := Guarded.decidable (step s i) rest
      inferInstanceAs (Decidable (Ok s i ∧ Guarded step Ok (step s i) rest))

/-! ## Shape of a run -/

theorem Always.head {s : σ} {ops : List ι} (h : Always step P s ops) : P s := by
  cases ops with
  | nil => exact h
  | cons i rest => exact h.1

theorem Always.last {s : σ} {ops : List ι} (h : Always step P s ops) : P (ops.foldl step s) := by
  induction ops generalizing s with
  | nil => exact h
  | cons i rest ih => exact ih h.2

theorem Always.mono (hPQ : ∀ s, P s → Q s) {s : σ} {ops : List ι}
    (h : Always step P s ops) : Always step Q s ops := by
  induction ops generalizing s with
  | nil => exact hPQ s h
  | cons i rest ih => exact ⟨hPQ s h.1, ih h.2⟩

theorem always_and {s : σ} {ops : List ι} :
    Always step (fun s => P s ∧ Q s) s ops ↔ Always step P s ops ∧ Always step Q s ops := by
  induction ops generalizing s with
  | nil => exact Iff.rfl
  | cons i rest ih =>
      simp only [Always, ih]
      tauto

/-- `Always` is a statement about the state after every prefix of the run. -/
theorem always_iff_prefixes {s : σ} {ops : List ι} :
    Always step P s ops ↔ ∀ done, done <+: ops → P (done.foldl step s) := by
  induction ops generalizing s with
  | nil => simp [Always]
  | cons i rest ih =>
      constructor
      · rintro ⟨hs, hrest⟩ done hdone
        cases done with
        | nil => exact hs
        | cons j done =>
            obtain ⟨rfl, htail⟩ := List.cons_prefix_cons.mp hdone
            exact ih.mp hrest done htail
      · intro h
        refine ⟨h [] (List.nil_prefix), ih.mpr fun done hdone => ?_⟩
        exact h (i :: done) (List.cons_prefix_cons.mpr ⟨rfl, hdone⟩)

theorem Guarded.mono {Ok' : σ → ι → Prop} (himp : ∀ s i, Ok s i → Ok' s i) {s : σ} {ops : List ι}
    (h : Guarded step Ok s ops) : Guarded step Ok' s ops := by
  induction ops generalizing s with
  | nil => trivial
  | cons i rest ih => exact ⟨himp s i h.1, ih h.2⟩

theorem guarded_append {s : σ} {xs ys : List ι} :
    Guarded step Ok s (xs ++ ys) ↔ Guarded step Ok s xs ∧ Guarded step Ok (xs.foldl step s) ys := by
  induction xs generalizing s with
  | nil => simp [Guarded]
  | cons i xs ih => simp [Guarded, ih, and_assoc]

theorem guarded_and {Ok' : σ → ι → Prop} {s : σ} {ops : List ι} :
    Guarded step (fun s i => Ok s i ∧ Ok' s i) s ops ↔
      Guarded step Ok s ops ∧ Guarded step Ok' s ops := by
  induction ops generalizing s with
  | nil => simp [Guarded]
  | cons i rest ih =>
      simp only [Guarded, ih]
      tauto

/-! ## From one step to a run -/

/-- The invariant rule: a step that is allowed keeps the invariant, so a run of
allowed steps never leaves it. -/
theorem always_of_guarded (hstep : ∀ s i, P s → Ok s i → P (step s i))
    {s : σ} (hs : P s) {ops : List ι} (hops : Guarded step Ok s ops) :
    Always step P s ops := by
  induction ops generalizing s with
  | nil => exact hs
  | cons i rest ih => exact ⟨hs, ih (hstep s i hs hops.1) hops.2⟩

/-- The invariant rule for what is observed of steps. -/
theorem guarded_of_inv (Inv : σ → Prop) {Good : σ → ι → Prop}
    (hstep : ∀ s i, Inv s → Ok s i → Inv (step s i) ∧ Good s i)
    {s : σ} (hs : Inv s) {ops : List ι} (hops : Guarded step Ok s ops) :
    Guarded step Good s ops := by
  induction ops generalizing s with
  | nil => trivial
  | cons i rest ih =>
      have hi := hstep s i hs hops.1
      exact ⟨hi.2, ih hi.1 hops.2⟩

/-- A run whose steps are numbered, with an invariant that follows the count. -/
theorem guarded_range (Inv : Nat → σ → Prop) (op : Nat → ι) {count : Nat}
    (hstep : ∀ n s, n < count → Inv n s → Ok s (op n) ∧ Inv (n + 1) (step s (op n)))
    {s : σ} (hs : Inv 0 s) :
    Guarded step Ok s ((List.range count).map op) ∧
      Inv count (((List.range count).map op).foldl step s) := by
  induction count with
  | zero => exact ⟨trivial, hs⟩
  | succ count ih =>
      rcases ih fun n s hn => hstep n s (Nat.lt_succ_of_lt hn) with ⟨hguarded, hinv⟩
      have hlast := hstep count _ (Nat.lt_succ_self count) hinv
      rw [List.range_succ, List.map_append, guarded_append, List.foldl_append]
      exact ⟨⟨hguarded, hlast.1, trivial⟩, hlast.2⟩

/-- The exact rule.  `Inv` is what carries the induction, `P` what is observed in
states and `Good` what is observed of steps: allowed steps keep `Inv` and are
good, and a step that is not allowed shows somewhere in the rest of the run.
`Open` is what is known of that rest.  Then the runs that look right are exactly
the runs of allowed steps. -/
theorem always_guarded_iff_of_rest (Inv : σ → Prop) (Legal Good : σ → ι → Prop)
    (Open : List ι → Prop) (hopen : ∀ i rest, Open (i :: rest) → Open rest)
    (hP : ∀ s, Inv s → P s)
    (hok : ∀ s i, Inv s → Legal s i → Ok s i → Inv (step s i) ∧ Good s i)
    (hbad : ∀ s i rest, Inv s → Legal s i → ¬ Ok s i → Open (i :: rest) →
      Always step P s (i :: rest) → ¬ Guarded step Good s (i :: rest))
    {s : σ} (hs : Inv s) {ops : List ι} (hops : Open ops) (hlegal : Guarded step Legal s ops) :
    (Always step P s ops ∧ Guarded step Good s ops) ↔ Guarded step Ok s ops := by
  induction ops generalizing s with
  | nil => exact ⟨fun _ => trivial, fun _ => ⟨hP s hs, trivial⟩⟩
  | cons i rest ih =>
      have hrest := hopen i rest hops
      constructor
      · intro h
        have hi : Ok s i := by
          by_contra hi
          exact hbad s i rest hs hlegal.1 hi hops h.1 h.2
        exact ⟨hi, (ih (hok s i hs hlegal.1 hi).1 hrest hlegal.2).mp ⟨h.1.2, h.2.2⟩⟩
      · intro h
        have hstep := hok s i hs hlegal.1 h.1
        have hlater := (ih hstep.1 hrest hlegal.2).mpr h.2
        exact ⟨⟨hP s hs, hlater.1⟩, hstep.2, hlater.2⟩

/-- The exact rule where a step that is not allowed shows at once. -/
theorem always_guarded_iff (Inv : σ → Prop) (Legal Good : σ → ι → Prop) (hP : ∀ s, Inv s → P s)
    (hok : ∀ s i, Inv s → Legal s i → Ok s i → Inv (step s i) ∧ Good s i)
    (hbad : ∀ s i, Inv s → Legal s i → ¬ Ok s i → Good s i → ¬ P (step s i))
    {s : σ} (hs : Inv s) {ops : List ι} (hlegal : Guarded step Legal s ops) :
    (Always step P s ops ∧ Guarded step Good s ops) ↔ Guarded step Ok s ops :=
  always_guarded_iff_of_rest Inv Legal Good (fun _ => True) (fun _ _ h => h) hP hok
    (fun s i _ hs hl hi _ halways hgood => hbad s i hs hl hi hgood.1 halways.2.head)
    hs trivial hlegal

theorem guarded_of_forall (h : ∀ s i, Ok s i) (s : σ) (ops : List ι) :
    Guarded step Ok s ops := by
  induction ops generalizing s with
  | nil => trivial
  | cons i rest ih => exact ⟨h s i, ih (step s i)⟩

/-- The invariant rule for steps that need no permission. -/
theorem always_of_step (hstep : ∀ s i, P s → P (step s i)) {s : σ} (hs : P s) (ops : List ι) :
    Always step P s ops :=
  always_of_guarded (fun s i hP _ => hstep s i hP) hs (guarded_of_forall (fun _ _ => trivial) s ops)

/-- The invariant rule for the state at the end of a run. -/
theorem foldl_of_step (hstep : ∀ s i, P s → P (step s i)) {s : σ} (hs : P s) (ops : List ι) :
    P (ops.foldl step s) := by
  induction ops generalizing s with
  | nil => exact hs
  | cons i rest ih => exact ih (hstep s i hs)

/-- Conditions that an invariant makes equivalent allow the same runs. -/
theorem guarded_congr {Ok' : σ → ι → Prop} (hstep : ∀ s i, P s → P (step s i))
    (hiff : ∀ s i, P s → (Ok s i ↔ Ok' s i)) {s : σ} (hs : P s) (ops : List ι) :
    Guarded step Ok s ops ↔ Guarded step Ok' s ops := by
  induction ops generalizing s with
  | nil => exact Iff.rfl
  | cons i rest ih => exact and_congr (hiff s i hs) (ih (hstep s i hs))

theorem guarded_iff_mem {Allowed : ι → Prop} {s : σ} {ops : List ι} :
    Guarded step (fun _ i => Allowed i) s ops ↔ ∀ i ∈ ops, Allowed i := by
  induction ops generalizing s with
  | nil => simp [Guarded]
  | cons i rest ih => simp [Guarded, ih]

/-- A measure that grows by at most one in each step stays below the length of
the run. -/
theorem guarded_of_measure (μ : σ → Nat) (hμ : ∀ s i, μ (step s i) ≤ μ s + 1) {bound : Nat}
    {s : σ} {ops : List ι} (hbound : μ s + ops.length ≤ bound) :
    Guarded step (fun s _ => μ s < bound) s ops := by
  induction ops generalizing s with
  | nil => trivial
  | cons i rest ih =>
      rw [List.length_cons] at hbound
      have hstep := hμ s i
      exact ⟨by omega, ih (by omega)⟩

/-- The exact rule where only states are observed. -/
theorem always_iff_guarded (Inv : σ → Prop) (Legal : σ → ι → Prop) (hP : ∀ s, Inv s → P s)
    (hok : ∀ s i, Inv s → Legal s i → Ok s i → Inv (step s i))
    (hbad : ∀ s i, Inv s → Legal s i → ¬ Ok s i → ¬ P (step s i))
    {s : σ} (hs : Inv s) {ops : List ι} (hlegal : Guarded step Legal s ops) :
    Always step P s ops ↔ Guarded step Ok s ops := by
  have hexact := always_guarded_iff Inv Legal (fun _ _ => True) hP
    (fun s i hs hl hi => ⟨hok s i hs hl hi, trivial⟩) (fun s i hs hl hi _ => hbad s i hs hl hi)
    hs hlegal
  rw [← hexact]
  exact ⟨fun h => ⟨h, guarded_of_forall (fun _ _ => trivial) s ops⟩, fun h => h.1⟩

/-! ## Views -/

/-- The inputs another machine gets while this one runs. -/
def trace {κ : Type*} (step : σ → ι → σ) (input : σ → ι → κ) : σ → List ι → List κ
  | _, [] => []
  | s, i :: rest => input s i :: trace step input (step s i) rest

section Views

variable {τ κ : Type*} {view : σ → τ} {step' : τ → κ → τ} {input : σ → ι → κ} {P' : τ → Prop}
  {Ok' : τ → κ → Prop}

theorem foldl_trace (hview : ∀ s i, view (step s i) = step' (view s) (input s i)) (s : σ)
    (ops : List ι) : (trace step input s ops).foldl step' (view s) = view (ops.foldl step s) := by
  induction ops generalizing s with
  | nil => rfl
  | cons i rest ih => rw [trace, List.foldl_cons, List.foldl_cons, ← hview, ih]

/-- A machine that is seen through a view visits what the machine behind the view
visits. -/
theorem always_trace (hview : ∀ s i, view (step s i) = step' (view s) (input s i)) (s : σ)
    (ops : List ι) :
    Always step' P' (view s) (trace step input s ops) ↔ Always step (fun s => P' (view s)) s ops := by
  induction ops generalizing s with
  | nil => exact Iff.rfl
  | cons i rest ih =>
      rw [trace, Always, Always, ← hview, ih]

theorem guarded_trace (hview : ∀ s i, view (step s i) = step' (view s) (input s i)) (s : σ)
    (ops : List ι) :
    Guarded step' Ok' (view s) (trace step input s ops) ↔
      Guarded step (fun s i => Ok' (view s) (input s i)) s ops := by
  induction ops generalizing s with
  | nil => exact Iff.rfl
  | cons i rest ih =>
      rw [trace, Guarded, Guarded, ← hview, ih]

end Views

end NetTest.Runs
