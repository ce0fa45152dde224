import NetTest.Lib.Runs
import Mathlib.Logic.Function.Basic

/-!
# The spinlock

`spinlock.h`: a flag that `test_and_set` sets and reports.  Threads run sections
of any number of steps on the data that the lock guards, under `lock`, or under
`try_lock` when that succeeds, and between sections they act on what is their
own.  Whatever the schedule, the outcome is that of whole sections, one after
the other in the order in which the flag was won.
-/

namespace NetTest.Spin

open Runs

/-! ## The lock -/

structure Spinlock where
  flag : Bool

def Spinlock.create : Spinlock := { flag := false }

/-- `flag_.test_and_set()`, which returns the flag as it was. -/
def testAndSet (l : Spinlock) : Spinlock × Bool := ({ l with flag := true }, l.flag)

def tryLock (l : Spinlock) : Spinlock × Bool := ((testAndSet l).1, !(testAndSet l).2)

def unlock (l : Spinlock) : Spinlock := { l with flag := false }

/-! ## Threads -/

variable {σ τ ι κ : Type*}

/-- What the threads run: the steps of each section, on the guarded data and the
thread's own state, and what a thread does outside. -/
structure Program (σ τ ι κ : Type*) where
  body : ι → List (σ × τ → σ × τ)
  own : κ → τ → τ

/-- Where a thread is: outside, in the loop of `lock`, or inside with the rest of
its section. -/
inductive Phase (σ τ ι : Type*) where
  | outside
  | locking (i : ι)
  | inside (rest : List (σ × τ → σ × τ))

/-- What takes effect at one moment: a section when its thread wins the flag, an
act on a thread's own state when it is done. -/
inductive Act (ι κ : Type*) where
  | critical (k : Nat) (i : ι)
  | own (k : Nat) (a : κ)

structure System (σ τ ι κ : Type*) where
  lock : Spinlock
  data : σ
  locals : Nat → τ
  phases : Nat → Phase σ τ ι
  /-- What has taken effect, in order. -/
  acts : List (Act ι κ)

def System.create (data : σ) (locals : Nat → τ) : System σ τ ι κ where
  lock := .create
  data := data
  locals := locals
  phases := fun _ => .outside
  acts := []

inductive Event (ι κ : Type*) where
  /-- Thread `k` calls `lock` to run a section. -/
  | lock (k : Nat) (i : ι)
  /-- Thread `k` calls `try_lock`, and runs the section if that succeeds. -/
  | tryLock (k : Nat) (i : ι)
  | own (k : Nat) (a : κ)
  /-- Thread `k` takes its next step. -/
  | run (k : Nat)

variable (program : Program σ τ ι κ)

def System.setPhase (s : System σ τ ι κ) (k : Nat) (phase : Phase σ τ ι) : System σ τ ι κ :=
  { s with phases := Function.update s.phases k phase }

/-- Thread `k` has won the flag. -/
def System.enter (s : System σ τ ι κ) (k : Nat) (i : ι) : System σ τ ι κ :=
  { s with acts := s.acts ++ [Act.critical k i] }.setPhase k (.inside (program.body i))

def runThread (s : System σ τ ι κ) (k : Nat) : Phase σ τ ι → System σ τ ι κ
  | .outside => s
  | .locking i =>
      -- `sched_yield` when the flag was set
      if (testAndSet s.lock).2 then { s with lock := (testAndSet s.lock).1 }
      else { s with lock := (testAndSet s.lock).1 }.enter program k i
  | .inside (micro :: rest) =>
      { s with
        data := (micro (s.data, s.locals k)).1
        locals := Function.update s.locals k (micro (s.data, s.locals k)).2 }.setPhase k
          (.inside rest)
  | .inside [] => { s with lock := unlock s.lock }.setPhase k .outside

def step (s : System σ τ ι κ) : Event ι κ → System σ τ ι κ
  | .lock k i =>
      match s.phases k with
      | .outside => s.setPhase k (.locking i)
      | _ => s
  | .tryLock k i =>
      match s.phases k with
      | .outside =>
          if (tryLock s.lock).2 then { s with lock := (tryLock s.lock).1 }.enter program k i
          else { s with lock := (tryLock s.lock).1 }
      | _ => s
  | .own k a =>
      match s.phases k with
      | .outside =>
          { s with
            locals := Function.update s.locals k (program.own a (s.locals k))
            acts := s.acts ++ [.own k a] }
      | _ => s
  | .run k => runThread program s k (s.phases k)

/-! ## One section after the other -/

def runSteps (steps : List (σ × τ → σ × τ)) (x : σ × τ) : σ × τ :=
  steps.foldl (fun x micro => micro x) x

def perform (d : σ × (Nat → τ)) : Act ι κ → σ × (Nat → τ)
  | .critical k i =>
      ((runSteps (program.body i) (d.1, d.2 k)).1,
        Function.update d.2 k (runSteps (program.body i) (d.1, d.2 k)).2)
  | .own k a => (d.1, Function.update d.2 k (program.own a (d.2 k)))

def Phase.Holds : Phase σ τ ι → Prop
  | .inside _ => True
  | _ => False

/-- `s` is `d`, except that the thread inside has the rest of its section to do. -/
inductive Serial (s : System σ τ ι κ) (d : σ × (Nat → τ)) : Prop where
  | free (hflag : s.lock.flag = false) (hnone : ∀ k, ¬ (s.phases k).Holds)
      (hdata : s.data = d.1) (hlocals : s.locals = d.2)
  | held (k : Nat) (rest : List (σ × τ → σ × τ)) (hflag : s.lock.flag = true)
      (hphase : s.phases k = .inside rest) (hothers : ∀ j, j ≠ k → ¬ (s.phases j).Holds)
      (hdata : runSteps rest (s.data, s.locals k) = (d.1, d.2 k))
      (hlocals : ∀ j, j ≠ k → s.locals j = d.2 j)

variable {program}

theorem serial_create (data : σ) (locals : Nat → τ) :
    Serial (System.create data locals : System σ τ ι κ) (data, locals) :=
  .free rfl (fun _ h => h) rfl rfl

theorem not_holds_update {phases : Nat → Phase σ τ ι} {k j : Nat} {phase : Phase σ τ ι}
    (hphase : ¬ phase.Holds) (hj : j ≠ k → ¬ (phases j).Holds) :
    ¬ (Function.update phases k phase j).Holds := by
  by_cases h : j = k
  · subst h
    rwa [Function.update_self]
  · rw [Function.update_of_ne h]
    exact hj h

theorem Serial.setPhase {s : System σ τ ι κ} {d : σ × (Nat → τ)} (h : Serial s d) {k : Nat}
    {phase : Phase σ τ ι} (hk : ¬ (s.phases k).Holds) (hphase : ¬ phase.Holds) :
    Serial (s.setPhase k phase) d := by
  cases h with
  | free hflag hnone hdata hlocals =>
      refine .free hflag ?_ hdata hlocals
      intro j
      exact not_holds_update hphase fun _ => hnone j
  | held holder rest hflag hholder hothers hdata hlocals =>
      have hne : holder ≠ k := by
        rintro rfl
        rw [hholder] at hk
        exact hk trivial
      refine .held holder rest hflag ?_ ?_ hdata hlocals
      · rw [System.setPhase]
        simp only
        rw [Function.update_of_ne hne, hholder]
      · intro j hj
        exact not_holds_update hphase fun _ => hothers j hj

theorem Serial.busy {s : System σ τ ι κ} {d : σ × (Nat → τ)} (h : Serial s d)
    (hflag : s.lock.flag = true) : Serial { s with lock := (testAndSet s.lock).1 } d := by
  have hlock : (testAndSet s.lock).1 = s.lock := by
    rw [testAndSet, ← hflag]
  rw [hlock]
  exact h

theorem Serial.enter {s : System σ τ ι κ} {d : σ × (Nat → τ)} (h : Serial s d)
    (hflag : s.lock.flag = false) (k : Nat) (i : ι) :
    Serial ({ s with lock := (testAndSet s.lock).1 }.enter program k i)
      (perform program d (.critical k i)) := by
  cases h with
  | free _ hnone hdata hlocals =>
      refine .held k (program.body i) rfl (Function.update_self _ _ _) ?_ ?_ ?_
      · intro j hj
        simp only [System.enter, System.setPhase]
        rw [Function.update_of_ne hj]
        exact hnone j
      · simp only [System.enter, System.setPhase, perform, hdata, hlocals, Function.update_self]
      · intro j hj
        simp only [System.enter, System.setPhase, perform, hlocals]
        rw [Function.update_of_ne hj]
  | held _ _ hset => rw [hflag] at hset; cases hset

theorem Serial.micro {s : System σ τ ι κ} {d : σ × (Nat → τ)} (h : Serial s d) {k : Nat}
    {micro : σ × τ → σ × τ} {rest : List (σ × τ → σ × τ)}
    (hk : s.phases k = .inside (micro :: rest)) :
    Serial ({ s with
      data := (micro (s.data, s.locals k)).1
      locals := Function.update s.locals k (micro (s.data, s.locals k)).2 }.setPhase k
        (.inside rest)) d := by
  cases h with
  | free _ hnone => exact absurd (by rw [hk]; trivial) (hnone k)
  | held holder steps hflag hholder hothers hdata hlocals =>
      have heq : holder = k := by
        by_contra hne
        exact hothers k (Ne.symm hne) (by rw [hk]; trivial)
      subst heq
      rw [hk] at hholder
      cases hholder
      refine .held holder rest hflag (Function.update_self _ _ _) ?_ ?_ ?_
      · intro j hj
        simp only [System.setPhase]
        rw [Function.update_of_ne hj]
        exact hothers j hj
      · simp only [System.setPhase, Function.update_self]
        exact hdata
      · intro j hj
        simp only [System.setPhase]
        rw [Function.update_of_ne hj]
        exact hlocals j hj

theorem Serial.leave {s : System σ τ ι κ} {d : σ × (Nat → τ)} (h : Serial s d) {k : Nat}
    (hk : s.phases k = .inside []) :
    Serial ({ s with lock := unlock s.lock }.setPhase k .outside) d := by
  cases h with
  | free _ hnone => exact absurd (by rw [hk]; trivial) (hnone k)
  | held holder steps hflag hholder hothers hdata hlocals =>
      have heq : holder = k := by
        by_contra hne
        exact hothers k (Ne.symm hne) (by rw [hk]; trivial)
      subst heq
      rw [hk] at hholder
      cases hholder
      rw [runSteps, List.foldl_nil, Prod.mk.injEq] at hdata
      refine .free rfl ?_ hdata.1 ?_
      · intro j
        exact not_holds_update (fun h => h) fun hj => hothers j hj
      · funext j
        by_cases hj : j = holder
        · rw [hj]
          exact hdata.2
        · exact hlocals j hj

/-- A thread outside acts on its own state. -/
theorem Serial.own {s : System σ τ ι κ} {d : σ × (Nat → τ)} (h : Serial s d) {k : Nat}
    (hk : s.phases k = .outside) (a : κ) :
    Serial { s with
      locals := Function.update s.locals k (program.own a (s.locals k))
      acts := s.acts ++ [.own k a] } (perform program d (.own k a)) := by
  cases h with
  | free hflag hnone hdata hlocals =>
      refine .free hflag hnone hdata ?_
      simp only [perform, hlocals]
  | held holder rest hflag hholder hothers hdata hlocals =>
      have hne : holder ≠ k := by
        rintro rfl
        rw [hk] at hholder
        cases hholder
      refine .held holder rest hflag hholder hothers ?_ ?_
      · simp only [perform]
        rw [Function.update_of_ne hne, Function.update_of_ne hne]
        exact hdata
      · intro j hj
        simp only [perform]
        by_cases hjk : j = k
        · subst hjk
          rw [Function.update_self, Function.update_self, hlocals j hj]
        · rw [Function.update_of_ne hjk, Function.update_of_ne hjk, hlocals j hj]

/-- The state is that of the acts so far, done whole. -/
def Inv (program : Program σ τ ι κ) (data : σ) (locals : Nat → τ) (s : System σ τ ι κ) : Prop :=
  Serial s (s.acts.foldl (perform program) (data, locals))

variable {data : σ} {locals : Nat → τ}

theorem Inv.enter {s : System σ τ ι κ} (h : Inv program data locals s)
    (hflag : s.lock.flag = false) (k : Nat) (i : ι) :
    Inv program data locals ({ s with lock := (testAndSet s.lock).1 }.enter program k i) := by
  unfold Inv System.enter System.setPhase
  rw [List.foldl_append]
  exact Serial.enter h hflag k i

theorem inv_runThread {s : System σ τ ι κ} (h : Inv program data locals s) {k : Nat}
    {phase : Phase σ τ ι} (hphase : s.phases k = phase) :
    Inv program data locals (runThread program s k phase) := by
  cases phase with
  | outside => exact h
  | locking i =>
      rw [runThread]
      split
      · rename_i hflag
        exact Serial.busy h hflag
      · rename_i hflag
        exact h.enter (Bool.not_eq_true _ ▸ hflag) k i
  | inside rest =>
      cases rest with
      | nil => exact Serial.leave h hphase
      | cons micro rest => exact Serial.micro h hphase

theorem inv_step {s : System σ τ ι κ} (h : Inv program data locals s) (e : Event ι κ) :
    Inv program data locals (step program s e) := by
  cases e with
  | run k => exact inv_runThread h rfl
  | lock k i =>
      rw [step]
      split
      · rename_i hk
        exact Serial.setPhase h (by rw [hk]; exact fun h => h) fun h => h
      · exact h
  | tryLock k i =>
      rw [step]
      split
      · split
        · rename_i hwon
          have hflag : s.lock.flag = false := by simpa [tryLock, testAndSet] using hwon
          exact h.enter hflag k i
        · rename_i hlost
          have hflag : s.lock.flag = true := by simpa [tryLock, testAndSet] using hlost
          exact Serial.busy h hflag
      · exact h
  | own k a =>
      rw [step]
      split
      · rename_i hk
        unfold Inv
        rw [List.foldl_append]
        exact Serial.own h hk a
      · exact h

theorem inv_run (program : Program σ τ ι κ) (data : σ) (locals : Nat → τ)
    (events : List (Event ι κ)) :
    Inv program data locals (events.foldl (step program) (System.create data locals)) :=
  foldl_of_step (P := Inv program data locals) (fun _ e h => inv_step h e)
    (serial_create data locals) events

/-- Under every schedule of any number of threads, at every moment, at most one
of them is in a section, and everything is as if the sections whose threads have
won the flag had run whole, in the order in which they won it. -/
theorem spinlock_serial (program : Program σ τ ι κ) (data : σ) (locals : Nat → τ)
    (events : List (Event ι κ)) :
    Always (step program) (Inv program data locals) (System.create data locals) events :=
  always_of_step (P := Inv program data locals) (fun _ e h => inv_step h e)
    (serial_create data locals) events

/-! ## Progress -/

theorem runThread_out {s : System σ τ ι κ} {k : Nat} (rest : List (σ × τ → σ × τ))
    (hk : s.phases k = .inside rest) :
    let s' := (List.replicate (rest.length + 1) (Event.run k)).foldl (step program) s
    s'.lock.flag = false ∧ ∀ j, j ≠ k → s'.phases j = s.phases j := by
  induction rest generalizing s with
  | nil =>
      refine ⟨?_, ?_⟩
      · simp [step, hk, runThread, System.setPhase, unlock]
      · intro j hj
        simp [step, hk, runThread, System.setPhase, Function.update_of_ne hj]
  | cons micro rest ih =>
      intro s'
      have hstep : s' = (List.replicate (rest.length + 1) (Event.run k)).foldl (step program)
          (runThread program s k (.inside (micro :: rest))) := by
        simp only [s', List.length_cons, List.replicate_succ, List.foldl_cons, step, hk]
      have hnext : (runThread program s k (.inside (micro :: rest))).phases k = .inside rest :=
        Function.update_self _ _ _
      rcases ih hnext with ⟨hflag, hothers⟩
      rw [hstep]
      refine ⟨hflag, ?_⟩
      intro j hj
      rw [hothers j hj]
      exact Function.update_of_ne hj _ _

/-- No schedule leads to a deadlock: whenever a thread waits in `lock`, some one
thread only has to be given enough steps for the next try to succeed. -/
theorem spinlock_progress (program : Program σ τ ι κ) (data : σ) (locals : Nat → τ)
    (events : List (Event ι κ)) (k : Nat) (i : ι) :
    let s := events.foldl (step program) (System.create data locals)
    s.phases k = .locking i →
      ∃ holder count,
        ((List.replicate count (Event.run holder) ++ [Event.run k]).foldl (step program) s).phases k =
          .inside (program.body i) := by
  intro s hk
  have h : Inv program data locals s := inv_run program data locals events
  have hwins : ∀ s' : System σ τ ι κ, s'.phases k = .locking i → s'.lock.flag = false →
      (step program s' (.run k)).phases k = .inside (program.body i) := by
    intro s' hk' hflag
    rw [step, hk', runThread, if_neg (by simp [testAndSet, hflag])]
    exact Function.update_self _ _ _
  cases h with
  | free hflag hnone hdata hlocals => exact ⟨k, 0, hwins s hk hflag⟩
  | held holder rest hflag hholder hothers hdata hlocals =>
      have hne : k ≠ holder := by
        rintro rfl
        rw [hk] at hholder
        cases hholder
      have hout := @runThread_out _ _ _ _ program _ _ rest hholder
      refine ⟨holder, rest.length + 1, ?_⟩
      rw [List.foldl_append]
      exact hwins _ (by rw [hout.2 k hne, hk]) hout.1

/-- Adding to a counter in two steps: the load, and the store of the sum. -/
def counter : Program Nat Nat Nat Unit where
  body n := [fun x => (x.1, x.1), fun x => (x.2 + n, x.2)]
  own _ l := l

def schedule : List (Event Nat Unit) :=
  [Event.lock 0 5, Event.run 0, Event.run 0, Event.lock 1 7, Event.run 1]

/-- Thread 1 waits while thread 0 is between its load and its store. -/
theorem spinlock_progress_counter :
    ∃ holder count,
      ((List.replicate count (Event.run holder) ++ [Event.run 1]).foldl (step counter)
        (schedule.foldl (step counter) (System.create 0 fun _ => 0))).phases 1 = .inside (counter.body 7) :=
  spinlock_progress counter 0 (fun _ => 0) schedule 1 7 rfl

end NetTest.Spin
