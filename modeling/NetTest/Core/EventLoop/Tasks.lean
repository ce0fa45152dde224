import NetTest.Lib.Runs

/-!
# Tasks of an event loop

`add_task` appends under the lock from any thread, also from a task that is
running, and `process_task` swaps the list out under the lock and runs the batch
without it.  The two critical sections are one step each.  `added` and `executed`
are the history: every task with the number of rounds that had begun by then.
-/

namespace NetTest.EventLoop.Tasks

open Runs

variable {α : Type*}

structure World (α : Type*) where
  running : Bool
  /-- Calls of `add_task` that have passed the test of `_running`. -/
  adding : List α
  tasks : List α
  /-- The rest of the batch, while the loop thread is in `process_task`. -/
  tsks : Option (List α)
  round : Nat
  added : List (α × Nat)
  executed : List (α × Nat)

def World.init : World α where
  running := true
  adding := []
  tasks := []
  tsks := none
  round := 0
  added := []
  executed := []

/-- The batch being executed; empty outside `process_task`. -/
def World.batch (w : World α) : List α := w.tsks.getD []

inductive Event (α : Type*) where
  /-- A thread, or the running task, calls `add_task`. -/
  | addTask (task : α)
  /-- One of the calls enters its critical section. -/
  | push (call : Nat)
  /-- The loop thread enters `process_task` and takes the list. -/
  | swap
  /-- The next task of the batch is called. -/
  | execute
  /-- The batch is done. -/
  | leave
  | stop

def step (w : World α) : Event α → World α
  | .addTask task => if w.running then { w with adding := w.adding ++ [task] } else w
  | .push call =>
      match w.adding[call]? with
      | none => w
      | some task =>
          { w with
            adding := w.adding.eraseIdx call
            tasks := w.tasks ++ [task]
            added := w.added ++ [(task, w.round)] }
  | .swap =>
      match w.tsks with
      | none => { w with tsks := some w.tasks, tasks := [], round := w.round + 1 }
      | some _ => w
  | .execute =>
      match w.tsks with
      | some (task :: rest) =>
          { w with tsks := some rest, executed := w.executed ++ [(task, w.round)] }
      | some [] => w
      | none => w
  | .leave =>
      match w.tsks with
      | some [] => { w with tsks := none }
      | some (_ :: _) => w
      | none => w
  | .stop => { w with running := false }

/-! ## What a step does to the tasks -/

/-- What the order of the tasks depends on. -/
structure View (α : Type*) where
  executed : List (α × Nat)
  batch : List α
  tasks : List α
  added : List (α × Nat)
  round : Nat

def World.view (w : World α) : View α := ⟨w.executed, w.batch, w.tasks, w.added, w.round⟩

/-- A task is appended, an empty batch is replaced by the list, or the first
task of the batch is called. -/
inductive Move : View α → View α → Prop where
  | push (v : View α) (task : α) :
      Move v { v with tasks := v.tasks ++ [task], added := v.added ++ [(task, v.round)] }
  | swap (v : View α) (hbatch : v.batch = []) :
      Move v { v with batch := v.tasks, tasks := [], round := v.round + 1 }
  | execute (v : View α) (task : α) (rest : List α) (hbatch : v.batch = task :: rest) :
      Move v { v with batch := rest, executed := v.executed ++ [(task, v.round)] }
  | stay (v : View α) : Move v v

theorem move_step (w : World α) (event : Event α) : Move w.view (step w event).view := by
  have hstay : ∀ w' : World α, w'.view = w.view → Move w.view w'.view := by
    intro w' hview
    rw [hview]
    exact .stay _
  cases event with
  | addTask task =>
      apply hstay
      rw [step]
      split
      · rfl
      · rfl
  | push call =>
      cases hcall : w.adding[call]? with
      | none =>
          apply hstay
          rw [step, hcall]
      | some task =>
          rw [step, hcall]
          exact .push w.view task
  | swap =>
      cases htsks : w.tsks with
      | none =>
          have hbatch : w.view.batch = [] := by simp [World.view, World.batch, htsks]
          rw [step, htsks]
          exact .swap w.view hbatch
      | some rest =>
          apply hstay
          rw [step, htsks]
  | execute =>
      cases htsks : w.tsks with
      | none =>
          apply hstay
          rw [step, htsks]
      | some batch =>
          cases batch with
          | nil =>
              apply hstay
              rw [step, htsks]
          | cons task rest =>
              have hbatch : w.view.batch = task :: rest := by
                simp [World.view, World.batch, htsks]
              rw [step, htsks]
              exact .execute w.view task rest hbatch
  | leave =>
      apply hstay
      cases htsks : w.tsks with
      | none => rw [step, htsks]
      | some batch =>
          cases batch with
          | nil =>
              rw [step, htsks]
              simp [World.view, World.batch, htsks]
          | cons task rest => rw [step, htsks]
  | stop => exact hstay _ rfl

/-! ## Order -/

/-- Executed, about to be executed and waiting, together, are what was added, and
each task runs in a round that began after it was added. -/
structure InOrder (v : View α) : Prop where
  order : v.executed.map Prod.fst ++ v.batch ++ v.tasks = v.added.map Prod.fst
  later : ∀ (i : Nat) (a e : α × Nat), v.added[i]? = some a → v.executed[i]? = some e →
    a.1 = e.1 ∧ a.2 < e.2

/-- The rounds in which the tasks that are still to be executed were added. -/
structure Inv (v : View α) : Prop extends InOrder v where
  begun : ∀ a ∈ v.added, a.2 ≤ v.round
  batch_before : ∀ a ∈ v.added.take (v.executed.length + v.batch.length), a.2 < v.round

theorem Inv.length {v : View α} (h : Inv v) :
    v.executed.length + v.batch.length + v.tasks.length = v.added.length := by
  simpa [Nat.add_assoc] using congrArg List.length h.order

theorem Inv.push {v : View α} (h : Inv v) (task : α) :
    Inv { v with tasks := v.tasks ++ [task], added := v.added ++ [(task, v.round)] } := by
  have hlength := h.length
  constructor
  · constructor
    · simp only [List.map_append, List.map_singleton, ← h.order, List.append_assoc]
    · intro i a e ha he
      have hi : i < v.executed.length := (List.getElem?_eq_some_iff.mp he).choose
      rw [List.getElem?_append_left (by omega)] at ha
      exact h.later i a e ha he
  · intro a ha
    rcases List.mem_append.mp ha with ha | ha
    · exact h.begun a ha
    · rw [List.mem_singleton.mp ha]
  · intro a ha
    rw [List.take_append_of_le_length (by simp only; omega)] at ha
    exact h.batch_before a ha

theorem Inv.swap {v : View α} (h : Inv v) (hbatch : v.batch = []) :
    Inv { v with batch := v.tasks, tasks := [], round := v.round + 1 } := by
  constructor
  · constructor
    · simpa [hbatch] using h.order
    · exact h.later
  · intro a ha
    exact Nat.le_succ_of_le (h.begun a ha)
  · intro a ha
    exact Nat.lt_succ_of_le (h.begun a (List.mem_of_mem_take ha))

theorem Inv.execute {v : View α} (h : Inv v) {task : α} {rest : List α}
    (hbatch : v.batch = task :: rest) :
    Inv { v with batch := rest, executed := v.executed ++ [(task, v.round)] } := by
  have horder := h.order
  rw [hbatch] at horder
  constructor
  · constructor
    · simpa using horder
    · intro i a e ha he
      rcases Nat.lt_or_ge i v.executed.length with hlt | hge
      · rw [List.getElem?_append_left hlt] at he
        exact h.later i a e ha he
      · -- the task that was just called
        have hi : i = v.executed.length := by
          have hbound := (List.getElem?_eq_some_iff.mp he).choose
          simp only [List.length_append, List.length_singleton] at hbound
          omega
        subst hi
        rw [List.getElem?_concat_length, Option.some.injEq] at he
        subst he
        have hname : (v.added.map Prod.fst)[v.executed.length]? = some task := by
          rw [← horder]
          simp
        rw [List.getElem?_map, ha, Option.map_some, Option.some.injEq] at hname
        refine ⟨hname, h.batch_before a ?_⟩
        apply List.mem_of_getElem? (i := v.executed.length)
        rw [List.getElem?_take_of_lt (by simp [hbatch]), ha]
  · exact h.begun
  · intro a ha
    apply h.batch_before a
    rw [hbatch]
    simpa [Nat.add_assoc, Nat.add_comm 1] using ha

theorem inv_init : Inv (World.init : World α).view where
  order := rfl
  later _ _ _ ha := nomatch ha
  begun _ ha := nomatch ha
  batch_before _ ha := nomatch ha

theorem inv_step {w : World α} (h : Inv w.view) (event : Event α) :
    Inv (step w event).view := by
  have hmove := move_step w event
  generalize (step w event).view = v' at hmove
  cases hmove with
  | push task => exact h.push task
  | swap hbatch => exact h.swap hbatch
  | execute task rest hbatch => exact h.execute hbatch
  | stay => exact h

/-- Under every schedule, at every moment, the tasks come out in the order of
their critical sections, each once, and in a later round. -/
theorem tasks_in_order (events : List (Event α)) :
    Always step (fun w => InOrder w.view) World.init events := by
  have hinv : Always step (fun w : World α => Inv w.view) World.init events := by
    apply always_of_step
    · intro w event h
      exact inv_step h event
    · exact inv_init
  exact hinv.mono fun w h => h.toInOrder

end NetTest.EventLoop.Tasks
