import NetTest.Lib.Runs
import NetTest.Threadpool.Slots

/-!
# Stopping an executor

`stop` queues one CLR behind the ADD and RMV operations and ends the loop, and
the destructor clears the table once more.  `process_clr` deletes and nulls the
counted slots and keeps the count.  The promise of a counted task has its value
since `process_add`, so the acknowledgement behind the first slot raises.
Whatever runs over the table afterwards meets the null slot.
-/

namespace NetTest.Threadpool.Shutdown

open Clients (Shape shape_create)

/-- What happens before the CLR: rounds begin, take up operations and run the
tasks, and the clients wait on ids. -/
inductive Event where
  | begin
  | add (context : TaskContext)
  | rmv (context : TaskContext) (stale : Int)
  | run
  | wait (id : Int)

def step (e : Executor) : Event → Executor
  | .begin => beginRound e
  | .add context => processOp e (.add context)
  | .rmv context stale => processOp e (.rmv context stale)
  | .run => runPhase e
  | .wait id => { e with syncer := e.syncer.touch id }

def run (events : List Event) : Executor := events.foldl step create

/-- `~Executor`.  The call of `process_clr` there names no context; `argument`
is what it is given. -/
def destroy (e : Executor) (argument : Option TaskContext) : Executor :=
  let e := clearSlots (beginRound e) 0 e.taskSize
  if e.status = .running then
    match argument with
    | some context => notify e context.id
    | none => { e with status := .crashed }
  else e

def rounds (e : Executor) : Nat → Executor
  | 0 => e
  | n + 1 => processTask (rounds e n) []

/-- The CLR of `stop` is taken up in state `e`: it leaves no task behind, and
nothing afterwards dereferences a null slot or a context that is not there. -/
structure CleanStop (e : Executor) (context : TaskContext) (argument : Option TaskContext) :
    Prop where
  no_task : (processOp e (.clr context)).taskSize = 0 ∨
    ∀ i, i < (processOp e (.clr context)).taskSize →
      ∃ c, (processOp e (.clr context)).tasks[i]? = some (some c)
  same_round : (runPhase (processOp e (.clr context))).status ≠ .crashed
  later_rounds : ∀ n, (rounds (runPhase (processOp e (.clr context))) n).status ≠ .crashed
  destructor : ∀ n,
    (destroy (rounds (runPhase (processOp e (.clr context))) n) argument).status ≠ .crashed

/-! ## Before the CLR -/

theorem runPhase_frame (e : Executor) :
    (runPhase e).tasks = e.tasks ∧ (runPhase e).cap = e.cap ∧
      (runPhase e).taskSize = e.taskSize := by
  unfold runPhase
  split
  · cases calls e with
    | none => exact ⟨rfl, rfl, rfl⟩
    | some called => exact ⟨rfl, rfl, rfl⟩
  · exact ⟨rfl, rfl, rfl⟩

theorem beginRound_frame (e : Executor) :
    (beginRound e).tasks = e.tasks ∧ (beginRound e).cap = e.cap ∧
      (beginRound e).taskSize = e.taskSize := by
  unfold beginRound
  split
  · exact ⟨rfl, rfl, rfl⟩
  · exact ⟨rfl, rfl, rfl⟩

theorem shape_step {e : Executor} (h : Shape e) (event : Event) : Shape (step e event) := by
  cases event with
  | begin =>
      obtain ⟨htasks, hcap, hsize⟩ := beginRound_frame e
      exact h.frame htasks hcap hsize
  | add context =>
      rw [step, processOp]
      split
      · exact h.processAdd context
      · exact h
  | rmv context stale =>
      rw [step, processOp]
      split
      · exact (h.processRmv context stale).1
      · exact h
  | run =>
      obtain ⟨htasks, hcap, hsize⟩ := runPhase_frame e
      exact h.frame htasks hcap hsize
  | wait id => exact h.frame rfl rfl rfl

theorem shape_run (events : List Event) : Shape (run events) := by
  have hstep : ∀ e event, Shape e → Shape (step e event) := fun _ event h => shape_step h event
  exact Runs.foldl_of_step hstep shape_create events

/-! ## The CLR -/

theorem notify_frame (e : Executor) (id : Int) :
    (notify e id).tasks = e.tasks ∧ (notify e id).taskSize = e.taskSize := ⟨rfl, rfl⟩

theorem notify_status {e : Executor} (h : e.status ≠ .crashed) (id : Int) :
    (notify e id).status ≠ .crashed := by
  unfold notify
  dsimp only
  split
  · exact fun hcrash => nomatch hcrash
  · exact h

theorem clearSlots_keeps (e : Executor) (i count : Nat) :
    (clearSlots e i count).taskSize = e.taskSize ∧
      ∀ j : Nat, e.tasks[j]? = some none → (clearSlots e i count).tasks[j]? = some none := by
  induction count generalizing e i with
  | zero => exact ⟨rfl, fun _ h => h⟩
  | succ count ih =>
      unfold clearSlots
      cases e.tasks.getD i none with
      | none => exact ⟨rfl, fun _ h => h⟩
      | some c =>
          have hnull : ∀ j : Nat, e.tasks[j]? = some none → (e.tasks.set i none)[j]? = some none := by
            intro j hj
            rw [List.getElem?_set]
            split
            · have := (List.getElem?_eq_some_iff.mp hj).choose
              simp_all
            · exact hj
          dsimp only
          split
          · have hrest := ih (notify { e with tasks := e.tasks.set i none } c.id) (i + 1)
            exact ⟨hrest.1, fun j hj => hrest.2 j (hnull j hj)⟩
          · exact ⟨rfl, hnull⟩

/-- With a counted slot, the first slot is null when `process_clr` has run, and
it is still counted. -/
theorem clearSlots_first_null {e : Executor} (hsize : e.taskSize ≤ e.tasks.length) {count : Nat}
    (hcount : e.taskSize = count + 1) :
    (clearSlots e 0 (count + 1)).tasks[0]? = some none := by
  have hlen : 0 < e.tasks.length := by omega
  unfold clearSlots
  cases hslot : e.tasks.getD 0 none with
  | none =>
      rw [List.getElem?_eq_getElem hlen]
      simpa [List.getD, List.getElem?_eq_getElem hlen] using hslot
  | some c =>
      have hset : (notify { e with tasks := e.tasks.set 0 none } c.id).tasks[0]? = some none := by
        rw [(notify_frame _ _).1, List.getElem?_set_self hlen]
      dsimp only
      split
      · exact (clearSlots_keeps _ 1 count).2 0 hset
      · exact hset

theorem processClr_keeps (e : Executor) (context : TaskContext) :
    (processClr e context).taskSize = e.taskSize ∧
      (processClr e context).tasks = (clearSlots e 0 e.taskSize).tasks := by
  unfold processClr
  dsimp only
  split
  · exact ⟨(clearSlots_keeps e 0 e.taskSize).1, rfl⟩
  · exact ⟨(clearSlots_keeps e 0 e.taskSize).1, rfl⟩

/-! ## An empty table -/

/-- No slot is counted and nothing has crashed. -/
structure Idle (e : Executor) : Prop where
  empty : e.taskSize = 0
  alive : e.status ≠ .crashed

theorem Idle.notify {e : Executor} (h : Idle e) (id : Int) : Idle (notify e id) :=
  ⟨h.empty, notify_status h.alive id⟩

theorem Idle.begin {e : Executor} (h : Idle e) : Idle (beginRound e) := by
  refine ⟨(beginRound_frame e).2.2.trans h.empty, ?_⟩
  rw [beginRound, if_neg h.alive]
  exact fun hcrash => nomatch hcrash

theorem Idle.runPhase {e : Executor} (h : Idle e) : Idle (runPhase e) := by
  have hcalls : calls e = some [] := by
    rw [calls, h.empty, List.take_zero]
    rfl
  unfold Threadpool.runPhase
  rw [hcalls]
  split
  · exact ⟨h.empty, h.alive⟩
  · exact h

theorem Idle.rounds {e : Executor} (h : Idle e) (n : Nat) : Idle (rounds e n) := by
  induction n with
  | zero => exact h
  | succ n ih => exact ih.begin.runPhase

theorem Idle.clr {e : Executor} (h : Idle e) (context : TaskContext) :
    Idle (processOp e (.clr context)) := by
  have hclear : clearSlots e 0 e.taskSize = e := by rw [h.empty]; rfl
  by_cases hrunning : e.status = .running
  · have hprocess : processOp e (.clr context) = Threadpool.notify e context.id := by
      unfold processOp
      rw [if_pos hrunning]
      unfold processClr
      rw [hclear]
      exact if_pos hrunning
    rw [hprocess]
    exact h.notify context.id
  · unfold processOp
    rw [if_neg hrunning]
    exact h

theorem Idle.destroy {e : Executor} (h : Idle e) (argument : Option TaskContext) :
    (destroy e argument).status ≠ .crashed ↔ argument.isSome := by
  have hclear : clearSlots (beginRound e) 0 e.taskSize = beginRound e := by rw [h.empty]; rfl
  have hrunning : (beginRound e).status = .running := by rw [beginRound, if_neg h.alive]
  unfold Shutdown.destroy
  dsimp only
  rw [hclear, if_pos hrunning]
  cases argument with
  | none => simp
  | some context => simpa using (h.begin.notify context.id).alive

/-- Stopping is clean exactly when the table is empty at the CLR and the
destructor has a context to acknowledge. -/
theorem cleanStop_iff (events : List Event) (context : TaskContext)
    (argument : Option TaskContext) (hrunning : (run events).status = .running) :
    CleanStop (run events) context argument ↔
      (run events).taskSize = 0 ∧ argument.isSome := by
  have hprocess : processOp (run events) (.clr context) = processClr (run events) context :=
    if_pos hrunning
  constructor
  · intro h
    have hempty : (run events).taskSize = 0 := by
      cases hsize : (run events).taskSize with
      | zero => rfl
      | succ count =>
          -- the first slot is counted and null
          exfalso
          have hkeeps := processClr_keeps (run events) context
          have hnull := clearSlots_first_null (shape_run events).size_le hsize
          have htask := h.no_task
          rw [hprocess, hkeeps.1, hkeeps.2, hsize] at htask
          rcases htask with hzero | hlive
          · cases hzero
          · obtain ⟨c, hc⟩ := hlive 0 (Nat.succ_pos count)
            rw [hnull] at hc
            cases hc
    have hidle : Idle (run events) := ⟨hempty, by rw [hrunning]; exact fun hcrash => nomatch hcrash⟩
    exact ⟨hempty, ((hidle.clr context).runPhase.destroy argument).mp (h.destructor 0)⟩
  · rintro ⟨hempty, hargument⟩
    have hidle : Idle (run events) := ⟨hempty, by rw [hrunning]; exact fun hcrash => nomatch hcrash⟩
    have hclr := hidle.clr context
    exact ⟨.inl hclr.empty, hclr.runPhase.alive, fun n => (hclr.runPhase.rounds n).alive,
      fun n => ((hclr.runPhase.rounds n).destroy argument).mpr hargument⟩

/-- The only task is added, waited for and removed before the executor stops.  The
RMV acknowledges the id of another context. -/
theorem cleanStop_after_removal :
    CleanStop (run [.begin, .add ⟨1, 0⟩, .run, .wait 1, .begin, .rmv ⟨1, 0⟩ 7])
      ⟨2, 0⟩ (some ⟨3, 0⟩) :=
  (cleanStop_iff _ ⟨2, 0⟩ (some ⟨3, 0⟩) (by decide)).mpr ⟨by decide, rfl⟩

/-- One task in the table: the CLR nulls its slot, the acknowledgement of the id
raises, and the slot stays counted.  A later round calls it, and so does the
destructor. -/
theorem stop_keeps_null_slot :
    let e := run [.begin, .add ⟨1, 0⟩, .run, .begin]
    let cleared := processOp e (.clr ⟨2, 0⟩)
    e.status = .running ∧ cleared.status = .unwinding ∧ cleared.taskSize = 1 ∧
      cleared.tasks[0]? = some none ∧ (processTask cleared []).status = .crashed ∧
      (destroy cleared (some ⟨3, 0⟩)).status = .crashed ∧ ¬ CleanStop e ⟨2, 0⟩ (some ⟨3, 0⟩) := by
  intro e cleared
  have hcrash : (destroy (runPhase cleared) (some ⟨3, 0⟩)).status = .crashed := by decide
  exact ⟨by decide, by decide, by decide, by decide, by decide, by decide,
    fun h => h.destructor 0 hcrash⟩

end NetTest.Threadpool.Shutdown
