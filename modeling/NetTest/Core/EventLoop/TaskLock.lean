import NetTest.Core.EventLoop.Tasks
import NetTest.Core.Spinlock

/-!
# The task list under its spinlock

`EventLoop.Tasks` takes the critical sections of `add_task` and `process_task` as
single steps.  Here each is what the threads do: `lock`, a load of the list, a
store of the new one, `unlock`, with the steps of all threads interleaved.  The
interleavings are runs of the model with single steps.
-/

namespace NetTest.EventLoop.TaskLock

open Runs Spin

variable {α : Type*}

/-- What a thread has of its own: the list as it loaded it, and, for the loop
thread, `tsks` and the tasks it has called. -/
structure Local (α : Type*) where
  copy : List α
  tsks : List α
  executed : List α

inductive Section (α : Type*) where
  /-- `_tasks.push_back(task)` -/
  | pushBack (task : α)
  /-- `tsks.swap(_tasks)` -/
  | swap

/-- The two critical sections, and the call of the next task outside. -/
def program : Program (List α) (Local α) (Section α) Unit where
  body
    | .pushBack task =>
        [fun x => (x.1, { x.2 with copy := x.1 }), fun x => (x.2.copy ++ [task], x.2)]
    | .swap =>
        [fun x => (x.1, { x.2 with copy := x.1 }), fun x => ([], { x.2 with tsks := x.2.copy })]
  own _ l :=
    match l.tsks with
    | [] => l
    | task :: rest => { l with tsks := rest, executed := l.executed ++ [task] }

abbrev State (α : Type*) := System (List α) (Local α) (Section α) Unit

def State.create : State α := System.create [] fun _ => ⟨[], [], []⟩

/-- The loop thread is thread 0; it may call `add_task` like any other. -/
inductive Event (α : Type*) where
  | addTask (k : Nat) (task : α)
  /-- The loop calls `process_task`, which it does when the last batch is done. -/
  | processTask
  | execute
  | run (k : Nat)

def step (s : State α) : Event α → State α
  | .addTask k task => Spin.step program s (.lock k (.pushBack task))
  | .processTask => if (s.locals 0).tsks = [] then Spin.step program s (.lock 0 .swap) else s
  | .execute => Spin.step program s (.own 0 ())
  | .run k => Spin.step program s (.run k)

/-- The tasks in the order in which their calls of `add_task` won the flag. -/
def added (acts : List (Act (Section α) Unit)) : List α :=
  acts.filterMap fun
    | .critical _ (.pushBack task) => some task
    | _ => none

/-- The list, `tsks` and the tasks called are those of `w`, where they are not
under way. -/
structure Agrees (s : State α) (w : Tasks.World α) : Prop where
  tasks : s.lock.flag = false → s.data = w.tasks
  loop : ¬ (s.phases 0).Holds →
    (s.locals 0).tsks = w.batch ∧ (s.locals 0).executed = w.executed.map Prod.fst
  added : added s.acts = w.added.map Prod.fst

/-! ## Acts as steps of the other model -/

structure Mirrors (acts : List (Act (Section α) Unit)) (d : List α × (Nat → Local α))
    (w : Tasks.World α) : Prop where
  running : w.running = true
  adding : w.adding = []
  tasks : d.1 = w.tasks
  tsks : (d.2 0).tsks = w.batch
  executed : (d.2 0).executed = w.executed.map Prod.fst
  added : TaskLock.added acts = w.added.map Prod.fst

theorem mirrors_pushBack {acts : List (Act (Section α) Unit)} {d : List α × (Nat → Local α)}
    {w : Tasks.World α} (h : Mirrors acts d w) (k : Nat) (task : α) :
    Mirrors (acts ++ [.critical k (.pushBack task)])
      (perform program d (.critical k (.pushBack task)))
      ([.addTask task, .push 0].foldl Tasks.step w) := by
  have hw : [.addTask task, .push 0].foldl Tasks.step w =
      { w with
        tasks := w.tasks ++ [task]
        added := w.added ++ [(task, w.round)] } := by
    rcases w with ⟨running, adding, tasks, tsks, round, added, executed⟩
    cases h.running
    cases h.adding
    rfl
  have hlocal : ((perform program d (.critical k (.pushBack task))).2 0).tsks = (d.2 0).tsks ∧
      ((perform program d (.critical k (.pushBack task))).2 0).executed = (d.2 0).executed := by
    by_cases hk : 0 = k
    · subst hk
      simp [perform, runSteps, program]
    · simp [perform, runSteps, program, Function.update_of_ne hk]
  rw [hw]
  refine ⟨h.running, h.adding, ?_, hlocal.1.trans h.tsks, hlocal.2.trans h.executed, ?_⟩
  · simp [perform, runSteps, program, h.tasks]
  · simp [TaskLock.added, ← h.added]

theorem mirrors_swap {acts : List (Act (Section α) Unit)} {d : List α × (Nat → Local α)}
    {w : Tasks.World α} (h : Mirrors acts d w) (hdone : (d.2 0).tsks = []) :
    Mirrors (acts ++ [.critical 0 .swap]) (perform program d (.critical 0 .swap))
      ([.leave, .swap].foldl Tasks.step w) := by
  have hbatch : w.batch = [] := by rw [← h.tsks, hdone]
  have hw : [.leave, .swap].foldl Tasks.step w =
      { w with tsks := some w.tasks, tasks := [], round := w.round + 1 } := by
    rcases w with ⟨running, adding, tasks, tsks, round, added, executed⟩
    cases tsks with
    | none => rfl
    | some batch =>
        have hempty : batch = [] := hbatch
        subst hempty
        rfl
  rw [hw]
  refine ⟨h.running, h.adding, ?_, ?_, ?_, ?_⟩
  · simp [perform, runSteps, program]
  · simp [perform, runSteps, program, Tasks.World.batch, h.tasks]
  · simp [perform, runSteps, program, h.executed]
  · simp [TaskLock.added, ← h.added]

theorem mirrors_execute {acts : List (Act (Section α) Unit)} {d : List α × (Nat → Local α)}
    {w : Tasks.World α} (h : Mirrors acts d w) :
    Mirrors (acts ++ [.own 0 ()]) (perform program d (.own 0 ()))
      ([.execute].foldl Tasks.step w) := by
  have hadded : TaskLock.added (acts ++ [.own 0 ()]) = TaskLock.added acts := by
    simp [TaskLock.added]
  have htsks := h.tsks
  cases hbatch : w.tsks with
  | none =>
      have hnil : (d.2 0).tsks = [] := by rw [htsks, Tasks.World.batch, hbatch]; rfl
      simp only [List.foldl_cons, List.foldl_nil, Tasks.step, hbatch]
      refine ⟨h.running, h.adding, h.tasks, ?_, ?_, hadded.trans h.added⟩
      · simp [perform, program, hnil, ← htsks]
      · simp [perform, program, hnil, h.executed]
  | some batch =>
      cases batch with
      | nil =>
          have hnil : (d.2 0).tsks = [] := by rw [htsks, Tasks.World.batch, hbatch]; rfl
          simp only [List.foldl_cons, List.foldl_nil, Tasks.step, hbatch]
          refine ⟨h.running, h.adding, h.tasks, ?_, ?_, hadded.trans h.added⟩
          · simp [perform, program, hnil, ← htsks]
          · simp [perform, program, hnil, h.executed]
      | cons task rest =>
          have hcons : (d.2 0).tsks = task :: rest := by
            rw [htsks, Tasks.World.batch, hbatch]
            rfl
          simp only [List.foldl_cons, List.foldl_nil, Tasks.step, hbatch]
          refine ⟨h.running, h.adding, h.tasks, ?_, ?_, hadded.trans h.added⟩
          · simp [perform, program, hcons, Tasks.World.batch]
          · simp [perform, program, hcons, h.executed]

/-! ## Every schedule -/

def total (s : State α) : List α × (Nat → Local α) :=
  s.acts.foldl (perform program) ([], fun _ => ⟨[], [], []⟩)

structure Linked (s : State α) : Prop where
  serial : Spin.Inv program [] (fun _ => ⟨[], [], []⟩) s
  mirrored : ∃ atomic : List (Tasks.Event α),
    Mirrors s.acts (total s) (atomic.foldl Tasks.step .init)
  /-- The loop asks for the list when it has called all of the last one. -/
  swap : ∀ k, s.phases k = .locking .swap → k = 0 ∧ (s.locals 0).tsks = []

theorem linked_create : Linked (State.create : State α) where
  serial := serial_create _ _
  mirrored := ⟨[], rfl, rfl, rfl, rfl, rfl, rfl⟩
  swap _ h := nomatch h

/-- More steps of the other model, for one more act. -/
theorem Mirrors.extend {acts : List (Act (Section α) Unit)} {d : List α × (Nat → Local α)}
    {atomic more : List (Tasks.Event α)}
    (h : Mirrors acts d (more.foldl Tasks.step (atomic.foldl Tasks.step .init))) :
    ∃ atomic : List (Tasks.Event α), Mirrors acts d (atomic.foldl Tasks.step .init) := by
  rw [← List.foldl_append] at h
  exact ⟨_, h⟩

theorem Linked.free {s : State α} (h : Linked s) (hflag : s.lock.flag = false) :
    s.data = (total s).1 ∧ s.locals = (total s).2 := by
  cases h.serial with
  | free _ _ hdata hlocals => exact ⟨hdata, hlocals⟩
  | held _ _ hset => rw [hflag] at hset; cases hset

theorem Linked.locals {s : State α} (h : Linked s) {k : Nat} (hk : ¬ (s.phases k).Holds) :
    s.locals k = (total s).2 k := by
  cases h.serial with
  | free _ _ _ hlocals => exact congrFun hlocals k
  | held holder _ _ hholder _ _ hlocals =>
      apply hlocals
      rintro rfl
      exact hk (by rw [hholder]; trivial)

theorem Linked.enter {s : State α} (h : Linked s) (hflag : s.lock.flag = false) {k : Nat}
    {i : Section α} (hk : s.phases k = .locking i) :
    Linked ({ s with lock := (testAndSet s.lock).1 }.enter program k i) := by
  have htotal : total ({ s with lock := (testAndSet s.lock).1 }.enter program k i) =
      perform program (total s) (.critical k i) := by
    simp only [total, System.enter, System.setPhase, List.foldl_append, List.foldl_cons,
      List.foldl_nil]
  constructor
  · exact h.serial.enter hflag k i
  · rcases h.mirrored with ⟨atomic, hmirror⟩
    rw [htotal]
    cases i with
    | pushBack task => exact (mirrors_pushBack hmirror k task).extend
    | swap =>
        rcases h.swap k hk with ⟨rfl, hdone⟩
        rw [(h.free hflag).2] at hdone
        exact (mirrors_swap hmirror hdone).extend
  · intro j hj
    simp only [System.enter, System.setPhase] at hj
    by_cases hjk : j = k
    · subst hjk
      rw [Function.update_self] at hj
      cases hj
    · rw [Function.update_of_ne hjk] at hj
      exact h.swap j hj

theorem Linked.quiet {s s' : State α} (h : Linked s)
    (hserial : Spin.Inv program [] (fun _ => ⟨[], [], []⟩) s') (hacts : s'.acts = s.acts)
    (hswap : ∀ k, s'.phases k = .locking .swap → k = 0 ∧ (s'.locals 0).tsks = []) :
    Linked s' where
  serial := hserial
  mirrored := by
    rw [total, hacts]
    exact h.mirrored
  swap := hswap

theorem linked_run {s : State α} (h : Linked s) (k : Nat) :
    Linked (Spin.step program s (.run k)) := by
  have hserial := Spin.inv_step h.serial (.run k)
  rw [Spin.step] at hserial ⊢
  cases hk : s.phases k with
  | outside => exact h
  | locking i =>
      cases hflag : s.lock.flag with
      | false =>
          have henter := h.enter hflag hk
          rw [runThread, testAndSet, hflag]
          exact henter
      | true =>
          rw [hk, runThread, testAndSet, hflag] at hserial
          rw [runThread, testAndSet, hflag]
          exact h.quiet hserial rfl h.swap
  | inside rest =>
      cases rest with
      | nil =>
          rw [hk] at hserial
          refine h.quiet hserial rfl ?_
          intro j hj
          simp only [runThread, System.setPhase] at hj ⊢
          by_cases hjk : j = k
          · subst hjk
            rw [Function.update_self] at hj
            cases hj
          · rw [Function.update_of_ne hjk] at hj
            exact h.swap j hj
      | cons micro rest =>
          rw [hk] at hserial
          refine h.quiet hserial rfl ?_
          intro j hj
          simp only [runThread, System.setPhase] at hj ⊢
          by_cases hjk : j = k
          · subst hjk
            rw [Function.update_self] at hj
            cases hj
          · rw [Function.update_of_ne hjk] at hj
            rcases h.swap j hj with ⟨rfl, hdone⟩
            rw [Function.update_of_ne hjk]
            exact ⟨rfl, hdone⟩

theorem linked_lock {s : State α} (h : Linked s) (k : Nat) {i : Section α}
    (hi : i = .swap → k = 0 ∧ (s.locals 0).tsks = []) :
    Linked (Spin.step program s (.lock k i)) := by
  have hserial := Spin.inv_step h.serial (.lock k i)
  cases hk : s.phases k with
  | outside =>
      rw [Spin.step, hk] at hserial ⊢
      refine h.quiet hserial rfl ?_
      intro j hj
      simp only [System.setPhase] at hj ⊢
      by_cases hjk : j = k
      · subst hjk
        rw [Function.update_self] at hj
        cases hj
        exact hi rfl
      · rw [Function.update_of_ne hjk] at hj
        exact h.swap j hj
  | locking _ =>
      rw [Spin.step, hk]
      exact h
  | inside _ =>
      rw [Spin.step, hk]
      exact h

theorem linked_own {s : State α} (h : Linked s) :
    Linked (Spin.step program s (.own 0 ())) := by
  have hserial := Spin.inv_step h.serial (.own 0 ())
  cases hk : s.phases 0 with
  | outside =>
      rw [Spin.step, hk] at hserial ⊢
      rcases h.mirrored with ⟨atomic, hmirror⟩
      refine ⟨hserial, ?_, ?_⟩
      · rw [total, List.foldl_append]
        exact (mirrors_execute hmirror).extend
      · intro j hj
        rcases h.swap j hj with ⟨rfl, hdone⟩
        rw [hk] at hj
        cases hj
  | locking _ =>
      rw [Spin.step, hk]
      exact h
  | inside _ =>
      rw [Spin.step, hk]
      exact h

theorem linked_step (s : State α) (e : Event α) (h : Linked s) : Linked (step s e) := by
  cases e with
  | addTask k task => exact linked_lock h k nofun
  | processTask =>
      rw [step]
      split
      · rename_i hdone
        exact linked_lock h 0 fun _ => ⟨rfl, hdone⟩
      · exact h
  | execute => exact linked_own h
  | run k => exact linked_run h k

/-- Under every schedule of the loads and stores of any number of threads, the
task list is, at every moment, one that the calls leave when each runs whole, in
the order in which they won the lock, and in that order each task is called once. -/
theorem taskLock_refines (events : List (Event α)) :
    Always step
      (fun s =>
        (∃ atomic : List (Tasks.Event α), Agrees s (atomic.foldl Tasks.step .init)) ∧
          (s.lock.flag = false →
            (s.locals 0).executed ++ (s.locals 0).tsks ++ s.data = added s.acts))
      State.create events := by
  have hlinked := always_of_step (P := Linked) linked_step (linked_create (α := α)) events
  apply hlinked.mono
  intro s h
  rcases h.mirrored with ⟨atomic, hmirror⟩
  constructor
  · refine ⟨atomic, ?_, ?_, hmirror.added⟩
    · intro hflag
      rw [(h.free hflag).1, hmirror.tasks]
    · intro hloop
      rw [h.locals hloop]
      exact ⟨hmirror.tsks, hmirror.executed⟩
  · intro hflag
    have hstep : ∀ (w : Tasks.World α) (e : Tasks.Event α),
        Tasks.Inv w.view → Tasks.Inv (Tasks.step w e).view :=
      fun _ e hw => Tasks.inv_step hw e
    have horder : Tasks.Inv (atomic.foldl Tasks.step (.init : Tasks.World α)).view :=
      foldl_of_step (P := fun w : Tasks.World α => Tasks.Inv w.view) hstep Tasks.inv_init atomic
    rw [(h.free hflag).1, (h.free hflag).2, hmirror.tasks, hmirror.tsks, hmirror.executed,
      hmirror.added]
    exact horder.order

end NetTest.EventLoop.TaskLock
