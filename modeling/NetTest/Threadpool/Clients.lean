import NetTest.Threadpool.Model

/-!
# The executor and its clients

`add_task`, `rmv_task` and `stop` run on the threads of the clients, one step
for every point where the loop thread can come in between: the operation is
pushed under the lock, the call may wait for its acknowledgement, the wait ends
with the value of the future or by its timeout.  The loop thread takes the
queued operations, performs them one by one and calls the tasks one by one.

`process_rmv` and `process_clr` delete contexts that others still point to.  A
read of the id of a deleted context gives an arbitrary value, which is part of
the event where it happens.
-/

namespace NetTest.Threadpool

/-- `BatchSynchronizer::wait` creates the entry it waits on. -/
def BatchSynchronizer.touch (b : BatchSynchronizer) (id : Int) : BatchSynchronizer :=
  match b.syncList id with
  | some _ => b
  | none => ⟨Function.update b.syncList id (some ⟨none⟩)⟩

def BatchSynchronizer.ack (b : BatchSynchronizer) (id : Int) : BatchSynchronizer :=
  (b.notify id true).1

namespace Clients

/-! ## The state -/

inductive Request where
  | add (async : Bool)
  | rmv (stale : Int)
  | stop
  deriving DecidableEq

def Request.isAdd : Request → Bool
  | .add _ => true
  | .rmv _ | .stop => false

def Request.isRmv : Request → Bool
  | .rmv _ => true
  | .add _ | .stop => false

/-- Where a call stands.  `halted` is `stop` after it has cleared `running_`, and
`mark` is the number of tasks that had been called when the call returned. -/
inductive Pc where
  | begun
  | pushed
  | halted
  | waiting (id : Int)
  | returned (value : Bool) (mark : Nat)
  | raised
  deriving DecidableEq

structure Call where
  request : Request
  context : TaskContext
  pc : Pc
  deriving DecidableEq

inductive LoopPc where
  | idle
  | ops (rest : List TaskOp)
  | calling (i : Nat)

structure World where
  exec : Executor
  loop : LoopPc
  taskOps : List TaskOp
  /-- `id_` of the synchronizer. -/
  nextId : Int
  running : Bool
  callList : List Call
  /-- The ids whose future has been consumed by `get`. -/
  gets : List Int
  /-- The ids `notify` was called with. -/
  notified : List Int
  /-- The ids of the contexts that have been deleted. -/
  freed : List Int
  /-- The ids whose `process_rmv` has been carried out. -/
  performed : List Int
  /-- The contexts whose task was called, in order. -/
  invoked : List TaskContext

def World.init : World where
  exec := create
  loop := .idle
  taskOps := []
  nextId := 0
  running := true
  callList := []
  gets := []
  notified := []
  freed := []
  performed := []
  invoked := []

/-- What reading `context->id` gives. -/
def World.idOf (w : World) (context : TaskContext) (stale : Int) : Int :=
  if context.id ∈ w.freed then stale else context.id

/-! ## The clients -/

def Call.op (c : Call) : TaskOp :=
  match c.request with
  | .add _ => .add c.context
  | .rmv stale => .rmv c.context stale
  | .stop => .clr c.context

def World.setPc (w : World) (k : Nat) (c : Call) (pc : Pc) : World :=
  { w with callList := w.callList.set k { c with pc := pc } }

/-- `add_task` and `stop` fetch an id for the context they create. -/
def World.fetch (w : World) (request : Request) (task : Nat) : World :=
  { w with
    nextId := w.nextId + 1
    callList := w.callList ++ [⟨request, ⟨w.nextId + 1, task⟩, .begun⟩] }

def World.enterWait (w : World) (k : Nat) (c : Call) (id : Int) : World :=
  { w with exec := { w.exec with syncer := w.exec.syncer.touch id } }.setPc k c (.waiting id)

/-- The end of `Synchronizer::wait`: a consumed future raises, a value is taken
out, and without a value the wait has timed out. -/
def World.endWait (w : World) (k : Nat) (c : Call) (id : Int) : World :=
  if id ∈ w.gets then w.setPc k c .raised
  else
    match w.exec.syncer.syncList id with
    | some ⟨some v⟩ =>
        { w with gets := id :: w.gets }.setPc k c (.returned v w.invoked.length)
    | some ⟨none⟩ | none => w.setPc k c (.returned false w.invoked.length)

def World.runCall (w : World) (k : Nat) (c : Call) (stale : Int) : World :=
  match c.pc with
  | .begun => { w with taskOps := w.taskOps ++ [c.op] }.setPc k c .pushed
  | .pushed =>
      match c.request with
      | .add true => w.setPc k c (.returned true w.invoked.length)
      | .add false | .rmv _ => w.enterWait k c (w.idOf c.context stale)
      | .stop => { w with running := false }.setPc k c .halted
  | .halted => w.enterWait k c (w.idOf c.context stale)
  | .waiting id => w.endWait k c id
  | .returned _ _ | .raised => w

/-! ## The loop thread -/

/-- The ids `process_clr` deletes and acknowledges from slot `i` on. -/
def clearAcks (e : Executor) (i : Nat) : Nat → List Int
  | 0 => []
  | count + 1 =>
      match e.tasks.getD i none with
      | none => []
      | some c =>
          let e := notify { e with tasks := e.tasks.set i none } c.id
          if e.status = .running then c.id :: clearAcks e (i + 1) count else [c.id]

def deletes (e : Executor) : TaskOp → List Int
  | .add _ => []
  | .rmv context _ =>
      match findId context.id (e.tasks.take e.taskSize) with
      | some (some _) => [context.id]
      | some none | none => []
  | .clr _ => clearAcks e 0 e.taskSize

/-- The ids an operation calls `notify` with. -/
def acks (e : Executor) : TaskOp → List Int
  | .add context => [context.id]
  | .rmv context stale =>
      match findId context.id (e.tasks.take e.taskSize) with
      | some (some _) => [stale]
      | some none | none => []
  | .clr context =>
      clearAcks e 0 e.taskSize ++
        if (clearSlots e 0 e.taskSize).status = .running then [context.id] else []

def World.readOp (w : World) : TaskOp → TaskOp
  | .rmv context stale => .rmv ⟨w.idOf context stale, context.task⟩ stale
  | .add context => .add context
  | .clr context => .clr context

def removes (e : Executor) : TaskOp → List Int
  | .rmv context _ => if e.status = .crashed then [] else [context.id]
  | .add _ | .clr _ => []

/-- One operation of the batch.  An exception leaves `process_task`, and the rest
of the batch with it. -/
def World.perform (w : World) (op : TaskOp) (rest : List TaskOp) : World :=
  let e := processOp w.exec (w.readOp op)
  { w with
    exec := e
    loop := if e.status = .running then .ops rest else .idle
    notified := w.notified ++ acks w.exec (w.readOp op)
    freed := w.freed ++ deletes w.exec (w.readOp op)
    performed := w.performed ++ removes e op }

def World.callTask (w : World) (i : Nat) : World :=
  if i < w.exec.taskSize then
    match w.exec.tasks.getD i none with
    | none => { w with exec := { w.exec with status := .crashed } }
    | some c => { w with invoked := w.invoked ++ [c], loop := .calling (i + 1) }
  else { w with loop := .idle }

/-- The next step of the loop thread.  Rounds start while `running_` is set. -/
def World.runLoop (w : World) : World :=
  if w.exec.status = .crashed then w
  else
    match w.loop with
    | .idle =>
        if w.running then
          { w with exec := beginRound w.exec, loop := .ops w.taskOps, taskOps := [] }
        else w
    | .ops [] => { w with loop := .calling 0 }
    | .ops (op :: rest) => w.perform op rest
    | .calling i => w.callTask i

/-! ## Runs -/

/-- A client calls `add_task`, `rmv_task` or `stop`, a call takes its next step,
or the loop thread does. -/
inductive Event where
  | addTask (task : Nat) (async : Bool)
  | rmvTask (context : Option TaskContext) (stale : Int)
  | stop
  | run (k : Nat) (stale : Int)
  | loop

def step (w : World) : Event → World
  | .addTask task async => w.fetch (.add async) task
  | .rmvTask none _ => w
  | .rmvTask (some context) stale =>
      { w with callList := w.callList ++ [⟨.rmv stale, context, .begun⟩] }
  | .stop => w.fetch .stop 0
  | .run k stale =>
      match w.callList[k]? with
      | none => w
      | some c => w.runCall k c stale
  | .loop => w.runLoop

/-- The operations on their way to the table: those of the batch at hand, then
those still queued. -/
def World.pending (w : World) : List TaskOp :=
  match w.loop with
  | .ops rest => rest ++ w.taskOps
  | .idle | .calling _ => w.taskOps

/-! ## What the steps do -/

theorem step_run {w : World} {k : Nat} {c : Call} (h : w.callList[k]? = some c) (stale : Int) :
    step w (.run k stale) = w.runCall k c stale := by
  simp only [step, h]

/-- A step of a thread is a step of the call it is in; without one nothing happens. -/
theorem step_run_rule {P : World → Prop} {w : World} (h : P w) (k : Nat) (stale : Int)
    (hrun : ∀ c, w.callList[k]? = some c → P (w.runCall k c stale)) :
    P (step w (.run k stale)) := by
  cases hk : w.callList[k]? with
  | none =>
      simp only [step, hk]
      exact h
  | some c =>
      rw [step_run hk]
      exact hrun c hk

theorem pending_push (w : World) (k : Nat) (c : Call) (pc : Pc) :
    ({ w with taskOps := w.taskOps ++ [c.op] }.setPc k c pc).pending = w.pending ++ [c.op] := by
  simp only [World.pending, World.setPc]
  split <;> simp

/-- The batch goes on only after an operation that did not raise. -/
theorem perform_running {w : World} {op : TaskOp} {rest rest' : List TaskOp}
    (h : (w.perform op rest).loop = .ops rest') :
    (w.perform op rest).exec.status = .running := by
  simp only [World.perform] at h ⊢
  split at h
  · assumption
  · cases h

theorem idOf_of_freed_nil {w : World} (h : w.freed = []) (context : TaskContext) (stale : Int) :
    w.idOf context stale = context.id := by
  simp [World.idOf, h]

/-- What a step over the table can be: the slot is empty, its task is called, or the
round is over. -/
theorem callTask_rule {P : World → Prop} {w : World} {i : Nat}
    (hempty : P { w with exec := { w.exec with status := .crashed } })
    (hslot : ∀ c, w.exec.tasks.getD i none = some c →
      P { w with invoked := w.invoked ++ [c], loop := .calling (i + 1) })
    (hover : P { w with loop := .idle }) : P (w.callTask i) := by
  unfold World.callTask
  split
  · split
    · exact hempty
    · rename_i c hc
      exact hslot c hc
  · exact hover

/-- What a step of the loop thread can be: a round begins, the batch is done, an
operation of it is performed, or the table is gone through. -/
theorem runLoop_rule {P : World → Prop} {w : World} (h : P w)
    (hround : w.exec.status ≠ .crashed → w.loop = .idle →
      P { w with exec := beginRound w.exec, loop := .ops w.taskOps, taskOps := [] })
    (hdone : w.loop = .ops [] → P { w with loop := .calling 0 })
    (hperform : ∀ op rest, w.loop = .ops (op :: rest) → P (w.perform op rest))
    (hcall : ∀ i, w.loop = .calling i → P (w.callTask i)) : P w.runLoop := by
  unfold World.runLoop
  split
  · exact h
  · rename_i hcrash
    split
    · rename_i hloop
      split
      · exact hround hcrash hloop
      · exact h
    · rename_i hloop
      exact hdone hloop
    · rename_i op rest hloop
      exact hperform op rest hloop
    · rename_i i hloop
      exact hcall i hloop

theorem runLoop_calls (w : World) :
    w.runLoop.callList = w.callList ∧ w.runLoop.gets = w.gets ∧ w.runLoop.nextId = w.nextId := by
  apply runLoop_rule (P := fun w' =>
    w'.callList = w.callList ∧ w'.gets = w.gets ∧ w'.nextId = w.nextId)
  · exact ⟨rfl, rfl, rfl⟩
  · exact fun _ _ => ⟨rfl, rfl, rfl⟩
  · exact fun _ => ⟨rfl, rfl, rfl⟩
  · exact fun _ _ _ => ⟨rfl, rfl, rfl⟩
  · intro i _
    apply callTask_rule (P := fun w' =>
      w'.callList = w.callList ∧ w'.gets = w.gets ∧ w'.nextId = w.nextId)
    · exact ⟨rfl, rfl, rfl⟩
    · exact fun _ _ => ⟨rfl, rfl, rfl⟩
    · exact ⟨rfl, rfl, rfl⟩

/-- A search that stops has found the id. -/
theorem findId_some {id : Int} {slots : List (Option TaskContext)} {i : Nat}
    (h : findId id slots = some (some i)) : ∃ c, slots[i]? = some (some c) ∧ c.id = id := by
  induction slots generalizing i with
  | nil => simp [findId] at h
  | cons o slots ih =>
      cases o with
      | none => simp [findId] at h
      | some c =>
          rw [findId] at h
          split at h
          · rename_i hc
            cases h
            exact ⟨c, rfl, hc⟩
          · rcases Option.map_eq_some_iff.mp h with ⟨found, hfound, hi⟩
            rcases Option.map_eq_some_iff.mp hi with ⟨j, hj, hij⟩
            rw [hj] at hfound
            cases hij
            exact ih hfound

theorem findId_none {id : Int} {slots : List (Option TaskContext)}
    (h : findId id slots = some none) : ∀ o ∈ slots, ∃ c, o = some c ∧ c.id ≠ id := by
  induction slots with
  | nil => simp
  | cons o slots ih =>
      cases o with
      | none => simp [findId] at h
      | some c =>
          rw [findId] at h
          split at h
          · cases h
          · rename_i hc
            rcases Option.map_eq_some_iff.mp h with ⟨found, hfound, hnone⟩
            rw [Option.map_eq_none_iff] at hnone
            rw [hnone] at hfound
            intro o ho
            rcases List.mem_cons.mp ho with heq | hmem
            · exact ⟨c, heq, hc⟩
            · exact ih hfound o hmem

/-! ## The acknowledgements of an operation -/

theorem clearSlots_syncer (e : Executor) (i count : Nat) :
    (clearSlots e i count).syncer = (clearAcks e i count).foldl BatchSynchronizer.ack e.syncer := by
  induction count generalizing e i with
  | zero => rfl
  | succ count ih =>
      simp only [clearSlots, clearAcks]
      cases e.tasks.getD i none with
      | none => rfl
      | some c =>
          simp only
          split
          · rw [ih]
            rfl
          · rfl

/-- `acks` lists the calls of `notify`: they are all that happens to the
synchronizer. -/
theorem processOp_syncer {e : Executor} (h : e.status = .running) (op : TaskOp) :
    (processOp e op).syncer = (acks e op).foldl BatchSynchronizer.ack e.syncer := by
  simp only [processOp, if_pos h]
  cases op with
  | add context => rfl
  | rmv context stale =>
      simp only [processRmv, acks]
      cases findId context.id (e.tasks.take e.taskSize) with
      | none => rfl
      | some found =>
          cases found with
          | none => rfl
          | some i => rfl
  | clr context =>
      simp only [processClr, acks, List.foldl_append, ← clearSlots_syncer]
      split
      · rfl
      · rfl

end Clients

end NetTest.Threadpool
