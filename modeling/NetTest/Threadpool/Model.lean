import Mathlib.Logic.Function.Basic

/-!
# The executor thread

`executor.cpp` as the loop thread runs it.  A round of `process_task` takes the
batch of operations the clients have queued, performs them in order and then
calls every task of the table.

Acknowledgements go through `BatchSynchronizer::notify`, which raises when the
promise of an id has already been satisfied.  An exception leaves the table as
it is and ends the round: the rest of the batch is dropped and the tasks are not
called.  `status` records that, and `crashed` stands for a dereferenced null
slot.
-/

namespace NetTest.Threadpool

/-- One entry of `sync_list_`: the value of its promise, once it has one. -/
structure Synchronizer where
  value : Option Bool

structure BatchSynchronizer where
  syncList : Int → Option Synchronizer

/-- `notify`: the entry is created on first use.  The second component is true
when `set_value` raises, which leaves everything as it was. -/
def BatchSynchronizer.notify (b : BatchSynchronizer) (id : Int) (v : Bool) :
    BatchSynchronizer × Bool :=
  match b.syncList id with
  | some ⟨some _⟩ => (b, true)
  | some ⟨none⟩ | none => (⟨Function.update b.syncList id (some ⟨some v⟩)⟩, false)

/-- `task_context_t`: the id handed out by `fetch_id` and the closure. -/
structure TaskContext where
  id : Int
  task : Nat
  deriving DecidableEq, Repr

inductive Status where
  | running
  | unwinding
  | crashed
  deriving DecidableEq

structure Executor where
  tasks : List (Option TaskContext)
  cap : Nat
  taskSize : Nat
  syncer : BatchSynchronizer
  status : Status
  /-- The contexts whose task the last run phase called, in order. -/
  called : List TaskContext

/-- `Executor::Executor`: `cap_` is 256 and the table starts with that many null
slots. -/
def create : Executor where
  tasks := List.replicate 256 none
  cap := 256
  taskSize := 0
  syncer := ⟨fun _ => none⟩
  status := .running
  called := []

def notify (e : Executor) (id : Int) : Executor :=
  let r := e.syncer.notify id true
  { e with syncer := r.1, status := if r.2 then .unwinding else e.status }

def processAdd (e : Executor) (context : TaskContext) : Executor :=
  let tasks :=
    if e.taskSize < e.cap then e.tasks.set e.taskSize (some context)
    else e.tasks ++ [some context]
  notify { e with tasks := tasks, taskSize := e.taskSize + 1 } context.id

/-- The search loop of `process_rmv` over the counted slots: `none` when it
dereferences a null slot, otherwise the first slot with the id. -/
def findId (id : Int) : List (Option TaskContext) → Option (Option Nat)
  | [] => some none
  | none :: _ => none
  | some c :: rest =>
      if c.id = id then some (some 0) else (findId id rest).map (·.map (· + 1))

/-- `stale` is what the acknowledgement reads as `context->id`: the context has
just been deleted, so the value in its place is arbitrary. -/
def processRmv (e : Executor) (context : TaskContext) (stale : Int) : Executor :=
  match findId context.id (e.tasks.take e.taskSize) with
  | none => { e with status := .crashed }
  | some none => e
  | some (some i) =>
      let last := e.taskSize - 1
      let swapped := (e.tasks.set i (e.tasks.getD last none)).set last (e.tasks.getD i none)
      notify { e with tasks := swapped.set last none, taskSize := e.taskSize - 1 } stale

/-- The loop of `process_clr` from slot `i` on, for `count` more slots. -/
def clearSlots (e : Executor) (i : Nat) : Nat → Executor
  | 0 => e
  | count + 1 =>
      match e.tasks.getD i none with
      | none => { e with status := .crashed }
      | some c =>
          let e := notify { e with tasks := e.tasks.set i none } c.id
          if e.status = .running then clearSlots e (i + 1) count else e

def processClr (e : Executor) (context : TaskContext) : Executor :=
  let e := clearSlots e 0 e.taskSize
  if e.status = .running then notify e context.id else e

/-- `task_operator_t`. -/
inductive TaskOp where
  | add (context : TaskContext)
  | rmv (context : TaskContext) (stale : Int)
  | clr (context : TaskContext)

/-- One iteration of the operation loop; after an exception the remaining
iterations do not happen. -/
def processOp (e : Executor) (op : TaskOp) : Executor :=
  if e.status = .running then
    match op with
    | .add context => processAdd e context
    | .rmv context stale => processRmv e context stale
    | .clr context => processClr e context
  else e

/-- The calls of the run phase, or `none` when it meets a null slot. -/
def calls (e : Executor) : Option (List TaskContext) := (e.tasks.take e.taskSize).mapM id

def runPhase (e : Executor) : Executor :=
  if e.status = .running then
    match calls e with
    | none => { e with status := .crashed }
    | some called => { e with called := called }
  else e

/-- Entering `process_task`: nothing of an exception of an earlier round is
left but what it did to the table. -/
def beginRound (e : Executor) : Executor :=
  if e.status = .crashed then e else { e with status := .running, called := [] }

def processTask (e : Executor) (batch : List TaskOp) : Executor :=
  runPhase (batch.foldl processOp (beginRound e))

end NetTest.Threadpool
