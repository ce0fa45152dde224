import Mathlib.Logic.Function.Basic

/-!
# Pairs of a notification and a wait

`SyncPair` of `async_result_syncer.h`: a map from ids to a promise with its
future and two flags.  Both sides create the entry, the notifier sets the
promise, and the waiter reads the future and removes the entry when both flags
are set.
-/

namespace NetTest.SyncPair

variable {T : Type}

structure SyncData (T : Type) where
  /-- The value of `setter_`. -/
  value : Option T
  /-- `getter_` has been read and is not valid any more. -/
  taken : Bool
  isSet : Bool
  isGet : Bool

def SyncData.new : SyncData T := ⟨none, false, false, false⟩

/-- What the library raises: the promise has a value already, the future has
none left to wait for; `get` without a value does not return. -/
inductive Fault where
  | promiseAlreadySatisfied
  | noState
  | blocked

namespace SyncData

def valid (d : SyncData T) : Bool := !d.taken

def setValue (d : SyncData T) (data : T) : Except Fault (SyncData T) :=
  match d.value with
  | some _ => .error .promiseAlreadySatisfied
  | none => .ok { d with value := some data }

/-- `getter_.get()`. -/
def take (d : SyncData T) : Except Fault (SyncData T × T) :=
  if d.taken then .error .noState
  else
    match d.value with
    | some data => .ok ({ d with taken := true }, data)
    | none => .error .blocked

def set (d : SyncData T) (data : T) : Except Fault (SyncData T) :=
  if d.valid && !d.isSet then do
    let d ← d.setValue data
    return { d with isSet := true }
  else return d

/-- The value, unless the call returns false. -/
def get (d : SyncData T) : Except Fault (SyncData T × Option T) :=
  if d.valid && !d.isGet then do
    let (d, data) ← d.take
    return ({ d with isGet := true }, some data)
  else return (d, none)

/-- `wait_for` returns ready.  With nobody else running, the value does not come
during the wait. -/
def waitFor (d : SyncData T) : Except Fault Bool :=
  if d.taken then .error .noState else .ok d.value.isSome

def isDone (d : SyncData T) : Bool := d.isSet && d.isGet

end SyncData

/-- `sync_data_map_`. -/
abbrev SyncMap (T : Type) := Int → Option (SyncData T)

def createSyncData (m : SyncMap T) (id : Int) : SyncMap T :=
  match m id with
  | some _ => m
  | none => Function.update m id (some .new)

def removeSyncData (m : SyncMap T) (id : Int) : SyncMap T :=
  match m id with
  | none => m
  | some d => if d.isDone then Function.update m id none else m

/-- The entry that `sync_data_map_[id]` refers to; it is created when missing. -/
def getSyncData (m : SyncMap T) (id : Int) : SyncData T := (m id).getD .new

def notify (m : SyncMap T) (id : Int) (data : T) : Except Fault (SyncMap T) := do
  let m := createSyncData m id
  let d ← (getSyncData m id).set data
  return Function.update m id (some d)

def waitFor (m : SyncMap T) (id : Int) : Except Fault (SyncMap T × Option T) := do
  let m := createSyncData m id
  let d := getSyncData m id
  let m := Function.update m id (some d)
  if ← d.waitFor then
    let (d, ret) ← d.get
    return (removeSyncData (Function.update m id (some d)) id, ret)
  else return (m, none)

end NetTest.SyncPair
