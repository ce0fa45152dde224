import NetTest.Basic.AsyncResultSyncer.Model
import NetTest.Lib.Mailbox

/-!
# Calls one after another

A `SyncPair` used by one call at a time is a map of mailboxes: `notify` is a
`put`, `wait_for` a `take`.  The entry of an id is an empty box, a box with an
undelivered value, or absent; the two flags agree with the promise between
calls, which is why nothing is raised and a delivered entry is removed.
-/

namespace NetTest.SyncPair

open Mailbox (Op)

variable {T : Type}

structure Session (T : Type) where
  map : SyncMap T
  log : Mailbox.Log Int T
  /-- A call has raised or has not returned. -/
  failed : Bool

def Session.start : Session T := ⟨fun _ => none, [], false⟩

/-- `put` is a call of `notify`, `take` one of `wait_for`. -/
def call (m : SyncMap T) : Op Int T → Except Fault (SyncMap T × Option T)
  | .put id data => do return (← notify m id data, none)
  | .take id => waitFor m id

def Session.step (s : Session T) (op : Op Int T) : Session T :=
  match call s.map op with
  | .ok (map, out) => { s with map := map, log := s.log ++ [(op, out)] }
  | .error _ => { s with failed := true }

def Session.run (ops : List (Op Int T)) : Session T := ops.foldl Session.step Session.start

/-! ## Entries between calls -/

def entry (value : Option T) : SyncData T := ⟨value, false, value.isSome, false⟩

/-- An empty box may have an entry left by a wait that timed out. -/
def Holds (m : SyncMap T) (box : Int → Option T) : Prop :=
  ∀ id, m id = some (entry (box id)) ∨ m id = none ∧ box id = none

theorem Holds.getSyncData {m : SyncMap T} {box : Int → Option T} (h : Holds m box) (id : Int) :
    getSyncData m id = entry (box id) := by
  rcases h id with hentry | ⟨hnone, hempty⟩
  · rw [SyncPair.getSyncData, hentry]
    rfl
  · rw [SyncPair.getSyncData, hnone, hempty]
    rfl

theorem Holds.create {m : SyncMap T} {box : Int → Option T} (h : Holds m box) (id : Int) :
    Holds (createSyncData m id) box := by
  unfold createSyncData
  cases hentry : m id with
  | some d => exact h
  | none =>
      intro id'
      by_cases hid : id' = id
      · subst hid
        rcases h id' with hsome | ⟨_, hempty⟩
        · rw [hentry] at hsome
          cases hsome
        · left
          dsimp only
          rw [Function.update_self, hempty]
          rfl
      · dsimp only
        rw [Function.update_of_ne hid]
        exact h id'

theorem Holds.update {m : SyncMap T} {box : Int → Option T} (h : Holds m box) {id : Int}
    {d : Option (SyncData T)} {value : Option T}
    (hd : d = some (entry value) ∨ d = none ∧ value = none) :
    Holds (Function.update m id d) (Function.update box id value) := by
  intro id'
  by_cases hid : id' = id
  · subst hid
    rw [Function.update_self, Function.update_self]
    exact hd
  · rw [Function.update_of_ne hid, Function.update_of_ne hid]
    exact h id'

theorem set_entry (value : Option T) (data : T) :
    (entry value).set data = .ok (entry (value.or (some data))) := by
  cases value with
  | none => rfl
  | some v => rfl

theorem Holds.notify {m : SyncMap T} {box : Int → Option T} (h : Holds m box) (id : Int)
    (data : T) :
    ∃ m', notify m id data = .ok m' ∧
      Holds m' (Function.update box id ((box id).or (some data))) := by
  have hcreate := h.create id
  refine ⟨_, ?_, hcreate.update (.inl rfl)⟩
  unfold SyncPair.notify
  dsimp only
  rw [hcreate.getSyncData, set_entry]
  rfl

theorem removeSyncData_done (m : SyncMap T) (id : Int) {d : SyncData T} (hd : d.isDone = true) :
    removeSyncData (Function.update m id (some d)) id = Function.update m id none := by
  unfold removeSyncData
  rw [Function.update_self]
  dsimp only
  rw [if_pos hd, Function.update_idem]

theorem Holds.waitFor {m : SyncMap T} {box : Int → Option T} (h : Holds m box) (id : Int) :
    ∃ m', waitFor m id = .ok (m', box id) ∧ Holds m' (Function.update box id none) := by
  have hcreate := h.create id
  unfold SyncPair.waitFor
  dsimp only
  rw [hcreate.getSyncData]
  cases hbox : box id with
  | none =>
      refine ⟨_, rfl, ?_⟩
      exact hcreate.update (.inl rfl)
  | some v =>
      refine ⟨_, rfl, ?_⟩
      rw [removeSyncData_done _ _ rfl, Function.update_idem]
      exact hcreate.update (.inr ⟨rfl, rfl⟩)

/-! ## Whole sessions -/

structure Simulates (s : Session T) (boxes : Mailbox.State Int T) : Prop where
  holds : Holds s.map boxes.box
  log_eq : s.log = boxes.log
  returned : s.failed = false

theorem Simulates.step {s : Session T} {boxes : Mailbox.State Int T} (h : Simulates s boxes)
    (op : Op Int T) : Simulates (s.step op) (Mailbox.step boxes op) := by
  unfold Session.step
  cases op with
  | put id data =>
      obtain ⟨m', hnotify, hholds⟩ := h.holds.notify id data
      have hcall : call s.map (.put id data) = .ok (m', none) := by
        rw [call, hnotify]
        rfl
      rw [hcall]
      exact ⟨hholds, congrArg (· ++ [(Op.put id data, none)]) h.log_eq, h.returned⟩
  | take id =>
      obtain ⟨m', hwait, hholds⟩ := h.holds.waitFor id
      have hcall : call s.map (.take id) = .ok (m', boxes.box id) := hwait
      rw [hcall]
      exact ⟨hholds, congrArg (· ++ [(Op.take id, boxes.box id)]) h.log_eq, h.returned⟩

theorem simulates_run (ops : List (Op Int T)) : Simulates (Session.run ops) (Mailbox.run ops) := by
  have hfold : ∀ {s : Session T} {boxes : Mailbox.State Int T}, Simulates s boxes →
      Simulates (ops.foldl Session.step s) (ops.foldl Mailbox.step boxes) := by
    intro s boxes h
    induction ops generalizing s boxes with
    | nil => exact h
    | cons op ops ih => exact ih (h.step op)
  exact hfold ⟨fun _ => .inr ⟨rfl, rfl⟩, rfl, rfl⟩

/-- Every call returns; a wait delivers the first value notified since the last
delivery, or times out when there is none; calls on other ids do not matter; and
no entry is left whose value has been delivered. -/
structure IsMailboxMap (ops : List (Op Int T)) : Prop where
  returned : (Session.run ops).failed = false
  logged : (Session.run ops).log.map Prod.fst = ops
  waits : ∀ before id out after, (Session.run ops).log = before ++ (.take id, out) :: after →
    out = Mailbox.pending id before
  independent : ∀ id, (Session.run (ops.filter fun op => op.key = id)).log =
    (Session.run ops).log.filter fun e => e.1.key = id
  delivered : ∀ id d, (Session.run ops).map id = some d → d.taken = false ∧ d.isGet = false

theorem syncPair_mailboxes (ops : List (Op Int T)) : IsMailboxMap ops := by
  have h := simulates_run ops
  constructor
  · exact h.returned
  · rw [h.log_eq]
    exact Mailbox.log_run ops
  · intro before id out after hlog
    rw [h.log_eq] at hlog
    exact Mailbox.take_run ops hlog
  · intro id
    rw [(simulates_run _).log_eq, h.log_eq]
    exact (Mailbox.run_filter ops id).2
  · intro id d hd
    rcases h.holds id with hentry | ⟨hnone, _⟩
    · rw [hentry] at hd
      cases hd
      exact ⟨rfl, rfl⟩
    · rw [hnone] at hd
      cases hd

/-- A late second value, a wait that times out and an id that is used again. -/
example : (Session.run [.take 7, .put 7 1, .put 8 5, .put 7 2, .take 7, .take 7, .put 7 3,
    .take 7] : Session Nat).log.filterMap Prod.snd = [1, 3] := by decide

end NetTest.SyncPair
