import Mathlib.Logic.Function.Iterate
import NetTest.Basic.AsyncResultSyncer.Model
import NetTest.Lib.Runs

/-!
# One notification and one wait at the same time

The steps of `notify` and `wait_for` on one id, in any order, with any traffic on
other ids.  `set_value` releases the waiter before the notifier stores `is_set_`,
and the waiter removes the entry only when it finds both flags, so the order of
these two steps decides whether the entry stays behind.
-/

namespace NetTest.SyncPair

open Runs

variable {T : Type}

inductive NotifierPc where
  | create
  | getRef
  | check
  | setValue
  | storeSet
  | returned
  | faulted
  deriving DecidableEq

/-- From `storeGet` on the waiter has the value it will return. -/
inductive WaiterPc (T : Type) where
  | create
  | getRef
  | waitFor
  | check
  | take
  | storeGet (data : T)
  | remove (ret : Option T)
  | returned (ret : Option T)
  | faulted

structure World (T : Type) where
  map : SyncMap T
  notifier : NotifierPc
  waiter : WaiterPc T

/-- No entry for the id; `others` are the entries of the other ids. -/
def World.start (id : Int) (others : SyncMap T) : World T :=
  ⟨Function.update others id none, .create, .create⟩

/-- A step through the reference to the entry; it dangles when the entry has been
erased. -/
def World.notifierAt (w : World T) (id : Int) (f : SyncData T → World T) : World T :=
  match w.map id with
  | some d => f d
  | none => { w with notifier := .faulted }

def World.waiterAt (w : World T) (id : Int) (f : SyncData T → World T) : World T :=
  match w.map id with
  | some d => f d
  | none => { w with waiter := .faulted }

def notifierStep (id : Int) (v : T) (w : World T) : World T :=
  match w.notifier with
  | .create => { w with map := createSyncData w.map id, notifier := .getRef }
  | .getRef =>
      { w with map := Function.update w.map id (some (getSyncData w.map id)), notifier := .check }
  | .check =>
      w.notifierAt id fun d =>
        { w with notifier := if d.valid && !d.isSet then .setValue else .returned }
  | .setValue =>
      w.notifierAt id fun d =>
        match d.setValue v with
        | .ok d => { w with map := Function.update w.map id (some d), notifier := .storeSet }
        | .error _ => { w with notifier := .faulted }
  | .storeSet =>
      w.notifierAt id fun d =>
        { w with
          map := Function.update w.map id (some { d with isSet := true })
          notifier := .returned }
  | .returned => w
  | .faulted => w

/-- `timedOut` counts only while the waiter waits and there is no value. -/
def waiterStep (id : Int) (timedOut : Bool) (w : World T) : World T :=
  match w.waiter with
  | .create => { w with map := createSyncData w.map id, waiter := .getRef }
  | .getRef =>
      { w with map := Function.update w.map id (some (getSyncData w.map id)), waiter := .waitFor }
  | .waitFor =>
      w.waiterAt id fun d =>
        match d.waitFor with
        | .ok true => { w with waiter := .check }
        | .ok false => if timedOut then { w with waiter := .returned none } else w
        | .error _ => { w with waiter := .faulted }
  | .check =>
      w.waiterAt id fun d =>
        { w with waiter := if d.valid && !d.isGet then .take else .remove none }
  | .take =>
      w.waiterAt id fun d =>
        match d.take with
        | .ok (d, data) =>
            { w with map := Function.update w.map id (some d), waiter := .storeGet data }
        | .error _ => { w with waiter := .faulted }
  | .storeGet data =>
      w.waiterAt id fun d =>
        { w with
          map := Function.update w.map id (some { d with isGet := true })
          waiter := .remove (some data) }
  | .remove ret => { w with map := removeSyncData w.map id, waiter := .returned ret }
  | .returned _ => w
  | .faulted => w

inductive Event (T : Type) where
  | notifier
  | waiter (timedOut : Bool)
  | other (id : Int) (d : Option (SyncData T))

def step (id : Int) (v : T) (w : World T) : Event T → World T
  | .notifier => notifierStep id v w
  | .waiter timedOut => waiterStep id timedOut w
  | .other id' d => if id' = id then w else { w with map := Function.update w.map id' d }

def run (id : Int) (v : T) (others : SyncMap T) (events : List (Event T)) : World T :=
  events.foldl (step id v) (World.start id others)

theorem World.notifierAt_some {w : World T} {id : Int} {d : SyncData T} (h : w.map id = some d)
    (f : SyncData T → World T) : w.notifierAt id f = f d := by
  rw [notifierAt, h]

theorem World.waiterAt_some {w : World T} {id : Int} {d : SyncData T} (h : w.map id = some d)
    (f : SyncData T → World T) : w.waiterAt id f = f d := by
  rw [waiterAt, h]

/-! ## The entry, read off the program counters -/

def NotifierPc.hasSet : NotifierPc → Bool
  | .storeSet | .returned => true
  | .create | .getRef | .check | .setValue | .faulted => false

def WaiterPc.released : WaiterPc T → Bool
  | .check | .take | .storeGet _ | .remove _ | .returned (some _) => true
  | .create | .getRef | .waitFor | .returned none | .faulted => false

def WaiterPc.data : WaiterPc T → Option T
  | .storeGet data => some data
  | .remove ret => ret
  | .returned ret => ret
  | .create | .getRef | .waitFor | .check | .take | .faulted => none

def WaiterPc.hasGet : WaiterPc T → Bool
  | .remove (some _) | .returned (some _) => true
  | .create | .getRef | .waitFor | .check | .take | .storeGet _ | .remove none | .returned none
  | .faulted => false

def entryOf (v : T) (n : NotifierPc) (p : WaiterPc T) : SyncData T :=
  ⟨if n.hasSet then some v else none, p.data.isSome, n == .returned, p.hasGet⟩

structure Inv (id : Int) (v : T) (w : World T) : Prop where
  entry : w.map id = some (entryOf v w.notifier w.waiter) ∨
    w.map id = none ∧ (w.notifier = .create ∧ w.waiter = .create ∨
      w.notifier = .returned ∧ w.waiter = .returned (some v))
  released : w.waiter.released = true → w.notifier.hasSet = true
  data : ∀ d, w.waiter.data = some d → d = v
  notifier_ok : w.notifier ≠ .faulted
  waiter_ok : w.waiter ≠ .faulted ∧ w.waiter ≠ .remove none

theorem inv_start (id : Int) (v : T) (others : SyncMap T) : Inv id v (World.start id others) where
  entry := .inr ⟨Function.update_self _ _ _, .inl ⟨rfl, rfl⟩⟩
  released hc := nomatch hc
  data _ hc := nomatch hc
  notifier_ok := NotifierPc.noConfusion
  waiter_ok := ⟨(fun hc => nomatch hc), (fun hc => nomatch hc)⟩

theorem Inv.entry_of_notifier {id : Int} {v : T} {w : World T} (h : Inv id v w)
    (hcreate : w.notifier ≠ .create) (hreturned : w.notifier ≠ .returned) :
    w.map id = some (entryOf v w.notifier w.waiter) := by
  rcases h.entry with hentry | ⟨_, ⟨hn, _⟩ | ⟨hn, _⟩⟩
  · exact hentry
  · exact absurd hn hcreate
  · exact absurd hn hreturned

theorem Inv.entry_of_waiter {id : Int} {v : T} {w : World T} (h : Inv id v w)
    (hcreate : w.waiter ≠ .create) (hreturned : ∀ ret, w.waiter ≠ .returned ret) :
    w.map id = some (entryOf v w.notifier w.waiter) := by
  rcases h.entry with hentry | ⟨_, ⟨_, hp⟩ | ⟨_, hp⟩⟩
  · exact hentry
  · exact absurd hp hcreate
  · exact absurd hp (hreturned _)

theorem Inv.untaken {id : Int} {v : T} {w : World T} (h : Inv id v w)
    (hset : w.notifier.hasSet = false) : w.waiter.data = none := by
  cases hdata : w.waiter.data with
  | none => rfl
  | some d =>
      have hreleased : w.waiter.released = true := by
        cases hp : w.waiter with
        | storeGet data => rfl
        | remove ret => rfl
        | returned ret =>
            rw [hp] at hdata
            cases hdata
            rfl
        | _ =>
            rw [hp] at hdata
            cases hdata
      rw [h.released hreleased] at hset
      cases hset

theorem Inv.of_notifier {id : Int} {v : T} {w : World T} (h : Inv id v w) {map : SyncMap T}
    {n : NotifierPc} (hentry : map id = some (entryOf v n w.waiter)) (hok : n ≠ .faulted)
    (hset : w.notifier.hasSet = true → n.hasSet = true) : Inv id v ⟨map, n, w.waiter⟩ :=
  ⟨.inl hentry, fun hreleased => hset (h.released hreleased), h.data, hok, h.waiter_ok⟩

theorem Inv.notifierStep {id : Int} {v : T} {w : World T} (h : Inv id v w) :
    Inv id v (notifierStep id v w) := by
  unfold SyncPair.notifierStep
  cases hn : w.notifier with
  | create =>
      refine h.of_notifier ?_ NotifierPc.noConfusion (by simp [hn, NotifierPc.hasSet])
      unfold createSyncData
      rcases h.entry with hentry | ⟨hnone, ⟨_, hp⟩ | ⟨hreturned, _⟩⟩
      · rw [hentry, hn]
        exact hentry.trans (by rw [hn]; rfl)
      · rw [hnone, hp]
        exact Function.update_self _ _ _
      · rw [hn] at hreturned
        cases hreturned
  | getRef =>
      have hentry := h.entry_of_notifier (by simp [hn]) (by simp [hn])
      refine h.of_notifier ?_ NotifierPc.noConfusion (by simp [hn, NotifierPc.hasSet])
      rw [Function.update_self, getSyncData, hentry, hn]
      rfl
  | check =>
      have hentry := h.entry_of_notifier (by simp [hn]) (by simp [hn])
      have hdata := h.untaken (by rw [hn]; rfl)
      have hfree : ((entryOf v w.notifier w.waiter).valid &&
          !(entryOf v w.notifier w.waiter).isSet) = true := by
        rw [hn]
        simp [entryOf, SyncData.valid, hdata]
      dsimp only
      rw [World.notifierAt_some hentry, if_pos hfree]
      refine h.of_notifier ?_ NotifierPc.noConfusion (by simp [hn, NotifierPc.hasSet])
      rw [hentry, hn]
      rfl
  | setValue =>
      have hentry := h.entry_of_notifier (by simp [hn]) (by simp [hn])
      dsimp only
      rw [World.notifierAt_some hentry, hn]
      show Inv id v ⟨Function.update w.map id (some (entryOf v .storeSet w.waiter)), .storeSet,
        w.waiter⟩
      exact h.of_notifier (Function.update_self _ _ _) NotifierPc.noConfusion fun _ => rfl
  | storeSet =>
      have hentry := h.entry_of_notifier (by simp [hn]) (by simp [hn])
      dsimp only
      rw [World.notifierAt_some hentry, hn]
      show Inv id v ⟨Function.update w.map id (some (entryOf v .returned w.waiter)), .returned,
        w.waiter⟩
      exact h.of_notifier (Function.update_self _ _ _) NotifierPc.noConfusion fun _ => rfl
  | returned => exact h
  | faulted => exact h

theorem Inv.of_waiter {id : Int} {v : T} {w : World T} (h : Inv id v w) {map : SyncMap T}
    {p : WaiterPc T} (hentry : map id = some (entryOf v w.notifier p))
    (hreleased : p.released = true → w.notifier.hasSet = true)
    (hdata : ∀ d, p.data = some d → d = v) (hok : p ≠ .faulted ∧ p ≠ .remove none) :
    Inv id v ⟨map, w.notifier, p⟩ :=
  ⟨.inl hentry, hreleased, hdata, h.notifier_ok, hok⟩

theorem Inv.of_idle_waiter {id : Int} {v : T} {w : World T} (h : Inv id v w) {map : SyncMap T}
    {p : WaiterPc T} (hentry : map id = some (entryOf v w.notifier p))
    (hreleased : p.released = false) (hdata : p.data = none) (hok : p ≠ .faulted) :
    Inv id v ⟨map, w.notifier, p⟩ := by
  apply h.of_waiter hentry
  · intro hyes
    rw [hreleased] at hyes
    cases hyes
  · intro d hd
    rw [hdata] at hd
    cases hd
  · refine ⟨hok, ?_⟩
    intro hremove
    rw [hremove] at hreleased
    cases hreleased

theorem Inv.waitFor {id : Int} {v : T} {w : World T} (h : Inv id v w) (hp : w.waiter = .waitFor)
    (timedOut : Bool) : Inv id v (SyncPair.waiterStep id timedOut w) := by
  have hentry := h.entry_of_waiter (by simp [hp]) (by simp [hp])
  rw [SyncPair.waiterStep, hp]
  dsimp only
  rw [World.waiterAt_some hentry, hp]
  cases hset : w.notifier.hasSet with
  | true =>
      have hready : (entryOf v w.notifier (.waitFor : WaiterPc T)).waitFor = .ok true := by
        simp [entryOf, SyncData.waitFor, hset, WaiterPc.data]
      rw [hready]
      refine h.of_waiter ?_ (fun _ => hset) (fun _ hc => nomatch hc)
        ⟨(fun hc => nomatch hc), (fun hc => nomatch hc)⟩
      rw [hentry, hp]
      rfl
  | false =>
      have hready : (entryOf v w.notifier (.waitFor : WaiterPc T)).waitFor = .ok false := by
        simp [entryOf, SyncData.waitFor, hset, WaiterPc.data]
      rw [hready]
      dsimp only
      split
      · refine h.of_idle_waiter ?_ rfl rfl (fun hc => nomatch hc)
        rw [hentry, hp]
        rfl
      · exact h

/-- The entry goes when both flags are set, and stays otherwise. -/
theorem Inv.remove {id : Int} {v : T} {w : World T} (h : Inv id v w) {ret : Option T}
    (hp : w.waiter = .remove ret) :
    Inv id v ⟨removeSyncData w.map id, w.notifier, .returned ret⟩ := by
  have hentry := h.entry_of_waiter (by simp [hp]) (by simp [hp])
  have hset := h.released (by rw [hp]; rfl)
  cases ret with
  | none => exact absurd hp h.waiter_ok.2
  | some d =>
      have hdata : d = v := h.data d (by rw [hp]; rfl)
      subst hdata
      unfold removeSyncData
      rw [hentry, hp]
      dsimp only
      split
      · -- both flags are set, so the notifier is done
        rename_i hdone
        have hn : w.notifier = .returned := by
          simpa [entryOf, SyncData.isDone, WaiterPc.hasGet] using hdone
        exact ⟨.inr ⟨Function.update_self _ _ _, .inr ⟨hn, rfl⟩⟩, fun _ => hset,
          fun d' hd' => (Option.some.inj hd').symm, h.notifier_ok,
          (fun hc => nomatch hc), (fun hc => nomatch hc)⟩
      · refine h.of_waiter ?_ (fun _ => hset) (fun d' hd' => (Option.some.inj hd').symm)
          ⟨(fun hc => nomatch hc), (fun hc => nomatch hc)⟩
        rw [hentry, hp]
        rfl

theorem Inv.waiterStep {id : Int} {v : T} {w : World T} (h : Inv id v w) (timedOut : Bool) :
    Inv id v (waiterStep id timedOut w) := by
  cases hp : w.waiter with
  | waitFor => exact h.waitFor hp timedOut
  | create =>
      rw [SyncPair.waiterStep, hp]
      refine h.of_idle_waiter ?_ rfl rfl (fun hc => nomatch hc)
      unfold createSyncData
      rcases h.entry with hentry | ⟨hnone, ⟨hn, _⟩ | ⟨_, hreturned⟩⟩
      · rw [hentry, hp]
        exact hentry.trans (by rw [hp]; rfl)
      · rw [hnone, hn]
        exact Function.update_self _ _ _
      · rw [hp] at hreturned
        cases hreturned
  | getRef =>
      have hentry := h.entry_of_waiter (by simp [hp]) (by simp [hp])
      rw [SyncPair.waiterStep, hp]
      refine h.of_idle_waiter ?_ rfl rfl (fun hc => nomatch hc)
      rw [Function.update_self, getSyncData, hentry, hp]
      rfl
  | check =>
      have hentry := h.entry_of_waiter (by simp [hp]) (by simp [hp])
      have hset := h.released (by rw [hp]; rfl)
      rw [SyncPair.waiterStep, hp]
      dsimp only
      rw [World.waiterAt_some hentry, hp]
      show Inv id v ⟨w.map, w.notifier, .take⟩
      refine h.of_waiter ?_ (fun _ => hset) (fun _ hc => nomatch hc)
        ⟨(fun hc => nomatch hc), (fun hc => nomatch hc)⟩
      rw [hentry, hp]
      rfl
  | take =>
      have hentry := h.entry_of_waiter (by simp [hp]) (by simp [hp])
      have hset := h.released (by rw [hp]; rfl)
      have htake : (entryOf v w.notifier (.take : WaiterPc T)).take =
          .ok (entryOf v w.notifier (.storeGet v), v) := by
        simp [entryOf, SyncData.take, hset, WaiterPc.data, WaiterPc.hasGet]
      rw [SyncPair.waiterStep, hp]
      dsimp only
      rw [World.waiterAt_some hentry, hp, htake]
      refine h.of_waiter (Function.update_self _ _ _) (fun _ => hset) ?_
        ⟨(fun hc => nomatch hc), (fun hc => nomatch hc)⟩
      intro d hd
      cases hd
      rfl
  | storeGet data =>
      have hentry := h.entry_of_waiter (by simp [hp]) (by simp [hp])
      have hset := h.released (by rw [hp]; rfl)
      have hdata : data = v := h.data data (by rw [hp]; rfl)
      rw [SyncPair.waiterStep, hp]
      dsimp only
      rw [World.waiterAt_some hentry, hp]
      show Inv id v ⟨Function.update w.map id (some (entryOf v w.notifier (.remove (some data)))),
        w.notifier, .remove (some data)⟩
      refine h.of_waiter (Function.update_self _ _ _) (fun _ => hset) ?_
        ⟨(fun hc => nomatch hc), (fun hc => nomatch hc)⟩
      intro d hd
      cases hd
      exact hdata
  | remove ret =>
      rw [SyncPair.waiterStep, hp]
      exact h.remove hp
  | returned ret =>
      rw [SyncPair.waiterStep, hp]
      exact h
  | faulted =>
      rw [SyncPair.waiterStep, hp]
      exact h

theorem Inv.step {id : Int} {v : T} {w : World T} (h : Inv id v w) (event : Event T) :
    Inv id v (step id v w event) := by
  cases event with
  | notifier => exact h.notifierStep
  | waiter timedOut => exact h.waiterStep timedOut
  | other id' d =>
      rw [SyncPair.step]
      split
      · exact h
      · rename_i hid
        refine ⟨?_, h.released, h.data, h.notifier_ok, h.waiter_ok⟩
        dsimp only
        rw [Function.update_of_ne (Ne.symm hid)]
        exact h.entry

theorem inv_run (id : Int) (v : T) (others : SyncMap T) (events : List (Event T)) :
    Inv id v (run id v others events) :=
  foldl_of_step (fun _ event h => h.step event) (inv_start id v others) events

/-! ## When the entry goes -/

/-- The waiter's removal finds `is_set_` stored. -/
def SetFirst (w : World T) : Event T → Prop
  | .waiter _ => ∀ ret, w.waiter = .remove ret → w.notifier = .returned
  | .notifier => True
  | .other _ _ => True

/-- A wait that has delivered has taken the entry out. -/
def Cleared (id : Int) (w : World T) : Prop :=
  ∀ d, w.waiter = .returned (some d) → w.map id = none

theorem createSyncData_ne_none (m : SyncMap T) (id : Int) : createSyncData m id id ≠ none := by
  unfold createSyncData
  cases hentry : m id with
  | none => simp
  | some d => simp [hentry]

/-- The notifier does not touch the waiter, and erases nothing. -/
theorem notifierStep_frame (id : Int) (v : T) (w : World T) :
    (notifierStep id v w).waiter = w.waiter ∧
      ((notifierStep id v w).map id = none → w.map id = none) := by
  have hat : ∀ f : SyncData T → World T, (∀ d, (f d).waiter = w.waiter) →
      (∀ d, (f d).map id = none → w.map id = none) →
      (w.notifierAt id f).waiter = w.waiter ∧
        ((w.notifierAt id f).map id = none → w.map id = none) := by
    intro f hwaiter hmap
    unfold World.notifierAt
    cases hentry : w.map id with
    | none => exact ⟨rfl, fun _ => rfl⟩
    | some d => exact ⟨hwaiter d, fun hnone => hentry ▸ hmap d hnone⟩
  unfold notifierStep
  cases w.notifier with
  | create => exact ⟨rfl, fun hnone => absurd hnone (createSyncData_ne_none w.map id)⟩
  | getRef => exact ⟨rfl, fun hnone => by simp at hnone⟩
  | check => exact hat _ (fun _ => rfl) fun _ hnone => hnone
  | setValue =>
      apply hat
      · intro d
        cases d.setValue v with
        | ok d' => rfl
        | error fault => rfl
      · intro d hnone
        cases hset : d.setValue v with
        | ok d' => simp [hset] at hnone
        | error fault => simpa [hset] using hnone
  | storeSet => exact hat _ (fun _ => rfl) fun _ hnone => by simp at hnone
  | returned => exact ⟨rfl, fun hnone => hnone⟩
  | faulted => exact ⟨rfl, fun hnone => hnone⟩

theorem returned_of_waiterStep {id : Int} {timedOut : Bool} {w : World T} {d : T}
    (h : (waiterStep id timedOut w).waiter = .returned (some d)) :
    w.waiter = .remove (some d) ∨ w.waiter = .returned (some d) := by
  have hat : ∀ f : SyncData T → World T, (∀ x, (f x).waiter ≠ .returned (some d)) →
      (w.waiterAt id f).waiter ≠ .returned (some d) := by
    intro f hf
    unfold World.waiterAt
    cases w.map id with
    | none => exact fun hc => nomatch hc
    | some x => exact hf x
  unfold waiterStep at h
  cases hp : w.waiter with
  | create => simp [hp] at h
  | getRef => simp [hp] at h
  | waitFor =>
      rw [hp] at h
      refine absurd h (hat _ fun x => ?_)
      cases x.waitFor with
      | ok ready =>
          cases ready with
          | true => simp
          | false => cases timedOut <;> simp [hp]
      | error fault => simp
  | check =>
      rw [hp] at h
      refine absurd h (hat _ fun x => ?_)
      dsimp only
      split
      · exact fun hc => nomatch hc
      · exact fun hc => nomatch hc
  | take =>
      rw [hp] at h
      refine absurd h (hat _ fun x => ?_)
      cases x.take with
      | ok result => simp
      | error fault => simp
  | storeGet data =>
      rw [hp] at h
      exact absurd h (hat _ fun x => fun hc => nomatch hc)
  | remove ret =>
      simp only [hp, WaiterPc.returned.injEq] at h
      exact .inl (by rw [h])
  | returned ret => exact .inr (by simpa [hp] using h)
  | faulted => simp [hp] at h

/-- The removal takes the entry out exactly when the notifier has returned. -/
theorem Inv.remove_iff {id : Int} {v d : T} {w : World T} (h : Inv id v w)
    (hp : w.waiter = .remove (some d)) :
    removeSyncData w.map id id = none ↔ w.notifier = .returned := by
  have hentry := h.entry_of_waiter (by simp [hp]) (by simp [hp])
  unfold removeSyncData
  rw [hentry]
  dsimp only
  have hdone : (entryOf v w.notifier w.waiter).isDone = true ↔ w.notifier = .returned := by
    simp [entryOf, SyncData.isDone, hp, WaiterPc.hasGet]
  split
  · rename_i hd
    simp [hdone.mp hd]
  · rename_i hd
    rw [hdone] at hd
    simp [hentry, hd]

theorem cleared_step {id : Int} {v : T} {w : World T} (h : Inv id v w) (event : Event T) :
    Cleared id (step id v w event) ↔ Cleared id w ∧ SetFirst w event := by
  cases event with
  | notifier =>
      obtain ⟨hwaiter, hkept⟩ := notifierStep_frame id v w
      constructor
      · intro hclear
        exact ⟨fun d hd => hkept (hclear d (hwaiter.trans hd)), trivial⟩
      · rintro ⟨hclear, _⟩ d hd
        have hd' : w.waiter = .returned (some d) := hwaiter.symm.trans hd
        rcases h.entry with hentry | ⟨hnone, ⟨_, hp⟩ | ⟨hn, _⟩⟩
        · rw [hclear d hd'] at hentry
          cases hentry
        · rw [hd'] at hp
          cases hp
        · have hidle : notifierStep id v w = w := by
            unfold notifierStep
            rw [hn]
          rw [SyncPair.step, hidle]
          exact hnone
  | waiter timedOut =>
      rw [SyncPair.step]
      by_cases hremove : ∃ ret, w.waiter = .remove ret
      · obtain ⟨ret, hp⟩ := hremove
        have hstep : waiterStep id timedOut w =
            ⟨removeSyncData w.map id, w.notifier, .returned ret⟩ := by
          unfold waiterStep
          rw [hp]
        cases ret with
        | none => exact absurd hp h.waiter_ok.2
        | some d =>
            have hset : SetFirst w (.waiter timedOut) ↔ w.notifier = .returned :=
              ⟨fun hfirst => hfirst _ hp, fun hn _ _ => hn⟩
            have hnow : Cleared id w := fun d' hd' => by rw [hp] at hd'; cases hd'
            rw [hset, hstep, ← h.remove_iff hp, and_iff_right hnow]
            exact ⟨fun hclear => hclear d rfl, fun hnone _ _ => hnone⟩
      · have hfirst : SetFirst w (.waiter timedOut) := fun ret hp => absurd ⟨ret, hp⟩ hremove
        rw [and_iff_left hfirst]
        by_cases hreturned : ∃ ret, w.waiter = .returned ret
        · obtain ⟨ret, hp⟩ := hreturned
          have hidle : waiterStep id timedOut w = w := by
            unfold waiterStep
            rw [hp]
          rw [hidle]
        · constructor
          · intro _ d hd
            exact absurd ⟨_, hd⟩ hreturned
          · intro _ d hd
            rcases returned_of_waiterStep hd with hp | hp
            · exact absurd ⟨_, hp⟩ hremove
            · exact absurd ⟨_, hp⟩ hreturned
  | other id' d =>
      rw [SyncPair.step]
      have hfirst : SetFirst w (.other id' d) := trivial
      rw [and_iff_left hfirst]
      split
      · exact Iff.rfl
      · rename_i hid
        unfold Cleared
        dsimp only
        rw [Function.update_of_ne (Ne.symm hid)]

theorem guarded_iff_cleared (id : Int) (v : T) (others : SyncMap T) (events : List (Event T)) :
    Guarded (step id v) SetFirst (World.start id others) events ↔
      Cleared id (run id v others events) := by
  induction events using List.reverseRecOn with
  | nil => exact ⟨(fun _ _ hc => nomatch hc), fun _ => trivial⟩
  | append_singleton events event ih =>
      have hrun : run id v others (events ++ [event]) =
          SyncPair.step id v (run id v others events) event := by
        simp [run]
      rw [guarded_append, ih, hrun, cleared_step (inv_run id v others events)]
      exact and_congr_right fun _ => and_iff_left trivial

/-- What a pair of a notification and a wait promises. -/
def Matched (id : Int) (v : T) (w : World T) : Prop :=
  ∀ d, w.waiter = .returned (some d) → d = v ∧ (w.notifier = .returned → w.map id = none)

/-- The delivered value is always the notified one; when both calls have
returned, the entry is gone exactly if the flag was stored before the removal. -/
theorem matched_iff (id : Int) (v : T) (others : SyncMap T) (events : List (Event T)) :
    Matched id v (run id v others events) ↔
      (∀ d, (run id v others events).waiter = .returned (some d) →
        (run id v others events).notifier = .returned →
          Guarded (step id v) SetFirst (World.start id others) events) := by
  have hinv := inv_run id v others events
  rw [guarded_iff_cleared]
  constructor
  · intro h d hd hn d' hd'
    exact (h d' hd').2 hn
  · intro h d hd
    refine ⟨hinv.data d (by rw [hd]; rfl), fun hn => ?_⟩
    exact h d hd hn d hd

/-- The value is set, read and the removal refused before the notifier stores the
flag. -/
theorem matched_entry_left_behind :
    ¬ Matched 1 5 (run 1 5 (fun _ => none) [.notifier, .notifier, .notifier, .notifier,
      .waiter false, .waiter false, .waiter false, .waiter false, .waiter false, .waiter false,
      .waiter false, .notifier]) := by
  intro h
  have hnone := (h 5 rfl).2 rfl
  cases hnone

/-! ## The steps of one call alone -/

theorem set_steps {m : SyncMap T} {id : Int} {d d' : SyncData T} {v : T} (h : d.set v = .ok d')
    (p : WaiterPc T) :
    (notifierStep id v)^[3] ⟨Function.update m id (some d), .check, p⟩ =
      ⟨Function.update m id (some d'), .returned, p⟩ := by
  unfold SyncData.set at h
  cases hfree : d.valid && !d.isSet with
  | false =>
      rw [hfree] at h
      cases h
      simp [notifierStep, World.notifierAt, hfree]
  | true =>
      rw [hfree] at h
      cases hset : d.setValue v with
      | error fault =>
          rw [hset] at h
          cases h
      | ok d₁ =>
          rw [hset] at h
          cases h
          simp [notifierStep, World.notifierAt, hfree, hset]

/-- The steps of a notifier that nobody interrupts are a call of `notify`. -/
theorem notify_steps {m m' : SyncMap T} {id : Int} {v : T} (h : notify m id v = .ok m')
    (p : WaiterPc T) :
    (notifierStep id v)^[5] ⟨m, .create, p⟩ = ⟨m', .returned, p⟩ := by
  have htwo : (notifierStep id v)^[2] ⟨m, .create, p⟩ =
      ⟨Function.update (createSyncData m id) id (some (getSyncData (createSyncData m id) id)),
        .check, p⟩ := rfl
  rw [show (5 : Nat) = 3 + 2 from rfl, Function.iterate_add_apply, htwo]
  unfold notify at h
  dsimp only at h
  cases hset : (getSyncData (createSyncData m id) id).set v with
  | error fault =>
      rw [hset] at h
      cases h
  | ok d' =>
      rw [hset] at h
      cases h
      exact set_steps hset p

theorem get_steps {m : SyncMap T} {id : Int} {d d' : SyncData T} {ret : Option T}
    (h : d.get = .ok (d', ret)) (n : NotifierPc) :
    (waiterStep id true)^[4] ⟨Function.update m id (some d), n, .check⟩ =
      ⟨removeSyncData (Function.update m id (some d')) id, n, .returned ret⟩ := by
  unfold SyncData.get at h
  cases hfree : d.valid && !d.isGet with
  | false =>
      rw [hfree] at h
      cases h
      simp [waiterStep, World.waiterAt, hfree]
  | true =>
      rw [hfree] at h
      cases htake : d.take with
      | error fault =>
          rw [htake] at h
          cases h
      | ok result =>
          rw [htake] at h
          cases h
          simp [waiterStep, World.waiterAt, hfree, htake]

/-- The steps of a waiter that nobody interrupts, timing out when there is
nothing to wait for, are a call of `wait_for`. -/
theorem waitFor_steps {m m' : SyncMap T} {id : Int} {ret : Option T}
    (h : waitFor m id = .ok (m', ret)) (n : NotifierPc) :
    (waiterStep id true)^[7] ⟨m, n, .create⟩ = ⟨m', n, .returned ret⟩ := by
  have htwo : (waiterStep id true)^[2] ⟨m, n, .create⟩ =
      ⟨Function.update (createSyncData m id) id (some (getSyncData (createSyncData m id) id)),
        n, .waitFor⟩ := rfl
  rw [show (7 : Nat) = 4 + 1 + 2 from rfl, Function.iterate_add_apply, htwo,
    Function.iterate_add_apply, Function.iterate_one]
  unfold waitFor at h
  dsimp only at h
  cases hwait : (getSyncData (createSyncData m id) id).waitFor with
  | error fault =>
      rw [hwait] at h
      cases h
  | ok ready =>
      rw [hwait] at h
      cases ready with
      | false =>
          cases h
          simp [waiterStep, World.waiterAt, hwait]
      | true =>
          have hcheck : waiterStep id true ⟨Function.update (createSyncData m id) id
              (some (getSyncData (createSyncData m id) id)), n, .waitFor⟩ =
              ⟨Function.update (createSyncData m id) id
                (some (getSyncData (createSyncData m id) id)), n, .check⟩ := by
            simp [waiterStep, World.waiterAt, hwait]
          rw [hcheck]
          cases hget : (getSyncData (createSyncData m id) id).get with
          | error fault =>
              simp only [bind, Except.bind, if_true, hget] at h
              cases h
          | ok result =>
              simp only [bind, Except.bind, if_true, hget, Function.update_idem] at h
              cases h
              exact get_steps hget n

end NetTest.SyncPair
