import Mathlib.Algebra.Group.Nat.Defs
import NetTest.Basic.AsyncResultSyncer.Concurrent

/-!
# Requests and their answers

`AsyncResultSyncer` between any number of clients and responders.  A client draws
an id from `fetch_id`, somebody answers it with one call of `notify`, and the
client polls with `wait_for`, once more whenever a poll has returned false.  The
steps of all these calls come in any order.  The calls of one id are the pair of
`Concurrent`, and the calls of other ids do not reach its entry.
-/

namespace NetTest.SyncPair.Requests

open Runs

variable {T : Type}

/-! ## The system -/

structure Request (T : Type) where
  id : Int
  answer : T
  notifier : NotifierPc
  waiter : WaiterPc T

structure System (T : Type) where
  map : SyncMap T
  seqId : Int
  /-- In the order of their ids. -/
  requests : List (Request T)

/-- The number of values of an `int64_t`. -/
def idT : Nat := 2 ^ 64

def System.create (seqId : Int) : System T := ⟨fun _ => none, seqId.bmod idT, []⟩

/-- `seqId_++`, which wraps. -/
def nextId (seqId : Int) : Int := (seqId + 1).bmod idT

/-- What `AsyncResultSyncer::wait_for` returns, once it has returned. -/
def result (predicate : T → Bool) : WaiterPc T → Option Bool
  | .returned none => some false
  | .returned (some data) => some (predicate data)
  | _ => none

def System.world (s : System T) (r : Request T) : World T := ⟨s.map, r.notifier, r.waiter⟩

def Request.moved (r : Request T) (w : World T) : Request T :=
  { r with notifier := w.notifier, waiter := w.waiter }

def System.on (s : System T) (k : Nat) (f : Request T → World T) : System T :=
  match s.requests[k]? with
  | none => s
  | some r => { s with map := (f r).map, requests := s.requests.set k (r.moved (f r)) }

/-- `answer` is what the request will be answered with, if it is; `again` is the
next poll, for a client that has seen false. -/
inductive Event (T : Type) where
  | fetchId (answer : T)
  | notifier (k : Nat)
  | waiter (k : Nat) (timedOut : Bool)
  | again (k : Nat)

def step (predicate : T → Bool) (s : System T) : Event T → System T
  | .fetchId answer =>
      { s with
        seqId := nextId s.seqId
        requests := s.requests ++ [⟨s.seqId, answer, .create, .create⟩] }
  | .notifier k => s.on k fun r => notifierStep r.id r.answer (s.world r)
  | .waiter k timedOut => s.on k fun r => waiterStep r.id timedOut (s.world r)
  | .again k => s.on k fun r =>
      if result predicate r.waiter = some false then { s.world r with waiter := .create }
      else s.world r

def run (predicate : T → Bool) (seqId : Int) (events : List (Event T)) : System T :=
  events.foldl (step predicate) (System.create seqId)

def Event.isFetch : Event T → Bool
  | .fetchId _ => true
  | _ => false

def fetches (events : List (Event T)) : Nat := events.countP Event.isFetch

/-- Nobody uses an erased entry or a future that has been read. -/
def Safe (s : System T) : Prop :=
  ∀ r ∈ s.requests, r.notifier ≠ .faulted ∧ r.waiter ≠ .faulted

/-- A poll that has returned false is repeated only if it has timed out. -/
def OnTimeout (predicate : T → Bool) (s : System T) : Event T → Prop
  | .again k => ∀ r, s.requests[k]? = some r → result predicate r.waiter = some false →
      r.waiter = .returned none
  | _ => True

/-! ## Ids -/

def idFrom (seqId : Int) (n : Nat) : Int := (seqId + n).bmod idT

theorem idFrom_zero (seqId : Int) : idFrom seqId 0 = seqId.bmod idT := by
  rw [idFrom, Int.natCast_zero, Int.add_zero]

theorem nextId_idFrom (seqId : Int) (n : Nat) : nextId (idFrom seqId n) = idFrom seqId (n + 1) := by
  rw [nextId, idFrom, Int.bmod_add_bmod, idFrom, Int.natCast_add, Int.natCast_one, Int.add_assoc]

theorem idFrom_inj {seqId : Int} {m n : Nat} (hm : m < idT) (hn : n < idT)
    (h : idFrom seqId m = idFrom seqId n) : m = n := by
  have hmod := congrArg (· % (idT : Int)) h
  simp only [idFrom, Int.bmod_emod] at hmod
  unfold idT at hm hn hmod
  omega

/-! ## Frames -/

theorem notifierStep_map_of_ne {id id' : Int} (hne : id' ≠ id) (v : T) (w : World T) :
    (notifierStep id v w).map id' = w.map id' := by
  have hat : ∀ f : SyncData T → World T, (∀ d, (f d).map id' = w.map id') →
      (w.notifierAt id f).map id' = w.map id' := by
    intro f hf
    unfold World.notifierAt
    cases w.map id with
    | none => rfl
    | some d => exact hf d
  unfold notifierStep
  cases w.notifier with
  | create =>
      show createSyncData w.map id id' = w.map id'
      unfold createSyncData
      cases w.map id with
      | none => exact Function.update_of_ne hne _ _
      | some d => rfl
  | getRef => exact Function.update_of_ne hne _ _
  | check => exact hat _ fun d => rfl
  | setValue =>
      apply hat
      intro d
      cases hset : d.setValue v with
      | ok d' => exact Function.update_of_ne hne _ _
      | error fault => rfl
  | storeSet => exact hat _ fun d => Function.update_of_ne hne _ _
  | returned => rfl
  | faulted => rfl

theorem waiterStep_map_of_ne {id id' : Int} (hne : id' ≠ id) (timedOut : Bool) (w : World T) :
    (waiterStep id timedOut w).map id' = w.map id' := by
  have hat : ∀ f : SyncData T → World T, (∀ d, (f d).map id' = w.map id') →
      (w.waiterAt id f).map id' = w.map id' := by
    intro f hf
    unfold World.waiterAt
    cases w.map id with
    | none => rfl
    | some d => exact hf d
  unfold waiterStep
  cases w.waiter with
  | create =>
      show createSyncData w.map id id' = w.map id'
      unfold createSyncData
      cases w.map id with
      | none => exact Function.update_of_ne hne _ _
      | some d => rfl
  | getRef => exact Function.update_of_ne hne _ _
  | waitFor =>
      apply hat
      intro d
      cases hwait : d.waitFor with
      | ok ready =>
          cases ready with
          | true => rfl
          | false => cases timedOut <;> rfl
      | error fault => rfl
  | check => exact hat _ fun d => rfl
  | take =>
      apply hat
      intro d
      cases htake : d.take with
      | ok taken => exact Function.update_of_ne hne _ _
      | error fault => rfl
  | storeGet data => exact hat _ fun d => Function.update_of_ne hne _ _
  | remove ret =>
      show removeSyncData w.map id id' = w.map id'
      unfold removeSyncData
      cases w.map id with
      | none => rfl
      | some d =>
          dsimp only
          split
          · exact Function.update_of_ne hne _ _
          · rfl
  | returned ret => rfl
  | faulted => rfl

/-- Only the entry of the id matters to a pair. -/
theorem inv_congr {id : Int} {v : T} {m m' : SyncMap T} {n : NotifierPc} {p : WaiterPc T}
    (h : SyncPair.Inv id v ⟨m, n, p⟩) (hmap : m' id = m id) : SyncPair.Inv id v ⟨m', n, p⟩ where
  entry := by
    have hentry := h.entry
    dsimp only at hentry ⊢
    rw [hmap]
    exact hentry
  released := h.released
  data := h.data
  notifier_ok := h.notifier_ok
  waiter_ok := h.waiter_ok

/-- A poll that has timed out can be made again. -/
theorem inv_again {id : Int} {v : T} {m : SyncMap T} {n : NotifierPc}
    (h : SyncPair.Inv id v ⟨m, n, .returned none⟩) : SyncPair.Inv id v ⟨m, n, .create⟩ where
  entry := by
    rcases h.entry with hentry | ⟨_, ⟨_, hp⟩ | ⟨_, hp⟩⟩
    · exact .inl hentry
    · cases hp
    · cases hp
  released hc := nomatch hc
  data _ hc := nomatch hc
  notifier_ok := h.notifier_ok
  waiter_ok := ⟨(fun hc => nomatch hc), (fun hc => nomatch hc)⟩

/-! ## The invariant -/

/-- Every request with the entry of its id is a pair as `Concurrent` has it, and
there are no other entries. -/
structure Inv (seqId : Int) (s : System T) : Prop where
  next : s.seqId = idFrom seqId s.requests.length
  ids : ∀ (k : Nat) (r : Request T), s.requests[k]? = some r → r.id = idFrom seqId k
  each : ∀ r ∈ s.requests, SyncPair.Inv r.id r.answer (s.world r)
  fresh : ∀ id, (∀ r ∈ s.requests, r.id ≠ id) → s.map id = none

theorem inv_create (seqId : Int) : Inv seqId (System.create (T := T) seqId) where
  next := (idFrom_zero seqId).symm
  ids _ _ hr := nomatch hr
  each _ hr := nomatch hr
  fresh _ _ := rfl

namespace Inv

variable {seqId : Int} {s : System T}

/-- A step of one request, with what it may do to the map. -/
theorem on (h : Inv seqId s) (hlength : s.requests.length ≤ idT) {k : Nat}
    {f : Request T → World T} (hinv : ∀ r, s.requests[k]? = some r →
      SyncPair.Inv r.id r.answer (s.world r) → SyncPair.Inv r.id r.answer (f r))
    (hframe : ∀ r, ∀ id, id ≠ r.id → (f r).map id = s.map id) : Inv seqId (s.on k f) := by
  unfold System.on
  cases hr : s.requests[k]? with
  | none => exact h
  | some r =>
      have hmem : r ∈ s.requests := List.mem_of_getElem? hr
      have hk : k < s.requests.length := (List.getElem?_eq_some_iff.mp hr).1
      constructor
      · rw [List.length_set]
        exact h.next
      · intro j r' hr'
        rw [List.getElem?_set] at hr'
        split at hr'
        · rename_i hkj
          subst hkj
          cases hr'
          exact h.ids k r hr
        · exact h.ids j r' hr'
      · intro r' hr'
        rcases List.mem_iff_getElem?.mp hr' with ⟨j, hj⟩
        rw [List.getElem?_set] at hj
        split at hj
        · cases hj
          exact hinv r hr (h.each r hmem)
        · -- another request has another id
          rename_i hkj
          have hmem' := List.mem_of_getElem? hj
          have hj' : j < s.requests.length := (List.getElem?_eq_some_iff.mp hj).1
          have hne : r'.id ≠ r.id := by
            rw [h.ids j r' hj, h.ids k r hr]
            intro hid
            exact hkj (idFrom_inj (by omega) (by omega) hid).symm
          exact inv_congr (h.each r' hmem') (hframe r r'.id hne)
      · intro id hid
        have hne : id ≠ r.id := by
          intro heq
          exact hid _ (List.mem_set hk _) heq.symm
        dsimp only
        rw [hframe r id hne]
        apply h.fresh
        intro r' hr' heq
        rcases List.mem_iff_getElem?.mp hr' with ⟨j, hj⟩
        by_cases hkj : k = j
        · subst hkj
          rw [hr] at hj
          cases hj
          exact hne heq.symm
        · have hj' : (s.requests.set k (r.moved (f r)))[j]? = some r' := by
            rw [List.getElem?_set_ne hkj, hj]
          exact hid r' (List.mem_of_getElem? hj') heq

theorem fetchId (h : Inv seqId s) (hlength : s.requests.length < idT) (predicate : T → Bool)
    (answer : T) : Inv seqId (step predicate s (.fetchId answer)) := by
  have hnew : ∀ r ∈ s.requests, r.id ≠ s.seqId := by
    intro r hr
    rcases List.mem_iff_getElem?.mp hr with ⟨j, hj⟩
    have hj' : j < s.requests.length := (List.getElem?_eq_some_iff.mp hj).1
    rw [h.ids j r hj, h.next]
    intro hid
    have heq := idFrom_inj (by omega) hlength hid
    omega
  unfold step
  constructor
  · rw [List.length_append, List.length_singleton, h.next, nextId_idFrom]
  · intro k r hr
    rw [List.getElem?_append] at hr
    split at hr
    · exact h.ids k r hr
    · rename_i hk
      rw [List.getElem?_singleton] at hr
      split at hr
      · cases hr
        rw [h.next, show k = s.requests.length by omega]
      · cases hr
  · intro r hr
    rcases List.mem_append.mp hr with hold | hlast
    · exact h.each r hold
    · rw [List.mem_singleton.mp hlast]
      exact ⟨.inr ⟨h.fresh _ hnew, .inl ⟨rfl, rfl⟩⟩, (fun hc => nomatch hc), (fun _ hc => nomatch hc),
        NotifierPc.noConfusion, (fun hc => nomatch hc), (fun hc => nomatch hc)⟩
  · intro id hid
    apply h.fresh
    intro r hr
    exact hid r (List.mem_append_left _ hr)

theorem step (h : Inv seqId s) (predicate : T → Bool) (event : Event T)
    (hlength : s.requests.length + fetches [event] ≤ idT) (htimeout : OnTimeout predicate s event) :
    Inv seqId (Requests.step predicate s event) := by
  cases event with
  | fetchId answer => exact h.fetchId hlength predicate answer
  | notifier k =>
      apply h.on (by omega)
      · intro r _ hr
        exact hr.notifierStep
      · intro r id hne
        exact notifierStep_map_of_ne hne r.answer (s.world r)
  | waiter k timedOut =>
      apply h.on (by omega)
      · intro r _ hr
        exact hr.waiterStep timedOut
      · intro r id hne
        exact waiterStep_map_of_ne hne timedOut (s.world r)
  | again k =>
      apply h.on (by omega)
      · intro r hk hr
        split
        · rename_i hfalse
          rw [System.world, htimeout r hk hfalse] at hr
          exact inv_again hr
        · exact hr
      · intro r id _
        split <;> rfl

end Inv

theorem length_on (s : System T) (k : Nat) (f : Request T → World T) :
    (s.on k f).requests.length = s.requests.length := by
  unfold System.on
  cases s.requests[k]? with
  | none => rfl
  | some r => exact List.length_set

theorem length_step (predicate : T → Bool) (s : System T) (event : Event T) :
    (step predicate s event).requests.length = s.requests.length + fetches [event] := by
  cases event with
  | fetchId answer => exact List.length_append
  | notifier k => exact length_on s k _
  | waiter k timedOut => exact length_on s k _
  | again k => exact length_on s k _

theorem fetches_cons (event : Event T) (events : List (Event T)) :
    fetches (event :: events) = fetches [event] + fetches events := by
  rw [fetches, ← List.singleton_append, List.countP_append]
  rfl

theorem Inv.run {seqId : Int} {s : System T} (h : Inv seqId s) {predicate : T → Bool}
    {events : List (Event T)} (hcount : s.requests.length + fetches events ≤ idT)
    (htimeout : Guarded (Requests.step predicate) (OnTimeout predicate) s events) :
    Inv seqId (events.foldl (Requests.step predicate) s) := by
  induction events generalizing s with
  | nil => exact h
  | cons event events ih =>
      rw [fetches_cons] at hcount
      have hstep := h.step predicate event (by omega) htimeout.1
      exact ih hstep (by rw [length_step]; omega) htimeout.2

theorem inv_run {predicate : T → Bool} {seqId : Int} {events : List (Event T)}
    (hcount : fetches events ≤ idT)
    (htimeout : Guarded (step predicate) (OnTimeout predicate) (System.create seqId) events) :
    Inv seqId (run predicate seqId events) := by
  have hzero : (System.create (T := T) seqId).requests.length = 0 := rfl
  exact (inv_create seqId).run (by omega) htimeout

/-! ## What a request gets -/

theorem Inv.safe {seqId : Int} {s : System T} (h : Inv seqId s) : Safe s := by
  intro r hr
  exact ⟨(h.each r hr).notifier_ok, (h.each r hr).waiter_ok.1⟩

structure Answered (predicate : T → Bool) (s : System T) : Prop where
  safe : Safe s
  /-- A poll returns true on the answer to its own request only, once it is there. -/
  own : ∀ r ∈ s.requests, result predicate r.waiter = some true →
    r.waiter = .returned (some r.answer) ∧ predicate r.answer = true ∧ r.notifier.hasSet = true
  /-- A request that is given up leaves its entry behind. -/
  givenUp : ∀ r ∈ s.requests, r.waiter = .returned none → s.map r.id ≠ none
  /-- The entries are those of the requests. -/
  entries : ∀ id d, s.map id = some d → ∃ r ∈ s.requests, r.id = id

theorem Inv.answered {seqId : Int} {s : System T} (h : Inv seqId s) (predicate : T → Bool) :
    Answered predicate s where
  safe := h.safe
  own r hr htrue := by
    have hpair := h.each r hr
    cases hp : r.waiter with
    | returned ret =>
        cases ret with
        | none =>
            rw [hp] at htrue
            cases htrue
        | some data =>
            have hdata : data = r.answer := hpair.data data (by simp [System.world, hp, WaiterPc.data])
            have hset := hpair.released (by simp [System.world, hp, WaiterPc.released])
            rw [hp, hdata] at htrue
            rw [hdata]
            exact ⟨rfl, Option.some.inj htrue, hset⟩
    | _ =>
        rw [hp] at htrue
        cases htrue
  givenUp r hr hp hnone := by
    rcases (h.each r hr).entry with hentry | ⟨_, ⟨_, hcreate⟩ | ⟨_, hreturned⟩⟩
    · cases hnone.symm.trans hentry
    · cases hp.symm.trans hcreate
    · cases hp.symm.trans hreturned
  entries id d hd := by
    by_contra hnone
    have hfresh := h.fresh id fun r hr heq => hnone ⟨r, hr, heq⟩
    rw [hfresh] at hd
    cases hd

/-- However the calls of any number of requests are interleaved, nobody faults,
each poll sees its own answer only, and what is left in the map belongs to
requests. -/
theorem requests_answered (predicate : T → Bool) (seqId : Int) (events : List (Event T))
    (hcount : fetches events ≤ idT)
    (htimeout : Guarded (step predicate) (OnTimeout predicate) (System.create seqId) events) :
    Answered predicate (run predicate seqId events) :=
  (inv_run hcount htimeout).answered predicate

/-- The first poll times out before anybody answers, and the client polls again. -/
theorem requests_answered_later :
    Answered (fun v : Bool => v) (run (fun v => v) 0 [.fetchId true, .waiter 0 false,
      .waiter 0 false, .waiter 0 true, .again 0, .notifier 0]) := by
  apply requests_answered
  · decide
  · have hagain : ∀ r : Request Bool, some ⟨0, true, .create, .returned none⟩ = some r →
        result (fun v => v) r.waiter = some false → r.waiter = .returned none := by
      intro r hr _
      cases hr
      rfl
    exact ⟨trivial, trivial, trivial, trivial, hagain, trivial, trivial⟩

/-! ## No answer is lost -/

def stepsLeft : WaiterPc T → Nat
  | .create => 7
  | .getRef => 6
  | .waitFor => 5
  | .check => 4
  | .take => 3
  | .storeGet _ => 2
  | .remove _ => 1
  | .returned _ => 0
  | .faulted => 0

/-- Once the promise is set, every step of a poll brings it forward, and it does
not time out. -/
theorem waiterStep_forward {id : Int} {v : T} {w : World T} (h : SyncPair.Inv id v w)
    (hset : w.notifier.hasSet = true) (hpoll : w.waiter ≠ .returned none) (timedOut : Bool) :
    (waiterStep id timedOut w).notifier = w.notifier ∧
      (waiterStep id timedOut w).waiter ≠ .returned none ∧
      stepsLeft (waiterStep id timedOut w).waiter = stepsLeft w.waiter - 1 := by
  unfold waiterStep
  cases hp : w.waiter with
  | create => exact ⟨rfl, by simp, rfl⟩
  | getRef => exact ⟨rfl, by simp, rfl⟩
  | waitFor =>
      have hentry := h.entry_of_waiter (by simp [hp]) (by simp [hp])
      have hready : (entryOf v w.notifier w.waiter).waitFor = .ok true := by
        rw [hp]
        simp [entryOf, SyncData.waitFor, hset, WaiterPc.data]
      dsimp only
      rw [World.waiterAt_some hentry, hready]
      exact ⟨rfl, by simp, rfl⟩
  | check =>
      have hentry := h.entry_of_waiter (by simp [hp]) (by simp [hp])
      have hfree : ((entryOf v w.notifier w.waiter).valid &&
          !(entryOf v w.notifier w.waiter).isGet) = true := by
        rw [hp]
        rfl
      dsimp only
      rw [World.waiterAt_some hentry, if_pos hfree]
      exact ⟨rfl, by simp, rfl⟩
  | take =>
      have hentry := h.entry_of_waiter (by simp [hp]) (by simp [hp])
      have htake : (entryOf v w.notifier w.waiter).take =
          .ok (entryOf v w.notifier (.storeGet v), v) := by
        rw [hp]
        simp [entryOf, SyncData.take, hset, WaiterPc.data, WaiterPc.hasGet]
      dsimp only
      rw [World.waiterAt_some hentry, htake]
      exact ⟨rfl, by simp, rfl⟩
  | storeGet data =>
      have hentry := h.entry_of_waiter (by simp [hp]) (by simp [hp])
      dsimp only
      rw [World.waiterAt_some hentry]
      exact ⟨rfl, by simp, rfl⟩
  | remove ret =>
      cases ret with
      | none => exact absurd hp h.waiter_ok.2
      | some data => exact ⟨rfl, by simp, rfl⟩
  | returned ret =>
      dsimp only
      rw [hp]
      exact ⟨rfl, hp ▸ hpoll, rfl⟩
  | faulted => exact absurd hp h.waiter_ok.1

/-- The promise of the request is set, and a poll is under way that has at most
`left` steps to take. -/
def Due (k : Nat) (answer : T) (left : Nat) (s : System T) : Prop :=
  ∃ r, s.requests[k]? = some r ∧ r.answer = answer ∧ r.notifier.hasSet = true ∧
    r.waiter ≠ .returned none ∧ stepsLeft r.waiter ≤ left

/-- How many of the steps are steps of the poll. -/
def Event.ofPoll (k : Nat) : Event T → Bool
  | .waiter j _ => j == k
  | _ => false

def pollSteps (k : Nat) (events : List (Event T)) : Nat := events.countP (Event.ofPoll k)

theorem on_self {s : System T} {k : Nat} {r : Request T} (hr : s.requests[k]? = some r)
    (f : Request T → World T) : (s.on k f).requests[k]? = some (r.moved (f r)) := by
  unfold System.on
  rw [hr]
  exact List.getElem?_set_self (List.getElem?_eq_some_iff.mp hr).1

theorem on_other (s : System T) {j k : Nat} (hne : j ≠ k) (f : Request T → World T) :
    (s.on j f).requests[k]? = s.requests[k]? := by
  unfold System.on
  cases s.requests[j]? with
  | none => rfl
  | some r => exact List.getElem?_set_ne hne

theorem notifierStep_hasSet {id : Int} {v : T} {w : World T} (h : SyncPair.Inv id v w)
    (hset : w.notifier.hasSet = true) : (notifierStep id v w).notifier.hasSet = true := by
  unfold notifierStep
  cases hn : w.notifier with
  | storeSet =>
      have hentry := h.entry_of_notifier (by simp [hn]) (by simp [hn])
      dsimp only
      rw [World.notifierAt_some hentry]
      rfl
  | returned =>
      dsimp only
      rw [hn]
      rfl
  | _ =>
      rw [hn] at hset
      cases hset

theorem Due.step {seqId : Int} {s : System T} (h : Inv seqId s) {k left : Nat} {answer : T}
    (hdue : Due k answer left s) (predicate : T → Bool) (event : Event T)
    (htimeout : OnTimeout predicate s event) :
    Due k answer (left - pollSteps k [event]) (Requests.step predicate s event) := by
  rcases hdue with ⟨r, hr, hanswer, hset, hpoll, hleft⟩
  have hpair := h.each r (List.mem_of_getElem? hr)
  cases event with
  | fetchId v =>
      have hsame : (s.requests ++ [⟨s.seqId, v, .create, .create⟩])[k]? = some r := by
        rw [List.getElem?_append_left (List.getElem?_eq_some_iff.mp hr).1, hr]
      exact ⟨r, hsame, hanswer, hset, hpoll, hleft⟩
  | notifier j =>
      by_cases hj : j = k
      · subst hj
        refine ⟨_, on_self hr _, hanswer, notifierStep_hasSet hpair hset, ?_, ?_⟩
        · rw [Request.moved, (notifierStep_frame r.id r.answer (s.world r)).1]
          exact hpoll
        · rw [Request.moved, (notifierStep_frame r.id r.answer (s.world r)).1]
          exact hleft
      · exact ⟨r, (on_other s hj _).trans hr, hanswer, hset, hpoll, hleft⟩
  | waiter j timedOut =>
      by_cases hj : j = k
      · subst hj
        have hforward := waiterStep_forward hpair hset hpoll timedOut
        have hone : pollSteps j [(.waiter j timedOut : Event T)] = 1 := by
          simp [pollSteps, Event.ofPoll]
        refine ⟨_, on_self hr _, hanswer, ?_, hforward.2.1, ?_⟩
        · rw [Request.moved, hforward.1]
          exact hset
        · rw [Request.moved, hforward.2.2, hone]
          exact Nat.sub_le_sub_right hleft 1
      · have hzero : pollSteps k [(.waiter j timedOut : Event T)] = 0 := by
          simp [pollSteps, Event.ofPoll, hj]
        rw [hzero]
        exact ⟨r, (on_other s hj _).trans hr, hanswer, hset, hpoll, hleft⟩
  | again j =>
      by_cases hj : j = k
      · subst hj
        have hidle : ¬ result predicate r.waiter = some false :=
          fun hfalse => hpoll (htimeout r hr hfalse)
        refine ⟨_, on_self hr _, hanswer, ?_⟩
        rw [if_neg hidle]
        exact ⟨hset, hpoll, hleft⟩
      · exact ⟨r, (on_other s hj _).trans hr, hanswer, hset, hpoll, hleft⟩

theorem pollSteps_cons (k : Nat) (event : Event T) (events : List (Event T)) :
    pollSteps k (event :: events) = pollSteps k [event] + pollSteps k events := by
  rw [pollSteps, ← List.singleton_append, List.countP_append]
  rfl

theorem Due.run {seqId : Int} {s : System T} (h : Inv seqId s) {k left : Nat} {answer : T}
    (hdue : Due k answer left s) {predicate : T → Bool} {events : List (Event T)}
    (hcount : s.requests.length + fetches events ≤ idT)
    (htimeout : Guarded (Requests.step predicate) (OnTimeout predicate) s events) :
    Due k answer (left - pollSteps k events) (events.foldl (Requests.step predicate) s) := by
  induction events generalizing s left with
  | nil => exact hdue
  | cons event events ih =>
      rw [fetches_cons] at hcount
      have hstep := h.step predicate event (by omega) htimeout.1
      have hrest := ih hstep (hdue.step h predicate event htimeout.1)
        (by rw [length_step]; omega) htimeout.2
      rw [pollSteps_cons, ← Nat.sub_sub]
      exact hrest

theorem length_run (predicate : T → Bool) (s : System T) (events : List (Event T)) :
    (events.foldl (step predicate) s).requests.length = s.requests.length + fetches events := by
  induction events generalizing s with
  | nil => rfl
  | cons event events ih =>
      rw [List.foldl_cons, ih, length_step, Nat.add_assoc, ← fetches_cons]

/-- A poll that is under way when the promise is set, or begins later, returns
the answer after seven steps of its own, whatever else runs. -/
theorem answer_collected (predicate : T → Bool) (seqId : Int) (events later : List (Event T))
    (hcount : fetches (events ++ later) ≤ idT)
    (htimeout : Guarded (step predicate) (OnTimeout predicate) (System.create seqId) (events ++ later))
    {k : Nat} {r : Request T} (hr : (run predicate seqId events).requests[k]? = some r)
    (hset : r.notifier.hasSet = true) (hpoll : r.waiter ≠ .returned none)
    (hsteps : 7 ≤ pollSteps k later) :
    ∃ r', (run predicate seqId (events ++ later)).requests[k]? = some r' ∧
      r'.waiter = .returned (some r.answer) := by
  have hsplit := guarded_append.mp htimeout
  have hadd : fetches (events ++ later) = fetches events + fetches later := List.countP_append
  have hall := inv_run hcount htimeout
  have hinv := inv_run (by omega) hsplit.1
  have hlen : (run predicate seqId events).requests.length + fetches later ≤ idT := by
    rw [run, length_run, System.create, List.length_nil]
    omega
  have hleft : stepsLeft r.waiter ≤ 7 := by
    cases r.waiter <;> simp [stepsLeft]
  have hdue : Due k r.answer 7 (run predicate seqId events) := ⟨r, hr, rfl, hset, hpoll, hleft⟩
  have hlast : Due k r.answer (7 - pollSteps k later) (run predicate seqId (events ++ later)) := by
    rw [run, List.foldl_append]
    exact hdue.run hinv hlen hsplit.2
  rw [Nat.sub_eq_zero_of_le hsteps] at hlast
  rcases hlast with ⟨r', hr', hanswer, _, hpoll', hdone⟩
  have hpair := hall.each r' (List.mem_of_getElem? hr')
  refine ⟨r', hr', ?_⟩
  cases hp : r'.waiter with
  | returned ret =>
      cases ret with
      | none => exact absurd hp hpoll'
      | some data =>
          have hdata : data = r'.answer := hpair.data data (by simp [System.world, hp, WaiterPc.data])
          rw [hdata, hanswer]
  | faulted => exact absurd hp hpair.waiter_ok.1
  | _ =>
      rw [hp] at hdone
      simp [stepsLeft] at hdone

/-- The request of the class's test, answered before it is polled. -/
theorem answer_collected_test :
    ∃ r, (run (fun v : Bool => v) 0 ([.fetchId true, .notifier 0, .notifier 0, .notifier 0,
      .notifier 0] ++ List.replicate 7 (.waiter 0 false))).requests[0]? = some r ∧
      r.waiter = .returned (some true) :=
  answer_collected (fun v => v) 0 [.fetchId true, .notifier 0, .notifier 0, .notifier 0, .notifier 0]
    (List.replicate 7 (.waiter 0 false)) (by decide)
    ⟨trivial, trivial, trivial, trivial, trivial, trivial, trivial, trivial, trivial, trivial,
      trivial, trivial, trivial⟩
    (r := ⟨0, true, .storeSet, .create⟩) rfl rfl (fun hc => nomatch hc) (by decide)

/-! ## Polling until the result is true -/

/-- With a predicate that takes every answer, false means a timeout. -/
theorem onTimeout_of_accepts {predicate : T → Bool} (haccepts : ∀ v, predicate v = true)
    (s : System T) (event : Event T) : OnTimeout predicate s event := by
  cases event with
  | again k =>
      intro r _ hfalse
      cases hp : r.waiter with
      | returned ret =>
          cases ret with
          | none => rfl
          | some data =>
              rw [hp, result, haccepts data] at hfalse
              cases hfalse
      | _ =>
          rw [hp] at hfalse
          cases hfalse
  | _ => trivial

/-- The answer is collected before the notifier has stored its flag, so the entry
stays, and it is rejected, so the client polls again. -/
def rejectedRun (v : T) : List (Event T) :=
  [.fetchId v, .notifier 0, .notifier 0, .notifier 0, .notifier 0, .waiter 0 false,
    .waiter 0 false, .waiter 0 false, .waiter 0 false, .waiter 0 false, .waiter 0 false,
    .waiter 0 false, .again 0, .waiter 0 false, .waiter 0 false, .waiter 0 false]

theorem rejectedRun_faults {predicate : T → Bool} {v : T} (hrejects : predicate v = false)
    (seqId : Int) : ¬ Safe (run predicate seqId (rejectedRun v)) := by
  intro hsafe
  have hfaulted : ∃ map seqId' id n, run predicate seqId (rejectedRun v) =
      ⟨map, seqId', [⟨id, v, n, .faulted⟩]⟩ := by
    simp [run, rejectedRun, step, System.on, System.create, System.world, Request.moved, notifierStep,
      waiterStep, World.notifierAt, World.waiterAt, createSyncData, getSyncData, removeSyncData,
      SyncData.new, SyncData.valid, SyncData.setValue, SyncData.waitFor, SyncData.take,
      SyncData.isDone, result, hrejects]
  rcases hfaulted with ⟨map, seqId', id, n, hrun⟩
  rw [hrun] at hsafe
  exact (hsafe _ List.mem_cons_self).2 rfl

theorem fetches_rejectedRun (v : T) : fetches (rejectedRun v) ≤ idT := by
  have hone : fetches (rejectedRun v) = 1 := rfl
  rw [hone]
  unfold idT
  omega

/-- Clients that poll until they see true are safe in every run exactly if there
is no answer that the predicate rejects. -/
theorem polling_safe_iff (predicate : T → Bool) (seqId : Int) :
    (∀ events, fetches events ≤ idT → Safe (run predicate seqId events)) ↔
      ∀ v, predicate v = true := by
  constructor
  · intro hsafe v
    rw [← Bool.not_eq_false]
    intro hrejects
    exact rejectedRun_faults hrejects seqId (hsafe _ (fetches_rejectedRun v))
  · intro haccepts events hcount
    have htimeout : Guarded (step predicate) (OnTimeout predicate) (System.create seqId) events :=
      guarded_of_forall (onTimeout_of_accepts haccepts) _ events
    exact (inv_run hcount htimeout).safe

end NetTest.SyncPair.Requests
