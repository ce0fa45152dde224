import NetTest.Lib.Runs
import NetTest.Core.NetIo

/-!
# Disconnect notifications

A connection object is attached to a loop and detached again, over and over.
`OnClose` calls the callback and clears it when the callback returns; nothing
installs it again.  While the callback runs anything may happen to the
connection, `add_net` and a further `terminate` included, so the calls that have
not returned form a stack.
-/

namespace NetTest.EventLoop.Disconnect

open Runs

inductive Caller where
  | terminate
  | removeAll
  deriving DecidableEq

/-- What the caller has left to do.  `now` is the result of `time`. -/
def Caller.finish (caller : Caller) (io : NetIo) (now : Nat) : NetIo :=
  match caller with
  | .terminate => { (if io.brkTm ≠ 0 then io.close else io) with brkTm := now }
  | .removeAll => io

/-- The connection, the callers whose callback has not returned, the last one
first, and how often it was detached and a callback returned. -/
structure World where
  io : NetIo
  callers : List Caller
  detached : Nat
  returned : Nat

def World.init : World := { io := NetIo.new true, callers := [], detached := 0, returned := 0 }

/-- `create` and `connect` are what `reconnect` calls before `add_net`. -/
inductive Event where
  | create (fd : Int)
  | connect (failure : Option Int)
  | addNet (running : Bool)
  | terminate (now : Nat)
  | removeAll (now : Nat)
  | ret (now : Nat)

/-- `_loop = NULL` and `OnClose`, up to the call of the callback. -/
def World.detach (w : World) (caller : Caller) (now : Nat) : World :=
  let io := { w.io with loop := false }
  if io.disconnCb then
    { w with
      io := { io with disconnected := io.disconnected ++ [io.errno] }
      callers := caller :: w.callers
      detached := w.detached + 1 }
  else { w with io := caller.finish io now, detached := w.detached + 1 }

/-- The destructor of the loop clears `_running` before it calls `remove_all`, so
`add_net` on that loop has no effect from then on. -/
def step (w : World) : Event → World
  | .create fd => { w with io := w.io.create fd }
  | .connect failure => { w with io := w.io.connect failure }
  | .addNet running => if running then { w with io := { w.io with loop := true } } else w
  | .terminate now =>
      if w.io.loop then w.detach .terminate now
      else { w with io := Caller.terminate.finish w.io now }
  | .removeAll now => if w.io.loop then w.detach .removeAll now else w
  | .ret now =>
      match w.callers with
      | [] => w
      | caller :: callers =>
          { w with
            io := caller.finish { w.io with disconnCb := false } now
            callers := callers
            returned := w.returned + 1 }

def Notified (w : World) : Prop := w.io.disconnected.length = w.detached

instance (w : World) : Decidable (Notified w) := inferInstanceAs (Decidable (_ = _))

def FirstCallback (w : World) : Event → Prop
  | .create _ => True
  | .connect _ => True
  | .addNet _ => True
  | .terminate _ => w.io.loop = true → w.returned = 0
  | .removeAll _ => w.io.loop = true → w.returned = 0
  | .ret _ => True

/-! ## `terminate` as a whole -/

/-- A callback that does nothing: the two steps are the call of `terminate`. -/
theorem terminate_ret {w : World} (hloop : w.io.loop = true) (hcb : w.io.disconnCb = true)
    (start now : Nat) :
    (step (step w (.terminate start)) (.ret now)).io = w.io.terminate now := by
  simp [step, World.detach, Caller.finish, NetIo.terminate, NetIo.onClose, hloop, hcb]

theorem terminate_silent {w : World} (h : w.io.loop = false ∨ w.io.disconnCb = false) (now : Nat) :
    (step w (.terminate now)).io = w.io.terminate now := by
  rcases h with h | h <;>
    simp [step, World.detach, Caller.finish, NetIo.terminate, NetIo.onClose, h]
  split <;> rfl

/-! ## The invariant -/

/-- The callback is installed until it returns for the first time. -/
structure Inv (w : World) : Prop where
  notified : Notified w
  installed : w.io.disconnCb = true ↔ w.returned = 0

theorem inv_init : Inv World.init := by
  constructor
  · rfl
  · simp [World.init, NetIo.new]

theorem finish_fields (caller : Caller) (io : NetIo) (now : Nat) :
    (caller.finish io now).disconnCb = io.disconnCb ∧
      (caller.finish io now).disconnected = io.disconnected := by
  cases caller with
  | terminate =>
      unfold Caller.finish NetIo.close
      constructor <;> (dsimp only; split <;> (try split) <;> rfl)
  | removeAll => exact ⟨rfl, rfl⟩

variable {w : World}

theorem inv_finish (h : Inv w) (caller : Caller) (now : Nat) :
    Inv { w with io := caller.finish w.io now } := by
  rcases finish_fields caller w.io now with ⟨hcb, hdisconnected⟩
  constructor
  · show _ = w.detached
    rw [hdisconnected]
    exact h.notified
  · show _ ↔ w.returned = 0
    rw [hcb]
    exact h.installed

theorem inv_detach (h : Inv w) (caller : Caller) (now : Nat) :
    (w.returned = 0 → Inv (w.detach caller now)) ∧
      (Notified (w.detach caller now) → w.returned = 0) := by
  have hnotified := h.notified
  unfold Notified at hnotified
  by_cases hcb : w.io.disconnCb = true
  · have hreturned := h.installed.mp hcb
    have hdetach : w.detach caller now =
        { w with
          io := { w.io with loop := false, disconnected := w.io.disconnected ++ [w.io.errno] }
          callers := caller :: w.callers
          detached := w.detached + 1 } := if_pos hcb
    rw [hdetach]
    refine ⟨fun _ => ⟨?_, h.installed⟩, fun _ => hreturned⟩
    simp [Notified, hnotified]
  · have hreturned : w.returned ≠ 0 := fun hzero => hcb (h.installed.mpr hzero)
    have hdetach : w.detach caller now =
        { w with
          io := caller.finish { w.io with loop := false } now
          detached := w.detached + 1 } := if_neg hcb
    rw [hdetach]
    refine ⟨fun hzero => absurd hzero hreturned, fun hlate => ?_⟩
    -- the list of notifications has not grown
    have hlength : w.io.disconnected.length = w.detached + 1 := by
      unfold Notified at hlate
      rw [(finish_fields caller { w.io with loop := false } now).2] at hlate
      exact hlate
    omega

theorem inv_ret (h : Inv w) (now : Nat) : Inv (step w (.ret now)) := by
  unfold step
  cases hcallers : w.callers with
  | nil => exact h
  | cons caller callers =>
      rcases finish_fields caller { w.io with disconnCb := false } now with ⟨hcb, hdisconnected⟩
      constructor
      · show _ = w.detached
        rw [hdisconnected]
        exact h.notified
      · show _ ↔ w.returned + 1 = 0
        rw [hcb]
        simp

theorem inv_step (h : Inv w) (event : Event) :
    (FirstCallback w event → Inv (step w event)) ∧
      (Notified (step w event) → FirstCallback w event) := by
  cases event with
  | create fd => exact ⟨fun _ => ⟨h.notified, h.installed⟩, fun _ => trivial⟩
  | connect failure =>
      refine ⟨fun _ => ?_, fun _ => trivial⟩
      cases failure with
      | none => exact ⟨h.notified, h.installed⟩
      | some errno => exact ⟨h.notified, h.installed⟩
  | addNet running =>
      refine ⟨fun _ => ?_, fun _ => trivial⟩
      cases running with
      | false => exact h
      | true => exact ⟨h.notified, h.installed⟩
  | terminate now =>
      by_cases hloop : w.io.loop = true
      · rw [step, if_pos hloop]
        rcases inv_detach h .terminate now with ⟨hinv, hfirst⟩
        exact ⟨fun hok => hinv (hok hloop), fun hnotified _ => hfirst hnotified⟩
      · rw [step, if_neg hloop]
        exact ⟨fun _ => inv_finish h .terminate now, fun _ htrue => absurd htrue hloop⟩
  | removeAll now =>
      by_cases hloop : w.io.loop = true
      · rw [step, if_pos hloop]
        rcases inv_detach h .removeAll now with ⟨hinv, hfirst⟩
        exact ⟨fun hok => hinv (hok hloop), fun hnotified _ => hfirst hnotified⟩
      · rw [step, if_neg hloop]
        exact ⟨fun _ => h, fun _ htrue => absurd htrue hloop⟩
  | ret now => exact ⟨fun _ => inv_ret h now, fun _ => trivial⟩

/-- Along every history of attaching and detaching there are as many
notifications as detaches exactly if no attached connection is detached after a
callback has returned: the first disconnect is reported, and those that happen
while it is reported. -/
theorem terminate_notified_iff (events : List Event) :
    Always step Notified World.init events ↔ Guarded step FirstCallback World.init events :=
  always_iff_guarded Inv (fun _ _ => True) (fun _ h => h.notified)
    (fun _ event h _ hok => (inv_step h event).1 hok)
    (fun _ event h _ hbad hnotified => hbad ((inv_step h event).2 hnotified))
    inv_init (guarded_of_forall (fun _ _ => trivial) World.init events)

/-- The second disconnect of a connection that was attached again goes
unreported. -/
theorem terminate_silent_after_reconnect :
    ¬ ∀ events : List Event, Always step Notified World.init events := by
  intro h
  have hnotified := (h [.create 3, .connect none, .addNet true, .terminate 5, .ret 5,
    .create 4, .connect none, .addNet true, .terminate 9]).last
  revert hnotified
  decide

end NetTest.EventLoop.Disconnect
