import Mathlib.Logic.Basic

/-!
# Starting and stopping the core

`ngx_core.cpp`: `ngx_core_init` starts a detached thread that builds an event
loop on its own stack and publishes it in `core->loop`; `ngx_core_uninit` clears
`core->started`, wakes the loop up and spins until the pointer is null again.
A step is one access to a field that both threads use.
-/

namespace NetTest.NgxCore

inductive UserPc where
  | testStarted
  | spawn
  | addTimer
  | testIpCnt
  | initialized
  | clearStarted
  | wakeup
  | wait
  | finished
  | crashed
  deriving DecidableEq

/-- The thread that runs `active_loop_thread`, with the test and the body of the
inner loop in `eventloop::loop`. -/
inductive LoopPc where
  | absent
  | setStarted
  | construct
  | publish
  | testStarted
  | callLoop
  | testRunning
  | iterate
  | unpublish
  | exited
  | crashed
  deriving DecidableEq

structure World where
  ipCnt : Nat
  started : Bool
  /-- `core->loop` is not null. -/
  loop : Bool
  /-- `_running` of the loop object. -/
  running : Bool
  user : UserPc
  thread : LoopPc

/-- A zeroed core whose url gave `ipCnt` addresses, on entry to `ngx_core_init`. -/
def World.init (ipCnt : Nat) : World where
  ipCnt := ipCnt
  started := false
  loop := false
  running := false
  user := .testStarted
  thread := .absent

/-- `ngx_core_uninit` is entered while the thread may have got anywhere. -/
def World.stopping (ipCnt : Nat) : World :=
  { World.init ipCnt with user := .clearStarted, thread := .setStarted }

def userStep (w : World) : World :=
  match w.user with
  | .testStarted => { w with user := if w.started then .testIpCnt else .spawn }
  | .spawn => { w with user := .addTimer, thread := .setStarted }
  | .addTimer => { w with user := if w.loop then .testIpCnt else .crashed }
  | .testIpCnt => { w with user := if w.ipCnt = 0 then .clearStarted else .initialized }
  | .initialized => w
  | .clearStarted => { w with user := .wakeup, started := false }
  -- `wakeup` reads `_running` and writes to the descriptor of the loop
  | .wakeup => { w with user := if w.loop then .wait else .crashed }
  | .wait => { w with user := if w.loop then .wait else .finished }
  | .finished => w
  | .crashed => w

def loopStep (w : World) : World :=
  match w.thread with
  | .absent => w
  | .setStarted => { w with thread := .construct, started := true }
  | .construct => { w with thread := .publish, running := true }
  | .publish => { w with thread := .testStarted, loop := true }
  | .testStarted => { w with thread := if w.started then .callLoop else .unpublish }
  | .callLoop => { w with thread := if w.loop then .testRunning else .crashed }
  | .testRunning => { w with thread := if w.running then .iterate else .testStarted }
  | .iterate => { w with thread := .testRunning }
  | .unpublish => { w with thread := .exited, loop := false }
  | .exited => w
  | .crashed => w

inductive Event where
  | user
  | loop

def step (w : World) : Event → World
  | .user => userStep w
  | .loop => loopStep w

/-! ## What the program counters say -/

def LoopPc.published : LoopPc → Bool
  | .testStarted | .callLoop | .testRunning | .iterate | .unpublish => true
  | .absent | .setStarted | .construct | .publish | .exited | .crashed => false

def LoopPc.hasPublished (pc : LoopPc) : Bool := pc.published || pc == .exited

/-- The thread is inside `eventloop::loop` or about to enter it. -/
def LoopPc.inside : LoopPc → Bool
  | .callLoop | .testRunning | .iterate => true
  | .absent | .setStarted | .construct | .publish | .testStarted | .unpublish | .exited
  | .crashed => false

def LoopPc.constructed (pc : LoopPc) : Bool := pc.published || pc == .publish

/-- The pointer is the thread's own affair, and nothing clears `_running`. -/
structure LoopInv (w : World) : Prop where
  loop_eq : w.loop = w.thread.published
  running : w.thread.constructed = true → w.running = true
  alive : w.thread ≠ .crashed

theorem LoopInv.frame {w w' : World} (h : LoopInv w) (hloop : w'.loop = w.loop)
    (hrunning : w'.running = w.running) (hthread : w'.thread = w.thread) : LoopInv w' := by
  constructor
  · rw [hloop, hthread]
    exact h.loop_eq
  · rw [hrunning, hthread]
    exact h.running
  · rw [hthread]
    exact h.alive

theorem LoopInv.loopStep {w : World} (h : LoopInv w) : LoopInv (loopStep w) := by
  obtain ⟨ipCnt, started, loop, running, user, thread⟩ := w
  have hloop : loop = thread.published := h.loop_eq
  have hrunning : thread.constructed = true → running = true := h.running
  subst hloop
  cases thread with
  | absent => exact h
  | setStarted => exact ⟨rfl, (fun hc => nomatch hc), LoopPc.noConfusion⟩
  | construct => exact ⟨rfl, fun _ => rfl, LoopPc.noConfusion⟩
  | publish => exact ⟨rfl, hrunning, LoopPc.noConfusion⟩
  | testStarted =>
      cases started with
      | true => exact ⟨rfl, hrunning, LoopPc.noConfusion⟩
      | false => exact ⟨rfl, hrunning, LoopPc.noConfusion⟩
  | callLoop => exact ⟨rfl, hrunning, LoopPc.noConfusion⟩
  | testRunning =>
      cases running with
      | true => exact ⟨rfl, hrunning, LoopPc.noConfusion⟩
      | false => exact ⟨rfl, hrunning, LoopPc.noConfusion⟩
  | iterate => exact ⟨rfl, hrunning, LoopPc.noConfusion⟩
  | unpublish => exact ⟨rfl, (fun hc => nomatch hc), LoopPc.noConfusion⟩
  | exited => exact h
  | crashed => exact absurd rfl h.alive

theorem hasPublished_loopStep {w : World} (h : LoopInv w) (hpub : w.thread.hasPublished = true) :
    (loopStep w).thread.hasPublished = true := by
  obtain ⟨ipCnt, started, loop, running, user, thread⟩ := w
  have hloop : loop = thread.published := h.loop_eq
  subst hloop
  cases thread with
  | absent => cases hpub
  | setStarted => cases hpub
  | construct => cases hpub
  | publish => cases hpub
  | testStarted => cases started with
      | true => rfl
      | false => rfl
  | callLoop => rfl
  | testRunning => cases running with
      | true => rfl
      | false => rfl
  | iterate => rfl
  | unpublish => rfl
  | exited => rfl
  | crashed => cases hpub

/-! ## Frames -/

theorem loopStep_user (w : World) : (loopStep w).user = w.user := by
  unfold loopStep
  split
  all_goals rfl

theorem userStep_frame {w : World} (h : w.user ≠ .spawn) :
    (userStep w).loop = w.loop ∧ (userStep w).running = w.running ∧
      (userStep w).thread = w.thread := by
  unfold userStep
  split
  case h_2 hspawn => exact absurd hspawn h
  all_goals exact ⟨rfl, rfl, rfl⟩

theorem fresh_of_userStep {w : World}
    (h : (userStep w).user = .testStarted ∨ (userStep w).user = .spawn) :
    w.user = .testStarted ∧ (userStep w).started = w.started := by
  unfold userStep at h ⊢
  cases hpc : w.user <;> simp_all [ite_eq_iff]

end NetTest.NgxCore
