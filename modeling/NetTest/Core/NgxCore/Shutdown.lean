import Mathlib.Logic.Function.Iterate
import NetTest.Core.NgxCore.Model
import NetTest.Lib.Runs

/-!
# Waiting for the loop thread

`ngx_core_uninit` waits for a null `core->loop`.  The thread stores null when its
outer loop sees a clear `started`, but the outer loop is reached only when
`eventloop::loop` returns, and that tests `_running`, which nobody clears.
-/

namespace NetTest.NgxCore

def UserPc.pastWakeup : UserPc → Bool
  | .wait | .finished => true
  | .testStarted | .spawn | .addTimer | .testIpCnt | .initialized | .clearStarted | .wakeup
  | .crashed => false

theorem pastWakeup_of_userStep {w : World} (h : (userStep w).user.pastWakeup = true) :
    w.user.pastWakeup = true ∨ w.user = .wakeup ∧ w.loop = true := by
  unfold userStep at h
  cases hpc : w.user with
  | wait => exact .inl rfl
  | finished => exact .inl rfl
  | wakeup =>
      cases hloop : w.loop with
      | true => exact .inr ⟨rfl, rfl⟩
      | false => simp [hpc, hloop, UserPc.pastWakeup] at h
  | testStarted => cases hstarted : w.started <;> simp [hpc, hstarted, UserPc.pastWakeup] at h
  | addTimer => cases hloop : w.loop <;> simp [hpc, hloop, UserPc.pastWakeup] at h
  | testIpCnt => by_cases hcnt : w.ipCnt = 0 <;> simp [hpc, hcnt, UserPc.pastWakeup] at h
  | _ => simp [hpc, UserPc.pastWakeup] at h

/-- The thread is there, and a `wakeup` that has returned found its loop. -/
structure StopInv (w : World) : Prop extends LoopInv w where
  no_spawn : ¬ (w.user = .testStarted ∨ w.user = .spawn)
  passed : w.user.pastWakeup = true → w.thread.hasPublished = true

theorem stopInv_stopping (ipCnt : Nat) : StopInv (World.stopping ipCnt) where
  loop_eq := rfl
  running hc := nomatch hc
  alive := LoopPc.noConfusion
  no_spawn := by
    rintro (hpc | hpc)
    · cases hpc
    · cases hpc
  passed hc := nomatch hc

theorem StopInv.userStep {w : World} (h : StopInv w) : StopInv (userStep w) := by
  obtain ⟨hloop, hrunning, hthread⟩ := userStep_frame fun hspawn => h.no_spawn (.inr hspawn)
  refine ⟨h.toLoopInv.frame hloop hrunning hthread, ?_, ?_⟩
  · intro hstart
    exact h.no_spawn (.inl (fresh_of_userStep hstart).1)
  · intro hpast
    rw [hthread]
    rcases pastWakeup_of_userStep hpast with hpast | ⟨_, hfound⟩
    · exact h.passed hpast
    · rw [h.loop_eq] at hfound
      simp [LoopPc.hasPublished, hfound]

theorem StopInv.step {w : World} (h : StopInv w) (event : Event) : StopInv (step w event) := by
  cases event with
  | user => exact h.userStep
  | loop =>
      refine ⟨h.toLoopInv.loopStep, ?_, ?_⟩
      · rw [NgxCore.step, loopStep_user]
        exact h.no_spawn
      · rw [NgxCore.step, loopStep_user]
        exact fun hpast => hasPublished_loopStep h.toLoopInv (h.passed hpast)

/-- Some number of steps of the loop thread alone leads to a null pointer. -/
def CanFinish (w : World) : Prop := ∃ n, (loopStep^[n] w).loop = false

/-- The thread is past `eventloop::loop`: it has left the outer loop, or is about
to test a `started` that is clear. -/
def PastLoop (w : World) : Prop :=
  w.thread = .unpublish ∨ w.thread = .exited ∨ w.thread = .testStarted ∧ w.started = false

structure Looping (w : World) : Prop where
  loop : w.loop = true
  running : w.running = true
  inside : w.thread.inside = true ∨ w.thread = .testStarted ∧ w.started = true

theorem Looping.loopStep {w : World} (h : Looping w) : Looping (loopStep w) := by
  obtain ⟨ipCnt, started, loop, running, user, thread⟩ := w
  obtain ⟨hloop, hrunning, hinside⟩ := h
  have hloop' : loop = true := hloop
  have hrunning' : running = true := hrunning
  subst hloop' hrunning'
  rcases hinside with hinside | ⟨hthread, hstarted⟩
  · cases thread with
    | callLoop => exact ⟨rfl, rfl, .inl rfl⟩
    | testRunning => exact ⟨rfl, rfl, .inl rfl⟩
    | iterate => exact ⟨rfl, rfl, .inl rfl⟩
    | _ => cases hinside
  · have hthread' : thread = .testStarted := hthread
    have hstarted' : started = true := hstarted
    subst hthread' hstarted'
    exact ⟨rfl, rfl, .inl rfl⟩

/-- Nothing clears `_running`, so the thread never comes back. -/
theorem Looping.not_canFinish {w : World} (h : Looping w) : ¬ CanFinish w := by
  rintro ⟨n, hnull⟩
  have hlooping : Looping (NgxCore.loopStep^[n] w) := by
    clear hnull
    induction n generalizing w with
    | zero => exact h
    | succ n ih => exact ih h.loopStep
  rw [hlooping.loop] at hnull
  cases hnull

theorem PastLoop.canFinish {w : World} (hinv : LoopInv w) (h : PastLoop w) : CanFinish w := by
  obtain ⟨ipCnt, started, loop, running, user, thread⟩ := w
  have hloop : loop = thread.published := hinv.loop_eq
  subst hloop
  rcases h with hthread | hthread | ⟨hthread, hstarted⟩
  · have hthread' : thread = .unpublish := hthread
    subst hthread'
    exact ⟨1, rfl⟩
  · have hthread' : thread = .exited := hthread
    subst hthread'
    exact ⟨0, rfl⟩
  · have hthread' : thread = .testStarted := hthread
    have hstarted' : started = false := hstarted
    subst hthread' hstarted'
    exact ⟨2, rfl⟩

theorem StopInv.looping_or_pastLoop {w : World} (h : StopInv w)
    (hpast : w.user.pastWakeup = true) : Looping w ∨ PastLoop w := by
  have hpublished := h.passed hpast
  have hlooping : w.thread.inside = true ∨ w.thread = .testStarted ∧ w.started = true →
      w.thread.published = true → Looping w := by
    intro hinside hpub
    exact ⟨h.loop_eq.trans hpub, h.running (by simp [LoopPc.constructed, hpub]), hinside⟩
  cases hthread : w.thread with
  | testStarted =>
      cases hstarted : w.started with
      | true => exact .inl (hlooping (.inr ⟨hthread, hstarted⟩) (by rw [hthread]; rfl))
      | false => exact .inr (.inr (.inr ⟨hthread, hstarted⟩))
  | callLoop => exact .inl (hlooping (.inl (by rw [hthread]; rfl)) (by rw [hthread]; rfl))
  | testRunning => exact .inl (hlooping (.inl (by rw [hthread]; rfl)) (by rw [hthread]; rfl))
  | iterate => exact .inl (hlooping (.inl (by rw [hthread]; rfl)) (by rw [hthread]; rfl))
  | unpublish => exact .inr (.inl hthread)
  | exited => exact .inr (.inr (.inl hthread))
  | _ =>
      rw [hthread] at hpublished
      cases hpublished

/-- After `wakeup`, the loop thread can end the wait exactly when it is not in
`eventloop::loop` any more and does not go back there. -/
theorem uninit_canFinish_iff (ipCnt : Nat) (events : List Event)
    (hpast : (events.foldl step (World.stopping ipCnt)).user.pastWakeup = true) :
    CanFinish (events.foldl step (World.stopping ipCnt)) ↔
      PastLoop (events.foldl step (World.stopping ipCnt)) := by
  have h : StopInv (events.foldl step (World.stopping ipCnt)) :=
    Runs.foldl_of_step (fun _ event h => h.step event) (stopInv_stopping ipCnt) events
  constructor
  · intro hfinish
    rcases h.looping_or_pastLoop hpast with hlooping | hpastLoop
    · exact absurd hfinish hlooping.not_canFinish
    · exact hpastLoop
  · exact fun hpastLoop => hpastLoop.canFinish h.toLoopInv

/-- `started` is cleared before the thread's first test of it. -/
theorem uninit_canFinish_before_loop :
    CanFinish ([Event.loop, .loop, .loop, .user, .user].foldl step (World.stopping 0)) :=
  (uninit_canFinish_iff 0 [.loop, .loop, .loop, .user, .user] rfl).mpr (.inr (.inr ⟨rfl, rfl⟩))

/-- The thread is in its loop when it is told to stop. -/
theorem uninit_hangs_in_loop :
    let w := [Event.loop, .loop, .loop, .loop, .loop, .user, .user].foldl step (World.stopping 0)
    w.user = .wait ∧ w.started = false ∧ ∀ n, (loopStep^[n] w).loop = true := by
  refine ⟨rfl, rfl, ?_⟩
  intro n
  have hlooping : Looping ([Event.loop, .loop, .loop, .loop, .loop, .user, .user].foldl step
      (World.stopping 0)) := ⟨rfl, rfl, .inl rfl⟩
  cases hnull : (loopStep^[n] ([Event.loop, .loop, .loop, .loop, .loop, .user, .user].foldl step
      (World.stopping 0))).loop with
  | true => rfl
  | false => exact absurd ⟨n, hnull⟩ hlooping.not_canFinish

end NetTest.NgxCore
