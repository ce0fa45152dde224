import NetTest.Core.NgxCore.Model
import NetTest.Lib.Runs

/-!
# The start-up handshake

`ngx_core_init` uses `core->loop` right after it has started the thread that will
store it, and again in `ngx_core_uninit` when the url gave no address.  Nothing
waits for the thread, so what it has done by then decides.
-/

namespace NetTest.NgxCore

open Runs

def UserPc.pastTimer : UserPc → Bool
  | .testIpCnt | .initialized | .clearStarted | .wakeup | .wait | .finished => true
  | .testStarted | .spawn | .addTimer | .crashed => false

structure InitInv (w : World) : Prop extends LoopInv w where
  fresh : w.user = .testStarted ∨ w.user = .spawn → w.thread = .absent ∧ w.started = false
  adding : w.user = .addTimer →
    w.thread = .setStarted ∨ w.started = true ∧ w.thread ≠ .unpublish ∧ w.thread ≠ .exited
  passed : w.user.pastTimer = true → w.thread.hasPublished = true

theorem initInv_init (ipCnt : Nat) : InitInv (World.init ipCnt) where
  loop_eq := rfl
  running hc := nomatch hc
  alive := LoopPc.noConfusion
  fresh _ := ⟨rfl, rfl⟩
  adding hc := nomatch hc
  passed hc := nomatch hc

theorem InitInv.loopStep {w : World} (h : InitInv w) : InitInv (loopStep w) := by
  refine ⟨h.toLoopInv.loopStep, ?_, ?_, ?_⟩
  · rw [loopStep_user]
    intro hfresh
    obtain ⟨hthread, hstarted⟩ := h.fresh hfresh
    have hidle : NgxCore.loopStep w = w := by
      unfold NgxCore.loopStep
      rw [hthread]
    rw [hidle]
    exact ⟨hthread, hstarted⟩
  · rw [loopStep_user]
    intro hadding
    right
    rcases h.adding hadding with hthread | ⟨hstarted, hunpublish, hexited⟩
    · unfold NgxCore.loopStep
      rw [hthread]
      exact ⟨rfl, LoopPc.noConfusion, LoopPc.noConfusion⟩
    · obtain ⟨ipCnt, started, loop, running, user, thread⟩ := w
      have hstarted' : started = true := hstarted
      have hloop : loop = thread.published := h.loop_eq
      subst hstarted' hloop
      cases thread with
      | unpublish => exact absurd rfl hunpublish
      | exited => exact absurd rfl hexited
      | testRunning =>
          cases running with
          | true => exact ⟨rfl, LoopPc.noConfusion, LoopPc.noConfusion⟩
          | false => exact ⟨rfl, LoopPc.noConfusion, LoopPc.noConfusion⟩
      | _ => exact ⟨rfl, LoopPc.noConfusion, LoopPc.noConfusion⟩
  · rw [loopStep_user]
    intro hpassed
    exact hasPublished_loopStep h.toLoopInv (h.passed hpassed)

theorem adding_of_userStep {w : World} (h : (userStep w).user = .addTimer) :
    w.user = .spawn := by
  unfold userStep at h
  cases hpc : w.user <;> simp_all [ite_eq_iff]

/-- The timer is behind once `add_timer` has found a loop. -/
theorem pastTimer_of_userStep {w : World} (h : (userStep w).user.pastTimer = true) :
    w.user.pastTimer = true ∨ (w.user = .testStarted ∧ w.started = true) ∨
      (w.user = .addTimer ∧ w.loop = true) := by
  unfold userStep at h
  cases hpc : w.user with
  | testStarted =>
      cases hstarted : w.started with
      | true => simp
      | false => simp [hpc, hstarted, UserPc.pastTimer] at h
  | spawn => simp [hpc, UserPc.pastTimer] at h
  | addTimer =>
      cases hloop : w.loop with
      | true => simp
      | false => simp [hpc, hloop, UserPc.pastTimer] at h
  | crashed => simp [hpc, UserPc.pastTimer] at h
  | _ => exact .inl rfl

theorem InitInv.userStep {w : World} (h : InitInv w) : InitInv (userStep w) := by
  by_cases hspawn : w.user = .spawn
  · have hstep : NgxCore.userStep w = { w with user := .addTimer, thread := .setStarted } := by
      unfold NgxCore.userStep
      rw [hspawn]
    have hloop : w.loop = false := by
      rw [h.loop_eq, (h.fresh (.inr hspawn)).1]
      rfl
    rw [hstep]
    exact ⟨⟨hloop, (fun hc => nomatch hc), LoopPc.noConfusion⟩, (fun hc => by simp at hc),
      fun _ => .inl rfl, (fun hc => nomatch hc)⟩
  · obtain ⟨hloop, hrunning, hthread⟩ := userStep_frame hspawn
    refine ⟨h.toLoopInv.frame hloop hrunning hthread, ?_, ?_, ?_⟩
    · intro hfresh
      obtain ⟨hpc, hstarted⟩ := fresh_of_userStep hfresh
      rw [hthread, hstarted]
      exact h.fresh (.inl hpc)
    · intro hadding
      exact absurd (adding_of_userStep hadding) hspawn
    · intro hpassed
      rw [hthread]
      rcases pastTimer_of_userStep hpassed with hpast | ⟨hpc, hstarted⟩ | ⟨_, hfound⟩
      · exact h.passed hpast
      · rw [(h.fresh (.inl hpc)).2] at hstarted
        cases hstarted
      · rw [h.loop_eq] at hfound
        simp [LoopPc.hasPublished, hfound]

theorem InitInv.step {w : World} (h : InitInv w) (event : Event) : InitInv (step w event) := by
  cases event with
  | user => exact h.userStep
  | loop => exact h.loopStep

/-- The steps that dereference `core->loop`; a `wakeup` reached from
`ngx_core_init` is one with no address. -/
def Dereferences (w : World) : Event → Prop
  | .user => w.user = .addTimer ∨ w.user = .wakeup ∧ w.ipCnt = 0
  | .loop => w.thread = .callLoop

def DereferencesLoop (w : World) (event : Event) : Prop := Dereferences w event → w.loop = true

/-- The thread has stored the pointer before `add_timer` and has not cleared it
before `wakeup`. -/
def InTime (w : World) : Event → Prop
  | .user => (w.user = .addTimer → w.thread.hasPublished = true) ∧
      (w.user = .wakeup ∧ w.ipCnt = 0 → w.thread ≠ .exited)
  | .loop => True

theorem published_iff {pc : LoopPc} :
    pc.published = true ↔ pc.hasPublished = true ∧ pc ≠ .exited := by
  cases pc <;> decide

theorem InitInv.dereferencesLoop_iff {w : World} (h : InitInv w) (event : Event) :
    DereferencesLoop w event ↔ InTime w event := by
  unfold DereferencesLoop
  rw [h.loop_eq]
  cases event with
  | user =>
      constructor
      · intro hok
        constructor
        · intro hadding
          exact (published_iff.mp (hok (.inl hadding))).1
        · intro hwakeup
          exact (published_iff.mp (hok (.inr hwakeup))).2
      · rintro ⟨hadd, hwake⟩ (hadding | hwakeup)
        · rw [published_iff]
          refine ⟨hadd hadding, ?_⟩
          rcases h.adding hadding with hthread | ⟨_, _, hexited⟩
          · rw [hthread]
            exact LoopPc.noConfusion
          · exact hexited
        · have hpast : w.user.pastTimer = true := by rw [hwakeup.1]; rfl
          exact published_iff.mpr ⟨h.passed hpast, hwake hwakeup⟩
  | loop =>
      constructor
      · intro _
        trivial
      · intro _ hcall
        rw [show w.thread = .callLoop from hcall]
        rfl

/-- The handshake is sound exactly in the runs where the loop thread has stored
the pointer by the time the timer is added, and has not cleared it again by the
time it is woken up. -/
theorem handshake_iff (ipCnt : Nat) (events : List Event) :
    Guarded step DereferencesLoop (World.init ipCnt) events ↔
      Guarded step InTime (World.init ipCnt) events :=
  guarded_congr (fun _ event h => h.step event) (fun _ event h => h.dereferencesLoop_iff event)
    (initInv_init ipCnt) events

/-- The new thread has not run yet when the timer is added. -/
theorem handshake_add_timer_on_null :
    ¬ Guarded step DereferencesLoop (World.init 0) [.user, .user, .user] ∧
      ([Event.user, .user, .user].foldl step (World.init 0)).user = .crashed := by
  refine ⟨?_, rfl⟩
  rintro ⟨_, _, hadd, _⟩
  cases hadd (.inl rfl)

end NetTest.NgxCore
