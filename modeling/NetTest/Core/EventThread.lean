import NetTest.Lib.Runs

/-!
# Event threads

`eventthread`: `run` starts a thread that builds an event loop on its own stack and
publishes it in `_loop`; `stop` ends the loop and joins the thread, if it finds the loop.
A step is one access to what both threads use; the loop's `stop` is two of them, since
it clears `_running` and then tests it in `wakeup`.
-/

namespace NetTest.EventThread

open Runs

/-- `_thr`. -/
inductive Thr where
  | none
  | joinable
  | joined

/-- The thread that calls `run`, `stop` and the destructor. -/
inductive OwnerPc where
  | idle
  | testLoop
  | loadLoop
  | clearRunning
  | wakeup
  | testJoinable
  | join
  /-- The destructor has returned. -/
  | gone
  /-- It used a loop that is not there. -/
  | crashed
  /-- A thread was destroyed that had not been joined. -/
  | aborted
  deriving DecidableEq

/-- The thread that `run` starts, with the test and the body of `eventloop::loop`. -/
inductive LoopPc where
  | absent
  | setTid
  | construct
  | publish
  | testRunning
  | iterate
  | unpublish
  | destruct
  | exited
  deriving DecidableEq

structure World where
  thr : Thr
  /-- `_loop` is not null. -/
  loop : Bool
  /-- `_running` of the loop. -/
  running : Bool
  owner : OwnerPc
  thread : LoopPc

def World.init : World := ⟨.none, false, false, .idle, .absent⟩

/-- The loop is on the stack of its thread. -/
def LoopPc.constructed : LoopPc → Bool
  | .publish | .testRunning | .iterate | .unpublish | .destruct => true
  | .absent | .setTid | .construct | .exited => false

def ownerStep (w : World) : World :=
  match w.owner with
  | .idle => w
  | .testLoop => { w with owner := if w.loop then .loadLoop else .idle }
  | .loadLoop => { w with owner := if w.loop then .clearRunning else .crashed }
  | .clearRunning =>
      if w.thread.constructed then { w with running := false, owner := .wakeup }
      else { w with owner := .crashed }
  -- `_running` is clear, so nothing is written to the descriptor
  | .wakeup => { w with owner := if w.thread.constructed then .testJoinable else .crashed }
  | .testJoinable =>
      match w.thr with
      | .joinable => { w with owner := .join }
      | .joined => { w with owner := .idle }
      | .none => { w with owner := .crashed }
  | .join => if w.thread = .exited then { w with thr := .joined, owner := .idle } else w
  | .gone => w
  | .crashed => w
  | .aborted => w

inductive Call where
  | run
  | stop
  | destroy

def callStep (w : World) (call : Call) : World :=
  if w.owner = .idle then
    match call with
    | .run =>
        match w.thr with
        | .joinable => { w with owner := .aborted }
        | .none => { w with thr := .joinable, thread := .setTid }
        | .joined => { w with thr := .joinable, thread := .setTid }
    | .stop => { w with owner := .testLoop }
    | .destroy =>
        match w.thr with
        | .joinable => { w with owner := .aborted }
        | .none => { w with owner := .gone }
        | .joined => { w with owner := .gone }
  else w

def loopStep (w : World) : World :=
  match w.thread with
  | .absent => w
  | .setTid => { w with thread := .construct }
  | .construct => { w with thread := .publish, running := true }
  | .publish => { w with thread := .testRunning, loop := true }
  | .testRunning => { w with thread := if w.running then .iterate else .unpublish }
  | .iterate => { w with thread := .testRunning }
  | .unpublish => { w with thread := .destruct, loop := false }
  | .destruct => { w with thread := .exited }
  | .exited => w

inductive Event where
  | call (call : Call)
  | owner
  | loop

def step (w : World) (event : Event) : World :=
  if w.owner = .crashed ∨ w.owner = .aborted then w
  else
    match event with
    | .call call => callStep w call
    | .owner => ownerStep w
    | .loop => loopStep w

/-! ## What can be reached -/

/-- Outside a `stop` that has found the loop, while no thread is there to join. -/
def OwnerPc.outside : OwnerPc → Bool
  | .idle | .testLoop | .gone => true
  | _ => false

def OwnerPc.early : OwnerPc → Bool
  | .idle | .testLoop | .aborted => true
  | _ => false

/-- Up to the store that ends the loop. -/
def OwnerPc.using : OwnerPc → Bool
  | .idle | .testLoop | .loadLoop | .clearRunning | .aborted => true
  | _ => false

def OwnerPc.cleared : OwnerPc → Bool
  | .wakeup | .testJoinable | .join | .crashed => true
  | _ => false

def LoopPc.starting : LoopPc → Bool
  | .setTid | .construct => true
  | _ => false

def LoopPc.looping : LoopPc → Bool
  | .testRunning | .iterate => true
  | _ => false

/-- The situations the two threads can be in together. -/
inductive Reached : World → Prop where
  | fresh {owner : OwnerPc} (running : Bool) (h : owner.outside = true) :
      Reached ⟨.none, false, running, owner, .absent⟩
  | starting {owner : OwnerPc} {thread : LoopPc} (running : Bool) (h : owner.early = true)
      (ht : thread.starting = true) : Reached ⟨.joinable, false, running, owner, thread⟩
  | built {owner : OwnerPc} (h : owner.early = true) :
      Reached ⟨.joinable, false, true, owner, .publish⟩
  | looping {owner : OwnerPc} {thread : LoopPc} (h : owner.using = true)
      (ht : thread.looping = true) : Reached ⟨.joinable, true, true, owner, thread⟩
  | leaving {owner : OwnerPc} {thread : LoopPc} (h : owner.cleared = true)
      (ht : thread.looping = true ∨ thread = .unpublish) :
      Reached ⟨.joinable, true, false, owner, thread⟩
  | left {owner : OwnerPc} {thread : LoopPc} (h : owner.cleared = true)
      (ht : thread = .destruct ∨ thread = .exited) :
      Reached ⟨.joinable, false, false, owner, thread⟩
  | joined {owner : OwnerPc} (running : Bool) (h : owner.outside = true) :
      Reached ⟨.joined, false, running, owner, .exited⟩

theorem reached_init : Reached World.init := .fresh false rfl

theorem Reached.callStep {w : World} (h : Reached w) (call : Call) : Reached (callStep w call) := by
  rcases w with ⟨thr, loop, running, owner, thread⟩
  by_cases hidle : owner = .idle
  · subst hidle
    cases h with
    | fresh running h =>
        cases call with
        | run => exact .starting running rfl rfl
        | stop => exact .fresh running rfl
        | destroy => exact .fresh running rfl
    | starting running h ht =>
        cases call with
        | run => exact .starting running rfl ht
        | stop => exact .starting running rfl ht
        | destroy => exact .starting running rfl ht
    | built h =>
        cases call with
        | run => exact .built rfl
        | stop => exact .built rfl
        | destroy => exact .built rfl
    | looping h ht =>
        cases call with
        | run => exact .looping rfl ht
        | stop => exact .looping rfl ht
        | destroy => exact .looping rfl ht
    | leaving h ht => cases h
    | left h ht => cases h
    | joined running h =>
        cases call with
        | run => exact .starting running rfl rfl
        | stop => exact .joined running rfl
        | destroy => exact .joined running rfl
  · have hsame : EventThread.callStep ⟨thr, loop, running, owner, thread⟩ call =
        ⟨thr, loop, running, owner, thread⟩ := if_neg hidle
    rw [hsame]
    exact h

theorem LoopPc.constructed_of_looping {pc : LoopPc} (h : pc.looping = true) :
    pc.constructed = true := by
  cases pc with
  | testRunning => rfl
  | iterate => rfl
  | _ => cases h

theorem reached_ownerStep_looping {owner : OwnerPc} {thread : LoopPc} (h : owner.using = true)
    (ht : thread.looping = true) : Reached (ownerStep ⟨.joinable, true, true, owner, thread⟩) := by
  cases owner with
  | idle => exact .looping rfl ht
  | testLoop => exact .looping rfl ht
  | loadLoop => exact .looping rfl ht
  | clearRunning =>
      have hstep : ownerStep ⟨.joinable, true, true, .clearRunning, thread⟩ =
          ⟨.joinable, true, false, .wakeup, thread⟩ :=
        if_pos (LoopPc.constructed_of_looping ht)
      rw [hstep]
      exact .leaving rfl (.inl ht)
  | aborted => exact .looping rfl ht
  | _ => cases h

theorem reached_ownerStep_leaving {owner : OwnerPc} {thread : LoopPc} (h : owner.cleared = true)
    (ht : thread.looping = true ∨ thread = .unpublish) :
    Reached (ownerStep ⟨.joinable, true, false, owner, thread⟩) := by
  have hlive : thread.constructed = true ∧ thread ≠ .exited := by
    rcases ht with ht | rfl
    · exact ⟨LoopPc.constructed_of_looping ht, fun heq => by rw [heq] at ht; cases ht⟩
    · exact ⟨rfl, LoopPc.noConfusion⟩
  cases owner with
  | wakeup =>
      have hstep : ownerStep ⟨.joinable, true, false, .wakeup, thread⟩ =
          ⟨.joinable, true, false, .testJoinable, thread⟩ := by
        simp only [ownerStep, hlive.1, if_true]
      rw [hstep]
      exact .leaving rfl ht
  | testJoinable => exact .leaving rfl ht
  | join =>
      have hstep : ownerStep ⟨.joinable, true, false, .join, thread⟩ =
          ⟨.joinable, true, false, .join, thread⟩ := if_neg hlive.2
      rw [hstep]
      exact .leaving rfl ht
  | crashed => exact .leaving rfl ht
  | _ => cases h

theorem reached_ownerStep_left {owner : OwnerPc} {thread : LoopPc} (h : owner.cleared = true)
    (ht : thread = .destruct ∨ thread = .exited) :
    Reached (ownerStep ⟨.joinable, false, false, owner, thread⟩) := by
  cases owner with
  | wakeup =>
      rcases ht with rfl | rfl
      · exact .left rfl (.inl rfl)
      · exact .left rfl (.inr rfl)
  | testJoinable => exact .left rfl ht
  | join =>
      rcases ht with rfl | rfl
      · exact .left rfl (.inl rfl)
      · exact .joined false rfl
  | crashed => exact .left rfl ht
  | _ => cases h

theorem Reached.ownerStep {w : World} (h : Reached w) : Reached (ownerStep w) := by
  cases h with
  | @fresh owner running h =>
      cases owner with
      | idle => exact .fresh running rfl
      | testLoop => exact .fresh running rfl
      | gone => exact .fresh running rfl
      | _ => cases h
  | @starting owner thread running h ht =>
      cases owner with
      | idle => exact .starting running rfl ht
      | testLoop => exact .starting running rfl ht
      | aborted => exact .starting running rfl ht
      | _ => cases h
  | @built owner h =>
      cases owner with
      | idle => exact .built rfl
      | testLoop => exact .built rfl
      | aborted => exact .built rfl
      | _ => cases h
  | looping h ht => exact reached_ownerStep_looping h ht
  | leaving h ht => exact reached_ownerStep_leaving h ht
  | left h ht => exact reached_ownerStep_left h ht
  | @joined owner running h =>
      cases owner with
      | idle => exact .joined running rfl
      | testLoop => exact .joined running rfl
      | gone => exact .joined running rfl
      | _ => cases h

theorem Reached.loopStep {w : World} (h : Reached w) : Reached (loopStep w) := by
  cases h with
  | fresh running h => exact .fresh running h
  | @starting owner thread running h ht =>
      cases thread with
      | setTid => exact .starting running h rfl
      | construct => exact .built h
      | _ => cases ht
  | @built owner h =>
      have husing : owner.using = true := by
        cases owner with
        | idle => rfl
        | testLoop => rfl
        | aborted => rfl
        | _ => cases h
      exact .looping husing rfl
  | @looping owner thread h ht =>
      cases thread with
      | testRunning => exact .looping h rfl
      | iterate => exact .looping h rfl
      | _ => cases ht
  | @leaving owner thread h ht =>
      rcases ht with ht | rfl
      · cases thread with
        | testRunning => exact .leaving h (.inr rfl)
        | iterate => exact .leaving h (.inl rfl)
        | _ => cases ht
      · exact .left h (.inl rfl)
  | left h ht =>
      rcases ht with rfl | rfl
      · exact .left h (.inr rfl)
      · exact .left h (.inr rfl)
  | joined running h => exact .joined running h

theorem Reached.step {w : World} (h : Reached w) (event : Event) : Reached (step w event) := by
  unfold EventThread.step
  split
  · exact h
  · cases event with
    | call call => exact h.callStep call
    | owner => exact h.ownerStep
    | loop => exact h.loopStep

theorem reached_run (events : List Event) : Reached (events.foldl step World.init) :=
  foldl_of_step (fun _ event h => h.step event) reached_init events

/-! ## The loop that `stop` uses -/

/-- The test in `wakeup` comes while the loop is still on the stack of its thread. -/
def InTime (w : World) : Event → Prop
  | .owner => w.owner = .wakeup → w.thread ≠ .exited
  | .call _ => True
  | .loop => True

theorem callStep_not_crashed {w : World} (h : w.owner ≠ .crashed) (call : Call) :
    (callStep w call).owner ≠ .crashed := by
  unfold callStep
  split
  · cases call with
    | run => cases hthr : w.thr <;> simp [h]
    | stop => simp
    | destroy => cases hthr : w.thr <;> simp
  · exact h

theorem loopStep_owner (w : World) : (loopStep w).owner = w.owner := by
  unfold loopStep
  split <;> rfl

/-- The owner crashes in `wakeup` alone, and only there on a loop that is gone: the two
uses of `_loop` before it always find it. -/
theorem ownerStep_crashed_iff {w : World} (h : Reached w) (hsound : w.owner ≠ .crashed) :
    (ownerStep w).owner = .crashed ↔ w.owner = .wakeup ∧ w.thread = .exited := by
  cases h with
  | @fresh owner running h => cases owner <;> simp_all [ownerStep, OwnerPc.outside]
  | @starting owner thread running h ht => cases owner <;> simp_all [ownerStep, OwnerPc.early]
  | @built owner h => cases owner <;> simp_all [ownerStep, OwnerPc.early]
  | @looping owner thread h ht =>
      have hlive := LoopPc.constructed_of_looping ht
      cases owner <;> simp_all [ownerStep, OwnerPc.using]
  | @leaving owner thread h ht =>
      have hlive : thread.constructed = true ∧ thread ≠ .exited := by
        rcases ht with ht | rfl
        · exact ⟨LoopPc.constructed_of_looping ht, fun heq => by rw [heq] at ht; cases ht⟩
        · exact ⟨rfl, LoopPc.noConfusion⟩
      cases owner <;> simp_all [ownerStep, OwnerPc.cleared]
  | @left owner thread h ht =>
      rcases ht with rfl | rfl
      · cases owner <;> simp_all [ownerStep, OwnerPc.cleared, LoopPc.constructed]
      · cases owner <;> simp_all [ownerStep, OwnerPc.cleared, LoopPc.constructed]
  | @joined owner running h => cases owner <;> simp_all [ownerStep, OwnerPc.outside]

theorem step_crashed_iff {w : World} (h : Reached w) (hsound : w.owner ≠ .crashed) (event : Event) :
    (step w event).owner = .crashed ↔ ¬ InTime w event := by
  unfold step
  by_cases haborted : w.owner = .aborted
  · rw [if_pos (.inr haborted)]
    cases event <;> simp [InTime, haborted]
  · rw [if_neg (by simp [hsound, haborted])]
    cases event with
    | call call =>
        exact iff_of_false (callStep_not_crashed hsound call) (fun hnot => hnot trivial)
    | owner =>
        rw [ownerStep_crashed_iff h hsound]
        simp [InTime]
    | loop =>
        refine iff_of_false ?_ (fun hnot => hnot trivial)
        rw [loopStep_owner]
        exact hsound

/-- However the two threads interleave and whatever the owner calls, a loop that is gone
is used exactly when the thread has left its function between the store and the test of
`_running` in `stop`; every other use of `_loop` finds it. -/
theorem stop_finds_loop_iff (events : List Event) :
    Always step (fun w => w.owner ≠ .crashed) World.init events ↔
      Guarded step InTime World.init events := by
  refine always_iff_guarded (fun w => Reached w ∧ w.owner ≠ .crashed) (fun _ _ => True)
    (fun w h => h.2) ?_ ?_ ⟨reached_init, OwnerPc.noConfusion⟩
    (guarded_of_forall (fun _ _ => trivial) _ _)
  · intro w event h _ hok
    exact ⟨h.1.step event, fun hcrash => (step_crashed_iff h.1 h.2 event).mp hcrash hok⟩
  · intro w event h _ hnot halive
    exact halive ((step_crashed_iff h.1 h.2 event).mpr hnot)

/-! ## What becomes of a `stop` -/

/-- The owner has returned from `stop`, or made a call that ended the program, and the
thread has not been joined. -/
def Missed (w : World) : Prop := w.thr = .joinable ∧ (w.owner = .idle ∨ w.owner = .aborted)

theorem Missed.step {w : World} (h : Missed w) {event : Event} (hevent : event ≠ .call .stop) :
    Missed (step w event) := by
  rcases w with ⟨thr, loop, running, owner, thread⟩
  rcases h with ⟨hthr, howner⟩
  have hthr : thr = .joinable := hthr
  subst hthr
  rcases howner with howner | howner
  · have howner : owner = .idle := howner
    subst howner
    cases event with
    | call call =>
        cases call with
        | run => exact ⟨rfl, .inr rfl⟩
        | stop => exact absurd rfl hevent
        | destroy => exact ⟨rfl, .inr rfl⟩
    | owner => exact ⟨rfl, .inl rfl⟩
    | loop => cases thread <;> exact ⟨rfl, .inl rfl⟩
  · have howner : owner = .aborted := howner
    subst howner
    exact ⟨rfl, .inr rfl⟩

/-- Nothing but a `stop` that finds the loop ends the thread. -/
theorem Missed.not_exited {w : World} (h : Missed w) (hw : Reached w) : w.thread ≠ .exited := by
  rcases w with ⟨thr, loop, running, owner, thread⟩
  rcases h with ⟨hthr, howner⟩
  have hthr : thr = .joinable := hthr
  have howner : owner = .idle ∨ owner = .aborted := howner
  subst hthr
  intro hexited
  have hexited : thread = .exited := hexited
  subst hexited
  cases hw with
  | starting running h ht => cases ht
  | looping h ht => cases ht
  | leaving h ht => rcases ht with ht | ht <;> cases ht
  | left h ht => rcases howner with rfl | rfl <;> cases h

theorem Reached.joinable_of_cleared {w : World} (h : Reached w)
    (hcleared : w.owner.cleared = true) : w.thr = .joinable := by
  cases h with
  | @fresh owner running h => cases owner <;> simp_all [OwnerPc.outside, OwnerPc.cleared]
  | @joined owner running h => cases owner <;> simp_all [OwnerPc.outside, OwnerPc.cleared]
  | _ => rfl

/-- `stop` has found the loop and has not returned, or it has joined the thread. -/
def Stopping (w : World) : Prop :=
  w.loop = true ∧ (w.owner = .testLoop ∨ w.owner = .loadLoop ∨ w.owner = .clearRunning) ∨
    w.owner.cleared = true ∨ w.owner = .idle ∧ w.thr = .joined

theorem Stopping.ownerStep {w : World} (h : Stopping w) (hw : Reached w) :
    Stopping (ownerStep w) := by
  rcases w with ⟨thr, loop, running, owner, thread⟩
  rcases h with ⟨hloop, howner⟩ | hcleared | ⟨howner, hthr⟩
  · have hloop : loop = true := hloop
    subst hloop
    rcases howner with howner | howner | howner
    · have howner : owner = .testLoop := howner
      subst howner
      exact .inl ⟨rfl, .inr (.inl rfl)⟩
    · have howner : owner = .loadLoop := howner
      subst howner
      exact .inl ⟨rfl, .inr (.inr rfl)⟩
    · right; left
      have howner : owner = .clearRunning := howner
      subst howner
      unfold EventThread.ownerStep
      simp only
      split <;> rfl
  · have hthr : thr = .joinable := hw.joinable_of_cleared hcleared
    subst hthr
    cases owner with
    | wakeup =>
        right; left
        unfold EventThread.ownerStep
        simp only
        split <;> rfl
    | testJoinable => exact .inr (.inl rfl)
    | join =>
        right
        unfold EventThread.ownerStep
        simp only
        split
        · exact .inr ⟨rfl, rfl⟩
        · exact .inl rfl
    | crashed => exact .inr (.inl rfl)
    | _ => cases hcleared
  · have howner : owner = .idle := howner
    subst howner
    exact .inr (.inr ⟨rfl, hthr⟩)

theorem Stopping.loopStep {w : World} (h : Stopping w) (hw : Reached w) : Stopping (loopStep w) := by
  have hthr : (EventThread.loopStep w).thr = w.thr := by
    unfold EventThread.loopStep
    split <;> rfl
  unfold Stopping
  rw [loopStep_owner, hthr]
  rcases h with ⟨hloop, howner⟩ | hcleared | hidle
  · left
    refine ⟨?_, howner⟩
    cases hw with
    | @looping owner thread h ht =>
        cases thread with
        | testRunning => rfl
        | iterate => rfl
        | _ => cases ht
    | @leaving owner thread h ht =>
        rcases howner with howner | howner | howner
        · have howner : owner = .testLoop := howner
          subst howner
          cases h
        · have howner : owner = .loadLoop := howner
          subst howner
          cases h
        · have howner : owner = .clearRunning := howner
          subst howner
          cases h
    | _ => cases hloop
  · exact .inr (.inl hcleared)
  · exact .inr (.inr hidle)

theorem Stopping.step {w : World} (h : Stopping w) (hw : Reached w) {event : Event}
    (hevent : ∀ call, event ≠ .call call) : Stopping (step w event) := by
  unfold EventThread.step
  split
  · exact h
  · cases event with
    | call call => exact absurd rfl (hevent call)
    | owner => exact h.ownerStep hw
    | loop => exact h.loopStep hw

theorem Stopping.ended {w : World} (h : Stopping w) (hw : Reached w) (hidle : w.owner = .idle) :
    w.thr = .joined ∧ w.thread = .exited ∧ w.loop = false := by
  have hthr : w.thr = .joined := by
    rcases h with ⟨_, howner | howner | howner⟩ | hcleared | ⟨_, hthr⟩
    · rw [hidle] at howner
      cases howner
    · rw [hidle] at howner
      cases howner
    · rw [hidle] at howner
      cases howner
    · rw [hidle] at hcleared
      cases hcleared
    · exact hthr
  cases hw with
  | joined running h => exact ⟨rfl, rfl, rfl⟩
  | _ => cases hthr

def Doomed (w : World) : Prop := w.owner = .crashed ∨ w.owner = .wakeup ∧ w.thread = .exited

/-- Five steps of the owner, five of the thread and one more of the owner. -/
def finish : List Event :=
  [.owner, .owner, .owner, .owner, .owner, .loop, .loop, .loop, .loop, .loop, .owner]

theorem Stopping.finish {w : World} (h : Stopping w) (hw : Reached w) (hdoomed : ¬ Doomed w) :
    (finish.foldl EventThread.step w).owner = .idle := by
  rcases h with ⟨hloop, howner⟩ | hcleared | ⟨howner, hthr⟩
  · cases hw with
    | @looping owner thread h ht =>
        have howner : owner = .testLoop ∨ owner = .loadLoop ∨ owner = .clearRunning := howner
        cases thread with
        | testRunning => rcases howner with rfl | rfl | rfl <;> rfl
        | iterate => rcases howner with rfl | rfl | rfl <;> rfl
        | _ => cases ht
    | @leaving owner thread h ht =>
        have howner : owner = .testLoop ∨ owner = .loadLoop ∨ owner = .clearRunning := howner
        rcases howner with rfl | rfl | rfl <;> cases h
    | _ => cases hloop
  · have hthr := hw.joinable_of_cleared hcleared
    cases hw with
    | @leaving owner thread h ht =>
        have hthread : thread = .testRunning ∨ thread = .iterate ∨ thread = .unpublish := by
          cases thread <;> simp_all [LoopPc.looping]
        cases owner with
        | wakeup => rcases hthread with rfl | rfl | rfl <;> rfl
        | testJoinable => rcases hthread with rfl | rfl | rfl <;> rfl
        | join => rcases hthread with rfl | rfl | rfl <;> rfl
        | crashed => exact absurd (.inl rfl) hdoomed
        | _ => cases h
    | @left owner thread h ht =>
        rcases ht with rfl | rfl
        · cases owner with
          | wakeup => rfl
          | testJoinable => rfl
          | join => rfl
          | crashed => exact absurd (.inl rfl) hdoomed
          | _ => cases h
        · cases owner with
          | wakeup => exact absurd (.inr ⟨rfl, rfl⟩) hdoomed
          | testJoinable => rfl
          | join => rfl
          | crashed => exact absurd (.inl rfl) hdoomed
          | _ => cases h
    | @looping owner thread h ht => cases owner <;> simp_all [OwnerPc.using, OwnerPc.cleared]
    | @starting owner thread running h ht => cases owner <;> simp_all [OwnerPc.early, OwnerPc.cleared]
    | @built owner h => cases owner <;> simp_all [OwnerPc.early, OwnerPc.cleared]
    | _ => cases hthr
  · cases hw with
    | @joined owner running h =>
        have howner : owner = .idle := howner
        subst howner
        cases running with
        | true => rfl
        | false => rfl
    | _ => cases hthr

/-- Whatever came before, a `stop` of a thread that has not published its loop returns
at its first test and stops nothing: the thread never ends, until another `stop`, and
destroying it aborts.  A `stop` that finds the loop returns only after the thread has
ended and been joined, and can always return unless it has come too late for its
`wakeup`. -/
theorem stop_outcome (before : List Event)
    (hstop : (before.foldl step World.init).owner = .testLoop) :
    ((before.foldl step World.init).thr = .joinable →
      (before.foldl step World.init).loop = false →
        (step (before.foldl step World.init) .owner).owner = .idle ∧
        ∀ later : List Event, .call .stop ∉ later →
          Missed ((.owner :: later).foldl step (before.foldl step World.init)) ∧
            ((.owner :: later).foldl step (before.foldl step World.init)).thread ≠ .exited) ∧
    ((before.foldl step World.init).loop = true →
      ∀ later : List Event, (∀ event ∈ later, ∀ call, event ≠ .call call) →
        ((later.foldl step (before.foldl step World.init)).owner = .idle →
          (later.foldl step (before.foldl step World.init)).thr = .joined ∧
            (later.foldl step (before.foldl step World.init)).thread = .exited ∧
              (later.foldl step (before.foldl step World.init)).loop = false) ∧
        (¬ Doomed (later.foldl step (before.foldl step World.init)) →
          ((later ++ finish).foldl step (before.foldl step World.init)).owner = .idle)) := by
  have hw := reached_run before
  generalize before.foldl step World.init = w at hstop hw
  constructor
  · intro hthr hloop
    have hreturned : (step w .owner).owner = .idle ∧ (step w .owner).thr = .joinable := by
      rcases w with ⟨thr, loop, running, owner, thread⟩
      have hstop : owner = .testLoop := hstop
      have hloop : loop = false := hloop
      subst hstop hloop
      exact ⟨rfl, hthr⟩
    refine ⟨hreturned.1, ?_⟩
    intro later hlater
    have hmissed : Missed (step w .owner) := ⟨hreturned.2, .inl hreturned.1⟩
    clear hreturned
    have hrun : Missed (later.foldl step (step w .owner)) ∧
        Reached (later.foldl step (step w .owner)) := by
      have hfirst := hw.step .owner
      generalize step w .owner = v at hmissed hfirst
      induction later generalizing v with
      | nil => exact ⟨hmissed, hfirst⟩
      | cons event rest ih =>
          rw [List.mem_cons, not_or] at hlater
          exact ih hlater.2 (step v event) (hmissed.step (Ne.symm hlater.1)) (hfirst.step event)
    exact ⟨hrun.1, hrun.1.not_exited hrun.2⟩
  · intro hloop later hlater
    have hrun : Stopping (later.foldl step w) ∧ Reached (later.foldl step w) := by
      have hstopping : Stopping w := .inl ⟨hloop, .inl hstop⟩
      clear hstop hloop
      induction later generalizing w with
      | nil => exact ⟨hstopping, hw⟩
      | cons event rest ih =>
          rw [List.forall_mem_cons] at hlater
          exact ih (step w event) (hw.step event) hlater.2 (hstopping.step hw hlater.1)
    constructor
    · intro hidle
      exact hrun.1.ended hrun.2 hidle
    · intro hdoomed
      rw [List.foldl_append]
      exact hrun.1.finish hrun.2 hdoomed

/-- The thread is in its loop when it is stopped. -/
theorem stop_outcome_joined :
    (finish.foldl step
      ([.call .run, .loop, .loop, .loop, .call .stop].foldl step World.init)).thr = .joined := by
  have hloop : ([Event.call .run, .loop, .loop, .loop, .call .stop].foldl step
      World.init).loop = true := rfl
  have houtcome := (stop_outcome [.call .run, .loop, .loop, .loop, .call .stop] rfl).2 hloop finish
    (by
      intro event hevent call heq
      rw [heq] at hevent
      simp [finish] at hevent)
  exact (houtcome.1 rfl).1

end NetTest.EventThread
