import Mathlib.Algebra.Group.Nat.Defs
import NetTest.Lib.Runs

/-!
# The wake-up of the event loop

`loop` waits in `select` on an event descriptor and on the connections it knew
when it last looked.  `add_task`, `add_net` and `remove_net` change what the loop
looks at and then call `wakeup`, which adds one to the descriptor's counter.
Other threads, tasks and the callbacks of connections make these calls at any
time; a call takes several steps.

The loop is taken as built without `_BUSY_LOOP_` and `_NIO_EPOLL_`, and without
timers: what a pending one does to `process_timer` is in `EventLoop.Timers`.
-/

namespace NetTest.EventLoop.Wakeup

open Runs

variable {α : Type*}

/-! ## The event descriptor -/

/-- The counter of an `eventfd`; nobody can read while it is zero. -/
def eventfdMax : Nat := 2 ^ 64 - 2

/-- `::write` of one: fails, and changes nothing, when the counter is full. -/
def eventfdWrite (count : Nat) : Nat :=
  if count < eventfdMax then count + 1 else count

/-- `::read` takes the whole counter, and fails when there is nothing. -/
def eventfdRead (_ : Nat) : Nat := 0

theorem eventfdWrite_ne_zero (count : Nat) : eventfdWrite count ≠ 0 := by
  rw [eventfdWrite]
  split
  · exact Nat.succ_ne_zero count
  · rename_i hfull
    rintro rfl
    exact hfull (by decide)

/-! ## The loop and the calls -/

/-- Where a call is: before its critical section, before the test of `_running`
in `wakeup`, before the `write`. -/
inductive Call (α : Type*) where
  | pushing (task : α)
  | inserting (conn : Nat)
  | erasing (conn : Nat)
  | waking
  | writing
  | done

/-- Where the loop is: at the test of `_running`, in `process_task` before and
after it has taken the list, at the snapshot, in `select`, in `handle_read`, at
the connections. -/
inductive Pc (α : Type*) where
  | top
  | swapping
  | executing (tsks : List α)
  | gathering
  | selecting
  | reading
  | serving
  | exited

structure World (α : Type*) where
  running : Bool
  tasks : List α
  /-- `_conns` -/
  registered : List Nat
  wakeFd : Nat
  calls : List (Call α)
  pc : Pc α
  /-- `conns`, the snapshot that the loop waits with. -/
  watched : List Nat
  /-- The tasks in the order of their critical sections. -/
  added : List α
  executed : List α

def World.init : World α where
  running := true
  tasks := []
  registered := []
  wakeFd := 0
  calls := []
  pc := .top
  watched := []
  added := []
  executed := []

/-- What `select` finds.  Without `quiet`, a connection is ready. -/
inductive Ready where
  /-- Nothing but the event descriptor can end the wait. -/
  | quiet
  | conn
  /-- The time is up, or `select` fails: `nret` is not positive. -/
  | elapsed

def loopStep (w : World α) (ready : Ready) : Pc α → World α
  | .top => { w with pc := if w.running then .swapping else .exited }
  | .swapping => { w with tasks := [], pc := .executing w.tasks }
  | .executing [] => { w with pc := .gathering }
  | .executing (tsk :: rest) => { w with executed := w.executed ++ [tsk], pc := .executing rest }
  | .gathering => { w with watched := w.registered, pc := .selecting }
  | .selecting =>
      match ready with
      | .quiet => if w.wakeFd = 0 then w else { w with pc := .reading }
      | .conn => { w with pc := if w.wakeFd = 0 then .serving else .reading }
      | .elapsed => { w with pc := .serving }
  | .reading => { w with wakeFd := eventfdRead w.wakeFd, pc := .serving }
  | .serving => { w with watched := [], pc := .top }
  | .exited => w

def runCall (w : World α) (k : Nat) : Call α → World α
  | .pushing task =>
      { w with
        tasks := w.tasks ++ [task]
        added := w.added ++ [task]
        calls := w.calls.set k .waking }
  | .inserting conn =>
      { w with
        registered := if conn ∈ w.registered then w.registered else conn :: w.registered
        calls := w.calls.set k .waking }
  | .erasing conn =>
      { w with
        registered := w.registered.erase conn
        calls := w.calls.set k .waking }
  | .waking => { w with calls := w.calls.set k (if w.running then .writing else .done) }
  | .writing => { w with wakeFd := eventfdWrite w.wakeFd, calls := w.calls.set k .done }
  | .done => w

inductive Event (α : Type*) where
  | addTask (task : α)
  | addNet (conn : Nat)
  | removeNet (conn : Nat)
  | stop
  /-- A call takes its next step. -/
  | run (k : Nat)
  | loop (ready : Ready)

def step (w : World α) : Event α → World α
  | .addTask task => if w.running then { w with calls := w.calls ++ [.pushing task] } else w
  | .addNet conn => if w.running then { w with calls := w.calls ++ [.inserting conn] } else w
  | .removeNet conn => { w with calls := w.calls ++ [.erasing conn] }
  | .stop => { w with running := false, calls := w.calls ++ [.waking] }
  | .run k =>
      match w.calls[k]? with
      | none => w
      | some call => runCall w k call
  | .loop ready => loopStep w ready w.pc

/-! ## What is announced -/

/-- The call has changed something and has not yet written. -/
def Call.Wakes : Call α → Prop
  | .waking => True
  | .writing => True
  | _ => False

def World.Announced (w : World α) : Prop :=
  w.wakeFd ≠ 0 ∨ ∃ call ∈ w.calls, call.Wakes

def Pc.Taken : Pc α → Prop
  | .executing _ => True
  | .gathering => True
  | .selecting => True
  | _ => False

def Pc.batch : Pc α → List α
  | .executing tsks => tsks
  | _ => []

structure Inv (w : World α) : Prop where
  order : w.executed ++ w.pc.batch ++ w.tasks = w.added
  tasks : w.running = true → w.pc.Taken → w.tasks = [] ∨ w.Announced
  conns : w.running = true → w.pc = .selecting → w.watched = w.registered ∨ w.Announced
  exited : w.pc = .exited → w.running = false

theorem inv_init : Inv (World.init : World α) where
  order := rfl
  tasks _ _ := .inl rfl
  conns _ h := nomatch h
  exited h := nomatch h

theorem announced_of_mem {w : World α} {call : Call α} (h : call ∈ w.calls) (hwakes : call.Wakes) :
    w.Announced :=
  .inr ⟨call, h, hwakes⟩

theorem Inv.call {w : World α} (h : Inv w) (call : Call α) :
    Inv { w with calls := w.calls ++ [call] } := by
  have hmono : w.Announced → World.Announced { w with calls := w.calls ++ [call] } := by
    intro hannounced
    rcases hannounced with hcount | ⟨other, hmem, hwakes⟩
    · exact .inl hcount
    · exact .inr ⟨other, List.mem_append_left _ hmem, hwakes⟩
  constructor
  · exact h.order
  · intro hrunning htaken
    exact (h.tasks hrunning htaken).imp id hmono
  · intro hrunning hselecting
    exact (h.conns hrunning hselecting).imp id hmono
  · exact h.exited

/-- The call is about to wake the loop: nothing can be missed. -/
theorem Inv.announce {w w' : World α} (h : Inv w) (hpc : w'.pc = w.pc)
    (hrunning : w'.running = w.running) (hannounced : w'.Announced)
    (horder : w'.executed ++ w.pc.batch ++ w'.tasks = w'.added) : Inv w' where
  order := by
    rw [hpc]
    exact horder
  tasks _ _ := .inr hannounced
  conns _ _ := .inr hannounced
  exited := by
    rw [hpc, hrunning]
    exact h.exited

theorem Inv.runCall {w : World α} (h : Inv w) {k : Nat} {call : Call α}
    (hk : w.calls[k]? = some call) : Inv (runCall w k call) := by
  have hlt : k < w.calls.length := (List.getElem?_eq_some_iff.mp hk).choose
  have hset : ∀ call' : Call α, call' ∈ w.calls.set k call' := List.mem_set hlt
  cases call with
  | pushing task =>
      refine h.announce rfl rfl (announced_of_mem (hset .waking) trivial) ?_
      simp only [Wakeup.runCall]
      rw [← List.append_assoc, h.order]
  | inserting conn => exact h.announce rfl rfl (announced_of_mem (hset .waking) trivial) h.order
  | erasing conn => exact h.announce rfl rfl (announced_of_mem (hset .waking) trivial) h.order
  | waking =>
      cases hrunning : w.running with
      | false =>
          -- the loop is not going to look again
          have hoff : (Wakeup.runCall w k .waking).running ≠ true := by
            simp [Wakeup.runCall, hrunning]
          exact ⟨h.order, fun hon => absurd hon hoff, fun hon => absurd hon hoff, h.exited⟩
      | true =>
          refine h.announce rfl rfl ?_ h.order
          simp only [Wakeup.runCall, hrunning, if_true]
          exact announced_of_mem (hset .writing) trivial
  | writing => exact h.announce rfl rfl (.inl (eventfdWrite_ne_zero w.wakeFd)) h.order
  | done => exact h

theorem Inv.loop {w : World α} (h : Inv w) (ready : Ready) : Inv (loopStep w ready w.pc) := by
  have horder := h.order
  have htasks := h.tasks
  have hconns := h.conns
  cases hpc : w.pc with
  | top =>
      rw [hpc] at horder
      cases hrunning : w.running <;>
        exact ⟨by simpa [loopStep, hrunning, Pc.batch] using horder,
          by simp [loopStep, hrunning, Pc.Taken], by simp [loopStep, hrunning],
          by simp [loopStep, hrunning]⟩
  | swapping =>
      rw [hpc] at horder
      exact ⟨by simpa [loopStep, Pc.batch] using horder, fun _ _ => .inl rfl, nofun, nofun⟩
  | executing tsks =>
      rw [hpc] at horder htasks
      cases tsks with
      | nil => exact ⟨horder, fun hrunning _ => htasks hrunning trivial, nofun, nofun⟩
      | cons tsk rest =>
          refine ⟨?_, fun hrunning _ => htasks hrunning trivial, nofun, nofun⟩
          simpa [loopStep, Pc.batch] using horder
  | gathering =>
      rw [hpc] at horder htasks
      exact ⟨horder, fun hrunning _ => htasks hrunning trivial, fun _ _ => .inl rfl, nofun⟩
  | selecting =>
      rw [hpc] at horder
      cases ready with
      | quiet =>
          rw [loopStep]
          split
          · exact h
          · exact ⟨horder, nofun, nofun, nofun⟩
      | conn =>
          by_cases hcount : w.wakeFd = 0
          · rw [loopStep, if_pos hcount]
            exact ⟨horder, nofun, nofun, nofun⟩
          · rw [loopStep, if_neg hcount]
            exact ⟨horder, nofun, nofun, nofun⟩
      | elapsed => exact ⟨horder, nofun, nofun, nofun⟩
  | reading =>
      rw [hpc] at horder
      exact ⟨horder, nofun, nofun, nofun⟩
  | serving =>
      rw [hpc] at horder
      exact ⟨horder, nofun, nofun, nofun⟩
  | exited => exact h

theorem inv_step {w : World α} (h : Inv w) (e : Event α) : Inv (step w e) := by
  cases e with
  | addTask task =>
      rw [step]
      split
      · exact h.call _
      · exact h
  | addNet conn =>
      rw [step]
      split
      · exact h.call _
      · exact h
  | removeNet conn => exact h.call _
  | stop => exact ⟨h.order, nofun, nofun, fun _ => rfl⟩
  | run k =>
      rw [step]
      split
      · exact h
      · rename_i call hk
        exact h.runCall hk
  | loop ready => exact h.loop ready

theorem inv_run (events : List (Event α)) : Inv (events.foldl step (World.init : World α)) :=
  foldl_of_step (P := Inv) (fun _ e h => inv_step h e) inv_init events

/-! ## No lost wake-up -/

/-- The loop sits in `select` and only another call can end that. -/
def World.Asleep (w : World α) : Prop :=
  w.pc = .selecting ∧ w.wakeFd = 0

def World.Settled (w : World α) : Prop := ∀ call ∈ w.calls, ¬ call.Wakes

structure World.UpToDate (w : World α) : Prop where
  executed : w.executed = w.added
  watched : w.watched = w.registered

theorem Inv.upToDate {w : World α} (h : Inv w) (hrunning : w.running = true) (hasleep : w.Asleep)
    (hsettled : w.Settled) : w.UpToDate := by
  have hquiet : ¬ w.Announced := by
    rintro (hcount | ⟨call, hmem, hwakes⟩)
    · exact hcount hasleep.2
    · exact hsettled call hmem hwakes
  have htasks : w.tasks = [] :=
    (h.tasks hrunning (by rw [hasleep.1]; trivial)).resolve_right hquiet
  constructor
  · simpa [hasleep.1, Pc.batch, htasks] using h.order
  · exact (h.conns hrunning hasleep.1).resolve_right hquiet

/-- No wake-up is lost, whatever the interleaving: whenever the loop has gone to
sleep and no call is on its way to wake it, every task added has been called, in
order, and the loop waits on exactly the registered connections. -/
theorem no_lost_wakeup (events : List (Event α)) :
    Always step (fun w => w.running = true → w.Asleep → w.Settled → w.UpToDate)
      World.init events := by
  have hinv := always_of_step (P := Inv) (fun _ e h => inv_step h e) inv_init events
  apply hinv.mono
  intro w h
  exact h.upToDate

/-! ## Progress -/

/-- The loop alone, with no connection ready and no time running out, comes to
where `P` holds. -/
def Comes (P : World α → Prop) (w : World α) : Prop :=
  ∃ n, P ((List.replicate n (Event.loop .quiet)).foldl step w)

variable {P : World α → Prop}

theorem Comes.here {w : World α} (h : P w) : Comes P w := ⟨0, h⟩

theorem Comes.next {w : World α} (h : Comes P (loopStep w .quiet w.pc)) : Comes P w := by
  rcases h with ⟨n, h⟩
  exact ⟨n + 1, h⟩

structure Same (w w' : World α) : Prop where
  running : w'.running = w.running
  calls : w'.calls = w.calls
  added : w'.added = w.added
  registered : w'.registered = w.registered

theorem same_loop (w : World α) : Same w (loopStep w .quiet w.pc) := by
  cases w.pc with
  | top => exact ⟨rfl, rfl, rfl, rfl⟩
  | swapping => exact ⟨rfl, rfl, rfl, rfl⟩
  | executing tsks => cases tsks <;> exact ⟨rfl, rfl, rfl, rfl⟩
  | gathering => exact ⟨rfl, rfl, rfl, rfl⟩
  | selecting =>
      rw [loopStep]
      split <;> exact ⟨rfl, rfl, rfl, rfl⟩
  | reading => exact ⟨rfl, rfl, rfl, rfl⟩
  | serving => exact ⟨rfl, rfl, rfl, rfl⟩
  | exited => exact ⟨rfl, rfl, rfl, rfl⟩

theorem same_alone (w : World α) (n : Nat) :
    Same w ((List.replicate n (Event.loop .quiet)).foldl step w) := by
  induction n generalizing w with
  | zero => exact ⟨rfl, rfl, rfl, rfl⟩
  | succ n ih =>
      have hfirst := same_loop w
      have hrest := ih (loopStep w .quiet w.pc)
      exact ⟨hrest.running.trans hfirst.running, hrest.calls.trans hfirst.calls,
        hrest.added.trans hfirst.added, hrest.registered.trans hfirst.registered⟩

section

variable {count : Nat}

theorem comes_gathering {w : World α} (hcount : w.wakeFd = count) (hpc : w.pc = .gathering) :
    Comes (fun w => w.pc = .selecting ∧ w.wakeFd = count) w := by
  apply Comes.next
  rw [hpc]
  exact .here ⟨rfl, hcount⟩

theorem comes_executing (tsks : List α) {w : World α} (hcount : w.wakeFd = count)
    (hpc : w.pc = .executing tsks) :
    Comes (fun w => w.pc = .selecting ∧ w.wakeFd = count) w := by
  apply Comes.next
  rw [hpc]
  induction tsks generalizing w with
  | nil => exact comes_gathering hcount rfl
  | cons tsk rest ih =>
      apply Comes.next
      exact ih (w := loopStep w .quiet (.executing (tsk :: rest))) hcount rfl

theorem comes_top {w : World α} (hcount : w.wakeFd = count) (hrunning : w.running = true)
    (hpc : w.pc = .top) : Comes (fun w => w.pc = .selecting ∧ w.wakeFd = count) w := by
  apply Comes.next
  rw [hpc, loopStep, hrunning, if_pos rfl]
  apply Comes.next
  exact comes_executing w.tasks hcount rfl

theorem comes_serving {w : World α} (hcount : w.wakeFd = count) (hrunning : w.running = true)
    (hpc : w.pc = .serving) : Comes (fun w => w.pc = .selecting ∧ w.wakeFd = count) w := by
  apply Comes.next
  rw [hpc]
  exact comes_top hcount hrunning rfl

end

/-- After `handle_read` the next wait finds the counter at zero. -/
theorem comes_reading {w : World α} (hrunning : w.running = true) (hpc : w.pc = .reading) :
    Comes World.Asleep w := by
  apply Comes.next
  rw [hpc]
  exact comes_serving rfl hrunning rfl

theorem comes_selecting {w : World α} (hrunning : w.running = true) (hpc : w.pc = .selecting) :
    Comes World.Asleep w := by
  by_cases hcount : w.wakeFd = 0
  · exact .here ⟨hpc, hcount⟩
  · apply Comes.next
    rw [hpc, loopStep, if_neg hcount]
    exact comes_reading hrunning rfl

/-- Two stages: to `select`, and from there once around if it does not wait. -/
theorem Comes.select {w : World α} {count : Nat} (hrunning : w.running = true)
    (h : Comes (fun w => w.pc = .selecting ∧ w.wakeFd = count) w) : Comes World.Asleep w := by
  rcases h with ⟨n, hpc, -⟩
  have hon := (same_alone w n).running.trans hrunning
  rcases comes_selecting hon hpc with ⟨m, hasleep⟩
  refine ⟨n + m, ?_⟩
  rw [List.replicate_add, List.foldl_append]
  exact hasleep

theorem Inv.comes {w : World α} (h : Inv w) (hrunning : w.running = true) :
    Comes World.Asleep w := by
  cases hpc : w.pc with
  | top => exact (comes_top rfl hrunning hpc).select hrunning
  | swapping =>
      apply Comes.next
      rw [hpc]
      exact (comes_executing w.tasks rfl rfl).select hrunning
  | executing tsks => exact (comes_executing tsks rfl hpc).select hrunning
  | gathering => exact (comes_gathering rfl hpc).select hrunning
  | selecting => exact comes_selecting hrunning hpc
  | reading => exact comes_reading hrunning hpc
  | serving => exact (comes_serving rfl hrunning hpc).select hrunning
  | exited =>
      rw [h.exited hpc] at hrunning
      cases hrunning

theorem Inv.alone {w : World α} (h : Inv w) (n : Nat) :
    Inv ((List.replicate n (Event.loop .quiet)).foldl step w) :=
  foldl_of_step (P := Inv) (fun _ e h => inv_step h e) h _

/-- The loop needs neither its timeout nor a connection to get everything done:
from any moment at which the calls so far have written, it reaches, by its own
steps, a wait with every task called and every registered connection watched. -/
theorem wakeup_suffices (events : List (Event α)) :
    let w := events.foldl step (World.init : World α)
    w.running = true → w.Settled →
      ∃ n, let w' := (List.replicate n (Event.loop .quiet)).foldl step w
        w'.Asleep ∧ w'.executed = w.added ∧ w'.watched = w.registered := by
  intro w hrunning hsettled
  have hinv : Inv w := inv_run events
  rcases hinv.comes hrunning with ⟨n, hasleep⟩
  have hsame := same_alone w n
  have hupToDate := (hinv.alone n).upToDate (hsame.running.trans hrunning) hasleep
    (by rw [World.Settled, hsame.calls]; exact hsettled)
  exact ⟨n, hasleep, hupToDate.executed.trans hsame.added,
    hupToDate.watched.trans hsame.registered⟩

/-- A task is added while the loop is about to wait. -/
theorem wakeup_suffices_late :
    let w := [Event.loop .quiet, Event.loop .quiet, Event.addTask 7, Event.run 0,
      Event.loop .quiet, Event.loop .quiet, Event.run 0, Event.run 0].foldl step
        (World.init : World Nat)
    ∃ n, let w' := (List.replicate n (Event.loop .quiet)).foldl step w
      w'.Asleep ∧ w'.executed = w.added ∧ w'.watched = w.registered :=
  wakeup_suffices _ rfl (by simp [World.Settled, step, loopStep, runCall, World.init, Call.Wakes])

end NetTest.EventLoop.Wakeup
