import NetTest.Core.TcpConn.Pending

/-!
# Output under the loop

The send side of a connection that `eventloop::loop` watches.  Threads call
`send_msg` whenever they like; `OnSend` is called by the loop alone, after a
`select` that was asked about the connection because `wait_sndmsg_size` was not
zero.  So `OnSend` runs only while the queue holds something, and what the queue
holds `OnSend` does not take out.
-/

namespace NetTest.EventLoop.Writes

open Runs Queue TcpConn

/-! ## The loop and the connection -/

/-- `armed` is the bit of the connection in `wt_fds`, for a connection of the
snapshot. -/
structure Driven where
  sender : Sender
  armed : Bool

def start (net : NetIo) (memory : Nat → List UInt8) : Driven := ⟨Sender.create net memory, false⟩

/-- The loop alternates between `watch` and `dispatch`; the other calls come at
any time, from callbacks and from other threads. -/
inductive Event where
  | sendMsg (data : List UInt8) (room : Bool) (result : SendResult) (now : Nat)
  /-- The turn of the connection while the loop fills the sets. -/
  | watch
  /-- Its turn after `select`; `kept` says whether `select` left its bit, as it
  does for every bit when it fails. -/
  | dispatch (kept : Bool) (result : SendResult) (now : Nat)
  | addNet
  | removeNet
  /-- `terminate`, as `OnRead` calls it among others. -/
  | terminate (now : Nat)

def step (s : Driven) : Event → Driven
  | .sendMsg data room result now =>
      { s with sender := sendStep s.sender (.sendMsg data room result now) }
  | .watch => { s with armed := s.sender.net.loop && waitSndmsgSize s.sender != 0 }
  | .dispatch kept result now =>
      { s with
        sender := if s.armed && kept then sendStep s.sender (.onSend result now) else s.sender
        armed := false }
  | .addNet => { s with sender.net.loop := true }
  | .removeNet => { s with sender.net.loop := false }
  | .terminate now => { s with sender.net := s.sender.net.terminate now }

def run (net : NetIo) (memory : Nat → List UInt8) (events : List Event) : Driven :=
  events.foldl step (start net memory)

/-- Messages are not empty, sockets behave as they may, a pending send meets no
transient error and a direct send that is taken in part finds memory. -/
def Sound (s : Driven) : Event → Prop
  | .sendMsg data room result now =>
      data ≠ [] ∧ SendLegal s.sender (.sendMsg data room result now) ∧
        SendFine s.sender (.sendMsg data room result now)
  | .dispatch kept result now => s.armed = true → kept = true →
      SendLegal s.sender (.onSend result now) ∧ SendFine s.sender (.onSend result now)
  | _ => True

/-- The test of `send_msg`: a message cannot be sent directly. -/
def Clogged (c : Sender) : Prop := c.sndBuf.isSome ∨ ngxQueueEmpty c.waitSnds = false

instance (c : Sender) : Decidable (Clogged c) := inferInstanceAs (Decidable (_ ∨ _))

def TakenWhole (s : Driven) : Event → Prop
  | .sendMsg data room result _ =>
      s.sender.net.brkTm = 0 → ¬ Clogged s.sender →
        match result with
        | .accepted n => n = 0 ∨ n = data.length
        | .failed errno => room = true → errno ≠ eagain ∧ errno ≠ eintr
  | _ => True

/-! ## What one call does -/

/-- A message that cannot be sent is refused, for want of memory or of room, or it
stands behind the others; nothing leaves the process. -/
theorem enqueue_spec {c : Sender} {waiting : List (List UInt8)} (h : SendInv c waiting)
    (data : List UInt8) (room : Bool) :
    (enqueue c data room).1.sndBuf = c.sndBuf ∧ (enqueue c data room).1.sndLen = c.sndLen ∧
      (enqueue c data room).1.accepted = c.accepted ∧ (enqueue c data room).1.acked = c.acked ∧
      ((enqueue c data room).2 = some (-1) ∧ (room = true → waiting.length = 1024) ∧
          SendInv (enqueue c data room).1 waiting ∨
        (enqueue c data room).2 = some 0 ∧
          SendInv { (enqueue c data room).1 with acked := c.acked ++ [data] }
            (waiting ++ [data])) := by
  rcases enqueue_cases h.queue h.head data room with ⟨q, hpushed, hhead, heq⟩ | ⟨heq, hfull⟩
  · rw [heq]
    exact ⟨rfl, rfl, rfl, rfl, .inr ⟨rfl, h.queue_message hpushed hhead⟩⟩
  · rw [heq]
    exact ⟨rfl, rfl, rfl, rfl, .inl ⟨rfl, hfull, h⟩⟩

def emitted (c : Sender) : List UInt8 := c.accepted ++ unsent c

def acknowledge (data : List UInt8) (r : Sender × Option Int) : Sender :=
  if r.2 = some 0 then { r.1 with acked := r.1.acked ++ [data] } else r.1

theorem sendStep_sendMsg {c : Sender} (hrunning : c.faulted = false) (data : List UInt8)
    (room : Bool) (result : SendResult) (now : Nat) :
    sendStep c (.sendMsg data room result now) =
      acknowledge data (sendMsg c data room result now) := by
  unfold sendStep
  rw [if_neg (by simp [hrunning])]
  rfl

theorem acknowledge_refused (data : List UInt8) (c : Sender) :
    acknowledge data (c, some (-1)) = c :=
  if_neg (show ¬ (some (-1) : Option Int) = some 0 by decide)

theorem acknowledge_enqueue {c : Sender} {waiting : List (List UInt8)} (h : SendInv c waiting)
    (data : List UInt8) (room : Bool) :
    (acknowledge data (enqueue c data room)).sndBuf = c.sndBuf ∧
      emitted (acknowledge data (enqueue c data room)) = emitted c ∧
      (SendInv (acknowledge data (enqueue c data room)) waiting ∧
          (room = true → waiting.length = 1024) ∨
        SendInv (acknowledge data (enqueue c data room)) (waiting ++ [data])) := by
  rcases enqueue_spec h data room with ⟨hbuf, hlen, haccepted, hacked, hqueue⟩
  rcases hqueue with ⟨hminus, hfull, hinv⟩ | ⟨hzero, hinv⟩
  · have hsame : acknowledge data (enqueue c data room) = (enqueue c data room).1 :=
      if_neg (by rw [hminus]; decide)
    rw [hsame]
    refine ⟨hbuf, ?_, .inl ⟨hinv, hfull⟩⟩
    rw [emitted, unsent, haccepted, hbuf, hlen]
    rfl
  · have hmore : acknowledge data (enqueue c data room) =
        { (enqueue c data room).1 with acked := c.acked ++ [data] } := by
      rw [← hacked]
      exact if_pos hzero
    rw [hmore]
    refine ⟨hbuf, ?_, .inr hinv⟩
    rw [emitted, unsent]
    dsimp only
    rw [haccepted, hbuf, hlen]
    rfl

theorem sendMsg_clogged {c : Sender} {waiting : List (List UInt8)} (h : SendInv c waiting)
    (hclogged : c.net.brkTm = 0 → Clogged c) (data : List UInt8) (room : Bool)
    (result : SendResult) (now : Nat) :
    (sendStep c (.sendMsg data room result now)).sndBuf = c.sndBuf ∧
      emitted (sendStep c (.sendMsg data room result now)) = emitted c ∧
      (SendInv (sendStep c (.sendMsg data room result now)) waiting ∨
        SendInv (sendStep c (.sendMsg data room result now)) (waiting ++ [data])) := by
  rw [sendStep_sendMsg h.running]
  by_cases hbrk : c.net.brkTm = 0
  · have hsend : sendMsg c data room result now = enqueue c data room := by
      unfold sendMsg
      rw [if_neg (not_not.mpr hbrk)]
      exact if_pos (hclogged hbrk)
    rw [hsend]
    rcases acknowledge_enqueue h data room with ⟨hbuf, hemitted, hqueue⟩
    refine ⟨hbuf, hemitted, ?_⟩
    rcases hqueue with ⟨hinv, _⟩ | hinv
    · exact .inl hinv
    · exact .inr hinv
  · have hsend : sendMsg c data room result now = (c, some (-1)) := if_pos hbrk
    rw [hsend, acknowledge_refused]
    exact ⟨rfl, rfl, .inl h⟩

theorem sendMsg_direct {c : Sender} (hbrk : c.net.brkTm = 0) (hclear : ¬ Clogged c)
    (data : List UInt8) (room : Bool) (now : Nat) :
    (∀ errno, sendMsg c data room (.failed errno) now =
      if errno ≠ eagain ∧ errno ≠ eintr then (fail c errno now, some (-1))
      else enqueue c data room) ∧
    sendMsg c data room (.accepted 0) now = (fail c (-1) now, some (-1)) ∧
    (data ≠ [] → sendMsg c data room (.accepted data.length) now =
      ({ c with accepted := c.accepted ++ data }, some 0)) := by
  have hnot : ¬ (c.sndBuf.isSome ∨ ngxQueueEmpty c.waitSnds = false) := hclear
  refine ⟨?_, ?_, ?_⟩
  · intro errno
    unfold sendMsg
    rw [if_neg (not_not.mpr hbrk), if_neg hnot]
  · unfold sendMsg
    rw [if_neg (not_not.mpr hbrk), if_neg hnot]
  · intro hdata
    cases data with
    | nil => exact absurd rfl hdata
    | cons b data =>
        have htake : (b :: data).take (data.length + 1) = b :: data :=
          List.take_of_length_le (Nat.le_of_eq List.length_cons)
        unfold sendMsg
        rw [if_neg (not_not.mpr hbrk), if_neg hnot, List.length_cons]
        dsimp only
        rw [if_pos rfl, htake]

theorem acked_onSend (c : Sender) (result : SendResult) (now : Nat) :
    (onSend c result now).acked = c.acked := by
  have hadvance : ∀ (c : Sender) (buf : List UInt8) (n : Nat), (advance c buf n).acked = c.acked := by
    intro c buf n
    unfold advance
    split
    · rfl
    · rfl
  unfold onSend
  cases c.sndBuf with
  | none =>
      dsimp only
      split
      · rfl
      · split
        · rfl
        · rfl
  | some buf =>
      dsimp only
      split
      · rfl
      · cases result with
        | failed errno =>
            dsimp only
            split
            · rfl
            · exact hadvance c buf _
        | accepted n =>
            cases n with
            | zero => rfl
            | succ n => exact hadvance _ buf _

/-- `OnSend` moves bytes from the rest of the message to the wire. -/
theorem emitted_onSend {c : Sender} {waiting : List (List UInt8)} (h : SendInv c waiting)
    {result : SendResult} {now : Nat} (hlegal : SendLegal c (.onSend result now))
    (hfine : SendFine c (.onSend result now)) :
    emitted (sendStep c (.onSend result now)) = emitted c := by
  have hnext := (h.step_onSend hlegal hfine).stream
  have hacked : (sendStep c (.onSend result now)).acked = c.acked := by
    unfold sendStep
    rw [if_neg (by simp [h.running])]
    exact acked_onSend c result now
  rw [hacked, h.stream] at hnext
  exact (List.append_cancel_right hnext).symm

/-! ## One step -/

/-- The send invariant, without empty messages; the bit is set only while
something waits. -/
structure Held (s : Driven) (waiting : List (List UInt8)) : Prop where
  inv : SendInv s.sender waiting
  messages : ∀ m ∈ waiting, m ≠ []
  armed : s.armed = true → waiting ≠ []

theorem held_start (net : NetIo) (memory : Nat → List UInt8) : Held (start net memory) [] where
  inv := sendInv_create net memory
  messages _ hm := nomatch hm
  armed harmed := nomatch harmed

namespace Held

variable {s : Driven} {waiting : List (List UInt8)}

theorem clogged_iff (h : Held s waiting) :
    Clogged s.sender ↔ s.sender.sndBuf.isSome ∨ waiting ≠ [] := by
  have hempty := h.inv.queue.empty_iff
  unfold Clogged
  rw [ne_eq, ← hempty, Bool.not_eq_true]

theorem clear (h : Held s waiting) (hclear : ¬ Clogged s.sender) :
    s.sender.sndBuf = none ∧ waiting = [] := by
  rw [h.clogged_iff, not_or, not_not, Option.not_isSome_iff_eq_none] at hclear
  exact hclear

theorem unsent_or_waiting (h : Held s waiting) (hclogged : Clogged s.sender) :
    0 < (unsent s.sender ++ waiting.flatten).length := by
  rw [List.length_append]
  rcases h.clogged_iff.mp hclogged with hsome | hwaiting
  · rcases Option.isSome_iff_exists.mp hsome with ⟨buf, hbuf⟩
    have hpartly := h.inv.partly buf hbuf
    rw [unsent, hbuf]
    dsimp only
    rw [List.length_drop]
    omega
  · cases waiting with
    | nil => exact absurd rfl hwaiting
    | cons m rest =>
        have hm := List.length_pos_iff.mpr (h.messages m List.mem_cons_self)
        rw [List.flatten_cons, List.length_append]
        omega

/-- Everything acknowledged is on the wire exactly if nothing holds up the next
message. -/
theorem delivered_iff (h : Held s waiting) :
    s.sender.accepted = s.sender.acked.flatten ↔ ¬ Clogged s.sender := by
  have hstream := h.inv.stream
  constructor
  · intro hall hclogged
    have hpos := h.unsent_or_waiting hclogged
    rw [← hall, List.append_assoc] at hstream
    have hnil : unsent s.sender ++ waiting.flatten = [] := List.self_eq_append_right.mp hstream
    rw [hnil] at hpos
    exact absurd hpos (Nat.lt_irrefl 0)
  · intro hclear
    rcases h.clear hclear with ⟨hbuf, rfl⟩
    rw [h.inv.stream_queued hbuf, List.flatten_nil, List.append_nil]

theorem outstanding_iff (h : Held s waiting) : Outstanding s.sender ↔ Clogged s.sender := by
  constructor
  · intro hout
    by_contra hclear
    rw [Outstanding, h.delivered_iff.mpr hclear] at hout
    exact absurd hout (Nat.lt_irrefl _)
  · intro hclogged
    have hpos := h.unsent_or_waiting hclogged
    rw [Outstanding, h.inv.stream, List.append_assoc, List.length_append]
    omega

theorem with_net (h : Held s waiting) (net : NetIo) : Held { s with sender.net := net } waiting where
  inv := h.inv.with_net net
  messages := h.messages
  armed := h.armed

theorem watch (h : Held s waiting) : Held (step s .watch) waiting where
  inv := h.inv
  messages := h.messages
  armed harmed := by
    rintro rfl
    have hsize : waitSndmsgSize s.sender = 0 := h.inv.queue.size_eq
    simp [step, hsize] at harmed

theorem step_clogged (h : Held s waiting) (hclogged : Clogged s.sender) {event : Event}
    (hsound : Sound s event) :
    ∃ waiting', Held (step s event) waiting' ∧ Clogged (step s event).sender ∧
      emitted (step s event).sender = emitted s.sender := by
  cases event with
  | sendMsg data room result now =>
      rcases sendMsg_clogged h.inv (fun _ => hclogged) data room result now with
        ⟨hbuf, hemitted, hinv | hinv⟩
      · have hheld : Held (step s (.sendMsg data room result now)) waiting :=
          ⟨hinv, h.messages, h.armed⟩
        refine ⟨waiting, hheld, ?_, hemitted⟩
        rw [hheld.clogged_iff]
        rw [h.clogged_iff, ← hbuf] at hclogged
        exact hclogged
      · have hheld : Held (step s (.sendMsg data room result now)) (waiting ++ [data]) := by
          refine ⟨hinv, ?_, fun _ => List.concat_ne_nil data waiting⟩
          intro m hm
          rcases List.mem_append.mp hm with hold | hnew
          · exact h.messages m hold
          · rw [List.mem_singleton.mp hnew]
            exact hsound.1
        refine ⟨_, hheld, ?_, hemitted⟩
        rw [hheld.clogged_iff]
        exact .inr (List.concat_ne_nil data waiting)
  | watch => exact ⟨waiting, h.watch, hclogged, rfl⟩
  | dispatch kept result now =>
      by_cases hcall : (s.armed && kept) = true
      · have harmed := Bool.and_eq_true_iff.mp hcall
        rcases hsound harmed.1 harmed.2 with ⟨hlegal, hfine⟩
        have hsender : (step s (.dispatch kept result now)).sender =
            sendStep s.sender (.onSend result now) := if_pos hcall
        have hheld : Held (step s (.dispatch kept result now)) waiting := by
          refine ⟨?_, h.messages, fun hc => nomatch hc⟩
          rw [hsender]
          exact h.inv.step_onSend hlegal hfine
        refine ⟨waiting, hheld, ?_, ?_⟩
        · -- the loop has seen the queue, and the queue is as it was
          rw [hheld.clogged_iff]
          exact .inr (h.armed harmed.1)
        · rw [hsender]
          exact emitted_onSend h.inv hlegal hfine
      · have hsender : (step s (.dispatch kept result now)).sender = s.sender := if_neg hcall
        have hheld : Held (step s (.dispatch kept result now)) waiting := by
          refine ⟨?_, h.messages, fun hc => nomatch hc⟩
          rw [hsender]
          exact h.inv
        rw [hsender]
        exact ⟨waiting, hheld, hclogged, rfl⟩
  | addNet => exact ⟨waiting, h.with_net _, hclogged, rfl⟩
  | removeNet => exact ⟨waiting, h.with_net _, hclogged, rfl⟩
  | terminate now => exact ⟨waiting, h.with_net _, hclogged, rfl⟩

/-- Nothing is held up, and the next message goes out whole or not at all. -/
theorem step_clear (h : Held s []) (hclear : ¬ Clogged s.sender) {event : Event}
    (hsound : Sound s event) (hwhole : TakenWhole s event) :
    Held (step s event) [] ∧ ¬ Clogged (step s event).sender := by
  have hbuf := (h.clear hclear).1
  -- a sender as before, with another connection state or with more on the wire
  have hsame : ∀ (sender : Sender) (armed : Bool), SendInv sender [] → sender.sndBuf = none →
      (armed = true → s.armed = true) →
        Held ⟨sender, armed⟩ [] ∧ ¬ Clogged (Driven.mk sender armed).sender := by
    intro sender armed hinv hnone harmed
    have hheld : Held ⟨sender, armed⟩ [] := ⟨hinv, h.messages, fun ha => h.armed (harmed ha)⟩
    refine ⟨hheld, ?_⟩
    rw [hheld.clogged_iff, hnone]
    simp
  cases event with
  | sendMsg data room result now =>
      by_cases hbrk : s.sender.net.brkTm = 0
      · have hdirect := sendMsg_direct hbrk hclear data room now
        have hstep := sendStep_sendMsg h.inv.running data room result now
        have hresult := hwhole hbrk hclear
        cases result with
        | failed errno =>
            rw [hdirect.1] at hstep
            by_cases hfatal : errno ≠ eagain ∧ errno ≠ eintr
            · rw [if_pos hfatal, acknowledge_refused] at hstep
              rw [step, hstep]
              exact hsame _ s.armed (h.inv.fail errno now) hbuf id
            · have hroom : room = false := by
                rw [← Bool.not_eq_true]
                exact fun hroom => hfatal (hresult hroom)
              have hrefused : enqueue s.sender data room = (s.sender, some (-1)) := by
                rw [hroom]
                rfl
              rw [if_neg hfatal, hrefused, acknowledge_refused] at hstep
              rw [step, hstep]
              exact hsame _ s.armed h.inv hbuf id
        | accepted n =>
            rcases hresult with rfl | rfl
            · rw [hdirect.2.1, acknowledge_refused] at hstep
              rw [step, hstep]
              exact hsame _ s.armed (h.inv.fail (-1) now) hbuf id
            · rw [hdirect.2.2 hsound.1] at hstep
              rw [step, hstep]
              exact hsame _ s.armed (h.inv.sent_whole hbuf data) hbuf id
      · have hsend : sendStep s.sender (.sendMsg data room result now) = s.sender := by
          rw [sendStep_sendMsg h.inv.running]
          have hrefused : sendMsg s.sender data room result now = (s.sender, some (-1)) :=
            if_pos hbrk
          rw [hrefused, acknowledge_refused]
        rw [step, hsend]
        exact hsame _ s.armed h.inv hbuf id
  | watch =>
      have hheld := h.watch
      refine ⟨hheld, ?_⟩
      exact hclear
  | dispatch kept result now =>
      have hcall : ¬ (s.armed && kept) = true := by
        intro hcall
        exact h.armed (Bool.and_eq_true_iff.mp hcall).1 rfl
      rw [step, if_neg hcall]
      exact hsame _ false h.inv hbuf (fun hc => nomatch hc)
  | addNet => exact ⟨h.with_net _, hclear⟩
  | removeNet => exact ⟨h.with_net _, hclear⟩
  | terminate now => exact ⟨h.with_net _, hclear⟩

theorem step_clogs (h : Held s []) (hclear : ¬ Clogged s.sender) {event : Event}
    (hsound : Sound s event) (hwhole : ¬ TakenWhole s event) :
    ∃ waiting, Held (step s event) waiting ∧ Clogged (step s event).sender := by
  cases event with
  | sendMsg data room result now =>
      rcases hsound with ⟨hdata, hlegal, hfine⟩
      simp only [TakenWhole, not_forall] at hwhole
      rcases hwhole with ⟨hbrk, _, hresult⟩
      have hbuf := (h.clear hclear).1
      have hempty := h.inv.queue.empty_iff.mpr rfl
      cases result with
      | failed errno =>
          simp only [not_forall] at hresult
          rcases hresult with ⟨hroom, hfatal⟩
          have hsend : sendStep s.sender (.sendMsg data room (.failed errno) now) =
              acknowledge data (enqueue s.sender data room) := by
            rw [sendStep_sendMsg h.inv.running, (sendMsg_direct hbrk hclear data room now).1,
              if_neg hfatal]
          rcases (acknowledge_enqueue h.inv data room).2.2 with ⟨_, hfull⟩ | hinv
          · exact absurd (hfull hroom) (by decide)
          · rw [← hsend] at hinv
            have hheld : Held (step s (.sendMsg data room (.failed errno) now)) [data] := by
              refine ⟨hinv, ?_, fun _ => List.cons_ne_nil data []⟩
              intro m hm
              rw [List.mem_singleton.mp hm]
              exact hdata
            refine ⟨[data], hheld, ?_⟩
            rw [hheld.clogged_iff]
            exact .inr (List.cons_ne_nil data [])
      | accepted n =>
          rw [not_or] at hresult
          have hpos : 0 < n := Nat.pos_of_ne_zero hresult.1
          have hn : n < data.length := lt_of_le_of_ne hlegal.2.1 hresult.2
          have hroom : room = true := hfine hbrk hbuf hempty hpos hn
          have hsend := sendStep_inPart h.inv.running hbrk hbuf hempty hpos hn room now
          dsimp only at hsend
          rw [if_pos hroom] at hsend
          have hheld : Held (step s (.sendMsg data room (.accepted n) now)) [] := by
            refine ⟨?_, h.messages, h.armed⟩
            rw [step, hsend]
            exact h.inv.sent_part hbuf hpos hn hlegal.1
          refine ⟨[], hheld, ?_⟩
          rw [hheld.clogged_iff, step, hsend]
          exact .inl rfl
  | _ => exact absurd trivial hwhole

end Held

/-! ## Whole runs -/

theorem clogged_run {s : Driven} {waiting : List (List UInt8)} (h : Held s waiting)
    (hclogged : Clogged s.sender) {events : List Event} (hsound : Guarded step Sound s events) :
    ∃ waiting', Held (events.foldl step s) waiting' ∧ Clogged (events.foldl step s).sender ∧
      emitted (events.foldl step s).sender = emitted s.sender := by
  induction events generalizing s waiting with
  | nil => exact ⟨waiting, h, hclogged, rfl⟩
  | cons event events ih =>
      rcases h.step_clogged hclogged hsound.1 with ⟨waiting', hheld, hstill, hemitted⟩
      rcases ih hheld hstill hsound.2 with ⟨waiting'', hlast, hend, hrest⟩
      exact ⟨waiting'', hlast, hend, hrest.trans hemitted⟩

theorem clear_run {s : Driven} (h : Held s []) (hclear : ¬ Clogged s.sender) {events : List Event}
    (hsound : Guarded step Sound s events) :
    ∃ waiting, Held (events.foldl step s) waiting ∧
      (¬ Clogged (events.foldl step s).sender ↔ Guarded step TakenWhole s events) := by
  induction events generalizing s with
  | nil => exact ⟨[], h, fun _ => trivial, fun _ => hclear⟩
  | cons event events ih =>
      by_cases hwhole : TakenWhole s event
      · rcases h.step_clear hclear hsound.1 hwhole with ⟨hheld, hstill⟩
        rcases ih hheld hstill hsound.2 with ⟨waiting, hlast, hiff⟩
        refine ⟨waiting, hlast, hiff.trans ?_⟩
        exact ⟨fun hrest => ⟨hwhole, hrest⟩, fun hall => hall.2⟩
      · rcases h.step_clogs hclear hsound.1 hwhole with ⟨waiting, hheld, hclogged⟩
        rcases clogged_run hheld hclogged hsound.2 with ⟨waiting', hlast, hend, _⟩
        refine ⟨waiting', hlast, ?_⟩
        exact ⟨fun hopen => absurd hend hopen, fun hall => absurd hall.1 hwhole⟩

theorem not_clogged_start (net : NetIo) (memory : Nat → List UInt8) :
    ¬ Clogged (start net memory).sender := by
  rw [(held_start net memory).clogged_iff]
  simp [start, Sender.create]

/-- Under the loop everything acknowledged is on the wire exactly if each message
so far was taken whole by the send that `send_msg` made itself. -/
theorem loop_delivers_iff (net : NetIo) (memory : Nat → List UInt8) (events : List Event)
    (hsound : Guarded step Sound (start net memory) events) :
    (run net memory events).sender.accepted = (run net memory events).sender.acked.flatten ↔
      Guarded step TakenWhole (start net memory) events := by
  rcases clear_run (held_start net memory) (not_clogged_start net memory) hsound with
    ⟨waiting, hheld, hiff⟩
  exact (hheld.delivered_iff).trans hiff

/-- A message on its own, and a turn of the loop that has nothing to send. -/
theorem loop_delivers_iff_one :
    (run (.watched 7) (fun _ => []) [.sendMsg [1, 2] true (.accepted 2) 0, .watch,
      .dispatch false (.failed 0) 0]).sender.accepted = [1, 2] :=
  (loop_delivers_iff (.watched 7) (fun _ => []) [.sendMsg [1, 2] true (.accepted 2) 0, .watch,
    .dispatch false (.failed 0) 0]
    ⟨⟨by decide, ⟨by decide, by decide, by decide⟩, fun _ _ _ _ hlt => absurd hlt (by decide)⟩,
      trivial, (fun _ hkept => nomatch hkept), trivial⟩).mpr
    ⟨(fun _ _ => .inr rfl), trivial, trivial, trivial⟩

/-- Bytes that are outstanding once stay outstanding, whatever the loop and the
threads do: all that can still reach the wire is the rest of one message. -/
theorem outstanding_forever (net : NetIo) (memory : Nat → List UInt8) (events later : List Event)
    (hsound : Guarded step Sound (start net memory) (events ++ later))
    (hout : Outstanding (run net memory events).sender) :
    Outstanding (run net memory (events ++ later)).sender ∧
      (run net memory (events ++ later)).sender.accepted <+:
        (run net memory events).sender.accepted ++ unsent (run net memory events).sender := by
  have hsplit := guarded_append.mp hsound
  rcases clear_run (held_start net memory) (not_clogged_start net memory) hsplit.1 with
    ⟨waiting, hheld, _⟩
  have hclogged := hheld.outstanding_iff.mp hout
  rcases clogged_run hheld hclogged hsplit.2 with ⟨waiting', hlast, hend, hemitted⟩
  have hrun : run net memory (events ++ later) =
      later.foldl step (events.foldl step (start net memory)) := List.foldl_append
  rw [← hrun] at hlast hend hemitted
  refine ⟨hlast.outstanding_iff.mpr hend, ?_⟩
  have hprefix := List.prefix_append (run net memory (events ++ later)).sender.accepted
    (unsent (run net memory (events ++ later)).sender)
  unfold emitted at hemitted
  rw [hemitted] at hprefix
  exact hprefix

/-- The second message gets the loop to send the rest of the first, and is then
left in a queue that nobody serves. -/
def secondMessage : List Event :=
  [.sendMsg [5] true (.accepted 1) 0, .watch, .dispatch true (.accepted 1) 0, .watch,
    .dispatch true (.accepted 1) 0]

theorem secondMessage_sound :
    Guarded step Sound (start (.watched 7) fun _ => [])
      ([.sendMsg [1, 2, 3, 4] true (.accepted 3) 0] ++ secondMessage) := by
  have hrest : ∀ buf : List UInt8, some [1, 2, 3, 4] = some buf →
      SendResult.Within ((buf.length - 3) % Pool.uintSize) (.accepted 1) := by
    intro buf hbuf
    cases hbuf
    exact ⟨by decide, by decide⟩
  have hnothing : ∀ buf : List UInt8, none = some buf →
      SendResult.Within ((buf.length - 0) % Pool.uintSize) (.accepted 1) := by
    intro buf hbuf
    cases hbuf
  refine ⟨⟨by decide, ⟨by decide, by decide, by decide⟩, fun _ _ _ _ _ => rfl⟩, ?_⟩
  refine ⟨⟨by decide, ⟨by decide, by decide, by decide⟩, ?_⟩, ?_⟩
  · exact fun _ _ _ _ hlt => absurd hlt (by decide)
  · exact ⟨trivial, (fun _ _ => ⟨hrest, trivial⟩), trivial, (fun _ _ => ⟨hnothing, trivial⟩), trivial⟩

theorem outstanding_forever_second :
    Outstanding (run (.watched 7) (fun _ => [])
      ([.sendMsg [1, 2, 3, 4] true (.accepted 3) 0] ++ secondMessage)).sender :=
  (outstanding_forever (.watched 7) (fun _ => []) _ secondMessage secondMessage_sound (by decide)).1

end NetTest.EventLoop.Writes
