import NetTest.Lib.Runs
import NetTest.Core.NetIo
import NetTest.Core.Pool.Model
import NetTest.Core.Queue.Fifo

/-!
# Sending

`tcp_conn::send_msg` and `tcp_conn::OnSend`, which `_lck` serialises.  A message
is sent directly, or its rest waits in `_snd_buf` behind the offset `_snd_len`,
or it waits whole in `_wait_snds`.  A buffer is the list of its bytes.

`OnSend` falls through after a transient error and adds the `-1` that `send`
returned to `_snd_len`, so the last byte the socket took is sent once more.
-/

namespace NetTest.TcpConn

open Runs Queue
open Pool (wordSize uintSize)

/-! ## The two calls -/

inductive SendResult where
  | accepted (n : Nat)
  | failed (errno : Int)

structure Sender where
  net : NetIo
  sndBuf : Option (List UInt8)
  sndLen : Nat
  waitSnds : NgxQueue (List UInt8)
  /-- A null or a wild pointer has been dereferenced; nothing runs afterwards. -/
  faulted : Bool
  /-- The bytes the socket has taken. -/
  accepted : List UInt8
  /-- The messages for which `send_msg` returned `0`. -/
  acked : List (List UInt8)

/-- `tcp_conn::tcp_conn`, for its send side. -/
def Sender.create (net : NetIo) (memory : Nat → List UInt8) : Sender where
  net := net
  sndBuf := none
  sndLen := 0
  waitSnds := ngxCreateQueue memory 1024
  faulted := false
  accepted := []
  acked := []

def fail (c : Sender) (errno : Int) (now : Nat) : Sender :=
  { c with net := ({ c.net with errno := errno } : NetIo).terminate now }

/-- Copy the message and queue the copy; `room` says whether memory was found. -/
def enqueue (c : Sender) (data : List UInt8) (room : Bool) : Sender × Option Int :=
  if room then
    ({ c with waitSnds := (ngxQueuePush c.waitSnds data).1 },
      if (ngxQueuePush c.waitSnds data).2 then some 0 else some (-1))
  else (c, some (-1))

/-- `none` stands for a call that does not return. -/
def sendMsg (c : Sender) (data : List UInt8) (room : Bool) (result : SendResult) (now : Nat) :
    Sender × Option Int :=
  if c.net.brkTm ≠ 0 then (c, some (-1))
  else if c.sndBuf.isSome ∨ ngxQueueEmpty c.waitSnds = false then enqueue c data room
  else
    match result with
    | .failed errno =>
        if errno ≠ eagain ∧ errno ≠ eintr then (fail c errno now, some (-1))
        else enqueue c data room
    | .accepted 0 => (fail c (-1) now, some (-1))
    | .accepted (n + 1) =>
        let c := { c with accepted := c.accepted ++ data.take (n + 1) }
        if data.length = n + 1 then (c, some 0)
        else if room then ({ c with sndLen := n + 1, sndBuf := some data }, some 0)
        -- the result of `ngx_create_buf` is used unchecked here
        else ({ c with sndLen := n + 1, faulted := true }, none)

/-- `_snd_len += send_len` and what follows. -/
def advance (c : Sender) (buf : List UInt8) (sendLen : Nat) : Sender :=
  if (c.sndLen + sendLen) % wordSize = buf.length then { c with sndBuf := none, sndLen := 0 }
  else { c with sndLen := (c.sndLen + sendLen) % wordSize }

def onSend (c : Sender) (result : SendResult) (now : Nat) : Sender :=
  match c.sndBuf with
  | none =>
      if ngxQueueEmpty c.waitSnds = false then c
      else
        match ngxQueueGet c.waitSnds with
        | (q, none) => { c with waitSnds := q }
        -- the address of a slot, taken for the buffer whose address the slot holds
        | (q, some _) => { c with waitSnds := q, faulted := true }
  | some buf =>
      if buf.length ≤ c.sndLen then c
      else
        match result with
        | .failed errno =>
            if errno ≠ eagain ∧ errno ≠ eintr then fail c errno now
            -- `send_len` is `-1`
            else advance c buf (wordSize - 1)
        | .accepted 0 => fail c (-1) now
        | .accepted (n + 1) =>
            advance { c with accepted := c.accepted ++ (buf.drop c.sndLen).take (n + 1) } buf (n + 1)

/-! ## Runs -/

inductive SendCall where
  | sendMsg (data : List UInt8) (room : Bool) (result : SendResult) (now : Nat)
  | onSend (result : SendResult) (now : Nat)

def sendStep (c : Sender) (call : SendCall) : Sender :=
  if c.faulted then c
  else
    match call with
    | .sendMsg data room result now =>
        let r := sendMsg c data room result now
        if r.2 = some 0 then { r.1 with acked := r.1.acked ++ [data] } else r.1
    | .onSend result now => onSend c result now

/-- At most `len` bytes are taken, and their number fits the `int` that
`net_io::send` returns. -/
def SendResult.Within (len : Nat) : SendResult → Prop
  | .accepted n => n ≤ len ∧ n < 2 ^ 31
  | .failed _ => True

/-- The length of a message is an `unsigned int`, and the socket behaves. -/
def SendLegal (c : Sender) : SendCall → Prop
  | .sendMsg data _ result _ => data.length < uintSize ∧ result.Within data.length
  | .onSend result _ =>
      ∀ buf, c.sndBuf = some buf → result.Within ((buf.length - c.sndLen) % uintSize)

/-- The bytes on the wire are a prefix of the acknowledged messages, and the
offset stays inside the buffer. -/
def SendSafe (c : Sender) : Prop :=
  c.accepted <+: c.acked.flatten ∧ ∀ buf, c.sndBuf = some buf → c.sndLen ≤ buf.length

/-- A transient error in `OnSend` leaves buffer and offset as they are. -/
def TransientInert (c : Sender) : SendCall → Prop
  | .onSend (.failed errno) now => errno = eagain ∨ errno = eintr →
      (sendStep c (.onSend (.failed errno) now)).sndLen = c.sndLen ∧
      (sendStep c (.onSend (.failed errno) now)).sndBuf = c.sndBuf
  | _ => True

/-- An `OnSend` with bytes left to send meets no transient error, and a direct
send that is accepted in part finds memory for the rest. -/
def SendFine (c : Sender) : SendCall → Prop
  | .onSend (.failed errno) _ =>
      ∀ buf, c.sndBuf = some buf → c.sndLen < buf.length → errno ≠ eagain ∧ errno ≠ eintr
  | .sendMsg data room (.accepted n) _ =>
      c.net.brkTm = 0 → c.sndBuf = none → ngxQueueEmpty c.waitSnds = true →
        0 < n → n < data.length → room = true
  | _ => True

/-! ## What a call does -/

theorem enqueue_cases {c : Sender} {waiting : List (List UInt8)}
    (hqueue : Represents 1024 c.waitSnds waiting) (hhead : c.waitSnds.head = 0)
    (data : List UInt8) (room : Bool) :
    (∃ q, Represents 1024 q (waiting ++ [data]) ∧ q.head = 0 ∧
      enqueue c data room = ({ c with waitSnds := q }, some 0)) ∨
    enqueue c data room = (c, some (-1)) ∧ (room = true → waiting.length = 1024) := by
  cases room with
  | false => exact Or.inr ⟨rfl, fun hroom => absurd hroom (by decide)⟩
  | true =>
      have hpush := hqueue.push data (fun _ => hhead)
      by_cases hfull : waiting.length = 1024
      · have hfalse := (hqueue.push_result data).mpr hfull
        have hsame : (ngxQueuePush c.waitSnds data).1 = c.waitSnds := by
          rw [ngxQueuePush, if_pos (by rw [hqueue.nalloc, hqueue.size_eq, hfull])]
        right
        exact ⟨by simp [enqueue, hfalse, hsame], fun _ => hfull⟩
      · have htrue : (ngxQueuePush c.waitSnds data).2 = true := by
          rw [← Bool.not_eq_false]
          exact fun hfalse => hfull ((hqueue.push_result data).mp hfalse)
        have hzero := Queue.ngxQueuePush_head c.waitSnds data
        rw [hhead] at hzero
        rw [fifoPush, if_neg hfull] at hpush
        left
        exact ⟨_, hpush, hzero, by simp [enqueue, htrue]⟩

/-- Nothing stands between the message and the socket. -/
structure Direct (c : Sender) (waiting : List (List UInt8)) : Prop where
  brkTm : c.net.brkTm = 0
  sndBuf : c.sndBuf = none
  waiting : waiting = []

/-- What `send_msg` makes of a connection with `waiting` in its queue. -/
inductive SendMsgOutcome (c : Sender) (waiting : List (List UInt8)) (data : List UInt8)
    (room : Bool) (result : SendResult) : Sender → Prop where
  | refused (net : NetIo) : SendMsgOutcome c waiting data room result { c with net := net }
  | queued {q : NgxQueue (List UInt8)} (hqueue : Represents 1024 q (waiting ++ [data]))
      (hhead : q.head = 0) :
      SendMsgOutcome c waiting data room result
        { c with waitSnds := q, acked := c.acked ++ [data] }
  | whole (hdirect : Direct c waiting) :
      SendMsgOutcome c waiting data room result
        { c with accepted := c.accepted ++ data, acked := c.acked ++ [data] }
  | part {n : Nat} (hdirect : Direct c waiting) (hpos : 0 < n) (hn : n < data.length) :
      SendMsgOutcome c waiting data room result
        { c with accepted := c.accepted ++ data.take n, sndLen := n, sndBuf := some data,
                 acked := c.acked ++ [data] }
  | lost {n : Nat} (hdirect : Direct c waiting) (hpos : 0 < n) (hn : n < data.length)
      (hresult : result = .accepted n) (hroom : room = false) :
      SendMsgOutcome c waiting data room result
        { c with accepted := c.accepted ++ data.take n, sndLen := n, faulted := true }

theorem sendMsg_outcome {c : Sender} {waiting : List (List UInt8)} (hrunning : c.faulted = false)
    (hqueue : Represents 1024 c.waitSnds waiting) (hhead : c.waitSnds.head = 0)
    {data : List UInt8} {room : Bool} {result : SendResult} {now : Nat}
    (hlegal : SendLegal c (.sendMsg data room result now)) :
    SendMsgOutcome c waiting data room result (sendStep c (.sendMsg data room result now)) := by
  have hqueued : SendMsgOutcome c waiting data room result
      (if (enqueue c data room).2 = some 0 then
        { (enqueue c data room).1 with acked := (enqueue c data room).1.acked ++ [data] }
      else (enqueue c data room).1) := by
    rcases enqueue_cases hqueue hhead data room with ⟨q, hpushed, hzero, heq⟩ | ⟨heq, _⟩
    · rw [heq, if_pos rfl]
      exact .queued hpushed hzero
    · rw [heq, if_neg (by simp)]
      exact .refused c.net
  rw [sendStep, if_neg (by simp [hrunning])]
  simp only [sendMsg]
  by_cases hbrk : c.net.brkTm ≠ 0
  · rw [if_pos hbrk, if_neg (by simp)]
    exact .refused c.net
  rw [if_neg hbrk]
  by_cases hwait : c.sndBuf.isSome ∨ ngxQueueEmpty c.waitSnds = false
  · rw [if_pos hwait]
    exact hqueued
  rw [if_neg hwait]
  have hbuf : c.sndBuf = none := by
    rw [← Option.not_isSome_iff_eq_none]
    exact fun hsome => hwait (Or.inl hsome)
  have hempty : ngxQueueEmpty c.waitSnds = true := by
    rw [← Bool.not_eq_false]
    exact fun hfalse => hwait (Or.inr hfalse)
  have hdirect : Direct c waiting := ⟨not_not.mp hbrk, hbuf, hqueue.empty_iff.mp hempty⟩
  cases result with
  | failed errno =>
      by_cases hfatal : errno ≠ eagain ∧ errno ≠ eintr
      · simp only [if_pos hfatal]
        rw [if_neg (by decide)]
        exact .refused _
      · simp only [if_neg hfatal]
        exact hqueued
  | accepted n =>
      cases n with
      | zero =>
          simp only
          rw [if_neg (by decide)]
          exact .refused _
      | succ n =>
          have hlen : n + 1 ≤ data.length := hlegal.2.1
          by_cases hall : data.length = n + 1
          · have htake : data.take (n + 1) = data := List.take_of_length_le (by omega)
            simp only [if_pos hall, if_true, htake]
            exact .whole hdirect
          · have hpart : n + 1 < data.length := by omega
            simp only [if_neg hall]
            cases room with
            | false => exact .lost hdirect (Nat.succ_pos n) hpart rfl rfl
            | true => exact .part hdirect (Nat.succ_pos n) hpart

inductive OnSendOutcome (c : Sender) (result : SendResult) : Sender → Prop where
  | idle (net : NetIo) : OnSendOutcome c result { c with net := net }
  | taken {buf : List UInt8} {n : Nat} (hbuf : c.sndBuf = some buf) (hpos : 0 < n)
      (hn : n ≤ buf.length - c.sndLen) :
      OnSendOutcome c result
        (advance { c with accepted := c.accepted ++ (buf.drop c.sndLen).take n } buf n)
  | setBack {buf : List UInt8} {errno : Int} (hbuf : c.sndBuf = some buf)
      (hlt : c.sndLen < buf.length) (hresult : result = .failed errno)
      (htransient : errno = eagain ∨ errno = eintr) :
      OnSendOutcome c result (advance c buf (wordSize - 1))

theorem onSend_outcome {c : Sender} (hrunning : c.faulted = false)
    (hshort : ∀ buf, c.sndBuf = some buf → buf.length < uintSize) {result : SendResult} {now : Nat}
    (hlegal : SendLegal c (.onSend result now)) :
    OnSendOutcome c result (sendStep c (.onSend result now)) := by
  rw [sendStep, if_neg (by simp [hrunning])]
  simp only [onSend]
  split
  · by_cases hempty : ngxQueueEmpty c.waitSnds = false
    · rw [if_pos hempty]
      exact .idle c.net
    · -- the queue is read only when it is empty
      have hget : ngxQueueGet c.waitSnds = (c.waitSnds, none) := by
        rw [ngxQueueGet, if_pos (by simpa using hempty)]
      rw [if_neg hempty, hget]
      exact .idle c.net
  · rename_i buf hbuf
    by_cases hsent : buf.length ≤ c.sndLen
    · rw [if_pos hsent]
      exact .idle c.net
    rw [if_neg hsent]
    cases result with
    | failed errno =>
        dsimp only
        split
        · exact .idle _
        · rename_i htransient
          exact .setBack hbuf (Nat.not_le.mp hsent) rfl (by tauto)
    | accepted n =>
        cases n with
        | zero => exact .idle _
        | succ n =>
            have hwithin := (hlegal buf hbuf).1
            have hlen := hshort buf hbuf
            rw [Nat.mod_eq_of_lt (by omega)] at hwithin
            exact .taken hbuf (Nat.succ_pos n) hwithin

/-! ## The invariant -/

def unsent (c : Sender) : List UInt8 :=
  match c.sndBuf with
  | none => []
  | some buf => buf.drop c.sndLen

/-- What was acknowledged is what the socket took, then the rest of `_snd_buf`,
then the messages that wait.  Nothing ever leaves the queue. -/
structure SendInv (c : Sender) (waiting : List (List UInt8)) : Prop where
  running : c.faulted = false
  queue : Represents 1024 c.waitSnds waiting
  head : c.waitSnds.head = 0
  stream : c.acked.flatten = c.accepted ++ unsent c ++ waiting.flatten
  partly : ∀ buf, c.sndBuf = some buf →
    0 < c.sndLen ∧ c.sndLen < buf.length ∧ buf.length < uintSize

theorem sendInv_create (net : NetIo) (memory : Nat → List UInt8) :
    SendInv (Sender.create net memory) [] where
  running := rfl
  queue := represents_create 1024 memory
  head := rfl
  stream := rfl
  partly buf hbuf := by cases hbuf

namespace SendInv

variable {c : Sender} {waiting : List (List UInt8)}

theorem safe (h : SendInv c waiting) : SendSafe c := by
  constructor
  · rw [h.stream, List.append_assoc]
    exact List.prefix_append _ _
  · intro buf hbuf
    exact Nat.le_of_lt (h.partly buf hbuf).2.1

/-- With nothing in `_snd_buf` what is not sent waits in the queue. -/
theorem stream_queued (h : SendInv c waiting) (hbuf : c.sndBuf = none) :
    c.acked.flatten = c.accepted ++ waiting.flatten := by
  rw [h.stream, unsent, hbuf, List.append_nil]

theorem stream_sent (h : SendInv c waiting) (hbuf : c.sndBuf = none)
    (hempty : ngxQueueEmpty c.waitSnds = true) : c.acked.flatten = c.accepted := by
  have hwaiting : waiting = [] := h.queue.empty_iff.mp hempty
  rw [h.stream_queued hbuf, hwaiting, List.flatten_nil, List.append_nil]

theorem with_net (h : SendInv c waiting) (net : NetIo) : SendInv { c with net := net } waiting where
  running := h.running
  queue := h.queue
  head := h.head
  stream := h.stream
  partly := h.partly

theorem fail (h : SendInv c waiting) (errno : Int) (now : Nat) :
    SendInv (TcpConn.fail c errno now) waiting := h.with_net _

theorem queue_message (h : SendInv c waiting) {data : List UInt8} {q : NgxQueue (List UInt8)}
    (hqueue : Represents 1024 q (waiting ++ [data])) (hhead : q.head = 0) :
    SendInv { c with waitSnds := q, acked := c.acked ++ [data] } (waiting ++ [data]) where
  running := h.running
  queue := hqueue
  head := hhead
  stream := by
    simp only [List.flatten_append, List.flatten_singleton, h.stream, unsent]
    simp only [List.append_assoc]
  partly := h.partly

theorem sent_whole (h : SendInv c []) (hbuf : c.sndBuf = none) (data : List UInt8) :
    SendInv { c with accepted := c.accepted ++ data, acked := c.acked ++ [data] } [] where
  running := h.running
  queue := h.queue
  head := h.head
  stream := by
    have hstream := h.stream_queued hbuf
    simp [unsent, hbuf, hstream]
  partly := h.partly

theorem sent_part (h : SendInv c []) (hbuf : c.sndBuf = none) {data : List UInt8} {n : Nat}
    (hpos : 0 < n) (hn : n < data.length) (hdata : data.length < uintSize) :
    SendInv { c with accepted := c.accepted ++ data.take n, sndLen := n, sndBuf := some data,
                     acked := c.acked ++ [data] } [] where
  running := h.running
  queue := h.queue
  head := h.head
  stream := by
    have hstream := h.stream_queued hbuf
    simp [unsent, hstream]
  partly buf heq := by
    cases heq
    exact ⟨hpos, hn, hdata⟩

theorem advance_accepted (h : SendInv c waiting) {buf : List UInt8} (hbuf : c.sndBuf = some buf)
    {n : Nat} (hpos : 0 < n) (hn : n ≤ buf.length - c.sndLen) :
    SendInv (advance { c with accepted := c.accepted ++ (buf.drop c.sndLen).take n } buf n)
      waiting := by
  have hpartly := h.partly buf hbuf
  have huint : uintSize < wordSize := by decide
  have hmod : (c.sndLen + n) % wordSize = c.sndLen + n := Nat.mod_eq_of_lt (by omega)
  have hstream : c.acked.flatten = c.accepted ++ buf.drop c.sndLen ++ waiting.flatten := by
    rw [h.stream, unsent, hbuf]
  have hsplit : (buf.drop c.sndLen).take n ++ buf.drop (c.sndLen + n) = buf.drop c.sndLen := by
    rw [← List.drop_drop]
    exact List.take_append_drop n _
  simp only [advance, hmod]
  by_cases hdone : c.sndLen + n = buf.length
  · rw [if_pos hdone]
    exact {
      running := h.running
      queue := h.queue
      head := h.head
      stream := by
        have htake : (buf.drop c.sndLen).take n = buf.drop c.sndLen := by
          rw [List.take_of_length_le (by rw [List.length_drop]; omega)]
        simp only [unsent, htake, List.append_nil]
        exact hstream
      partly := fun buf' heq => by cases heq }
  · rw [if_neg hdone]
    exact {
      running := h.running
      queue := h.queue
      head := h.head
      stream := by
        simp only [unsent, hbuf]
        rw [hstream, List.append_assoc c.accepted (List.take _ _), hsplit]
      partly := fun buf' heq => by
        rw [hbuf] at heq
        cases heq
        exact ⟨Nat.add_pos_left hpartly.1 n, by simp only; omega, hpartly.2.2⟩ }

/-! ## One step -/

theorem step_sendMsg (h : SendInv c waiting) {data : List UInt8} {room : Bool}
    {result : SendResult} {now : Nat} (hlegal : SendLegal c (.sendMsg data room result now))
    (hfine : SendFine c (.sendMsg data room result now)) :
    ∃ waiting', SendInv (sendStep c (.sendMsg data room result now)) waiting' := by
  have houtcome := sendMsg_outcome h.running h.queue h.head hlegal
  generalize sendStep c (.sendMsg data room result now) = s at houtcome ⊢
  cases houtcome with
  | refused net => exact ⟨waiting, h.with_net net⟩
  | queued hqueue hhead => exact ⟨waiting ++ [data], h.queue_message hqueue hhead⟩
  | whole hdirect =>
      have hwaiting := hdirect.waiting
      subst hwaiting
      exact ⟨[], h.sent_whole hdirect.sndBuf data⟩
  | part hdirect hpos hn =>
      have hwaiting := hdirect.waiting
      subst hwaiting
      exact ⟨[], h.sent_part hdirect.sndBuf hpos hn hlegal.1⟩
  | lost hdirect hpos hn hresult hroom =>
      have hwaiting := hdirect.waiting
      subst hwaiting hresult
      have hfound := hfine hdirect.brkTm hdirect.sndBuf (h.queue.empty_iff.mpr rfl) hpos hn
      rw [hroom] at hfound
      cases hfound

theorem step_onSend (h : SendInv c waiting) {result : SendResult} {now : Nat}
    (hlegal : SendLegal c (.onSend result now)) (hfine : SendFine c (.onSend result now)) :
    SendInv (sendStep c (.onSend result now)) waiting := by
  have houtcome := onSend_outcome h.running (fun buf hbuf => (h.partly buf hbuf).2.2) hlegal
  generalize sendStep c (.onSend result now) = s at houtcome ⊢
  cases houtcome with
  | idle net => exact h.with_net net
  | taken hbuf hpos hn => exact h.advance_accepted hbuf hpos hn
  | setBack hbuf hlt hresult htransient =>
      subst hresult
      have hfatal := hfine _ hbuf hlt
      rcases htransient with heq | heq
      · exact absurd heq hfatal.1
      · exact absurd heq hfatal.2

theorem step (h : SendInv c waiting) {call : SendCall} (hlegal : SendLegal c call)
    (hfine : SendFine c call) : ∃ waiting', SendInv (sendStep c call) waiting' := by
  cases call with
  | sendMsg data room result now => exact h.step_sendMsg hlegal hfine
  | onSend result now => exact ⟨waiting, h.step_onSend hlegal hfine⟩

theorem transientInert (h : SendInv c waiting) {call : SendCall} (hfine : SendFine c call) :
    TransientInert c call := by
  cases call with
  | sendMsg data room result now => trivial
  | onSend result now =>
      cases result with
      | accepted n => trivial
      | failed errno =>
          intro htransient
          rw [sendStep, if_neg (by simp [h.running])]
          cases hbuf : c.sndBuf with
          | none =>
              simp only [onSend, hbuf]
              by_cases hempty : ngxQueueEmpty c.waitSnds = false
              · rw [if_pos hempty]
                exact ⟨rfl, hbuf⟩
              · have hget : ngxQueueGet c.waitSnds = (c.waitSnds, none) := by
                  rw [ngxQueueGet, if_pos (by simpa using hempty)]
                rw [if_neg hempty, hget]
                exact ⟨rfl, rfl⟩
          | some buf =>
              have hfatal := hfine buf hbuf (h.partly buf hbuf).2.1
              rcases htransient with heq | heq
              · exact absurd heq hfatal.1
              · exact absurd heq hfatal.2

theorem transient_moves (h : SendInv c waiting) {buf : List UInt8} (hbuf : c.sndBuf = some buf)
    {errno : Int} (htransient : ¬ (errno ≠ eagain ∧ errno ≠ eintr)) (now : Nat) :
    (sendStep c (.onSend (.failed errno) now)).sndLen = c.sndLen - 1 := by
  have hpartly := h.partly buf hbuf
  have huint : uintSize < wordSize := by decide
  have hback : (c.sndLen + (wordSize - 1)) % wordSize = c.sndLen - 1 := by
    rw [show c.sndLen + (wordSize - 1) = c.sndLen - 1 + wordSize by omega, Nat.add_mod_right]
    exact Nat.mod_eq_of_lt (by omega)
  rw [sendStep, if_neg (by simp [h.running])]
  simp only [onSend, hbuf, if_neg (Nat.not_le.mpr hpartly.2.1), if_neg htransient, advance, hback]
  rw [if_neg (by omega)]

/-- A step that is not fine is seen: the offset moves without a byte sent, or
bytes are on the wire for which there is no acknowledgement. -/
theorem not_fine (h : SendInv c waiting) {call : SendCall} (hfine : ¬ SendFine c call)
    (hinert : TransientInert c call) : ¬ SendSafe (sendStep c call) := by
  cases call with
  | onSend result now =>
      cases result with
      | accepted n => exact absurd trivial hfine
      | failed errno =>
          simp only [SendFine, not_forall] at hfine
          rcases hfine with ⟨buf, hbuf, _, htransient⟩
          have hmoved := h.transient_moves hbuf htransient now
          have hsame := (hinert (by tauto)).1
          have hpos := (h.partly buf hbuf).1
          omega
  | sendMsg data room result now =>
      cases result with
      | failed errno => exact absurd trivial hfine
      | accepted n =>
          simp only [SendFine, not_forall] at hfine
          rcases hfine with ⟨hbrk, hbuf, hempty, hpos, hn, hroom⟩
          have hstream := h.stream_sent hbuf hempty
          cases n with
          | zero => exact absurd hpos (Nat.lt_irrefl 0)
          | succ n =>
              intro hsafe
              have hprefix := hsafe.1.length_le
              rw [sendStep, if_neg (by simp [h.running])] at hprefix
              simp only [sendMsg, hbrk, ne_eq, not_true_eq_false, if_false, hbuf, hempty,
                Option.isSome_none, Bool.false_eq_true, Bool.true_eq_false, or_self,
                if_neg (Nat.ne_of_gt hn), hroom, reduceCtorEq] at hprefix
              rw [hstream, List.length_append, List.length_take] at hprefix
              omega

end SendInv

/-! ## Whole runs -/

/-- Along every run of a connection the wire carries a prefix of what was
acknowledged and transient errors change nothing, exactly when no pending send
meets a transient error and no partial send runs out of memory. -/
theorem tcpConn_send_iff (net : NetIo) (memory : Nat → List UInt8) (calls : List SendCall)
    (hlegal : Guarded sendStep SendLegal (Sender.create net memory) calls) :
    (Always sendStep SendSafe (Sender.create net memory) calls ∧
      Guarded sendStep TransientInert (Sender.create net memory) calls) ↔
        Guarded sendStep SendFine (Sender.create net memory) calls := by
  refine always_guarded_iff (fun c => ∃ waiting, SendInv c waiting) SendLegal TransientInert
    ?_ ?_ ?_ ⟨[], sendInv_create net memory⟩ hlegal
  · intro c hc
    rcases hc with ⟨waiting, h⟩
    exact h.safe
  · intro c call hc hl hfine
    rcases hc with ⟨waiting, h⟩
    exact ⟨h.step hl hfine, h.transientInert hfine⟩
  · intro c call hc _ hfine hinert
    rcases hc with ⟨waiting, h⟩
    exact h.not_fine hfine hinert

/-- Three bytes of four, then a transient error, then the rest. -/
def backPressure : List SendCall :=
  [.sendMsg [1, 2, 3, 4] true (.accepted 3) 0, .onSend (.failed eagain) 0, .onSend (.accepted 2) 0]

theorem backPressure_legal :
    Guarded sendStep SendLegal (Sender.create (.watched 7) fun _ => []) backPressure := by
  constructor
  · exact ⟨by decide, by decide, by decide⟩
  · constructor
    · intro buf _
      trivial
    · constructor
      · intro buf hbuf
        have hbuf' : some [1, 2, 3, 4] = some buf := hbuf
        cases hbuf'
        exact ⟨by decide, by decide⟩
      · trivial

theorem tcpConn_send_backPressure :
    ¬ (Always sendStep SendSafe (Sender.create (.watched 7) fun _ => []) backPressure ∧
      Guarded sendStep TransientInert (Sender.create (.watched 7) fun _ => []) backPressure) := by
  rw [tcpConn_send_iff (.watched 7) (fun _ => []) backPressure backPressure_legal]
  intro hfine
  exact (hfine.2.1 [1, 2, 3, 4] rfl (by decide)).1 rfl

/-- After the transient error the third byte goes out a second time. -/
theorem tcpConn_send_repeats_byte :
    ¬ ∀ (net : NetIo) (memory : Nat → List UInt8) (calls : List SendCall),
      Guarded sendStep SendLegal (Sender.create net memory) calls →
        Always sendStep SendSafe (Sender.create net memory) calls ∧
        Guarded sendStep TransientInert (Sender.create net memory) calls := by
  intro h
  have hsafe := (h (.watched 7) (fun _ => []) backPressure backPressure_legal).1.2.2.2
  have hprefix : [1, 2, 3, 3, 4] <+: [1, 2, 3, (4 : UInt8)] := hsafe.1
  exact absurd hprefix (by decide)

end NetTest.TcpConn
