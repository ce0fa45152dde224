import NetTest.Core.TcpConn.Send

/-!
# Output that is still to be sent

What `tcp_conn::wait_sndmsg_size` tells the event loop about it, and what
`tcp_conn::OnSend` makes of it.  The first counts the queue and leaves the partly
sent buffer out; the second serves the partly sent buffer and never takes
anything from the queue.
-/

namespace NetTest.TcpConn

open Runs Queue
open Pool (wordSize uintSize)

/-! ## Write interest -/

def waitSndmsgSize (c : Sender) : Nat := ngxQueueSize c.waitSnds

/-- The socket has taken fewer bytes than were acknowledged. -/
def Outstanding (c : Sender) : Prop := c.accepted.length < c.acked.flatten.length

instance (c : Sender) : Decidable (Outstanding c) := inferInstanceAs (Decidable (_ < _))

/-- The loop asks for a connection with bytes to send to be writable. -/
def WriteInterest (c : Sender) : Prop :=
  c.net.brkTm = 0 → Outstanding c → 0 < waitSndmsgSize c

/-- The socket takes a message that is sent directly whole, or the rest finds no
memory. -/
def NeverPartial (c : Sender) : SendCall → Prop
  | .sendMsg data room (.accepted n) _ =>
      c.faulted = false → c.net.brkTm = 0 → c.sndBuf = none →
        ngxQueueEmpty c.waitSnds = true → room = true → 0 < n → data.length ≤ n
  | _ => True

/-- Nothing is partly sent; or the process is gone, with nothing acknowledged
that was not sent. -/
def NothingPartial (c : Sender) : Prop :=
  (∃ waiting, SendInv c waiting ∧ c.sndBuf = none) ∨ c.faulted = true ∧ ¬ Outstanding c

theorem NothingPartial.writeInterest {c : Sender} (h : NothingPartial c) : WriteInterest c := by
  intro _ hout
  rcases h with ⟨waiting, hinv, hbuf⟩ | ⟨_, hnone⟩
  · have hstream := hinv.stream_queued hbuf
    rw [waitSndmsgSize, hinv.queue.size_eq]
    apply List.length_pos_iff.mpr
    rintro rfl
    rw [Outstanding, hstream] at hout
    simp at hout
  · exact absurd hout hnone

/-- The call is sent directly and taken in part, and there is memory for it. -/
def SentInPart (c : Sender) (data : List UInt8) : SendCall → Prop
  | .sendMsg data' room (.accepted n) _ =>
      c.faulted = false ∧ c.net.brkTm = 0 ∧ c.sndBuf = none ∧ ngxQueueEmpty c.waitSnds = true ∧
        room = true ∧ 0 < n ∧ data.length ≠ n ∧ data' = data
  | _ => False

theorem sndBuf_sendMsg {c : Sender} (hrunning : c.faulted = false) (data : List UInt8) (room : Bool)
    (result : SendResult) (now : Nat) :
    (sendMsg c data room result now).1.sndBuf = c.sndBuf ∨
      SentInPart c data (.sendMsg data room result now) ∧
        (sendMsg c data room result now).1.sndBuf = some data := by
  have hqueued : (enqueue c data room).1.sndBuf = c.sndBuf := by
    unfold enqueue
    split
    · rfl
    · rfl
  unfold sendMsg
  by_cases hbrk : c.net.brkTm ≠ 0
  · rw [if_pos hbrk]
    exact .inl rfl
  rw [if_neg hbrk]
  by_cases hwait : c.sndBuf.isSome ∨ ngxQueueEmpty c.waitSnds = false
  · rw [if_pos hwait]
    exact .inl hqueued
  rw [if_neg hwait]
  have hbuf : c.sndBuf = none := by
    rw [← Option.not_isSome_iff_eq_none]
    exact fun hsome => hwait (.inl hsome)
  have hempty : ngxQueueEmpty c.waitSnds = true := by
    rw [← Bool.not_eq_false]
    exact fun hfalse => hwait (.inr hfalse)
  cases result with
  | failed errno =>
      left
      dsimp only
      split
      · rfl
      · exact hqueued
  | accepted n =>
      cases n with
      | zero => exact .inl rfl
      | succ n =>
          dsimp only
          by_cases hall : data.length = n + 1
          · rw [if_pos hall]
            exact .inl rfl
          · rw [if_neg hall]
            cases room with
            | false => exact .inl rfl
            | true =>
                exact .inr ⟨⟨hrunning, not_not.mp hbrk, hbuf, hempty, rfl, Nat.succ_pos n, hall,
                  rfl⟩, rfl⟩

theorem sndBuf_onSend (c : Sender) (result : SendResult) (now : Nat) :
    (onSend c result now).sndBuf = c.sndBuf ∨ (onSend c result now).sndBuf = none := by
  have hadvance : ∀ (c : Sender) (buf : List UInt8) (n : Nat),
      (advance c buf n).sndBuf = c.sndBuf ∨ (advance c buf n).sndBuf = none := by
    intro c buf n
    unfold advance
    split
    · exact .inr rfl
    · exact .inl rfl
  unfold onSend
  cases hbuf : c.sndBuf with
  | none =>
      right
      dsimp only
      split
      · exact hbuf
      · split
        · rfl
        · rfl
  | some buf =>
      dsimp only
      split
      · exact .inl hbuf
      · cases result with
        | failed errno =>
            dsimp only
            split
            · exact .inl hbuf
            · rw [← hbuf]
              exact hadvance c buf _
        | accepted n =>
            cases n with
            | zero => exact .inl hbuf
            | succ n =>
                rw [← hbuf]
                exact hadvance { c with accepted := c.accepted ++ (buf.drop c.sndLen).take (n + 1) }
                  buf _

theorem sndBuf_sendStep (c : Sender) (call : SendCall) :
    (sendStep c call).sndBuf = c.sndBuf ∨ (sendStep c call).sndBuf = none ∨
      ∃ data, SentInPart c data call ∧ (sendStep c call).sndBuf = some data := by
  unfold sendStep
  by_cases hfault : c.faulted = true
  · rw [if_pos hfault]
    exact .inl rfl
  · rw [if_neg hfault]
    cases call with
    | onSend result now =>
        rcases sndBuf_onSend c result now with hsame | hnone
        · exact .inl hsame
        · exact .inr (.inl hnone)
    | sendMsg data room result now =>
        have hacked : ∀ r : Sender × Option Int,
            (if r.2 = some 0 then { r.1 with acked := r.1.acked ++ [data] } else r.1).sndBuf =
              r.1.sndBuf := by
          intro r
          split
          · rfl
          · rfl
        dsimp only
        rw [hacked]
        rcases sndBuf_sendMsg (Bool.eq_false_iff.mpr hfault) data room result now with
          hsame | ⟨hpart, hsome⟩
        · exact .inl hsame
        · exact .inr (.inr ⟨data, hpart, hsome⟩)

/-- Without a message sent in part, `_snd_buf` stays empty. -/
theorem sndBuf_neverPartial {c : Sender} (hbuf : c.sndBuf = none) {call : SendCall}
    (hlegal : SendLegal c call) (hpart : NeverPartial c call) : (sendStep c call).sndBuf = none := by
  rcases sndBuf_sendStep c call with hsame | hnone | ⟨data, hsent, _⟩
  · rw [hsame]
    exact hbuf
  · exact hnone
  · cases call with
    | onSend result now => cases hsent
    | sendMsg data' room result now =>
        cases result with
        | failed errno => cases hsent
        | accepted n =>
            obtain ⟨hrunning, hbrk, _, hempty, hroom, hpos, hne, rfl⟩ := hsent
            have hle := hpart hrunning hbrk hbuf hempty hroom hpos
            have hlen : n ≤ data'.length := hlegal.2.1
            omega

theorem sendStep_inPart {c : Sender} (hrunning : c.faulted = false) (hbrk : c.net.brkTm = 0)
    (hbuf : c.sndBuf = none) (hempty : ngxQueueEmpty c.waitSnds = true) {data : List UInt8} {n : Nat}
    (hpos : 0 < n) (hn : n < data.length) (room : Bool) (now : Nat) :
    sendStep c (.sendMsg data room (.accepted n) now) =
      let c := { c with accepted := c.accepted ++ data.take n, sndLen := n }
      if room then { c with sndBuf := some data, acked := c.acked ++ [data] }
      else { c with faulted := true } := by
  obtain ⟨n, rfl⟩ := Nat.exists_eq_succ_of_ne_zero (Nat.ne_of_gt hpos)
  have hwait : ¬ (c.sndBuf.isSome ∨ ngxQueueEmpty c.waitSnds = false) := by simp [hbuf, hempty]
  have hsend : sendMsg c data room (.accepted (n + 1)) now =
      if room then ({ c with
        accepted := c.accepted ++ data.take (n + 1)
        sndLen := n + 1
        sndBuf := some data }, some 0)
      else ({ c with
        accepted := c.accepted ++ data.take (n + 1)
        sndLen := n + 1
        faulted := true }, none) := by
    unfold sendMsg
    rw [if_neg (by simp [hbrk]), if_neg hwait]
    exact if_neg (Nat.ne_of_gt hn)
  unfold sendStep
  rw [if_neg (by simp [hrunning])]
  dsimp only
  rw [hsend]
  cases room with
  | true => rfl
  | false => rfl

theorem NothingPartial.step {c : Sender} (h : NothingPartial c) {call : SendCall}
    (hlegal : SendLegal c call) (hpart : NeverPartial c call) : NothingPartial (sendStep c call) := by
  rcases h with ⟨waiting, hinv, hbuf⟩ | ⟨hfault, hnone⟩
  · by_cases hfine : SendFine c call
    · obtain ⟨waiting', hinv'⟩ := hinv.step hlegal hfine
      exact .inl ⟨waiting', hinv', sndBuf_neverPartial hbuf hlegal hpart⟩
    · -- the only way out is a partial send that finds no memory
      cases call with
      | onSend result now =>
          refine absurd ?_ hfine
          cases result with
          | accepted n => trivial
          | failed errno =>
              intro buf hsome
              rw [hbuf] at hsome
              cases hsome
      | sendMsg data room result now =>
          cases result with
          | failed errno => exact absurd trivial hfine
          | accepted n =>
              simp only [SendFine, not_forall] at hfine
              obtain ⟨hbrk, _, hempty, hpos, hn, hroom⟩ := hfine
              have hstream := hinv.stream_sent hbuf hempty
              rw [sendStep_inPart hinv.running hbrk hbuf hempty hpos hn]
              dsimp only
              rw [if_neg hroom]
              refine .inr ⟨rfl, ?_⟩
              simp only [Outstanding, hstream, List.length_append]
              omega
  · have hstop : sendStep c call = c := if_pos hfault
    rw [hstop]
    exact .inr ⟨hfault, hnone⟩

/-- A partial send leaves bytes behind that nobody asks the loop for. -/
theorem NothingPartial.not_writeInterest {c : Sender} (h : NothingPartial c) {call : SendCall}
    (hpart : ¬ NeverPartial c call) : ¬ WriteInterest (sendStep c call) := by
  cases call with
  | onSend result now => exact absurd trivial hpart
  | sendMsg data room result now =>
      cases result with
      | failed errno => exact absurd trivial hpart
      | accepted n =>
          simp only [NeverPartial, not_forall, Nat.not_le] at hpart
          obtain ⟨hrunning, hbrk, hbuf, hempty, hroom, hpos, hn⟩ := hpart
          rcases h with ⟨waiting, hinv, _⟩ | ⟨hfault, _⟩
          · have hwaiting : waiting = [] := hinv.queue.empty_iff.mp hempty
            have hstream := hinv.stream_sent hbuf hempty
            have hsize := hinv.queue.size_eq
            rw [hwaiting, List.length_nil] at hsize
            rw [sendStep_inPart hrunning hbrk hbuf hempty hpos hn]
            dsimp only
            rw [if_pos hroom]
            intro hinterest
            have hout := hinterest hbrk
            simp only [Outstanding, waitSndmsgSize, hsize, hstream, List.flatten_append,
              List.flatten_singleton, List.length_append, List.length_take] at hout
            omega
          · rw [hrunning] at hfault
            cases hfault

/-- Along every run the loop is told of the bytes that wait, exactly when no
message is taken in part by the socket it is sent to directly. -/
theorem writeInterest_iff (net : NetIo) (memory : Nat → List UInt8) (calls : List SendCall)
    (hlegal : Guarded sendStep SendLegal (Sender.create net memory) calls) :
    Always sendStep WriteInterest (Sender.create net memory) calls ↔
      Guarded sendStep NeverPartial (Sender.create net memory) calls := by
  have hcreate : NothingPartial (Sender.create net memory) :=
    .inl ⟨[], sendInv_create net memory, rfl⟩
  refine always_iff_guarded NothingPartial SendLegal ?_ ?_ ?_ hcreate hlegal
  · exact fun _ h => h.writeInterest
  · exact fun _ _ h hl hpart => h.step hl hpart
  · exact fun _ _ h _ hpart => h.not_writeInterest hpart

/-- The socket is busy, and both messages wait in the queue. -/
theorem writeInterest_while_busy :
    Always sendStep WriteInterest (Sender.create (.watched 7) fun _ => [])
      [.sendMsg [1, 2] true (.failed eagain) 0, .sendMsg [3] true (.accepted 1) 0] :=
  (writeInterest_iff (.watched 7) (fun _ => [])
    [.sendMsg [1, 2] true (.failed eagain) 0, .sendMsg [3] true (.accepted 1) 0]
    ⟨⟨by decide, trivial⟩, ⟨by decide, by decide, by decide⟩, trivial⟩).mpr
      ⟨trivial, (fun _ _ _ hempty => absurd hempty (by decide)), trivial⟩

/-- Three bytes of four are taken: one is left, and the loop hears of none. -/
theorem writeInterest_lost :
    ¬ ∀ (net : NetIo) (memory : Nat → List UInt8) (calls : List SendCall),
      Guarded sendStep SendLegal (Sender.create net memory) calls →
        Always sendStep WriteInterest (Sender.create net memory) calls := by
  intro h
  have hrun := h (.watched 7) (fun _ => []) [.sendMsg [1, 2, 3, 4] true (.accepted 3) 0]
    ⟨⟨by decide, by decide, by decide⟩, trivial⟩
  have hsize := hrun.2 rfl (by decide)
  exact absurd hsize (by decide)

/-! ## Progress -/

def queued (c : Sender) : List (List UInt8) :=
  Ring.window c.waitSnds.elts c.waitSnds.nalloc c.waitSnds.head (ngxQueueSize c.waitSnds)

theorem queued_eq {c : Sender} {waiting : List (List UInt8)}
    (h : Represents 1024 c.waitSnds waiting) : queued c = waiting := by
  rw [queued, h.size_eq, h.nalloc]
  exact h.held_eq.symm

/-- What `_snd_buf`, from `_snd_len` on, and the queue hold. -/
def pendingOutput (c : Sender) : List UInt8 := unsent c ++ (queued c).flatten

/-- What `OnSend` passes to the socket; nothing when it returns before. -/
def offered (c : Sender) : List UInt8 :=
  match c.sndBuf with
  | none => []
  | some buf => (buf.drop c.sndLen).take ((buf.length - c.sndLen) % uintSize)

/-- The bytes of acknowledged messages that the socket has not taken. -/
def stillUnsent (c : Sender) : List UInt8 := c.acked.flatten.drop c.accepted.length

/-- On a socket that takes `k` bytes `OnSend` offers the next bytes that the
socket has not taken, and exactly the `k` bytes leave the pending output. -/
structure Progress (c : Sender) : Prop where
  offers : offered c ≠ []
  next : offered c <+: stillUnsent c
  leaves : ∀ k now, 1 ≤ k → k ≤ (offered c).length → k < 2 ^ 31 →
    (sendStep c (.onSend (.accepted k) now)).accepted = c.accepted ++ (offered c).take k ∧
    pendingOutput c = (offered c).take k ++ pendingOutput (sendStep c (.onSend (.accepted k) now))

/-- There is a rest of a partly sent message. -/
def PartlySent (c : Sender) : Prop := ∃ buf, c.sndBuf = some buf ∧ c.sndLen < buf.length

/-- By how many bytes the socket is ahead of `_snd_len`. -/
def setback (c : Sender) : Nat :=
  c.accepted.length + (pendingOutput c).length - c.acked.flatten.length

/-- `_snd_len` is where the socket is; or what `OnSend` repeats reads like what is
due. -/
def InStep (c : Sender) : Prop := unsent c <+: (pendingOutput c).drop (setback c)

instance (c : Sender) : Decidable (InStep c) := inferInstanceAs (Decidable (_ <+: _))

/-- The length of `_snd_buf` came as an `unsigned int`. -/
def ShortBuf (c : Sender) : Prop := ∀ buf, c.sndBuf = some buf → buf.length < uintSize

theorem ShortBuf.step {c : Sender} (h : ShortBuf c) {call : SendCall} (hlegal : SendLegal c call) :
    ShortBuf (sendStep c call) := by
  intro buf hbuf
  rcases sndBuf_sendStep c call with hsame | hnone | ⟨data, hsent, hsome⟩
  · exact h buf (hsame.symm.trans hbuf)
  · rw [hnone] at hbuf
    cases hbuf
  · rw [hsome] at hbuf
    cases hbuf
    cases call with
    | onSend result now => cases hsent
    | sendMsg data' room result now =>
        cases result with
        | failed errno => cases hsent
        | accepted n =>
            obtain ⟨_, _, _, _, _, _, _, rfl⟩ := hsent
            exact hlegal.1

theorem offered_eq {c : Sender} {buf : List UInt8} (hbuf : c.sndBuf = some buf)
    (hshort : buf.length < uintSize) : offered c = buf.drop c.sndLen := by
  have hmod : (buf.length - c.sndLen) % uintSize = buf.length - c.sndLen :=
    Nat.mod_eq_of_lt (by omega)
  rw [offered, hbuf]
  dsimp only
  rw [hmod, List.take_of_length_le (by rw [List.length_drop])]

/-- The bytes that are taken are the ones that leave `_snd_buf`. -/
theorem unsent_advance {c : Sender} {buf : List UInt8} (hbuf : c.sndBuf = some buf)
    (hshort : buf.length < uintSize) {k : Nat} (hk : c.sndLen + k ≤ buf.length) :
    buf.drop c.sndLen = (buf.drop c.sndLen).take k ++ unsent (advance c buf k) := by
  have huint : uintSize < wordSize := by decide
  have hmod : (c.sndLen + k) % wordSize = c.sndLen + k := Nat.mod_eq_of_lt (by omega)
  have hrest : unsent (advance c buf k) = buf.drop (c.sndLen + k) := by
    unfold advance
    rw [hmod]
    split
    · rename_i hdone
      rw [hdone, List.drop_length]
      rfl
    · simp only [unsent, hbuf]
  rw [hrest, ← List.drop_drop]
  exact (List.take_append_drop k _).symm

theorem queued_advance (c : Sender) (buf : List UInt8) (k : Nat) :
    queued (advance c buf k) = queued c := by
  unfold advance
  split
  · rfl
  · rfl

theorem onSend_leaves {c : Sender} (hrunning : c.faulted = false) {buf : List UInt8}
    (hbuf : c.sndBuf = some buf) (hshort : buf.length < uintSize) {k : Nat} (hpos : 1 ≤ k)
    (hk : k ≤ buf.length - c.sndLen) (now : Nat) :
    (sendStep c (.onSend (.accepted k) now)).accepted =
        c.accepted ++ (buf.drop c.sndLen).take k ∧
      pendingOutput c = (buf.drop c.sndLen).take k ++
        pendingOutput (sendStep c (.onSend (.accepted k) now)) := by
  obtain ⟨n, rfl⟩ := Nat.exists_eq_succ_of_ne_zero (Nat.ne_of_gt hpos)
  have hunsent : unsent c = buf.drop c.sndLen := by simp only [unsent, hbuf]
  have hstep : sendStep c (.onSend (.accepted (n + 1)) now) =
      advance { c with accepted := c.accepted ++ (buf.drop c.sndLen).take (n + 1) } buf
        (n + 1) := by
    unfold sendStep onSend
    rw [if_neg (by simp [hrunning])]
    simp only [hbuf, if_neg (show ¬ buf.length ≤ c.sndLen by omega)]
  have haccepted : ∀ (c : Sender) (k : Nat), (advance c buf k).accepted = c.accepted := by
    intro c k
    unfold advance
    split
    · rfl
    · rfl
  have hleft := unsent_advance
    (c := { c with accepted := c.accepted ++ (buf.drop c.sndLen).take (n + 1) }) hbuf hshort
    (k := n + 1) (by simp only; omega)
  rw [hstep]
  constructor
  · exact haccepted _ _
  · rw [pendingOutput, pendingOutput, hunsent, queued_advance, ← List.append_assoc, ← hleft]
    rfl

theorem Progress.partlySent {c : Sender} (h : Progress c) : PartlySent c := by
  have hoffers := h.offers
  unfold offered at hoffers
  cases hbuf : c.sndBuf with
  | none =>
      rw [hbuf] at hoffers
      exact absurd rfl hoffers
  | some buf =>
      refine ⟨buf, hbuf, ?_⟩
      by_contra hle
      rw [hbuf] at hoffers
      dsimp only at hoffers
      rw [List.drop_of_length_le (Nat.not_lt.mp hle), List.take_nil] at hoffers
      exact hoffers rfl

/-! ## Where the socket is -/

/-- `pre` are the messages before the one in `_snd_buf`.  The socket has taken
them and `_snd_len` bytes of the buffer, and for every transient error one byte
more. -/
structure Stream (c : Sender) (pre : List UInt8) (waiting : List (List UInt8)) : Prop where
  queue : Represents 1024 c.waitSnds waiting
  head : c.waitSnds.head = 0
  stream : c.acked.flatten = pre ++ c.sndBuf.getD [] ++ waiting.flatten
  clear : c.sndBuf = none → c.sndLen = 0
  partly : ∀ buf, c.sndBuf = some buf → c.sndLen < buf.length ∧ buf.length < uintSize
  taken : pre.length + c.sndLen ≤ c.accepted.length

/-- Nothing runs any more, or `OnSend` has nothing to send, for good: `_snd_len`
has gone below zero. -/
def Streams (c : Sender) : Prop :=
  c.faulted = true ∨ (∃ buf, c.sndBuf = some buf ∧ buf.length ≤ c.sndLen) ∨
    ∃ pre waiting, Stream c pre waiting

namespace Stream

variable {c : Sender} {pre : List UInt8} {waiting : List (List UInt8)}

theorem with_net (h : Stream c pre waiting) (net : NetIo) :
    Stream { c with net := net } pre waiting where
  queue := h.queue
  head := h.head
  stream := h.stream
  clear := h.clear
  partly := h.partly
  taken := h.taken

theorem sendMsg (h : Stream c pre waiting) (hrunning : c.faulted = false) {data : List UInt8}
    {room : Bool} {result : SendResult} {now : Nat}
    (hlegal : SendLegal c (.sendMsg data room result now)) :
    Streams (sendStep c (.sendMsg data room result now)) := by
  have houtcome := sendMsg_outcome hrunning h.queue h.head hlegal
  generalize sendStep c (.sendMsg data room result now) = s at houtcome ⊢
  cases houtcome with
  | refused net => exact .inr (.inr ⟨pre, waiting, h.with_net net⟩)
  | queued hqueue hhead =>
      refine .inr (.inr ⟨pre, waiting ++ [data], hqueue, hhead, ?_, h.clear, h.partly, h.taken⟩)
      simp [h.stream]
  | whole hdirect =>
      have hclear := h.clear hdirect.sndBuf
      have htaken := h.taken
      refine .inr (.inr ⟨pre ++ data, waiting, h.queue, h.head, ?_, h.clear, h.partly, ?_⟩)
      · simp [h.stream, hdirect.sndBuf, hdirect.waiting]
      · simp only [List.length_append]
        omega
  | @part n hdirect hpos hn =>
      have hclear := h.clear hdirect.sndBuf
      have htaken := h.taken
      refine .inr (.inr ⟨pre, waiting, h.queue, h.head, ?_, (fun hnone => by cases hnone), ?_, ?_⟩)
      · simp [h.stream, hdirect.sndBuf, hdirect.waiting]
      · intro buf hbuf
        cases hbuf
        exact ⟨hn, hlegal.1⟩
      · simp only [List.length_append, List.length_take]
        omega
  | lost hdirect hpos hn hresult hroom => exact .inl rfl

theorem taken_step (h : Stream c pre waiting) {buf : List UInt8} (hbuf : c.sndBuf = some buf)
    {n : Nat} (hn : n ≤ buf.length - c.sndLen) :
    ∃ pre', Stream (advance { c with accepted := c.accepted ++ (buf.drop c.sndLen).take n } buf n)
      pre' waiting := by
  have hpartly := h.partly buf hbuf
  have htaken := h.taken
  have hstream := h.stream
  rw [hbuf, Option.getD_some] at hstream
  have huint : uintSize < wordSize := by decide
  have hmod : (c.sndLen + n) % wordSize = c.sndLen + n := Nat.mod_eq_of_lt (by omega)
  unfold advance
  dsimp only
  rw [hmod]
  by_cases hdone : c.sndLen + n = buf.length
  · rw [if_pos hdone]
    refine ⟨pre ++ buf, h.queue, h.head, ?_, fun _ => rfl, (fun buf' hnone => by cases hnone), ?_⟩
    · simpa using hstream
    · simp only [List.length_append, List.length_take, List.length_drop]
      omega
  · rw [if_neg hdone]
    refine ⟨pre, h.queue, h.head, h.stream, fun hnone => ?_, fun buf' hsome => ?_, ?_⟩
    · rw [hbuf] at hnone
      cases hnone
    · rw [hbuf] at hsome
      cases hsome
      exact ⟨by simp only; omega, hpartly.2⟩
    · simp only [List.length_append, List.length_take, List.length_drop]
      omega

/-- A transient error takes `_snd_len` back, below zero from the first byte. -/
theorem setBack_step (h : Stream c pre waiting) {buf : List UInt8} (hbuf : c.sndBuf = some buf) :
    Streams (advance c buf (wordSize - 1)) := by
  have hpartly := h.partly buf hbuf
  have htaken := h.taken
  have huint : uintSize < wordSize := by decide
  rcases Nat.eq_zero_or_pos c.sndLen with hzero | hpos
  · have hlast : (c.sndLen + (wordSize - 1)) % wordSize = wordSize - 1 := by
      rw [hzero, Nat.zero_add]
      exact Nat.mod_eq_of_lt (by omega)
    unfold advance
    rw [hlast, if_neg (by omega)]
    exact .inr (.inl ⟨buf, hbuf, by simp only; omega⟩)
  · have hback : (c.sndLen + (wordSize - 1)) % wordSize = c.sndLen - 1 := by
      rw [show c.sndLen + (wordSize - 1) = c.sndLen - 1 + wordSize by omega, Nat.add_mod_right]
      exact Nat.mod_eq_of_lt (by omega)
    unfold advance
    rw [hback, if_neg (by omega)]
    refine .inr (.inr ⟨pre, waiting, h.queue, h.head, h.stream, fun hnone => ?_,
      fun buf' hsome => ?_, ?_⟩)
    · rw [hbuf] at hnone
      cases hnone
    · rw [hbuf] at hsome
      cases hsome
      exact ⟨by simp only; omega, hpartly.2⟩
    · simp only
      omega

theorem onSend (h : Stream c pre waiting) (hrunning : c.faulted = false) {result : SendResult}
    {now : Nat} (hlegal : SendLegal c (.onSend result now)) :
    Streams (sendStep c (.onSend result now)) := by
  have houtcome := onSend_outcome hrunning (fun buf hbuf => (h.partly buf hbuf).2) hlegal
  generalize sendStep c (.onSend result now) = s at houtcome ⊢
  cases houtcome with
  | idle net => exact .inr (.inr ⟨pre, waiting, h.with_net net⟩)
  | taken hbuf hpos hn =>
      obtain ⟨pre', hstream⟩ := h.taken_step hbuf hn
      exact .inr (.inr ⟨pre', waiting, hstream⟩)
  | setBack hbuf hlt hresult htransient => exact h.setBack_step hbuf

/-- What is due starts behind the bytes by which the socket is ahead. -/
theorem stillUnsent_eq (h : Stream c pre waiting) :
    stillUnsent c = (pendingOutput c).drop (setback c) := by
  have hqueued : queued c = waiting := queued_eq h.queue
  have hunsent : unsent c = (c.sndBuf.getD []).drop c.sndLen := by
    unfold unsent
    cases c.sndBuf with
    | none => simp
    | some buf => rfl
  have hle : c.sndLen ≤ (c.sndBuf.getD []).length := by
    cases hbuf : c.sndBuf with
    | none => simp [h.clear hbuf]
    | some buf => exact Nat.le_of_lt (h.partly buf hbuf).1
  have hsplit : c.acked.flatten =
      (pre ++ (c.sndBuf.getD []).take c.sndLen) ++ pendingOutput c := by
    rw [h.stream, pendingOutput, hqueued, hunsent]
    simp only [List.append_assoc]
    rw [← List.append_assoc (List.take _ _), List.take_append_drop]
  have htaken := h.taken
  have hlength := congrArg List.length hsplit
  simp only [List.length_append, List.length_take, Nat.min_eq_left hle] at hlength
  have hahead : c.accepted.length =
      (pre ++ (c.sndBuf.getD []).take c.sndLen).length + setback c := by
    simp only [setback, List.length_append, List.length_take, Nat.min_eq_left hle]
    omega
  rw [stillUnsent, hsplit, hahead, ← List.drop_drop, List.drop_left]

end Stream

theorem Streams.stillUnsent_eq {c : Sender} (h : Streams c) (hrunning : c.faulted = false)
    {buf : List UInt8} (hbuf : c.sndBuf = some buf) (hlt : c.sndLen < buf.length) :
    stillUnsent c = (pendingOutput c).drop (setback c) := by
  rcases h with hfault | ⟨buf', hbuf', hle⟩ | ⟨pre, waiting, h⟩
  · rw [hrunning] at hfault
    cases hfault
  · rw [hbuf] at hbuf'
    cases hbuf'
    omega
  · exact h.stillUnsent_eq

/-- With `_snd_len` behind the end of `_snd_buf` both calls leave them alone. -/
theorem sendStep_overrun {c : Sender} (hrunning : c.faulted = false) {buf : List UInt8}
    (hbuf : c.sndBuf = some buf) (hle : buf.length ≤ c.sndLen) (call : SendCall) :
    ∃ buf, (sendStep c call).sndBuf = some buf ∧ buf.length ≤ (sendStep c call).sndLen := by
  have hsame : (sendStep c call).sndBuf = c.sndBuf ∧ (sendStep c call).sndLen = c.sndLen := by
    unfold sendStep
    rw [if_neg (by simp [hrunning])]
    cases call with
    | onSend result now =>
        simp only [onSend, hbuf, if_pos hle]
        exact ⟨trivial, trivial⟩
    | sendMsg data room result now =>
        have hmsg : (sendMsg c data room result now).1.sndBuf = c.sndBuf ∧
            (sendMsg c data room result now).1.sndLen = c.sndLen := by
          unfold sendMsg
          split
          · exact ⟨rfl, rfl⟩
          · rw [if_pos (Or.inl (by simp [hbuf]))]
            unfold enqueue
            split
            · exact ⟨rfl, rfl⟩
            · exact ⟨rfl, rfl⟩
        dsimp only
        split
        · exact hmsg
        · exact hmsg
  refine ⟨buf, hsame.1.trans hbuf, ?_⟩
  rw [hsame.2]
  exact hle

theorem streams_step {c : Sender} (h : Streams c) {call : SendCall} (hlegal : SendLegal c call) :
    Streams (sendStep c call) := by
  cases hrunning : c.faulted with
  | true =>
      have hstop : sendStep c call = c := if_pos hrunning
      rw [hstop]
      exact h
  | false =>
      rcases h with hfault | ⟨buf, hbuf, hle⟩ | ⟨pre, waiting, h⟩
      · rw [hrunning] at hfault
        cases hfault
      · exact .inr (.inl (sendStep_overrun hrunning hbuf hle call))
      · cases call with
        | sendMsg data room result now => exact h.sendMsg hrunning hlegal
        | onSend result now => exact h.onSend hrunning hlegal

/-- In every state that is reached, `OnSend` makes progress exactly when there is
a rest of a partly sent message and no transient error has taken `_snd_len` back
behind what the socket has; what only waits in the queue stays there. -/
theorem onSend_progress_iff (net : NetIo) (memory : Nat → List UInt8) (calls : List SendCall)
    (hlegal : Guarded sendStep SendLegal (Sender.create net memory) calls) :
    Always sendStep (fun c => c.faulted = false → (Progress c ↔ PartlySent c ∧ InStep c))
      (Sender.create net memory) calls := by
  have hreached : Always sendStep (fun c => ShortBuf c ∧ Streams c)
      (Sender.create net memory) calls := by
    refine always_of_guarded (fun _ _ h hl => ⟨h.1.step hl, streams_step h.2 hl⟩) ?_ hlegal
    constructor
    · intro buf hbuf
      cases hbuf
    · exact .inr (.inr ⟨[], [], represents_create 1024 memory, rfl, rfl, fun _ => rfl,
        (fun buf hbuf => by cases hbuf), Nat.le_refl 0⟩)
  refine hreached.mono ?_
  rintro c ⟨hshort, hstreams⟩ hrunning
  constructor
  · intro h
    obtain ⟨buf, hbuf, hlt⟩ := h.partlySent
    refine ⟨⟨buf, hbuf, hlt⟩, ?_⟩
    have hnext := h.next
    rw [offered_eq hbuf (hshort buf hbuf), hstreams.stillUnsent_eq hrunning hbuf hlt] at hnext
    simpa only [InStep, unsent, hbuf] using hnext
  · rintro ⟨⟨buf, hbuf, hlt⟩, hin⟩
    have hoffered := offered_eq hbuf (hshort buf hbuf)
    constructor
    case offers =>
      rw [hoffered]
      intro hnil
      have := List.drop_eq_nil_iff.mp hnil
      omega
    case next =>
      rw [hoffered, hstreams.stillUnsent_eq hrunning hbuf hlt]
      simpa only [InStep, unsent, hbuf] using hin
    case leaves =>
      intro k now hpos hk _
      rw [hoffered, List.length_drop] at hk
      rw [hoffered]
      exact onSend_leaves hrunning hbuf (hshort buf hbuf) hpos hk now

/-- A partly sent message. -/
theorem onSend_progress_rest :
    Progress (sendStep (Sender.create (.watched 7) fun _ => [])
      (.sendMsg [1, 2, 3, 4] true (.accepted 3) 0)) :=
  ((onSend_progress_iff (.watched 7) (fun _ => [])
    [.sendMsg [1, 2, 3, 4] true (.accepted 3) 0]
    ⟨⟨by decide, by decide, by decide⟩, trivial⟩).2 rfl).mpr
      ⟨⟨[1, 2, 3, 4], rfl, by decide⟩, by decide⟩

-- After a transient error the third byte is offered again.
example : ¬ InStep ((backPressure.take 2).foldl sendStep
    (Sender.create (.watched 7) fun _ => [])) := by
  decide

/-- A message that waits because the socket was busy is never offered again. -/
theorem onSend_ignores_queue :
    ¬ ∀ (net : NetIo) (memory : Nat → List UInt8) (calls : List SendCall),
      Guarded sendStep SendLegal (Sender.create net memory) calls →
        Always sendStep (fun c => c.faulted = false → Outstanding c → Progress c)
          (Sender.create net memory) calls := by
  intro h
  have hrun := h (.watched 7) (fun _ => []) [.sendMsg [1, 2] true (.failed eagain) 0]
    ⟨⟨by decide, trivial⟩, trivial⟩
  have hprogress := hrun.2 rfl (by decide)
  exact absurd hprogress.offers (by decide)

theorem SendInv.inStep {c : Sender} {waiting : List (List UInt8)} (h : SendInv c waiting) :
    InStep c := by
  have hqueued : queued c = waiting := queued_eq h.queue
  have hzero : setback c = 0 := by
    simp only [setback, pendingOutput, hqueued, h.stream, List.length_append]
    omega
  rw [InStep, hzero, List.drop_zero]
  exact List.prefix_append _ _

/-- Where no pending `OnSend` meets a transient error and no partial send runs out
of memory, `_snd_len` stays where the socket is. -/
theorem inStep_of_fine {net : NetIo} {memory : Nat → List UInt8} {calls : List SendCall}
    (hlegal : Guarded sendStep SendLegal (Sender.create net memory) calls)
    (hfine : Guarded sendStep SendFine (Sender.create net memory) calls) :
    Always sendStep InStep (Sender.create net memory) calls := by
  have hboth := guarded_and.mpr ⟨hlegal, hfine⟩
  refine (always_of_guarded (P := fun c => ∃ waiting, SendInv c waiting) ?_
    ⟨[], sendInv_create net memory⟩ hboth).mono ?_
  · rintro c call ⟨waiting, h⟩ ⟨hl, hf⟩
    exact h.step hl hf
  · rintro c ⟨waiting, h⟩
    exact h.inStep

end NetTest.TcpConn
