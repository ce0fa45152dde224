import NetTest.Core.TcpConn.Receive

/-!
# Transient read errors

`EAGAIN` and `EINTR` say that there is nothing to read yet.  `OnSend` lets them
pass; `OnRead` tests for them with `||` where `OnSend` has `&&`, so both of them
take the connection down as any other error does.
-/

namespace NetTest.TcpConn

open Memory

def Transient (errno : Int) : Prop := errno = eagain ∨ errno = eintr

def receivedBytes (c : Receiver) : List UInt8 :=
  match c.rcvBuf with
  | none => []
  | some buf => load c.mem (Buf.data c.mem buf) (Buf.len c.mem buf)

/-- A call of `OnRead` that left no trace. -/
structure ReadInert (c c' : Receiver) : Prop where
  loop : c'.net.loop = c.net.loop
  errno : c'.net.errno = c.net.errno
  brkTm : c'.net.brkTm = c.net.brkTm
  disconnected : c'.net.disconnected = c.net.disconnected
  expectedLen : c'.expectedLen = c.expectedLen
  received : receivedBytes c' = receivedBytes c
  delivered : c'.delivered = c.delivered

/-- The loop calls `OnRead` for the connections it watches. -/
def watchRead (headFnc : List UInt8 → Nat) (c : Receiver) (env : ReadEnv) : Receiver :=
  if c.net.loop then onRead headFnc c env else c

/-- The call left no trace, and whatever is read later, the same messages are
delivered as without the call. -/
def Unnoticed (headFnc : List UInt8 → Nat) (c : Receiver) (env : ReadEnv) : Prop :=
  ReadInert c (onRead headFnc c env) ∧
    ∀ envs : List ReadEnv,
      (envs.foldl (watchRead headFnc) (onRead headFnc c env)).delivered =
        (envs.foldl (watchRead headFnc) c).delivered

/-! ## What the error path does -/

theorem ensureBuf_inert {c : Receiver} {block : Option Nat} {r : Receiver × Nat}
    (hbuf : ensureBuf c block = some r) :
    r.1.net = c.net ∧ r.1.expectedLen = c.expectedLen ∧ r.1.delivered = c.delivered ∧
      receivedBytes r.1 = receivedBytes c := by
  unfold ensureBuf at hbuf
  cases hrcv : c.rcvBuf with
  | some buf =>
      simp only [hrcv, Option.some.injEq] at hbuf
      rw [← hbuf]
      exact ⟨rfl, rfl, rfl, rfl⟩
  | none =>
      simp only [hrcv, Option.map_eq_some_iff] at hbuf
      rcases hbuf with ⟨created, hcreate, hr⟩
      have hlen : Buf.len created.1 created.2 = 0 := Buf.len_ngxCreateBuf hcreate
      rw [← hr]
      refine ⟨rfl, rfl, rfl, ?_⟩
      simp only [receivedBytes, hrcv, hlen]
      rfl

/-- No code is equal to both constants, so every failure terminates. -/
theorem onRead_failed {headFnc : List UInt8 → Nat} {c : Receiver} {env : ReadEnv} {errno : Int}
    {r : Receiver × Nat} (hrecv : env.recv = .failed errno)
    (hbuf : ensureBuf c env.block = some r) :
    onRead headFnc c env =
      { r.1 with net := ({ r.1.net with errno := errno } : NetIo).terminate env.now } := by
  have hcond : errno ≠ eagain ∨ errno ≠ eintr := by
    unfold eagain eintr
    omega
  simp only [onRead, hbuf, hrecv, if_pos hcond]

theorem watchRead_detached {headFnc : List UInt8 → Nat} {c : Receiver}
    (hloop : c.net.loop = false) (envs : List ReadEnv) :
    envs.foldl (watchRead headFnc) c = c := by
  induction envs with
  | nil => rfl
  | cons env envs ih =>
      have hstep : watchRead headFnc c env = c := by simp [watchRead, hloop]
      rw [List.foldl_cons, hstep, ih]

/-- A transient error passes unnoticed only where there was nothing left to take
down: the connection has been detached and had failed with the same code in the
same second.  A connection that the loop watches is always disconnected. -/
theorem onRead_transient_iff (headFnc : List UInt8 → Nat) (c : Receiver) (env : ReadEnv)
    (errno : Int) (_htransient : Transient errno) (hrecv : env.recv = .failed errno)
    (hbuf : ensureBuf c env.block ≠ none) :
    Unnoticed headFnc c env ↔
      c.net.loop = false ∧ c.net.errno = errno ∧ c.net.brkTm = env.now := by
  rcases Option.ne_none_iff_exists'.mp hbuf with ⟨r, hr⟩
  rcases ensureBuf_inert hr with ⟨hnet, hexpected, hdelivered, hreceived⟩
  have heq : onRead headFnc c env =
      { r.1 with net := ({ r.1.net with errno := errno } : NetIo).terminate env.now } :=
    onRead_failed hrecv hr
  have hloop : (onRead headFnc c env).net.loop = false := by
    rw [heq]
    exact NetIo.terminate_loop _ _
  have herrno : (onRead headFnc c env).net.errno = errno := by
    rw [heq]
    exact NetIo.terminate_errno _ _
  have hbrk : (onRead headFnc c env).net.brkTm = env.now := by
    rw [heq]
    rfl
  constructor
  · intro h
    exact ⟨h.1.loop.symm.trans hloop, h.1.errno.symm.trans herrno, h.1.brkTm.symm.trans hbrk⟩
  · rintro ⟨hdetached, hsame, hnow⟩
    have hdelivered' : (onRead headFnc c env).delivered = c.delivered := by
      rw [heq]
      exact hdelivered
    constructor
    · constructor
      · rw [hloop, hdetached]
      · rw [herrno, hsame]
      · rw [hbrk, hnow]
      · rw [heq, NetIo.terminate_disconnected (by simp [hnet, hdetached])]
        show r.1.net.disconnected = c.net.disconnected
        rw [hnet]
      · rw [heq]
        exact hexpected
      · rw [heq]
        exact hreceived
      · exact hdelivered'
    · intro envs
      rw [watchRead_detached hloop, watchRead_detached hdetached, hdelivered']

def interrupted : ReadEnv := { block := some 4096, recv := .failed eintr, grown := none, now := 5 }

theorem onRead_transient_detached :
    Unnoticed (fun _ => 24)
      (.create { NetIo.watched 7 with loop := false, errno := eintr, brkTm := 5 } (fun _ => 0) 24)
      interrupted :=
  (onRead_transient_iff (fun _ => 24)
    (.create { NetIo.watched 7 with loop := false, errno := eintr, brkTm := 5 } (fun _ => 0) 24)
    interrupted eintr (.inr rfl) rfl (by simp [ensureBuf, Receiver.create, interrupted,
      Buf.ngxCreateBuf])).mpr ⟨rfl, rfl, rfl⟩

/-- Spurious readiness: a watched connection without anything to read is
disconnected with `EAGAIN`. -/
theorem onRead_eagain_disconnects :
    ¬ ∀ (headFnc : List UInt8 → Nat) (c : Receiver) (env : ReadEnv) (errno : Int),
      Transient errno → env.recv = .failed errno → ensureBuf c env.block ≠ none →
        Unnoticed headFnc c env := by
  intro h
  have hinert := (h (fun _ => 24) (.create (.watched 7) (fun _ => 0) 24)
    { block := some 4096, recv := .failed eagain, grown := none, now := 5 } eagain (.inl rfl) rfl
    (by simp [ensureBuf, Receiver.create, Buf.ngxCreateBuf])).1
  have hloop : (false : Bool) = true := hinert.loop
  cases hloop

end NetTest.TcpConn
