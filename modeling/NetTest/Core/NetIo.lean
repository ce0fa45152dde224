/-!
# Connections

The part of `net_io.cpp` that the connection classes share: how a connection is
taken down.  `loop` says whether the connection is registered with an event loop;
the reference count is kept with the loop, in `EventLoop`.
-/

namespace NetTest

structure NetIo where
  fd : Int
  brkTm : Nat
  errno : Int
  loop : Bool
  /-- The callback is still installed. -/
  disconnCb : Bool
  /-- The arguments the callback was called with. -/
  disconnected : List Int

namespace NetIo

/-- A connection that the loop watches. -/
def watched (fd : Int) : NetIo :=
  { fd := fd, brkTm := 0, errno := 0, loop := true, disconnCb := true, disconnected := [] }

/-- The constructor; `disconnCb` says whether it was given a callback. -/
def new (disconnCb : Bool) : NetIo :=
  { fd := -1, brkTm := 0, errno := 0, loop := false, disconnCb := disconnCb, disconnected := [] }

/-- `fd` is the result of `::socket`.  The error number is overwritten at once. -/
def create (n : NetIo) (fd : Int) : NetIo := { n with fd := fd, errno := 0 }

/-- `failure` is the error number when `::connect` fails. -/
def connect (n : NetIo) (failure : Option Int) : NetIo :=
  match failure with
  | some errno => { n with errno := errno }
  | none => { n with brkTm := 0 }

def onClose (n : NetIo) : NetIo :=
  if n.disconnCb then
    { n with disconnected := n.disconnected ++ [n.errno], disconnCb := false }
  else n

/-- The Linux branch tests for a negative descriptor. -/
def close (n : NetIo) : NetIo := if n.fd < 0 then { n with fd := -1 } else n

/-- `now` is the result of `time`. -/
def terminate (n : NetIo) (now : Nat) : NetIo :=
  let n := if n.loop then onClose { n with loop := false } else n
  let n := if n.brkTm ≠ 0 then close n else n
  { n with brkTm := now }

theorem terminate_loop (n : NetIo) (now : Nat) : (n.terminate now).loop = false := by
  unfold terminate close onClose
  grind

theorem terminate_errno (n : NetIo) (now : Nat) : (n.terminate now).errno = n.errno := by
  unfold terminate close onClose
  grind

theorem terminate_disconnected {n : NetIo} (hloop : n.loop = false) (now : Nat) :
    (n.terminate now).disconnected = n.disconnected := by
  unfold terminate close
  grind

end NetIo

/-- `EAGAIN` and `EINTR` on Linux. -/
def eagain : Int := 11
def eintr : Int := 4

end NetTest
