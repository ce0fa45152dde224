import Mathlib.Logic.Function.Basic
import NetTest.Core.NetIo

/-!
# The event loop and its connections

`eventloop.cpp` with the reference counts of `net_io.h`.  An iteration of the
loop takes a snapshot of the registered connections under the lock, with a
reference to each, serves them one by one and gives each reference back.  All
the while `add_net`, `remove_net` and `terminate` are called: by other threads,
by timers and tasks, from inside `OnRead` and `OnSend`.

What happens under the lock is one step.  `terminate` takes several, and a call
made by the loop thread itself is one whose steps all come before the next step
of the loop.  Connections are numbered; each starts with one reference.  The loop
runs all the time: `stop` and the destructor of the loop are left out.
-/

namespace NetTest.EventLoop

structure Conn where
  io : NetIo
  ref : Int
  /-- The connection has been deleted. -/
  freed : Bool
  /-- `remove_net` has taken it out of the loop. -/
  removed : Bool

/-- `net_io::net_io`; `disconnCb` says whether a callback was given. -/
def Conn.new (disconnCb : Bool) : Conn where
  io := NetIo.new disconnCb
  ref := 1
  freed := false
  removed := false

/-- Where a call of `terminate` stands: before the test of `_loop`, before
`remove_net`, before `_loop = NULL`, before the callback, before the callback is
cleared, and before the part about `_brk_tm`. -/
inductive Pc where
  | begun
  | removing
  | detaching
  | notifying
  | notified
  | closing
  | done
  deriving DecidableEq

structure Call where
  conn : Nat
  pc : Pc

structure World where
  conns : Nat → Conn
  /-- `_conns`. -/
  registered : List Nat
  /-- The connections of the snapshot whose reference has not been given back. -/
  serving : List Nat
  calls : List Call
  /-- A field of a deleted connection has been read or written. -/
  faulted : Bool

def World.init (disconnCb : Nat → Bool) : World where
  conns := fun c => Conn.new (disconnCb c)
  registered := []
  serving := []
  calls := []
  faulted := false

/-! ## Fields and references -/

/-- A step reads or writes a field of the connection. -/
def World.touch (w : World) (c : Nat) : World :=
  { w with faulted := w.faulted || (w.conns c).freed }

def World.setConn (w : World) (c : Nat) (conn : Conn) : World :=
  { w with conns := Function.update w.conns c conn }

def World.setIo (w : World) (c : Nat) (io : NetIo) : World :=
  (w.touch c).setConn c { w.conns c with io := io }

/-- `delete this`.  The destructor calls `terminate`; if `_loop` is still set,
that calls `remove_net`, and the `release` in there counts on. -/
def World.destroy (w : World) (c : Nat) (now : Nat) : World :=
  let conn := w.conns c
  let found := conn.io.loop && w.registered.contains c
  { w with
    conns := Function.update w.conns c
      { io := conn.io.terminate now
        ref := if found then conn.ref - 1 else conn.ref
        freed := true
        removed := conn.removed || found }
    registered := if found then w.registered.erase c else w.registered }

def World.release (w : World) (c : Nat) (now : Nat) : World :=
  let conn := w.conns c
  let w := (w.touch c).setConn c { conn with ref := conn.ref - 1 }
  if conn.ref - 1 = 0 then w.destroy c now else w

/-! ## Calls -/

def World.addNet (w : World) (c : Nat) : World :=
  { w.setIo c { (w.conns c).io with loop := true } with
    registered := if c ∈ w.registered then w.registered else c :: w.registered }

/-- `find` compares pointers; only a connection that is found is touched. -/
def World.removeNet (w : World) (c : Nat) (now : Nat) : World :=
  if c ∈ w.registered then
    let conn := w.conns c
    let w := (w.touch c).setConn c { conn with io := { conn.io with loop := false }, removed := true }
    let w := w.release c now
    { w with registered := w.registered.erase c }
  else w

def World.setPc (w : World) (k : Nat) (call : Call) (pc : Pc) : World :=
  { w with calls := w.calls.set k { call with pc := pc } }

def World.runCall (w : World) (k : Nat) (call : Call) (now : Nat) : World :=
  let io := (w.conns call.conn).io
  match call.pc with
  | .begun => (w.touch call.conn).setPc k call (if io.loop then .removing else .closing)
  | .removing => ((w.touch call.conn).removeNet call.conn now).setPc k call .detaching
  | .detaching => (w.setIo call.conn { io with loop := false }).setPc k call .notifying
  | .notifying =>
      if io.disconnCb then
        (w.setIo call.conn { io with disconnected := io.disconnected ++ [io.errno] }).setPc k call
          .notified
      else (w.touch call.conn).setPc k call .closing
  | .notified => (w.setIo call.conn { io with disconnCb := false }).setPc k call .closing
  | .closing =>
      (w.setIo call.conn { (if io.brkTm ≠ 0 then io.close else io) with brkTm := now }).setPc k
        call .done
  | .done => w

/-! ## The loop -/

/-- The snapshot of the next iteration, once the last one is through. -/
def World.snapshot (w : World) : World :=
  if w.serving = [] then
    { w with
      conns := fun c =>
        if c ∈ w.registered then { w.conns c with ref := (w.conns c).ref + 1 } else w.conns c
      serving := w.registered
      faulted := w.faulted || w.registered.any fun c => (w.conns c).freed }
  else w

/-! ## Runs -/

/-- `serve` is anything the loop does with the connection it has come to:
reading `_fd`, `OnRead`, `OnSend`.  `now` is the result of `time`. -/
inductive Event where
  | addNet (c : Nat)
  | removeNet (c : Nat) (now : Nat)
  | terminate (c : Nat)
  | run (k : Nat) (now : Nat)
  | snapshot
  | serve
  | release (now : Nat)

def step (w : World) : Event → World
  | .addNet c => w.addNet c
  | .removeNet c now => w.removeNet c now
  | .terminate c => { w with calls := w.calls ++ [⟨c, .begun⟩] }
  | .run k now =>
      match w.calls[k]? with
      | none => w
      | some call => w.runCall k call now
  | .snapshot => w.snapshot
  | .serve =>
      match w.serving with
      | [] => w
      | c :: _ => w.touch c
  | .release now =>
      match w.serving with
      | [] => w
      | c :: rest => { w with serving := rest }.release c now

/-- The steps of a `terminate` on a registered connection, taken together. -/
theorem terminate_eq_steps {io : NetIo} (hloop : io.loop = true) (now : Nat) :
    io.terminate now =
      let io := { io with loop := false }
      let io := if io.disconnCb then
          { { io with disconnected := io.disconnected ++ [io.errno] } with disconnCb := false }
        else io
      { (if io.brkTm ≠ 0 then io.close else io) with brkTm := now } := by
  simp [NetIo.terminate, NetIo.onClose, hloop]

end NetTest.EventLoop
