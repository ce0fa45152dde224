import NetTest.Core.Buf
import NetTest.Core.Pool.Safety
import NetTest.Core.Queue.Model

/-!
# The log

`ngx_log.cpp`.  A record is a buffer in pool memory; its address waits in a
queue of 4096 slots until `print_log_file` appends its bytes to the file and
frees it.  Every call holds the lock, so a call is one step.

`vsnprintf` is called twice with one `va_list`.  The first pass gives the length
of the message; what the second pass prints is up to the callee, so `again` is
any text.  `accepted` is the history: what each record that found room should
read, and `due` is all of it as of the last `print_log_file`.
-/

namespace NetTest.Log

open Memory
open Queue (NgxQueue ngxCreateQueue ngxQueueSize ngxQueueEmpty ngxQueueGet ngxQueuePush)

def newline : UInt8 := 10

def bytesOf (s : String) : List UInt8 := s.toList.map fun c => UInt8.ofNat c.toNat

def logLevelInfo : Nat := 3
def logLevelOff : Nat := 8

def logLevelPrefix (level : Nat) : List UInt8 :=
  bytesOf (["", "[TRACE] ", "[DEBUG] ", "[INFO] ", "[NOTIC] ", "[WARN] ", "[ERROR] ",
    "[FATAL] "].getD level "")

structure Stamp where
  text : List UInt8
  no_nul : 0 ∉ text
  length_le : text.length ≤ 1000

def strlen (s : List UInt8) : Nat := (s.takeWhile (· ≠ 0)).length

/-- The contents of `szTmp`: the prefix, and zeros behind it. -/
def szTmp (stamp : Stamp) (level : Nat) : List UInt8 :=
  let text := stamp.text ++ logLevelPrefix level
  text ++ List.replicate (1024 - text.length) 0

structure World where
  level : Nat
  mem : Memory
  pool : Pool.World
  waitLogs : NgxQueue Nat
  file : List UInt8
  accepted : List (List UInt8)
  due : List UInt8

def sizeofQueue : Nat := 40

def waitLogsSize : Nat := 4096

def queueSize : Nat := Pool.ngxAlign (sizeofQueue + 8 * waitLogsSize)

/-- `ngx_log::ngx_log`: `addr` and `block` are what the system returned for the
pool and for the queue, `slots` is what the memory held. -/
def World.create (level : Nat) (mem : Memory) (addr block : Nat) (slots : Nat → Nat) : World where
  level := level
  mem := mem
  pool := Pool.step (Pool.World.init 1 addr) (.palloc queueSize (some block))
  waitLogs := ngxCreateQueue slots waitLogsSize
  file := []
  accepted := []
  due := []

/-- At most `size` bytes are written, and a null byte ends them. -/
def vsnprintf (m : Memory) (addr size : Nat) (out : List UInt8) : Memory :=
  if size = 0 then m else store m addr (out.take (size - 1) ++ [0])

/-- The buffer of a record whose message has `length` bytes. -/
def fillRecord (m : Memory) (buf : Nat) (stamp : Stamp) (level length : Nat)
    (again : List UInt8) : Memory :=
  let prefixLen := strlen (szTmp stamp level)
  let nLen := length + prefixLen
  let m := store m (Buf.data m buf) ((szTmp stamp level).take prefixLen)
  let m := vsnprintf m (Buf.data m buf + prefixLen) (nLen - prefixLen) again
  let m := store m (Buf.data m buf + nLen) [newline, 0]
  Buf.setLen m buf (nLen + 1)

def allocation (w : World) (cap : Nat) (mem : Option Nat) : Option Nat :=
  (Pool.ngxPalloc w.pool.pool (Buf.createSize cap) mem).2

def levelCap (stamp : Stamp) (level : Nat) (message : List UInt8) : Nat :=
  message.length + strlen (szTmp stamp level) + 3

def levelRecord (stamp : Stamp) (level : Nat) (message : List UInt8) : List UInt8 :=
  stamp.text ++ logLevelPrefix level ++ message ++ [newline]

def writeLevelLog (w : World) (level : Nat) (stamp : Stamp) (message again : List UInt8)
    (mem : Option Nat) : World :=
  if level < w.level ∨ logLevelOff ≤ level then w
  else
    let cap := levelCap stamp level message
    let pool := Pool.step w.pool (.palloc (Buf.createSize cap) mem)
    match Buf.ngxCreateBuf w.mem cap (allocation w cap mem) with
    | none => { w with pool := pool }
    | some (m, buf) =>
        let m := fillRecord m buf stamp level message.length again
        if ngxQueueSize w.waitLogs < w.waitLogs.nalloc then
          { w with
            mem := m
            pool := pool
            waitLogs := (ngxQueuePush w.waitLogs buf).1
            accepted := w.accepted ++ [levelRecord stamp level message] }
        else
          -- the text goes to the standard output and the buffer stays behind
          { w with mem := m, pool := pool }

def writeData (w : World) (data : List UInt8) (mem : Option Nat) : World :=
  let pool := Pool.step w.pool (.palloc (Buf.createSize data.length) mem)
  match Buf.ngxCreateBuf w.mem data.length (allocation w data.length mem) with
  | none => { w with pool := pool }
  | some (m, buf) =>
      let m := store m (Buf.data m buf) data
      let r := ngxQueuePush w.waitLogs buf
      if r.2 then
        { w with mem := m, pool := pool, waitLogs := r.1, accepted := w.accepted ++ [data] }
      else
        let f := Buf.ngxBufFree m buf
        { w with mem := f.1, pool := if f.2 then Pool.step pool (.free buf) else pool }

/-- The loop of `print_log_file`, for at most as many turns as the queue has
slots. -/
def printLoop (w : World) : Nat → World
  | 0 => w
  | turns + 1 =>
      if ngxQueueEmpty w.waitLogs then w
      else
        match (ngxQueueGet w.waitLogs).2 with
        | none => w
        | some slot =>
            let buf := w.waitLogs.elts slot
            if buf = 0 then { w with waitLogs := (ngxQueueGet w.waitLogs).1 }
            else
              printLoop
                { w with
                  waitLogs := (ngxQueueGet w.waitLogs).1
                  file := w.file ++ load w.mem (Buf.data w.mem buf) (Buf.len w.mem buf)
                  pool := Pool.step w.pool (.free buf) } turns

def printLogFile (w : World) : World :=
  let w := printLoop w w.waitLogs.nalloc
  { w with due := w.accepted.flatten }

inductive Event where
  | writeLevelLog (level : Nat) (stamp : Stamp) (message again : List UInt8) (mem : Option Nat)
  | writeData (data : List UInt8) (mem : Option Nat)
  | printLogFile

def step (w : World) : Event → World
  | .writeLevelLog level stamp message again mem => writeLevelLog w level stamp message again mem
  | .writeData data mem => writeData w data mem
  | .printLogFile => printLogFile w

end NetTest.Log
