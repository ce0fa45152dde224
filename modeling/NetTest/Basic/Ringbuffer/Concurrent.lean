import NetTest.Basic.Ringbuffer.Model
import Mathlib.Data.List.Forall2

/-!
# The two sides of the ring buffer at once

A call of either side is a small program over the shared indexes and slots, and
its local variables are part of its program counter.  One step of a side is one
load or store of an index, or one access to a slot.  The schedule decides which
side steps next and when a side that rests begins its next call.

`producerClear` is left out: it stores the index of the consumer from the other
side, as its comment warns.
-/

namespace NetTest.Spsc

open Wrapping

variable {α : Type*}

/-- The calls that put elements.  `insertFromCallbackWhenAvailable` is `insert`
of the element its callback returns.  The callback of `writeBuff` is taken not
to call the buffer. -/
inductive PutCall (α : Type*) where
  | insert (data : α)
  | writeBuff (buff : List α)
  | writeBuffCallback (buff : List α) (countToCallback : Nat)

def PutCall.buff : PutCall α → List α
  | .insert data => [data]
  | .writeBuff buff => buff
  | .writeBuffCallback buff _ => buff

def PutCall.toWrite : PutCall α → Nat
  | .insert _ => 1
  | .writeBuff buff => buff.length
  | .writeBuffCallback buff countToCallback =>
      if countToCallback ≠ 0 ∧ countToCallback < buff.length then countToCallback
      else buff.length

/-- Where the producer is.  `copied` and `rest` are the elements of the current
chunk that are in their slots and that are not. -/
inductive Producer (α : Type*) where
  | idle
  | loadHead (call : PutCall α)
  | loadTail (call : PutCall α) (written toWrite tmpHead : Nat)
  | copy (call : PutCall α) (written : Nat) (copied rest : List α) (tmpHead : Nat)

inductive GetCall where
  | remove
  | readBuff (count : Nat)
  | readBuffCallback (count countToCallback : Nat)
  | removeOne
  | removeCount (cnt : Nat)
  | consumerClear

def GetCall.toRead : GetCall → Nat
  | .readBuff count => count
  | .readBuffCallback count countToCallback =>
      if countToCallback ≠ 0 ∧ countToCallback < count then countToCallback else count
  | _ => 1

/-- Where the consumer is.  `got` is what it has read from the slots since it
last stored `tail`, and `drop` comes before the store of a call that reads
nothing. -/
inductive Consumer (α : Type*) where
  | idle
  | loadTail (call : GetCall)
  | loadHead (call : GetCall) (read toRead tmpTail : Nat)
  | copy (call : GetCall) (read toRead : Nat) (got : List α) (tmpTail : Nat)
  | drop (count newTail : Nat)

/-- The buffer, both sides, and what they did: the buffers of the calls of the
producer that returned, with the count each returned, and for every element that
was removed the value that was read, if it was. -/
structure System (α : Type*) where
  ring : Ringbuffer α
  producer : Producer α
  consumer : Consumer α
  returned : List (List α × Nat)
  removed : List (Option α)

def System.create (dataBuff : Nat → α) : System α where
  ring := Spsc.create dataBuff
  producer := .idle
  consumer := .idle
  returned := []
  removed := []

variable (p : Params)

def System.returnPut (s : System α) (call : PutCall α) (count : Nat) : System α :=
  { s with producer := .idle, returned := s.returned ++ [(call.buff, count)] }

/-- `while(written < count)`: another round, or the end of the call. -/
def System.nextRound (s : System α) (call : PutCall α) (written toWrite tmpHead : Nat) :
    System α :=
  if written < call.buff.length then
    { s with producer := .loadTail call written toWrite tmpHead }
  else s.returnPut call written

def runProducer (s : System α) : Producer α → System α
  | .idle => s
  | .loadHead call =>
      match call with
      | .writeBuffCallback _ _ => s.nextRound call 0 call.toWrite s.ring.head
      | _ => { s with producer := .loadTail call 0 call.toWrite s.ring.head }
  | .loadTail call written toWrite tmpHead =>
      let available := unwritten p tmpHead s.ring.tail
      match call with
      | .insert data =>
          if gap p tmpHead s.ring.tail = p.bufferSize then s.returnPut call 0
          else { s with producer := .copy call written [] [data] tmpHead }
      | .writeBuff buff =>
          { s with producer := .copy call written [] (buff.take (clip toWrite available)) tmpHead }
      | .writeBuffCallback buff _ =>
          if available = 0 then s.returnPut call written
          else
            let chunk := (buff.drop written).take (clip toWrite available)
            { s with producer := .copy call written [] chunk tmpHead }
  | .copy call written copied (x :: rest) tmpHead =>
      { s with
        ring := { s.ring with
          dataBuff := Function.update s.ring.dataBuff (slot p tmpHead) x }
        producer := .copy call written (copied ++ [x]) rest (next p tmpHead) }
  | .copy call written copied [] tmpHead =>
      let s' := { s with ring := { s.ring with head := tmpHead } }
      let written := written + copied.length
      match call with
      | .writeBuffCallback buff _ => s'.nextRound call written (buff.length - written) tmpHead
      | _ => s'.returnPut call written

/-- `while(read < count)` on the other side. -/
def System.nextFetch (s : System α) (call : GetCall) (read toRead tmpTail : Nat) : System α :=
  match call with
  | .readBuffCallback count _ =>
      if read < count then { s with consumer := .loadHead call read toRead tmpTail }
      else { s with consumer := .idle }
  | _ => { s with consumer := .idle }

def runConsumer (s : System α) : Consumer α → System α
  | .idle => s
  | .loadTail call =>
      match call with
      | .readBuffCallback _ _ => s.nextFetch call 0 call.toRead s.ring.tail
      | _ => { s with consumer := .loadHead call 0 call.toRead s.ring.tail }
  | .loadHead call read toRead tmpTail =>
      let available := unread p s.ring.head tmpTail
      match call with
      | .remove =>
          if tmpTail = s.ring.head then { s with consumer := .idle }
          else { s with consumer := .copy call read 1 [] tmpTail }
      | .readBuff _ => { s with consumer := .copy call read (clip toRead available) [] tmpTail }
      | .readBuffCallback _ _ =>
          if available = 0 then { s with consumer := .idle }
          else { s with consumer := .copy call read (clip toRead available) [] tmpTail }
      | .removeOne =>
          if tmpTail = s.ring.head then { s with consumer := .idle }
          else { s with consumer := .drop 1 (next p tmpTail) }
      | .removeCount cnt =>
          let cnt := clip cnt available
          { s with consumer := .drop cnt ((tmpTail + cnt) % sizeT % p.indexT) }
      | .consumerClear => { s with consumer := .drop available s.ring.head }
  | .copy call read (toRead + 1) got tmpTail =>
      let got := got ++ [s.ring.dataBuff (slot p tmpTail)]
      { s with consumer := .copy call read toRead got (next p tmpTail) }
  | .copy call read 0 got tmpTail =>
      let s' := { s with
        ring := { s.ring with tail := tmpTail }
        removed := s.removed ++ got.map some }
      let read := read + got.length
      match call with
      | .readBuffCallback count _ => s'.nextFetch call read (count - read) tmpTail
      | _ => { s' with consumer := .idle }
  | .drop count newTail =>
      { s with
        ring := { s.ring with tail := newTail }
        removed := s.removed ++ List.replicate count none
        consumer := .idle }

inductive Event (α : Type*) where
  | put (call : PutCall α)
  | get (call : GetCall)
  | producer
  | consumer

/-- A side begins a call when its last one has returned. -/
def step (s : System α) : Event α → System α
  | .put call =>
      match s.producer with
      | .idle => { s with producer := .loadHead call }
      | _ => s
  | .get call =>
      match s.consumer with
      | .idle => { s with consumer := .loadTail call }
      | _ => s
  | .producer => runProducer p s s.producer
  | .consumer => runConsumer p s s.consumer

/-! ## What the sides have done -/

def Producer.published : Producer α → List α
  | .loadTail call written _ _ => call.buff.take written
  | .copy call written _ _ _ => call.buff.take written
  | _ => []

/-- The elements of the call under way that are in their slots, unpublished. -/
def Producer.copied : Producer α → List α
  | .copy _ _ copied _ _ => copied
  | _ => []

def System.reported (s : System α) : List α :=
  s.returned.flatMap (fun call => call.1.take call.2) ++ s.producer.published

def System.writes (s : System α) : Option Nat :=
  match s.producer with
  | .copy _ _ _ (_ :: _) tmpHead => some (slot p tmpHead)
  | _ => none

def System.reads (s : System α) : Option Nat :=
  match s.consumer with
  | .copy _ _ (_ + 1) _ tmpTail => some (slot p tmpTail)
  | _ => none

def contents (r : Ringbuffer α) : List α :=
  (List.range (readAvailable p r)).map fun i => r.dataBuff (slot p ((r.tail + i) % sizeT))

/-- An element that was removed was the next one, and was read right if it was
read. -/
def Removes : Option α → α → Prop
  | none, _ => True
  | some value, x => value = x

/-- What left the buffer is what was put, in the order it was put, and the rest is
what the buffer holds. -/
structure Fifo (s : System α) : Prop where
  removed : List.Forall₂ Removes s.removed (s.reported.take s.removed.length)
  contents : contents p s.ring = s.reported.drop s.removed.length
  bounded : s.reported.length ≤ s.removed.length + p.bufferSize

end NetTest.Spsc
