import Mathlib.Logic.Function.Basic
import NetTest.Lib.Wrapping

/-!
# Shared memory files

`fixed_shm.h`: an object holds the descriptor of a file and a mapping of it.
`close` gives the descriptor back and keeps its number, `map` keeps whatever
`mmap` returns, and the move assignment overwrites what the object held.

What `open` and `mmap` return are arguments.  The path, the contents of the file
and `fsync`, which gives nothing back, are left out.
-/

namespace NetTest.FixedShm

open Wrapping

/-- A value of `data_`: null, what `mmap` returns when it fails, or the address of
a mapping. -/
inductive Ptr where
  | null
  | failed
  | mem (addr : Nat)
  deriving DecidableEq

structure Shm where
  size : Nat
  data : Ptr
  fd : Int
  deriving DecidableEq

/-- The descriptors that are open and the mappings that exist, and how often
`close` and `munmap` were called for one that was not. -/
structure Os where
  fds : List Int
  maps : List (Nat × Nat)
  strayCloses : Nat
  strayUnmaps : Nat

/-! ## System calls -/

def Os.close (os : Os) (fd : Int) : Os :=
  if fd ∈ os.fds then { os with fds := os.fds.erase fd }
  else { os with strayCloses := os.strayCloses + 1 }

def Os.dropMap (os : Os) (m : Nat × Nat) : Os :=
  if m ∈ os.maps then { os with maps := os.maps.erase m }
  else { os with strayUnmaps := os.strayUnmaps + 1 }

/-- `munmap` refuses an address that is not the start of a page. -/
def Os.munmap (os : Os) (data : Ptr) (size : Nat) : Os × Bool :=
  match data with
  | .mem addr => (os.dropMap (addr, size), true)
  | _ => (os, false)

/-! ## One object -/

def Shm.create (size : Nat) : Shm := { size := size, data := .null, fd := -1 }

/-- `open`; `res` is the result of `::open`. -/
def Shm.openFile (s : Shm) (os : Os) (res : Int) : Shm × Os :=
  if s.fd ≠ -1 then (s, os)
  else if res < 0 then ({ s with fd := res }, os)
  else ({ s with fd := res }, { os with fds := res :: os.fds })

/-- `res` is the result of `mmap`, `none` for `MAP_FAILED`. -/
def Shm.map (s : Shm) (os : Os) (res : Option Nat) : Shm × Os :=
  match res with
  | none => ({ s with data := .failed }, os)
  | some addr => ({ s with data := .mem addr }, { os with maps := (addr, s.size) :: os.maps })

def Shm.unmap (s : Shm) (os : Os) : Shm × Os :=
  if s.data ≠ .null then
    match os.munmap s.data s.size with
    | (os, false) => (s, os)
    | (os, true) => ({ s with data := .null }, os)
  else ({ s with data := .null }, os)

def Shm.close (s : Shm) (os : Os) : Shm × Os :=
  let r := s.unmap os
  if r.1.fd ≠ -1 then (r.1, r.2.close r.1.fd) else r

def Shm.destroy (s : Shm) (os : Os) : Os := (s.close os).2

def Shm.moved (s : Shm) : Shm := { s with data := .null, fd := -1 }

def toInt (n : Nat) : Int := Int.bmod n (2 ^ 32)

def Shm.writeto (s : Shm) (offset size : Nat) : Int :=
  if s.data = .null then -1
  else if diff s.size offset < size then -1
  else toInt size

/-- The first test compares an unsigned difference with zero. -/
def Shm.readfrom (s : Shm) (offset size : Nat) : Int :=
  if s.data = .null then -1
  else if 0 ≤ diff (diff s.size offset) size then toInt size
  else if offset < s.size ∧ diff s.size offset < size then toInt (diff s.size offset)
  else -1

/-! ## Runs -/

structure World where
  objs : Nat → Option Shm
  os : Os

def World.init : World :=
  { objs := fun _ => none, os := { fds := [], maps := [], strayCloses := 0, strayUnmaps := 0 } }

inductive Op where
  | construct (i size : Nat)
  | openFile (i : Nat) (res : Int)
  | map (i : Nat) (res : Option Nat)
  | unmap (i : Nat)
  | close (i : Nat)
  | writeto (i offset size : Nat)
  | readfrom (i offset size : Nat)
  | moveConstruct (i j : Nat)
  | moveAssign (i j : Nat)
  | destroy (i : Nat)

def World.on (w : World) (i : Nat) (f : Shm → Os → Shm × Os) : World :=
  match w.objs i with
  | none => w
  | some s => { objs := Function.update w.objs i (some (f s w.os).1), os := (f s w.os).2 }

def World.move (w : World) (i j : Nat) (s : Shm) : World :=
  { w with objs := Function.update (Function.update w.objs i (some s)) j (some s.moved) }

def step (w : World) : Op → World
  | .construct i size => { w with objs := Function.update w.objs i (some (Shm.create size)) }
  | .openFile i res => w.on i fun s os => s.openFile os res
  | .map i res => w.on i fun s os => s.map os res
  | .unmap i => w.on i Shm.unmap
  | .close i => w.on i Shm.close
  | .writeto _ _ _ => w
  | .readfrom _ _ _ => w
  | .moveConstruct i j =>
      match w.objs j with
      | none => w
      | some s => w.move i j s
  | .moveAssign i j =>
      if i = j then w
      else
        match w.objs j with
        | none => w
        | some s => w.move i j s
  | .destroy i =>
      match w.objs i with
      | none => w
      | some s => { objs := Function.update w.objs i none, os := s.destroy w.os }

/-- Calls are made on objects that exist.  `::open` returns a number that is not in
use, and `mmap` an address that is not mapped. -/
def Legal (w : World) : Op → Prop
  | .construct i _ => w.objs i = none
  | .openFile i res => w.objs i ≠ none ∧ (res = -1 ∨ (0 ≤ res ∧ res ∉ w.os.fds))
  | .map i res => w.objs i ≠ none ∧ ∀ addr ∈ res, ∀ m ∈ w.os.maps, m.1 ≠ addr
  | .moveConstruct i j => w.objs i = none ∧ w.objs j ≠ none
  | .moveAssign i j => w.objs i ≠ none ∧ w.objs j ≠ none
  | .unmap i | .close i | .writeto i _ _ | .readfrom i _ _ | .destroy i => w.objs i ≠ none

instance (w : World) : ∀ op : Op, Decidable (Legal w op)
  | .construct i _ => inferInstanceAs (Decidable (w.objs i = none))
  | .openFile i res =>
      inferInstanceAs (Decidable (w.objs i ≠ none ∧ (res = -1 ∨ (0 ≤ res ∧ res ∉ w.os.fds))))
  | .map i res =>
      inferInstanceAs (Decidable (w.objs i ≠ none ∧ ∀ addr ∈ res, ∀ m ∈ w.os.maps, m.1 ≠ addr))
  | .moveConstruct i j => inferInstanceAs (Decidable (w.objs i = none ∧ w.objs j ≠ none))
  | .moveAssign i j => inferInstanceAs (Decidable (w.objs i ≠ none ∧ w.objs j ≠ none))
  | .unmap i => inferInstanceAs (Decidable (w.objs i ≠ none))
  | .close i => inferInstanceAs (Decidable (w.objs i ≠ none))
  | .writeto i _ _ => inferInstanceAs (Decidable (w.objs i ≠ none))
  | .readfrom i _ _ => inferInstanceAs (Decidable (w.objs i ≠ none))
  | .destroy i => inferInstanceAs (Decidable (w.objs i ≠ none))

end NetTest.FixedShm
