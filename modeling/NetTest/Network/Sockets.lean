import NetTest.Lib.Handles
import NetTest.Network.Common

/-!
# Senders and receivers

`tx_bsd_mcbc` and `rx_bsd_mcbc`, with the base classes of `io/tx.h` and `io/rx.h`:
sockets that are opened, closed and destroyed.  A sender forgets its descriptor when
it closes it and has no destructor; a receiver keeps the number and is closed once
more by its base class.

What the system calls answer is an input of `open`; descriptors are numbers of the
whole process.
-/

namespace NetTest.Net.Sockets

open Runs

inductive Kind where
  | tx
  | rx
  deriving DecidableEq

/-- `tx_bsd_mcbc_cfg_t` and `rx_bsd_mcbc_cfg_t`; times are passed on to the system. -/
structure Opt where
  dst : AddrT
  joinMulticast : Bool
  nonBlocking : Bool
  deriving DecidableEq

/-- The answers of the system calls; `socket` is a new descriptor, if there is one. -/
structure Results where
  socket : Option Nat
  reuseAddr : Bool
  timeout : Bool
  multicastTtl : Bool
  multicastLoop : Bool
  connect : Bool
  bind : Bool
  nonBlock : Bool
  addMembership : Bool
  deriving DecidableEq

/-- `fd_` and the result. -/
def txOpen (opt : Opt) (r : Results) : Int × Bool :=
  match r.socket with
  | none => (-1, false)
  | some fd =>
      if r.reuseAddr = false then (fd, false)
      else if r.timeout = false then (fd, false)
      else if opt.joinMulticast && isMulticastAddr (some opt.dst.ip) then
        if r.multicastTtl = false then (fd, false)
        else if r.multicastLoop = false then (fd, false)
        else (fd, r.connect)
      else (fd, r.connect)

def rxOpen (opt : Opt) (r : Results) : Int × Bool :=
  match r.socket with
  | none => (-1, false)
  | some fd =>
      if r.reuseAddr = false then (fd, false)
      else if r.timeout = false then (fd, false)
      else if r.bind = false then (fd, false)
      -- `O_NONBLOCK` is set when the option says no
      else if opt.nonBlocking = false ∧ r.nonBlock = false then (fd, false)
      else if opt.joinMulticast && isMulticastAddr (some opt.dst.ip) then (fd, r.addMembership)
      else (fd, true)

def openSocket : Kind → Opt → Results → Int × Bool
  | .tx => txOpen
  | .rx => rxOpen

/-- Once there is a descriptor, no failure gives it up. -/
theorem openSocket_fd (kind : Kind) (opt : Opt) (r : Results) :
    (openSocket kind opt r).1 = (r.socket.map Int.ofNat).getD (-1) := by
  cases hsocket : r.socket with
  | none =>
      cases kind with
      | tx => simp [openSocket, txOpen, hsocket]
      | rx => simp [openSocket, rxOpen, hsocket]
  | some fd =>
      cases kind with
      | tx =>
          simp only [openSocket, txOpen, hsocket, Option.map_some, Option.getD_some]
          split_ifs <;> rfl
      | rx =>
          simp only [openSocket, rxOpen, hsocket, Option.map_some, Option.getD_some]
          split_ifs <;> rfl

/-! ## Objects -/

structure Sock where
  kind : Kind
  opt : Opt
  fd : Int

structure World where
  objs : Nat → Option Sock
  /-- The descriptors that are open. -/
  fds : List Int
  /-- How often `::close` was called on one that is not. -/
  strayCloses : Nat

def World.init : World := ⟨fun _ => none, [], 0⟩

inductive Op where
  | construct (i : Nat) (kind : Kind) (opt : Opt)
  | setOpt (i : Nat) (opt : Opt)
  | openSocket (i : Nat) (r : Results)
  | close (i : Nat)
  | destroy (i : Nat)
  deriving DecidableEq

/-- `::close`. -/
def World.closeFd (w : World) (fd : Int) : World :=
  if fd ∈ w.fds then { w with fds := w.fds.erase fd } else { w with strayCloses := w.strayCloses + 1 }

def World.set (w : World) (i : Nat) (s : Option Sock) : World :=
  { w with objs := Function.update w.objs i s }

/-- `close`.  A receiver that joined drops its membership first, and goes on whatever
the answer. -/
def World.close (w : World) (i : Nat) (s : Sock) : World :=
  if s.fd < 0 then w
  else
    match s.kind with
    | .tx => (w.closeFd s.fd).set i (some { s with fd := -1 })
    | .rx => w.closeFd s.fd

def step (w : World) (op : Op) : World :=
  match op with
  | .construct i kind opt => w.set i (some ⟨kind, opt, -1⟩)
  | .setOpt i opt =>
      match w.objs i with
      | none => w
      | some s => w.set i (some { s with opt := opt })
  | .openSocket i r =>
      match w.objs i with
      | none => w
      | some s =>
          { w with fds := (r.socket.map Int.ofNat).toList ++ w.fds }.set i
            (some { s with fd := (openSocket s.kind s.opt r).1 })
  | .close i =>
      match w.objs i with
      | none => w
      | some s => w.close i s
  | .destroy i =>
      match w.objs i with
      | none => w
      | some s =>
          match s.kind with
          | .tx => w.set i none
          | .rx => (w.close i s).set i none

/-- Objects are constructed where there is none and used where there is one, and the
system hands out descriptors that are not open. -/
def Legal (w : World) : Op → Prop
  | .construct i _ _ => w.objs i = none
  | .setOpt i _ => w.objs i ≠ none
  | .openSocket i r => w.objs i ≠ none ∧ ∀ fd ∈ r.socket, (fd : Int) ∉ w.fds
  | .close i => w.objs i ≠ none
  | .destroy i => w.objs i ≠ none

instance (w : World) : (op : Op) → Decidable (Legal w op)
  | .construct i _ _ => inferInstanceAs (Decidable (w.objs i = none))
  | .setOpt i _ => inferInstanceAs (Decidable (w.objs i ≠ none))
  | .openSocket i r =>
      inferInstanceAs (Decidable (w.objs i ≠ none ∧ ∀ fd ∈ r.socket, (fd : Int) ∉ w.fds))
  | .close i => inferInstanceAs (Decidable (w.objs i ≠ none))
  | .destroy i => inferInstanceAs (Decidable (w.objs i ≠ none))

/-! ## Descriptors as handles -/

def Sock.held (s : Sock) : Option Int := if s.fd < 0 then none else some s.fd

def view (w : World) : Handles Nat Int where
  held := fun i => (w.objs i).bind Sock.held
  live := w.fds
  stray := w.strayCloses

def input (w : World) : Op → Handles.Op Nat Int
  | .construct i _ _ => .forget i
  | .setOpt _ _ => .idle
  | .openSocket i r =>
      match w.objs i, r.socket with
      | none, _ => .idle
      | some _, none => .forget i
      | some _, some fd => .acquire i fd
  | .close i =>
      match w.objs i with
      | none => .idle
      | some s =>
          match s.kind with
          | .tx => .release i
          | .rx => .releaseKeep i
  | .destroy i =>
      match w.objs i with
      | none => .idle
      | some s =>
          match s.kind with
          | .tx => .forget i
          | .rx => .release i

theorem held_eq {w : World} {i : Nat} {s : Sock} (h : w.objs i = some s) :
    (view w).held i = s.held := by
  simp [view, h]

theorem view_set (w : World) (i : Nat) (s : Option Sock) :
    view (w.set i s) = { view w with held := Function.update (view w).held i (s.bind Sock.held) } := by
  simp only [view, World.set, Handles.mk.injEq, and_true]
  funext k
  by_cases hk : k = i
  · subst hk
    rw [Function.update_self, Function.update_self]
  · rw [Function.update_of_ne hk, Function.update_of_ne hk]

theorem view_closeFd (w : World) (fd : Int) : view (w.closeFd fd) = (view w).discard (some fd) := by
  have hlive : (view w).live = w.fds := rfl
  rw [World.closeFd, Handles.discard, hlive]
  split
  · rfl
  · rfl

theorem update_held_none {h : Handles Nat Int} {i : Nat} (hi : h.held i = none) :
    { h with held := Function.update h.held i none } = h := by
  have hself : Function.update h.held i none = h.held := by
    rw [← hi]
    exact Function.update_eq_self i h.held
  rw [hself]

/-- What a receiver's `close` does to the handles. -/
theorem view_close_rx {w : World} {i : Nat} {s : Sock} (hi : w.objs i = some s)
    (hkind : s.kind = .rx) : view (w.close i s) = (view w).discard ((view w).held i) := by
  rw [held_eq hi, World.close, Sock.held]
  by_cases hneg : s.fd < 0
  · rw [if_pos hneg, if_pos hneg]
    rfl
  · rw [if_neg hneg, if_neg hneg, hkind]
    exact view_closeFd w s.fd

theorem discard_held (h : Handles Nat Int) (r : Option Int) : (h.discard r).held = h.held := by
  cases r with
  | none => rfl
  | some fd =>
      rw [Handles.discard]
      split <;> rfl

theorem view_setOpt (w : World) (i : Nat) (opt : Opt) :
    view (step w (.setOpt i opt)) = view w := by
  cases hi : w.objs i with
  | none => simp only [step, hi]
  | some s =>
      simp only [step, hi]
      rw [view_set]
      have hsame : Function.update (view w).held i (s.held) = (view w).held := by
        rw [← held_eq hi]
        exact Function.update_eq_self i _
      have hheld : (some { s with opt := opt } : Option Sock).bind Sock.held = s.held := rfl
      rw [hheld, hsame]

theorem view_openSocket {w : World} {i : Nat} {s : Sock} (hi : w.objs i = some s)
    (r : Results) :
    view (step w (.openSocket i r)) = (view w).step (input w (.openSocket i r)) := by
  simp only [step, input, hi, openSocket_fd]
  rw [view_set]
  cases hsocket : r.socket with
  | none => rfl
  | some fd =>
      have hpos : ¬ ((fd : Int) < 0) := by omega
      have hheld : (some { s with fd := (fd : Int) } : Option Sock).bind Sock.held =
          some (fd : Int) := by
        rw [Option.bind_some, Sock.held, if_neg hpos]
      simp only [Option.map_some, Option.getD_some, Option.toList_some, Int.ofNat_eq_natCast]
      rw [hheld]
      rfl

/-- A sender forgets the descriptor that it closes. -/
theorem view_close_tx {w : World} {i : Nat} {s : Sock} (hi : w.objs i = some s)
    (hkind : s.kind = .tx) : view (w.close i s) = (view w).step (.release i) := by
  simp only [Handles.step]
  rw [held_eq hi, World.close, Sock.held]
  by_cases hneg : s.fd < 0
  · have hnone : (view w).held i = none := by
      rw [held_eq hi, Sock.held, if_pos hneg]
    rw [if_pos hneg, if_pos hneg]
    exact (update_held_none hnone).symm
  · rw [if_neg hneg, if_neg hneg, hkind]
    simp only
    rw [view_set, view_closeFd, discard_held]
    rfl

theorem view_destroy {w : World} {i : Nat} {s : Sock} (hi : w.objs i = some s) :
    view (step w (.destroy i)) = (view w).step (input w (.destroy i)) := by
  cases hkind : s.kind with
  | tx =>
      simp only [step, input, hi, hkind]
      rw [view_set]
      rfl
  | rx =>
      simp only [step, input, hi, hkind, Handles.step]
      rw [view_set, view_close_rx hi hkind, discard_held]
      rfl

theorem view_step (w : World) (op : Op) : view (step w op) = (view w).step (input w op) := by
  cases op with
  | construct i kind opt =>
      rw [step, view_set]
      rfl
  | setOpt i opt => exact view_setOpt w i opt
  | openSocket i r =>
      cases hi : w.objs i with
      | none =>
          simp only [step, input, hi]
          rfl
      | some s => exact view_openSocket hi r
  | close i =>
      cases hi : w.objs i with
      | none =>
          simp only [step, input, hi]
          rfl
      | some s =>
          cases hkind : s.kind with
          | rx =>
              simp only [step, input, hi, hkind]
              exact view_close_rx hi hkind
          | tx =>
              simp only [step, input, hi, hkind]
              exact view_close_tx hi hkind
  | destroy i =>
      cases hi : w.objs i with
      | none =>
          simp only [step, input, hi]
          rfl
      | some s => exact view_destroy hi

/-! ## Who closes what -/

def Valid (w : World) : Prop := ∀ i s, w.objs i = some s → 0 ≤ s.fd → s.fd ∈ w.fds

/-- Everything is closed, and nothing was closed that was not open. -/
structure Closed (w : World) : Prop where
  fds : w.fds = []
  strayCloses : w.strayCloses = 0

/-- Nothing is opened over an open descriptor, a sender is closed before it goes, and a
receiver is left to its destructor. -/
def Careful (w : World) : Op → Prop
  | .openSocket i _ => ∀ s, w.objs i = some s → s.fd < 0
  | .close i => ∀ s, w.objs i = some s → s.kind = .rx → s.fd < 0
  | .destroy i => ∀ s, w.objs i = some s → s.kind = .tx → s.fd < 0
  | _ => True

variable {w : World}

theorem held_eq_none {s : Sock} : s.held = none ↔ s.fd < 0 := by simp [Sock.held]

theorem valid_iff (w : World) : Valid w ↔ (view w).Kept := by
  constructor
  · intro h i fd hfd
    rcases Option.bind_eq_some_iff.mp hfd with ⟨s, hi, hs⟩
    by_cases hneg : s.fd < 0
    · rw [held_eq_none.mpr hneg] at hs
      cases hs
    · rw [Sock.held, if_neg hneg, Option.some.injEq] at hs
      rw [← hs]
      exact h i s hi (by omega)
  · intro h i s hi hpos
    exact h i s.fd ((held_eq hi).trans (if_neg (by omega)))

theorem legal_view {op : Op} (h : Legal w op) : (view w).Legal (input w op) := by
  cases op with
  | openSocket i r =>
      cases hi : w.objs i with
      | none => exact absurd hi h.1
      | some s =>
          cases hsocket : r.socket with
          | none =>
              simp only [input, hi, hsocket]
              trivial
          | some fd =>
              simp only [input, hi, hsocket]
              exact h.2 fd hsocket
  | close i =>
      cases hi : w.objs i with
      | none => exact absurd hi h
      | some s =>
          simp only [input, hi]
          cases s.kind <;> trivial
  | destroy i =>
      cases hi : w.objs i with
      | none => exact absurd hi h
      | some s =>
          simp only [input, hi]
          cases s.kind <;> trivial
  | _ => trivial

theorem careful_view_iff {op : Op} (hlegal : Legal w op) :
    (view w).Careful (input w op) ↔ Careful w op := by
  have hobj : ∀ {i : Nat} {s : Sock}, w.objs i = some s →
      ((view w).held i = none ↔ ∀ s', w.objs i = some s' → s'.fd < 0) := by
    intro i s hi
    rw [held_eq hi, held_eq_none]
    constructor
    · intro hneg s' hs'
      rw [hi, Option.some.injEq] at hs'
      exact hs' ▸ hneg
    · intro h
      exact h s hi
  cases op with
  | construct i kind opt =>
      have hnone : (view w).held i = none := by
        have hi : w.objs i = none := hlegal
        simp [view, hi]
      exact iff_of_true hnone trivial
  | setOpt i opt => exact Iff.rfl
  | openSocket i r =>
      cases hi : w.objs i with
      | none => exact absurd hi hlegal.1
      | some s =>
          have hiff := hobj hi
          cases hsocket : r.socket with
          | none =>
              simp only [input, hi, hsocket]
              exact hiff
          | some fd =>
              simp only [input, hi, hsocket]
              exact hiff
  | close i =>
      cases hi : w.objs i with
      | none => exact absurd hi hlegal
      | some s =>
          have hiff := hobj hi
          cases hkind : s.kind with
          | tx =>
              simp only [input, hi, hkind]
              refine iff_of_true trivial ?_
              intro s' hs' hrx
              rw [hi, Option.some.injEq] at hs'
              rw [← hs', hkind] at hrx
              cases hrx
          | rx =>
              simp only [input, hi, hkind]
              refine hiff.trans ?_
              constructor
              · exact fun h s' hs' _ => h s' hs'
              · intro h s' hs'
                have hsame : s' = s := Option.some.inj (hs'.symm.trans hi)
                exact h s' hs' (by rw [hsame, hkind])
  | destroy i =>
      cases hi : w.objs i with
      | none => exact absurd hi hlegal
      | some s =>
          have hiff := hobj hi
          cases hkind : s.kind with
          | rx =>
              simp only [input, hi, hkind]
              refine iff_of_true trivial ?_
              intro s' hs' htx
              rw [hi, Option.some.injEq] at hs'
              rw [← hs', hkind] at htx
              cases htx
          | tx =>
              simp only [input, hi, hkind]
              refine hiff.trans ?_
              constructor
              · exact fun h s' hs' _ => h s' hs'
              · intro h s' hs'
                have hsame : s' = s := Option.some.inj (hs'.symm.trans hi)
                exact h s' hs' (by rw [hsame, hkind])

theorem sound_init : (view World.init).Sound :=
  ⟨fun _ _ h => (nomatch h), fun _ _ _ h => (nomatch h), List.nodup_nil, rfl⟩

theorem complete_init : (view World.init).Complete := fun _ h => (nomatch h)

/-- In a run that ends with no objects, whatever the system answers on the way, every
descriptor an object names is open all the time and each is closed exactly once, if and
only if nothing is opened over an open descriptor, no receiver with a descriptor is
closed by hand, and no sender with one is destroyed. -/
theorem sockets_closed_iff (ops : List Op) (hlegal : Guarded step Legal World.init ops)
    (hend : ∀ i, (ops.foldl step World.init).objs i = none) :
    (Always step Valid World.init ops ∧ Closed (ops.foldl step World.init)) ↔
      Guarded step Careful World.init ops := by
  have hexact := Handles.released_view_iff view_step sound_init complete_init
    (hlegal.mono fun _ _ => legal_view) fun i => congrArg (Option.bind · Sock.held) (hend i)
  constructor
  · rintro ⟨hvalid, hclosed⟩
    have hcareful := hexact.mp
      ⟨hvalid.mono fun w => (valid_iff w).mp, hclosed.fds, hclosed.strayCloses⟩
    exact (guarded_and.mpr ⟨hlegal, hcareful⟩).mono fun w op h => (careful_view_iff h.1).mp h.2
  · intro hcareful
    have hview : Guarded step (fun w op => (view w).Careful (input w op)) World.init ops :=
      (guarded_and.mpr ⟨hlegal, hcareful⟩).mono fun w op h => (careful_view_iff h.1).mpr h.2
    rcases hexact.mpr hview with ⟨hkept, hlive, hstray⟩
    exact ⟨hkept.mono fun w => (valid_iff w).mpr, hlive, hstray⟩

def group : Opt where
  dst := AddrT.new.setIp (some [50, 51, 57, 46, 49, 46, 49, 46, 49])
  joinMulticast := true
  nonBlocking := true

def answers (fd : Nat) (connect : Bool) : Results where
  socket := some fd
  reuseAddr := true
  timeout := true
  multicastTtl := true
  multicastLoop := true
  connect := connect
  bind := true
  nonBlock := true
  addMembership := true

def exchange : List Op :=
  [.construct 0 .tx group, .construct 1 .rx group, .openSocket 0 (answers 3 false), .close 0,
    .openSocket 0 (answers 3 true), .openSocket 1 (answers 4 true), .close 0, .destroy 0, .destroy 1]

theorem sockets_closed_exchange :
    (Always step Valid World.init exchange ∧ Closed (exchange.foldl step World.init)) ↔
      Guarded step Careful World.init exchange :=
  sockets_closed_iff exchange (by decide +kernel) fun i =>
    match i with
    | 0 => rfl
    | 1 => rfl
    | _ + 2 => rfl

end NetTest.Net.Sockets
