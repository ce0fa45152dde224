import Mathlib.Data.List.Nodup
import NetTest.Core.EventLoop.Model
import NetTest.Lib.Counting
import NetTest.Lib.Runs

/-!
# The lifetime of a connection

A connection is created with one reference, and `remove_net` gives that one back
although nobody took it for the registration.  `terminate` goes on to use the
connection after its `remove_net`, so it relies on the reference of the
snapshot: that one has to be there, and to stay until the call is through.  A
connection that is registered a second time has no reference of its own at all.
-/

namespace NetTest.EventLoop

open Runs Counting

/-! ## The property -/

structure Safe (w : World) : Prop where
  no_fault : w.faulted = false
  ref_nonneg : ∀ c, 0 ≤ (w.conns c).ref

def LastIsUnused (w : World) (c : Nat) : Prop :=
  (w.conns c).ref = 1 → ∀ call ∈ w.calls, call.conn = c → call.pc = .done

/-- References are given back as `LastIsUnused` says, `add_net` is not called for
a connection that has been removed, and neither it nor `terminate` is called for
one that has been deleted. -/
def InTime (w : World) : Event → Prop
  | .addNet c => (w.conns c).freed = false ∧ (w.conns c).removed = false
  | .terminate c => (w.conns c).freed = false
  | .removeNet c _ => c ∈ w.registered → LastIsUnused w c
  | .run k _ => ∀ call ∈ w.calls[k]?, call.pc = .removing → call.conn ∈ w.registered →
      LastIsUnused w call.conn
  | .release _ => ∀ c ∈ w.serving.head?, LastIsUnused w c
  | .snapshot | .serve => True

instance (w : World) (c : Nat) : Decidable (LastIsUnused w c) :=
  inferInstanceAs (Decidable ((w.conns c).ref = 1 → ∀ call ∈ w.calls, call.conn = c →
    call.pc = .done))

instance : ∀ (w : World) (event : Event), Decidable (InTime w event)
  | w, .addNet c => inferInstanceAs (Decidable ((w.conns c).freed = false ∧
      (w.conns c).removed = false))
  | w, .terminate c => inferInstanceAs (Decidable ((w.conns c).freed = false))
  | w, .removeNet c _ => inferInstanceAs (Decidable (c ∈ w.registered → LastIsUnused w c))
  | w, .run k _ => inferInstanceAs (Decidable (∀ call ∈ w.calls[k]?, call.pc = .removing →
      call.conn ∈ w.registered → LastIsUnused w call.conn))
  | w, .release _ => inferInstanceAs (Decidable (∀ c ∈ w.serving.head?, LastIsUnused w c))
  | _, .snapshot => inferInstanceAs (Decidable True)
  | _, .serve => inferInstanceAs (Decidable True)

/-! ## The invariant -/

def World.owned (w : World) (c : Nat) : Int :=
  (if (w.conns c).removed then 0 else 1) + w.serving.count c

structure Counted (w : World) : Prop where
  no_fault : w.faulted = false
  ref : ∀ c, (w.conns c).ref = w.owned c
  freed : ∀ c, (w.conns c).freed = true ↔ (w.conns c).ref = 0
  nodup : w.registered.Nodup
  registered : ∀ c ∈ w.registered, (w.conns c).removed = false
  attached : ∀ c, (w.conns c).io.loop = true → c ∈ w.registered
  calls : ∀ call ∈ w.calls, call.pc ≠ .done → (w.conns call.conn).freed = false

theorem Counted.safe {w : World} (h : Counted w) : Safe w := by
  refine ⟨h.no_fault, ?_⟩
  intro c
  rw [h.ref c, World.owned]
  split <;> omega

theorem counted_init (disconnCb : Nat → Bool) : Counted (World.init disconnCb) := by
  refine ⟨rfl, fun c => rfl, ?_, List.nodup_nil, ?_, ?_, ?_⟩
  · intro c
    simp [World.init, Conn.new]
  · intro c hc
    cases hc
  · intro c hc
    cases hc
  · intro call hcall
    cases hcall

theorem touch_of_not_freed {w : World} {c : Nat} (hc : (w.conns c).freed = false) :
    w.touch c = w := by
  simp only [World.touch, hc, Bool.or_false]

theorem Counted.not_freed_of_registered {w : World} (h : Counted w) {c : Nat}
    (hc : c ∈ w.registered) : (w.conns c).freed = false := by
  rw [← Bool.not_eq_true, h.freed, h.ref, World.owned, h.registered c hc]
  simp only [Bool.false_eq_true, if_false]
  omega

theorem Counted.not_freed_of_serving {w : World} (h : Counted w) {c : Nat}
    (hc : c ∈ w.serving) : (w.conns c).freed = false := by
  have hpos : 0 < w.serving.count c := List.count_pos_iff.mpr hc
  rw [← Bool.not_eq_true, h.freed, h.ref, World.owned]
  split <;> omega

/-! ## The steps -/

theorem Counted.setIo {w : World} (h : Counted w) {c : Nat} (hc : (w.conns c).freed = false)
    {io : NetIo} (hloop : io.loop = true → c ∈ w.registered) : Counted (w.setIo c io) := by
  have hconn : ∀ d, ((w.setIo c io).conns d).ref = (w.conns d).ref ∧
      ((w.setIo c io).conns d).freed = (w.conns d).freed ∧
      ((w.setIo c io).conns d).removed = (w.conns d).removed := by
    intro d
    by_cases hd : d = c
    · subst hd
      simp [World.setIo, World.setConn]
    · simp [World.setIo, World.setConn, World.touch, Function.update_of_ne hd]
  refine ⟨?_, ?_, ?_, h.nodup, ?_, ?_, ?_⟩
  · simp [World.setIo, World.setConn, World.touch, h.no_fault, hc]
  · intro d
    rw [(hconn d).1, h.ref d, World.owned, World.owned, (hconn d).2.2]
    rfl
  · intro d
    rw [(hconn d).1, (hconn d).2.1]
    exact h.freed d
  · intro d hd
    rw [(hconn d).2.2]
    exact h.registered d hd
  · intro d hd
    by_cases heq : d = c
    · subst heq
      exact hloop (by simpa [World.setIo, World.setConn] using hd)
    · apply h.attached d
      simpa [World.setIo, World.setConn, World.touch, Function.update_of_ne heq] using hd
  · intro call hcall hpc
    rw [(hconn _).2.1]
    exact h.calls call hcall hpc

theorem Counted.setPc {w : World} (h : Counted w) {k : Nat} {call : Call} {pc : Pc}
    (hconn : pc ≠ .done → (w.conns call.conn).freed = false) : Counted (w.setPc k call pc) := by
  exact ⟨h.no_fault, h.ref, h.freed, h.nodup, h.registered, h.attached,
    forall_mem_set h.calls hconn k⟩

structure Released (w w' : World) (c : Nat) : Prop where
  serving : w'.serving = w.serving
  registered : w'.registered = w.registered
  calls : w'.calls = w.calls
  faulted : w'.faulted = w.faulted
  others : ∀ d, d ≠ c → w'.conns d = w.conns d
  ref : (w'.conns c).ref = (w.conns c).ref - 1
  freed : (w'.conns c).freed = true ↔ (w.conns c).ref = 1
  removed : (w'.conns c).removed = (w.conns c).removed
  attached : (w'.conns c).io.loop = true → (w.conns c).io.loop = true

/-- The destructor finds `_loop` cleared when the last reference goes. -/
theorem released_release {w : World} {c : Nat} (hfreed : (w.conns c).freed = false)
    (hdetached : (w.conns c).ref = 1 → (w.conns c).io.loop = false) (now : Nat) :
    Released w (w.release c now) c := by
  simp only [World.release, touch_of_not_freed hfreed]
  by_cases hlast : (w.conns c).ref = 1
  · have hzero : (w.conns c).ref - 1 = 0 := by omega
    have hloop := hdetached hlast
    rw [if_pos hzero]
    refine ⟨rfl, ?_, rfl, rfl, ?_, ?_, ?_, ?_, ?_⟩
    · simp [World.destroy, World.setConn, hloop]
    · intro d hd
      simp [World.destroy, World.setConn, Function.update_of_ne hd]
    · simp [World.destroy, World.setConn, hloop]
    · simp [World.destroy, hlast]
    · simp [World.destroy, World.setConn, hloop]
    · simp [World.destroy, World.setConn, NetIo.terminate_loop]
  · have hpos : ¬ (w.conns c).ref - 1 = 0 := by omega
    rw [if_neg hpos]
    refine ⟨rfl, rfl, rfl, rfl, ?_, ?_, ?_, ?_, ?_⟩
    · intro d hd
      simp [World.setConn, Function.update_of_ne hd]
    · simp [World.setConn]
    · simp [World.setConn, hfreed, hlast]
    · simp [World.setConn]
    · simp [World.setConn]

theorem Counted.of_release {w w' : World} (h : Counted w) {c : Nat} (hlast : LastIsUnused w c)
    (hcalls : w'.calls = w.calls) (hfaulted : w'.faulted = w.faulted)
    (hothers : ∀ d, d ≠ c → w'.conns d = w.conns d)
    (href : (w'.conns c).ref = (w.conns c).ref - 1)
    (hfreed : (w'.conns c).freed = true ↔ (w.conns c).ref = 1)
    (howned : ∀ d, w'.owned d = w.owned d - if d = c then 1 else 0)
    (hnodup : w'.registered.Nodup)
    (hregistered : ∀ d ∈ w'.registered, (w'.conns d).removed = false)
    (hattached : ∀ d, (w'.conns d).io.loop = true → d ∈ w'.registered) : Counted w' := by
  refine ⟨hfaulted.trans h.no_fault, ?_, ?_, hnodup, hregistered, hattached, ?_⟩
  · intro d
    rw [howned d]
    by_cases hd : d = c
    · rw [hd, href, h.ref c, if_pos rfl]
    · rw [hothers d hd, h.ref d, if_neg hd, Int.sub_zero]
  · intro d
    by_cases hd : d = c
    · rw [hd, hfreed, href]
      omega
    · rw [hothers d hd]
      exact h.freed d
  · intro call hcall hpc
    rw [hcalls] at hcall
    by_cases hd : call.conn = c
    · rw [hd, ← Bool.not_eq_true, hfreed]
      intro hone
      exact hpc (hlast hone call hcall hd)
    · rw [hothers _ hd]
      exact h.calls call hcall hpc

theorem Counted.removeNet {w : World} (h : Counted w) {c : Nat} (now : Nat)
    (hlast : c ∈ w.registered → LastIsUnused w c) : Counted (w.removeNet c now) := by
  unfold World.removeNet
  by_cases hc : c ∈ w.registered
  · have hfreed := h.not_freed_of_registered hc
    rw [if_pos hc, touch_of_not_freed hfreed]
    simp only
    generalize hw : w.setConn c
      { w.conns c with io := { (w.conns c).io with loop := false }, removed := true } = w₁
    have hsame : ∀ d, d ≠ c → w₁.conns d = w.conns d := by
      intro d hd
      rw [← hw]
      exact Function.update_of_ne hd _ _
    have hself : w₁.conns c =
        { w.conns c with io := { (w.conns c).io with loop := false }, removed := true } := by
      rw [← hw]
      exact Function.update_self _ _ _
    have hserving : w₁.serving = w.serving := by rw [← hw]; rfl
    have hregistered : w₁.registered = w.registered := by rw [← hw]; rfl
    have hcalls : w₁.calls = w.calls := by rw [← hw]; rfl
    have hfaulted : w₁.faulted = w.faulted := by rw [← hw]; rfl
    have hrel := released_release (w := w₁) (c := c) (by rw [hself]; exact hfreed)
      (fun _ => by rw [hself]) now
    refine h.of_release (hlast hc) (hrel.calls.trans hcalls) (hrel.faulted.trans hfaulted)
      ?_ ?_ ?_ ?_ ?_ ?_ ?_
    · intro d hd
      exact (hrel.others d hd).trans (hsame d hd)
    · exact hrel.ref.trans (by rw [hself])
    · exact hrel.freed.trans (by rw [hself])
    · intro d
      simp only [World.owned, hrel.serving, hserving]
      by_cases hd : d = c
      · rw [hd, hrel.removed, hself, h.registered c hc]
        simp only [if_true, Bool.false_eq_true, if_false]
        omega
      · rw [hrel.others d hd, hsame d hd, if_neg hd, Int.sub_zero]
    · rw [hrel.registered, hregistered]
      exact h.nodup.erase c
    · intro d hd
      rw [hrel.registered, hregistered] at hd
      rcases (List.Nodup.mem_erase_iff h.nodup).mp hd with ⟨hne, hmem⟩
      have hconn := (hrel.others d hne).trans (hsame d hne)
      exact (congrArg Conn.removed hconn).trans (h.registered d hmem)
    · intro d hd
      rw [hrel.registered, hregistered]
      by_cases hne : d = c
      · rw [hne] at hd
        have := hrel.attached hd
        rw [hself] at this
        cases this
      · rw [List.Nodup.mem_erase_iff h.nodup]
        have hconn := (hrel.others d hne).trans (hsame d hne)
        exact ⟨hne, h.attached d ((congrArg (fun c => c.io.loop) hconn).symm.trans hd)⟩
  · rw [if_neg hc]
    exact h

theorem Counted.giveBack {w : World} (h : Counted w) {c : Nat} {rest : List Nat} (now : Nat)
    (hserving : w.serving = c :: rest) (hlast : LastIsUnused w c) :
    Counted ({ w with serving := rest }.release c now) := by
  have hfreed : (w.conns c).freed = false :=
    h.not_freed_of_serving (by rw [hserving]; exact List.mem_cons_self)
  have hdetached : (w.conns c).ref = 1 → (w.conns c).io.loop = false := by
    intro hone
    by_contra hloop
    have hregistered := h.attached c (by simpa using hloop)
    have href := h.ref c
    rw [World.owned, h.registered c hregistered, hserving, List.count_cons_self] at href
    simp only [Bool.false_eq_true, if_false] at href
    omega
  have hrel := released_release (w := { w with serving := rest }) hfreed hdetached now
  have hremoved : ∀ d, (({ w with serving := rest }.release c now).conns d).removed =
      (w.conns d).removed := by
    intro d
    by_cases hd : d = c
    · rw [hd]
      exact hrel.removed
    · rw [hrel.others d hd]
  refine h.of_release hlast hrel.calls hrel.faulted hrel.others hrel.ref hrel.freed ?_ ?_ ?_ ?_
  · intro d
    simp only [World.owned, hrel.serving, hremoved, hserving, List.count_cons]
    by_cases hd : d = c
    · simp [hd]
      omega
    · simp [hd, Ne.symm hd]
  · rw [hrel.registered]
    exact h.nodup
  · intro d hd
    rw [hrel.registered] at hd
    rw [hremoved]
    exact h.registered d hd
  · intro d hd
    rw [hrel.registered]
    apply h.attached d
    by_cases hne : d = c
    · rw [hne] at hd ⊢
      exact hrel.attached hd
    · rw [hrel.others d hne] at hd
      exact hd

theorem release_calls (w : World) (c now : Nat) : (w.release c now).calls = w.calls := by
  simp only [World.release]
  split <;> rfl

theorem removeNet_calls (w : World) (c now : Nat) : (w.removeNet c now).calls = w.calls := by
  unfold World.removeNet
  split
  · exact release_calls _ c now
  · rfl

theorem Counted.addNet {w : World} (h : Counted w) {c : Nat} (hfreed : (w.conns c).freed = false)
    (hremoved : (w.conns c).removed = false) : Counted (w.addNet c) := by
  have hconn : ∀ d, ((w.addNet c).conns d).ref = (w.conns d).ref ∧
      ((w.addNet c).conns d).freed = (w.conns d).freed ∧
      ((w.addNet c).conns d).removed = (w.conns d).removed ∧
      (d ≠ c → (w.addNet c).conns d = w.conns d) := by
    intro d
    by_cases hd : d = c
    · subst hd
      simp [World.addNet, World.setIo, World.setConn]
    · simp [World.addNet, World.setIo, World.setConn, World.touch, Function.update_of_ne hd]
  have hmem : ∀ d, d ∈ (w.addNet c).registered ↔ d = c ∨ d ∈ w.registered := by
    intro d
    simp only [World.addNet]
    split
    · rename_i hc
      constructor
      · exact Or.inr
      · intro hd
        rcases hd with heq | hd
        · rw [heq]
          exact hc
        · exact hd
    · exact List.mem_cons
  constructor
  · simp [World.addNet, World.setIo, World.setConn, World.touch, h.no_fault, hfreed]
  · intro d
    rw [(hconn d).1, h.ref d, World.owned, World.owned, (hconn d).2.2.1]
    rfl
  · intro d
    rw [(hconn d).1, (hconn d).2.1]
    exact h.freed d
  · simp only [World.addNet]
    split
    · exact h.nodup
    · rename_i hc
      exact List.nodup_cons.mpr ⟨hc, h.nodup⟩
  · intro d hd
    rw [(hconn d).2.2.1]
    rcases (hmem d).mp hd with heq | hd
    · rw [heq]
      exact hremoved
    · exact h.registered d hd
  · intro d hd
    rw [hmem]
    by_cases hdc : d = c
    · exact Or.inl hdc
    · rw [(hconn d).2.2.2 hdc] at hd
      exact Or.inr (h.attached d hd)
  · intro call hcall hpc
    rw [(hconn _).2.1]
    exact h.calls call hcall hpc

theorem Counted.snapshot {w : World} (h : Counted w) : Counted w.snapshot := by
  unfold World.snapshot
  split
  · rename_i hserving
    refine ⟨?_, ?_, ?_, h.nodup, ?_, ?_, ?_⟩
    · have halive : (w.registered.any fun c => (w.conns c).freed) = false := by
        rw [List.any_eq_false]
        intro c hc
        simp [h.not_freed_of_registered hc]
      simp only [h.no_fault, halive, Bool.or_false]
    · intro d
      have href := h.ref d
      simp only [World.owned, hserving, List.count_nil] at href ⊢
      by_cases hd : d ∈ w.registered
      · rw [if_pos hd, List.count_eq_one_of_mem h.nodup hd]
        simp only
        omega
      · rw [if_neg hd, List.count_eq_zero_of_not_mem hd]
        exact href
    · intro d
      by_cases hd : d ∈ w.registered
      · have halive := h.not_freed_of_registered hd
        have href := h.ref d
        rw [World.owned, h.registered d hd] at href
        simp only [Bool.false_eq_true, if_false] at href
        simp only [if_pos hd, halive, Bool.false_eq_true, false_iff]
        omega
      · simp only [if_neg hd]
        exact h.freed d
    · intro d hd
      simp only [if_pos hd]
      exact h.registered d hd
    · intro d hd
      apply h.attached d
      by_cases hmem : d ∈ w.registered
      · simpa [hmem] using hd
      · simpa [hmem] using hd
    · intro call hcall hpc
      have halive := h.calls call hcall hpc
      simp only
      split
      · exact halive
      · exact halive
  · exact h

theorem Counted.runCall {w : World} (h : Counted w) {k : Nat} {call : Call} (now : Nat)
    (hk : w.calls[k]? = some call)
    (hlast : call.pc = .removing → call.conn ∈ w.registered → LastIsUnused w call.conn) :
    Counted (w.runCall k call now) := by
  have hmem : call ∈ w.calls := List.mem_of_getElem? hk
  unfold World.runCall
  by_cases hdone : call.pc = .done
  · rw [hdone]
    exact h
  · have halive := h.calls call hmem hdone
    have hset : ∀ (io : NetIo) (pc : Pc), (io.loop = true → call.conn ∈ w.registered) →
        Counted ((w.setIo call.conn io).setPc k call pc) := by
      intro io pc hloop
      refine (h.setIo halive hloop).setPc fun _ => ?_
      simpa [World.setIo, World.setConn] using halive
    simp only [touch_of_not_freed halive]
    cases hpc : call.pc with
    | begun => exact h.setPc fun _ => halive
    | removing =>
        have hremoved := h.removeNet now (hlast hpc)
        refine hremoved.setPc fun _ => hremoved.calls call ?_ hdone
        rw [removeNet_calls]
        exact hmem
    | detaching => exact hset _ _ (fun hloop => by cases hloop)
    | notifying =>
        simp only
        split
        · exact hset _ _ (fun hloop => h.attached _ hloop)
        · exact h.setPc fun _ => halive
    | notified => exact hset _ _ (fun hloop => h.attached _ hloop)
    | closing =>
        refine hset _ _ (fun hloop => h.attached _ ?_)
        simp only [NetIo.close] at hloop
        split at hloop
        · split at hloop <;> exact hloop
        · exact hloop
    | done => exact absurd hpc hdone

/-! ## Runs -/

theorem Counted.step {w : World} (h : Counted w) {event : Event} (hok : InTime w event) :
    Counted (EventLoop.step w event) := by
  cases event with
  | addNet c => exact h.addNet hok.1 hok.2
  | removeNet c now => exact h.removeNet now hok
  | terminate c =>
      have hnew : ∀ call ∈ w.calls ++ [⟨c, .begun⟩], call.pc ≠ .done →
          (w.conns call.conn).freed = false :=
        List.forall_mem_append.mpr ⟨h.calls, List.forall_mem_singleton.mpr fun _ => hok⟩
      exact ⟨h.no_fault, h.ref, h.freed, h.nodup, h.registered, h.attached, hnew⟩
  | run k now =>
      cases hk : w.calls[k]? with
      | none =>
          simp only [EventLoop.step, hk]
          exact h
      | some call =>
          simp only [EventLoop.step, hk]
          exact h.runCall now hk (hok call hk)
  | snapshot => exact h.snapshot
  | serve =>
      simp only [EventLoop.step]
      split
      · exact h
      · rename_i c rest hserving
        rw [touch_of_not_freed (h.not_freed_of_serving (by rw [hserving]; exact List.mem_cons_self))]
        exact h
  | release now =>
      simp only [EventLoop.step]
      split
      · exact h
      · rename_i c rest hserving
        exact h.giveBack now hserving (hok c (by rw [hserving]; rfl))

/-- Along every run in which last references are given back in time, no field of
a deleted connection is used and no count goes below zero. -/
theorem connections_safe (disconnCb : Nat → Bool) (events : List Event)
    (hintime : Guarded step InTime (World.init disconnCb) events) :
    Always step Safe (World.init disconnCb) events := by
  have hinv : Always step Counted (World.init disconnCb) events :=
    always_of_guarded (fun _ _ h hok => h.step hok) (counted_init disconnCb) hintime
  exact hinv.mono fun _ h => h.safe

/-- `terminate` from inside `OnRead`: the snapshot holds the connection until the
call is through. -/
theorem connections_safe_onRead :
    Always step Safe (World.init fun _ => true)
      [.addNet 0, .snapshot, .serve, .terminate 0, .run 0 5, .run 0 5, .run 0 5, .run 0 5, .run 0 5,
        .run 0 5, .serve, .release 5, .snapshot] :=
  connections_safe _ _ (by decide +kernel)

/-- `terminate` by another thread between two iterations: `remove_net` gives back
the only reference, and `_loop = NULL` is a write to a deleted connection. -/
theorem terminate_uses_deleted :
    ¬ ∀ disconnCb events, Always step Safe (World.init disconnCb) events := by
  intro hall
  have hrun := hall (fun _ => true) [.addNet 0, .terminate 0, .run 0 5, .run 0 5, .run 0 5]
  have hlast := always_iff_prefixes.mp hrun _ (List.prefix_refl _)
  exact absurd hlast.no_fault (by decide +kernel)

end NetTest.EventLoop
