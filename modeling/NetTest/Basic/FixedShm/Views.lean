import Mathlib.Data.List.Basic
import NetTest.Lib.Handles
import NetTest.Basic.FixedShm.Model

/-!
# Descriptors and mappings as handles

An object holds a descriptor in `fd_` and a mapping in `data_`.  Seen through the
one field or the other, a run of objects is a run of handles, and each call is
one step of it.
-/

namespace NetTest.FixedShm

/-! ## The two views -/

def Shm.heldFd (s : Shm) : Option Int := if s.fd = -1 then none else some s.fd

def Shm.heldMap (s : Shm) : Option (Ptr × Nat) :=
  if s.data = .null then none else some (s.data, s.size)

def mapping (m : Nat × Nat) : Ptr × Nat := (.mem m.1, m.2)

def fdView (w : World) : Handles Nat Int where
  held := fun i => (w.objs i).bind Shm.heldFd
  live := w.os.fds
  stray := w.os.strayCloses

def mapView (w : World) : Handles Nat (Ptr × Nat) where
  held := fun i => (w.objs i).bind Shm.heldMap
  live := w.os.maps.map mapping
  stray := w.os.strayUnmaps

def fdInput (w : World) : Op → Handles.Op Nat Int
  | .construct i _ => .forget i
  | .openFile i res =>
      match w.objs i with
      | none => .idle
      | some s =>
          if s.fd ≠ -1 ∨ res = -1 then .idle
          else if res < 0 then .forge i res
          else .acquire i res
  | .close i => .releaseKeep i
  | .moveConstruct i j => if w.objs j = none then .idle else .move i j
  | .moveAssign i j => if i = j ∨ w.objs j = none then .idle else .move i j
  | .destroy i => if w.objs i = none then .idle else .release i
  | _ => .idle

def mapInput (w : World) : Op → Handles.Op Nat (Ptr × Nat)
  | .construct i _ => .forget i
  | .map i res =>
      match w.objs i, res with
      | none, _ => .idle
      | some s, none => .forge i (.failed, s.size)
      | some s, some addr => .acquire i (.mem addr, s.size)
  | .unmap i | .close i =>
      match w.objs i with
      | none => .idle
      | some s => if s.data = .failed then .idle else .release i
  | .moveConstruct i j => if w.objs j = none then .idle else .move i j
  | .moveAssign i j => if i = j ∨ w.objs j = none then .idle else .move i j
  | .destroy i =>
      match w.objs i with
      | none => .idle
      | some s => if s.data = .failed then .forget i else .release i
  | _ => .idle

theorem bind_update {α : Type} (objs : Nat → Option Shm) (i : Nat) (o : Option Shm)
    (f : Shm → Option α) :
    (fun k => (Function.update objs i o k).bind f) =
      Function.update (fun k => (objs k).bind f) i (o.bind f) := by
  funext k
  by_cases hk : k = i
  · rw [hk, Function.update_self, Function.update_self]
  · rw [Function.update_of_ne hk, Function.update_of_ne hk]

theorem mapping_injective : Function.Injective mapping := by
  intro m m' h
  cases m
  cases m'
  simp only [mapping, Prod.mk.injEq, Ptr.mem.injEq] at h
  exact Prod.ext h.1 h.2

/-! ## System calls through the views -/

theorem dropMap_fds (os : Os) (m : Nat × Nat) :
    (os.dropMap m).fds = os.fds ∧ (os.dropMap m).strayCloses = os.strayCloses := by
  unfold Os.dropMap
  split <;> exact ⟨rfl, rfl⟩

theorem close_maps (os : Os) (fd : Int) :
    (os.close fd).maps = os.maps ∧ (os.close fd).strayUnmaps = os.strayUnmaps := by
  unfold Os.close
  split <;> exact ⟨rfl, rfl⟩

theorem unmap_null {s : Shm} (hdata : s.data = .null) (os : Os) : s.unmap os = (s, os) := by
  cases s
  simp only at hdata
  simp [Shm.unmap, hdata]

theorem unmap_failed {s : Shm} (hdata : s.data = .failed) (os : Os) : s.unmap os = (s, os) := by
  simp [Shm.unmap, Os.munmap, hdata]

theorem unmap_mem {s : Shm} {addr : Nat} (hdata : s.data = .mem addr) (os : Os) :
    s.unmap os = ({ s with data := .null }, os.dropMap (addr, s.size)) := by
  simp [Shm.unmap, Os.munmap, hdata]

theorem openFile_map (s : Shm) (os : Os) (res : Int) :
    (s.openFile os res).1.heldMap = s.heldMap ∧ (s.openFile os res).2.maps = os.maps ∧
      (s.openFile os res).2.strayUnmaps = os.strayUnmaps := by
  unfold Shm.openFile
  split
  · exact ⟨rfl, rfl, rfl⟩
  · split <;> exact ⟨rfl, rfl, rfl⟩

theorem unmap_fd (s : Shm) (os : Os) :
    (s.unmap os).1.fd = s.fd ∧ (s.unmap os).2.fds = os.fds ∧
      (s.unmap os).2.strayCloses = os.strayCloses := by
  cases hdata : s.data with
  | null => rw [unmap_null hdata]; exact ⟨rfl, rfl, rfl⟩
  | failed => rw [unmap_failed hdata]; exact ⟨rfl, rfl, rfl⟩
  | mem addr => rw [unmap_mem hdata]; exact ⟨rfl, dropMap_fds os _⟩

theorem close_congr {os os' : Os} (hfds : os'.fds = os.fds)
    (hstray : os'.strayCloses = os.strayCloses) (fd : Int) :
    (os'.close fd).fds = (os.close fd).fds ∧
      (os'.close fd).strayCloses = (os.close fd).strayCloses := by
  unfold Os.close
  rw [hfds]
  split
  · exact ⟨rfl, hstray⟩
  · exact ⟨rfl, congrArg (· + 1) hstray⟩

/-- `close` is `unmap` as far as the object and the mappings go. -/
theorem close_unmap (s : Shm) (os : Os) :
    (s.close os).1 = (s.unmap os).1 ∧ (s.close os).2.maps = (s.unmap os).2.maps ∧
      (s.close os).2.strayUnmaps = (s.unmap os).2.strayUnmaps := by
  unfold Shm.close
  dsimp only
  split
  · exact ⟨rfl, close_maps _ _⟩
  · exact ⟨rfl, rfl, rfl⟩

/-! ## Steps through the views -/

variable {w : World}

theorem on_none {i : Nat} (hi : w.objs i = none) (f : Shm → Os → Shm × Os) : w.on i f = w := by
  rw [World.on, hi]

theorem on_some {i : Nat} {s : Shm} (hi : w.objs i = some s) (f : Shm → Os → Shm × Os) :
    w.on i f = { objs := Function.update w.objs i (some (f s w.os).1), os := (f s w.os).2 } := by
  rw [World.on, hi]

theorem update_held {α : Type} {i : Nat} {s : Shm} (hi : w.objs i = some s) (f : Shm → Option α) :
    Function.update (fun k => (w.objs k).bind f) i (f s) = fun k => (w.objs k).bind f := by
  apply Function.update_eq_self_iff.mpr
  rw [hi]
  rfl

theorem fdView_on {i : Nat} {s : Shm} (hi : w.objs i = some s) (f : Shm → Os → Shm × Os) :
    fdView (w.on i f) =
      { held := Function.update (fdView w).held i (f s w.os).1.heldFd
        live := (f s w.os).2.fds
        stray := (f s w.os).2.strayCloses } := by
  rw [on_some hi, fdView, bind_update]
  rfl

theorem mapView_on {i : Nat} {s : Shm} (hi : w.objs i = some s) (f : Shm → Os → Shm × Os) :
    mapView (w.on i f) =
      { held := Function.update (mapView w).held i (f s w.os).1.heldMap
        live := (f s w.os).2.maps.map mapping
        stray := (f s w.os).2.strayUnmaps } := by
  rw [on_some hi, mapView, bind_update]
  rfl

theorem fdView_on_same {i : Nat} {s : Shm} (hi : w.objs i = some s) {f : Shm → Os → Shm × Os}
    (hheld : (f s w.os).1.heldFd = s.heldFd) (hfds : (f s w.os).2.fds = w.os.fds)
    (hstray : (f s w.os).2.strayCloses = w.os.strayCloses) : fdView (w.on i f) = fdView w := by
  have hsame : Function.update (fdView w).held i s.heldFd = (fdView w).held :=
    update_held hi Shm.heldFd
  rw [fdView_on hi, hheld, hfds, hstray, hsame]
  rfl

theorem mapView_on_same {i : Nat} {s : Shm} (hi : w.objs i = some s) {f : Shm → Os → Shm × Os}
    (hheld : (f s w.os).1.heldMap = s.heldMap) (hmaps : (f s w.os).2.maps = w.os.maps)
    (hstray : (f s w.os).2.strayUnmaps = w.os.strayUnmaps) :
    mapView (w.on i f) = mapView w := by
  have hsame : Function.update (mapView w).held i s.heldMap = (mapView w).held :=
    update_held hi Shm.heldMap
  rw [mapView_on hi, hheld, hmaps, hstray, hsame]
  rfl

theorem held_fd {i : Nat} {s : Shm} (hi : w.objs i = some s) : (fdView w).held i = s.heldFd :=
  congrArg (Option.bind · Shm.heldFd) hi

theorem held_map {i : Nat} {s : Shm} (hi : w.objs i = some s) : (mapView w).held i = s.heldMap :=
  congrArg (Option.bind · Shm.heldMap) hi

theorem fdView_move (w : World) {i j : Nat} {s : Shm} (hj : w.objs j = some s) :
    fdView (w.move i j s) = (fdView w).step (.move i j) := by
  have hheld := held_fd hj
  rw [Handles.step, hheld, fdView, World.move, bind_update, bind_update]
  rfl

theorem mapView_move (w : World) {i j : Nat} {s : Shm} (hj : w.objs j = some s) :
    mapView (w.move i j s) = (mapView w).step (.move i j) := by
  have hheld := held_map hj
  rw [Handles.step, hheld, mapView, World.move, bind_update, bind_update]
  rfl

theorem close_discard (w : World) (s : Shm) :
    (fdView w).discard s.heldFd =
      { fdView w with live := (s.close w.os).2.fds, stray := (s.close w.os).2.strayCloses } := by
  rcases unmap_fd s w.os with ⟨hfd, hfds, hstray⟩
  unfold Shm.close
  dsimp only
  rw [hfd]
  by_cases hnone : s.fd = -1
  · have hheld : s.heldFd = none := if_pos hnone
    rw [hheld, if_neg (not_not.mpr hnone), hfds, hstray]
    rfl
  · have hheld : s.heldFd = some s.fd := if_neg hnone
    rcases close_congr hfds hstray s.fd with ⟨hclosed, hcounted⟩
    rw [hheld, if_pos hnone, hclosed, hcounted]
    unfold Handles.discard Os.close fdView
    dsimp only
    split <;> rfl

theorem close_held (s : Shm) (os : Os) : (s.close os).1.heldFd = s.heldFd := by
  rw [(close_unmap s os).1, Shm.heldFd, (unmap_fd s os).1, Shm.heldFd]

theorem fdView_step (w : World) (op : Op) :
    fdView (step w op) = (fdView w).step (fdInput w op) := by
  cases op with
  | construct i size =>
      rw [step, fdInput, Handles.step, fdView, bind_update]
      rfl
  | openFile i res =>
      cases hi : w.objs i with
      | none => simp only [step, on_none hi, fdInput, hi, Handles.step]
      | some s =>
          simp only [step, fdInput, hi]
          by_cases hopen : s.fd ≠ -1
          · have hsame : s.openFile w.os res = (s, w.os) := if_pos hopen
            rw [if_pos (.inl hopen), Handles.step]
            apply fdView_on_same hi <;> rw [hsame]
          · have hfd : s.fd = -1 := not_not.mp hopen
            by_cases hres : res = -1
            · have hsame : s.openFile w.os res = ({ s with fd := res }, w.os) := by
                rw [Shm.openFile, if_neg hopen, if_pos (by omega)]
              rw [if_pos (Or.inr hres), Handles.step]
              apply fdView_on_same hi <;> rw [hsame]
              rw [hres, ← hfd]
            · have hheld : ({ s with fd := res } : Shm).heldFd = some res := if_neg hres
              rw [fdView_on hi, Shm.openFile, if_neg hopen, if_neg (not_or.mpr ⟨hopen, hres⟩)]
              split <;> (rw [Handles.step, ← hheld]; rfl)
  | map i res =>
      cases hi : w.objs i with
      | none => simp only [step, on_none hi, fdInput, Handles.step]
      | some s =>
          simp only [step, fdInput, Handles.step]
          cases res with
          | none => exact fdView_on_same hi rfl rfl rfl
          | some addr => exact fdView_on_same hi rfl rfl rfl
  | unmap i =>
      cases hi : w.objs i with
      | none => simp only [step, on_none hi, fdInput, Handles.step]
      | some s =>
          rcases unmap_fd s w.os with ⟨hfd, hfds, hstray⟩
          have hheld : (s.unmap w.os).1.heldFd = s.heldFd := by rw [Shm.heldFd, hfd, Shm.heldFd]
          exact fdView_on_same hi hheld hfds hstray
  | close i =>
      cases hi : w.objs i with
      | none =>
          have hheld : (fdView w).held i = none := congrArg (Option.bind · Shm.heldFd) hi
          simp only [step, on_none hi, fdInput, Handles.step, hheld, Handles.discard]
      | some s =>
          simp only [step, fdView_on hi, fdInput, Handles.step, held_fd hi, close_discard, close_held]
          exact congrArg (Handles.mk · _ _) (update_held hi Shm.heldFd)
  | writeto i offset size => rfl
  | readfrom i offset size => rfl
  | moveConstruct i j =>
      cases hj : w.objs j with
      | none => simp only [step, hj, fdInput, if_true, Handles.step]
      | some s => simp only [step, hj, fdInput, reduceCtorEq, if_false, fdView_move w hj]
  | moveAssign i j =>
      by_cases hij : i = j
      · simp only [step, fdInput, hij, if_true, true_or, Handles.step]
      · cases hj : w.objs j with
        | none => simp only [step, hj, fdInput, hij, if_false, if_true, or_true, Handles.step]
        | some s =>
            simp only [step, hj, fdInput, hij, reduceCtorEq, or_self, if_false, fdView_move w hj]
  | destroy i =>
      cases hi : w.objs i with
      | none => simp only [step, hi, fdInput, if_true, Handles.step]
      | some s =>
          simp only [step, hi, fdInput, reduceCtorEq, if_false, Handles.step, held_fd hi,
            close_discard]
          rw [fdView, bind_update]
          rfl

theorem unmap_discard (w : World) {s : Shm} (hdata : s.data ≠ .failed) :
    (s.unmap w.os).1.heldMap = none ∧
      (mapView w).discard s.heldMap =
        { mapView w with
          live := (s.unmap w.os).2.maps.map mapping
          stray := (s.unmap w.os).2.strayUnmaps } := by
  cases hs : s.data with
  | failed => exact absurd hs hdata
  | null =>
      have hheld : s.heldMap = none := if_pos hs
      rw [unmap_null hs, hheld]
      exact ⟨rfl, rfl⟩
  | mem addr =>
      have hheld : s.heldMap = some (mapping (addr, s.size)) := by
        rw [Shm.heldMap, hs, if_neg (by simp)]
        rfl
      rw [unmap_mem hs, hheld]
      refine ⟨rfl, ?_⟩
      unfold Handles.discard Os.dropMap mapView
      dsimp only
      by_cases hmem : (addr, s.size) ∈ w.os.maps
      · have herase : (w.os.maps.erase (addr, s.size)).map mapping =
            @List.erase _ instBEqOfDecidableEq (w.os.maps.map mapping) (mapping (addr, s.size)) :=
          @List.map_erase _ _ _ _ instBEqOfDecidableEq _ _ mapping_injective _ _
        rw [if_pos hmem, if_pos (List.mem_map_of_mem hmem), herase]
      · rw [if_neg hmem, if_neg (mt (List.mem_map_of_injective mapping_injective).mp hmem)]

theorem mapView_unmap (w : World) (i : Nat) :
    mapView (w.on i Shm.unmap) = (mapView w).step (mapInput w (.unmap i)) := by
  cases hi : w.objs i with
  | none => simp only [on_none hi, mapInput, hi, Handles.step]
  | some s =>
      by_cases hdata : s.data = .failed
      · have hsame := unmap_failed hdata w.os
        simp only [mapInput, hi, hdata, if_true, Handles.step]
        apply mapView_on_same hi <;> rw [hsame]
      · rcases unmap_discard w hdata with ⟨hheld, hdiscard⟩
        simp only [mapView_on hi, mapInput, hi, hdata, if_false, Handles.step, held_map hi, hheld,
          hdiscard]

theorem mapView_close (w : World) (i : Nat) :
    mapView (w.on i Shm.close) = mapView (w.on i Shm.unmap) := by
  cases hi : w.objs i with
  | none => rw [on_none hi, on_none hi]
  | some s =>
      rcases close_unmap s w.os with ⟨hobj, hmaps, hstray⟩
      rw [mapView_on hi, mapView_on hi, hobj, hmaps, hstray]

theorem mapView_step (w : World) (op : Op) :
    mapView (step w op) = (mapView w).step (mapInput w op) := by
  cases op with
  | construct i size =>
      rw [step, mapInput, Handles.step, mapView, bind_update]
      rfl
  | openFile i res =>
      cases hi : w.objs i with
      | none => simp only [step, on_none hi, mapInput, Handles.step]
      | some s =>
          rcases openFile_map s w.os res with ⟨hheld, hmaps, hstray⟩
          exact mapView_on_same hi hheld hmaps hstray
  | map i res =>
      cases hi : w.objs i with
      | none => simp only [step, on_none hi, mapInput, hi, Handles.step]
      | some s =>
          simp only [step, mapView_on hi, mapInput, hi]
          cases res with
          | none => rfl
          | some addr => rfl
  | unmap i => exact mapView_unmap w i
  | close i => exact (mapView_close w i).trans (mapView_unmap w i)
  | writeto i offset size => rfl
  | readfrom i offset size => rfl
  | moveConstruct i j =>
      cases hj : w.objs j with
      | none => simp only [step, hj, mapInput, if_true, Handles.step]
      | some s => simp only [step, hj, mapInput, reduceCtorEq, if_false, mapView_move w hj]
  | moveAssign i j =>
      by_cases hij : i = j
      · simp only [step, mapInput, hij, if_true, true_or, Handles.step]
      · cases hj : w.objs j with
        | none => simp only [step, hj, mapInput, hij, if_false, if_true, or_true, Handles.step]
        | some s =>
            simp only [step, hj, mapInput, hij, reduceCtorEq, or_self, if_false, mapView_move w hj]
  | destroy i =>
      cases hi : w.objs i with
      | none => simp only [step, hi, mapInput, Handles.step]
      | some s =>
          rcases close_unmap s w.os with ⟨_, hmaps, hstray⟩
          by_cases hdata : s.data = .failed
          · simp only [step, hi, mapInput, hdata, if_true, Handles.step, Shm.destroy]
            rw [mapView, bind_update, hmaps, hstray, unmap_failed hdata]
            rfl
          · rcases unmap_discard w hdata with ⟨_, hdiscard⟩
            simp only [step, hi, mapInput, hdata, if_false, Handles.step, held_map hi, hdiscard,
              Shm.destroy]
            rw [mapView, bind_update, hmaps, hstray]
            rfl

end NetTest.FixedShm
