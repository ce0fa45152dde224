import NetTest.Basic.FixedShm.Views

/-!
# The life cycle of shared memory files

Whether the fields tell the truth and everything is given back once is a matter
of the handles, and which calls break it is read off the rules for those.
-/

namespace NetTest.FixedShm

open Runs

/-! ## What a run should keep -/

def Mapped (os : Os) (s : Shm) : Prop := ∃ addr, s.data = .mem addr ∧ (addr, s.size) ∈ os.maps

/-- The fields are right, and without a mapping nothing is read or written. -/
structure Valid (os : Os) (s : Shm) : Prop where
  data : s.data ≠ .null → Mapped os s
  fd : s.fd ≠ -1 → s.fd ∈ os.fds
  refuse : ¬ Mapped os s → ∀ offset size,
    s.writeto offset size = -1 ∧ s.readfrom offset size = -1

def Consistent (w : World) : Prop := ∀ i s, w.objs i = some s → Valid w.os s

/-- Every descriptor and every mapping has been given back, and none twice. -/
structure Released (os : Os) : Prop where
  fds : os.fds = []
  maps : os.maps = []
  closes : os.strayCloses = 0
  unmaps : os.strayUnmaps = 0

/-- `close` is called without a descriptor only, `map` without a mapping and with
success, and the target of a move assignment holds nothing. -/
def Careful (w : World) : Op → Prop
  | .map i res => res ≠ none ∧ ∀ s, w.objs i = some s → s.data = .null
  | .close i => ∀ s, w.objs i = some s → s.fd = -1
  | .moveAssign i j => i = j ∨ ∀ s, w.objs i = some s → s.fd = -1 ∧ s.data = .null
  | _ => True

/-! ## Conditions through the views -/

variable {w : World}

theorem heldFd_eq_none {s : Shm} : s.heldFd = none ↔ s.fd = -1 := by simp [Shm.heldFd]

theorem heldMap_eq_none {s : Shm} : s.heldMap = none ↔ s.data = .null := by simp [Shm.heldMap]

/-- The handles are valid exactly where the fields are right. -/
theorem consistent_iff (w : World) :
    Consistent w ↔ (fdView w).Kept ∧ (mapView w).Kept := by
  have hmapped : ∀ s : Shm, Mapped w.os s ↔
      ∃ r, s.heldMap = some r ∧ r ∈ (mapView w).live := by
    intro s
    unfold Mapped Shm.heldMap mapView mapping
    cases s.data <;> simp
  constructor
  · intro h
    constructor
    · intro i r hr
      rcases Option.bind_eq_some_iff.mp hr with ⟨s, hi, hs⟩
      have hfd : s.fd ≠ -1 := by
        intro hnone
        rw [heldFd_eq_none.mpr hnone] at hs
        cases hs
      rw [Shm.heldFd, if_neg hfd, Option.some.injEq] at hs
      rw [← hs]
      exact (h i s hi).fd hfd
    · intro i r hr
      rcases Option.bind_eq_some_iff.mp hr with ⟨s, hi, hs⟩
      have hdata : s.data ≠ .null := by
        intro hnull
        rw [heldMap_eq_none.mpr hnull] at hs
        cases hs
      rcases (hmapped s).mp ((h i s hi).data hdata) with ⟨r', hr', hlive⟩
      rw [hs, Option.some.injEq] at hr'
      rw [hr']
      exact hlive
  · rintro ⟨hfds, hmaps⟩ i s hi
    have hdata : s.data ≠ .null → Mapped w.os s := by
      intro hdata
      have hheld : s.heldMap = some (s.data, s.size) := if_neg hdata
      exact (hmapped s).mpr ⟨_, hheld, hmaps i _ ((held_map hi).trans hheld)⟩
    constructor
    · exact hdata
    · intro hfd
      exact hfds i s.fd ((held_fd hi).trans (if_neg hfd))
    · intro hnone offset size
      have hnull : s.data = .null := by
        by_contra hne
        exact hnone (hdata hne)
      simp [Shm.writeto, Shm.readfrom, hnull]

theorem exists_obj {i : Nat} (h : w.objs i ≠ none) : ∃ s, w.objs i = some s :=
  Option.ne_none_iff_exists'.mp h

theorem legal_fd {op : Op} (h : Legal w op) : (fdView w).Legal (fdInput w op) := by
  cases op with
  | openFile i res =>
      rcases exists_obj h.1 with ⟨s, hi⟩
      simp only [fdInput, hi]
      split
      · trivial
      · rename_i hres
        rcases h.2 with hfail | ⟨hpos, hfresh⟩
        · exact absurd (Or.inr hfail) hres
        · rw [if_neg (by omega)]
          exact hfresh
  | moveConstruct i j =>
      simp only [fdInput, if_neg h.2]
      intro hij
      exact h.2 (hij ▸ h.1)
  | moveAssign i j =>
      by_cases hij : i = j
      · simp only [fdInput, if_pos (Or.inl hij)]
        trivial
      · simp only [fdInput, if_neg (not_or.mpr ⟨hij, h.2⟩)]
        exact hij
  | destroy i =>
      simp only [fdInput]
      split <;> trivial
  | _ => trivial

theorem legal_map {op : Op} (h : Legal w op) : (mapView w).Legal (mapInput w op) := by
  cases op with
  | map i res =>
      rcases exists_obj h.1 with ⟨s, hi⟩
      cases res with
      | none =>
          simp only [mapInput, hi]
          show (Ptr.failed, s.size) ∉ w.os.maps.map mapping
          simp [mapping]
      | some addr =>
          simp only [mapInput, hi]
          intro hmem
          rcases List.mem_map.mp hmem with ⟨m, hm, heq⟩
          exact h.2 addr rfl m hm (Ptr.mem.inj (Prod.mk.inj heq).1)
  | moveConstruct i j =>
      simp only [mapInput, if_neg h.2]
      intro hij
      exact h.2 (hij ▸ h.1)
  | moveAssign i j =>
      by_cases hij : i = j
      · simp only [mapInput, if_pos (Or.inl hij)]
        trivial
      · simp only [mapInput, if_neg (not_or.mpr ⟨hij, h.2⟩)]
        exact hij
  | unmap i =>
      rcases exists_obj h with ⟨s, hi⟩
      simp only [mapInput, hi]
      split <;> trivial
  | close i =>
      rcases exists_obj h with ⟨s, hi⟩
      simp only [mapInput, hi]
      split <;> trivial
  | destroy i =>
      rcases exists_obj h with ⟨s, hi⟩
      simp only [mapInput, hi]
      split <;> trivial
  | _ => trivial

theorem careful_of_views {op : Op} (hlegal : Legal w op)
    (hfd : (fdView w).Careful (fdInput w op)) (hmap : (mapView w).Careful (mapInput w op)) :
    Careful w op := by
  cases op with
  | map i res =>
      rcases exists_obj hlegal.1 with ⟨s, hi⟩
      cases res with
      | none =>
          simp only [mapInput, hi] at hmap
          exact hmap.elim
      | some addr =>
          simp only [mapInput, hi] at hmap
          have hheld : s.heldMap = none := (held_map hi).symm.trans hmap
          refine ⟨by simp, ?_⟩
          intro s' hs'
          rw [hi, Option.some.injEq] at hs'
          rw [← hs']
          exact heldMap_eq_none.mp hheld
  | close i =>
      intro s hi
      have hheld : s.heldFd = none := (held_fd hi).symm.trans hfd
      exact heldFd_eq_none.mp hheld
  | moveAssign i j =>
      by_cases hij : i = j
      · exact .inl hij
      · refine .inr fun s hi => ?_
        have hcond : ¬ (i = j ∨ w.objs j = none) := not_or.mpr ⟨hij, hlegal.2⟩
        simp only [fdInput, if_neg hcond] at hfd
        simp only [mapInput, if_neg hcond] at hmap
        have hheldFd : s.heldFd = none := (held_fd hi).symm.trans hfd
        have hheldMap : s.heldMap = none := (held_map hi).symm.trans hmap
        exact ⟨heldFd_eq_none.mp hheldFd, heldMap_eq_none.mp hheldMap⟩
  | _ => trivial

theorem data_ne_failed (hkept : (mapView w).Kept) {i : Nat} {s : Shm} (hi : w.objs i = some s) :
    s.data ≠ .failed := by
  intro hfailed
  have hheld : s.heldMap = some (.failed, s.size) := by
    rw [Shm.heldMap, hfailed, if_neg (by simp)]
  have hmem := hkept i _ ((held_map hi).trans hheld)
  simp [mapView, mapping] at hmem

theorem fd_of_careful {op : Op} (hlegal : Legal w op) (hcareful : Careful w op) :
    (fdView w).Careful (fdInput w op) := by
  cases op with
  | construct i size => exact congrArg (Option.bind · Shm.heldFd) hlegal
  | openFile i res =>
      rcases exists_obj hlegal.1 with ⟨s, hi⟩
      simp only [fdInput, hi]
      split
      · trivial
      · rename_i hcond
        have hfd : s.fd = -1 := not_not.mp (not_or.mp hcond).1
        rcases hlegal.2 with hfail | ⟨hpos, _⟩
        · exact absurd (Or.inr hfail) hcond
        · rw [if_neg (by omega)]
          exact (held_fd hi).trans (heldFd_eq_none.mpr hfd)
  | close i =>
      rcases exists_obj hlegal with ⟨s, hi⟩
      exact (held_fd hi).trans (heldFd_eq_none.mpr (hcareful s hi))
  | moveConstruct i j =>
      simp only [fdInput, if_neg hlegal.2]
      exact congrArg (Option.bind · Shm.heldFd) hlegal.1
  | moveAssign i j =>
      rcases hcareful with hij | hempty
      · simp only [fdInput, if_pos (Or.inl hij)]
        trivial
      · rcases exists_obj hlegal.1 with ⟨s, hi⟩
        simp only [fdInput]
        split
        · trivial
        · exact (held_fd hi).trans (heldFd_eq_none.mpr (hempty s hi).1)
  | destroy i =>
      simp only [fdInput]
      split <;> trivial
  | _ => trivial

theorem map_of_careful {op : Op} (hlegal : Legal w op) (hcareful : Careful w op)
    (hkept : (mapView w).Kept) : (mapView w).Careful (mapInput w op) := by
  cases op with
  | construct i size => exact congrArg (Option.bind · Shm.heldMap) hlegal
  | map i res =>
      rcases exists_obj hlegal.1 with ⟨s, hi⟩
      rcases Option.ne_none_iff_exists'.mp hcareful.1 with ⟨addr, hres⟩
      simp only [mapInput, hi, hres]
      exact (held_map hi).trans (heldMap_eq_none.mpr (hcareful.2 s hi))
  | unmap i =>
      rcases exists_obj hlegal with ⟨s, hi⟩
      simp only [mapInput, hi]
      split <;> trivial
  | close i =>
      rcases exists_obj hlegal with ⟨s, hi⟩
      simp only [mapInput, hi]
      split <;> trivial
  | moveConstruct i j =>
      simp only [mapInput, if_neg hlegal.2]
      exact congrArg (Option.bind · Shm.heldMap) hlegal.1
  | moveAssign i j =>
      rcases hcareful with hij | hempty
      · simp only [mapInput, if_pos (Or.inl hij)]
        trivial
      · rcases exists_obj hlegal.1 with ⟨s, hi⟩
        simp only [mapInput]
        split
        · trivial
        · exact (held_map hi).trans (heldMap_eq_none.mpr (hempty s hi).2)
  | destroy i =>
      rcases exists_obj hlegal with ⟨s, hi⟩
      simp only [mapInput, hi, if_neg (data_ne_failed hkept hi)]
      trivial
  | _ => trivial

theorem map_step_careful {op : Op} (hw : (mapView w).Sound ∧ (mapView w).Complete)
    (hlegal : Legal w op) (hcareful : Careful w op) :
    ((mapView (step w op)).Sound ∧ (mapView (step w op)).Complete) ∧
      (mapView w).Careful (mapInput w op) := by
  have hmap := map_of_careful hlegal hcareful hw.1.kept
  refine ⟨?_, hmap⟩
  rw [mapView_step]
  exact Handles.Sound.step_careful hw (legal_map hlegal) hmap

/-! ## Runs -/

theorem sound_init : (fdView World.init).Sound ∧ (mapView World.init).Sound :=
  ⟨⟨fun _ _ h => (nomatch h), fun _ _ _ h => (nomatch h), List.nodup_nil, rfl⟩,
    ⟨fun _ _ h => (nomatch h), fun _ _ _ h => (nomatch h), List.nodup_nil, rfl⟩⟩

theorem complete_init : (fdView World.init).Complete ∧ (mapView World.init).Complete :=
  ⟨fun _ h => (nomatch h), fun _ h => (nomatch h)⟩

/-- In a run that destroys its objects in the end, the fields are right all the
time and everything is released exactly once if and only if `close` is never
called on an object with a descriptor, `map` never on one with a mapping and never
in vain, and nothing is moved onto an object that holds something. -/
theorem fixedShm_lifeCycle_iff (ops : List Op) (hlegal : Guarded step Legal World.init ops)
    (hend : ∀ i, (ops.foldl step World.init).objs i = none) :
    (Always step Consistent World.init ops ∧ Released (ops.foldl step World.init).os) ↔
      Guarded step Careful World.init ops := by
  have hfd := Handles.released_view_iff fdView_step sound_init.1 complete_init.1
    (hlegal.mono fun _ _ => legal_fd) fun i => congrArg (Option.bind · Shm.heldFd) (hend i)
  have hmap := Handles.released_view_iff mapView_step sound_init.2 complete_init.2
    (hlegal.mono fun _ _ => legal_map) fun i => congrArg (Option.bind · Shm.heldMap) (hend i)
  constructor
  · rintro ⟨hconsistent, hreleased⟩
    have hkept := always_and.mp (hconsistent.mono fun w => (consistent_iff w).mp)
    have hmaps : (mapView (ops.foldl step World.init)).live = [] := by
      rw [mapView, hreleased.maps, List.map_nil]
    have hviews := guarded_and.mpr
      ⟨hfd.mp ⟨hkept.1, hreleased.fds, hreleased.closes⟩,
        hmap.mp ⟨hkept.2, hmaps, hreleased.unmaps⟩⟩
    exact (guarded_and.mpr ⟨hlegal, hviews⟩).mono fun w op h => careful_of_views h.1 h.2.1 h.2.2
  · intro hcareful
    have hboth := guarded_and.mpr ⟨hlegal, hcareful⟩
    have hfdCareful := hboth.mono fun w op h => fd_of_careful h.1 h.2
    -- the mappings stay valid on the way, so that none of them is refused
    have hmapCareful := guarded_of_inv (fun w => (mapView w).Sound ∧ (mapView w).Complete)
      (fun w op hw h => map_step_careful hw h.1 h.2) ⟨sound_init.2, complete_init.2⟩ hboth
    rcases hfd.mpr hfdCareful with ⟨hfdKept, hfdReleased⟩
    rcases hmap.mpr hmapCareful with ⟨hmapKept, hmapReleased⟩
    constructor
    · exact (always_and.mpr ⟨hfdKept, hmapKept⟩).mono fun w => (consistent_iff w).mpr
    · exact ⟨hfdReleased.1, List.map_eq_nil_iff.mp hmapReleased.1, hfdReleased.2, hmapReleased.2⟩

/-- A file is opened and mapped, the object moved on, and the mapping given up
before the rest goes with the objects. -/
theorem fixedShm_lifeCycle_moved :
    (Always step Consistent World.init
        [.construct 0 4096, .openFile 0 3, .map 0 (some 8192), .moveConstruct 1 0, .unmap 1,
          .destroy 0, .destroy 1] ∧
      Released ([.construct 0 4096, .openFile 0 3, .map 0 (some 8192), .moveConstruct 1 0, .unmap 1,
          .destroy 0, .destroy 1].foldl step World.init).os) ↔
      Guarded step Careful World.init
        [.construct 0 4096, .openFile 0 3, .map 0 (some 8192), .moveConstruct 1 0, .unmap 1,
          .destroy 0, .destroy 1] :=
  fixedShm_lifeCycle_iff _ (by decide) fun i =>
    match i with
    | 0 => rfl
    | 1 => rfl
    | _ + 2 => rfl

/-- After `close` the field still names the descriptor, and the destructor closes
it once more. -/
theorem close_keeps_fd :
    ¬ ∀ ops : List Op, Guarded step Legal World.init ops →
      (∀ i, (ops.foldl step World.init).objs i = none) →
        Always step Consistent World.init ops ∧ Released (ops.foldl step World.init).os := by
  intro h
  have hrun := h [.construct 0 4096, .openFile 0 3, .close 0, .destroy 0] (by decide) fun i =>
    match i with
    | 0 => rfl
    | _ + 1 => rfl
  have hcloses : 1 = 0 := hrun.2.closes
  cases hcloses

end NetTest.FixedShm
