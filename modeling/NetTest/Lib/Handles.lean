import Mathlib.Data.List.Nodup
import Mathlib.Logic.Function.Basic
import NetTest.Lib.Runs

/-!
# Handles

Slots hold handles of resources: a resource is acquired through a slot, moved
from slot to slot and released through the slot that holds it.  The rules say
which steps keep every handle valid, and which runs release every resource
exactly once: those where no handle is overwritten, made up or kept after its
release.
-/

namespace NetTest

open Runs

/-- What each slot holds, the resources that exist, and how often something was
released that did not exist. -/
structure Handles (ι ρ : Type*) where
  held : ι → Option ρ
  live : List ρ
  stray : Nat

namespace Handles

variable {ι ρ : Type*}

inductive Op (ι ρ : Type*) where
  | idle
  | acquire (i : ι) (r : ρ)
  /-- The slot is given a handle of nothing. -/
  | forge (i : ι) (r : ρ)
  | forget (i : ι)
  | release (i : ι)
  /-- The resource is released and its handle stays. -/
  | releaseKeep (i : ι)
  | move (i j : ι)

/-- Release what a handle stands for. -/
def discard [DecidableEq ρ] (h : Handles ι ρ) (r : Option ρ) : Handles ι ρ :=
  match r with
  | none => h
  | some r => if r ∈ h.live then { h with live := h.live.erase r } else { h with stray := h.stray + 1 }

def step [DecidableEq ι] [DecidableEq ρ] (h : Handles ι ρ) : Op ι ρ → Handles ι ρ
  | .idle => h
  | .acquire i r => { h with held := Function.update h.held i (some r), live := r :: h.live }
  | .forge i r => { h with held := Function.update h.held i (some r) }
  | .forget i => { h with held := Function.update h.held i none }
  | .release i => { h.discard (h.held i) with held := Function.update h.held i none }
  | .releaseKeep i => h.discard (h.held i)
  | .move i j => { h with held := Function.update (Function.update h.held i (h.held j)) j none }

/-- What is acquired is new, and what is made up does not exist. -/
def Legal (h : Handles ι ρ) : Op ι ρ → Prop
  | .acquire _ r => r ∉ h.live
  | .forge _ r => r ∉ h.live
  | .move i j => i ≠ j
  | _ => True

/-- No handle is overwritten, made up, dropped or kept after its release. -/
def Careful (h : Handles ι ρ) : Op ι ρ → Prop
  | .acquire i _ => h.held i = none
  | .forge _ _ => False
  | .forget i => h.held i = none
  | .releaseKeep i => h.held i = none
  | .move i _ => h.held i = none
  | _ => True

def Kept (h : Handles ι ρ) : Prop := ∀ i r, h.held i = some r → r ∈ h.live

def Complete (h : Handles ι ρ) : Prop := ∀ r ∈ h.live, ∃ i, h.held i = some r

structure Sound (h : Handles ι ρ) : Prop where
  kept : Kept h
  single : ∀ i j r, h.held i = some r → h.held j = some r → i = j
  nodup : h.live.Nodup
  stray : h.stray = 0

/-- Everything has been released, and nothing twice. -/
def Released (h : Handles ι ρ) : Prop := h.live = [] ∧ h.stray = 0

variable {h : Handles ι ρ}

theorem Sound.restrict (hs : Sound h) {held : ι → Option ρ}
    (hsub : ∀ i r, held i = some r → h.held i = some r) : Sound { h with held := held } where
  kept i r hi := hs.kept i r (hsub i r hi)
  single i j r hi hj := hs.single i j r (hsub i r hi) (hsub j r hj)
  nodup := hs.nodup
  stray := hs.stray

theorem discard_of_mem [DecidableEq ρ] {r : ρ} (hr : r ∈ h.live) :
    h.discard (some r) = { h with live := h.live.erase r } := if_pos hr

theorem ne_of_held_none {i k : ι} {r : ρ} (hi : h.held i = none) (hk : h.held k = some r) :
    k ≠ i := by
  rintro rfl
  exact nomatch hi.symm.trans hk

/-! ## What a slot holds after a step -/

variable [DecidableEq ι]

theorem held_put {i k : ι} {r r' : ρ} (hk : Function.update h.held i (some r) k = some r') :
    (k = i ∧ r' = r) ∨ (k ≠ i ∧ h.held k = some r') := by
  by_cases hki : k = i
  · rw [hki, Function.update_self, Option.some.injEq] at hk
    exact .inl ⟨hki, hk.symm⟩
  · rw [Function.update_of_ne hki] at hk
    exact .inr ⟨hki, hk⟩

theorem held_drop {i k : ι} {r : ρ} (hk : Function.update h.held i none k = some r) :
    k ≠ i ∧ h.held k = some r := by
  by_cases hki : k = i
  · rw [hki, Function.update_self] at hk
    cases hk
  · rw [Function.update_of_ne hki] at hk
    exact ⟨hki, hk⟩

theorem held_other {i k : ι} {r : ρ} (hki : k ≠ i) (hk : h.held k = some r) (o : Option ρ) :
    Function.update h.held i o k = some r :=
  (Function.update_of_ne hki ..).trans hk

theorem held_move {i j k : ι} {r : ρ}
    (hk : Function.update (Function.update h.held i (h.held j)) j none k = some r) :
    k ≠ j ∧ ((k = i ∧ h.held j = some r) ∨ (k ≠ i ∧ h.held k = some r)) := by
  by_cases hkj : k = j
  · rw [hkj, Function.update_self] at hk
    cases hk
  · rw [Function.update_of_ne hkj] at hk
    by_cases hki : k = i
    · rw [hki, Function.update_self] at hk
      exact ⟨hkj, .inl ⟨hki, hk⟩⟩
    · rw [Function.update_of_ne hki] at hk
      exact ⟨hkj, .inr ⟨hki, hk⟩⟩

/-! ## One step -/

variable [DecidableEq ρ] {op : Op ι ρ}

/-- Releasing through a slot leaves the other handles valid. -/
theorem Sound.release (hs : Sound h) (i : ι) : Sound (step h (.release i)) := by
  cases hi : h.held i with
  | none =>
      simp only [step, hi, discard]
      exact hs.restrict fun k r hk => (held_drop hk).2
  | some r =>
      simp only [step, hi, discard_of_mem (hs.kept i r hi)]
      constructor
      · intro k r' hk
        rcases held_drop hk with ⟨hki, hk⟩
        have hne : r' ≠ r := by
          intro heq
          rw [heq] at hk
          exact hki (hs.single k i r hk hi)
        exact (List.mem_erase_of_ne hne).mpr (hs.kept k r' hk)
      · intro k l r' hk hl
        exact hs.single k l r' (held_drop hk).2 (held_drop hl).2
      · exact hs.nodup.erase r
      · exact hs.stray

theorem Sound.step (hs : Sound h) (hlegal : Legal h op) (hkept : Kept (h.step op)) :
    Sound (h.step op) := by
  cases op with
  | idle => exact hs
  | acquire i r =>
      refine ⟨hkept, ?_, List.nodup_cons.mpr ⟨hlegal, hs.nodup⟩, hs.stray⟩
      -- no other slot holds what is new
      have hnew : ∀ k, h.held k ≠ some r := fun k hk => hlegal (hs.kept k r hk)
      intro k l r' hk hl
      rcases held_put hk with ⟨hki, hr⟩ | ⟨_, hk⟩
      · rcases held_put hl with ⟨hli, _⟩ | ⟨_, hl⟩
        · rw [hki, hli]
        · exact absurd (hr ▸ hl) (hnew l)
      · rcases held_put hl with ⟨_, hr⟩ | ⟨_, hl⟩
        · exact absurd (hr ▸ hk) (hnew k)
        · exact hs.single k l r' hk hl
  | forge i r => exact absurd (hkept i r (Function.update_self ..)) hlegal
  | forget i => exact hs.restrict fun k r hk => (held_drop hk).2
  | release i => exact hs.release i
  | releaseKeep i =>
      cases hi : h.held i with
      | none =>
          simp only [Handles.step, hi, discard]
          exact hs
      | some r =>
          simp only [Handles.step, hi, discard_of_mem (hs.kept i r hi)] at hkept
          exact absurd (hkept i r hi) hs.nodup.not_mem_erase
  | move i j =>
      refine ⟨hkept, ?_, hs.nodup, hs.stray⟩
      intro k l r hk hl
      rcases held_move hk with ⟨hkj, ⟨hki, hk⟩ | ⟨_, hk⟩⟩
      · rcases held_move hl with ⟨hlj, ⟨hli, _⟩ | ⟨_, hl⟩⟩
        · rw [hki, hli]
        · exact absurd (hs.single l j r hl hk) hlj
      · rcases held_move hl with ⟨hlj, ⟨_, hl⟩ | ⟨_, hl⟩⟩
        · exact absurd (hs.single k j r hk hl) hkj
        · exact hs.single k l r hk hl

/-- A resource without a handle never gets one again. -/
theorem Sound.complete_of_step (hs : Sound h) (hlegal : Legal h op) (hcomplete : Complete (h.step op)) :
    Complete h := by
  intro r hr
  cases op with
  | idle => exact hcomplete r hr
  | acquire i r' =>
      rcases hcomplete r (List.mem_cons_of_mem r' hr) with ⟨k, hk⟩
      rcases held_put hk with ⟨_, heq⟩ | ⟨_, hk⟩
      · exact absurd (heq ▸ hr) hlegal
      · exact ⟨k, hk⟩
  | forge i r' =>
      rcases hcomplete r hr with ⟨k, hk⟩
      rcases held_put hk with ⟨_, heq⟩ | ⟨_, hk⟩
      · exact absurd (heq ▸ hr) hlegal
      · exact ⟨k, hk⟩
  | forget i =>
      rcases hcomplete r hr with ⟨k, hk⟩
      exact ⟨k, (held_drop hk).2⟩
  | release i =>
      cases hi : h.held i with
      | none =>
          simp only [Handles.step, hi, discard] at hcomplete
          rcases hcomplete r hr with ⟨k, hk⟩
          exact ⟨k, (held_drop hk).2⟩
      | some r' =>
          simp only [Handles.step, hi, discard_of_mem (hs.kept i r' hi)] at hcomplete
          by_cases heq : r = r'
          · exact ⟨i, heq ▸ hi⟩
          · rcases hcomplete r ((List.mem_erase_of_ne heq).mpr hr) with ⟨k, hk⟩
            exact ⟨k, (held_drop hk).2⟩
  | releaseKeep i =>
      cases hi : h.held i with
      | none =>
          simp only [Handles.step, hi, discard] at hcomplete
          exact hcomplete r hr
      | some r' =>
          simp only [Handles.step, hi, discard_of_mem (hs.kept i r' hi)] at hcomplete
          by_cases heq : r = r'
          · exact ⟨i, heq ▸ hi⟩
          · exact hcomplete r ((List.mem_erase_of_ne heq).mpr hr)
  | move i j =>
      rcases hcomplete r hr with ⟨k, hk⟩
      rcases held_move hk with ⟨_, ⟨_, hj⟩ | ⟨_, hk⟩⟩
      · exact ⟨j, hj⟩
      · exact ⟨k, hk⟩

theorem Sound.careful (hs : Sound h) (hcomplete : Complete h) (hlegal : Legal h op)
    (hcareful : Careful h op) : Kept (h.step op) ∧ Complete (h.step op) := by
  cases op with
  | idle => exact ⟨hs.kept, hcomplete⟩
  | acquire i r =>
      constructor
      · intro k r' hk
        rcases held_put hk with ⟨_, heq⟩ | ⟨_, hk⟩
        · rw [heq]
          exact List.mem_cons_self
        · exact List.mem_cons_of_mem r (hs.kept k r' hk)
      · intro r' hr'
        rcases List.mem_cons.mp hr' with heq | hr'
        · exact ⟨i, by rw [heq]; exact Function.update_self ..⟩
        · rcases hcomplete r' hr' with ⟨k, hk⟩
          exact ⟨k, held_other (ne_of_held_none hcareful hk) hk _⟩
  | forge i r => exact absurd hcareful id
  | forget i =>
      refine ⟨fun k r hk => hs.kept k r (held_drop hk).2, ?_⟩
      intro r hr
      rcases hcomplete r hr with ⟨k, hk⟩
      exact ⟨k, held_other (ne_of_held_none hcareful hk) hk _⟩
  | release i =>
      refine ⟨(hs.release i).kept, ?_⟩
      cases hi : h.held i with
      | none =>
          simp only [Handles.step, hi, discard]
          intro r hr
          rcases hcomplete r hr with ⟨k, hk⟩
          exact ⟨k, held_other (ne_of_held_none hi hk) hk _⟩
      | some r' =>
          simp only [Handles.step, hi, discard_of_mem (hs.kept i r' hi)]
          intro r hr
          rcases (hs.nodup.mem_erase_iff).mp hr with ⟨hne, hr⟩
          rcases hcomplete r hr with ⟨k, hk⟩
          have hki : k ≠ i := by
            rintro rfl
            exact hne (Option.some.inj (hk.symm.trans hi))
          exact ⟨k, held_other hki hk _⟩
  | releaseKeep i =>
      have hi : h.held i = none := hcareful
      simp only [Handles.step, hi, discard]
      exact ⟨hs.kept, hcomplete⟩
  | move i j =>
      have hi : h.held i = none := hcareful
      constructor
      · intro k r hk
        rcases held_move hk with ⟨_, ⟨_, hj⟩ | ⟨_, hk⟩⟩
        · exact hs.kept j r hj
        · exact hs.kept k r hk
      · intro r hr
        rcases hcomplete r hr with ⟨k, hk⟩
        have hki := ne_of_held_none hi hk
        by_cases hkj : k = j
        · refine ⟨i, ?_⟩
          simp only [Handles.step]
          rw [Function.update_of_ne hlegal, Function.update_self, ← hkj, hk]
        · refine ⟨k, ?_⟩
          simp only [Handles.step]
          rw [Function.update_of_ne hkj, Function.update_of_ne hki, hk]

theorem Sound.step_careful (hs : Sound h ∧ Complete h) (hlegal : Legal h op)
    (hcareful : Careful h op) : Sound (h.step op) ∧ Complete (h.step op) := by
  rcases hs.1.careful hs.2 hlegal hcareful with ⟨hkept, hcomplete⟩
  exact ⟨hs.1.step hlegal hkept, hcomplete⟩

theorem Sound.careless (hs : Sound h) (hlegal : Legal h op) (hcareless : ¬ Careful h op)
    (hkept : Kept (h.step op)) : ¬ Complete (h.step op) := by
  intro hcomplete
  cases op with
  | idle => exact hcareless trivial
  | acquire i r =>
      rcases Option.ne_none_iff_exists'.mp hcareless with ⟨r', hi⟩
      have hr' := hs.kept i r' hi
      rcases hcomplete r' (List.mem_cons_of_mem r hr') with ⟨k, hk⟩
      rcases held_put hk with ⟨_, heq⟩ | ⟨hki, hk⟩
      · exact hlegal (heq ▸ hr')
      · exact hki (hs.single k i r' hk hi)
  | forge i r => exact hlegal (hkept i r (Function.update_self ..))
  | forget i =>
      rcases Option.ne_none_iff_exists'.mp hcareless with ⟨r, hi⟩
      rcases hcomplete r (hs.kept i r hi) with ⟨k, hk⟩
      rcases held_drop hk with ⟨hki, hk⟩
      exact hki (hs.single k i r hk hi)
  | release i => exact hcareless trivial
  | releaseKeep i =>
      rcases Option.ne_none_iff_exists'.mp hcareless with ⟨r, hi⟩
      simp only [Handles.step, hi, discard_of_mem (hs.kept i r hi)] at hkept
      exact hs.nodup.not_mem_erase (hkept i r hi)
  | move i j =>
      rcases Option.ne_none_iff_exists'.mp hcareless with ⟨r, hi⟩
      rcases hcomplete r (hs.kept i r hi) with ⟨k, hk⟩
      rcases held_move hk with ⟨_, ⟨_, hj⟩ | ⟨hki, hk⟩⟩
      · exact hlegal (hs.single i j r hi hj)
      · exact hki (hs.single k i r hk hi)

/-! ## Runs -/

/-- Where handles stay valid and in the end everything is released, no resource
is ever without a handle. -/
theorem always_complete (hs : Sound h) {ops : List (Op ι ρ)} (hlegal : Guarded step Legal h ops)
    (hkept : Always step Kept h ops) (hlive : (ops.foldl step h).live = []) :
    Always step (fun h => Kept h ∧ Complete h) h ops := by
  induction ops generalizing h with
  | nil =>
      refine ⟨hs.kept, ?_⟩
      intro r hr
      have hnil : h.live = [] := hlive
      rw [hnil] at hr
      cases hr
  | cons op rest ih =>
      have hrest := ih (hs.step hlegal.1 hkept.2.head) hlegal.2 hkept.2 hlive
      exact ⟨⟨hs.kept, hs.complete_of_step hlegal.1 hrest.head.2⟩, hrest⟩

/-- In a run that ends with empty slots every handle is valid and every resource
released exactly once if and only if every step is careful. -/
theorem released_iff (hs : Sound h) (hcomplete : Complete h) {ops : List (Op ι ρ)}
    (hlegal : Guarded step Legal h ops) (hempty : ∀ i, (ops.foldl step h).held i = none) :
    (Always step Kept h ops ∧ Released (ops.foldl step h)) ↔ Guarded step Careful h ops := by
  have hexact : Always step (fun h => Kept h ∧ Complete h) h ops ↔ Guarded step Careful h ops :=
    always_iff_guarded (fun h => Sound h ∧ Complete h) Legal (fun h hh => ⟨hh.1.kept, hh.2⟩)
      (fun h op hh hop hcareful => Sound.step_careful hh hop hcareful)
      (fun h op hh hop hcareless hnext => hh.1.careless hop hcareless hnext.1 hnext.2)
      ⟨hs, hcomplete⟩ hlegal
  constructor
  · intro hrun
    exact hexact.mp (always_complete hs hlegal hrun.1 hrun.2.1)
  · intro hcareful
    refine ⟨(hexact.mpr hcareful).mono fun h hh => hh.1, ?_⟩
    have hlast := (always_of_guarded (P := fun h => Sound h ∧ Complete h)
      (fun h op hh hop => Sound.step_careful hh hop.1 hop.2) ⟨hs, hcomplete⟩
      (guarded_and.mpr ⟨hlegal, hcareful⟩)).last
    refine ⟨List.eq_nil_iff_forall_not_mem.mpr ?_, hlast.1.stray⟩
    intro r hr
    rcases hlast.2 r hr with ⟨i, hi⟩
    exact nomatch (hempty i).symm.trans hi

/-- `released_iff` for a machine whose handles are seen through a view. -/
theorem released_view_iff {σ κ : Type*} {next : σ → κ → σ} {view : σ → Handles ι ρ}
    {input : σ → κ → Op ι ρ} (hview : ∀ s i, view (next s i) = (view s).step (input s i)) {s : σ}
    (hs : Sound (view s)) (hcomplete : Complete (view s)) {ops : List κ}
    (hlegal : Guarded next (fun s i => Legal (view s) (input s i)) s ops)
    (hempty : ∀ i, (view (ops.foldl next s)).held i = none) :
    (Always next (fun s => Kept (view s)) s ops ∧ Released (view (ops.foldl next s))) ↔
      Guarded next (fun s i => Careful (view s) (input s i)) s ops := by
  rw [← guarded_trace hview] at hlegal
  rw [← foldl_trace hview] at hempty
  have hexact := released_iff hs hcomplete hlegal hempty
  rw [always_trace hview, guarded_trace hview, foldl_trace hview] at hexact
  exact hexact

end Handles

end NetTest
