import NetTest.Basic.BHeap.Ops
import NetTest.Lib.Runs

/-!
# Runs of the heap

The machine that performs `insert`, `erase` and `pop` one after the other, and
what holders of context pointers may rely on along every run.
-/

namespace NetTest.BHeap

open Runs

variable {α : Type} {h : BHeap α} {live : Ptr → Option α} {comp : α → α → Bool}

/-- The heap together with what its callers know: the live contexts, and the
values the pops since the last insertion returned. -/
structure World (α : Type) where
  heap : BHeap α
  live : Ptr → Option α
  drained : List α

def World.init : World α := ⟨empty, fun _ => none, []⟩

inductive Op (α : Type) where
  | insert (t : α) (context : Ptr)
  | erase (idx : Nat)
  | pop

/-- The live contexts without the one at position `idx`. -/
def forget (h : BHeap α) (live : Ptr → Option α) (idx : Nat) : Ptr → Option α :=
  match h.heap[idx]? with
  | some p => Function.update live p none
  | none => live

def World.perform (comp : α → α → Bool) (w : World α) : Op α → Except Fault (World α)
  | .insert t context => do
      let h ← w.heap.insert comp t context
      return ⟨h, Function.update w.live context (some t), []⟩
  | .erase idx => do
      let h ← w.heap.erase comp idx
      return ⟨h, forget w.heap w.live idx, w.drained⟩
  | .pop => do
      let r ← w.heap.pop comp
      return ⟨r.2, forget w.heap w.live 0, w.drained ++ [r.1]⟩

/-- An exception leaves the heap as it was; a bad access ends the run. -/
def step (comp : α → α → Bool) : Option (World α) → Op α → Option (World α)
  | none, _ => none
  | some w, op =>
      match w.perform comp op with
      | .ok w' => some w'
      | .error (.runtimeError _) => some w
      | .error .badAccess => none

/-- `new` returns an address at which no context is allocated. -/
def Fresh : Option (World α) → Op α → Prop
  | some w, .insert _ context => w.heap.ctx context = none
  | _, _ => True

instance : ∀ (s : Option (World α)) (op : Op α), Decidable (Fresh s op)
  | some w, .insert _ context => inferInstanceAs (Decidable (w.heap.ctx context = none))
  | some _, .erase _ => inferInstanceAs (Decidable True)
  | some _, .pop => inferInstanceAs (Decidable True)
  | none, _ => inferInstanceAs (Decidable True)

theorem forget_of_slot {idx : Nat} {p : Ptr} (hp : h.heap[idx]? = some p) :
    forget h live idx = Function.update live p none := by
  simp [forget, hp]

theorem step_insert {w : World α} {t : α} {p : Ptr} {h' : BHeap α}
    (heq : w.heap.insert comp t p = .ok h') :
    step comp (some w) (.insert t p) = some ⟨h', Function.update w.live p (some t), []⟩ := by
  simp only [step, World.perform, heq]
  rfl

theorem step_erase {w : World α} {idx : Nat} {h' : BHeap α}
    (heq : w.heap.erase comp idx = .ok h') :
    step comp (some w) (.erase idx) = some ⟨h', forget w.heap w.live idx, w.drained⟩ := by
  simp only [step, World.perform, heq]
  rfl

theorem step_erase_out {w : World α} {idx : Nat} (hidx : w.heap.size ≤ idx) :
    step comp (some w) (.erase idx) = some w := by
  simp only [step, World.perform, erase_out hidx]
  rfl

theorem step_pop {w : World α} {t : α} {h' : BHeap α} (heq : w.heap.pop comp = .ok (t, h')) :
    step comp (some w) .pop = some ⟨h', forget w.heap w.live 0, w.drained ++ [t]⟩ := by
  simp only [step, World.perform, heq]
  rfl

theorem step_pop_empty {w : World α} (hsize : w.heap.size = 0) :
    step comp (some w) .pop = some w := by
  simp only [step, World.perform, pop_empty hsize]
  rfl

section Runs

variable [Inhabited α]

theorem Holds.step (comp : α → α → Bool) {w : World α} (hh : Holds w.heap w.live) {op : Op α}
    (hfresh : Fresh (some w) op) :
    ∃ w', BHeap.step comp (some w) op = some w' ∧ Holds w'.heap w'.live := by
  cases op with
  | insert t context =>
      obtain ⟨h', heq, hh'⟩ := hh.insert comp (t := t) hfresh
      exact ⟨_, step_insert heq, hh'⟩
  | erase idx =>
      rcases Nat.lt_or_ge idx w.heap.size with hlt | hge
      · obtain ⟨p, hp, _⟩ := hh.context hlt
        obtain ⟨h', heq, hh'⟩ := hh.erase comp hlt hp
        refine ⟨_, step_erase heq, ?_⟩
        rw [forget_of_slot hp]
        exact hh'
      · exact ⟨w, step_erase_out hge, hh⟩
  | pop =>
      rcases Nat.eq_zero_or_pos w.heap.size with hzero | hpos
      · exact ⟨w, step_pop_empty hzero, hh⟩
      · obtain ⟨p, hp, _⟩ := hh.context hpos
        obtain ⟨h', heq, hh'⟩ := hh.erase comp hpos hp
        refine ⟨_, step_pop (hh.pop_ok comp hpos heq), ?_⟩
        rw [forget_of_slot hp]
        exact hh'

/-- What holders of context pointers may rely on. -/
structure HandlesValid (comp : α → α → Bool) (w : World α) : Prop where
  handle : ∀ c v, w.live c = some v →
    ∃ idx, w.heap.ctx c = some ⟨idx, v⟩ ∧ w.heap.heap[idx]? = some c
  distinct : w.heap.heap.Nodup
  exact : ∀ c, c ∈ w.heap.heap ↔ ∃ v, w.live c = some v
  erase : ∀ c x, w.live c ≠ none → w.heap.ctx c = some x →
    ∃ h', w.heap.erase comp x.idx = .ok h' ∧ ∀ c', c' ∈ h'.heap ↔ c' ∈ w.heap.heap ∧ c' ≠ c

theorem Holds.handlesValid (comp : α → α → Bool) {w : World α} (hh : Holds w.heap w.live) :
    HandlesValid comp w := by
  have handle : ∀ c v, w.live c = some v →
      ∃ idx, w.heap.ctx c = some ⟨idx, v⟩ ∧ w.heap.heap[idx]? = some c := by
    intro c v hc
    obtain ⟨idx, hidx⟩ := List.getElem?_of_mem (hh.held c v hc)
    obtain ⟨v', hctx, hlive⟩ := hh.slot idx c hidx
    rw [hc] at hlive
    cases hlive
    exact ⟨idx, hctx, hidx⟩
  refine ⟨handle, hh.nodup, hh.mem_iff, ?_⟩
  intro c x hlive hx
  obtain ⟨v, hv⟩ := Option.ne_none_iff_exists'.mp hlive
  obtain ⟨idx, hctx, hidx⟩ := handle c v hv
  rw [hctx] at hx
  cases hx
  obtain ⟨h', heq, hh'⟩ := hh.erase comp (List.getElem?_eq_some_iff.mp hidx).choose hidx
  refine ⟨h', heq, fun c' => ?_⟩
  rw [hh'.mem_iff, hh.mem_iff]
  by_cases hcc : c' = c <;> simp [hcc]

/-- Context pointers stay valid through every run, whatever the comparator. -/
theorem bheap_handles_valid (comp : α → α → Bool) (ops : List (Op α))
    (hfresh : Guarded (step comp) Fresh (some World.init) ops) :
    Always (step comp) (fun s => ∃ w, s = some w ∧ HandlesValid comp w) (some World.init) ops := by
  have hinv : Always (step comp) (fun s => ∃ w, s = some w ∧ Holds w.heap w.live)
      (some World.init) ops := by
    refine always_of_guarded ?_ ⟨World.init, rfl, holds_empty⟩ hfresh
    rintro _ op ⟨w, rfl, hh⟩ hop
    exact hh.step comp hop
  apply hinv.mono
  rintro _ ⟨w, rfl, hh⟩
  exact ⟨w, rfl, hh.handlesValid comp⟩

/-- Insertions that move up, an erase in the middle and a pop, with the address
of an erased context used again. -/
theorem bheap_handles_valid_run :
    Always (step fun a b => decide (a < b))
      (fun s => ∃ w, s = some w ∧ HandlesValid (fun a b => decide (a < b)) w)
      (some World.init)
      [.insert 8 1, .insert 10 2, .insert 3 3, .erase 1, .insert 12 1, .pop] :=
  bheap_handles_valid (fun a b : Nat => decide (a < b)) _ (by decide +kernel)

end Runs

end NetTest.BHeap
