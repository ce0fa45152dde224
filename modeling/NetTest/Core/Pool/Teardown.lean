import NetTest.Core.Pool.Safety

/-!
# The pool and the memory of the system

The calls of `posix_memalign`, `malloc` and `free` behind `ngx_palloc`, `ngx_free`
and `ngx_destroy_pool`.  A page stays with the pool until the pool is destroyed; a
large node goes back when its region is freed.
-/

namespace NetTest.Pool

open Runs

/-! ## Calls of the system -/

/-- What `ngx_palloc` has been given by the system when it returns. -/
def obtained (pool : NgxPool) (size : Nat) (mem : Option Nat) : List Nat :=
  if size = 0 then []
  else if pageSize - sizeofBlock < size then mem.toList
  else
    match allocateFrom size (pool.blocks.drop pool.curr) with
    | some _ => []
    | none => mem.toList

/-- The address that `ngx_free` passes to `free`, if it comes to that. -/
def handedBack (pool : NgxPool) (p : Nat) : List Nat :=
  if p = 0 then []
  else
    match releaseFrom p pool.blocks with
    | some _ => []
    | none => if pool.large.any fun l => p = l.data then [p - sizeofLarge] else []

/-- The calls of `free` in `ngx_destroy_pool`: the blocks behind the first, the large
nodes, and last the pool itself, which the first block is part of. -/
def ngxDestroyPool (pool : NgxPool) (self : Nat) : List Nat :=
  pool.blocks.tail.map Block.addr ++ pool.large.map Large.addr ++ [self]

/-- The pool in use, the addresses that the system has given out and not got back, and
how often `free` was called with anything else. -/
structure Ledger where
  world : World
  heap : List Nat
  stray : Nat

namespace Ledger

def create (size addr : Nat) : Ledger := ⟨World.init size addr, [addr], 0⟩

def free (l : Ledger) (addr : Nat) : Ledger :=
  if addr ∈ l.heap then { l with heap := l.heap.erase addr } else { l with stray := l.stray + 1 }

def freeAll (l : Ledger) (addrs : List Nat) : Ledger := addrs.foldl free l

def step (l : Ledger) (op : Op) : Ledger :=
  match op with
  | .palloc size mem =>
      { l with
        world := Pool.step l.world (.palloc size mem)
        heap := obtained l.world.pool size mem ++ l.heap }
  | .free p =>
      freeAll { l with world := Pool.step l.world (.free p) } (handedBack l.world.pool p)

def destroy (l : Ledger) : Ledger := l.freeAll (ngxDestroyPool l.world.pool l.world.area.addr)

def reach (w : World) : List Region := held w.area (frames w) w.pool.large

/-- The books agree with the pool: it reaches what it was given, all of it and nothing
else, and what is in use lies there. -/
structure Balanced (l : Ledger) : Prop where
  heap : l.heap.Perm ((reach l.world).map Region.addr)
  distinct : l.heap.Nodup
  stray : l.stray = 0
  live : ∀ r ∈ l.world.live, ∃ a ∈ reach l.world, r.Within a

end Ledger

/-! ## What the pool reaches after a call -/

open Ledger

theorem reach_pos {w : World} (harea : 0 < w.area.size) : ∀ a ∈ reach w, 0 < a.size := by
  intro a ha
  rcases List.mem_cons.mp ha with rfl | ha
  · exact harea
  · rcases List.mem_append.mp ha with ha | ha
    · rcases List.mem_map.mp ha with ⟨f, _, rfl⟩
      unfold Frame.page pageSize
      simp
    · rcases List.mem_map.mp ha with ⟨l, _, rfl⟩
      unfold Large.node sizeofLarge
      simp only
      omega

theorem Granted.not_mem {w : World} {alignment size addr : Nat}
    (h : Granted w alignment size addr) (hsize : 0 < size) (harea : 0 < w.area.size) :
    addr ∉ (reach w).map Region.addr := by
  intro hmem
  rcases List.mem_map.mp hmem with ⟨a, ha, heq⟩
  exact (h.fresh a ha).addr_ne hsize (reach_pos harea a ha) heq.symm

theorem reach_addrs (w : World) :
    (reach w).map Region.addr =
      w.area.addr :: ((frames w).tail.map Frame.addr ++ w.pool.large.map Large.addr) := by
  simp [reach, held, Function.comp_def, Frame.page, Large.node]

theorem reach_congr {w w' : World} (harea : w'.area = w.area) (hframes : frames w' = frames w)
    (hlarge : w'.pool.large = w.pool.large) : reach w' = reach w := by
  rw [reach, harea, hframes, hlarge]
  rfl

theorem frames_ngxAllocateBlock (pool : NgxPool) (size block : Nat) :
    (ngxAllocateBlock pool size (some block)).1.blocks.map Block.frame =
      pool.blocks.map Block.frame ++ [(newBlock block size).frame] := by
  rcases countFailures_spec pool.curr pool.curr (pool.blocks.drop pool.curr) with ⟨hframes, _, _⟩
  simp only [ngxAllocateBlock, List.map_append, hframes]
  rw [← List.map_append, List.take_append_drop]
  rfl

/-- `ngx_palloc` keeps track of all that it has obtained. -/
theorem reach_palloc {w : World} (h : Inv w) (size : Nat) (mem : Option Nat) :
    ((reach (Pool.step w (.palloc size mem))).map Region.addr).Perm
      (obtained w.pool size mem ++ (reach w).map Region.addr) := by
  have hsame : ∀ w' : World, reach w' = reach w →
      ((reach w').map Region.addr).Perm ([] ++ (reach w).map Region.addr) := by
    intro w' heq
    rw [heq]
    exact List.Perm.refl _
  unfold obtained
  by_cases hzero : size = 0
  · rw [if_pos hzero]
    apply hsame
    simp only [Pool.step, ngxPalloc, if_pos hzero]
  by_cases hlarge : pageSize - sizeofBlock < size
  · rw [if_neg hzero, if_pos hlarge, Pool.step, ngxPalloc_large w.pool hlarge]
    cases mem with
    | none => exact hsame _ rfl
    | some addr =>
        rw [reach_addrs, reach_addrs]
        simp only [ngxAllocateLarge, List.map_append, Option.toList_some]
        rw [← List.append_assoc, ← List.cons_append]
        exact List.perm_append_comm
  · rw [if_neg hzero, if_neg hlarge]
    simp only [Pool.step, ngxPalloc, if_neg hzero, if_neg hlarge]
    cases hfrom : allocateFrom size (w.pool.blocks.drop w.pool.curr) with
    | some r =>
        apply hsame
        rcases allocateFrom_some hfrom with ⟨pre, b, post, hdrop, _, rfl⟩
        refine reach_congr rfl ?_ rfl
        have hblocks : frames w = (w.pool.blocks.take w.pool.curr ++ w.pool.blocks.drop w.pool.curr).map
            Block.frame := by
          rw [List.take_append_drop]
          rfl
        rw [hblocks, hdrop]
        simp [frames]
    | none =>
        cases mem with
        | none => exact hsame _ rfl
        | some block =>
            have hnonempty : w.pool.blocks.map Block.frame ≠ [] := h.layout.nonempty
            rw [reach_addrs, reach_addrs]
            simp only [frames, frames_ngxAllocateBlock, Option.toList_some]
            rw [List.tail_append_of_ne_nil hnonempty, List.map_append, List.append_assoc,
              ← List.cons_append]
            exact List.perm_middle

theorem granted_of_mem_obtained {w : World} {size : Nat} {mem : Option Nat}
    (hlegal : Legal w (.palloc size mem)) {addr : Nat} (haddr : addr ∈ obtained w.pool size mem) :
    ∃ alignment size', 0 < size' ∧ Granted w alignment size' addr := by
  rcases hlegal with ⟨_, hmem⟩
  unfold obtained at haddr
  by_cases hzero : size = 0
  · rw [if_pos hzero] at haddr
    cases haddr
  rw [if_neg hzero] at haddr
  by_cases hlarge : pageSize - sizeofBlock < size
  · rw [if_pos hlarge, Option.mem_toList] at haddr
    have hgrant := hmem addr haddr
    rw [if_pos hlarge] at hgrant
    exact ⟨_, _, Nat.add_pos_left (Nat.pos_of_ne_zero hzero) _, hgrant⟩
  · rw [if_neg hlarge] at haddr
    split at haddr
    · cases haddr
    · rw [Option.mem_toList] at haddr
      have hgrant := hmem addr haddr
      rw [if_neg hlarge] at hgrant
      exact ⟨_, _, Nat.zero_lt_succ _, hgrant⟩

theorem nodup_obtained (pool : NgxPool) (size : Nat) (mem : Option Nat) :
    (obtained pool size mem).Nodup := by
  have hmem : mem.toList.Nodup := by
    cases mem with
    | none => exact List.nodup_nil
    | some addr => exact List.nodup_singleton addr
  unfold obtained
  split
  · exact List.nodup_nil
  · split
    · exact hmem
    · split
      · exact List.nodup_nil
      · exact hmem

theorem perm_unlinkLarge (p : Nat) (large : List Large) :
    (large.map Large.addr).Perm
      ((if large.any fun l => p = l.data then [p - sizeofLarge] else []) ++
        (unlinkLarge p large).map Large.addr) := by
  induction large with
  | nil => exact List.Perm.refl _
  | cons l rest ih =>
      rw [unlinkLarge]
      by_cases hp : p = l.data
      · rw [if_pos (by simp [hp]), if_pos hp, hp, Large.data, Nat.add_sub_cancel]
        exact List.Perm.refl _
      · have hany : ((l :: rest).any fun l => decide (p = l.data)) =
            rest.any fun l => decide (p = l.data) := by
          simp [hp]
        rw [hany, if_neg hp, List.map_cons, List.map_cons]
        exact (ih.cons l.addr).trans List.perm_middle.symm

theorem reach_free (w : World) (p : Nat) :
    ((reach w).map Region.addr).Perm
      (handedBack w.pool p ++ (reach (Pool.step w (.free p))).map Region.addr) := by
  unfold handedBack
  by_cases hzero : p = 0
  · simp only [Pool.step, ngxFree, if_pos hzero]
    exact List.Perm.refl _
  simp only [Pool.step, ngxFree, if_neg hzero]
  cases hfrom : releaseFrom p w.pool.blocks with
  | some bs =>
      rcases releaseFrom_some hfrom with ⟨pre, b, post, hblocks, _, rfl⟩
      have hsame : (pre ++ b.release :: post).map Block.frame = frames w := by
        simp [frames, hblocks]
      simp only [reach_addrs, frames, hsame]
      exact List.Perm.refl _
  | none =>
      simp only [reach_addrs, frames]
      rw [← List.cons_append, ← List.cons_append]
      refine ((perm_unlinkLarge p w.pool.large).append_left _).trans ?_
      rw [← List.append_assoc, ← List.append_assoc]
      exact List.perm_append_comm.append_right _

/-! ## The books -/

theorem freeAll_world (l : Ledger) (addrs : List Nat) : (l.freeAll addrs).world = l.world := by
  induction addrs generalizing l with
  | nil => rfl
  | cons addr rest ih =>
      rw [freeAll, List.foldl_cons]
      refine (ih (l.free addr)).trans ?_
      unfold Ledger.free
      split <;> rfl

theorem freeAll_heap {l : Ledger} {addrs kept : List Nat} (h : l.heap.Perm (addrs ++ kept)) :
    (l.freeAll addrs).heap.Perm kept ∧ (l.freeAll addrs).stray = l.stray := by
  induction addrs generalizing l with
  | nil => exact ⟨h, rfl⟩
  | cons addr rest ih =>
      have hmem : addr ∈ l.heap := h.mem_iff.mpr List.mem_cons_self
      have hfree : l.free addr = { l with heap := l.heap.erase addr } := if_pos hmem
      have hrest : (l.free addr).heap.Perm (rest ++ kept) := by
        rw [hfree]
        have herase := h.erase addr
        rwa [List.cons_append, List.erase_cons_head] at herase
      rcases ih hrest with ⟨hheap, hstray⟩
      refine ⟨hheap, hstray.trans ?_⟩
      rw [hfree]

structure Booked (l : Ledger) : Prop extends Balanced l where
  inv : Inv l.world
  area : 0 < l.world.area.size

theorem Booked.step {l : Ledger} {op : Op} (h : Booked l) (hlegal : Legal l.world op) :
    Booked (l.step op) := by
  have hinv := h.inv.step hlegal
  cases op with
  | palloc size mem =>
      refine ⟨⟨?heap, ?distinct, h.stray, ?live⟩, hinv, h.area⟩
      case heap =>
        exact (h.heap.append_left _).trans (reach_palloc h.inv size mem).symm
      case distinct =>
        refine List.Nodup.append (nodup_obtained _ _ _) h.distinct ?_
        intro addr hobtained hheap
        rcases granted_of_mem_obtained hlegal hobtained with ⟨_, _, hsize, hgrant⟩
        exact hgrant.not_mem hsize h.area (h.heap.mem_iff.mp hheap)
      case live => exact fun r hr => hinv.within_held hr
  | free p =>
      have hperm := h.heap.trans (reach_free l.world p)
      rcases freeAll_heap (l := { l with world := Pool.step l.world (.free p) }) hperm with
        ⟨hheap, hstray⟩
      have hworld : (l.step (.free p)).world = Pool.step l.world (.free p) := freeAll_world _ _
      refine ⟨⟨?heap, ?distinct, hstray.trans h.stray, ?live⟩, ?inv, ?area⟩
      case heap =>
        rw [hworld]
        exact hheap
      case distinct =>
        have hnodup := hperm.nodup_iff.mp h.distinct
        exact hheap.nodup_iff.mpr (List.nodup_append.mp hnodup).2.1
      case live =>
        rw [hworld]
        exact fun r hr => hinv.within_held hr
      case inv =>
        rw [hworld]
        exact hinv
      case area =>
        rw [hworld]
        exact h.area

/-- `ngx_destroy_pool` gives back all that the pool reaches. -/
theorem Booked.destroy {l : Ledger} (h : Booked l) : l.destroy.heap = [] ∧ l.destroy.stray = 0 := by
  have hcalls : ((reach l.world).map Region.addr).Perm
      (ngxDestroyPool l.world.pool l.world.area.addr ++ []) := by
    rw [reach_addrs, List.append_nil, ngxDestroyPool]
    have hblocks : (frames l.world).tail.map Frame.addr = l.world.pool.blocks.tail.map Block.addr := by
      simp [frames, Function.comp_def, Block.frame]
    rw [hblocks]
    exact (List.perm_append_singleton _ _).symm
  rcases freeAll_heap (h.heap.trans hcalls) with ⟨hheap, hstray⟩
  exact ⟨hheap.eq_nil, hstray.trans h.stray⟩

end NetTest.Pool
