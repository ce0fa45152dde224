import NetTest.Core.Pool.Safety

/-!
# When the pool grows

Every new page counts a failure for the blocks between `curr` and the end of the
chain, and a block that has failed six times is passed over for good.  The
counters are therefore a function of the length of the chain alone, and
`ngx_palloc` searches its last seven blocks, whatever has been freed since in the
ones before.
-/

namespace NetTest.Pool

open Runs

/-- How many blocks at the end of the chain are searched. -/
def searchDepth : Nat := 7

def searched (pool : NgxPool) : List Block := pool.blocks.drop (pool.blocks.length - searchDepth)

def passed (pool : NgxPool) : List Block := pool.blocks.take (pool.blocks.length - searchDepth)

/-- `align8(last) + size <= end`. -/
def Block.HasRoom (b : Block) (size : Nat) : Prop := ngxAlign b.last + size ≤ b.stop

instance (b : Block) (size : Nat) : Decidable (b.HasRoom size) := inferInstanceAs (Decidable (_ ≤ _))

/-- The call adds a block to the chain. -/
def Grows (pool : NgxPool) (size : Nat) (mem : Option Nat) : Prop :=
  pool.blocks.length < (ngxPalloc pool size mem).1.blocks.length

instance (pool : NgxPool) (size : Nat) (mem : Option Nat) : Decidable (Grows pool size mem) :=
  inferInstanceAs (Decidable (_ < _))

/-! ## The counters -/

/-- The failures along a chain of `n` blocks: the last block and the one before
have not failed yet. -/
def counters : Nat → List Nat
  | 0 => []
  | n + 1 => min 6 (n - 1) :: counters n

def faults (blocks : List Block) : List Nat := blocks.map Block.faild

theorem length_counters (n : Nat) : (counters n).length = n := by
  induction n with
  | zero => rfl
  | succ n ih => rw [counters, List.length_cons, ih]

theorem drop_counters (n k : Nat) : (counters n).drop k = counters (n - k) := by
  induction n generalizing k with
  | zero => simp [counters]
  | succ n ih =>
      cases k with
      | zero => rfl
      | succ k =>
          rw [counters, List.drop_succ_cons, ih, Nat.add_sub_add_right]

theorem take_counters (n : Nat) : ∀ k ∈ (counters n).take (n - searchDepth), k = 6 := by
  induction n with
  | zero =>
      intro k hk
      cases hk
  | succ n ih =>
      unfold searchDepth at *
      intro k hk
      rcases Nat.lt_or_ge n 7 with hlt | hge
      · rw [show n + 1 - 7 = 0 by omega] at hk
        cases hk
      · rw [show n + 1 - 7 = (n - 7) + 1 by omega, counters, List.take_succ_cons] at hk
        rcases List.mem_cons.mp hk with hk | hk
        · omega
        · exact ih k hk

theorem counters_grow (n : Nat) :
    (counters n).take (n - searchDepth) ++ counters (min n searchDepth + 1) = counters (n + 1) := by
  induction n with
  | zero => rfl
  | succ n ih =>
      unfold searchDepth at *
      rcases Nat.lt_or_ge n 7 with hlt | hge
      · rw [show n + 1 - 7 = 0 by omega, List.take_zero, List.nil_append,
          show min (n + 1) 7 = n + 1 by omega]
      · rw [show n + 1 - 7 = (n - 7) + 1 by omega, counters, List.take_succ_cons, List.cons_append,
          show min (n + 1) 7 = min n 7 by omega, ih]
        show min 6 (n - 1) :: counters (n + 1) = min 6 (n + 1 - 1) :: counters (n + 1)
        congr 1
        omega

theorem countFailures_counters (pos current : Nat) (bs : List Block)
    (hlen : bs.length ≤ searchDepth) (hfaults : faults bs = counters bs.length) :
    faults (countFailures pos current bs).1 ++ [0] = counters (bs.length + 1) ∧
      (countFailures pos current bs).2 =
        if bs.length = searchDepth then pos + 1 else current := by
  fun_induction countFailures pos current bs with
  | case1 pos current => exact ⟨rfl, rfl⟩
  | case2 pos current b =>
      rw [hfaults]
      exact ⟨rfl, rfl⟩
  | case3 pos current b next rest r ih =>
      unfold searchDepth at *
      have hsplit : b.faild :: faults (next :: rest) =
          min 6 (next :: rest).length.pred :: counters (next :: rest).length := hfaults
      rcases List.cons.inj hsplit with ⟨hhead, htail⟩
      simp only [List.length_cons] at hlen hhead
      rcases ih (by simp only [List.length_cons]; omega) htail with ⟨hcounts, hcurrent⟩
      constructor
      · have hsucc : succUint b.faild = min 6 (rest.length + 1) := by
          unfold succUint uintSize
          simp only [Nat.pred_eq_sub_one] at hhead
          omega
        show succUint b.faild :: (faults r.1 ++ [0]) = _
        rw [hcounts, hsucc]
        rfl
      · -- the rest is shorter than seven, so only this block can move `curr`
        have hrest : ¬ (next :: rest).length = 7 := by
          simp only [List.length_cons]
          omega
        rw [hcurrent, if_neg hrest]
        simp only [List.length_cons, Nat.pred_eq_sub_one] at hhead ⊢
        split <;> split <;> omega

structure Counted (pool : NgxPool) : Prop where
  faults : faults pool.blocks = counters pool.blocks.length
  curr : pool.curr = pool.blocks.length - searchDepth

theorem Counted.passed {pool : NgxPool} (h : Counted pool) : ∀ b ∈ passed pool, b.faild = 6 := by
  intro b hb
  apply take_counters pool.blocks.length
  rw [← h.faults, Pool.faults, ← List.map_take]
  exact List.mem_map_of_mem hb

theorem Counted.drop {pool : NgxPool} (h : Counted pool) :
    Pool.faults (pool.blocks.drop pool.curr) = counters (pool.blocks.drop pool.curr).length := by
  rw [Pool.faults, List.map_drop, ← Pool.faults, h.faults, drop_counters, List.length_drop]

theorem Counted.of_faults {pool pool' : NgxPool} (h : Counted pool)
    (hfaults : Pool.faults pool'.blocks = Pool.faults pool.blocks) (hcurr : pool'.curr = pool.curr) :
    Counted pool' := by
  have hlen : pool'.blocks.length = pool.blocks.length := by
    have hmap := congrArg List.length hfaults
    simpa [Pool.faults] using hmap
  constructor
  · rw [hfaults, hlen]
    exact h.faults
  · rw [hcurr, hlen]
    exact h.curr

theorem faults_allocateFrom {size : Nat} {bs : List Block} {r : List Block × Nat}
    (h : allocateFrom size bs = some r) : faults r.1 = faults bs := by
  rcases allocateFrom_some h with ⟨pre, b, post, hbs, _, hr⟩
  rw [hbs, hr]
  simp only [faults, List.map_append, List.map_cons, Block.take]

theorem faults_releaseFrom {p : Nat} {bs bs' : List Block} (h : releaseFrom p bs = some bs') :
    faults bs' = faults bs := by
  rcases releaseFrom_some h with ⟨pre, b, post, hbs, _, hbs'⟩
  have hfaild : b.release.faild = b.faild := by
    unfold Block.release Block.restart
    split <;> rfl
  rw [hbs, hbs']
  simp only [faults, List.map_append, List.map_cons, hfaild]

/-- A new page at the end, and `curr` one further where seven were searched. -/
theorem Counted.grow {pool : NgxPool} (h : Counted pool) (size block : Nat) :
    Counted (ngxAllocateBlock pool size (some block)).1 := by
  have hcurr := h.curr
  have hle : (pool.blocks.drop pool.curr).length ≤ searchDepth := by
    rw [List.length_drop]
    omega
  have hloop := countFailures_counters pool.curr pool.curr _ hle h.drop
  have hlen : (countFailures pool.curr pool.curr (pool.blocks.drop pool.curr)).1.length =
      pool.blocks.length - pool.curr := by
    have hmap := congrArg List.length hloop.1
    rw [length_counters, List.length_append, Pool.faults, List.length_map, List.length_drop,
      List.length_singleton] at hmap
    omega
  have htotal : (ngxAllocateBlock pool size (some block)).1.blocks.length =
      pool.blocks.length + 1 := by
    simp only [ngxAllocateBlock, List.length_append, List.length_take, hlen, List.length_singleton]
    omega
  constructor
  · rw [htotal]
    have hparts : Pool.faults (ngxAllocateBlock pool size (some block)).1.blocks =
        (Pool.faults pool.blocks).take pool.curr ++
          (Pool.faults (countFailures pool.curr pool.curr (pool.blocks.drop pool.curr)).1 ++ [0]) := by
      simp only [ngxAllocateBlock, Pool.faults, List.map_append, List.map_take, List.append_assoc]
      rfl
    rw [hparts, hloop.1, h.faults, List.length_drop, hcurr,
      show pool.blocks.length - (pool.blocks.length - searchDepth) =
        min pool.blocks.length searchDepth by omega]
    exact counters_grow _
  · rw [htotal]
    show (countFailures pool.curr pool.curr (pool.blocks.drop pool.curr)).2 = _
    rw [hloop.2, List.length_drop]
    split <;> omega

theorem allocateFrom_none_iff {size : Nat} {bs : List Block} :
    allocateFrom size bs = none ↔ ∀ b ∈ bs, ¬ b.fits size := by
  induction bs with
  | nil => simp [allocateFrom]
  | cons b bs ih =>
      rw [allocateFrom]
      split
      · rename_i hfits
        simp [hfits]
      · rename_i hfits
        rw [Option.map_eq_none_iff, ih]
        simp [hfits]

theorem Counted.step {w : World} {op : Op} (h : Counted w.pool) :
    Counted (Pool.step w op).pool := by
  cases op with
  | palloc size mem =>
      simp only [Pool.step, ngxPalloc]
      split
      · exact h
      · split
        · unfold ngxAllocateLarge
          split
          · exact h
          · exact h.of_faults rfl rfl
        · split
          · rename_i r hfrom
            have hfaults : Pool.faults (w.pool.blocks.take w.pool.curr ++ r.1) =
                Pool.faults w.pool.blocks := by
              have hdrop := faults_allocateFrom hfrom
              unfold Pool.faults at hdrop ⊢
              rw [List.map_append, hdrop, ← List.map_append, List.take_append_drop]
            exact h.of_faults hfaults rfl
          · cases mem with
            | none => exact h
            | some block => exact h.grow size block
  | free p =>
      simp only [Pool.step, ngxFree]
      split
      · exact h
      · split
        · rename_i bs hfrom
          exact h.of_faults (faults_releaseFrom hfrom) rfl
        · exact h.of_faults rfl rfl

/-! ## Growth -/

theorem BlockOk.fits_iff {live : List Region} {b : Block} (h : BlockOk live b) (size : Nat) :
    b.fits size ↔ b.HasRoom size := by
  constructor
  · exact h.memAddr_add_le
  · intro hroom
    have hmem := h.memAddr_spec.2.1
    have hlt := h.stop_lt
    unfold Block.HasRoom at hroom
    unfold Block.fits
    unfold Block.memAddr at *
    have heq : b.stop + wordSize - ngxAlign b.last = (b.stop - ngxAlign b.last) + wordSize := by omega
    rw [heq, Nat.add_mod_right, Nat.mod_eq_of_lt (by omega)]
    omega

/-- A request that finds no block with room among those from `curr` on. -/
theorem grows_iff_none {pool : NgxPool} {size : Nat} {mem : Option Nat} (h : Counted pool)
    (hpos : 0 < size) (hsmall : size ≤ pageSize - sizeofBlock) :
    Grows pool size mem ↔
      mem ≠ none ∧ allocateFrom size (pool.blocks.drop pool.curr) = none := by
  have hlarge : ¬ pageSize - sizeofBlock < size := by omega
  simp only [Grows, ngxPalloc, if_neg (Nat.ne_of_gt hpos), if_neg hlarge]
  cases hfrom : allocateFrom size (pool.blocks.drop pool.curr) with
  | some r =>
      have hlen := congrArg List.length (faults_allocateFrom hfrom)
      simp only [faults, List.length_map, List.length_drop] at hlen
      simp only [List.length_append, List.length_take, hlen, reduceCtorEq, and_false, iff_false]
      omega
  | none =>
      cases mem with
      | none => simp [ngxAllocateBlock]
      | some block =>
          have hcounts := (h.grow size block).faults
          have hloop := countFailures_spec pool.curr pool.curr (pool.blocks.drop pool.curr)
          have hlen := congrArg List.length hloop.1
          simp only [List.length_map, List.length_drop] at hlen
          simp only [ngxAllocateBlock, List.length_append, List.length_take, hlen,
            List.length_singleton, ne_eq, reduceCtorEq, not_false_eq_true, and_self, iff_true]
          omega

/-- In every state of every run the calls that add a block are those that find no
room in the last seven blocks; each block before them has failed six times.  In
particular what `ngx_free` has emptied is used again as long as it lies there. -/
theorem ngxPalloc_grows_iff (size addr : Nat) (haligned : ngxAlignment ∣ addr)
    (hbound : addr + createSize size < wordSize) (ops : List Op)
    (hlegal : Guarded step Legal (World.init size addr) ops) (request : Nat) (mem : Option Nat)
    (hsmall : request ≤ pageSize - sizeofBlock) :
    (Grows (ops.foldl step (World.init size addr)).pool request mem ↔
      mem ≠ none ∧
        ∀ b ∈ searched (ops.foldl step (World.init size addr)).pool, ¬ b.HasRoom request) ∧
    ∀ b ∈ passed (ops.foldl step (World.init size addr)).pool, b.faild = 6 := by
  have hinv := (always_inv haligned hbound hlegal).last
  have hinit : Counted (World.init size addr).pool := ⟨rfl, rfl⟩
  have hstep : ∀ w op, Counted w.pool → Counted (Pool.step w op).pool :=
    fun _ _ h => h.step
  have hcounted : Counted (ops.foldl step (World.init size addr)).pool :=
    foldl_of_step hstep hinit ops
  generalize ops.foldl step (World.init size addr) = w at hinv hcounted ⊢
  have hsearched : searched w.pool = w.pool.blocks.drop w.pool.curr := by
    rw [searched, hcounted.curr]
  have hfits : ∀ b ∈ searched w.pool, (b.fits request ↔ b.HasRoom request) := by
    intro b hb
    exact (hinv.blocks b (List.mem_of_mem_drop hb)).fits_iff request
  refine ⟨?_, hcounted.passed⟩
  rcases Nat.eq_zero_or_pos request with hzero | hpos
  · -- nothing is asked for, and every block has room for it
    rw [hzero]
    have hgrows : ¬ Grows w.pool 0 mem := Nat.lt_irrefl _
    refine iff_of_false hgrows ?_
    rintro ⟨_, hnone⟩
    have hcurr := hinv.curr
    have hmem : w.pool.blocks[w.pool.curr] ∈ searched w.pool := by
      rw [hsearched, List.drop_eq_getElem_cons hcurr]
      exact List.mem_cons_self
    apply hnone _ hmem
    exact (hinv.blocks _ (List.getElem_mem hcurr)).memAddr_spec.2.1
  · rw [grows_iff_none hcounted hpos hsmall, allocateFrom_none_iff, ← hsearched]
    refine and_congr_right fun _ => forall₂_congr fun b hb => ?_
    rw [hfits b hb]

/-- The first page is emptied and used again. -/
theorem ngxPalloc_grows_reuse :
    (Grows ([.palloc 4000 none, .palloc 4000 (some 8192), .free 4168].foldl step
        (World.init 1 4096)).pool 4000 (some 12288) ↔
      some 12288 ≠ none ∧
        ∀ b ∈ searched ([.palloc 4000 none, .palloc 4000 (some 8192), .free 4168].foldl step
          (World.init 1 4096)).pool, ¬ b.HasRoom 4000) ∧
    ∀ b ∈ passed ([.palloc 4000 none, .palloc 4000 (some 8192), .free 4168].foldl step
      (World.init 1 4096)).pool, b.faild = 6 :=
  ngxPalloc_grows_iff 1 4096 (by decide) (by decide) _ (by decide +kernel) 4000 (some 12288)
    (by decide)

/-- Seven pages later the first page is no longer searched: emptied, it has room,
and the pool grows all the same. -/
theorem ngxPalloc_passes_empty :
    ¬ ∀ (size addr : Nat), ngxAlignment ∣ addr → addr + createSize size < wordSize →
      ∀ ops : List Op, Guarded step Legal (World.init size addr) ops →
      ∀ (request : Nat) (mem : Option Nat), request ≤ pageSize - sizeofBlock →
        Grows (ops.foldl step (World.init size addr)).pool request mem →
          ∀ b ∈ (ops.foldl step (World.init size addr)).pool.blocks, ¬ b.HasRoom request := by
  intro h
  have hfull := h 1 4096 (by decide) (by decide)
    [.palloc 4000 none, .palloc 4000 (some 8192), .palloc 4000 (some 12288),
      .palloc 4000 (some 16384), .palloc 4000 (some 20480), .palloc 4000 (some 24576),
      .palloc 4000 (some 28672), .palloc 4000 (some 32768), .free 4168]
    (by decide +kernel) 4000 (some 36864) (by decide) (by decide +kernel)
  revert hfull
  decide +kernel

end NetTest.Pool
