import Mathlib.Data.List.Pairwise
import NetTest.Lib.AssocList
import NetTest.Lib.Regions
import NetTest.Lib.Runs
import NetTest.Core.Pool.Model

/-!
# Pool safety

Along every run the regions handed out and not yet freed are disjoint, lie in a
block of the chain or in a large node, and are counted by the block they lie in.
A block that counts none starts again at its first byte.

Two facts about the layout carry the argument: block bodies do not even touch,
because a page starts with its header, so the inclusive end test of `ngx_free`
never takes a region for its neighbour's; and the data of a large node lies
behind a header too.
-/

namespace NetTest.Pool

open Runs

/-! ## Runs -/

/-- The pool, the memory it was created in and the regions that are in use. -/
structure World where
  pool : NgxPool
  area : Region
  live : List Region

def World.init (size addr : Nat) : World := ⟨newPool addr, ⟨addr, createSize size⟩, []⟩

inductive Op where
  | palloc (size : Nat) (mem : Option Nat)
  | free (p : Nat)

def step (w : World) : Op → World
  | .palloc size mem =>
      let r := ngxPalloc w.pool size mem
      { w with
        pool := r.1
        live := match r.2 with
          | some addr => ⟨addr, size⟩ :: w.live
          | none => w.live }
  | .free p => { w with pool := ngxFree w.pool p, live := w.live.filter fun r => r.addr ≠ p }

structure Frame where
  addr : Nat
  start : Nat
  stop : Nat

def Block.frame (b : Block) : Frame := ⟨b.addr, b.start, b.stop⟩

def Frame.page (f : Frame) : Region := ⟨f.addr, pageSize⟩

def Large.node (l : Large) : Region := ⟨l.addr, sizeofLarge + l.size⟩

def Large.region (l : Large) : Region := ⟨l.data, l.size⟩

@[simp] theorem Large.region_addr (l : Large) : l.region.addr = l.data := rfl

def held (area : Region) (frames : List Frame) (large : List Large) : List Region :=
  area :: (frames.tail.map Frame.page ++ large.map Large.node)

/-- The system returns aligned memory that is not in use. -/
structure Granted (w : World) (alignment size addr : Nat) : Prop where
  aligned : alignment ∣ addr
  bounded : addr + size < wordSize
  fresh : ∀ a ∈ held w.area (w.pool.blocks.map Block.frame) w.pool.large,
    Region.Disjoint ⟨addr, size⟩ a

/-- `malloc` aligns to 16 bytes.  A freed address is one that was returned and
has not been freed since. -/
def Legal (w : World) : Op → Prop
  | .palloc size mem => size + sizeofLarge < wordSize ∧ ∀ addr ∈ mem,
      if pageSize - sizeofBlock < size then Granted w 16 (size + sizeofLarge) addr
      else Granted w pageSize pageSize addr
  | .free p => ∃ r ∈ w.live, r.addr = p

instance (w : World) (alignment size addr : Nat) : Decidable (Granted w alignment size addr) :=
  decidable_of_iff (alignment ∣ addr ∧ addr + size < wordSize ∧
      ∀ a ∈ held w.area (w.pool.blocks.map Block.frame) w.pool.large,
        Region.Disjoint ⟨addr, size⟩ a)
    ⟨fun h => ⟨h.1, h.2.1, h.2.2⟩, fun h => ⟨h.aligned, h.bounded, h.fresh⟩⟩

instance : ∀ (w : World) (op : Op), Decidable (Legal w op)
  | w, .palloc size mem => inferInstanceAs (Decidable (size + sizeofLarge < wordSize ∧
      ∀ addr ∈ mem, if pageSize - sizeofBlock < size then Granted w 16 (size + sizeofLarge) addr
        else Granted w pageSize pageSize addr))
  | w, .free p => inferInstanceAs (Decidable (∃ r ∈ w.live, r.addr = p))

def Frame.Inside (f : Frame) (r : Region) : Prop := f.start ≤ r.addr ∧ r.stop ≤ f.stop

instance (f : Frame) (r : Region) : Decidable (f.Inside r) := inferInstanceAs (Decidable (_ ∧ _))

structure PoolSafe (w : World) : Prop where
  aligned : ∀ r ∈ w.live, ngxAlignment ∣ r.addr
  placed : ∀ r ∈ w.live,
    (∃ b ∈ w.pool.blocks, b.frame.Inside r) ∨ ∃ l ∈ w.pool.large, r = l.region
  disjoint : w.live.Pairwise Region.Disjoint
  ref : ∀ b ∈ w.pool.blocks, b.ref = w.live.countP fun r => b.frame.Inside r
  reset : ∀ b ∈ w.pool.blocks, b.ref = 0 → b.last = b.start
  large : ∀ r, (∃ l ∈ w.pool.large, r = l.region) ↔
    r ∈ w.live ∧ ∀ b ∈ w.pool.blocks, ¬ b.frame.Inside r
  large_once : (w.pool.large.map Large.region).Nodup

/-! ## The layout -/

/-- Not even the ends touch. -/
def Frame.Apart (f g : Frame) : Prop := f.stop < g.start ∨ g.stop < f.start

theorem Frame.Apart.symm {f g : Frame} (h : f.Apart g) : g.Apart f := Or.symm h

instance : Std.Symm Frame.Apart := ⟨fun _ _ => Frame.Apart.symm⟩

structure Layout (area : Region) (frames : List Frame) (large : List Large) : Prop where
  nonempty : frames ≠ []
  apart : frames.Pairwise Frame.Apart
  housed : ∀ f ∈ frames, ∃ a ∈ area :: frames.tail.map Frame.page,
    a.addr + sizeofBlock ≤ f.start ∧ f.stop ≤ a.stop
  large_apart : ∀ l ∈ large, ∀ f ∈ frames, l.node.stop ≤ f.start ∨ f.stop ≤ l.addr
  large_disjoint : large.Pairwise fun l l' => Region.Disjoint l.node l'.node

/-- The counted regions of a block lie below `last`. -/
structure BlockCounts (live : List Region) (b : Block) : Prop where
  start_pos : 0 < b.start
  start_le : b.start ≤ b.last
  last_le : b.last ≤ b.stop
  start_aligned : ngxAlignment ∣ b.start
  stop_aligned : ngxAlignment ∣ b.stop
  stop_lt : b.stop < wordSize
  size_le : b.stop ≤ b.start + pageSize
  ref_le : b.ref ≤ b.last - b.start
  ref : b.ref = live.countP fun r => b.frame.Inside r
  below : ∀ r ∈ live, b.frame.Inside r → r.stop ≤ b.last

structure BlockOk (live : List Region) (b : Block) : Prop extends BlockCounts live b where
  reset : b.ref = 0 → b.last = b.start

def frames (w : World) : List Frame := w.pool.blocks.map Block.frame

structure Inv (w : World) : Prop where
  layout : Layout w.area (frames w) w.pool.large
  blocks : ∀ b ∈ w.pool.blocks, BlockOk w.live b
  curr : w.pool.curr < w.pool.blocks.length
  placed : ∀ r ∈ w.live, (∃ f ∈ frames w, f.Inside r) ∨ ∃ l ∈ w.pool.large, r = l.region
  large_live : ∀ l ∈ w.pool.large, l.region ∈ w.live
  live : ∀ r ∈ w.live, 0 < r.size ∧ ngxAlignment ∣ r.addr ∧ r.addr ≠ 0
  disjoint : w.live.Pairwise Region.Disjoint

/-! ## One block -/

theorem succUint_of_lt {n : Nat} (h : n < pageSize + 1) : succUint n = n + 1 := by
  unfold succUint
  exact Nat.mod_eq_of_lt (by unfold pageSize uintSize at *; omega)

theorem predUint_succ {n : Nat} (h : n < pageSize) : predUint (n + 1) = n := by
  unfold predUint
  have heq : n + 1 + uintSize - 1 = n + uintSize := by omega
  rw [heq, Nat.add_mod_right]
  exact Nat.mod_eq_of_lt (by unfold pageSize uintSize at *; omega)

@[simp] theorem Block.take_frame (b : Block) (size : Nat) : (b.take size).frame = b.frame := by
  simp only [Block.take, Block.frame]

@[simp] theorem Block.restart_frame (b : Block) : b.restart.frame = b.frame := by
  unfold Block.restart
  split <;> rfl

@[simp] theorem Block.release_frame (b : Block) : b.release.frame = b.frame := by
  rw [Block.release, Block.restart_frame]
  simp only [Block.frame]

namespace BlockOk

variable {live : List Region} {b : Block}

theorem perm {live' : List Region} (h : BlockOk live b) (hperm : live.Perm live') :
    BlockOk live' b :=
  { h with
    ref := h.ref.trans (hperm.countP_eq _)
    below := fun r hr => h.below r (hperm.mem_iff.mpr hr) }

theorem cons_iff {r : Region} (hr : ¬ b.frame.Inside r) : BlockOk (r :: live) b ↔ BlockOk live b := by
  have hcount : (r :: live).countP (fun r => b.frame.Inside r) =
      live.countP fun r => b.frame.Inside r := List.countP_cons_of_neg (by simpa using hr)
  constructor
  · intro h
    exact { h with
      ref := h.ref.trans hcount
      below := fun s hs => h.below s (List.mem_cons_of_mem _ hs) }
  · intro h
    refine { h with ref := h.ref.trans hcount.symm, below := ?_ }
    intro s hs hinside
    rcases List.mem_cons.mp hs with rfl | hs
    · exact absurd hinside hr
    · exact h.below s hs hinside

theorem memAddr_spec (h : BlockOk live b) :
    b.last ≤ b.memAddr ∧ b.memAddr ≤ b.stop ∧ ngxAlignment ∣ b.memAddr := by
  have hlast := h.last_le
  have hstop := h.stop_aligned
  have hlt := h.stop_lt
  unfold Block.memAddr ngxAlign ngxAlignment wordSize at *
  rw [Nat.mod_eq_of_lt (by omega)]
  omega

theorem memAddr_add_le (h : BlockOk live b) {size : Nat} (hfits : b.fits size) :
    b.memAddr + size ≤ b.stop := by
  obtain ⟨_, hmem, _⟩ := h.memAddr_spec
  have hlt := h.stop_lt
  have heq : b.stop + wordSize - b.memAddr = (b.stop - b.memAddr) + wordSize := by omega
  unfold Block.fits at hfits
  rw [heq, Nat.add_mod_right, Nat.mod_eq_of_lt (by omega)] at hfits
  omega

theorem ref_le_pageSize (h : BlockOk live b) : b.ref ≤ pageSize := by
  have hrefle := h.ref_le
  have hlast := h.last_le
  have hsize := h.size_le
  omega

theorem take (h : BlockOk live b) {size : Nat} (hsize : 0 < size) (hfits : b.fits size) :
    BlockOk (⟨b.memAddr, size⟩ :: live) (b.take size) := by
  obtain ⟨hlast, hmem, _⟩ := h.memAddr_spec
  have hend := h.memAddr_add_le hfits
  have hstart := h.start_le
  have hrefle := h.ref_le
  have hinside : b.frame.Inside ⟨b.memAddr, size⟩ := ⟨Nat.le_trans hstart hlast, hend⟩
  have href : (b.take size).ref = b.ref + 1 := succUint_of_lt (Nat.lt_succ_of_le h.ref_le_pageSize)
  refine ⟨?counts, fun hzero => by omega⟩
  constructor
  case start_pos => exact h.start_pos
  case start_le => exact Nat.le_trans hstart (Nat.le_trans hlast (Nat.le_add_right _ _))
  case last_le => exact hend
  case start_aligned => exact h.start_aligned
  case stop_aligned => exact h.stop_aligned
  case stop_lt => exact h.stop_lt
  case size_le => exact h.size_le
  case ref_le =>
    change (b.take size).ref ≤ b.memAddr + size - b.start
    omega
  case ref =>
    rw [href, Block.take_frame, List.countP_cons_of_pos (by simpa using hinside), h.ref]
  case below =>
    intro r hr hin
    change r.stop ≤ b.memAddr + size
    rcases List.mem_cons.mp hr with rfl | hr
    · exact Nat.le_refl _
    · have hbelow := h.below r hr hin
      omega

theorem restart (h : BlockCounts live b) : BlockOk live b.restart := by
  unfold Block.restart
  split
  · rename_i hzero
    refine ⟨?_, fun _ => rfl⟩
    refine ⟨h.start_pos, Nat.le_refl _, Nat.le_trans h.start_le h.last_le, h.start_aligned,
      h.stop_aligned, h.stop_lt, h.size_le, ?_, h.ref, ?_⟩
    · simp [hzero]
    · intro r hr hin
      have hpos : 0 < live.countP fun r => b.frame.Inside r :=
        List.countP_pos_iff.mpr ⟨r, hr, decide_eq_true hin⟩
      have href := h.ref
      omega
  · rename_i hpos
    exact ⟨h, fun hzero => absurd hzero hpos⟩

theorem release {r : Region} (h : BlockOk (r :: live) b) (hr : b.frame.Inside r) :
    BlockOk live b.release := by
  have hcount : b.ref = live.countP (fun r => b.frame.Inside r) + 1 := by
    rw [h.ref, List.countP_cons_of_pos (by simpa using hr)]
  have href : predUint b.ref = live.countP fun r => b.frame.Inside r := by
    have hle := h.ref_le_pageSize
    rw [hcount]
    exact predUint_succ (by omega)
  have hrefle := h.ref_le
  rw [Block.release, href]
  refine restart ⟨h.start_pos, h.start_le, h.last_le, h.start_aligned, h.stop_aligned, h.stop_lt,
    h.size_le, ?_, rfl, fun s hs => h.below s (List.mem_cons_of_mem _ hs)⟩
  simp only
  omega

end BlockOk

/-! ## What the searches find -/

theorem allocateFrom_some {size : Nat} {bs : List Block} {r : List Block × Nat}
    (h : allocateFrom size bs = some r) :
    ∃ pre b post, bs = pre ++ b :: post ∧ b.fits size ∧
      r = (pre ++ b.take size :: post, b.memAddr) := by
  induction bs generalizing r with
  | nil => cases h
  | cons b bs ih =>
      rw [allocateFrom] at h
      split at h
      · rename_i hfits
        cases h
        exact ⟨[], b, bs, rfl, hfits, rfl⟩
      · obtain ⟨r', hr', rfl⟩ := Option.map_eq_some_iff.mp h
        obtain ⟨pre, c, post, rfl, hfits, rfl⟩ := ih hr'
        exact ⟨b :: pre, c, post, rfl, hfits, rfl⟩

theorem releaseFrom_some {p : Nat} {bs bs' : List Block} (h : releaseFrom p bs = some bs') :
    ∃ pre b post, bs = pre ++ b :: post ∧ (b.start ≤ p ∧ p ≤ b.stop) ∧
      bs' = pre ++ b.release :: post := by
  induction bs generalizing bs' with
  | nil => cases h
  | cons b bs ih =>
      rw [releaseFrom] at h
      split at h
      · rename_i hin
        cases h
        exact ⟨[], b, bs, rfl, hin, rfl⟩
      · obtain ⟨bs'', hbs'', rfl⟩ := Option.map_eq_some_iff.mp h
        obtain ⟨pre, c, post, rfl, hin, rfl⟩ := ih hbs''
        exact ⟨b :: pre, c, post, rfl, hin, rfl⟩

theorem releaseFrom_none {p : Nat} {bs : List Block} (h : releaseFrom p bs = none) :
    ∀ b ∈ bs, ¬ (b.start ≤ p ∧ p ≤ b.stop) := by
  induction bs with
  | nil =>
      intro b hb
      cases hb
  | cons b bs ih =>
      rw [releaseFrom] at h
      split at h
      · cases h
      · rename_i hout
        rw [List.forall_mem_cons]
        exact ⟨hout, ih (Option.map_eq_none_iff.mp h)⟩

theorem mem_unlinkLarge {p : Nat} {large : List Large}
    (hdata : large.Pairwise fun l l' => l.data ≠ l'.data) {l : Large} :
    l ∈ unlinkLarge p large ↔ l ∈ large ∧ l.data ≠ p := by
  induction large with
  | nil => simp [unlinkLarge]
  | cons m large ih =>
      obtain ⟨hm, hlarge⟩ := List.pairwise_cons.mp hdata
      rw [unlinkLarge]
      split
      · rename_i hp
        constructor
        · intro hl
          exact ⟨List.mem_cons_of_mem _ hl, hp ▸ (hm l hl).symm⟩
        · rintro ⟨hl, hne⟩
          rcases List.mem_cons.mp hl with rfl | hl
          · exact absurd hp.symm hne
          · exact hl
      · rename_i hp
        rw [List.mem_cons, List.mem_cons, ih hlarge]
        constructor
        · rintro (rfl | ⟨hl, hne⟩)
          · exact ⟨.inl rfl, Ne.symm hp⟩
          · exact ⟨.inr hl, hne⟩
        · rintro ⟨rfl | hl, hne⟩
          · exact .inl rfl
          · exact .inr ⟨hl, hne⟩

theorem unlinkLarge_sublist (p : Nat) (large : List Large) : (unlinkLarge p large).Sublist large := by
  induction large with
  | nil => exact List.Sublist.refl _
  | cons m large ih =>
      rw [unlinkLarge]
      split
      · exact List.sublist_cons_self _ _
      · exact ih.cons_cons m

/-- The failure counters are all that changes, and `current` stays in the chain. -/
theorem countFailures_spec (pos current : Nat) (bs : List Block) :
    (countFailures pos current bs).1.map Block.frame = bs.map Block.frame ∧
      (∀ c ∈ (countFailures pos current bs).1, ∃ b ∈ bs, ∃ n, c = { b with faild := n }) ∧
      (current < pos + bs.length → (countFailures pos current bs).2 < pos + bs.length) := by
  fun_induction countFailures pos current bs with
  | case1 pos current =>
      refine ⟨rfl, ?_, id⟩
      intro c hc
      cases hc
  | case2 pos current b =>
      refine ⟨rfl, ?_, id⟩
      intro c hc
      exact ⟨c, hc, c.faild, rfl⟩
  | case3 pos current b next rest r ih =>
      obtain ⟨hframes, hfields, hcurr⟩ := ih
      refine ⟨?_, ?_, ?_⟩
      · have hhead : Block.frame { b with faild := succUint b.faild } = b.frame := by
          simp only [Block.frame]
        exact congrArg₂ List.cons hhead hframes
      · intro c hc
        rcases List.mem_cons.mp hc with rfl | hc
        · exact ⟨b, List.mem_cons_self, _, rfl⟩
        · obtain ⟨d, hd, n, rfl⟩ := hfields c hc
          exact ⟨d, List.mem_cons_of_mem _ hd, n, rfl⟩
      · intro hlt
        simp only [List.length_cons] at hlt
        refine lt_of_lt_of_eq (hcurr ?_) ?_
        · simp only [List.length_cons]
          split <;> omega
        · simp only [List.length_cons]
          omega

theorem BlockOk.faild {live : List Region} {b : Block} (h : BlockOk live b) (n : Nat) :
    BlockOk live { b with faild := n } :=
  ⟨⟨h.start_pos, h.start_le, h.last_le, h.start_aligned, h.stop_aligned, h.stop_lt, h.size_le,
    h.ref_le, h.ref, h.below⟩, h.reset⟩

/-! ## Regions and frames -/

theorem Frame.Apart.not_inside {f g : Frame} (h : f.Apart g) {r : Region} (hsize : 0 < r.size)
    (hr : f.Inside r) : ¬ g.Inside r := by
  intro hg
  unfold Frame.Apart Frame.Inside Region.stop at *
  omega

theorem Frame.Apart.disjoint {f g : Frame} (h : f.Apart g) {r s : Region} (hr : f.Inside r)
    (hs : g.Inside s) : Region.Disjoint r s := by
  unfold Frame.Apart Frame.Inside Region.Disjoint Region.stop at *
  omega

theorem Layout.apart_others {area : Region} {large : List Large} {pre post : List Frame}
    {f : Frame} (h : Layout area (pre ++ f :: post) large) : ∀ g ∈ pre ++ post, f.Apart g :=
  (List.pairwise_cons.mp ((List.pairwise_middle Frame.Apart.symm).mp h.apart)).1

theorem Layout.data_outside {area : Region} {large : List Large} {fs : List Frame}
    (h : Layout area fs large) {l : Large} (hl : l ∈ large) (hsize : 0 < l.size) {f : Frame}
    (hf : f ∈ fs) : ¬ (f.start ≤ l.data ∧ l.data ≤ f.stop) := by
  have := h.large_apart l hl f hf
  unfold Large.node Region.stop Large.data sizeofLarge at *
  simp only at this
  omega

theorem Layout.disjoint_large {area : Region} {large : List Large} {fs : List Frame}
    (h : Layout area fs large) {l : Large} (hl : l ∈ large) {f : Frame} (hf : f ∈ fs) {r : Region}
    (hr : f.Inside r) : Region.Disjoint r l.region := by
  have := h.large_apart l hl f hf
  unfold Large.node Frame.Inside Region.Disjoint Large.region Region.stop Large.data at *
  simp only at *
  omega

theorem Layout.data_ne {area : Region} {large : List Large} {fs : List Frame}
    (h : Layout area fs large) : large.Pairwise fun l l' => l.data ≠ l'.data := by
  apply h.large_disjoint.imp
  intro l l' hdisjoint
  unfold Large.node Region.Disjoint Region.stop Large.data sizeofLarge at *
  simp only at hdisjoint
  omega

/-- Every region in use lies in memory the pool holds. -/
theorem Inv.within_held {w : World} (h : Inv w) {r : Region} (hr : r ∈ w.live) :
    ∃ a ∈ held w.area (frames w) w.pool.large, r.Within a := by
  rcases h.placed r hr with ⟨f, hf, hin⟩ | ⟨l, hl, rfl⟩
  · obtain ⟨a, ha, hstart, hstop⟩ := h.layout.housed f hf
    refine ⟨a, ?_, ?_⟩
    · rcases List.mem_cons.mp ha with rfl | ha
      · exact List.mem_cons_self
      · exact List.mem_cons_of_mem _ (List.mem_append_left _ ha)
    · unfold Frame.Inside at hin
      unfold Region.Within
      omega
  · refine ⟨l.node, ?_, ?_⟩
    · exact List.mem_cons_of_mem _ (List.mem_append_right _ (List.mem_map_of_mem hl))
    · unfold Region.Within Large.node Large.region Region.stop Large.data
      simp only
      omega

theorem Inv.addr_ne {w : World} (h : Inv w) : w.live.Pairwise fun r s => r.addr ≠ s.addr := by
  apply h.disjoint.imp_of_mem
  intro r s hr hs hdisjoint
  exact hdisjoint.addr_ne (h.live r hr).1 (h.live s hs).1

/-! ## Allocation from a block -/

theorem Inv.take {w : World} (h : Inv w) {pre post : List Block} {b : Block}
    (hblocks : w.pool.blocks = pre ++ b :: post) {size : Nat} (hsize : 0 < size)
    (hfits : b.fits size) :
    Inv { w with
      pool := { w.pool with blocks := pre ++ b.take size :: post }
      live := ⟨b.memAddr, size⟩ :: w.live } := by
  have hb : BlockOk w.live b := h.blocks b (by simp [hblocks])
  obtain ⟨hlast, hmem, haligned⟩ := hb.memAddr_spec
  have hstart := hb.start_le
  have hinside : b.frame.Inside ⟨b.memAddr, size⟩ :=
    ⟨Nat.le_trans hstart hlast, hb.memAddr_add_le hfits⟩
  have hframes : frames w = pre.map Block.frame ++ b.frame :: post.map Block.frame := by
    simp [frames, hblocks]
  have hothers : ∀ g ∈ pre.map Block.frame ++ post.map Block.frame, b.frame.Apart g :=
    Layout.apart_others (hframes ▸ h.layout)
  have hsame : (pre ++ b.take size :: post).map Block.frame = frames w := by
    rw [hframes]
    simp
  constructor
  case layout =>
    change Layout w.area ((pre ++ b.take size :: post).map Block.frame) w.pool.large
    exact hsame ▸ h.layout
  case curr => simpa [hblocks] using h.curr
  case blocks =>
    intro c hc
    have hother : ∀ d ∈ pre ++ post, BlockOk (⟨b.memAddr, size⟩ :: w.live) d := by
      intro d hd
      have hapart := hothers d.frame (by rw [← List.map_append]; exact List.mem_map_of_mem hd)
      refine (BlockOk.cons_iff (hapart.not_inside hsize hinside)).mpr (h.blocks d ?_)
      rw [hblocks]
      simp only [List.mem_append, List.mem_cons] at hd ⊢
      tauto
    simp only [List.mem_append, List.mem_cons] at hc hother
    rcases hc with hc | rfl | hc
    · exact hother c (.inl hc)
    · exact hb.take hsize hfits
    · exact hother c (.inr hc)
  case placed =>
    intro r hr
    change (∃ f ∈ (pre ++ b.take size :: post).map Block.frame, f.Inside r) ∨ _
    rw [hsame]
    rcases List.mem_cons.mp hr with rfl | hr
    · exact .inl ⟨b.frame, by simp [hframes], hinside⟩
    · exact h.placed r hr
  case large_live => exact fun l hl => List.mem_cons_of_mem _ (h.large_live l hl)
  case live =>
    intro r hr
    rcases List.mem_cons.mp hr with rfl | hr
    · have hpos := hb.start_pos
      exact ⟨hsize, haligned, by simp only; omega⟩
    · exact h.live r hr
  case disjoint =>
    refine List.pairwise_cons.mpr ⟨?_, h.disjoint⟩
    intro r hr
    rcases h.placed r hr with ⟨f, hf, hin⟩ | ⟨l, hl, rfl⟩
    · rw [hframes] at hf
      have hcase : f = b.frame ∨ f ∈ pre.map Block.frame ++ post.map Block.frame := by
        simp only [List.mem_append, List.mem_cons] at hf ⊢
        tauto
      rcases hcase with rfl | hf
      · have hbelow := hb.below r hr hin
        exact Or.inr (Nat.le_trans hbelow hlast)
      · exact (hothers f hf).disjoint hinside hin
    · exact h.layout.disjoint_large hl (by simp [hframes]) hinside

/-! ## New memory -/

/-- Memory from the system is disjoint from the regions in use. -/
theorem Inv.disjoint_granted {w : World} (h : Inv w) {alignment size addr : Nat}
    (hgrant : Granted w alignment size addr) {r s : Region} (hr : r.Within ⟨addr, size⟩)
    (hs : s ∈ w.live) : Region.Disjoint r s := by
  obtain ⟨a, ha, hwithin⟩ := h.within_held hs
  exact (hgrant.fresh a ha).mono hr hwithin

theorem mem_housing {area a : Region} {fs : List Frame} (hne : fs ≠ []) {f : Frame}
    (ha : a ∈ area :: fs.tail.map Frame.page) :
    a ∈ area :: (fs ++ [f]).tail.map Frame.page := by
  rw [List.tail_append_of_ne_nil hne, List.map_append]
  rcases List.mem_cons.mp ha with rfl | ha
  · exact List.mem_cons_self
  · exact List.mem_cons_of_mem _ (List.mem_append_left _ ha)

theorem Layout.addFrame {area : Region} {fs : List Frame} {large : List Large}
    (h : Layout area fs large) {f : Frame} (hstart : f.start = f.addr + sizeofBlock)
    (hstop : f.stop = f.addr + pageSize)
    (hfresh : ∀ a ∈ held area fs large, Region.Disjoint f.page a) :
    Layout area (fs ++ [f]) large := by
  have hnew : ∀ g ∈ fs, g.Apart f := by
    intro g hg
    obtain ⟨a, ha, hlow, hhigh⟩ := h.housed g hg
    have hdisjoint := hfresh a (by
      rcases List.mem_cons.mp ha with rfl | ha
      · exact List.mem_cons_self
      · exact List.mem_cons_of_mem _ (List.mem_append_left _ ha))
    unfold Region.Disjoint Frame.page Region.stop sizeofBlock at *
    unfold Frame.Apart
    simp only at hdisjoint
    omega
  constructor
  case nonempty => simp
  case apart =>
    refine List.pairwise_append.mpr ⟨h.apart, List.pairwise_singleton _ _, ?_⟩
    intro g hg f' hf'
    rw [List.mem_singleton.mp hf']
    exact hnew g hg
  case housed =>
    intro g hg
    rcases List.mem_append.mp hg with hg | hg
    · obtain ⟨a, ha, hbounds⟩ := h.housed g hg
      exact ⟨a, mem_housing h.nonempty ha, hbounds⟩
    · rw [List.mem_singleton.mp hg]
      refine ⟨f.page, ?_, ?_, ?_⟩
      · rw [List.tail_append_of_ne_nil h.nonempty, List.map_append]
        exact List.mem_cons_of_mem _ (List.mem_append_right _ List.mem_cons_self)
      · exact Nat.le_of_eq hstart.symm
      · exact Nat.le_of_eq hstop
  case large_apart =>
    intro l hl g hg
    rcases List.mem_append.mp hg with hg | hg
    · exact h.large_apart l hl g hg
    · rw [List.mem_singleton.mp hg]
      have hdisjoint := hfresh l.node
        (List.mem_cons_of_mem _ (List.mem_append_right _ (List.mem_map_of_mem hl)))
      unfold Region.Disjoint Frame.page Region.stop Large.node at *
      simp only at hdisjoint ⊢
      omega
  case large_disjoint => exact h.large_disjoint

theorem Layout.addLarge {area : Region} {fs : List Frame} {large : List Large}
    (h : Layout area fs large) {l : Large}
    (hfresh : ∀ a ∈ held area fs large, Region.Disjoint l.node a) :
    Layout area fs (large ++ [l]) := by
  refine ⟨h.nonempty, h.apart, h.housed, ?_, ?_⟩
  · intro l' hl' f hf
    rcases List.mem_append.mp hl' with hl' | hl'
    · exact h.large_apart l' hl' f hf
    · rw [List.mem_singleton.mp hl']
      obtain ⟨a, ha, hlow, hhigh⟩ := h.housed f hf
      have hdisjoint := hfresh a (by
        rcases List.mem_cons.mp ha with rfl | ha
        · exact List.mem_cons_self
        · exact List.mem_cons_of_mem _ (List.mem_append_left _ ha))
      unfold Region.Disjoint Large.node Region.stop at *
      simp only at hdisjoint ⊢
      omega
  · refine List.pairwise_append.mpr ⟨h.large_disjoint, List.pairwise_singleton _ _, ?_⟩
    intro l' hl' m hm
    rw [List.mem_singleton.mp hm]
    exact (hfresh l'.node
      (List.mem_cons_of_mem _ (List.mem_append_right _ (List.mem_map_of_mem hl')))).symm

theorem blockOk_newBlock {live : List Region} {block size : Nat}
    (haligned : pageSize ∣ block) (hbound : block + pageSize < wordSize)
    (hsize : 0 < size) (hle : size ≤ pageSize - sizeofBlock)
    (hlive : ∀ r ∈ live, ¬ (newBlock block size).frame.Inside r) :
    BlockOk (⟨block + sizeofBlock, size⟩ :: live) (newBlock block size) := by
  have hinside : (newBlock block size).frame.Inside ⟨block + sizeofBlock, size⟩ := by
    unfold Frame.Inside Region.stop newBlock Block.frame sizeofBlock pageSize at *
    simp only
    omega
  have hcount : live.countP (fun r => (newBlock block size).frame.Inside r) = 0 := by
    rw [List.countP_eq_zero]
    intro r hr
    simpa using hlive r hr
  refine ⟨?counts, ?_⟩
  · constructor
    case ref =>
      rw [List.countP_cons_of_pos (by simpa using hinside), hcount]
      rfl
    case below =>
      intro r hr hin
      rcases List.mem_cons.mp hr with rfl | hr
      · exact Nat.le_refl _
      · exact absurd hin (hlive r hr)
    case stop_lt => exact hbound
    all_goals
      simp only [newBlock, pageSize, sizeofBlock, ngxAlignment] at haligned hle ⊢
      omega
  · intro hzero
    cases hzero

theorem Inv.grow {w : World} (h : Inv w) {bs : List Block} (hframes : bs.map Block.frame = frames w)
    (hbs : ∀ b ∈ bs, BlockOk w.live b) {curr : Nat} (hcurr : curr < bs.length) {size block : Nat}
    (hsize : 0 < size) (hle : size ≤ pageSize - sizeofBlock)
    (hgrant : Granted w pageSize pageSize block) :
    Inv { w with
      pool := { w.pool with blocks := bs ++ [newBlock block size], curr := curr }
      live := ⟨block + sizeofBlock, size⟩ :: w.live } := by
  have hlayout : Layout w.area (frames w ++ [(newBlock block size).frame]) w.pool.large :=
    h.layout.addFrame rfl rfl hgrant.fresh
  have hnew : (bs ++ [newBlock block size]).map Block.frame =
      frames w ++ [(newBlock block size).frame] := by
    rw [List.map_append, hframes]
    rfl
  have hinside : (newBlock block size).frame.Inside ⟨block + sizeofBlock, size⟩ := by
    unfold Frame.Inside Region.stop newBlock Block.frame sizeofBlock pageSize at *
    simp only
    omega
  have hwithin : Region.Within ⟨block + sizeofBlock, size⟩ ⟨block, pageSize⟩ := by
    unfold Region.Within Region.stop sizeofBlock pageSize at *
    simp only
    omega
  have hapart : ∀ f ∈ frames w, (newBlock block size).frame.Apart f := by
    have := Layout.apart_others hlayout
    simpa using this
  have hlive : ∀ r ∈ w.live, ¬ (newBlock block size).frame.Inside r := by
    intro r hr hin
    have hdisjoint := h.disjoint_granted hgrant (r := ⟨block, pageSize⟩)
      ⟨Nat.le_refl _, Nat.le_refl _⟩ hr
    have hpos := (h.live r hr).1
    unfold Frame.Inside newBlock Block.frame Region.Disjoint Region.stop at *
    simp only at hdisjoint hin
    omega
  constructor
  case layout =>
    change Layout w.area ((bs ++ [newBlock block size]).map Block.frame) w.pool.large
    rw [hnew]
    exact hlayout
  case blocks =>
    intro c hc
    rcases List.mem_append.mp hc with hc | hc
    · have hf : c.frame ∈ frames w := hframes ▸ List.mem_map_of_mem hc
      exact (BlockOk.cons_iff ((hapart _ hf).not_inside hsize hinside)).mpr (hbs c hc)
    · rw [List.mem_singleton.mp hc]
      exact blockOk_newBlock hgrant.aligned hgrant.bounded hsize hle hlive
  case curr =>
    simp only [List.length_append]
    omega
  case placed =>
    intro r hr
    change (∃ f ∈ (bs ++ [newBlock block size]).map Block.frame, f.Inside r) ∨ _
    rw [hnew]
    rcases List.mem_cons.mp hr with rfl | hr
    · exact .inl ⟨_, List.mem_append_right _ List.mem_cons_self, hinside⟩
    · rcases h.placed r hr with ⟨f, hf, hin⟩ | hlarge
      · exact .inl ⟨f, List.mem_append_left _ hf, hin⟩
      · exact .inr hlarge
  case large_live => exact fun l hl => List.mem_cons_of_mem _ (h.large_live l hl)
  case live =>
    intro r hr
    rcases List.mem_cons.mp hr with rfl | hr
    · refine ⟨hsize, ?_, ?_⟩
      · have := hgrant.aligned
        unfold ngxAlignment pageSize sizeofBlock at *
        simp only
        omega
      · unfold sizeofBlock
        simp only
        omega
    · exact h.live r hr
  case disjoint =>
    exact List.pairwise_cons.mpr ⟨fun r hr => h.disjoint_granted hgrant hwithin hr, h.disjoint⟩

theorem Inv.addLarge {w : World} (h : Inv w) {size addr : Nat} (hsize : 0 < size)
    (hgrant : Granted w 16 (size + sizeofLarge) addr) :
    Inv { w with
      pool := { w.pool with large := w.pool.large ++ [⟨addr, size⟩] }
      live := ⟨addr + sizeofLarge, size⟩ :: w.live } := by
  have hnode : Large.node ⟨addr, size⟩ = ⟨addr, size + sizeofLarge⟩ := by
    simp [Large.node, Nat.add_comm]
  have hfresh : ∀ a ∈ held w.area (frames w) w.pool.large,
      Region.Disjoint (Large.node ⟨addr, size⟩) a := by
    rw [hnode]
    exact hgrant.fresh
  have hlayout := h.layout.addLarge hfresh
  have hwithin : Region.Within ⟨addr + sizeofLarge, size⟩ ⟨addr, size + sizeofLarge⟩ := by
    exact Region.within_offset (by omega)
  have hout : ∀ f ∈ frames w, ¬ f.Inside ⟨addr + sizeofLarge, size⟩ := by
    intro f hf hin
    have hbad := hlayout.data_outside (List.mem_append_right _ List.mem_cons_self) hsize hf
    unfold Frame.Inside Region.stop at hin
    simp only at hin
    exact hbad ⟨hin.1, Nat.le_trans (Nat.le_add_right _ _) hin.2⟩
  constructor
  case layout => exact hlayout
  case blocks =>
    intro c hc
    exact (BlockOk.cons_iff (hout _ (List.mem_map_of_mem hc))).mpr (h.blocks c hc)
  case curr => exact h.curr
  case placed =>
    intro r hr
    rcases List.mem_cons.mp hr with rfl | hr
    · exact .inr ⟨_, List.mem_append_right _ List.mem_cons_self, rfl⟩
    · rcases h.placed r hr with hblock | ⟨l, hl, heq⟩
      · exact .inl hblock
      · exact .inr ⟨l, List.mem_append_left _ hl, heq⟩
  case large_live =>
    intro l hl
    rcases List.mem_append.mp hl with hl | hl
    · exact List.mem_cons_of_mem _ (h.large_live l hl)
    · rw [List.mem_singleton.mp hl]
      exact List.mem_cons_self
  case live =>
    intro r hr
    rcases List.mem_cons.mp hr with rfl | hr
    · have haligned := hgrant.aligned
      unfold ngxAlignment sizeofLarge
      exact ⟨hsize, by simp only; omega, by simp only; omega⟩
    · exact h.live r hr
  case disjoint =>
    exact List.pairwise_cons.mpr ⟨fun r hr => h.disjoint_granted hgrant hwithin hr, h.disjoint⟩

/-! ## Freeing -/

theorem Inv.perm_free {w : World} (h : Inv w) {r : Region} (hr : r ∈ w.live) :
    w.live.Perm (r :: w.live.filter fun s => s.addr ≠ r.addr) :=
  AssocList.perm_cons_filter_key h.addr_ne hr

/-- The block that `ngx_free` finds is the one the region lies in. -/
theorem Inv.inside_found {w : World} (h : Inv w) {r : Region} (hr : r ∈ w.live) {f : Frame}
    (hf : f ∈ frames w) (hfound : f.start ≤ r.addr ∧ r.addr ≤ f.stop) : f.Inside r := by
  have hpos := (h.live r hr).1
  rcases h.placed r hr with ⟨g, hg, hin⟩ | ⟨l, hl, rfl⟩
  · by_cases hfg : f = g
    · exact hfg ▸ hin
    · have hapart : f.Apart g := h.layout.apart.forall hf hg hfg
      exfalso
      unfold Frame.Apart Frame.Inside Region.stop at *
      omega
  · exact absurd hfound (h.layout.data_outside hl hpos hf)

theorem Inv.release {w : World} (h : Inv w) {r : Region} (hr : r ∈ w.live)
    {pre post : List Block} {b : Block} (hblocks : w.pool.blocks = pre ++ b :: post)
    (hfound : b.start ≤ r.addr ∧ r.addr ≤ b.stop) :
    Inv { w with
      pool := { w.pool with blocks := pre ++ b.release :: post }
      live := w.live.filter fun s => s.addr ≠ r.addr } := by
  have hframes : frames w = pre.map Block.frame ++ b.frame :: post.map Block.frame := by
    simp [frames, hblocks]
  have hsame : (pre ++ b.release :: post).map Block.frame = frames w := by
    rw [hframes]
    simp
  have hperm := h.perm_free hr
  have hpos := (h.live r hr).1
  have hinside : b.frame.Inside r := h.inside_found hr (by simp [hframes]) hfound
  have hothers : ∀ g ∈ pre.map Block.frame ++ post.map Block.frame, b.frame.Apart g :=
    Layout.apart_others (hframes ▸ h.layout)
  constructor
  case layout =>
    change Layout w.area ((pre ++ b.release :: post).map Block.frame) w.pool.large
    exact hsame ▸ h.layout
  case blocks =>
    intro c hc
    have hok : ∀ d ∈ w.pool.blocks, BlockOk (r :: w.live.filter fun s => s.addr ≠ r.addr) d :=
      fun d hd => (h.blocks d hd).perm hperm
    have hother : ∀ d, d ∈ pre ∨ d ∈ post → BlockOk (w.live.filter fun s => s.addr ≠ r.addr) d := by
      intro d hd
      have hapart := hothers d.frame (by
        rw [← List.map_append]
        exact List.mem_map_of_mem (List.mem_append.mpr hd))
      refine (BlockOk.cons_iff (hapart.not_inside hpos hinside)).mp (hok d ?_)
      rw [hblocks, List.mem_append, List.mem_cons]
      tauto
    simp only [List.mem_append, List.mem_cons] at hc
    rcases hc with hc | hc | hc
    · exact hother c (.inl hc)
    · rw [hc]
      exact (hok b (by simp [hblocks])).release hinside
    · exact hother c (.inr hc)
  case curr => simpa [hblocks] using h.curr
  case placed =>
    intro s hs
    change (∃ f ∈ (pre ++ b.release :: post).map Block.frame, f.Inside s) ∨ _
    rw [hsame]
    exact h.placed s (List.mem_of_mem_filter hs)
  case large_live =>
    intro l hl
    refine List.mem_filter.mpr ⟨h.large_live l hl, ?_⟩
    have hne : l.region.addr ≠ r.addr := by
      intro heq
      have hout := h.layout.data_outside hl (h.live _ (h.large_live l hl)).1
        (show b.frame ∈ frames w by simp [hframes])
      rw [Large.region_addr] at heq
      rw [heq] at hout
      exact hout hfound
    exact decide_eq_true hne
  case live => exact fun s hs => h.live s (List.mem_of_mem_filter hs)
  case disjoint => exact h.disjoint.filter _

theorem Inv.unlink {w : World} (h : Inv w) {r : Region} (hr : r ∈ w.live)
    (hnone : ∀ b ∈ w.pool.blocks, ¬ (b.start ≤ r.addr ∧ r.addr ≤ b.stop)) :
    Inv { w with
      pool := { w.pool with large := unlinkLarge r.addr w.pool.large }
      live := w.live.filter fun s => s.addr ≠ r.addr } := by
  have hmem : ∀ l, l ∈ unlinkLarge r.addr w.pool.large ↔ l ∈ w.pool.large ∧ l.data ≠ r.addr :=
    fun l => mem_unlinkLarge h.layout.data_ne
  constructor
  case layout =>
    refine ⟨h.layout.nonempty, h.layout.apart, h.layout.housed, ?_, ?_⟩
    · intro l hl
      exact h.layout.large_apart l ((hmem l).mp hl).1
    · exact h.layout.large_disjoint.sublist (unlinkLarge_sublist _ _)
  case blocks =>
    intro c hc
    have hout : ¬ c.frame.Inside r := by
      intro hin
      refine hnone c hc ⟨hin.1, Nat.le_trans (Nat.le_add_right _ _) hin.2⟩
    exact (BlockOk.cons_iff hout).mp ((h.blocks c hc).perm (h.perm_free hr))
  case curr => exact h.curr
  case placed =>
    intro s hs
    obtain ⟨hs, hne⟩ := List.mem_filter.mp hs
    rcases h.placed s hs with hblock | ⟨l, hl, rfl⟩
    · exact .inl hblock
    · exact .inr ⟨l, (hmem l).mpr ⟨hl, of_decide_eq_true hne⟩, rfl⟩
  case large_live =>
    intro l hl
    obtain ⟨hl, hne⟩ := (hmem l).mp hl
    exact List.mem_filter.mpr ⟨h.large_live l hl, decide_eq_true hne⟩
  case live => exact fun s hs => h.live s (List.mem_of_mem_filter hs)
  case disjoint => exact h.disjoint.filter _

/-! ## Steps and runs -/

theorem Inv.palloc {w : World} (h : Inv w) {size : Nat} {mem : Option Nat}
    (hlegal : Legal w (.palloc size mem)) : Inv (step w (.palloc size mem)) := by
  obtain ⟨_, hmem⟩ := hlegal
  unfold step ngxPalloc
  by_cases hzero : size = 0
  · simp only [if_pos hzero]
    exact h
  by_cases hlarge : pageSize - sizeofBlock < size
  · simp only [if_neg hzero, if_pos hlarge, ngxAllocateLarge]
    cases mem with
    | none => exact h
    | some addr =>
        have hgrant := hmem addr rfl
        rw [if_pos hlarge] at hgrant
        exact h.addLarge (Nat.pos_of_ne_zero hzero) hgrant
  · simp only [if_neg hzero, if_neg hlarge]
    cases hfrom : allocateFrom size (w.pool.blocks.drop w.pool.curr) with
    | some r =>
        obtain ⟨pre, b, post, hdrop, hfits, rfl⟩ := allocateFrom_some hfrom
        have hblocks : w.pool.blocks = (w.pool.blocks.take w.pool.curr ++ pre) ++ b :: post := by
          rw [List.append_assoc, ← hdrop, List.take_append_drop]
        have htake := h.take hblocks (Nat.pos_of_ne_zero hzero) hfits
        rw [List.append_assoc] at htake
        exact htake
    | none =>
        simp only [ngxAllocateBlock]
        cases mem with
        | none => exact h
        | some block =>
            have hgrant := hmem block rfl
            rw [if_neg hlarge] at hgrant
            obtain ⟨hframes, hfields, hcurr⟩ := countFailures_spec w.pool.curr w.pool.curr
              (w.pool.blocks.drop w.pool.curr)
            have hin := h.curr
            refine h.grow ?_ ?_ ?_ (Nat.pos_of_ne_zero hzero) (Nat.le_of_not_lt hlarge) hgrant
            · rw [List.map_append, hframes, ← List.map_append, List.take_append_drop]
              rfl
            · intro c hc
              rcases List.mem_append.mp hc with hc | hc
              · exact h.blocks c (List.mem_of_mem_take hc)
              · obtain ⟨b, hb, n, rfl⟩ := hfields c hc
                exact (h.blocks b (List.mem_of_mem_drop hb)).faild n
            · have hlen := congrArg List.length hframes
              simp only [List.length_map, List.length_drop] at hlen hcurr
              rw [List.length_append, List.length_take, hlen]
              have := hcurr (by omega)
              omega

theorem ngxPalloc_large (pool : NgxPool) {size : Nat} (hsize : pageSize - sizeofBlock < size)
    (mem : Option Nat) : ngxPalloc pool size mem = ngxAllocateLarge pool size mem := by
  rw [ngxPalloc, if_neg (Nat.ne_of_gt (Nat.zero_lt_of_lt hsize)), if_pos hsize]

theorem live_palloc {w : World} {size addr : Nat} {mem : Option Nat}
    (hret : (ngxPalloc w.pool size mem).2 = some addr) :
    (step w (.palloc size mem)).live = ⟨addr, size⟩ :: w.live := by
  simp only [step, hret]

theorem live_palloc_none {w : World} {size : Nat} {mem : Option Nat}
    (hret : (ngxPalloc w.pool size mem).2 = none) :
    (step w (.palloc size mem)).live = w.live := by
  simp only [step, hret]

theorem live_subset_palloc (w : World) (size : Nat) (mem : Option Nat) :
    ∀ r ∈ w.live, r ∈ (step w (.palloc size mem)).live := by
  intro r hr
  unfold step
  dsimp only
  split
  · exact List.mem_cons_of_mem _ hr
  · exact hr

theorem Inv.palloc_lt {w : World} (h : Inv w) {size addr : Nat} {mem : Option Nat}
    (hlegal : Legal w (.palloc size mem)) (hret : (ngxPalloc w.pool size mem).2 = some addr) :
    addr + size < wordSize := by
  obtain ⟨_, hmem⟩ := hlegal
  unfold ngxPalloc at hret
  by_cases hzero : size = 0
  · rw [if_pos hzero] at hret
    cases hret
  rw [if_neg hzero] at hret
  by_cases hlarge : pageSize - sizeofBlock < size
  · rw [if_pos hlarge] at hret
    cases mem with
    | none => cases hret
    | some base =>
        have hgrant := hmem base rfl
        rw [if_pos hlarge] at hgrant
        have hbound := hgrant.bounded
        cases hret
        simp only [Large.data]
        omega
  · rw [if_neg hlarge] at hret
    cases hfrom : allocateFrom size (w.pool.blocks.drop w.pool.curr) with
    | some r =>
        obtain ⟨pre, b, post, hdrop, hfits, rfl⟩ := allocateFrom_some hfrom
        rw [hfrom] at hret
        cases hret
        have hb : b ∈ w.pool.blocks := by
          apply List.mem_of_mem_drop
          rw [hdrop]
          simp
        have hok := h.blocks b hb
        have hend := hok.memAddr_add_le hfits
        have hstop := hok.stop_lt
        omega
    | none =>
        rw [hfrom] at hret
        cases mem with
        | none => cases hret
        | some block =>
            have hgrant := hmem block rfl
            rw [if_neg hlarge] at hgrant
            have hbound := hgrant.bounded
            cases hret
            simp only [newBlock]
            unfold pageSize sizeofBlock at *
            omega

theorem Inv.free {w : World} (h : Inv w) {p : Nat} (hlegal : Legal w (.free p)) :
    Inv (step w (.free p)) := by
  obtain ⟨r, hr, rfl⟩ := hlegal
  simp only [step, ngxFree, if_neg (h.live r hr).2.2]
  cases hfrom : releaseFrom r.addr w.pool.blocks with
  | some bs =>
      obtain ⟨pre, b, post, hblocks, hfound, rfl⟩ := releaseFrom_some hfrom
      exact h.release hr hblocks hfound
  | none => exact h.unlink hr (releaseFrom_none hfrom)

theorem Inv.poolSafe {w : World} (h : Inv w) : PoolSafe w := by
  have hplaced : ∀ r, (∃ f ∈ frames w, f.Inside r) ↔ ∃ b ∈ w.pool.blocks, b.frame.Inside r := by
    intro r
    simp [frames]
  constructor
  case aligned => exact fun r hr => (h.live r hr).2.1
  case placed =>
    intro r hr
    rw [← hplaced]
    exact h.placed r hr
  case disjoint => exact h.disjoint
  case ref => exact fun b hb => (h.blocks b hb).ref
  case reset => exact fun b hb => (h.blocks b hb).reset
  case large =>
    intro r
    constructor
    · rintro ⟨l, hl, rfl⟩
      have hlive := h.large_live l hl
      refine ⟨hlive, ?_⟩
      intro b hb hin
      exact h.layout.data_outside hl (h.live _ hlive).1 (List.mem_map_of_mem hb)
        ⟨hin.1, Nat.le_trans (Nat.le_add_right _ _) hin.2⟩
    · rintro ⟨hr, hout⟩
      rcases h.placed r hr with hblock | hlarge
      · obtain ⟨b, hb, hin⟩ := (hplaced r).mp hblock
        exact absurd hin (hout b hb)
      · exact hlarge
  case large_once =>
    refine List.pairwise_map.mpr (h.layout.data_ne.imp ?_)
    intro l l' hne heq
    exact hne (congrArg Region.addr heq)

theorem inv_init {size addr : Nat} (haligned : ngxAlignment ∣ addr)
    (hbound : addr + createSize size < wordSize) : Inv (World.init size addr) := by
  have hsize : pageSize ≤ createSize size := by
    unfold createSize
    split <;> omega
  have hframes : frames (World.init size addr) =
      [⟨addr + sizeofPool, addr + sizeofPool + sizeofBlock, addr + pageSize⟩] := rfl
  constructor
  case layout =>
    rw [hframes]
    refine ⟨by simp, List.pairwise_singleton _ _, ?_, ?_, List.Pairwise.nil⟩
    · intro f hf
      rw [List.mem_singleton.mp hf]
      refine ⟨_, List.mem_cons_self, ?_, ?_⟩
      · simp only [World.init]
        omega
      · simp only [World.init, Region.stop]
        omega
    · intro l hl
      cases hl
  case blocks =>
    intro b hb
    rw [List.mem_singleton.mp hb]
    refine ⟨?counts, fun _ => rfl⟩
    constructor
    case stop_lt =>
      simp only
      omega
    case ref => rfl
    case below =>
      intro r hr
      cases hr
    all_goals
      simp only [sizeofPool, sizeofBlock, pageSize, ngxAlignment] at haligned ⊢
      omega
  case curr => exact Nat.zero_lt_one
  case disjoint => exact List.Pairwise.nil
  all_goals
    intro r hr
    cases hr

theorem Inv.step {w : World} {op : Op} (h : Inv w) (hlegal : Legal w op) :
    Inv (Pool.step w op) := by
  cases op with
  | palloc size mem => exact h.palloc hlegal
  | free p => exact h.free hlegal

theorem always_inv {size addr : Nat} (haligned : ngxAlignment ∣ addr)
    (hbound : addr + createSize size < wordSize) {ops : List Op}
    (hlegal : Guarded step Legal (World.init size addr) ops) :
    Always step Inv (World.init size addr) ops :=
  always_of_guarded (fun _ _ hw hop => hw.step hop) (inv_init haligned hbound) hlegal

/-- In every run of a new pool, every state is safe. -/
theorem ngxPool_safe (size addr : Nat) (haligned : ngxAlignment ∣ addr)
    (hbound : addr + createSize size < wordSize) (ops : List Op)
    (hlegal : Guarded step Legal (World.init size addr) ops) :
    Always step PoolSafe (World.init size addr) ops :=
  (always_inv haligned hbound hlegal).mono fun _ => Inv.poolSafe

/-- A run that opens a second page, uses a large node, empties the first page
and frees in another order than it allocated. -/
theorem ngxPool_safe_run :
    Always step PoolSafe (World.init 1000 4096)
      [.palloc 4000 none, .palloc 100 (some 8192), .palloc 5000 (some 16384), .palloc 3 none,
        .free 4168, .free 16400, .palloc 13 none, .free 8240] :=
  ngxPool_safe 1000 4096 (by decide) (by decide) _ (by decide +kernel)

end NetTest.Pool
