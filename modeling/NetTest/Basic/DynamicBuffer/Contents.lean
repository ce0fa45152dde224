import NetTest.Basic.DynamicBuffer.Model
import NetTest.Lib.Runs

/-!
# The contents of a growing buffer

What is below `size_` survives every growth: the old bytes are copied to the start
of the new allocation, and the zero that `reserve` writes at its very end lies behind
them.  The readers take `size_` bytes from `head_` on, so they leave the contents
wherever `head_` is not zero.
-/

namespace NetTest.DynamicBuffer

open Runs Wrapping

def contents (s : DynamicBuffer) : List UInt8 := s.load 0 s.size

structure Valid (s : DynamicBuffer) : Prop where
  size_le : s.size ≤ s.capacity
  capacity_lt : s.capacity < sizeT
  allocated : s.data = none → s.capacity = 0
  expand_pos : 0 < s.expandSize

/-- A size is there already, or the steps to it do not wrap. -/
def Roomy (s : DynamicBuffer) (size : Nat) : Prop :=
  size ≤ s.capacity ∨
    s.capacity + (size - s.capacity + s.expandSize - 1) / s.expandSize * s.expandSize < sizeT

/-- No sum wraps, and the buffer can grow. -/
def NoWrap (s : DynamicBuffer) : Op → Prop
  | .append data _ => Roomy s (s.size + data.length)
  | .reserve size _ => Roomy s size
  | .resize size _ => Roomy s size
  | .setExpandSize size => 0 < size
  | .clear _ => True

instance (s : DynamicBuffer) (size : Nat) : Decidable (Roomy s size) :=
  inferInstanceAs (Decidable (_ ∨ _))

instance (s : DynamicBuffer) : ∀ op : Op, Decidable (NoWrap s op)
  | .append data _ => inferInstanceAs (Decidable (Roomy s (s.size + data.length)))
  | .reserve size _ => inferInstanceAs (Decidable (Roomy s size))
  | .resize size _ => inferInstanceAs (Decidable (Roomy s size))
  | .setExpandSize size => inferInstanceAs (Decidable (0 < size))
  | .clear _ => inferInstanceAs (Decidable True)

def Changes (s s' : DynamicBuffer) : Op → Prop
  | .append data _ => s'.contents = s.contents ++ data ∧ s'.size = s.size + data.length
  | .reserve _ _ => s'.contents = s.contents ∧ s'.size = s.size
  | .resize size _ =>
      s'.contents.take (min s.size size) = s.contents.take (min s.size size) ∧ s'.size = size
  | .setExpandSize size => s' = { s with expandSize := size }
  | .clear _ => s'.size = 0

/-- The memory that a call may be given. -/
def Op.fresh : Op → Option Memory
  | .append _ fresh => fresh
  | .reserve _ fresh => fresh
  | .resize _ fresh => fresh
  | .setExpandSize _ => none
  | .clear _ => none

/-- A call returns, unless there is no memory, with the contents that were asked for
and all writes inside the allocation. -/
def Keeps (s : DynamicBuffer) (op : Op) : Prop :=
  match s.call op with
  | .done s' writes =>
      s'.size ≤ s'.capacity ∧ (∀ w ∈ writes, w.Within ⟨0, s'.capacity⟩) ∧ Changes s s' op
  | .thrown => op.fresh = none
  | .running => False

/-! ## Loads -/

variable {s : DynamicBuffer} {size count k : Nat}

theorem take_load (s : DynamicBuffer) (h : k ≤ count) : (s.load 0 count).take k = s.load 0 k := by
  unfold load
  cases s.data with
  | none => exact List.take_nil
  | some m => exact m.take_load 0 h

theorem Valid.length_load (hs : Valid s) (h : count ≤ s.capacity) :
    (s.load 0 count).length = count := by
  unfold load
  cases hdata : s.data with
  | none =>
      have hzero := hs.allocated hdata
      exact (Nat.eq_zero_of_le_zero (by omega)).symm
  | some m => exact m.length_load 0 count

/-- The copy of `append`. -/
def write (s : DynamicBuffer) (bytes : List UInt8) : DynamicBuffer :=
  { s with
    data := s.data.map fun m => m.store s.size bytes
    size := s.size + bytes.length }

theorem contents_write (hs : Valid s) {bytes : List UInt8} (h : s.size + bytes.length ≤ s.capacity) :
    (s.write bytes).contents = s.contents ++ bytes := by
  show (s.write bytes).load 0 (s.size + bytes.length) = s.load 0 s.size ++ bytes
  unfold load write
  cases hdata : s.data with
  | none =>
      have hzero := hs.allocated hdata
      have hnil : bytes = [] := List.eq_nil_of_length_eq_zero (by omega)
      rw [hnil]
      rfl
  | some m =>
      show (m.store s.size bytes).load 0 (s.size + bytes.length) = m.load 0 s.size ++ bytes
      have hself := m.load_store_self s.size bytes
      rw [Memory.load_add, Memory.load_store_of_disjoint m (Or.inl (by omega)), Nat.zero_add, hself]

/-! ## Growth -/

structure Reserved (s s' : DynamicBuffer) (size : Nat) (writes : List Region) : Prop where
  valid : Valid s'
  size_eq : s'.size = s.size
  enough : size ≤ s'.capacity
  kept : s'.load 0 s.size = s.load 0 s.size
  inside : ∀ w ∈ writes, w.Within ⟨0, s'.capacity⟩

theorem allocateSize_of_roomy (hs : Valid s) (hgrow : s.capacity < size) (hroom : Roomy s size) :
    ∃ allocate, s.allocateSize size = some allocate ∧ size ≤ allocate ∧ allocate < sizeT := by
  rcases hroom with hle | hlt
  · omega
  · have hclimb := Stride.climb_of_room hs.expand_pos (Nat.le_of_lt hgrow) hlt
    rcases Stride.first_of_climb hs.capacity_lt hclimb with ⟨_, _, hle, _⟩
    exact ⟨_, hclimb, hle, hlt⟩

theorem reserved_of_alloc (hs : Valid s) {allocate : Nat} (hgrow : s.capacity < allocate)
    (hle : size ≤ allocate) (hlt : allocate < sizeT) (fresh : Memory) :
    Reserved s
      { s with
        data := some ((fresh.store 0 (s.load 0 s.size)).store (allocate - 1) [0])
        capacity := allocate }
      size [⟨0, s.size⟩, ⟨allocate - 1, 1⟩] := by
  have hsize := hs.size_le
  have hlen := hs.length_load hsize
  constructor
  · constructor
    · show s.size ≤ allocate
      omega
    · exact hlt
    · intro hnone
      cases hnone
    · exact hs.expand_pos
  · rfl
  · exact hle
  · -- the zero at the end lies behind the bytes that were copied
    have hcopied := fresh.load_store_self 0 (s.load 0 s.size)
    rw [hlen] at hcopied
    show ((fresh.store 0 (s.load 0 s.size)).store (allocate - 1) [0]).load 0 s.size = _
    rw [Memory.load_store_of_disjoint _ (Or.inl (by omega)), hcopied]
  · intro w hw
    show w.Within ⟨0, allocate⟩
    simp only [List.mem_cons, List.not_mem_nil, or_false] at hw
    rcases hw with rfl | rfl
    · exact Region.within_of_le (by omega)
    · rw [Region.within_zero_iff]
      exact Nat.le_of_eq (Nat.sub_add_cancel (by omega))

theorem reserve_spec (hs : Valid s) (hroom : Roomy s size) (fresh : Option Memory) :
    (fresh = none ∧ s.reserve size fresh = .thrown) ∨
      ∃ s' writes, s.reserve size fresh = .done s' writes ∧ Reserved s s' size writes := by
  by_cases hle : size ≤ s.capacity
  · right
    exact ⟨s, [], if_pos hle, hs, rfl, hle, rfl, fun w hw => (List.not_mem_nil hw).elim⟩
  · have hgrow := Nat.lt_of_not_le hle
    rcases allocateSize_of_roomy hs hgrow hroom with ⟨allocate, hloop, henough, hlt⟩
    cases fresh with
    | none =>
        left
        exact ⟨rfl, by rw [reserve, if_neg hle, hloop]⟩
    | some fresh =>
        right
        refine ⟨_, _, ?_, reserved_of_alloc hs (by omega) henough hlt fresh⟩
        rw [reserve, if_neg hle, hloop]

theorem lt_of_roomy (hs : Valid s) (hroom : Roomy s size) : size < sizeT := by
  have hcap := hs.capacity_lt
  rcases Nat.lt_or_ge s.capacity size with hgrow | hle
  · rcases allocateSize_of_roomy hs hgrow hroom with ⟨allocate, _, henough, hlt⟩
    omega
  · omega

/-! ## The calls -/

theorem keeps_reserve (hs : Valid s) (hroom : Roomy s size) (fresh : Option Memory) :
    Valid (step s (.reserve size fresh)) ∧ Keeps s (.reserve size fresh) := by
  unfold step Keeps
  rcases reserve_spec hs hroom fresh with ⟨hnone, hthrown⟩ | ⟨s', writes, hdone, hreserved⟩
  · rw [call, hthrown]
    exact ⟨hs, hnone⟩
  · rw [call, hdone]
    refine ⟨hreserved.valid, hreserved.valid.size_le, hreserved.inside, ?_, hreserved.size_eq⟩
    rw [contents, hreserved.size_eq]
    exact hreserved.kept

theorem keeps_resize (hs : Valid s) (hroom : Roomy s size) (fresh : Option Memory) :
    Valid (step s (.resize size fresh)) ∧ Keeps s (.resize size fresh) := by
  unfold step Keeps
  rcases reserve_spec hs hroom fresh with ⟨hnone, hthrown⟩ | ⟨s', writes, hdone, hreserved⟩
  · rw [call, resize, hthrown]
    exact ⟨hs, hnone⟩
  · have hvalid := hreserved.valid
    rw [call, resize, hdone]
    constructor
    · exact ⟨hreserved.enough, hvalid.capacity_lt, hvalid.allocated, hvalid.expand_pos⟩
    · refine ⟨hreserved.enough, hreserved.inside, ?_, rfl⟩
      show (s'.load 0 size).take (min s.size size) = (s.load 0 s.size).take (min s.size size)
      rw [take_load s' (Nat.min_le_right _ _), ← take_load s' (Nat.min_le_left s.size size),
        hreserved.kept]

theorem keeps_append (hs : Valid s) (data : List UInt8) (hroom : Roomy s (s.size + data.length))
    (fresh : Option Memory) :
    Valid (step s (.append data fresh)) ∧ Keeps s (.append data fresh) := by
  have hmod := Nat.mod_eq_of_lt (lt_of_roomy hs hroom)
  unfold step Keeps
  rcases reserve_spec hs hroom fresh with ⟨hnone, hthrown⟩ | ⟨s', writes, hdone, hreserved⟩
  · rw [call, append, hmod, hthrown]
    exact ⟨hs, hnone⟩
  · have hvalid := hreserved.valid
    have hsize := hreserved.size_eq
    have henough := hreserved.enough
    have hwrite : call s (.append data fresh) =
        .done (s'.write data) (writes ++ [⟨s.size, data.length⟩]) := by
      rw [call, append, hmod, hdone]
      simp only [write, hsize, hmod]
    have hfit : s'.size + data.length ≤ s'.capacity := by omega
    have hlast : Region.Within ⟨s.size, data.length⟩ ⟨0, s'.capacity⟩ :=
      Region.within_zero_iff.mpr henough
    rw [hwrite]
    constructor
    · refine ⟨hfit, hvalid.capacity_lt, ?_, hvalid.expand_pos⟩
      intro hnone
      exact hvalid.allocated (Option.map_eq_none_iff.mp hnone)
    · refine ⟨hfit, ?_, ?_, ?_⟩
      · intro w hw
        rcases List.mem_append.mp hw with hearlier | hnew
        · exact hreserved.inside w hearlier
        · rw [List.mem_singleton.mp hnew]
          exact hlast
      · rw [contents_write hvalid hfit, contents, hsize, hreserved.kept, contents]
      · rw [write, hsize]

theorem keeps_clear (hs : Valid s) (resetCapacity : Bool) :
    Valid (step s (.clear resetCapacity)) ∧ Keeps s (.clear resetCapacity) := by
  have hpos : 0 < sizeT := by decide
  unfold step Keeps
  rw [call, clear]
  by_cases hreset : (resetCapacity && s.data.isSome) = true
  · rw [if_pos hreset]
    constructor
    · exact ⟨Nat.le_refl 0, hpos, fun _ => rfl, hs.expand_pos⟩
    · exact ⟨Nat.le_refl 0, fun w hw => (List.not_mem_nil hw).elim, rfl⟩
  · rw [if_neg hreset]
    constructor
    · exact ⟨Nat.zero_le _, hs.capacity_lt, hs.allocated, hs.expand_pos⟩
    · exact ⟨Nat.zero_le _, fun w hw => (List.not_mem_nil hw).elim, rfl⟩

theorem keeps_of_noWrap (s : DynamicBuffer) (op : Op) (hs : Valid s) (hop : NoWrap s op) :
    Valid (step s op) ∧ Keeps s op := by
  cases op with
  | append data fresh => exact keeps_append hs data hop fresh
  | reserve size fresh => exact keeps_reserve hs hop fresh
  | resize size fresh => exact keeps_resize hs hop fresh
  | setExpandSize size =>
      constructor
      · exact ⟨hs.size_le, hs.capacity_lt, hs.allocated, hop⟩
      · exact ⟨hs.size_le, fun w hw => (List.not_mem_nil hw).elim, rfl⟩
  | clear resetCapacity => exact keeps_clear hs resetCapacity

/-! ## Runs -/

theorem valid_create : Valid create where
  size_le := Nat.le_refl 0
  capacity_lt := by decide
  allocated := fun _ => rfl
  expand_pos := by decide

/-- In every run without a wrap each call does to the contents what it is to do, and
the size stays within the capacity. -/
theorem contents_kept (ops : List Op) (hops : Guarded step NoWrap create ops) :
    Guarded step Keeps create ops ∧ Always step (fun s => s.size ≤ s.capacity) create ops := by
  constructor
  · exact guarded_of_inv Valid keeps_of_noWrap valid_create hops
  · apply Always.mono (fun s hs => Valid.size_le hs)
    exact always_of_guarded (fun s op hs hop => (keeps_of_noWrap s op hs hop).1) valid_create hops

/-- Two growths with a changed step, a cut and a reset in between. -/
theorem contents_kept_mixed :
    let fresh : Option Memory := some fun _ => 120
    let ops : List Op :=
      [.append [97, 98, 99] fresh, .setExpandSize 1, .resize 2 fresh, .reserve 300 none,
        .reserve 258 fresh, .append [100] fresh, .clear true, .append [101] fresh]
    Guarded step Keeps create ops ∧ Always step (fun s => s.size ≤ s.capacity) create ops :=
  contents_kept _ (by decide +kernel)

/-! ## Readers -/

/-- The readers stay below `size_`, and the string is what lies from `head_` on. -/
structure Reads (s : DynamicBuffer) : Prop where
  string_inside : s.toString.1.Within ⟨0, s.size⟩
  string_exact : s.toString.2 = s.contents.drop s.head
  as_inside : ∀ sizeofT r, s.as sizeofT = some r → r.Within ⟨0, s.size⟩

theorem reads_of_head_zero (h : s.head = 0) : Reads s := by
  constructor
  · rw [toString, h]
    exact Region.within_of_le (Nat.le_refl s.size)
  · rw [toString, h, List.drop_zero, contents]
  · intro sizeofT r hr
    rw [as] at hr
    by_cases hlarge : s.size < sizeofT
    · rw [if_pos hlarge] at hr
      cases hr
    · rw [if_neg hlarge, h] at hr
      cases hr
      exact Region.within_of_le (Nat.le_of_not_lt hlarge)

/-- Whatever a buffer has been through, its readers are right exactly as long as the
head is zero. -/
theorem reads_iff (ops : List Op) (head : Nat) :
    Reads ((ops.foldl step create).setHeadSize head) ↔ head = 0 := by
  constructor
  · intro h
    have hinside := Region.within_zero_iff.mp h.string_inside
    simp only [toString, setHeadSize, Region.stop] at hinside
    omega
  · intro h
    exact reads_of_head_zero h

/-- The string of `"ab"` from 1 on has two bytes, and the second of them was never
written. -/
theorem not_reads_two :
    let ops : List Op := [.append [97, 98] (some fun _ => 120)]
    let s := (ops.foldl step create).setHeadSize 1
    s.toString = (⟨1, 2⟩, [98, 120]) ∧ ¬ Reads s := by
  intro ops s
  have hstring : s.toString = (⟨1, 2⟩, [98, 120]) := by decide +kernel
  refine ⟨hstring, ?_⟩
  intro h
  have hinside := h.string_inside
  rw [hstring] at hinside
  have hsize : s.size = 2 := by decide +kernel
  rw [hsize] at hinside
  revert hinside
  decide

end NetTest.DynamicBuffer
