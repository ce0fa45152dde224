import Mathlib.Algebra.Group.Nat.Defs
import Mathlib.Data.List.GetD
import Mathlib.Data.Nat.Init
import NetTest.Lib.Regions

/-!
# Byte memory

Memory is a function from addresses to bytes.  Machine words are stored in
little-endian order.
-/

namespace NetTest

abbrev Memory := Nat → UInt8

namespace Memory

def load (m : Memory) (addr count : Nat) : List UInt8 :=
  (List.range count).map fun i => m (addr + i)

def store (m : Memory) (addr : Nat) (bytes : List UInt8) : Memory := fun a =>
  if addr ≤ a ∧ a < addr + bytes.length then bytes.getD (a - addr) 0 else m a

theorem load_congr {m m' : Memory} {addr count : Nat}
    (h : ∀ a, addr ≤ a → a < addr + count → m a = m' a) : load m addr count = load m' addr count := by
  apply List.map_congr_left
  intro i hi
  have hlt := List.mem_range.mp hi
  exact h (addr + i) (Nat.le_add_right _ _) (by omega)

@[simp] theorem length_load (m : Memory) (addr count : Nat) : (load m addr count).length = count := by
  simp [load]

theorem load_add (m : Memory) (addr x y : Nat) :
    load m addr (x + y) = load m addr x ++ load m (addr + x) y := by
  simp [load, List.range_add, Nat.add_assoc]

theorem drop_load (m : Memory) (addr count k : Nat) :
    (load m addr count).drop k = load m (addr + k) (count - k) := by
  rcases Nat.lt_or_ge count k with hlt | hle
  · rw [List.drop_eq_nil_iff.mpr (by rw [length_load]; omega), Nat.sub_eq_zero_of_le (Nat.le_of_lt hlt)]
    rfl
  · have hsplit := load_add m addr k (count - k)
    rw [Nat.add_sub_cancel' hle] at hsplit
    rw [hsplit, List.drop_left' (length_load m addr k)]

theorem take_load (m : Memory) (addr : Nat) {count k : Nat} (h : k ≤ count) :
    (load m addr count).take k = load m addr k := by
  have hsplit := load_add m addr k (count - k)
  rw [Nat.add_sub_cancel' h] at hsplit
  rw [hsplit, List.take_left' (length_load m addr k)]

theorem store_load (m : Memory) (addr count : Nat) : store m addr (load m addr count) = m := by
  funext a
  unfold store
  split
  · rename_i h
    rw [length_load] at h
    simp only [load, List.getD_eq_getElem?_getD, List.getElem?_map,
      List.getElem?_range (show a - addr < count by omega), Option.map_some, Option.getD_some]
    congr 1
    omega
  · rfl

theorem load_store_of_disjoint (m : Memory) {addr count other : Nat} {bytes : List UInt8}
    (h : addr + count ≤ other ∨ other + bytes.length ≤ addr) :
    load (store m other bytes) addr count = load m addr count := by
  apply load_congr
  intro a hlow hhigh
  exact if_neg (by omega)

theorem load_store_self (m : Memory) (addr : Nat) (bytes : List UInt8) :
    load (store m addr bytes) addr bytes.length = bytes := by
  apply List.ext_getElem
  · simp [load]
  · intro i hi _
    simp only [load, List.length_map, List.length_range] at hi
    simp [load, store, hi]

theorem store_nil (m : Memory) (addr : Nat) : store m addr [] = m := by
  funext a
  apply if_neg
  simp only [List.length_nil]
  omega

theorem store_append (m : Memory) (addr : Nat) (x y : List UInt8) :
    store (store m addr x) (addr + x.length) y = store m addr (x ++ y) := by
  funext a
  unfold store
  rw [List.length_append]
  by_cases hy : addr + x.length ≤ a ∧ a < addr + x.length + y.length
  · rw [if_pos hy, if_pos (by omega), List.getD_append_right _ _ _ _ (by omega)]
    congr 1
    omega
  · rw [if_neg hy]
    by_cases hx : addr ≤ a ∧ a < addr + x.length
    · rw [if_pos hx, if_pos (by omega), List.getD_append _ _ _ _ (by omega)]
    · rw [if_neg hx, if_neg (by omega)]

theorem load_store_left (m : Memory) (addr : Nat) (x y : List UInt8) :
    load (store m addr (x ++ y)) addr x.length = x := by
  rw [← store_append, load_store_of_disjoint _ (.inl (by omega)), load_store_self]

theorem load_store_inside (m : Memory) (addr : Nat) {k count : Nat} {bytes : List UInt8}
    (h : k + bytes.length ≤ count) :
    load (store m (addr + k) bytes) addr count =
      (load m addr count).take k ++ bytes ++ (load m addr count).drop (k + bytes.length) := by
  have hcount : k + bytes.length + (count - (k + bytes.length)) = count := by omega
  have hsplit := load_add (store m (addr + k) bytes) addr (k + bytes.length)
    (count - (k + bytes.length))
  rw [hcount, load_add _ _ k] at hsplit
  rw [hsplit, load_store_of_disjoint m (.inl (Nat.le_refl _)), load_store_self,
    load_store_of_disjoint m (.inr (by omega)), take_load m addr (by omega), drop_load]

/-- Nothing but the region has changed. -/
def SameOutside (r : Region) (m m' : Memory) : Prop := ∀ a, a < r.addr ∨ r.stop ≤ a → m' a = m a

theorem SameOutside.refl (r : Region) (m : Memory) : SameOutside r m m := fun _ _ => rfl

theorem SameOutside.trans {r : Region} {m m' m'' : Memory} (h : SameOutside r m m')
    (h' : SameOutside r m' m'') : SameOutside r m m'' := fun a ha => (h' a ha).trans (h a ha)

theorem SameOutside.mono {r s : Region} {m m' : Memory} (h : SameOutside r m m')
    (hrs : r.Within s) : SameOutside s m m' := by
  intro a ha
  obtain ⟨hlow, hhigh⟩ := hrs
  exact h a (by omega)

theorem sameOutside_store (m : Memory) (addr : Nat) (bytes : List UInt8) :
    SameOutside ⟨addr, bytes.length⟩ m (store m addr bytes) := by
  intro a ha
  apply if_neg
  simp only [Region.stop] at ha
  omega

theorem SameOutside.load {r : Region} {m m' : Memory} (h : SameOutside r m m') {addr count : Nat}
    (hdisjoint : Region.Disjoint ⟨addr, count⟩ r) : load m' addr count = load m addr count := by
  apply load_congr
  intro a hlow hhigh
  apply h
  simp only [Region.Disjoint, Region.stop] at hdisjoint ⊢
  omega

/-! ## Words -/

/-- The `count` low bytes of a number, lowest first. -/
def encode : Nat → Nat → List UInt8
  | 0, _ => []
  | count + 1, n => UInt8.ofNat n :: encode count (n / 256)

def decode : List UInt8 → Nat
  | [] => 0
  | b :: bytes => b.toNat + 256 * decode bytes

@[simp] theorem length_encode (count n : Nat) : (encode count n).length = count := by
  induction count generalizing n with
  | zero => rfl
  | succ count ih => simp [encode, ih]

theorem decode_encode (count n : Nat) : decode (encode count n) = n % 256 ^ count := by
  induction count generalizing n with
  | zero => simp [encode, decode, Nat.mod_one]
  | succ count ih =>
      have hbyte : (UInt8.ofNat n).toNat = n % 256 := rfl
      rw [encode, decode, ih, hbyte, Nat.pow_succ, Nat.mul_comm (256 ^ count) 256, Nat.mod_mul]

def load64 (m : Memory) (addr : Nat) : Nat := decode (load m addr 8)

def store64 (m : Memory) (addr n : Nat) : Memory := store m addr (encode 8 n)

theorem load64_store64_self (m : Memory) (addr n : Nat) :
    load64 (store64 m addr n) addr = n % 2 ^ 64 := by
  have hload := load_store_self m addr (encode 8 n)
  rw [length_encode] at hload
  have hpow : (256 : Nat) ^ 8 = 2 ^ 64 := by decide
  rw [load64, store64, hload, decode_encode, hpow]

theorem load64_store64_of_disjoint (m : Memory) {addr other : Nat} (n : Nat)
    (h : addr + 8 ≤ other ∨ other + 8 ≤ addr) : load64 (store64 m other n) addr = load64 m addr := by
  rw [load64, store64, load_store_of_disjoint m (by simpa using h), load64]

theorem SameOutside.load64 {r : Region} {m m' : Memory} (h : SameOutside r m m') {addr : Nat}
    (hdisjoint : Region.Disjoint ⟨addr, 8⟩ r) : load64 m' addr = load64 m addr := by
  rw [Memory.load64, h.load hdisjoint, Memory.load64]

theorem sameOutside_store64 (m : Memory) (addr n : Nat) :
    SameOutside ⟨addr, 8⟩ m (store64 m addr n) := by
  have h := sameOutside_store m addr (encode 8 n)
  rw [length_encode] at h
  exact h

end Memory

end NetTest
