/-!
# Regions of memory

Stretches of addresses, and when two of them share none.
-/

namespace NetTest

structure Region where
  addr : Nat
  size : Nat
  deriving DecidableEq

namespace Region

def stop (r : Region) : Nat := r.addr + r.size

def Disjoint (r s : Region) : Prop := r.stop ≤ s.addr ∨ s.stop ≤ r.addr

def Within (r s : Region) : Prop := s.addr ≤ r.addr ∧ r.stop ≤ s.stop

instance (r s : Region) : Decidable (Disjoint r s) := inferInstanceAs (Decidable (_ ∨ _))

instance (r s : Region) : Decidable (Within r s) := inferInstanceAs (Decidable (_ ∧ _))

theorem within_of_le {addr size size' : Nat} (h : size ≤ size') :
    Within ⟨addr, size⟩ ⟨addr, size'⟩ := ⟨Nat.le_refl _, Nat.add_le_add_left h _⟩

theorem within_iff_le {addr size size' : Nat} :
    Within ⟨addr, size⟩ ⟨addr, size'⟩ ↔ size ≤ size' :=
  ⟨fun h => Nat.le_of_add_le_add_left h.2, within_of_le⟩

theorem within_offset {addr k size size' : Nat} (h : k + size ≤ size') :
    Within ⟨addr + k, size⟩ ⟨addr, size'⟩ := by
  constructor
  · exact Nat.le_add_right addr k
  · unfold stop
    simp only
    omega

theorem within_zero_iff {r : Region} {size : Nat} : r.Within ⟨0, size⟩ ↔ r.stop ≤ size := by
  unfold Within stop
  simp only
  omega

theorem Disjoint.symm {r s : Region} (h : Disjoint r s) : Disjoint s r := Or.symm h

theorem Disjoint.mono {r s r' s' : Region} (h : Disjoint r s) (hr : Within r' r)
    (hs : Within s' s) : Disjoint r' s' := by
  unfold Disjoint Within at *
  omega

theorem Disjoint.addr_ne {r s : Region} (h : Disjoint r s) (hr : 0 < r.size) (hs : 0 < s.size) :
    r.addr ≠ s.addr := by
  unfold Disjoint stop at h
  omega

end Region

end NetTest
