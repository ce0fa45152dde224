import Mathlib.Order.Defs.Unbundled
import Mathlib.Logic.Equiv.Basic

/-!
# Order in an implicit binary tree

A level-order tree is an array `a : Nat → α` of which the first `n` cells count;
cell `i > 0` hangs below cell `parent i`.  The order is a strict weak order
`lt`, and a heap has no cell that is `lt`-above its parent.

`UpReady` and `DownReady` are the states of an array in which a single cell is
out of place; one exchange moves the misplaced cell along its path and keeps
the state.  `DownReady` speaks about a chosen set of edges so that it also
describes the repair of one subtree.
-/

namespace NetTest.BinaryHeap

variable {α : Type*} {lt : α → α → Prop}

def parent (i : Nat) : Nat := (i - 1) / 2

theorem parent_lt {i : Nat} (h : 0 < i) : parent i < i := by
  unfold parent
  omega

theorem child_cases {c i : Nat} (hc : 0 < c) (h : parent c = i) :
    c = 2 * i + 1 ∨ c = 2 * i + 2 := by
  unfold parent at h
  omega

@[simp] theorem parent_left (i : Nat) : parent (2 * i + 1) = i := by
  unfold parent
  omega

@[simp] theorem parent_right (i : Nat) : parent (2 * i + 2) = i := by
  unfold parent
  omega

/-! ## Strict weak orders -/

section Order

variable [IsStrictWeakOrder α lt]

/-- In a strict weak order "not below" is transitive. -/
theorem not_lt_trans {a b c : α} (hab : ¬ lt a b) (hbc : ¬ lt b c) : ¬ lt a c := by
  intro hac
  have hba : ¬ lt b a := fun h => hbc (IsTrans.trans _ _ _ h hac)
  have hcb : ¬ lt c b := fun h => hab (IsTrans.trans _ _ _ hac h)
  exact (IsStrictWeakOrder.incomp_trans a b c ⟨hab, hba⟩ ⟨hbc, hcb⟩).1 hac

theorem not_lt_of_lt {a b : α} (h : lt a b) : ¬ lt b a := asymm h

end Order

/-! ## Ordered arrays -/

def OrderedOn (lt : α → α → Prop) (E : Nat → Prop) (a : Nat → α) (n : Nat) : Prop :=
  ∀ j, E j → 0 < j → j < n → ¬ lt (a (parent j)) (a j)

/-- The heap order: no cell is above its parent. -/
abbrev Ordered (lt : α → α → Prop) (a : Nat → α) (n : Nat) : Prop :=
  OrderedOn lt (fun _ => True) a n

/-- The root of a heap is not below any cell. -/
theorem Ordered.root [IsStrictWeakOrder α lt] {a : Nat → α} {n : Nat} (h : Ordered lt a n)
    {i : Nat} (hi : i < n) : ¬ lt (a 0) (a i) := by
  induction i using Nat.strongRecOn with
  | ind i ih =>
      rcases Nat.eq_zero_or_pos i with rfl | hpos
      · exact irrefl _
      · have hp := parent_lt hpos
        exact not_lt_trans (ih (parent i) hp (by omega)) (h i trivial hpos hi)

/-! ## Moving a cell up -/

/-- Only the edge into `i` may be out of order, and the parent of `i` may take
its place above the children of `i`. -/
structure UpReady (lt : α → α → Prop) (a : Nat → α) (n i : Nat) : Prop where
  except : ∀ j, j ≠ i → 0 < j → j < n → ¬ lt (a (parent j)) (a j)
  grand : 0 < i → ∀ c, parent c = i → 0 < c → c < n → ¬ lt (a (parent i)) (a c)

theorem UpReady.finish {a : Nat → α} {n i : Nat} (h : UpReady lt a n i)
    (hstop : 0 < i → ¬ lt (a (parent i)) (a i)) : Ordered lt a n := by
  intro j _ hpos hlt
  by_cases hj : j = i
  · subst hj
    exact hstop hpos
  · exact h.except j hj hpos hlt

theorem swap_apply_ne {a : Nat → α} {i j k : Nat} (hi : k ≠ i) (hj : k ≠ j) :
    (a ∘ Equiv.swap i j) k = a k := by
  simp [Equiv.swap_apply_of_ne_of_ne hi hj]

theorem UpReady.move [IsStrictWeakOrder α lt] {a : Nat → α} {n i : Nat}
    (h : UpReady lt a n i) (hpos : 0 < i) (hi : i < n) (hlt : lt (a (parent i)) (a i)) :
    UpReady lt (a ∘ Equiv.swap (parent i) i) n (parent i) := by
  have hp := parent_lt hpos
  -- the edge above the parent, which the exchange passes on to the old cell
  have habove : 0 < parent i → ¬ lt (a (parent (parent i))) (a (parent i)) := fun hpp =>
    h.except (parent i) (by omega) hpp (by omega)
  constructor
  · intro j hj hjpos hjn
    by_cases hji : j = i
    · subst hji
      simpa using not_lt_of_lt hlt
    · rw [swap_apply_ne hj hji]
      by_cases hjp : parent j = parent i
      · have hsib : ¬ lt (a (parent i)) (a j) := hjp ▸ h.except j hji hjpos hjn
        have hup : ¬ lt (a i) (a (parent i)) := not_lt_of_lt hlt
        simpa [hjp] using not_lt_trans hup hsib
      · by_cases hjc : parent j = i
        · simpa [hjc] using h.grand hpos j hjc hjpos hjn
        · rw [swap_apply_ne hjp hjc]
          exact h.except j hji hjpos hjn
  · intro hpp c hc hcpos hcn
    have hpp' := parent_lt hpp
    rw [swap_apply_ne (a := a) (k := parent (parent i)) (by omega) (by omega)]
    by_cases hci : c = i
    · subst hci
      simpa using habove hpp
    · have hcp : c ≠ parent i := by
        intro heq
        have := parent_lt hcpos
        omega
      rw [swap_apply_ne hcp hci]
      exact not_lt_trans (habove hpp) (hc ▸ h.except c hci hcpos hcn)

/-! ## Moving a cell down -/

/-- Only edges out of `i` may be out of order, and every child of `i` may take
the place of `i` below its parent. -/
structure DownReady (lt : α → α → Prop) (E : Nat → Prop) (a : Nat → α) (n i : Nat) : Prop where
  except : ∀ j, E j → parent j ≠ i → 0 < j → j < n → ¬ lt (a (parent j)) (a j)
  grand : E i → 0 < i → ∀ c, parent c = i → 0 < c → c < n → ¬ lt (a (parent i)) (a c)

theorem DownReady.finish {E : Nat → Prop} {a : Nat → α} {n i : Nat} (h : DownReady lt E a n i)
    (hstop : ∀ c, parent c = i → 0 < c → c < n → ¬ lt (a i) (a c)) : OrderedOn lt E a n := by
  intro j hE hpos hlt
  by_cases hj : parent j = i
  · exact hj ▸ hstop j hj hpos hlt
  · exact h.except j hE hj hpos hlt

theorem OrderedOn.downReady [IsStrictWeakOrder α lt] {E : Nat → Prop} {a : Nat → α} {n i : Nat}
    (h : OrderedOn lt E a n) (hE : ∀ j, 0 < j → parent j = i → E j) (hi : i < n) :
    DownReady lt E a n i := by
  constructor
  · intro j hj _ hpos hlt
    exact h j hj hpos hlt
  · intro hEi hpos c hc hcpos hcn
    exact not_lt_trans (h i hEi hpos hi) (hc ▸ h c (hE c hcpos hc) hcpos hcn)

theorem DownReady.move [IsStrictWeakOrder α lt] {E : Nat → Prop} {a : Nat → α} {n i c : Nat}
    (h : DownReady lt E a n i) (hE : ∀ j, 0 < j → parent j = c → E j)
    (hc : parent c = i) (hcpos : 0 < c) (hcn : c < n) (hlt : lt (a i) (a c))
    (hmax : ∀ s, parent s = i → 0 < s → s < n → ¬ lt (a c) (a s)) :
    DownReady lt E (a ∘ Equiv.swap c i) n c := by
  have hi : i < c := hc ▸ parent_lt hcpos
  constructor
  · intro j hEj hjc hjpos hjn
    have hpj := parent_lt hjpos
    by_cases hjeqc : j = c
    · subst hjeqc
      simpa [hc] using not_lt_of_lt hlt
    · by_cases hji : j = i
      · -- the exchange lifts `c` below the parent of `i`
        subst hji
        rw [swap_apply_ne (a := a) (k := parent j) (by omega) (by omega)]
        simpa using h.grand hEj hjpos c hc hcpos hcn
      · rw [swap_apply_ne hjeqc hji]
        by_cases hjp : parent j = i
        · simpa [hjp] using hmax j hjp hjpos hjn
        · rw [swap_apply_ne hjc hjp]
          exact h.except j hEj hjp hjpos hjn
  · intro _ _ d hd hdpos hdn
    have hdc := parent_lt hdpos
    rw [swap_apply_ne (a := a) (k := d) (by omega) (by omega)]
    have hedge : ¬ lt (a c) (a d) :=
      hd ▸ h.except d (hE d hdpos hd) (by omega) hdpos hdn
    simpa [hc] using hedge

/-! ## Subtrees -/

inductive InSubtree (root : Nat) : Nat → Prop where
  | root : InSubtree root root
  | child {c : Nat} : 0 < c → InSubtree root (parent c) → InSubtree root c

theorem InSubtree.le {root i : Nat} (h : InSubtree root i) : root ≤ i := by
  induction h with
  | root => exact Nat.le_refl root
  | child hpos _ ih =>
      have hp := parent_lt hpos
      omega

/-- Only edges out of the root of the subtree may be out of order. -/
theorem downReady_root {a : Nat → α} {n root : Nat}
    (h : OrderedOn lt (fun j => InSubtree root (parent j) ∧ parent j ≠ root) a n) :
    DownReady lt (fun j => InSubtree root (parent j)) a n root := by
  constructor
  · intro j hj hne hpos hlt
    exact h j ⟨hj, hne⟩ hpos hlt
  · intro hroot hpos
    -- the parent of the root lies outside
    have hle := hroot.le
    have hp := parent_lt hpos
    omega

end NetTest.BinaryHeap
