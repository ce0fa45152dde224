import Mathlib.Data.List.Nodup
import Mathlib.Data.List.Perm.Basic

/-!
# Maps as lists of pairs

A finite map with its entries in some order.  `assign` is `m[k] = v`; the keys
of a map are pairwise distinct, and then looking a key up does not depend on the
order of the entries.  The last lemma is about lists whose members carry their
key inside.
-/

namespace NetTest.AssocList

variable {κ β : Type*}

def keys (m : List (κ × β)) : List κ := m.map Prod.fst

@[simp] theorem keys_nil : keys ([] : List (κ × β)) = [] := rfl

@[simp] theorem keys_cons (e : κ × β) (m : List (κ × β)) : keys (e :: m) = e.1 :: keys m := rfl

variable [BEq κ]

def assign (k : κ) (v : β) : List (κ × β) → List (κ × β)
  | [] => [(k, v)]
  | e :: m => if e.1 == k then (k, v) :: m else e :: assign k v m

theorem mem_assign {k : κ} {v : β} {m : List (κ × β)} {e : κ × β} (h : e ∈ assign k v m) :
    e = (k, v) ∨ e ∈ m := by
  induction m with
  | nil => exact .inl (List.mem_singleton.mp h)
  | cons d m ih =>
      rw [assign] at h
      split at h
      · rcases List.mem_cons.mp h with h | h
        · exact .inl h
        · exact .inr (List.mem_cons_of_mem _ h)
      · rcases List.mem_cons.mp h with h | h
        · exact .inr (h ▸ List.mem_cons_self)
        · rcases ih h with h | h
          · exact .inl h
          · exact .inr (List.mem_cons_of_mem _ h)

variable [LawfulBEq κ]

theorem lookup_assign_self (k : κ) (v : β) (m : List (κ × β)) :
    (assign k v m).lookup k = some v := by
  induction m with
  | nil => simp [assign]
  | cons e m ih =>
      rw [assign]
      split
      · simp
      · rename_i hne
        rw [List.lookup_cons, beq_false_of_ne fun heq => hne (beq_iff_eq.mpr heq.symm)]
        exact ih

theorem lookup_assign_of_ne {k k' : κ} (hne : k' ≠ k) (v : β) (m : List (κ × β)) :
    (assign k v m).lookup k' = m.lookup k' := by
  induction m with
  | nil => simp [assign, List.lookup_cons, beq_false_of_ne hne]
  | cons e m ih =>
      rw [assign]
      split
      · rename_i heq
        rw [List.lookup_cons, List.lookup_cons, beq_iff_eq.mp heq, beq_false_of_ne hne]
      · rw [List.lookup_cons, List.lookup_cons, ih]

theorem mem_keys_assign {k k' : κ} {v : β} {m : List (κ × β)} :
    k' ∈ keys (assign k v m) ↔ k' = k ∨ k' ∈ keys m := by
  induction m with
  | nil => simp [assign]
  | cons e m ih =>
      rw [assign]
      split
      · rename_i heq
        simp [beq_iff_eq.mp heq]
      · simp [ih, or_left_comm]

theorem nodup_keys_assign {k : κ} {v : β} {m : List (κ × β)} (h : (keys m).Nodup) :
    (keys (assign k v m)).Nodup := by
  induction m with
  | nil => simp [assign]
  | cons e m ih =>
      rw [keys_cons, List.nodup_cons] at h
      rw [assign]
      split
      · rename_i heq
        rw [keys_cons, List.nodup_cons]
        exact ⟨beq_iff_eq.mp heq ▸ h.1, h.2⟩
      · rename_i hne
        rw [keys_cons, List.nodup_cons, mem_keys_assign]
        exact ⟨fun hmem => hmem.elim (fun heq => hne (beq_iff_eq.mpr heq)) h.1, ih h.2⟩

theorem mem_of_lookup {k : κ} {v : β} {m : List (κ × β)} (h : m.lookup k = some v) :
    (k, v) ∈ m := by
  rcases List.lookup_eq_some_iff.mp h with ⟨before, after, rfl, _⟩
  simp

theorem lookup_eq_some_iff_mem {m : List (κ × β)} (h : (keys m).Nodup) {k : κ} {v : β} :
    m.lookup k = some v ↔ (k, v) ∈ m := by
  refine ⟨mem_of_lookup, fun hmem => ?_⟩
  induction m with
  | nil => cases hmem
  | cons e m ih =>
      rw [keys_cons, List.nodup_cons] at h
      rcases List.mem_cons.mp hmem with rfl | hmem
      · simp
      · have hne : k ≠ e.1 := by
          intro heq
          exact h.1 (heq ▸ List.mem_map_of_mem hmem)
        rw [List.lookup_cons, beq_false_of_ne hne]
        exact ih h.2 hmem

/-- In a list whose members have different keys, taking out the members with the
key of `a` takes out `a` alone. -/
theorem perm_cons_filter_key {α ι : Type*} [DecidableEq ι] {key : α → ι} {l : List α}
    (hkeys : l.Pairwise fun a b => key a ≠ key b) {a : α} (hmem : a ∈ l) :
    l.Perm (a :: l.filter fun b => key b ≠ key a) := by
  induction l with
  | nil => cases hmem
  | cons b l ih =>
      obtain ⟨hb, hl⟩ := List.pairwise_cons.mp hkeys
      rcases List.mem_cons.mp hmem with rfl | hmem
      · have hall : (l.filter fun b => key b ≠ key a) = l := by
          apply List.filter_eq_self.mpr
          intro d hd
          simpa using (hb d hd).symm
        rw [List.filter_cons_of_neg (by simp), hall]
      · have hne : key b ≠ key a := hb a hmem
        rw [List.filter_cons_of_pos (by simpa using hne)]
        exact ((ih hl hmem).cons b).trans (List.Perm.swap _ _ _)

end NetTest.AssocList
