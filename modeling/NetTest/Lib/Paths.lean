import Mathlib.Data.List.Basic

/-!
# Trees reached by steps

A node has children, and which steps lead to one depends on the kind of the node.
Putting a child under a node of another kind makes it a node of the right kind,
without the children it had.  An update at the end of a path does this all along the
path; what is read along another path afterwards depends on where the paths part.
-/

namespace NetTest.Paths

structure Tree (ν σ κ : Type*) [DecidableEq κ] where
  /-- What is read where there is nothing. -/
  empty : ν
  kind : σ → κ
  shape : ν → Option κ
  child : ν → σ → ν
  put : ν → σ → ν → ν
  /-- The steps under which a child can be put. -/
  Ok : σ → Prop
  shape_empty : shape empty = none
  child_of_shape : ∀ n s, shape n ≠ some (kind s) → child n s = empty
  child_put_self : ∀ n s c, Ok s → child (put n s c) s = c
  child_put_of_ne : ∀ n s c t, Ok s → t ≠ s →
    child (put n s c) t = if shape n = some (kind s) then child n t else empty

namespace Tree

variable {ν σ κ : Type*} [DecidableEq κ] (T : Tree ν σ κ)

def read (n : ν) (path : List σ) : ν := path.foldl T.child n

def update (n : ν) (path : List σ) (f : ν → ν) : ν :=
  match path with
  | [] => f n
  | s :: rest => T.put n s (update (T.child n s) rest f)

@[simp] theorem read_nil (n : ν) : T.read n [] = n := rfl

@[simp] theorem read_cons (n : ν) (s : σ) (path : List σ) :
    T.read n (s :: path) = T.read (T.child n s) path := rfl

theorem read_append (n : ν) (p q : List σ) : T.read n (p ++ q) = T.read (T.read n p) q :=
  List.foldl_append

theorem update_append (n : ν) (p q : List σ) (f : ν → ν) :
    T.update n (p ++ q) f = T.update n p fun m => T.update m q f := by
  induction p generalizing n with
  | nil => rfl
  | cons s p ih => rw [List.cons_append, update, update, ih]

theorem update_congr (n : ν) (p : List σ) {f g : ν → ν} (h : f (T.read n p) = g (T.read n p)) :
    T.update n p f = T.update n p g := by
  induction p generalizing n with
  | nil => exact h
  | cons s p ih => rw [update, update, ih (T.child n s) h]

theorem child_empty (s : σ) : T.child T.empty s = T.empty :=
  T.child_of_shape T.empty s (by simp [T.shape_empty])

@[simp] theorem read_empty (path : List σ) : T.read T.empty path = T.empty := by
  induction path with
  | nil => rfl
  | cons s path ih => rw [read_cons, child_empty, ih]

/-! ## Where two paths part -/

inductive Parting (σ : Type*) where
  /-- The second path goes on where the first one ends. -/
  | below (rest : List σ)
  /-- The first path goes on. -/
  | above (s : σ) (rest : List σ)
  /-- After what they share, the first path takes `s` and the second takes `t`. -/
  | beside (shared : List σ) (s t : σ) (rest : List σ)

def Parting.under (s : σ) : Parting σ → Parting σ
  | below rest => below rest
  | above t rest => above t rest
  | beside shared t u rest => beside (s :: shared) t u rest

variable [DecidableEq σ]

def part : List σ → List σ → Parting σ
  | [], q => .below q
  | s :: p, [] => .above s p
  | s :: p, t :: q => if s = t then (part p q).under s else .beside [] s t q

/-- What is read along a path after an update: the update itself, a node that it went
through, or what was there before, unless the update made the node where the paths part
one of another kind. -/
theorem read_update (n : ν) {p : List σ} (hp : ∀ s ∈ p, T.Ok s) (q : List σ) (f : ν → ν) :
    T.read (T.update n p f) q =
      match part p q with
      | .below rest => T.read (f (T.read n p)) rest
      | .above s rest => T.update (T.read n q) (s :: rest) f
      | .beside shared s _ _ =>
          if T.shape (T.read n shared) = some (T.kind s) then T.read n q else T.empty := by
  induction p generalizing n q with
  | nil => rfl
  | cons s p ih =>
      cases q with
      | nil => rfl
      | cons t q =>
          rw [List.forall_mem_cons] at hp
          rw [update, read_cons, part]
          by_cases hstep : s = t
          · subst hstep
            rw [T.child_put_self _ _ _ hp.1, ih _ hp.2, if_pos rfl]
            cases part p q <;> rfl
          · rw [T.child_put_of_ne _ _ _ _ hp.1 (Ne.symm hstep), if_neg hstep]
            by_cases hshape : T.shape n = some (T.kind s)
            · simp [hshape]
            · simp [hshape]

/-! ## Paths that do not disturb each other -/

/-- The paths part with steps of the same kind. -/
def Apart (p q : List σ) : Prop :=
  match part p q with
  | .below _ => False
  | .above _ _ => False
  | .beside _ s t _ => T.kind s = T.kind t

theorem eq_of_part {p q shared rest : List σ} {s t : σ} (h : part p q = .beside shared s t rest) :
    q = shared ++ t :: rest := by
  induction p generalizing q shared with
  | nil => cases h
  | cons u p ih =>
      cases q with
      | nil => cases h
      | cons v q =>
          rw [part] at h
          by_cases hstep : u = v
          · rw [if_pos hstep] at h
            cases hpart : part p q with
            | below rest' =>
                rw [hpart] at h
                cases h
            | above s' rest' =>
                rw [hpart] at h
                cases h
            | beside shared' s' t' rest' =>
                rw [hpart, Parting.under] at h
                cases h
                rw [ih hpart, hstep]
                rfl
          · rw [if_neg hstep] at h
            cases h
            rfl

/-- Where the node is of another kind, there was nothing to lose. -/
theorem read_update_apart {p q : List σ} (hp : ∀ s ∈ p, T.Ok s) (h : T.Apart p q) (n : ν)
    (f : ν → ν) : T.read (T.update n p f) q = T.read n q := by
  rw [T.read_update n hp]
  unfold Apart at h
  cases hpart : part p q with
  | below rest =>
      rw [hpart] at h
      exact absurd h id
  | above s rest =>
      rw [hpart] at h
      exact absurd h id
  | beside shared s t rest =>
      rw [hpart] at h
      have hkind : T.kind s = T.kind t := h
      by_cases hshape : T.shape (T.read n shared) = some (T.kind s)
      · exact if_pos hshape
      · have hchild : T.child (T.read n shared) t = T.empty :=
          T.child_of_shape _ t (hkind ▸ hshape)
        simp only [if_neg hshape]
        rw [eq_of_part hpart, read_append, read_cons, hchild, read_empty]

theorem part_self (p : List σ) : part p p = .below [] := by
  induction p with
  | nil => rfl
  | cons s p ih => rw [part, if_pos rfl, ih, Parting.under]

theorem read_update_self (n : ν) {p : List σ} (hp : ∀ s ∈ p, T.Ok s) (f : ν → ν) :
    T.read (T.update n p f) p = f (T.read n p) := by
  rw [T.read_update n hp, part_self]
  rfl

/-- Updates at a path and apart from it: those at the path take effect in their order. -/
theorem read_updates (updates : List (List σ × (ν → ν))) (n : ν) (q : List σ)
    (hok : ∀ u ∈ updates, ∀ s ∈ u.1, T.Ok s) (h : ∀ u ∈ updates, u.1 = q ∨ T.Apart u.1 q) :
    T.read (updates.foldl (fun m u => T.update m u.1 u.2) n) q =
      (updates.filter fun u => u.1 = q).foldl (fun m u => u.2 m) (T.read n q) := by
  induction updates generalizing n with
  | nil => rfl
  | cons u rest ih =>
      rw [List.forall_mem_cons] at h hok
      rw [List.foldl_cons, ih _ hok.2 h.2]
      by_cases hpath : u.1 = q
      · subst hpath
        rw [List.filter_cons_of_pos (by simp), List.foldl_cons, T.read_update_self n hok.1]
      · rw [List.filter_cons_of_neg (by simpa using hpath),
          T.read_update_apart hok.1 (h.1.resolve_left hpath)]

end Tree

end NetTest.Paths
