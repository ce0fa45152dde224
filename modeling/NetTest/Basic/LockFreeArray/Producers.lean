import NetTest.Basic.LockFreeArray.Concurrent
import NetTest.Lib.Wrapping
import Mathlib.Data.List.Nodup

/-!
# Producers

The invariant behind publication.  Reservations are numbered in the order in
which they took effect; counters are these numbers modulo their range.  The
numbers below `published` are published, the others up to the last belong to
pushes that are still storing or publishing, and all numbers that are not yet
popped lie within `N` of each other, so they have slots of their own.
-/

namespace NetTest.LockFree

open Wrapping

variable {α : Type*}

def PushPc.reserved : PushPc → Option Nat
  | .store cw | .publish cw | .returned cw true => some cw
  | .loadWrite | .loadRead _ | .reserve _ | .returned _ false => none

def Stage (n : Nat) (s : System α) (j : Nat) (data : α) : PushPc → Prop
  | .store cw => cw = j % sizeT ∧ s.published ≤ j
  | .publish cw => cw = j % sizeT ∧ s.published ≤ j ∧ s.array.queue (j % n) = data
  | .returned cw true =>
      cw = j % sizeT ∧ j < s.published ∧ (s.popped.length ≤ j → s.array.queue (j % n) = data)
  | _ => False

theorem Stage.reserved_eq {n : Nat} {s : System α} {j : Nat} {data : α} {pc : PushPc}
    (h : Stage n s j data pc) : pc.reserved = some (j % sizeT) := by
  cases pc with
  | store cw => exact congrArg some h.1
  | publish cw => exact congrArg some h.1
  | returned cw ok =>
      cases ok with
      | true => exact congrArg some h.1
      | false => exact h.elim
  | _ => exact h.elim

structure Staged (n : Nat) (s : System α) : Prop where
  counted : Counted s
  popped_le : s.popped.length ≤ s.published
  published_le : s.published ≤ s.reserved.length
  room : s.reserved.length < s.popped.length + n
  names : (s.reserved.map Prod.fst).Nodup
  stage : ∀ (j : Nat) k data, s.reserved[j]? = some (k, data) →
    ∃ pc, s.calls k = some (.push data pc) ∧ Stage n s j data pc
  owner : ∀ k data pc, s.calls k = some (.push data pc) → pc.reserved ≠ none →
    ∃ j : Nat, s.reserved[j]? = some (k, data)
  delivered : ∀ (j : Nat) x, s.popped[j]? = some x → ∃ k, s.reserved[j]? = some (k, x.2)

theorem staged_create {n : Nat} (hn : 0 < n) (queue : Nat → α) :
    Staged n (System.create queue) where
  counted := counted_create queue
  popped_le := Nat.le_refl 0
  published_le := Nat.le_refl 0
  room := by simpa [System.create] using hn
  names := List.nodup_nil
  stage j k data h := by cases h
  owner k data pc h := by cases h
  delivered j x h := by cases h

theorem Quiet.old {n : Nat} {s : System α} {e : Event α} {k : Nat} {call : Call α}
    (h : Quiet n s e k call) {data : α} {pc : PushPc} (hcall : s.calls k = some (.push data pc)) :
    pc.reserved = none := by
  cases h with
  | _ hold =>
      rw [hold] at hcall
      cases hcall <;> rfl

theorem Quiet.new {n : Nat} {s : System α} {e : Event α} {k : Nat} {data : α} {pc : PushPc}
    (h : Quiet n s e k (.push data pc)) : pc.reserved = none := by
  cases h <;> rfl

namespace Staged

variable {n : Nat} {s : System α}

theorem position_unique (h : Staged n s) {i j k : Nat} {x y : α}
    (hi : s.reserved[i]? = some (k, x)) (hj : s.reserved[j]? = some (k, y)) : i = j := by
  have hlt : i < (s.reserved.map Prod.fst).length := by
    rw [List.length_map]
    exact (List.getElem?_eq_some_iff.mp hi).1
  apply (List.getElem?_inj hlt h.names).mp
  rw [List.getElem?_map, List.getElem?_map, hi, hj]
  rfl

theorem position_lt {i : Nat} {x : Nat × α} (hi : s.reserved[i]? = some x) :
    i < s.reserved.length := (List.getElem?_eq_some_iff.mp hi).1

theorem stage_of_call (h : Staged n s) {k : Nat} {data : α} {pc : PushPc}
    (hcall : s.calls k = some (.push data pc)) (hpc : pc.reserved ≠ none) :
    ∃ j : Nat, s.reserved[j]? = some (k, data) ∧ Stage n s j data pc := by
  rcases h.owner k data pc hcall hpc with ⟨j, hj⟩
  rcases h.stage j k data hj with ⟨pc', hcall', hstage⟩
  rw [hcall] at hcall'
  cases hcall'
  exact ⟨j, hj, hstage⟩

theorem slot_ne (h : Staged n s) {i j : Nat} (hi : s.popped.length ≤ i)
    (hi' : i < s.reserved.length) (hj : s.popped.length ≤ j) (hj' : j < s.reserved.length)
    (hne : i ≠ j) : i % n ≠ j % n := by
  have hroom := h.room
  intro heq
  exact hne (eq_of_mod_eq hi (by omega) hj (by omega) heq)

theorem step_quiet (h : Staged n s) {e : Event α} {k : Nat} {call : Call α}
    (hquiet : Quiet n s e k call) : Staged n (s.setCall k call) where
  counted := ⟨h.counted.write, h.counted.published, h.counted.read, h.counted.popped⟩
  popped_le := h.popped_le
  published_le := h.published_le
  room := h.room
  names := h.names
  stage j k' data hj := by
    rcases h.stage j k' data hj with ⟨pc, hcall, hstage⟩
    have hk : k' ≠ k := by
      intro heq
      subst heq
      have hnone := hquiet.old hcall
      rw [hstage.reserved_eq] at hnone
      cases hnone
    exact ⟨pc, by rw [System.setCall_calls_of_ne s call hk]; exact hcall, hstage⟩
  owner k' data pc hcall hpc := by
    by_cases hk : k' = k
    · subst hk
      rw [System.setCall_calls_self, Option.some.injEq] at hcall
      subst hcall
      exact absurd hquiet.new hpc
    · rw [System.setCall_calls_of_ne s call hk] at hcall
      exact h.owner k' data pc hcall hpc
  delivered := h.delivered

theorem reserved_append {xs : List (Nat × α)} {j : Nat} {x y : Nat × α}
    (h : (xs ++ [y])[j]? = some x) : xs[j]? = some x ∨ (j = xs.length ∧ x = y) := by
  rcases Nat.lt_or_ge j xs.length with hlt | hge
  · rw [List.getElem?_append_left hlt] at h
    exact Or.inl h
  · rw [List.getElem?_append_right hge, List.getElem?_singleton] at h
    split at h
    · rename_i hzero
      cases h
      exact Or.inr ⟨by omega, rfl⟩
    · cases h

theorem getElem?_append_of_some {xs ys : List (Nat × α)} {j : Nat} {x : Nat × α}
    (h : xs[j]? = some x) : (xs ++ ys)[j]? = some x := by
  rw [List.getElem?_append_left (List.getElem?_eq_some_iff.mp h).1]
  exact h

/-- The masked counters meet only when the array is full. -/
theorem spare (h : Staged n s) (hne : (s.reserved.length + 1) % n ≠ s.popped.length % n) :
    s.reserved.length + 1 < s.popped.length + n := by
  have hroom := h.room
  rcases Nat.lt_or_ge (s.reserved.length + 1) (s.popped.length + n) with hlt | hge
  · exact hlt
  · rw [show s.reserved.length + 1 = s.popped.length + n by omega, Nat.add_mod_right] at hne
    exact absurd rfl hne

theorem step_reserve {m : Nat} (hm : m ≤ 63) (h : Staged (2 ^ m) s) {k : Nat} {data : α}
    (hcall : s.calls k = some (.push data (.reserve s.array.writeIndex)))
    (hfree : index (2 ^ m) (next s.array.writeIndex) ≠ index (2 ^ m) s.array.readIndex) :
    Staged (2 ^ m) ({ s with
      array := { s.array with writeIndex := next s.array.writeIndex }
      reserved := s.reserved ++ [(k, data)] }.setCall k
        (.push data (.store s.array.writeIndex))) := by
  have hpublished := h.published_le
  rw [index_two_pow, index_two_pow, h.counted.write, h.counted.read, next_mod,
    mod_sizeT_mod hm, mod_sizeT_mod hm] at hfree
  have hspare := h.spare hfree
  -- the push had no reservation before
  have hnew : ∀ (j : Nat) k' x, s.reserved[j]? = some (k', x) → k' ≠ k := by
    intro j k' x hj heq
    subst heq
    rcases h.stage j k' x hj with ⟨pc, hcall', hstage⟩
    rw [hcall] at hcall'
    cases hcall'
    exact hstage
  exact {
    counted := by
      refine ⟨?_, h.counted.published, h.counted.read, h.counted.popped⟩
      simp only [System.setCall, List.length_append, List.length_singleton]
      rw [h.counted.write, next_mod]
    popped_le := h.popped_le
    published_le := by
      simp only [System.setCall, List.length_append, List.length_singleton]
      omega
    room := by
      simp only [System.setCall, List.length_append, List.length_singleton]
      exact hspare
    names := by
      simp only [System.setCall, List.map_append, List.map_cons, List.map_nil]
      refine List.Nodup.append h.names (List.nodup_singleton k) ?_
      intro k' hmem hk
      rw [List.mem_singleton] at hk
      rcases List.mem_map.mp hmem with ⟨x, hx, hfst⟩
      rcases List.mem_iff_getElem?.mp hx with ⟨j, hj⟩
      exact hnew j x.1 x.2 hj (by rw [hfst, hk])
    stage := by
      intro j k' x hj
      rcases reserved_append hj with hold | ⟨hlen, hx⟩
      · rcases h.stage j k' x hold with ⟨pc, hcall', hstage⟩
        refine ⟨pc, ?_, hstage⟩
        rw [System.setCall_calls_of_ne _ _ (hnew j k' x hold)]
        exact hcall'
      · cases hx
        refine ⟨_, System.setCall_calls_self _ _ _, ?_, ?_⟩
        · rw [hlen]
          exact h.counted.write
        · simp only [System.setCall]
          omega
    owner := by
      intro k' x pc hcall' hpc
      by_cases hk : k' = k
      · subst hk
        rw [System.setCall_calls_self] at hcall'
        cases hcall'
        exact ⟨s.reserved.length, by simp [System.setCall]⟩
      · rw [System.setCall_calls_of_ne _ _ hk] at hcall'
        rcases h.owner k' x pc hcall' hpc with ⟨j, hj⟩
        exact ⟨j, getElem?_append_of_some hj⟩
    delivered := by
      intro j x hx
      rcases h.delivered j x hx with ⟨k', hk'⟩
      exact ⟨k', getElem?_append_of_some hk'⟩ }

/-- One push moves on and the others keep their stages. -/
theorem stage_move (h : Staged n s) {s' : System α} {k j : Nat} {data : α} {pc : PushPc}
    (hj : s.reserved[j]? = some (k, data)) (hstage : Stage n s' j data pc)
    (hothers : ∀ i x pc', i ≠ j → i < s.reserved.length → Stage n s i x pc' → Stage n s' i x pc')
    {i k' : Nat} {x : α} (hi : s.reserved[i]? = some (k', x)) :
    ∃ pc', Function.update s.calls k (some (.push data pc)) k' = some (.push x pc') ∧
      Stage n s' i x pc' := by
  by_cases hk : k' = k
  · subst hk
    have hij := h.position_unique hi hj
    subst hij
    rw [hi] at hj
    cases hj
    exact ⟨pc, Function.update_self _ _ _, hstage⟩
  · have hij : i ≠ j := by
      intro hij
      subst hij
      rw [hi] at hj
      cases hj
      exact hk rfl
    rcases h.stage i k' x hi with ⟨pc', hcall, hold⟩
    rw [Function.update_of_ne hk]
    exact ⟨pc', hcall, hothers i x pc' hij (position_lt hi) hold⟩

theorem owner_move (h : Staged n s) {k j : Nat} {data : α} {pc : PushPc}
    (hj : s.reserved[j]? = some (k, data)) {k' : Nat} {x : α} {pc' : PushPc}
    (hcall : Function.update s.calls k (some (.push data pc)) k' = some (.push x pc'))
    (hpc : pc'.reserved ≠ none) : ∃ i : Nat, s.reserved[i]? = some (k', x) := by
  by_cases hk : k' = k
  · subst hk
    rw [Function.update_self] at hcall
    cases hcall
    exact ⟨j, hj⟩
  · rw [Function.update_of_ne hk] at hcall
    exact h.owner k' x pc' hcall hpc

/-- The store goes to a slot that no other reservation uses. -/
theorem step_store {m : Nat} (hm : m ≤ 63) (h : Staged (2 ^ m) s) {k cw : Nat} {data : α}
    (hcall : s.calls k = some (.push data (.store cw))) :
    Staged (2 ^ m) ({ s with array := { s.array with
      queue := Function.update s.array.queue (index (2 ^ m) cw) data } }.setCall k
        (.push data (.publish cw))) := by
  rcases h.stage_of_call hcall (by simp [PushPc.reserved]) with ⟨j, hj, hcw, hunpublished⟩
  have hpopped := h.popped_le
  have hjlt := position_lt hj
  have hslot : index (2 ^ m) cw = j % 2 ^ m := by rw [index_two_pow, hcw, mod_sizeT_mod hm]
  have hother : ∀ i, i ≠ j → s.popped.length ≤ i → i < s.reserved.length →
      Function.update s.array.queue (index (2 ^ m) cw) data (i % 2 ^ m) =
        s.array.queue (i % 2 ^ m) := by
    intro i hij hi hi'
    rw [hslot]
    exact Function.update_of_ne (h.slot_ne hi hi' (by omega) hjlt hij) _ _
  exact {
    counted := ⟨h.counted.write, h.counted.published, h.counted.read, h.counted.popped⟩
    popped_le := h.popped_le
    published_le := h.published_le
    room := h.room
    names := h.names
    stage := by
      intro i k' x hi
      refine h.stage_move hj ?_ ?_ hi
      · refine ⟨hcw, hunpublished, ?_⟩
        simp only [System.setCall, hslot, Function.update_self]
      · intro i x pc hij hilt hstage
        cases pc with
        | store cw' => exact hstage
        | publish cw' =>
            have hle : s.published ≤ i := hstage.2.1
            exact ⟨hstage.1, hle, (hother i hij (by omega) hilt).trans hstage.2.2⟩
        | returned cw' ok =>
            cases ok with
            | true =>
                refine ⟨hstage.1, hstage.2.1, fun hle => ?_⟩
                exact (hother i hij hle hilt).trans (hstage.2.2 hle)
            | false => exact hstage.elim
        | _ => exact hstage.elim
    owner := by
      intro k' x pc hcall' hpc
      exact h.owner_move hj hcall' hpc
    delivered := h.delivered }

/-- Publication happens in the order of the reservations. -/
theorem step_publish {m : Nat} (hm : m ≤ 63) (h : Staged (2 ^ m) s) {k : Nat} {data : α}
    (hcall : s.calls k = some (.push data (.publish s.array.maxNumReadIndex))) :
    Staged (2 ^ m) ({ s with
      array := { s.array with maxNumReadIndex := next s.array.maxNumReadIndex }
      published := s.published + 1 }.setCall k
        (.push data (.returned s.array.maxNumReadIndex true))) := by
  rcases h.stage_of_call hcall (by simp [PushPc.reserved]) with ⟨j, hj, hcw, hle, hstored⟩
  have hpopped := h.popped_le
  have hroom := h.room
  have hjlt := position_lt hj
  have hsize := two_pow_lt_sizeT hm
  have hturn : j = s.published := by
    rw [h.counted.published] at hcw
    exact eq_of_mod_eq hle (by omega) (Nat.le_refl _) (by omega) hcw.symm
  subst hturn
  exact {
    counted := by
      refine ⟨h.counted.write, ?_, h.counted.read, h.counted.popped⟩
      simp only [System.setCall]
      rw [h.counted.published, next_mod]
    popped_le := by
      simp only [System.setCall]
      omega
    published_le := hjlt
    room := h.room
    names := h.names
    stage := by
      intro i k' x hi
      refine h.stage_move hj ?_ ?_ hi
      · exact ⟨hcw, Nat.lt_succ_self _, fun _ => hstored⟩
      · intro i x pc hij _ hstage
        cases pc with
        | store cw' => exact ⟨hstage.1, Nat.lt_of_le_of_ne hstage.2 hij.symm⟩
        | publish cw' => exact ⟨hstage.1, Nat.lt_of_le_of_ne hstage.2.1 hij.symm, hstage.2.2⟩
        | returned cw' ok =>
            cases ok with
            | true => exact ⟨hstage.1, Nat.lt_succ_of_lt hstage.2.1, hstage.2.2⟩
            | false => exact hstage.elim
        | _ => exact hstage.elim
    owner := by
      intro k' x pc hcall' hpc
      exact h.owner_move hj hcall' hpc
    delivered := h.delivered }

/-- A pop of a published element. -/
theorem step_commit (h : Staged n s) {k k' : Nat} {data : α} {writeFirst : Bool}
    (hcall : s.calls k = some (.tryPop writeFirst (.commit s.array.readIndex data)))
    (hlt : s.popped.length < s.published)
    (hdata : s.reserved[s.popped.length]? = some (k', data)) :
    Staged n ({ s with
      array := { s.array with readIndex := next s.array.readIndex }
      popped := s.popped ++ [(s.array.readIndex, data)] }.setCall k
        (.tryPop writeFirst (.returned true))) := by
  have hroom := h.room
  have hcounted := counted_step h.counted n (.run k)
  simp only [step, hcall, runPop, if_true] at hcounted
  exact {
    counted := hcounted
    popped_le := by
      simp only [System.setCall, List.length_append, List.length_singleton]
      omega
    published_le := h.published_le
    room := by
      simp only [System.setCall, List.length_append, List.length_singleton]
      omega
    names := h.names
    stage := by
      intro j k' x hj
      rcases h.stage j k' x hj with ⟨pc, hcall', hstage⟩
      have hk : k' ≠ k := by
        intro heq
        subst heq
        rw [hcall] at hcall'
        cases hcall'
      refine ⟨pc, by rw [System.setCall_calls_of_ne _ _ hk]; exact hcall', ?_⟩
      cases pc with
      | returned cw' ok =>
          cases ok with
          | true =>
              refine ⟨hstage.1, hstage.2.1, fun hle => hstage.2.2 ?_⟩
              simp only [System.setCall, List.length_append, List.length_singleton] at hle
              omega
          | false => exact hstage.elim
      | _ => exact hstage
    owner := by
      intro k' x pc hcall' hpc
      by_cases hk : k' = k
      · subst hk
        rw [System.setCall_calls_self] at hcall'
        cases hcall'
      · rw [System.setCall_calls_of_ne _ _ hk] at hcall'
        exact h.owner k' x pc hcall' hpc
    delivered := by
      intro j x hx
      rcases reserved_append hx with hold | ⟨hlen, hlast⟩
      · exact h.delivered j x hold
      · subst hlast
        rw [hlen]
        exact ⟨k', hdata⟩ }

end Staged

/-- A push reserves a slot only while the array is not full. -/
def ReservesFree (n : Nat) (s : System α) : Event α → Prop
  | .run k => ∀ data, s.calls k = some (.push data (.reserve s.array.writeIndex)) →
      index n (next s.array.writeIndex) ≠ index n s.array.readIndex
  | _ => True

theorem staged_step {m : Nat} (hm : m ≤ 63) {s : System α} (h : Staged (2 ^ m) s) {e : Event α}
    (hfree : ReservesFree (2 ^ m) s e)
    (hpop : ∀ k writeFirst cr data, s.calls k = some (.tryPop writeFirst (.commit cr data)) →
      s.popped.length < s.published ∧ ∃ k', s.reserved[s.popped.length]? = some (k', data)) :
    Staged (2 ^ m) (step (2 ^ m) s e) := by
  have heffect := step_effect (2 ^ m) s e
  generalize step (2 ^ m) s e = s' at heffect
  cases heffect with
  | idle => exact h
  | quiet hquiet => exact h.step_quiet hquiet
  | reserve hcall => exact h.step_reserve hm hcall (hfree _ hcall)
  | store hcall => exact h.step_store hm hcall
  | publish hcall => exact h.step_publish hm hcall
  | commit hcall =>
      rcases hpop _ _ _ _ hcall with ⟨hlt, k', hdata⟩
      exact h.step_commit hcall hlt hdata

/-! ## While the counters have not gone round -/

/-- A loaded write counter is not ahead, and if it is still the current one then
the room its push has seen is still there. -/
def FreshPc (n reserved popped : Nat) : PushPc → Prop
  | .loadRead cw => cw ≤ reserved
  | .reserve cw => cw ≤ reserved ∧ (cw = reserved → reserved + 1 < popped + n)
  | _ => True

theorem FreshPc.mono {n r r' p p' : Nat} {pc : PushPc} (h : FreshPc n r p pc) (hr : r ≤ r')
    (hp : p ≤ p') : FreshPc n r' p' pc := by
  cases pc with
  | loadRead cw => exact Nat.le_trans h hr
  | reserve cw =>
      refine ⟨Nat.le_trans h.1 hr, fun heq => ?_⟩
      have hroom := h.2 (by have := h.1; omega)
      have hle := h.1
      omega
  | _ => trivial

def Fresh (n : Nat) (s : System α) : Prop :=
  ∀ k data pc, s.calls k = some (.push data pc) →
    FreshPc n s.reserved.length s.popped.length pc

theorem Fresh.update {n : Nat} {s : System α} (h : Fresh n s) {k : Nat} {call : Call α}
    {r p : Nat} (hr : s.reserved.length ≤ r) (hp : s.popped.length ≤ p)
    (hnew : ∀ data pc, call = .push data pc → FreshPc n r p pc) {k' : Nat} {data : α}
    {pc : PushPc} (hcall : Function.update s.calls k (some call) k' = some (.push data pc)) :
    FreshPc n r p pc := by
  by_cases hk : k' = k
  · subst hk
    rw [Function.update_self, Option.some.injEq] at hcall
    exact hnew data pc hcall
  · rw [Function.update_of_ne hk] at hcall
    exact (h k' data pc hcall).mono hr hp

theorem fresh_step {m : Nat} (hm : m ≤ 63) {s : System α} (hs : Staged (2 ^ m) s)
    (h : Fresh (2 ^ m) s) (hshort : s.reserved.length < sizeT) (e : Event α) :
    Fresh (2 ^ m) (step (2 ^ m) s e) := by
  have heffect := step_effect (2 ^ m) s e
  generalize step (2 ^ m) s e = s' at heffect
  cases heffect with
  | idle => exact h
  | quiet hquiet =>
      intro k' data pc hcall'
      refine h.update (Nat.le_refl _) (Nat.le_refl _) ?_ hcall'
      intro data pc heq
      subst heq
      cases hquiet with
      | loadWrite hcall =>
          rw [hs.counted.write, Nat.mod_eq_of_lt hshort]
          exact Nat.le_refl _
      | free hcall hfree =>
          refine ⟨h _ _ _ hcall, fun heq => ?_⟩
          subst heq
          rw [index_two_pow, index_two_pow, hs.counted.read, next, mod_sizeT_mod hm,
            mod_sizeT_mod hm] at hfree
          exact hs.spare hfree
      | _ => trivial
  | reserve hcall =>
      intro k' data pc hcall'
      refine h.update ?_ (Nat.le_refl _) ?_ hcall'
      · simp [System.setCall]
      · intro data pc heq
        cases heq
        trivial
  | store hcall =>
      intro k' data pc hcall'
      refine h.update (Nat.le_refl _) (Nat.le_refl _) ?_ hcall'
      intro data pc heq
      cases heq
      trivial
  | publish hcall =>
      intro k' data pc hcall'
      refine h.update (Nat.le_refl _) (Nat.le_refl _) ?_ hcall'
      intro data pc heq
      cases heq
      trivial
  | commit hcall =>
      intro k' data pc hcall'
      refine h.update (Nat.le_refl _) ?_ ?_ hcall'
      · simp [System.setCall]
      · intro data pc heq
        cases heq

/-- Without a full turn of the counters no reservation is made on a full array. -/
theorem reservesFree_of_fresh {m : Nat} (hm : m ≤ 63) {s : System α} (hs : Staged (2 ^ m) s)
    (h : Fresh (2 ^ m) s) (hshort : s.reserved.length < sizeT) (e : Event α) :
    ReservesFree (2 ^ m) s e := by
  cases e with
  | push k data => trivial
  | tryPop k writeFirst => trivial
  | run k =>
      intro data hcall
      have hle : s.popped.length ≤ s.reserved.length := Nat.le_trans hs.popped_le hs.published_le
      have hfresh := h k data _ hcall
      rw [hs.counted.write, Nat.mod_eq_of_lt hshort] at hfresh
      have hspare := hfresh.2 rfl
      rw [index_two_pow, index_two_pow, hs.counted.write, hs.counted.read, next_mod,
        mod_sizeT_mod hm, mod_sizeT_mod hm]
      intro heq
      have hsame := eq_of_mod_eq (n := 2 ^ m) (Nat.le_succ_of_le hle) (by omega) (Nat.le_refl _)
        (by omega) heq
      omega

end NetTest.LockFree
