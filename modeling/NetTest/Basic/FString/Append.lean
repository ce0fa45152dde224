import NetTest.Basic.FString.Model
import NetTest.Lib.Runs
import NetTest.Lib.Wrapping

/-!
# Appending to fixed strings

`append` with its addresses: the length is counted anew in every call, the bytes are
copied behind the text and a NUL is set behind them, with the index as a `size_t`.
-/

namespace NetTest.Strings

open CString Runs Wrapping

variable {n base : Nat}

/-- `append` on the object at `base`; `none` is a null pointer. -/
def appendAt (n base : Nat) (m : Memory) : Option (List UInt8) → Memory
  | none => m
  | some data =>
      if data.length = 0 then m
      else
        let len := strnlen m base n
        if diff n len ≤ data.length then m
        else (m.store (base + len) data).store (base + (data.length + len) % sizeT) [0]

/-- The object holds a NUL, and its text ends before the last byte. -/
structure Terminated (n base : Nat) (m : Memory) : Prop where
  nul : 0 ∈ m.load base n
  short : strnlen m base n ≤ n - 1

def Refused (n base : Nat) (m : Memory) : Option (List UInt8) → Prop
  | none => True
  | some data => data.length = 0 ∨ n - strnlen m base n ≤ data.length

/-- What a call does to the bytes of the object and to those around it. -/
structure AllOrNothing (n base : Nat) (m : Memory) (data : Option (List UInt8)) : Prop where
  refused : Refused n base m data → (appendAt n base m data).load base n = m.load base n
  appended : ¬ Refused n base m data →
    cstr ((appendAt n base m data).load base n) = cstr (m.load base n) ++ cstr (data.getD [])
  outside : Memory.SameOutside ⟨base, n⟩ m (appendAt n base m data)

/-! ## Whole strings -/

theorem FString.append_of_full (s : FString n) {data : List UInt8}
    (h : data = [] ∨ n - s.length ≤ data.length) : s.append data = s := by
  rw [FString.append, dif_pos h]

theorem FString.data_append (s : FString n) {data : List UInt8}
    (h : ¬ (data = [] ∨ n - s.length ≤ data.length)) :
    (s.append data).data =
      s.data.take s.length ++ data ++ 0 :: s.data.drop (s.length + data.length + 1) := by
  rw [FString.append, dif_neg h]

theorem FString.str_append (s : FString n) {data : List UInt8}
    (h : ¬ (data = [] ∨ n - s.length ≤ data.length)) :
    (s.append data).str = s.str ++ cstr data := by
  have htake : s.data.take s.length = cstr s.data := take_length_cstr s.data
  rw [FString.str, s.data_append h, cstr_append_zero, htake, cstr_append, FString.str]

/-! ## One call -/

variable {m : Memory}

theorem terminated_iff : Terminated n base m ↔ 0 ∈ m.load base n := by
  constructor
  · intro h
    exact h.nul
  · intro h
    have hlt := length_cstr_lt h
    rw [Memory.length_load] at hlt
    exact ⟨h, Nat.le_sub_one_of_lt hlt⟩

def view (n base : Nat) (m : Memory) (h : 0 ∈ m.load base n) : FString n where
  data := m.load base n
  length_data := m.length_load base n
  terminated := h

theorem appendAt_of_refused (hn : n < sizeT) (h : Terminated n base m)
    {data : Option (List UInt8)} (hrefused : Refused n base m data) :
    appendAt n base m data = m := by
  cases data with
  | none => rfl
  | some data =>
      have hlen := h.short
      have hdiff : diff n (strnlen m base n) = n - strnlen m base n := diff_eq (by omega) hn
      rcases hrefused with hzero | hle
      · rw [appendAt, if_pos hzero]
      · simp only [appendAt, hdiff, if_pos hle, ite_self]

theorem appendAt_of_room (hn : n < sizeT) (h : Terminated n base m) {data : List UInt8}
    (hroom : ¬ Refused n base m (some data)) :
    appendAt n base m (some data) = m.store (base + strnlen m base n) (data ++ [0]) := by
  have hlen := h.short
  have hzero : data.length ≠ 0 := fun hzero => hroom (Or.inl hzero)
  have hlt : ¬ n - strnlen m base n ≤ data.length := fun hle => hroom (Or.inr hle)
  have hdiff : diff n (strnlen m base n) = n - strnlen m base n := diff_eq (by omega) hn
  have hindex : (data.length + strnlen m base n) % sizeT = data.length + strnlen m base n :=
    Nat.mod_eq_of_lt (by omega)
  simp only [appendAt, if_neg hzero, hdiff, if_neg hlt, hindex]
  rw [Nat.add_comm data.length, ← Nat.add_assoc, Memory.store_append]

theorem load_appendAt (hn : n < sizeT) (h : Terminated n base m) (data : List UInt8) :
    (appendAt n base m (some data)).load base n = ((view n base m h.nul).append data).data := by
  have hrefused : Refused n base m (some data) ↔
      data = [] ∨ n - (view n base m h.nul).length ≤ data.length := by
    rw [← List.length_eq_zero_iff]
    exact Iff.rfl
  by_cases hfull : Refused n base m (some data)
  · rw [appendAt_of_refused hn h hfull, FString.append_of_full _ (hrefused.mp hfull)]
    rfl
  · have hroom : ¬ n - strnlen m base n ≤ data.length := fun hle => hfull (Or.inr hle)
    have hfit : strnlen m base n + (data ++ [0]).length ≤ n := by
      rw [List.length_append, List.length_singleton]
      omega
    rw [appendAt_of_room hn h hfull, FString.data_append _ (fun hle => hfull (hrefused.mpr hle)),
      Memory.load_store_inside m base hfit, List.length_append, List.length_singleton]
    show _ = (m.load base n).take (strnlen m base n) ++ data ++
      0 :: (m.load base n).drop (strnlen m base n + data.length + 1)
    rw [← List.append_assoc, List.append_assoc _ [0], List.singleton_append, Nat.add_assoc]

theorem terminated_appendAt (hn : n < sizeT) (h : Terminated n base m)
    (data : Option (List UInt8)) : Terminated n base (appendAt n base m data) := by
  rw [terminated_iff]
  cases data with
  | none => exact h.nul
  | some data =>
      rw [load_appendAt hn h data]
      exact ((view n base m h.nul).append data).terminated

theorem sameOutside_appendAt (hn : n < sizeT) (h : Terminated n base m)
    (data : Option (List UInt8)) : Memory.SameOutside ⟨base, n⟩ m (appendAt n base m data) := by
  by_cases hfull : Refused n base m data
  · rw [appendAt_of_refused hn h hfull]
    exact Memory.SameOutside.refl _ m
  · cases data with
    | none => exact absurd trivial hfull
    | some data =>
        have hroom : ¬ n - strnlen m base n ≤ data.length := fun hle => hfull (Or.inr hle)
        rw [appendAt_of_room hn h hfull]
        apply (m.sameOutside_store _ _).mono
        apply Region.within_offset
        rw [List.length_append, List.length_singleton]
        omega

theorem allOrNothing (hn : n < sizeT) (h : Terminated n base m) (data : Option (List UInt8)) :
    AllOrNothing n base m data := by
  constructor
  · intro hfull
    rw [appendAt_of_refused hn h hfull]
  · intro hroom
    cases data with
    | none => exact absurd trivial hroom
    | some data =>
        have hne : ¬ (data = [] ∨ n - (view n base m h.nul).length ≤ data.length) := by
          rw [← List.length_eq_zero_iff]
          exact hroom
        rw [load_appendAt hn h data]
        exact (view n base m h.nul).str_append hne
  · exact sameOutside_appendAt hn h data

/-! ## Runs -/

/-- Over every sequence of calls a string stays terminated, and each call appends
all of its bytes or changes nothing. -/
theorem append_run (hn : n < sizeT) (hnul : 0 ∈ m.load base n)
    (calls : List (Option (List UInt8))) :
    Guarded (appendAt n base) (AllOrNothing n base) m calls ∧
      Always (appendAt n base) (Terminated n base) m calls := by
  have hstart : Terminated n base m := terminated_iff.mpr hnul
  have hcalls : Guarded (appendAt n base) (fun _ _ => True) m calls :=
    guarded_of_forall (fun _ _ => trivial) m calls
  constructor
  · exact guarded_of_inv (Terminated n base)
      (fun m data h _ => ⟨terminated_appendAt hn h data, allOrNothing hn h data⟩) hstart hcalls
  · exact always_of_step (P := Terminated n base)
      (fun m data h => terminated_appendAt hn h data) hstart calls

/-- A string of eight bytes takes five, refuses three, and takes two with a NUL. -/
theorem append_run_eight :
    let calls := [some [104, 101, 108, 108, 111], some [33, 33, 33], none, some [0, 33]]
    let m : Memory := fun _ => 0
    Guarded (appendAt 8 100) (AllOrNothing 8 100) m calls ∧
      Always (appendAt 8 100) (Terminated 8 100) m calls :=
  append_run (by decide) (by decide) _

end NetTest.Strings
