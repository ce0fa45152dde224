import NetTest.Basic.FString.Model

/-!
# Comparisons of fixed strings

`operator==` and `operator<` for two `fstring`s compare the arrays, `operator>` only
asks whether they differ, and the comparison with a `std::string` asks for a length
that no text of the array has.
-/

namespace NetTest.Strings

open CString

variable {n : Nat}

/-- The comparisons of `a` with `b`, with the C string `c` and with the string `s` are
the comparisons of the texts. -/
structure Agree (a b : FString n) (c s : List UInt8) : Prop where
  eq : a.eq b = true ↔ a.str = b.str
  lt : a.lt b = true ↔ a.str < b.str
  gt : a.gt b = true ↔ b.str < a.str
  eqCStr : a.eqCStr (some c) = true ↔ a.str = c
  ltCStr : a.ltCStr (some c) = true ↔ a.str < c
  gtCStr : a.gtCStr (some c) = true ↔ c < a.str
  cStrEq : FString.cStrEq c a = true ↔ a.str = c
  eqString : a.eqString s = true ↔ a.str = s
  ltString : a.ltString s = true ↔ a.str < s
  gtString : a.gtString s = true ↔ s < a.str

theorem gt_iff (a b : FString n) : a.gt b = true ↔ a.data ≠ b.data := by
  rw [FString.gt, bne_iff_ne, Ne, memcmp_eq_zero_iff (a.length_data.trans b.length_data.symm)]

theorem eq_iff (a b : FString n) : a.eq b = true ↔ a.data = b.data := by
  rw [FString.eq, beq_iff_eq, memcmp_eq_zero_iff (a.length_data.trans b.length_data.symm)]

theorem lt_iff_of_ne {a b : FString n} (h : a.str ≠ b.str) : a.lt b = true ↔ a.str < b.str := by
  rw [FString.lt, decide_eq_true_iff,
    memcmp_eq_strcmp (a.length_data.trans b.length_data.symm) h]
  exact strcmp_neg_iff a.data b.data

/-- The array is never as long as a text it holds. -/
theorem eqString_eq_false (a : FString n) {s : List UInt8} (hs : 0 ∉ s) : a.eqString s = false := by
  rw [FString.eqString]
  by_cases hlen : s.length = n
  · rw [if_neg (not_not_intro hlen), strncmp_eq_strcmp a.length_lt, beq_eq_false_iff_ne]
    intro hzero
    have htext := (strcmp_eq_zero_iff a.data s).mp hzero
    rw [cstr_of_no_nul hs] at htext
    have hlt := a.length_lt
    rw [FString.length, FString.str, htext, hlen] at hlt
    exact Nat.lt_irrefl n hlt
  · rw [if_pos hlen]

theorem pair_iff (a b : FString n) :
    ((a.eq b = true ↔ a.str = b.str) ∧ (a.lt b = true ↔ a.str < b.str) ∧
        (a.gt b = true ↔ b.str < a.str)) ↔
      a.data = b.data ∨ b.str < a.str := by
  rw [eq_iff, gt_iff]
  constructor
  · intro h
    by_cases hdata : a.data = b.data
    · exact Or.inl hdata
    · exact Or.inr (h.2.2.mp hdata)
  · intro h
    rcases h with hdata | hless
    · have htext : a.str = b.str := by rw [FString.str, FString.str, hdata]
      have hzero : memcmp a.data b.data = 0 :=
        (memcmp_eq_zero_iff (a.length_data.trans b.length_data.symm)).mpr hdata
      refine ⟨iff_of_true hdata htext, ?_, ?_⟩
      · rw [FString.lt, hzero, htext]
        exact iff_of_false (by decide) (List.lt_irrefl _)
      · rw [htext]
        exact iff_of_false (not_not_intro hdata) (List.lt_irrefl _)
    · have htext : a.str ≠ b.str := by
        intro heq
        rw [heq] at hless
        exact List.lt_irrefl _ hless
      have hdata : a.data ≠ b.data := by
        intro heq
        exact htext (by rw [FString.str, FString.str, heq])
      exact ⟨iff_of_false hdata htext, lt_iff_of_ne htext, iff_of_true hdata hless⟩

/-- The comparisons are right exactly when the arrays are equal or `b` has the smaller
text, and the text of `a` is not `s`. -/
theorem agree_iff (a b : FString n) {c s : List UInt8} (hc : 0 ∉ c) (hs : 0 ∉ s) :
    Agree a b c s ↔ (a.data = b.data ∨ b.str < a.str) ∧ a.str ≠ s := by
  rw [← pair_iff]
  constructor
  · intro h
    constructor
    · exact ⟨h.eq, h.lt, h.gt⟩
    · intro heq
      have hfound := h.eqString.mpr heq
      rw [eqString_eq_false a hs] at hfound
      contradiction
  · intro h
    rcases h with ⟨⟨heq, hlt, hgt⟩, hne⟩
    have hnc : ∀ ys, strncmp n a.data ys = strcmp a.data ys := strncmp_eq_strcmp a.length_lt
    have hce : cstr c = c := cstr_of_no_nul hc
    have hse : cstr s = s := cstr_of_no_nul hs
    constructor
    · exact heq
    · exact hlt
    · exact hgt
    · rw [FString.eqCStr, beq_iff_eq, strcmp_eq_zero_iff, hce, FString.str]
    · rw [FString.ltCStr, decide_eq_true_iff, strcmp_neg_iff, hce, FString.str]
    · rw [FString.gtCStr, decide_eq_true_iff, gt_iff_lt, strcmp_pos_iff, hce, FString.str]
    · rw [FString.cStrEq, beq_iff_eq, strcmp_eq_zero_iff, hce, FString.str, eq_comm]
    · rw [eqString_eq_false a hs]
      exact iff_of_false Bool.false_ne_true hne
    · rw [FString.ltString, decide_eq_true_iff, hnc, strcmp_neg_iff, hse, FString.str]
    · rw [FString.gtString, decide_eq_true_iff, gt_iff_lt, hnc, strcmp_pos_iff, hse, FString.str]

theorem agree_iff_four :
    let a : FString 4 := FString.ofCStr (by decide) (some [98])
    let b : FString 4 := (FString.ofCStr (by decide) (some [97])).append [99]
    Agree a b [98] [97] ↔ (a.data = b.data ∨ b.str < a.str) ∧ a.str ≠ [97] :=
  agree_iff _ _ (by decide) (by decide)

/-- `"a" > "b"`, and `"a"` differs from the string `"a"`. -/
theorem not_agree_four :
    let a : FString 4 := FString.ofCStr (by decide) (some [97])
    let b : FString 4 := FString.ofCStr (by decide) (some [98])
    a.gt b = true ∧ a.str < b.str ∧ a.eqString [97] = false ∧ a.str = [97] ∧
      ¬ Agree a b [97] [97] := by
  intro a b
  have hgt : a.gt b = true := by decide
  have hless : ¬ b.str < a.str := by decide
  refine ⟨hgt, by decide, by decide, by decide, ?_⟩
  intro h
  exact hless (h.gt.mp hgt)

end NetTest.Strings
