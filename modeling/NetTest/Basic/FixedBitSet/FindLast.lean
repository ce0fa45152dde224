import NetTest.Basic.FixedBitSet.FindFirst

/-!
# The search downwards

`find_last_set` starts with the byte that holds position `N - offset`, one past
the last index it may answer.  It asks whether that byte is zero before it knows
that it exists, scans downwards without a lower end when it is not, and counts
bytes and positions in an `int` when it is.
-/

namespace NetTest.BitSet

open Bits Search Wrapping

variable {n : Nat}

def Padded (s : FixedBitSet n) : Prop := ∀ p, n ≤ p → s.bitAt p = false

theorem padded_run (counted : n + 7 < sizeT) (calls : List Call) :
    Padded (calls.foldl step (create counted : FixedBitSet n)) := by
  intro p hp
  rw [bitAt_run, decide_eq_false (by omega)]

theorem test_eq_bitAt_of_padded {s : FixedBitSet n} (hs : Padded s) (p : Nat) :
    s.test p = s.bitAt p := by
  by_cases hp : p < n
  · exact test_eq_bitAt s hp
  · rw [test_of_ge s (Nat.le_of_not_lt hp), hs p (Nat.le_of_not_lt hp)]

theorem exists_test_of_byte_ne_zero {s : FixedBitSet n} (hs : Padded s) {i : Nat} {byte : UInt8}
    (hbyte : s.bits[i]? = some byte) (hne : byte ≠ 0) :
    ∃ p, i * 8 ≤ p ∧ p < i * 8 + 8 ∧ s.test p = true := by
  rcases exists_bit_of_ne_zero hne with ⟨k, hk, hbit⟩
  refine ⟨i * 8 + k, by omega, by omega, ?_⟩
  rw [test_eq_bitAt_of_padded hs, FixedBitSet.bitAt, show (i * 8 + k) / 8 = i by omega, hbyte,
    show (i * 8 + k) % 8 = k by omega]
  exact hbit

/-! ## The loops -/

/-- The loop over the partial byte comes to the greatest index at or below its
first position, if there is one, however far down that is. -/
theorem scanPartial_eq (s : FixedBitSet n) (c : Nat) {bit m p : Nat} (turns : Nat)
    (hbit : (c / 8 * 8 + bit) % sizeT = m) (hp : findDown s.test (m + 1) = some p) :
    s.scanPartial c bit turns = if m - p < turns then some (toPos p) else none := by
  induction turns generalizing bit m with
  | zero => rfl
  | succ turns ih =>
      rw [FixedBitSet.scanPartial, hbit]
      rw [findDown] at hp
      cases htest : s.test m with
      | true =>
          rw [htest, if_pos rfl] at hp
          cases hp
          rw [if_pos rfl, if_pos (by omega)]
      | false =>
          rw [htest, if_neg Bool.false_ne_true] at hp
          cases m with
          | zero => cases hp
          | succ m =>
              have hle : p < m + 1 := (findDown_isGreatest hp).1.1
              have hnext : (c / 8 * 8 + diff bit 1) % sizeT = m := by
                unfold diff sizeT at *
                omega
              rw [if_neg Bool.false_ne_true, ih hnext hp]
              by_cases hturns : m - p < turns
              · rw [if_pos hturns, if_pos (by omega)]
              · rw [if_neg hturns, if_neg (by omega)]

theorem scanPartial_some {s : FixedBitSet n} {c bit turns : Nat} {answer : Int}
    (h : s.scanPartial c bit turns = some answer) : ∃ p, s.test p = true ∧ answer = toPos p := by
  induction turns generalizing bit with
  | zero => cases h
  | succ turns ih =>
      rw [FixedBitSet.scanPartial] at h
      split at h
      · rename_i htest
        exact ⟨_, htest, (Option.some.inj h).symm⟩
      · exact ih h

theorem scanByteDown_eq (s : FixedBitSet n) {i bit p : Nat} (hi : i < 2 ^ 28) (hbit : bit ≤ 8)
    (hp : findDown s.test (i * 8 + bit) = some p) (hle : i * 8 ≤ p) :
    s.scanByteDown i bit = some (.pos p) := by
  induction bit with
  | zero =>
      have hlt : p < i * 8 := (findDown_isGreatest hp).1.1
      omega
  | succ bit ih =>
      rw [FixedBitSet.scanByteDown, if_neg (by omega)]
      rw [← Nat.add_assoc, findDown] at hp
      cases htest : s.test (i * 8 + bit) with
      | true =>
          rw [htest, if_pos rfl] at hp
          cases hp
          rw [if_pos rfl]
      | false =>
          rw [htest, if_neg Bool.false_ne_true] at hp
          rw [if_neg Bool.false_ne_true]
          exact ih (by omega) hp

/-- The byte loop finds the greatest index of its bytes, if an `int` can hold it. -/
theorem scanBytesDown_eq {s : FixedBitSet n} (hs : Padded s) {count : Nat} (hcount : count ≤ cap n) :
    s.scanBytesDown count =
      match findDown s.test (count * 8) with
      | some p => if p < 2 ^ 31 then .pos p else .overflow
      | none => .pos npos := by
  induction count with
  | zero => rfl
  | succ i ih =>
      have hbyte : s.bits[i]? = some s.bits[i] := Vector.getElem?_eq_getElem hcount
      rw [FixedBitSet.scanBytesDown, hbyte, show (i + 1) * 8 = i * 8 + 8 by omega]
      by_cases hzero : s.bits[i] = 0
      · rw [hzero] at hbyte
        simp only [hzero, ne_eq, not_true_eq_false, if_false]
        rw [ih (by omega), findDown_add fun q hq hlt => test_of_byte_zero hbyte (by omega)]
      · simp only [ne_eq, hzero, not_false_eq_true, if_true]
        rcases exists_test_of_byte_ne_zero hs hbyte hzero with ⟨q, hge, hlt, htrue⟩
        cases hfind : findDown s.test (i * 8 + 8) with
        | none =>
            rw [findDown_eq_none_iff.mp hfind q hlt] at htrue
            contradiction
        | some p =>
            have hqp : q ≤ p := (findDown_isGreatest hfind).2 ⟨hlt, htrue⟩
            have hplt : p < i * 8 + 8 := (findDown_isGreatest hfind).1.1
            by_cases hi : i < 2 ^ 28
            · rw [scanByteDown_eq s hi (Nat.le_refl 8) hfind (by omega)]
              simp only [if_pos (show p < 2 ^ 31 by omega)]
            · rw [FixedBitSet.scanByteDown, if_pos (by omega)]
              simp only [if_neg (show ¬ p < 2 ^ 31 by omega)]

theorem bmod_le_self (x : Nat) {m : Nat} (hm : 0 < m) : Int.bmod (x : Int) m ≤ x := by
  have h : ((x % m : Nat) : Int) ≤ x := Int.ofNat_le.mpr (Nat.mod_le x m)
  rw [Int.natCast_emod] at h
  rw [Int.bmod_def]
  split <;> omega

/-! ## When the search is right -/

def setBelow (s : FixedBitSet n) (c : Nat) : Set Nat := {p | p < c ∧ s.test p = true}

def IsLastSet (s : FixedBitSet n) (c : Nat) : Int → Prop :=
  Answers (setBelow s c) (IsGreatest (setBelow s c))

/-- The call returns, reads inside the array, and answers the last index below
`N - offset`. -/
def LastRight (s : FixedBitSet n) (offset : Nat) : Prop :=
  ∃ turns answer, s.findLastSet offset turns = some (.pos answer) ∧
    IsLastSet s (n - offset) answer

/-- The condition: the byte asked about first exists; if a bit in it is set, then one
below the cut is set and `pos_t` can hold the last such index; if none is, then an
`int` can hold the last index below the cut, and its byte is not cut off with the
number of the first byte. -/
def LastOk (s : FixedBitSet n) (offset : Nat) : Prop :=
  (offset = 0 → n % 8 ≠ 0) ∧
    ((∃ p, p / 8 = (n - offset) / 8 ∧ s.test p = true) →
      ∃ p, IsGreatest (setBelow s (n - offset)) p ∧ p < 2 ^ 63) ∧
    ((∀ p, p / 8 = (n - offset) / 8 → s.test p = false) →
      ∀ p, IsGreatest (setBelow s (n - offset)) p →
        p < 2 ^ 31 ∧ ((p / 8 : Nat) : Int) ≤ Int.bmod (((n - offset) / 8 : Nat) : Int) (2 ^ 32))

theorem isLastSet_greatest {s : FixedBitSet n} {c p : Nat} (h : IsGreatest (setBelow s c) p)
    (answer : Int) : IsLastSet s c answer ↔ answer = p :=
  answers_best h (fun _ hq => hq.unique h) h.1 answer

theorem not_isGreatest_empty {s : FixedBitSet n} {c : Nat} (h : setBelow s c = ∅) (p : Nat) :
    ¬ IsGreatest (setBelow s c) p := by
  intro hp
  have hmem := hp.1
  rw [h] at hmem
  exact Set.notMem_empty p hmem

theorem isLastSet_empty {s : FixedBitSet n} {c : Nat} (h : setBelow s c = ∅) (answer : Int) :
    IsLastSet s c answer ↔ answer = npos :=
  answers_empty h (not_isGreatest_empty h) answer

theorem setBelow_cases (s : FixedBitSet n) (c : Nat) :
    (∃ p, findDown s.test c = some p ∧ IsGreatest (setBelow s c) p) ∨
      findDown s.test c = none ∧ setBelow s c = ∅ := by
  cases hfind : findDown s.test c with
  | some p => exact .inl ⟨p, rfl, findDown_isGreatest hfind⟩
  | none =>
      right
      constructor
      · rfl
      · apply Set.eq_empty_of_forall_notMem
        intro q hmem
        rcases hmem with ⟨hq, hqtrue⟩
        rw [findDown_eq_none_iff.mp hfind q hq] at hqtrue
        contradiction

theorem first_byte_iff (s : FixedBitSet n) {offset : Nat} (hoffset : offset < n) :
    (n - offset) / 8 < cap n ↔ (offset = 0 → n % 8 ≠ 0) := by
  rw [cap_eq s.counted]
  omega

theorem lastRight_of_byte_ne_zero {s : FixedBitSet n} {offset : Nat} {byte : UInt8}
    (hoffset : offset < n) (hbyte : s.bits[(n - offset) / 8]? = some byte) (hne : byte ≠ 0) :
    LastRight s offset ↔ ∃ p, IsGreatest (setBelow s (n - offset)) p ∧ p < 2 ^ 63 := by
  have hsize := s.counted
  have hcode : ∀ turns, s.findLastSet offset turns =
      (s.scanPartial (n - offset) (diff ((n - offset) % 8) 1) turns).map .pos := by
    intro turns
    simp only [FixedBitSet.findLastSet, if_neg (Nat.not_le_of_lt hoffset), hbyte, ne_eq, hne,
      not_false_eq_true, if_true]
  rcases setBelow_cases s (n - offset) with ⟨p, hfind, hp⟩ | ⟨hfind, hempty⟩
  · have hstart : ((n - offset) / 8 * 8 + diff ((n - offset) % 8) 1) % sizeT = n - offset - 1 := by
      unfold diff sizeT at *
      omega
    have hscan := fun turns => scanPartial_eq s (n - offset) turns hstart
      (by rw [show n - offset - 1 + 1 = n - offset by omega, hfind])
    have hlt := s.lt_sizeT (lt_of_test hp.1.2)
    have hfits : (∃ q, IsGreatest (setBelow s (n - offset)) q ∧ q < 2 ^ 63) ↔ p < 2 ^ 63 := by
      constructor
      · intro h
        rcases h with ⟨q, hq, hqlt⟩
        rw [hp.unique hq]
        exact hqlt
      · intro hplt
        exact ⟨p, hp, hplt⟩
    have hturns : n - offset - 1 - p < n - offset := by omega
    rw [hfits, ← toPos_eq_iff (by omega)]
    constructor
    · intro hright
      rcases hright with ⟨turns, answer, hanswer, hlast⟩
      rw [hcode] at hanswer
      rcases Option.map_eq_some_iff.mp hanswer with ⟨found, hfound, heq⟩
      rw [hscan] at hfound
      split at hfound
      · rw [← Found.pos.inj heq, ← Option.some.inj hfound] at hlast
        exact (isLastSet_greatest hp _).mp hlast
      · cases hfound
    · intro hfits
      refine ⟨n - offset, toPos p, ?_, (isLastSet_greatest hp _).mpr hfits⟩
      rw [hcode, hscan, if_pos hturns, Option.map_some]
  · apply iff_of_false
    · intro hright
      rcases hright with ⟨turns, answer, hanswer, hlast⟩
      rw [hcode] at hanswer
      rcases Option.map_eq_some_iff.mp hanswer with ⟨found, hfound, heq⟩
      rcases scanPartial_some hfound with ⟨q, hq, hpos⟩
      rw [← Found.pos.inj heq, isLastSet_empty hempty, hpos] at hlast
      exact toPos_ne_npos (s.lt_sizeT (lt_of_test hq)) hlast
    · intro h
      rcases h with ⟨p, hp, _⟩
      exact not_isGreatest_empty hempty p hp

/-- The answer of the loop over the bytes below `limit`, when nothing between the cut and
`limit` is set. -/
theorem isLastSet_findDown {s : FixedBitSet n} {c limit : Nat}
    (hbelow : ∀ p, p < limit → s.test p = true → p < c) :
    (∃ answer,
        (match findDown s.test limit with
        | some p => if p < 2 ^ 31 then Found.pos p else .overflow
        | none => .pos npos) = .pos answer ∧ IsLastSet s c answer) ↔
      ∀ p, IsGreatest (setBelow s c) p → p < 2 ^ 31 ∧ p < limit := by
  rcases setBelow_cases s c with ⟨q, _, hq⟩ | ⟨_, hempty⟩
  · have hcond : (∀ p, IsGreatest (setBelow s c) p → p < 2 ^ 31 ∧ p < limit) ↔
        q < 2 ^ 31 ∧ q < limit := by
      constructor
      · intro h
        exact h q hq
      · intro h p hp
        rw [hp.unique hq]
        exact h
    simp only [isLastSet_greatest hq]
    rw [hcond]
    cases hfind : findDown s.test limit with
    | some p =>
        have hp := findDown_isGreatest hfind
        have hpq : p ≤ q := hq.2 ⟨hbelow p hp.1.1 hp.1.2, hp.1.2⟩
        have hqp : q < limit → q ≤ p := fun hlt => hp.2 ⟨hlt, hq.1.2⟩
        have hplt := hp.1.1
        by_cases hint : p < 2 ^ 31
        · simp only [if_pos hint]
          constructor
          · intro h
            rcases h with ⟨answer, hanswer, heq⟩
            have hpos := Found.pos.inj hanswer
            omega
          · intro h
            exact ⟨p, rfl, by omega⟩
        · simp only [if_neg hint]
          apply iff_of_false
          · intro h
            rcases h with ⟨_, hanswer, _⟩
            contradiction
          · omega
    | none =>
        apply iff_of_false
        · intro h
          rcases h with ⟨answer, hanswer, heq⟩
          have hpos := Found.pos.inj hanswer
          rw [npos] at hpos
          omega
        · intro h
          have hfalse := findDown_eq_none_iff.mp hfind q h.2
          rw [hq.1.2] at hfalse
          contradiction
  · have hnone : findDown s.test limit = none := by
      apply findDown_eq_none_iff.mpr
      intro p hp
      apply Bool.eq_false_of_not_eq_true
      intro htrue
      have hmem : p ∈ setBelow s c := ⟨hbelow p hp htrue, htrue⟩
      rw [hempty] at hmem
      exact Set.notMem_empty p hmem
    simp only [hnone, isLastSet_empty hempty]
    exact iff_of_true ⟨npos, rfl, rfl⟩ fun p hp => absurd hp (not_isGreatest_empty hempty p)

/-- A byte that is zero: the loop over the bytes starts with the number an `int`
makes of it. -/
theorem lastRight_of_byte_zero {s : FixedBitSet n} (hs : Padded s) {offset : Nat}
    (hoffset : offset < n) (hbyte : s.bits[(n - offset) / 8]? = some 0) :
    LastRight s offset ↔ ∀ p, IsGreatest (setBelow s (n - offset)) p →
      p < 2 ^ 31 ∧ ((p / 8 : Nat) : Int) ≤ Int.bmod (((n - offset) / 8 : Nat) : Int) (2 ^ 32) := by
  have hb : (n - offset) / 8 < cap n := (Vector.getElem?_eq_some_iff.mp hbyte).1
  have hle := bmod_le_self ((n - offset) / 8) (Nat.two_pow_pos 32)
  have hcode : ∀ turns, s.findLastSet offset turns = some
      (s.scanBytesDown (Int.bmod (((n - offset) / 8 : Nat) : Int) (2 ^ 32) + 1).toNat) := by
    intro turns
    simp only [FixedBitSet.findLastSet, if_neg (Nat.not_le_of_lt hoffset), hbyte, ne_eq,
      not_true_eq_false, if_false]
  generalize Int.bmod (((n - offset) / 8 : Nat) : Int) (2 ^ 32) = start at *
  have hright : LastRight s offset ↔ ∃ answer,
      s.scanBytesDown (start + 1).toNat = .pos answer ∧ IsLastSet s (n - offset) answer := by
    simp only [LastRight, hcode, Option.some.injEq, exists_const]
  -- the bytes of the loop reach past the cut with the first byte only, which is zero
  have hbelow : ∀ p, p < (start + 1).toNat * 8 → s.test p = true → p < n - offset := by
    intro p hp htrue
    rcases Nat.lt_or_ge p (n - offset) with hlt | hge
    · exact hlt
    · rw [test_of_byte_zero hbyte (by omega)] at htrue
      contradiction
  have hreach : ∀ p : Nat, ((p / 8 : Nat) : Int) ≤ start ↔ p < (start + 1).toNat * 8 := by
    omega
  rw [hright, scanBytesDown_eq hs (by omega), isLastSet_findDown hbelow]
  simp only [hreach]

theorem lastRight_iff {s : FixedBitSet n} (hs : Padded s) {offset : Nat} (hoffset : offset < n) :
    LastRight s offset ↔ LastOk s offset := by
  rw [LastOk, ← first_byte_iff s hoffset]
  by_cases hb : (n - offset) / 8 < cap n
  · have hbyte : s.bits[(n - offset) / 8]? = some s.bits[(n - offset) / 8] :=
      Vector.getElem?_eq_getElem hb
    by_cases hzero : s.bits[(n - offset) / 8] = 0
    · rw [hzero] at hbyte
      have hclear : ∀ p, p / 8 = (n - offset) / 8 → s.test p = false :=
        fun p hp => test_of_byte_zero hbyte hp
      have hnone : ¬ ∃ p, p / 8 = (n - offset) / 8 ∧ s.test p = true := by
        intro h
        rcases h with ⟨p, hp, htrue⟩
        rw [hclear p hp] at htrue
        contradiction
      rw [lastRight_of_byte_zero hs hoffset hbyte]
      constructor
      · intro h
        exact ⟨hb, fun hset => absurd hset hnone, fun _ => h⟩
      · intro h
        exact h.2.2 hclear
    · rcases exists_test_of_byte_ne_zero hs hbyte hzero with ⟨p, hge, hlt, htrue⟩
      have hset : ∃ p, p / 8 = (n - offset) / 8 ∧ s.test p = true := ⟨p, by omega, htrue⟩
      rw [lastRight_of_byte_ne_zero hoffset hbyte hzero]
      constructor
      · intro h
        refine ⟨hb, fun _ => h, fun hclear => ?_⟩
        rw [hclear p (by omega)] at htrue
        contradiction
      · intro h
        exact h.2.1 hset
  · apply iff_of_false
    · -- the byte asked about is outside the array
      intro hright
      rcases hright with ⟨turns, answer, hanswer, _⟩
      have hbyte : s.bits[(n - offset) / 8]? = none :=
        Vector.getElem?_eq_none (Nat.le_of_not_lt hb)
      simp only [FixedBitSet.findLastSet, if_neg (Nat.not_le_of_lt hoffset), hbyte] at hanswer
      cases hanswer
    · intro h
      exact hb h.1

/-- After any sequence of calls, from any offset inside the set. -/
theorem findLastSet_right_iff (counted : n + 7 < sizeT) (calls : List Call) {offset : Nat}
    (hoffset : offset < n) :
    let s : FixedBitSet n := calls.foldl step (create counted)
    LastRight s offset ↔ LastOk s offset :=
  lastRight_iff (padded_run counted calls) hoffset

theorem findLastSet_right_iff_ten :
    let s : FixedBitSet 10 := [Call.set 9, .set 3].foldl step (create (by decide))
    LastRight s 2 ↔ LastOk s 2 :=
  findLastSet_right_iff (by decide) [Call.set 9, .set 3] (by decide)

/-- A search from 0 in an empty set of eight indices asks for a second byte. -/
theorem findLastSet_outside :
    let s : FixedBitSet 8 := create (by decide)
    cap 8 = 1 ∧ (∀ turns, s.findLastSet 0 turns = some (.outside 1)) ∧ ¬ LastRight s 0 := by
  intro s
  have hcode : ∀ turns, s.findLastSet 0 turns = some (.outside 1) := fun _ => rfl
  refine ⟨by decide, hcode, ?_⟩
  intro hright
  rcases hright with ⟨turns, answer, hanswer, _⟩
  rw [hcode] at hanswer
  cases hanswer

end NetTest.BitSet
