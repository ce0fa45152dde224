import NetTest.Basic.Config.Model
import NetTest.Lib.Numerals

/-!
# Numbers read from the tree

`ConfigNode::get<T>` for the integer types.  Each type has its own chain of prefix
tests, conversion and cast: `int` has no prefix test, the unsigned types accept a
minus sign, and the types narrower than the conversion cut the result off.
-/

namespace NetTest.Config

open Numerals

inductive NumType where
  | int16
  | uint16
  | int32
  | uint32
  | int64
  | uint64
  deriving DecidableEq, Repr

def NumType.low : NumType → Int
  | .int16 => -2 ^ 15
  | .int32 => -2 ^ 31
  | .int64 => -2 ^ 63
  | .uint16 | .uint32 | .uint64 => 0

def NumType.high : NumType → Int
  | .int16 => 2 ^ 15
  | .uint16 => 2 ^ 16
  | .int32 => 2 ^ 31
  | .uint32 => 2 ^ 32
  | .int64 => 2 ^ 63
  | .uint64 => 2 ^ 64

def NumType.Fits (t : NumType) (v : Int) : Prop := t.low ≤ v ∧ v < t.high

instance (t : NumType) (v : Int) : Decidable (t.Fits v) :=
  inferInstanceAs (Decidable (t.low ≤ v ∧ v < t.high))

/-- `std::get<T>(val)`, where `val` holds a `T`. -/
def NumType.held : NumType → Value → Option Int
  | .int16, .int16 v => some v.toInt
  | .uint16, .uint16 v => some v.toNat
  | .int32, .int32 v => some v.toInt
  | .uint32, .uint32 v => some v.toNat
  | .int64, .int64 v => some v.toInt
  | .uint64, .uint64 v => some v.toNat
  | _, _ => none

/-- `static_cast` to a type of `w` bits. -/
def castUnsigned (w : Nat) (v : Int) : Int := v % 2 ^ w

def castSigned (w : Nat) (v : Int) : Int := Int.bmod v (2 ^ w)

/-- `str_val.find(start) == 0`. -/
def startsWith (start : String) (str : Str) : Bool := (ascii start).isPrefixOf str

/-- The chain of prefix tests: a conversion in base 16 or 2, or another one. -/
def byPrefix (conv : Nat → Str → Except Raised Int) (other : Str → Except Raised Int) (str : Str) :
    Except Raised Int :=
  if startsWith "0x" str || startsWith "0X" str then conv 16 str
  else if startsWith "0b" str || startsWith "0B" str then conv 2 str
  else other str

def getInt32 (str : Str) : Except Raised Int := stoi isSpace 10 str

def getInt64 (str : Str) : Except Raised Int := byPrefix (stol isSpace) (stol isSpace 10) str

def getUint32 (str : Str) : Except Raised Int :=
  (byPrefix (stoul isSpace) (stoul isSpace 10) str).map (castUnsigned 32)

def getUint64 (str : Str) : Except Raised Int := byPrefix (stoul isSpace) (stoul isSpace 10) str

def getInt16 (str : Str) : Except Raised Int :=
  (byPrefix (stol isSpace) (stoi isSpace 10) str).map (castSigned 16)

def getUint16 (str : Str) : Except Raised Int :=
  (byPrefix (stoul isSpace) (stoul isSpace 10) str).map (castUnsigned 16)

def NumType.read : NumType → Str → Except Raised Int
  | .int16 => getInt16
  | .uint16 => getUint16
  | .int32 => getInt32
  | .uint32 => getUint32
  | .int64 => getInt64
  | .uint64 => getUint64

/-- `get<T>(default_value)`. -/
def ConfigNode.getNumber (t : NumType) (node : ConfigNode) (defaultValue : Int) :
    Except Raised Int :=
  match node with
  | .value val =>
      match t.held val with
      | some v => .ok v
      | none =>
          match val with
          | .string str => t.read str
          | _ => .ok defaultValue
  | _ => .ok defaultValue

/-- `get<T>()`: the default is `T{}`. -/
def ConfigNode.number (t : NumType) (node : ConfigNode) : Except Raised Int :=
  node.getNumber t 0

/-! ## Numerals -/

theorem readable_isSpace : Readable isSpace where
  plus := by decide
  minus := by decide
  digit c hc := by
    have hnone : whitespace.all (!isDigit 10 ·) = true := by decide
    apply Bool.eq_false_of_not_eq_true
    intro hspace
    have hother := List.all_eq_true.mp hnone c (List.contains_iff_mem.mp hspace)
    rw [hc] at hother
    contradiction

/-- A decimal numeral has no letter as its second byte. -/
theorem startsWith_decimal {str : Str} {v : Int} (h : Numeral .decimal str v) {start : String}
    {x : UInt8} (hstart : ascii start = [zeroDigit, x]) (hx : isDigit 10 x = false) :
    startsWith start str = false := by
  apply Bool.eq_false_of_not_eq_true
  rw [startsWith, hstart, List.isPrefixOf_iff_prefix]
  intro h
  rcases h with ⟨rest, rfl⟩
  rw [List.cons_append] at h
  cases h with
  | plain hne hdigits =>
      rw [hdigits x (List.mem_cons_of_mem _ List.mem_cons_self)] at hx
      contradiction

theorem byPrefix_decimal {str : Str} {v : Int} (h : Numeral .decimal str v)
    (conv : Nat → Str → Except Raised Int) (other : Str → Except Raised Int) :
    byPrefix conv other str = other str := by
  have hx : ascii "0x" = [zeroDigit, 120] := by decide
  have hX : ascii "0X" = [zeroDigit, 88] := by decide
  have hb : ascii "0b" = [zeroDigit, 98] := by decide
  have hB : ascii "0B" = [zeroDigit, 66] := by decide
  rw [byPrefix, startsWith_decimal h hx (by decide), startsWith_decimal h hX (by decide),
    startsWith_decimal h hb (by decide), startsWith_decimal h hB (by decide)]
  rfl

theorem byPrefix_hexadecimal {str : Str} {v : Int} (h : Numeral .hexadecimal str v)
    (conv : Nat → Str → Except Raised Int) (other : Str → Except Raised Int) :
    byPrefix conv other str = conv 16 str := by
  cases h with
  | @hex digits x hx hne hdigits =>
      have hstart : (startsWith "0x" (zeroDigit :: x :: digits) ||
          startsWith "0X" (zeroDigit :: x :: digits)) = true := by
        rw [Bool.or_eq_true]
        rcases hx with rfl | rfl
        · exact Or.inl (List.isPrefixOf_iff_prefix.mpr ⟨digits, rfl⟩)
        · exact Or.inr (List.isPrefixOf_iff_prefix.mpr ⟨digits, rfl⟩)
      rw [byPrefix, if_pos hstart]

/-- What `get<T>` makes of a numeral of the value `v`. -/
def outcome : NumType → Notation → Int → Except Raised Int
  | .int64, _, v => bounded (-2 ^ 63) (2 ^ 63) v
  | .int32, .decimal, v => bounded (-2 ^ 31) (2 ^ 31) v
  | .int32, .hexadecimal, _ => .ok 0
  | .int16, .decimal, v => (bounded (-2 ^ 31) (2 ^ 31) v).map (castSigned 16)
  | .int16, .hexadecimal, v => (bounded (-2 ^ 63) (2 ^ 63) v).map (castSigned 16)
  | .uint64, _, v => wrapped v
  | .uint32, _, v => (wrapped v).map (castUnsigned 32)
  | .uint16, _, v => (wrapped v).map (castUnsigned 16)

theorem read_numeral (t : NumType) {kind : Notation} {str : Str} {v : Int}
    (h : Numeral kind str v) : t.read str = outcome t kind v := by
  have hlong := stol_numeral readable_isSpace h
  have hulong := stoul_numeral readable_isSpace h
  cases kind with
  | decimal =>
      have hint := stoi_numeral readable_isSpace h
      rw [Notation.base] at hlong hulong
      cases t with
      | int16 => rw [NumType.read, getInt16, byPrefix_decimal h, hint, outcome]
      | uint16 => rw [NumType.read, getUint16, byPrefix_decimal h, hulong, outcome]
      | int32 => rw [NumType.read, getInt32, hint, outcome]
      | uint32 => rw [NumType.read, getUint32, byPrefix_decimal h, hulong, outcome]
      | int64 => rw [NumType.read, getInt64, byPrefix_decimal h, hlong, outcome]
      | uint64 => rw [NumType.read, getUint64, byPrefix_decimal h, hulong, outcome]
  | hexadecimal =>
      rw [Notation.base] at hlong hulong
      cases t with
      | int16 => rw [NumType.read, getInt16, byPrefix_hexadecimal h, hlong, outcome]
      | uint16 => rw [NumType.read, getUint16, byPrefix_hexadecimal h, hulong, outcome]
      | int32 => rw [NumType.read, getInt32, stoi_hexadecimal readable_isSpace h, outcome]
      | uint32 => rw [NumType.read, getUint32, byPrefix_hexadecimal h, hulong, outcome]
      | int64 => rw [NumType.read, getInt64, byPrefix_hexadecimal h, hlong, outcome]
      | uint64 => rw [NumType.read, getUint64, byPrefix_hexadecimal h, hulong, outcome]

/-! ## When the value is faithful -/

/-- The result for a numeral of the value `v`: `v` where `T` has it, and no other number
than the default where it has not. -/
def Faithful (t : NumType) (v : Int) (result : Except Raised Int) : Prop :=
  (t.Fits v → result = .ok v) ∧ (¬ t.Fits v → ∀ x, result = .ok x → x = 0)

def ReadsRight : NumType → Notation → Int → Prop
  | .int64, _, _ => True
  | .int32, .decimal, _ => True
  | .int32, .hexadecimal, v => v = 0 ∨ 2 ^ 31 ≤ v
  | .int16, .decimal, v => NumType.int16.Fits v ∨ v < -2 ^ 31 ∨ 2 ^ 31 ≤ v ∨ v % 2 ^ 16 = 0
  | .int16, .hexadecimal, v => NumType.int16.Fits v ∨ 2 ^ 63 ≤ v ∨ v % 2 ^ 16 = 0
  | .uint64, _, v => 0 ≤ v ∨ v ≤ -2 ^ 64
  | .uint32, _, v => NumType.uint32.Fits v ∨ v ≤ -2 ^ 64 ∨ 2 ^ 64 ≤ v ∨ v % 2 ^ 32 = 0
  | .uint16, _, v => NumType.uint16.Fits v ∨ v ≤ -2 ^ 64 ∨ 2 ^ 64 ≤ v ∨ v % 2 ^ 16 = 0

/-- A conversion that is checked and then cast. -/
theorem faithful_ite_iff (t : NumType) (v x : Int) (Checked : Prop) [Decidable Checked] :
    Faithful t v (if Checked then .ok x else .error .outOfRange) ↔
      (t.Fits v → Checked ∧ x = v) ∧ (¬ t.Fits v → Checked → x = 0) := by
  by_cases hchecked : Checked
  · simp only [Faithful, hchecked, if_true, true_and, forall_const, Except.ok.injEq, forall_eq']
  · simp only [Faithful, hchecked, if_false, false_and, reduceCtorEq, false_implies, implies_true]

theorem bounded_map (low high v : Int) (cast : Int → Int) :
    (bounded low high v).map cast =
      if low ≤ v ∧ v < high then .ok (cast v) else .error .outOfRange := by
  unfold bounded
  split <;> rfl

theorem wrapped_map (v : Int) (cast : Int → Int) :
    (wrapped v).map cast =
      if -2 ^ 64 < v ∧ v < 2 ^ 64 then .ok (cast (v % 2 ^ 64)) else .error .outOfRange := by
  unfold wrapped
  split <;> rfl

theorem castSigned_eq_self_iff (v : Int) : castSigned 16 v = v ↔ NumType.int16.Fits v := by
  simp only [castSigned, Int.bmod_def, NumType.Fits, NumType.low, NumType.high]
  split <;> omega

theorem castSigned_eq_zero_iff (v : Int) : castSigned 16 v = 0 ↔ v % 2 ^ 16 = 0 := by
  simp only [castSigned, Int.bmod_def]
  split <;> omega

/-- Exactly the values in `ReadsRight` are read faithfully. -/
theorem faithful_outcome_iff (t : NumType) {kind : Notation} {v : Int}
    (hsign : kind = .hexadecimal → 0 ≤ v) : Faithful t v (outcome t kind v) ↔ ReadsRight t kind v := by
  cases t with
  | int16 =>
      have hself := castSigned_eq_self_iff v
      have hzero := castSigned_eq_zero_iff v
      cases kind with
      | decimal =>
          rw [outcome, bounded_map, faithful_ite_iff, hself, hzero]
          simp only [ReadsRight, NumType.Fits, NumType.low, NumType.high]
          omega
      | hexadecimal =>
          have hv := hsign rfl
          rw [outcome, bounded_map, faithful_ite_iff, hself, hzero]
          simp only [ReadsRight, NumType.Fits, NumType.low, NumType.high]
          omega
  | uint16 =>
      rw [outcome, wrapped_map, faithful_ite_iff]
      simp only [ReadsRight, castUnsigned, NumType.Fits, NumType.low, NumType.high]
      omega
  | int32 =>
      cases kind with
      | decimal =>
          rw [outcome, bounded, faithful_ite_iff]
          exact iff_of_true ⟨fun hfits => ⟨hfits, rfl⟩, fun hnot hfits => absurd hfits hnot⟩ trivial
      | hexadecimal =>
          have hv := hsign rfl
          have hfits : NumType.int32.Fits v ↔ v < 2 ^ 31 := by
            simp only [NumType.Fits, NumType.low, NumType.high]
            omega
          rw [outcome, Faithful, hfits, ReadsRight, Except.ok.injEq]
          constructor
          · intro h
            by_cases hsmall : v < 2 ^ 31
            · exact Or.inl (h.1 hsmall).symm
            · exact Or.inr (Int.not_lt.mp hsmall)
          · intro h
            constructor
            · omega
            · intro _ x hx
              exact (Except.ok.inj hx).symm
  | uint32 =>
      rw [outcome, wrapped_map, faithful_ite_iff]
      simp only [ReadsRight, castUnsigned, NumType.Fits, NumType.low, NumType.high]
      omega
  | int64 =>
      rw [outcome, bounded, faithful_ite_iff]
      exact iff_of_true ⟨fun hfits => ⟨hfits, rfl⟩, fun hnot hfits => absurd hfits hnot⟩ trivial
  | uint64 =>
      rw [outcome, wrapped, faithful_ite_iff]
      simp only [ReadsRight, NumType.Fits, NumType.low, NumType.high]
      omega

/-- Which numerals `get<T>()` reads faithfully, for every integer type. -/
theorem number_faithful_iff (t : NumType) (kind : Notation) (str : Str) (v : Int)
    (h : Numeral kind str v) :
    Faithful t v ((ConfigNode.value (.string str)).number t) ↔ ReadsRight t kind v := by
  have hread : (ConfigNode.value (.string str)).number t = outcome t kind v := by
    rw [← read_numeral t h]
    cases t <;> rfl
  rw [hread]
  apply faithful_outcome_iff
  rintro rfl
  exact hexadecimal_nonneg h

theorem number_faithful_iff_hex :
    Faithful .uint32 255 ((ConfigNode.value (.string (ascii "0xfF"))).number .uint32) ↔
      ReadsRight .uint32 .hexadecimal 255 :=
  number_faithful_iff .uint32 .hexadecimal (ascii "0xfF") 255
    (@Numeral.hex [102, 70] lowerX (Or.inl rfl) (by decide) (List.all_eq_true.mp (by decide)))

/-- `get<int>()` of `"0x10"` is 0. -/
theorem number_not_faithful :
    ¬ (∀ (t : NumType) (kind : Notation) (str : Str) (v : Int), Numeral kind str v →
        Faithful t v ((ConfigNode.value (.string str)).number t)) := by
  intro h
  have hnumeral : Numeral .hexadecimal (ascii "0x10") 16 :=
    @Numeral.hex [49, 48] lowerX (Or.inl rfl) (by decide) (List.all_eq_true.mp (by decide))
  have hread := (h .int32 .hexadecimal (ascii "0x10") 16 hnumeral).1 (by decide)
  have hzero : (ConfigNode.value (.string (ascii "0x10"))).number .int32 = .ok 0 := by decide
  rw [hzero] at hread
  cases hread

end NetTest.Config
