import NetTest.Lib.CString
import NetTest.Lib.Memory

/-!
# Strings of fixed length

`fstring.h`: `N` bytes with a NUL among them.  Every constructor and `append` leave
one, so the text ends inside the array; what lies behind it is compared too by
the operators that take another `fstring`.

The free operators `fstring == fstring` and `std::string == fstring` call the
non-const `length` on constant references, do not compile where they are used,
and are left out.
-/

namespace NetTest.Strings

open CString

structure FString (n : Nat) where
  data : List UInt8
  length_data : data.length = n
  terminated : 0 ∈ data

variable {n : Nat}

/-- The bytes before the first NUL, of at most `count`. -/
def strnlen (m : Memory) (addr count : Nat) : Nat := (cstr (m.load addr count)).length

/-- `str()` and `to_string()`. -/
def FString.str (s : FString n) : List UInt8 := cstr s.data

/-- `length()` and `size()`. -/
def FString.length (s : FString n) : Nat := s.str.length

/-! ## Constructors -/

/-- `strncpy` to `data_`, which is filled with zeros behind the text. -/
def strncpy (count : Nat) (other : List UInt8) : List UInt8 :=
  ((cstr other).take count).rightpad count 0

theorem length_strncpy (count : Nat) (other : List UInt8) : (strncpy count other).length = count := by
  rw [strncpy, List.rightpad, List.length_append, List.length_replicate, List.length_take]
  omega

def close (bytes : List UInt8) (h : bytes.length = n) (hn : 0 < n) : FString n where
  data := bytes.set (n - 1) 0
  length_data := by rw [List.length_set, h]
  terminated := List.mem_set (by omega) 0

def FString.create (hn : 0 < n) : FString n where
  data := List.replicate n 0
  length_data := List.length_replicate
  terminated := List.mem_replicate.mpr ⟨by omega, rfl⟩

/-- `fstring(const char *)`. -/
def FString.ofCStr (hn : 0 < n) : Option (List UInt8) → FString n
  | some other => close (strncpy n other) (length_strncpy n other) hn
  | none => close (List.replicate n 0) List.length_replicate hn

/-- `fstring(const std::string &)`; the last byte is not copied to and stays zero. -/
def FString.ofString (hn : 0 < n) (other : List UInt8) : FString n :=
  close (strncpy (n - 1) other ++ [0])
    (by rw [List.length_append, length_strncpy, List.length_singleton]; omega) hn

/-- `fstring(const std::string_view &)` copies `N - 1` bytes, whatever the length of
the view at `addr`. -/
def FString.ofView (hn : 0 < n) (m : Memory) (addr : Nat) : FString n :=
  close (m.load addr (n - 1) ++ [0])
    (by rw [List.length_append, Memory.length_load, List.length_singleton]; omega) hn

/-- `fstring(const char ch, size_t count)`. -/
def FString.fill (hn : 0 < n) (ch : UInt8) (count : Nat) : FString n :=
  if h : count < n then
    { data := List.replicate count ch ++ List.replicate (n - count) 0
      length_data := by rw [List.length_append, List.length_replicate, List.length_replicate]; omega
      terminated := by
        apply List.mem_append_right
        exact List.mem_replicate.mpr ⟨by omega, rfl⟩ }
  else close (List.replicate n ch) List.length_replicate hn

/-- The move constructor and the object moved from. -/
def FString.move (hn : 0 < n) (s : FString n) : FString n × FString n := (s, FString.create hn)

theorem FString.length_lt (s : FString n) : s.length < n := by
  have hlt := length_cstr_lt s.terminated
  rw [s.length_data] at hlt
  exact hlt

def FString.append (s : FString n) (data : List UInt8) : FString n :=
  if h : data = [] ∨ n - s.length ≤ data.length then s
  else
    { data := s.data.take s.length ++ data ++ 0 :: s.data.drop (s.length + data.length + 1)
      length_data := by
        have hlt := s.length_lt
        have hdata := s.length_data
        simp only [List.length_append, List.length_take, List.length_cons, List.length_drop]
        omega
      terminated := List.mem_append_right _ List.mem_cons_self }

/-! ## Comparisons -/

/-- `operator==(const char *)`; `none` is a null pointer. -/
def FString.eqCStr (s : FString n) : Option (List UInt8) → Bool
  | none => false
  | some other => strcmp s.data other == 0

def FString.ltCStr (s : FString n) : Option (List UInt8) → Bool
  | none => true
  | some other => strcmp s.data other < 0

def FString.gtCStr (s : FString n) : Option (List UInt8) → Bool
  | none => false
  | some other => strcmp s.data other > 0

/-- The free `operator==(const char *, const fstring &)`. -/
def FString.cStrEq (other : List UInt8) (s : FString n) : Bool := strcmp other s.data == 0

def FString.eq (s rhs : FString n) : Bool := memcmp s.data rhs.data == 0

def FString.lt (s rhs : FString n) : Bool := memcmp s.data rhs.data < 0

/-- The result of `memcmp` is the truth value. -/
def FString.gt (s rhs : FString n) : Bool := memcmp s.data rhs.data != 0

/-- `operator==(const std::string &)` asks for the length of the array. -/
def FString.eqString (s : FString n) (rhs : List UInt8) : Bool :=
  if rhs.length ≠ n then false else strncmp n s.data rhs == 0

def FString.ltString (s : FString n) (rhs : List UInt8) : Bool := strncmp n s.data rhs < 0

def FString.gtString (s : FString n) (rhs : List UInt8) : Bool := strncmp n s.data rhs > 0

end NetTest.Strings
