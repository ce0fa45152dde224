import NetTest.Basic.FString.Model

/-!
# Texts that are copied in

The constructors from a C string, a `std::string` and a `std::string_view` and the
assignments from the first two, with the bytes of the source they read.  Two of the
five copy with `strncpy`, which stops at a NUL.  The others copy `N - 1` bytes with
`memcpy`, however short the source is.

The assignment from a `std::string` flows off its end without a `return`.
-/

namespace NetTest.Strings

open CString

variable {n : Nat}

/-- A function that has to return a value and flows off its end is undefined. -/
inductive Ending where
  | returned
  | undefined
  deriving DecidableEq

/-- The object as the statements leave it, the bytes of the source that are read,
and how the call ends. -/
structure Copied (n : Nat) where
  result : FString n
  reads : Region
  ending : Ending

/-- What `strncpy` reads: the text, its NUL if it comes to it, and at most `count`
bytes. -/
def strncpyReads (m : Memory) (addr count : Nat) : Region :=
  ⟨addr, min (strnlen m addr count + 1) count⟩

def FString.assign (hn : 0 < n) (s : FString n) (m : Memory) (addr : Nat) : FString n :=
  close (m.load addr (n - 1) ++ s.data.drop (n - 1))
    (by rw [List.length_append, Memory.length_load, List.length_drop, s.length_data]; omega) hn

/-- `operator=(const char *)`; `none` is a null pointer. -/
def FString.assignCStr (hn : 0 < n) (s : FString n) (m : Memory) : Option Nat → FString n
  | some addr => s.assign hn m addr
  | none => close s.data s.length_data hn

/-- `operator=(const std::string &)`, with `c_str()`. -/
def FString.assignString (hn : 0 < n) (s : FString n) (m : Memory) (addr : Nat) :
    FString n × Ending :=
  -- `return *this` is missing
  (s.assign hn m addr, .undefined)

inductive Entry where
  | ofCStr
  | ofString
  | ofView
  | assignCStr
  | assignString
  deriving DecidableEq

/-- A call with a source at `addr`; `old` is the object that is assigned to. -/
def Entry.call (hn : 0 < n) (old : FString n) (m : Memory) (addr : Nat) : Entry → Copied n
  | .ofCStr => ⟨FString.ofCStr hn (some (m.load addr n)), strncpyReads m addr n, .returned⟩
  | .ofString =>
      ⟨FString.ofString hn (m.load addr (n - 1)), strncpyReads m addr (n - 1), .returned⟩
  | .ofView => ⟨FString.ofView hn m addr, ⟨addr, n - 1⟩, .returned⟩
  | .assignCStr => ⟨old.assignCStr hn m (some addr), ⟨addr, n - 1⟩, .returned⟩
  | .assignString =>
      let r := old.assignString hn m addr
      ⟨r.1, ⟨addr, n - 1⟩, r.2⟩

/-! ## When a text is taken over -/

/-- The source at `addr` is the text `s`: a C string ends at its first NUL, a
`std::string` may hold others, and a view has none behind it. -/
def Entry.Given (m : Memory) (addr : Nat) (s : List UInt8) : Entry → Prop
  | .ofCStr | .assignCStr => 0 ∉ s ∧ m.load addr (s.length + 1) = s ++ [0]
  | .ofString | .assignString => m.load addr (s.length + 1) = s ++ [0]
  | .ofView => m.load addr s.length = s

def Entry.source (addr : Nat) (s : List UInt8) : Entry → Region
  | .ofCStr | .ofString | .assignCStr | .assignString => ⟨addr, s.length + 1⟩
  | .ofView => ⟨addr, s.length⟩

/-- The call returns, the text is cut to `N - 1` bytes, the last byte is zero, and
only the source is read. -/
structure Entry.Takes (hn : 0 < n) (old : FString n) (m : Memory) (addr : Nat) (s : List UInt8)
    (entry : Entry) : Prop where
  returns : (entry.call hn old m addr).ending = .returned
  contents : (entry.call hn old m addr).result.str = cstr (s.take (min s.length (n - 1)))
  last : (entry.call hn old m addr).result.data[n - 1]? = some 0
  inside : (entry.call hn old m addr).reads.Within (entry.source addr s)

/-- What is copied is no longer than the source, and the function returns. -/
def Entry.Fits (n : Nat) (s : List UInt8) : Entry → Prop
  | .ofCStr | .ofString => True
  | .ofView => n - 1 ≤ s.length
  | .assignCStr => n - 1 ≤ s.length + 1
  | .assignString => False

/-! ## Contents -/

theorem length_of_set {f : FString n} {bytes : List UInt8} (h : f.data = bytes.set (n - 1) 0) :
    bytes.length = n := by
  have hlen := f.length_data
  rw [h, List.length_set] at hlen
  exact hlen

theorem str_of_set (hn : 0 < n) {f : FString n} {bytes : List UInt8}
    (h : f.data = bytes.set (n - 1) 0) : f.str = cstr (bytes.take (n - 1)) := by
  have hlen := length_of_set h
  have hset : bytes.set (n - 1) 0 = bytes.take (n - 1) ++ [0] := by
    rw [List.set_eq_take_append_cons_drop, if_pos (by omega), List.drop_eq_nil_of_le (by omega)]
  rw [FString.str, h, hset, cstr_append_zero]

theorem last_of_set (hn : 0 < n) {f : FString n} {bytes : List UInt8}
    (h : f.data = bytes.set (n - 1) 0) : f.data[n - 1]? = some 0 := by
  have hlen := length_of_set h
  rw [h, List.getElem?_set_self (by omega)]

theorem cstr_strncpy (count : Nat) (other : List UInt8) :
    cstr (strncpy count other) = cstr (other.take count) := by
  have hpad : cstr ((cstr other).take count ++
      List.replicate (count - ((cstr other).take count).length) 0) =
      cstr ((cstr other).take count) := by
    cases count - ((cstr other).take count).length with
    | zero => rw [List.replicate_zero, List.append_nil]
    | succ rest => rw [List.replicate_succ, cstr_append_zero]
  rw [strncpy, List.rightpad, hpad, ← cstr_take, cstr_cstr]

theorem call_data (hn : 0 < n) (old : FString n) (m : Memory) (addr : Nat) (entry : Entry) :
    ∃ bytes : List UInt8, (entry.call hn old m addr).result.data = bytes.set (n - 1) 0 ∧
      cstr (bytes.take (n - 1)) = cstr (m.load addr (n - 1)) := by
  have hlen := m.length_load addr (n - 1)
  cases entry with
  | ofCStr =>
      refine ⟨strncpy n (m.load addr n), rfl, ?_⟩
      rw [cstr_take, cstr_strncpy, ← cstr_take, List.take_take, Nat.min_eq_left (Nat.sub_le n 1),
        m.take_load addr (Nat.sub_le n 1)]
  | ofString =>
      refine ⟨strncpy (n - 1) (m.load addr (n - 1)) ++ [0], rfl, ?_⟩
      rw [List.take_left' (length_strncpy _ _), cstr_strncpy, List.take_of_length_le (by omega)]
  | ofView => exact ⟨_, rfl, by rw [List.take_left' hlen]⟩
  | assignCStr => exact ⟨_, rfl, by rw [List.take_left' hlen]⟩
  | assignString => exact ⟨_, rfl, by rw [List.take_left' hlen]⟩

theorem call_str (hn : 0 < n) (old : FString n) (m : Memory) (addr : Nat) (entry : Entry) :
    (entry.call hn old m addr).result.str = cstr (m.load addr (n - 1)) := by
  rcases call_data hn old m addr entry with ⟨bytes, hdata, htext⟩
  rw [str_of_set hn hdata, htext]

theorem call_last (hn : 0 < n) (old : FString n) (m : Memory) (addr : Nat) (entry : Entry) :
    (entry.call hn old m addr).result.data[n - 1]? = some 0 := by
  rcases call_data hn old m addr entry with ⟨bytes, hdata, htext⟩
  exact last_of_set hn hdata

/-! ## The bytes that are read -/

variable {m : Memory} {addr : Nat} {s : List UInt8}

theorem load_of_terminated (h : m.load addr (s.length + 1) = s ++ [0]) {count : Nat}
    (hcount : s.length < count) :
    m.load addr count = s ++ 0 :: m.load (addr + (s.length + 1)) (count - (s.length + 1)) := by
  have hsplit := m.load_add addr (s.length + 1) (count - (s.length + 1))
  rw [Nat.add_sub_cancel' hcount, h, List.append_assoc, List.singleton_append] at hsplit
  exact hsplit

theorem load_of_text (h : m.load addr s.length = s) {count : Nat} (hcount : count ≤ s.length) :
    m.load addr count = s.take count := by
  rw [← m.take_load addr hcount, h]

theorem text_of_terminated (h : m.load addr (s.length + 1) = s ++ [0]) :
    m.load addr s.length = s := by
  rw [← m.take_load addr (Nat.le_succ s.length), h, List.take_left]

theorem cstr_load (h : m.load addr (s.length + 1) = s ++ [0]) (count : Nat) :
    cstr (m.load addr count) = cstr (s.take count) := by
  rcases Nat.lt_or_ge s.length count with hlt | hge
  · rw [load_of_terminated h hlt, cstr_append_zero, List.take_of_length_le (Nat.le_of_lt hlt)]
  · rw [load_of_text (text_of_terminated h) hge]

/-- `strncpy` does not read past the terminator. -/
theorem strncpyReads_within (h : m.load addr (s.length + 1) = s ++ [0]) (count : Nat) :
    (strncpyReads m addr count).Within ⟨addr, s.length + 1⟩ := by
  apply Region.within_of_le
  have hle := length_cstr_le (s.take count)
  rw [← cstr_load h, List.length_take] at hle
  have htext : strnlen m addr count ≤ s.length := Nat.le_trans hle (Nat.min_le_right _ _)
  exact Nat.le_trans (Nat.min_le_left _ _) (Nat.succ_le_succ htext)

theorem inside_of_fits (hn : 0 < n) (old : FString n) (entry : Entry)
    (hgiven : entry.Given m addr s) (h : entry.Fits n s) :
    (entry.call hn old m addr).reads.Within (entry.source addr s) := by
  cases entry with
  | ofCStr => exact strncpyReads_within hgiven.2 n
  | ofString => exact strncpyReads_within hgiven (n - 1)
  | ofView => exact Region.within_of_le h
  | assignCStr => exact Region.within_of_le h
  | assignString => exact h.elim

theorem returns_of_fits (hn : 0 < n) (old : FString n) (entry : Entry) (h : entry.Fits n s) :
    (entry.call hn old m addr).ending = .returned := by
  cases entry with
  | assignString => exact h.elim
  | _ => rfl

theorem fits_of_takes {hn : 0 < n} {old : FString n} {entry : Entry}
    (h : entry.Takes hn old m addr s) : entry.Fits n s := by
  cases entry with
  | ofCStr => trivial
  | ofString => trivial
  | ofView => exact Region.within_iff_le.mp h.inside
  | assignCStr => exact Region.within_iff_le.mp h.inside
  | assignString => cases h.returns

theorem contents_of_fits (hn : 0 < n) (old : FString n) (entry : Entry)
    (hgiven : entry.Given m addr s) (h : entry.Fits n s) :
    (entry.call hn old m addr).result.str = cstr (s.take (min s.length (n - 1))) := by
  rw [call_str, Nat.min_comm, ← List.take_eq_take_min]
  cases entry with
  | ofCStr => exact cstr_load hgiven.2 (n - 1)
  | ofString => exact cstr_load hgiven (n - 1)
  | ofView => rw [load_of_text hgiven h]
  | assignCStr => exact cstr_load hgiven.2 (n - 1)
  | assignString => exact h.elim

/-- A text is taken over without a look behind it exactly by the two constructors
that use `strncpy`, and by the third constructor and the assignment from a C
string where it fills the array. -/
theorem takes_iff (hn : 0 < n) (old : FString n) (entry : Entry) (m : Memory) (addr : Nat)
    (s : List UInt8) (hgiven : entry.Given m addr s) :
    entry.Takes hn old m addr s ↔ entry.Fits n s := by
  constructor
  · exact fits_of_takes
  · intro h
    constructor
    · exact returns_of_fits hn old entry h
    · exact contents_of_fits hn old entry hgiven h
    · exact call_last hn old m addr entry
    · exact inside_of_fits hn old entry hgiven h

def abc : Memory := Memory.store (fun _ => 120) 100 [97, 98, 99, 0]

theorem takes_iff_abc :
    Entry.ofString.Takes (n := 3) (by decide) (FString.create (by decide)) abc 100 [97, 98, 99] ↔
      Entry.ofString.Fits 3 [97, 98, 99] :=
  takes_iff _ _ _ _ _ _ (by decide : abc.load 100 4 = [97, 98, 99] ++ [0])

/-- `fstring<8> t; t = "abc";` reads seven bytes of four. -/
theorem assignCStr_over_reads :
    Entry.assignCStr.Given abc 100 [97, 98, 99] ∧
      (Entry.assignCStr.call (n := 8) (by decide) (FString.create (by decide)) abc 100).reads =
        ⟨100, 7⟩ ∧
      ¬ Entry.assignCStr.Takes (n := 8) (by decide) (FString.create (by decide)) abc 100
          [97, 98, 99] := by
  have hgiven : Entry.assignCStr.Given abc 100 [97, 98, 99] := by
    constructor
    · decide
    · decide
  have hreads : (Entry.assignCStr.call (n := 8) (by decide) (FString.create (by decide)) abc
      100).reads = ⟨100, 7⟩ := rfl
  have hshort : ¬ Entry.assignCStr.Fits 8 [97, 98, 99] := by
    show ¬ 7 ≤ 4
    decide
  exact ⟨hgiven, hreads, fun h => hshort (fits_of_takes h)⟩

end NetTest.Strings
