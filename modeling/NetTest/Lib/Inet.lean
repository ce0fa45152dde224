import NetTest.Lib.CString
import NetTest.Lib.Numerals

/-!
# Internet addresses as texts

`inet_aton` and `inet_ntoa` of the C library.  A text has up to four parts, each a
number as C writes it, and the last part fills the bytes that are left; an address
is printed as four decimal numbers.
-/

namespace NetTest.Inet

open Numerals

def dot : UInt8 := 46

/-- `std::isspace` of a byte in the C locale. -/
def isSpace (c : UInt8) : Bool := c == 32 || (9 ≤ c && c ≤ 13)

/-- The four bytes of an `in_addr`, in the order of the network. -/
structure InAddr where
  a : UInt8
  b : UInt8
  c : UInt8
  d : UInt8
  deriving DecidableEq, Repr

def InAddr.host (x : InAddr) : Nat :=
  x.a.toNat * 2 ^ 24 + x.b.toNat * 2 ^ 16 + x.c.toNat * 2 ^ 8 + x.d.toNat

def InAddr.ofHost (n : Nat) : InAddr where
  a := .ofNat (n / 2 ^ 24)
  b := .ofNat (n / 2 ^ 16)
  c := .ofNat (n / 2 ^ 8)
  d := .ofNat n

/-- `INADDR_NONE`, which is also the broadcast address. -/
def inaddrNone : InAddr := ⟨255, 255, 255, 255⟩

theorem InAddr.ofHost_host (x : InAddr) : InAddr.ofHost x.host = x := by
  rcases x with ⟨a, b, c, d⟩
  have ha := a.toNat_lt
  have hb := b.toNat_lt
  have hc := c.toNat_lt
  have hd := d.toNat_lt
  simp only [InAddr.ofHost, InAddr.host, InAddr.mk.injEq]
  refine ⟨?_, ?_, ?_, ?_⟩
  · apply UInt8.toNat_inj.mp
    rw [UInt8.toNat_ofNat']
    omega
  · apply UInt8.toNat_inj.mp
    rw [UInt8.toNat_ofNat']
    omega
  · apply UInt8.toNat_inj.mp
    rw [UInt8.toNat_ofNat']
    omega
  · apply UInt8.toNat_inj.mp
    rw [UInt8.toNat_ofNat']
    omega

/-! ## Printing -/

def inetNtoa (x : InAddr) : List UInt8 :=
  decimal x.a.toNat ++ dot :: decimal x.b.toNat ++ dot :: decimal x.c.toNat ++
    dot :: decimal x.d.toNat

/-! ## Reading -/

/-- `strtoul(cp, &endp, 0)` at a digit: the number and what stands behind it. -/
def strtoul (text : List UInt8) : Nat × List UInt8 :=
  match text with
  | z :: x :: c :: rest =>
      if z = zeroDigit ∧ (x = lowerX ∨ x = upperX) ∧ isDigit 16 c then
        (numeral 16 ((c :: rest).takeWhile (isDigit 16)), (c :: rest).dropWhile (isDigit 16))
      else if z = zeroDigit then
        (numeral 8 (text.takeWhile (isDigit 8)), text.dropWhile (isDigit 8))
      else (numeral 10 (text.takeWhile (isDigit 10)), text.dropWhile (isDigit 10))
  | z :: _ =>
      if z = zeroDigit then (numeral 8 (text.takeWhile (isDigit 8)), text.dropWhile (isDigit 8))
      else (numeral 10 (text.takeWhile (isDigit 10)), text.dropWhile (isDigit 10))
  | [] => (0, [])

/-- The parts of the address from here on, of which `left` may follow this one;
`word` is what the parts before say. -/
def atonEnd (word : Nat) : Nat → List UInt8 → Option InAddr
  | left, text =>
      match text.head?.map (isDigit 10) with
      | some true =>
          let val := (strtoul text).1
          if 0xffffffff < val then none
          else
            match (strtoul text).2 with
            | [] => if 2 ^ (8 * (left + 1)) ≤ val then none else some (.ofHost (word + val))
            | c :: rest =>
                if c = dot then
                  match left with
                  | 0 => none
                  | left + 1 =>
                      if 0xff < val then none
                      else atonEnd (word + val * 2 ^ (8 * (left + 1))) left rest
                else if isSpace c = false ∨ 2 ^ (8 * (left + 1)) ≤ val then none
                else some (.ofHost (word + val))
      | _ => none

/-- The text of a C string. -/
def inetAton (text : List UInt8) : Option InAddr := atonEnd 0 3 (CString.cstr text)

def inetAddr (text : List UInt8) : InAddr := (inetAton text).getD inaddrNone

/-! ## A printed address is read back -/

theorem isDigit_ten_of_eight {c : UInt8} (h : isDigit 8 c = true) : isDigit 10 c = true := by
  rw [isDigit, Option.any_eq_true] at h ⊢
  rcases h with ⟨v, hv, hlt⟩
  refine ⟨v, hv, ?_⟩
  rw [decide_eq_true_eq] at hlt ⊢
  omega

/-- Behind a number comes neither a digit nor the letter of a prefix. -/
def Ends (rest : List UInt8) : Prop :=
  ∀ c ∈ rest.head?, isDigit 10 c = false ∧ c ≠ lowerX ∧ c ≠ upperX

theorem takeWhile_digits {base : Nat} {digits rest : List UInt8}
    (hdigits : ∀ c ∈ digits, isDigit base c = true)
    (hrest : ∀ c ∈ rest.head?, isDigit base c = false) :
    (digits ++ rest).takeWhile (isDigit base) = digits ∧
      (digits ++ rest).dropWhile (isDigit base) = rest := by
  rw [List.takeWhile_append_of_pos hdigits, List.dropWhile_append_of_pos hdigits]
  cases rest with
  | nil => simp
  | cons c rest =>
      have hc : isDigit base c = false := hrest c rfl
      simp [hc]

theorem strtoul_of_ne {z : UInt8} (hz : z ≠ zeroDigit) (text : List UInt8) :
    strtoul (z :: text) = (numeral 10 ((z :: text).takeWhile (isDigit 10)),
      (z :: text).dropWhile (isDigit 10)) := by
  unfold strtoul
  split
  · rename_i heq
    cases heq
    rw [if_neg (fun h => hz h.1), if_neg hz]
  · rename_i heq
    cases heq
    rw [if_neg hz]
  · rename_i heq
    cases heq

theorem strtoul_zero {rest : List UInt8} (hrest : Ends rest) :
    strtoul (zeroDigit :: rest) = (0, rest) := by
  have hoctal : ∀ c ∈ rest.head?, isDigit 8 c = false := by
    intro c hc
    apply Bool.eq_false_of_not_eq_true
    intro height
    have hten := isDigit_ten_of_eight height
    rw [(hrest c hc).1] at hten
    cases hten
  have hzero : ∀ c ∈ [zeroDigit], isDigit 8 c = true := by
    intro c hc
    rw [List.mem_singleton.mp hc]
    decide
  have hsplit := takeWhile_digits hzero hoctal
  rw [List.singleton_append] at hsplit
  unfold strtoul
  split
  · rename_i heq
    cases heq
    rw [if_neg, if_pos rfl, hsplit.1, hsplit.2]
    · rfl
    · rintro ⟨_, hx, _⟩
      have hends := hrest _ rfl
      exact hx.elim hends.2.1 hends.2.2
  · rename_i heq
    cases heq
    rw [if_pos rfl, hsplit.1, hsplit.2]
    rfl
  · rename_i heq
    cases heq

theorem head?_decimal {n : Nat} (hn : 0 < n) : (decimal n).head? ≠ some zeroDigit := by
  induction n using Nat.strongRecOn with
  | ind n ih =>
      rw [decimal_eq]
      split
      · rename_i hlt
        rw [Nat.mod_eq_of_lt hlt]
        interval_cases n <;> decide
      · have hfirst := ih (n / 10) (by omega) (by omega)
        cases htext : decimal (n / 10) with
        | nil => exact absurd htext (decimal_ne_nil _)
        | cons z digits =>
            rw [htext] at hfirst
            exact hfirst

theorem strtoul_decimal (n : Nat) {rest : List UInt8} (hrest : Ends rest) :
    strtoul (decimal n ++ rest) = (n, rest) := by
  rcases Nat.eq_zero_or_pos n with rfl | hn
  · exact strtoul_zero hrest
  · have hsplit := takeWhile_digits (isDigit_of_mem_decimal n) fun c hc => (hrest c hc).1
    have hvalue := numeral_decimal n
    have hhead := head?_decimal hn
    cases htext : decimal n with
    | nil => exact absurd htext (decimal_ne_nil n)
    | cons z digits =>
        rw [htext] at hsplit hvalue hhead
        have hz : z ≠ zeroDigit := fun heq => hhead (by rw [heq]; rfl)
        rw [List.cons_append] at hsplit ⊢
        rw [strtoul_of_ne hz, hsplit.1, hsplit.2, hvalue]

theorem head?_decimal_append (n : Nat) (rest : List UInt8) :
    (decimal n ++ rest).head?.map (isDigit 10) = some true := by
  cases htext : decimal n with
  | nil => exact absurd htext (decimal_ne_nil n)
  | cons z digits =>
      have hz := isDigit_of_mem_decimal n z (by rw [htext]; exact List.mem_cons_self)
      rw [List.cons_append, List.head?_cons, Option.map_some, hz]

theorem ends_dot (rest : List UInt8) : Ends (dot :: rest) := by
  intro c hc
  cases hc
  exact ⟨by decide, by decide, by decide⟩

theorem atonEnd_part (word left : Nat) {n : Nat} (hn : n < 256) (rest : List UInt8) :
    atonEnd word (left + 1) (decimal n ++ dot :: rest) =
      atonEnd (word + n * 2 ^ (8 * (left + 1))) left rest := by
  rw [atonEnd.eq_def]
  simp only [head?_decimal_append, strtoul_decimal n (ends_dot rest)]
  rw [if_neg (by omega), if_pos trivial, if_neg (by omega)]

theorem atonEnd_last (word : Nat) {n : Nat} (hn : n < 256) :
    atonEnd word 0 (decimal n) = some (.ofHost (word + n)) := by
  have hdigit := head?_decimal_append n []
  have hread : strtoul (decimal n ++ []) = (n, []) := strtoul_decimal n nofun
  rw [List.append_nil] at hdigit hread
  rw [atonEnd.eq_def]
  simp only [hdigit, hread]
  rw [if_neg (by omega), if_neg (by omega)]

theorem zero_not_mem_decimal (n : Nat) : (0 : UInt8) ∉ decimal n := by
  intro hmem
  have hdigit := isDigit_of_mem_decimal n 0 hmem
  exact absurd hdigit (by decide)

theorem zero_not_mem_inetNtoa (x : InAddr) : (0 : UInt8) ∉ inetNtoa x := by
  have hdot : (0 : UInt8) ≠ dot := by decide
  simp [inetNtoa, zero_not_mem_decimal, hdot]

theorem inetAton_inetNtoa (x : InAddr) : inetAton (inetNtoa x) = some x := by
  have hhost := InAddr.ofHost_host x
  rw [InAddr.host] at hhost
  rw [inetAton, CString.cstr_of_no_nul (zero_not_mem_inetNtoa x), inetNtoa]
  simp only [List.append_assoc, List.cons_append]
  rw [atonEnd_part 0 2 x.a.toNat_lt, atonEnd_part _ 1 x.b.toNat_lt, atonEnd_part _ 0 x.c.toNat_lt,
    atonEnd_last _ x.d.toNat_lt, Nat.zero_add]
  exact congrArg some hhost

theorem length_decimal_le {n : Nat} (hn : n < 1000) : (decimal n).length ≤ 3 := by
  rw [decimal_eq]
  split
  · simp
  · rw [List.length_append, List.length_singleton, decimal_eq]
    split
    · simp
    · rw [List.length_append, List.length_singleton, decimal_eq]
      rw [if_pos (by omega)]
      simp

/-- A printed address fits into fifteen characters. -/
theorem length_inetNtoa_le (x : InAddr) : (inetNtoa x).length ≤ 15 := by
  have hlength : ∀ y : UInt8, (decimal y.toNat).length ≤ 3 := by
    intro y
    have hy := y.toNat_lt
    exact length_decimal_le (by omega)
  have ha := hlength x.a
  have hb := hlength x.b
  have hc := hlength x.c
  have hd := hlength x.d
  simp only [inetNtoa, List.length_append, List.length_cons]
  omega

end NetTest.Inet
