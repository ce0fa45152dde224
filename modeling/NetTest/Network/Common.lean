import NetTest.Lib.Inet
import NetTest.Lib.Runs

/-!
# Addresses

`net_common.h` and `net_util.h`: an address as a text in an array of sixteen bytes,
and as the structure that the socket calls take.
-/

namespace NetTest.Net

open CString (cstr)
open Inet Numerals Runs

/-- `strncpy`: the text, cut at `n` bytes or filled up to them with NULs. -/
def strncpy (dst src : List UInt8) (n : Nat) : List UInt8 :=
  (cstr src).take n ++ List.replicate (n - (cstr src).length) 0 ++ dst.drop n

def htons (v : UInt16) : UInt16 := .ofNat (v.toNat % 2 ^ 8 * 2 ^ 8 + v.toNat / 2 ^ 8)

def ntohs (v : UInt16) : UInt16 := htons v

theorem htons_ntohs (v : UInt16) : htons (ntohs v) = v := by
  have hv := v.toNat_lt
  have hswap : (htons v).toNat = v.toNat % 2 ^ 8 * 2 ^ 8 + v.toNat / 2 ^ 8 := by
    rw [htons, UInt16.toNat_ofNat', Nat.mod_eq_of_lt]
    omega
  have hlow : (htons v).toNat % 2 ^ 8 = v.toNat / 2 ^ 8 := by omega
  have hhigh : (htons v).toNat / 2 ^ 8 = v.toNat % 2 ^ 8 := by omega
  apply UInt16.toNat_inj.mp
  rw [ntohs, htons, UInt16.toNat_ofNat', hlow, hhigh, Nat.mod_eq_of_lt]
  · omega
  · omega

theorem ntohs_htons (v : UInt16) : ntohs (htons v) = v := htons_ntohs v

def AF_INET : UInt16 := 2

/-- `sockaddr_in` without its padding. -/
structure SockaddrIn where
  sinFamily : UInt16
  sinPort : UInt16
  sinAddr : InAddr
  deriving DecidableEq

structure AddrT where
  ip : List UInt8
  port : UInt16
  family : UInt16
  deriving DecidableEq

namespace AddrT

def new : AddrT := { ip := List.replicate 16 0, port := 0, family := AF_INET }

def setIp (a : AddrT) (ip : Option (List UInt8)) : AddrT :=
  match ip with
  | none => a
  | some ip => { a with ip := strncpy a.ip ip 15 }

def setPort (a : AddrT) (port : UInt16) : AddrT := { a with port := port }

def toSockaddr (a : AddrT) : SockaddrIn where
  sinFamily := a.family
  sinPort := htons a.port
  sinAddr := inetAddr a.ip

def fromSockaddr (a : AddrT) (sockAddr : SockaddrIn) : AddrT where
  family := sockAddr.sinFamily
  port := ntohs sockAddr.sinPort
  ip := strncpy a.ip (inetNtoa sockAddr.sinAddr) 15

def text (a : AddrT) : List UInt8 := cstr a.ip

def colon : UInt8 := 58

def toString (a : AddrT) : List UInt8 := a.text ++ [colon] ++ decimal a.port.toNat

end AddrT

def isMulticastAddr (ipv4 : Option (List UInt8)) : Bool :=
  match ipv4 with
  | none => false
  | some ipv4 => 0xE0000000 ≤ (inetAddr ipv4).host && (inetAddr ipv4).host ≤ 0xEFFFFFFF

def ipToHostIp (ip : Option (List UInt8)) : Nat :=
  match ip with
  | none => 0
  | some ip => (inetAddr ip).host

/-! ## The array -/

structure Holds (a : AddrT) (text : List UInt8) : Prop where
  no_nul : 0 ∉ text
  short : text.length ≤ 15
  ip : a.ip = text ++ List.replicate (16 - text.length) 0

theorem Holds.text_eq {a : AddrT} {text : List UInt8} (h : Holds a text) : a.text = text := by
  have hshort := h.short
  have hpad : 16 - text.length = (15 - text.length) + 1 := by omega
  rw [AddrT.text, h.ip, hpad, List.replicate_succ, CString.cstr_append_zero,
    CString.cstr_of_no_nul h.no_nul]

theorem Holds.ip_eq {a b : AddrT} {text : List UInt8} (ha : Holds a text) (hb : Holds b text) :
    a.ip = b.ip := by
  rw [ha.ip, hb.ip]

theorem zero_not_mem_cstr (bytes : List UInt8) : (0 : UInt8) ∉ cstr bytes := by
  intro hmem
  have hne := List.mem_takeWhile_imp hmem
  contradiction

theorem holds_strncpy {a : AddrT} {old : List UInt8} (h : Holds a old) (src : List UInt8)
    {b : AddrT} (hb : b.ip = strncpy a.ip src 15) : Holds b ((cstr src).take 15) := by
  have hshort := h.short
  have hlast : a.ip.drop 15 = [0] := by
    have hpad : 16 - old.length = (15 - old.length) + 1 := by omega
    rw [h.ip, hpad, List.replicate_add, ← List.append_assoc, List.drop_append_of_le_length]
    · rw [List.drop_of_length_le (by simp; omega)]
      rfl
    · simp
      omega
  constructor
  · exact fun hmem => zero_not_mem_cstr src (List.mem_of_mem_take hmem)
  · exact List.length_take_le 15 _
  · have hpad : 16 - ((cstr src).take 15).length = (15 - (cstr src).length) + 1 := by
      rw [List.length_take]
      omega
    rw [hb, strncpy, hlast, hpad, List.replicate_add, List.append_assoc]
    rfl

theorem holds_inetNtoa {a : AddrT} {old : List UInt8} (h : Holds a old) (sa : SockaddrIn) :
    Holds (a.fromSockaddr sa) (inetNtoa sa.sinAddr) := by
  have hcopy := holds_strncpy h (inetNtoa sa.sinAddr) (b := a.fromSockaddr sa) rfl
  rw [CString.cstr_of_no_nul (zero_not_mem_inetNtoa _),
    List.take_of_length_le (length_inetNtoa_le _)] at hcopy
  exact hcopy

theorem holds_new : Holds AddrT.new [] := ⟨List.not_mem_nil, Nat.zero_le _, rfl⟩

/-! ## Runs -/

inductive Op where
  | setIp (ip : Option (List UInt8))
  | setPort (port : UInt16)
  | fromSockaddr (sockAddr : SockaddrIn)

def step (a : AddrT) : Op → AddrT
  | .setIp ip => a.setIp ip
  | .setPort port => a.setPort port
  | .fromSockaddr sockAddr => a.fromSockaddr sockAddr

theorem holds_step (a : AddrT) (op : Op) (h : ∃ text, Holds a text) :
    ∃ text, Holds (step a op) text := by
  rcases h with ⟨text, h⟩
  cases op with
  | setIp ip =>
      cases ip with
      | none => exact ⟨text, h⟩
      | some ip => exact ⟨_, holds_strncpy h ip rfl⟩
  | setPort port => exact ⟨text, h.no_nul, h.short, h.ip⟩
  | fromSockaddr sockAddr => exact ⟨_, holds_inetNtoa h sockAddr⟩

theorem holds_run (ops : List Op) : ∃ text, Holds (ops.foldl step AddrT.new) text :=
  foldl_of_step (P := fun a => ∃ text, Holds a text) holds_step ⟨[], holds_new⟩ ops

theorem inetAddr_text (a : AddrT) : inetAddr a.ip = inetAddr a.text := by
  rw [inetAddr, inetAddr, inetAton, inetAton, AddrT.text, CString.cstr_cstr]

theorem toSockaddr_fromSockaddr {a : AddrT} {old : List UInt8} (h : Holds a old)
    (sa : SockaddrIn) : (a.fromSockaddr sa).toSockaddr = sa := by
  have haddr : inetAddr (a.fromSockaddr sa).ip = sa.sinAddr := by
    rw [inetAddr_text, (holds_inetNtoa h sa).text_eq, inetAddr, inetAton_inetNtoa,
      Option.getD_some]
  rw [AddrT.toSockaddr, haddr]
  simp only [AddrT.fromSockaddr, htons_ntohs]

/-- Whatever an address has been through, a socket address that it takes over comes
out of it again, all ones included; and its own text survives the way there and back
exactly when it is written as the library prints addresses. -/
theorem addr_roundTrip (ops : List Op) :
    let a := ops.foldl step AddrT.new
    (∀ sa, (a.fromSockaddr sa).toSockaddr = sa) ∧
      (AddrT.new.fromSockaddr a.toSockaddr = a ↔ ∃ x, a.text = inetNtoa x) := by
  intro a
  rcases holds_run ops with ⟨text, h⟩
  have hback : Holds (AddrT.new.fromSockaddr a.toSockaddr) (inetNtoa (inetAddr a.ip)) :=
    holds_inetNtoa holds_new _
  refine ⟨toSockaddr_fromSockaddr h, ?_⟩
  constructor
  · intro heq
    refine ⟨inetAddr a.ip, ?_⟩
    rw [heq] at hback
    exact hback.text_eq
  · rintro ⟨x, hx⟩
    have hread : inetAddr a.ip = x := by
      rw [inetAddr_text, hx, inetAddr, inetAton_inetNtoa, Option.getD_some]
    have htext : text = inetNtoa x := by
      rw [← h.text_eq]
      exact hx
    rw [hread] at hback
    rw [htext] at h
    have hip : (AddrT.new.fromSockaddr a.toSockaddr).ip = a.ip := hback.ip_eq h
    have hport : (AddrT.new.fromSockaddr a.toSockaddr).port = a.port := ntohs_htons a.port
    have hfamily : (AddrT.new.fromSockaddr a.toSockaddr).family = a.family := rfl
    generalize AddrT.new.fromSockaddr a.toSockaddr = b at hip hport hfamily
    rcases b with ⟨ip, port, family⟩
    simp only at hip hport hfamily
    rw [hip, hport, hfamily]

/-- `to_string` tells addresses and ports apart. -/
theorem toString_inj (a b : AddrT) :
    a.toString = b.toString ↔ a.text = b.text ∧ a.port = b.port := by
  constructor
  · intro h
    have hcolon : ∀ n, AddrT.colon ∉ decimal n := by
      intro n hmem
      exact absurd (isDigit_of_mem_decimal n _ hmem) (by decide)
    -- the last colon is the one in front of the port
    have hsplit : ∀ (x y : List UInt8) (m n : Nat),
        x ++ [AddrT.colon] ++ decimal m = y ++ [AddrT.colon] ++ decimal n →
          x = y ∧ decimal m = decimal n := by
      intro x y m n heq
      rw [List.append_assoc, List.append_assoc] at heq
      rcases List.append_eq_append_iff.mp heq with ⟨more, hy, hmore⟩ | ⟨more, hx, hmore⟩
      · cases more with
        | nil =>
            rw [List.append_nil] at hy
            exact ⟨hy.symm, List.cons.inj hmore |>.2⟩
        | cons c more =>
            have htail : decimal m = more ++ ([AddrT.colon] ++ decimal n) := (List.cons.inj hmore).2
            refine absurd ?_ (hcolon m)
            rw [htail]
            simp
      · cases more with
        | nil =>
            rw [List.append_nil] at hx
            exact ⟨hx, (List.cons.inj hmore).2.symm⟩
        | cons c more =>
            have htail : decimal n = more ++ ([AddrT.colon] ++ decimal m) := (List.cons.inj hmore).2
            refine absurd ?_ (hcolon n)
            rw [htail]
            simp
    rcases hsplit _ _ _ _ h with ⟨htext, hport⟩
    refine ⟨htext, ?_⟩
    have hvalue := congrArg (numeral 10) hport
    rw [numeral_decimal, numeral_decimal] at hvalue
    exact UInt16.toNat_inj.mp hvalue
  · rintro ⟨htext, hport⟩
    rw [AddrT.toString, AddrT.toString, htext, hport]

/-! ## Multicast -/

/-- A text is a multicast address when it denotes one of 224.0.0.0/4; one that cannot be
read is none, as it stands for all ones. -/
theorem isMulticastAddr_iff (text : List UInt8) :
    isMulticastAddr (some text) = true ↔
      ∃ x, inetAton text = some x ∧ 224 ≤ x.a.toNat ∧ x.a.toNat ≤ 239 := by
  have hrange : ∀ x : InAddr, (0xE0000000 ≤ x.host ∧ x.host ≤ 0xEFFFFFFF) ↔
      224 ≤ x.a.toNat ∧ x.a.toNat ≤ 239 := by
    intro x
    have hb := x.b.toNat_lt
    have hc := x.c.toNat_lt
    have hd := x.d.toNat_lt
    simp only [InAddr.host]
    omega
  rw [isMulticastAddr, Bool.and_eq_true, decide_eq_true_iff, decide_eq_true_iff, hrange, inetAddr]
  cases hread : inetAton text with
  | none => simp [inaddrNone]
  | some x => simp

end NetTest.Net
