import NetTest.Lib.CString
import NetTest.Lib.Numerals

/-!
# The list of servers

`parse_url` of `ngx_core.cpp`.  It takes the url apart with `strtok_r`, resolves one
entry after the other and stores what it finds under the shared index `ip_cnt`.  An
entry that does not resolve is tried again without taking the next one, and the
loop over the addresses tests the position in the list, which is never null, and
not what is stored there.

`gethostbyname` and what lies in memory behind its result are parameters.
-/

namespace NetTest.NgxCore

open Numerals

def HOST_IP_MAX : Nat := 4

def AF_INET : Nat := 2

/-- The bytes of `splite`: a semicolon, and the two bytes of a wide one. -/
def splite : List UInt8 := [59, 163, 187]

def isSplite (c : UInt8) : Bool := splite.contains c

def colon : UInt8 := 58

def isSpace (c : UInt8) : Bool := [32, 9, 10, 11, 12, 13].contains c

structure Hosts where
  ip_cnt : Nat
  host_ip : Vector UInt32 HOST_IP_MAX
  port : Vector UInt16 HOST_IP_MAX

/-- What `gethostbyname` returns: `h_addr_list` is the address of a list of pointers, and
`addresses` are the addresses these lead to, in the byte order of the host. -/
structure HostEnt where
  h_addrtype : Nat
  h_addr_list : Nat
  list_ne_null : h_addr_list ≠ 0
  addresses : List UInt32

/-- How a call ends, if it does: it returns, it writes behind `host_ip` or `port`, or it
reads at an address where nothing is mapped. -/
inductive Outcome where
  | returned (core : Hosts)
  | outside
  | fault
  | running

/-- `strtok_r`: the next token and what is left behind it. -/
def strtok (text : List UInt8) : Option (List UInt8 × List UInt8) :=
  match text.dropWhile isSplite with
  | [] => none
  | c :: rest =>
      some ((c :: rest).takeWhile (!isSplite ·), ((c :: rest).dropWhile (!isSplite ·)).drop 1)

def lastColon (ptr : List UInt8) : Option (List UInt8 × List UInt8) :=
  match ptr.reverse.dropWhile (· ≠ colon) with
  | [] => none
  | _ :: host => some (host.reverse, (ptr.reverse.takeWhile (· ≠ colon)).reverse)

/-- The host and the port of an entry; a port is cut to 16 bits. -/
def hostAndPort (ptr : List UInt8) : List UInt8 × UInt16 :=
  match lastColon ptr with
  | none => (ptr, 0)
  | some (host, port) => (host, UInt16.ofInt (atoi isSpace port))

def ntohl (x : UInt32) : UInt32 :=
  (x <<< 24) ||| ((x <<< 8) &&& (0xFF0000 : UInt32)) ||| ((x >>> 8) &&& (0xFF00 : UInt32)) |||
    (x >>> 24)

/-- The loop over the address list, at position `pptr`, which only moves up.  `memory` is
what a read of four bytes finds; `ip_cnt` is an `unsigned char`. -/
def copyAddresses (memory : Nat → Option UInt32) (pptr : Nat) (core : Hosts) : Nat → Outcome
  | 0 => .running
  | turns + 1 =>
      if pptr = 0 then .returned core
      else
        match memory pptr with
        | none => .fault
        | some s_addr =>
            if h : core.ip_cnt < HOST_IP_MAX then
              copyAddresses memory (pptr + 8)
                { core with
                  host_ip := core.host_ip.set core.ip_cnt (ntohl s_addr)
                  ip_cnt := (core.ip_cnt + 1) % 256 } turns
            else .outside

section Parse

variable (gethostbyname : List UInt8 → Option HostEnt) (memory : Nat → Option UInt32)

/-- The loop over the tokens, at the token `ptr` with `rest` behind it.  The colon in the
token is overwritten, so an entry that is tried again has lost its port. -/
def parseLoop (ptr rest : List UInt8) (core : Hosts) : Nat → Outcome
  | 0 => .running
  | turns + 1 =>
      if h : core.ip_cnt < HOST_IP_MAX then
        let entry := hostAndPort ptr
        let core := { core with port := core.port.set core.ip_cnt entry.2 }
        match gethostbyname entry.1 with
        | none => parseLoop entry.1 rest core turns
        | some hptr =>
            if hptr.h_addrtype ≠ AF_INET then parseLoop entry.1 rest core turns
            else
              match copyAddresses memory hptr.h_addr_list core turns with
              | .returned core =>
                  match strtok rest with
                  | none => .returned core
                  | some (ptr, rest) => parseLoop ptr rest core turns
              | out => out
      else .outside

def parseUrl (url : List UInt8) (core : Hosts) (turns : Nat) : Outcome :=
  match strtok url with
  | none => .returned core
  | some (ptr, rest) => parseLoop gethostbyname memory ptr rest core turns

/-! ## What is to be found -/

def entries (url : List UInt8) : List (List UInt8) := (url.splitOnP isSplite).filter (· ≠ [])

def resolved (entry : List UInt8) : List (UInt32 × UInt16) :=
  match gethostbyname (hostAndPort entry).1 with
  | none => []
  | some hptr =>
      if hptr.h_addrtype = AF_INET then
        hptr.addresses.map fun address => (address, (hostAndPort entry).2)
      else []

def wanted (url : List UInt8) : List (UInt32 × UInt16) :=
  ((entries url).flatMap (resolved gethostbyname)).take HOST_IP_MAX

/-- The call returns, and the table holds the addresses that are wanted. -/
def ParsesRight (url : List UInt8) (core : Hosts) : Prop :=
  ∃ turns core', parseUrl gethostbyname memory url core turns = .returned core' ∧
    core'.ip_cnt = (wanted gethostbyname url).length ∧
    ∀ i (hi : i < HOST_IP_MAX), i < core'.ip_cnt →
      (wanted gethostbyname url)[i]? = some (core'.host_ip[i], core'.port[i])

end Parse

variable {gethostbyname : List UInt8 → Option HostEnt} {memory : Nat → Option UInt32}

/-- The loop over the addresses does not come to an end. -/
theorem copyAddresses_ne_returned (pptr : Nat) (hne : pptr ≠ 0) (core core' : Hosts) (turns : Nat) :
    copyAddresses memory pptr core turns ≠ .returned core' := by
  induction turns generalizing pptr core with
  | zero =>
      intro h
      cases h
  | succ turns ih =>
      rw [copyAddresses, if_neg hne]
      split
      · intro h
        cases h
      · split
        · exact ih (pptr + 8) (by omega) _
        · intro h
          cases h

/-- Once there is an entry, the call does not return: an entry that does not resolve is
tried again, and one that does is never finished. -/
theorem parseLoop_ne_returned (ptr rest : List UInt8) (core core' : Hosts) (turns : Nat) :
    parseLoop gethostbyname memory ptr rest core turns ≠ .returned core' := by
  induction turns generalizing ptr core with
  | zero =>
      intro h
      cases h
  | succ turns ih =>
      rw [parseLoop]
      split
      · simp only
        split
        · exact ih _ _
        · rename_i hptr _
          split
          · exact ih _ _
          · split
            · rename_i hcopied
              exact absurd hcopied (copyAddresses_ne_returned _ hptr.list_ne_null _ _ _)
            · rename_i hother
              exact hother core'
      · intro h
        cases h

theorem strtok_eq_none_iff (text : List UInt8) :
    strtok text = none ↔ ∀ c ∈ text, isSplite c = true := by
  rw [← List.dropWhile_eq_nil_iff, strtok]
  cases text.dropWhile isSplite with
  | nil => exact iff_of_true rfl rfl
  | cons c rest => exact iff_of_false (fun h => by cases h) (List.cons_ne_nil c rest)

theorem entries_eq_nil {url : List UInt8} (h : ∀ c ∈ url, isSplite c = true) : entries url = [] := by
  induction url with
  | nil => rfl
  | cons c url ih =>
      have hrest := ih fun d hd => h d (List.mem_cons_of_mem c hd)
      rw [entries] at hrest
      rw [entries, List.splitOnP_cons_eq_if_modifyHead, if_pos (h c List.mem_cons_self),
        List.filter_cons_of_neg (by simp), hrest]

/-- `parse_url` is right exactly for the urls without an entry. -/
theorem parseUrl_right_iff (gethostbyname : List UInt8 → Option HostEnt)
    (memory : Nat → Option UInt32) (url : List UInt8) (core : Hosts) (hcnt : core.ip_cnt = 0) :
    ParsesRight gethostbyname memory url core ↔ ∀ c ∈ url, isSplite c = true := by
  rw [← strtok_eq_none_iff]
  constructor
  · intro hright
    rcases hright with ⟨turns, core', hreturned, _⟩
    rw [parseUrl] at hreturned
    cases htok : strtok url with
    | none => rfl
    | some token =>
        rw [htok] at hreturned
        exact absurd hreturned (parseLoop_ne_returned _ _ _ _ _)
  · intro htok
    have hnone : wanted gethostbyname url = [] := by
      rw [wanted, entries_eq_nil ((strtok_eq_none_iff url).mp htok)]
      rfl
    refine ⟨0, core, ?_, ?_, ?_⟩
    · rw [parseUrl, htok]
    · rw [hcnt, hnone]
      rfl
    · intro i _ hi
      omega

theorem parseUrl_right_iff_delimiters :
    let core : Hosts := { ip_cnt := 0, host_ip := Vector.replicate 4 0, port := Vector.replicate 4 0 }
    ParsesRight (fun _ => none) (fun _ => none) [59, 59] core ↔
      ∀ c ∈ [59, 59], isSplite c = true :=
  parseUrl_right_iff (fun _ => none) (fun _ => none) [59, 59] _ rfl

/-- One entry with one address: the call writes behind the table. -/
theorem parseUrl_outside :
    let core : Hosts := { ip_cnt := 0, host_ip := Vector.replicate 4 0, port := Vector.replicate 4 0 }
    let loopback : HostEnt :=
      { h_addrtype := AF_INET, h_addr_list := 4096, list_ne_null := by decide
        addresses := [0x7F000001] }
    let url := [97, colon, 56, 48]
    parseUrl (fun _ => some loopback) (fun _ => some 0) url core 6 = .outside ∧
      ¬ ParsesRight (fun _ => some loopback) (fun _ => some 0) url core := by
  intro core loopback url
  constructor
  · rfl
  · intro hright
    rcases hright with ⟨turns, core', hreturned, _⟩
    exact parseLoop_ne_returned _ _ _ _ _ hreturned

end NetTest.NgxCore
