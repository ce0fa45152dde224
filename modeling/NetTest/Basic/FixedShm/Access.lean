import NetTest.Basic.FixedShm.Model
import NetTest.Lib.Memory

/-!
# Accesses to the mapping

`writeto` and `readfrom` with the bytes they move.  Both subtract before they
compare, in 64 bits: an offset beyond the mapping leaves `writeto` with a huge
room, and the first test of `readfrom` compares an unsigned number with zero.
-/

namespace NetTest.FixedShm

open Wrapping

/-- The address a pointer holds; `MAP_FAILED` is `(void *)-1`. -/
def Ptr.address : Ptr → Nat
  | .null => 0
  | .failed => sizeT - 1
  | .mem addr => addr

def Shm.mem (s : Shm) (offset : Nat) : Nat := (s.data.address + offset) % sizeT

/-- `writeto` with the bytes `data` points to; the count is the one before the cast,
`none` for `-1`. -/
def Shm.writeBytes (s : Shm) (m : Memory) (offset : Nat) (bytes : List UInt8) :
    Memory × Option Nat :=
  if s.data = .null then (m, none)
  else if diff s.size offset < bytes.length then (m, none)
  else (m.store (s.mem offset) bytes, some bytes.length)

def Shm.readAccess (s : Shm) (offset size : Nat) : Option Region :=
  if s.data = .null then none
  else if 0 ≤ diff (diff s.size offset) size then some ⟨s.mem offset, size⟩
  else if offset < s.size ∧ diff s.size offset < size then
    some ⟨s.mem offset, diff s.size offset⟩
  else none

def Shm.readBytes (s : Shm) (m : Memory) (data offset size : Nat) : Memory × Option Nat :=
  match s.readAccess offset size with
  | none => (m, none)
  | some r => (m.store data (m.load r.addr r.size), some r.size)

theorem writeto_eq (s : Shm) (m : Memory) (offset : Nat) (bytes : List UInt8) :
    s.writeto offset bytes.length = ((s.writeBytes m offset bytes).2.map toInt).getD (-1) := by
  rw [Shm.writeto, Shm.writeBytes]
  by_cases hnull : s.data = .null
  · rw [if_pos hnull, if_pos hnull, Option.map_none, Option.getD_none]
  · rw [if_neg hnull, if_neg hnull]
    by_cases hroom : diff s.size offset < bytes.length
    · rw [if_pos hroom, if_pos hroom, Option.map_none, Option.getD_none]
    · rw [if_neg hroom, if_neg hroom, Option.map_some, Option.getD_some]

theorem readfrom_eq (s : Shm) (m : Memory) (data offset size : Nat) :
    s.readfrom offset size = ((s.readBytes m data offset size).2.map toInt).getD (-1) := by
  rw [Shm.readfrom, Shm.readBytes, Shm.readAccess]
  by_cases hnull : s.data = .null
  · rw [if_pos hnull, if_pos hnull, Option.map_none, Option.getD_none]
  · rw [if_neg hnull, if_neg hnull, if_pos (Nat.zero_le _), if_pos (Nat.zero_le _),
      Option.map_some, Option.getD_some]

/-! ## When an access stays inside -/

/-- The write lies in the mapping, stores the bytes at `offset` and reports them all,
or nothing is written and the call fails. -/
def WriteExact (s : Shm) (addr : Nat) (m : Memory) (offset : Nat) (bytes : List UInt8) : Prop :=
  (offset + bytes.length ≤ s.size ∧
      s.writeBytes m offset bytes = (m.store (addr + offset) bytes, some bytes.length)) ∨
    s.writeBytes m offset bytes = (m, none)

/-- The read copies and reports what there is of `size` bytes at `offset`, fails when
`offset` is outside, and touches the mapping only. -/
structure ReadExact (s : Shm) (addr : Nat) (m : Memory) (data offset size : Nat) : Prop where
  copies : offset < s.size → s.readBytes m data offset size =
    (m.store data (m.load (addr + offset) (min size (s.size - offset))),
      some (min size (s.size - offset)))
  refuses : s.size < offset ∨ (offset = s.size ∧ 0 < size) →
    s.readBytes m data offset size = (m, none)
  inside : ∀ r, s.readAccess offset size = some r → 0 < r.size → r.Within ⟨addr, s.size⟩

variable {s : Shm} {addr : Nat}

theorem writeExact_iff (hdata : s.data = .mem addr) (hmapped : addr + s.size < sizeT) (m : Memory)
    (offset : Nat) (bytes : List UInt8) :
    WriteExact s addr m offset bytes ↔
      offset ≤ s.size ∨ diff s.size offset < bytes.length := by
  have hnull : s.data ≠ .null := by
    rw [hdata]
    intro h
    cases h
  unfold WriteExact
  rw [Shm.writeBytes, if_neg hnull]
  by_cases hroom : diff s.size offset < bytes.length
  · rw [if_pos hroom]
    exact iff_of_true (Or.inr rfl) (Or.inr hroom)
  · rw [if_neg hroom]
    constructor
    · intro h
      rcases h with ⟨hinside, _⟩ | hfailed
      · exact Or.inl (by omega)
      · have hcount := congrArg Prod.snd hfailed
        cases hcount
    · intro h
      rcases h with hinside | hshort
      · have hfits : offset + bytes.length ≤ s.size := by
          rw [diff_eq hinside (by omega)] at hroom
          omega
        have hmem : s.mem offset = addr + offset := by
          rw [Shm.mem, hdata, Ptr.address, Nat.mod_eq_of_lt (by omega)]
        rw [hmem]
        exact Or.inl ⟨hfits, rfl⟩
      · exact absurd hshort hroom

theorem readBytes_eq (hdata : s.data = .mem addr) (m : Memory) (data offset size : Nat) :
    s.readAccess offset size = some ⟨s.mem offset, size⟩ ∧
      s.readBytes m data offset size = (m.store data (m.load (s.mem offset) size), some size) := by
  have hnull : s.data ≠ .null := by
    rw [hdata]
    intro h
    cases h
  have haccess : s.readAccess offset size = some ⟨s.mem offset, size⟩ := by
    rw [Shm.readAccess, if_neg hnull, if_pos (Nat.zero_le _)]
  exact ⟨haccess, by rw [Shm.readBytes, haccess]⟩

theorem readExact_iff (hdata : s.data = .mem addr) (hmapped : addr + s.size < sizeT) (m : Memory)
    (data offset size : Nat) :
    ReadExact s addr m data offset size ↔ offset + size ≤ s.size := by
  rcases readBytes_eq hdata m data offset size with ⟨haccess, hread⟩
  constructor
  · intro h
    have hcopies := h.copies
    have hrefuses := h.refuses
    rw [hread] at hcopies hrefuses
    apply Nat.le_of_not_lt
    intro hbeyond
    rcases Nat.lt_or_ge offset s.size with hlt | hge
    · have hcount := Option.some.inj (congrArg Prod.snd (hcopies hlt))
      omega
    · have hfailed := congrArg Prod.snd (hrefuses (by omega))
      cases hfailed
  · intro hfits
    have hmem : s.mem offset = addr + offset := by
      rw [Shm.mem, hdata, Ptr.address, Nat.mod_eq_of_lt (by omega)]
    constructor
    · intro _
      rw [hread, hmem, show min size (s.size - offset) = size by omega]
    · intro h
      omega
    · intro r hr hpos
      rw [haccess] at hr
      cases hr
      rw [hmem]
      constructor
      · exact Nat.le_add_right addr offset
      · simp only [Region.stop]
        omega

/-- Exactly which accesses are right: a write whose offset lies in the mapping or that
is refused, and a read that fits as a whole. -/
theorem fixedShm_access_iff (s : Shm) (addr : Nat) (hdata : s.data = .mem addr)
    (hmapped : addr + s.size < sizeT) (m : Memory) (offset : Nat) :
    (∀ bytes : List UInt8, WriteExact s addr m offset bytes ↔
        offset ≤ s.size ∨ diff s.size offset < bytes.length) ∧
      ∀ data size, ReadExact s addr m data offset size ↔ offset + size ≤ s.size :=
  ⟨fun bytes => writeExact_iff hdata hmapped m offset bytes,
    fun data size => readExact_iff hdata hmapped m data offset size⟩

theorem fixedShm_access_iff_page :
    let s : Shm := { size := 4096, data := .mem 65536, fd := 3 }
    (∀ bytes : List UInt8, WriteExact s 65536 (fun _ => 0) 4000 bytes ↔
        4000 ≤ s.size ∨ diff s.size 4000 < bytes.length) ∧
      ∀ data size, ReadExact s 65536 (fun _ => 0) data 4000 size ↔ 4000 + size ≤ s.size :=
  fixedShm_access_iff { size := 4096, data := .mem 65536, fd := 3 } 65536 rfl (by decide)
    (fun _ => 0) 4000

/-- Behind a mapping of 4096 bytes a write of one byte at offset 5000 goes through, and
so does a read of 200 bytes at offset 4000. -/
theorem fixedShm_access_outside :
    let s : Shm := { size := 4096, data := .mem 65536, fd := 3 }
    ¬ WriteExact s 65536 (fun _ => 0) 5000 [1] ∧ ¬ ReadExact s 65536 (fun _ => 0) 0 4000 200 := by
  intro s
  have hwrite := writeExact_iff (s := s) rfl (by decide) (fun _ => 0) 5000 [1]
  have hread := readExact_iff (s := s) rfl (by decide) (fun _ => 0) 0 4000 200
  rw [hwrite, hread]
  decide

end NetTest.FixedShm
