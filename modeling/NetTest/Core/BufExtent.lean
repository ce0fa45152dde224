import NetTest.Core.Buf
import NetTest.Core.Pool.Safety

/-!
# The memory behind a buffer

`ngx_create_buf` adds its header to the capacity and rounds up, and
`ngx_allocate_large` adds a header of its own, each modulo `2 ^ 64` and neither
with a check.  For a capacity close to the top a small block, or no memory at
all, passes for a large buffer.
-/

namespace NetTest.Buf

open Memory Runs
open Pool (wordSize pageSize sizeofBlock sizeofLarge)

/-- What the system may answer to a request of `ngx_palloc`: a page for a small
one, and for a large one what `malloc` finds for the sum it is given. -/
def Answers (w : Pool.World) (size : Nat) (mem : Option Nat) : Prop :=
  ∀ addr ∈ mem,
    if pageSize - sizeofBlock < size then
      Pool.Granted w 16 ((size + sizeofLarge) % wordSize) addr
    else Pool.Granted w pageSize pageSize addr

instance (w : Pool.World) (size : Nat) (mem : Option Nat) : Decidable (Answers w size mem) :=
  inferInstanceAs (Decidable (∀ addr ∈ mem, if pageSize - sizeofBlock < size then
      Pool.Granted w 16 ((size + sizeofLarge) % wordSize) addr
    else Pool.Granted w pageSize pageSize addr))

/-- How much memory there is from the address on that `ngx_palloc` returns for
`size` bytes: the rest of what was allocated for a large node, behind its header. -/
def extent (size : Nat) : Nat :=
  if pageSize - sizeofBlock < size then (size + sizeofLarge) % wordSize - sizeofLarge else size

structure Covered (m : Memory) (cap buf : Nat) : Prop where
  covers : sizeofBuf + cap ≤ extent (createSize cap)
  cap_le : cap ≤ Buf.cap m buf
  data_within : Region.Within ⟨data m buf, Buf.cap m buf⟩ ⟨buf, extent (createSize cap)⟩

/-- `ngx_create_buf` together with the call of `ngx_palloc` in it. -/
def create (m : Memory) (pool : Pool.NgxPool) (cap : Nat) (mem : Option Nat) :
    Option (Memory × Nat) :=
  ngxCreateBuf m cap (Pool.ngxPalloc pool (createSize cap) mem).2

/-- None of the three sums wraps. -/
theorem extent_createSize {cap : Nat} (h : cap + 55 < wordSize) :
    extent (createSize cap) = createSize cap ∧ createSize cap + sizeofLarge < wordSize := by
  unfold extent createSize Pool.ngxAlign Pool.ngxAlignment sizeofBuf sizeofLarge
  unfold wordSize at *
  split <;> omega

/-- A sum that wraps leaves less than the header, or a node of at most eight
bytes. -/
theorem extent_lt {cap : Nat} (hcap : cap < wordSize) (h : ¬ cap + 55 < wordSize) :
    extent (createSize cap) < sizeofBuf + cap := by
  unfold extent createSize Pool.ngxAlign Pool.ngxAlignment sizeofBuf sizeofLarge
  unfold pageSize sizeofBlock wordSize at *
  split <;> omega

theorem Answers.legal {w : Pool.World} {cap : Nat} {mem : Option Nat}
    (h : Answers w (createSize cap) mem) (hcap : cap + 55 < wordSize) :
    Pool.Legal w (.palloc (createSize cap) mem) := by
  have hsize := (extent_createSize hcap).2
  unfold Answers at h
  rw [Nat.mod_eq_of_lt hsize] at h
  exact ⟨hsize, h⟩

theorem covered_of_lt {w : Pool.World} (hinv : Pool.Inv w) {m m' : Memory} {cap buf : Nat}
    {mem : Option Nat} (hmem : Answers w (createSize cap) mem) (hcap : cap + 55 < wordSize)
    (hcreate : create m w.pool cap mem = some (m', buf)) : Covered m' cap buf := by
  rcases extent_createSize hcap with ⟨hextent, hsize⟩
  have hle : sizeofBuf + cap ≤ createSize cap := le_createSize (by omega)
  unfold create at hcreate
  cases hret : (Pool.ngxPalloc w.pool (createSize cap) mem).2 with
  | none =>
      rw [hret] at hcreate
      cases hcreate
  | some addr =>
      have hlt := hinv.palloc_lt (hmem.legal hcap) hret
      rw [hret] at hcreate
      rcases data_ngxCreateBuf (by omega) hcreate with ⟨hbuf, hdata, _⟩
      have hcapacity : Buf.cap m' buf = createSize cap - sizeofBuf := by
        rw [cap_ngxCreateBuf hcreate]
        unfold sizeofLarge sizeofBuf wordSize at *
        omega
      constructor
      · rw [hextent]
        exact hle
      · rw [hcapacity]
        omega
      · rw [hextent, hcapacity, hdata]
        simp only [Region.Within, Region.stop]
        omega

/-- In every pool that has been used within the address space, a buffer has its
memory exactly when the capacity leaves room for the header, the rounding and
the header of a large node. -/
theorem ngxCreateBuf_covered_iff (size addr : Nat) (haligned : Pool.ngxAlignment ∣ addr)
    (hbound : addr + Pool.createSize size < wordSize) (ops : List Pool.Op)
    (hops : Guarded Pool.step Pool.Legal (Pool.World.init size addr) ops) (m m' : Memory)
    (cap buf : Nat) (mem : Option Nat) (hcap : cap < wordSize)
    (hmem : Answers (ops.foldl Pool.step (Pool.World.init size addr)) (createSize cap) mem)
    (hcreate : create m (ops.foldl Pool.step (Pool.World.init size addr)).pool cap mem =
      some (m', buf)) :
    Covered m' cap buf ↔ cap + 55 < wordSize := by
  have hinv := (Pool.always_inv haligned hbound hops).last
  constructor
  · intro h
    by_contra hwrap
    have hlt := extent_lt hcap hwrap
    have hle := h.covers
    omega
  · intro h
    exact covered_of_lt hinv hmem h hcreate

/-- A page of bytes lies in a large node. -/
theorem ngxCreateBuf_covered_page :
    ∃ m', create (fun _ => 0) (Pool.newPool 4096) 4096 (some 16384) = some (m', 16400) ∧
      Covered m' 4096 16400 :=
  ⟨_, rfl, (ngxCreateBuf_covered_iff 1 4096 (by decide) (by decide) [] trivial (fun _ => 0) _ 4096
    16400 (some 16384) (by decide) (by decide) rfl).mpr (by decide)⟩

/-- Eight below the top the request wraps to 24 bytes, less than the header. -/
theorem ngxCreateBuf_wraps :
    ¬ ∀ (size addr : Nat), Pool.ngxAlignment ∣ addr → addr + Pool.createSize size < wordSize →
      ∀ ops : List Pool.Op, Guarded Pool.step Pool.Legal (Pool.World.init size addr) ops →
      ∀ (m m' : Memory) (cap buf : Nat) (mem : Option Nat), cap < wordSize →
        Answers (ops.foldl Pool.step (Pool.World.init size addr)) (createSize cap) mem →
        create m (ops.foldl Pool.step (Pool.World.init size addr)).pool cap mem = some (m', buf) →
          Covered m' cap buf := by
  intro h
  have hcovered := h 1 4096 (by decide) (by decide) [] trivial (fun _ => 0) _ (2 ^ 64 - 8) 4168 none
    (by decide) (by decide) rfl
  have hle := hcovered.covers
  revert hle
  decide

end NetTest.Buf
