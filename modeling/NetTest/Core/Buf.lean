import NetTest.Lib.Memory
import NetTest.Core.Pool.Model

/-!
# Buffers

`ngx_buf.cpp`: a header of four words in pool memory, and the bytes behind it
that `data` points to.
-/

namespace NetTest.Buf

open Memory
open Pool (wordSize ngxAlign)

def sizeofBuf : Nat := 32

def cap (m : Memory) (buf : Nat) : Nat := load64 m buf
def len (m : Memory) (buf : Nat) : Nat := load64 m (buf + 8)
def ref (m : Memory) (buf : Nat) : Nat := load64 m (buf + 16)
def data (m : Memory) (buf : Nat) : Nat := load64 m (buf + 24)

def setLen (m : Memory) (buf n : Nat) : Memory := store64 m (buf + 8) n

def createSize (cap : Nat) : Nat := ngxAlign (cap + sizeofBuf)

/-- `block` is what the pool returned, `none` for a failure. -/
def ngxCreateBuf (m : Memory) (cap : Nat) (block : Option Nat) : Option (Memory × Nat) :=
  block.map fun buf =>
    let m := store64 m buf ((createSize cap + wordSize - sizeofBuf) % wordSize)
    let m := store64 m (buf + 16) 1
    let m := store64 m (buf + 8) 0
    let m := store64 m (buf + 24) (buf + sizeofBuf)
    (m, buf)

/-- The second component is true when the last reference is gone and the block
goes back to the pool. -/
def ngxBufFree (m : Memory) (buf : Nat) : Memory × Bool :=
  let ref := (ref m buf + wordSize - 1) % wordSize
  (store64 m (buf + 16) ref, ref == 0)

theorem len_ngxCreateBuf {m m' : Memory} {cap buf : Nat} {block : Option Nat}
    (h : ngxCreateBuf m cap block = some (m', buf)) : len m' buf = 0 := by
  obtain ⟨_, _, heq⟩ := Option.map_eq_some_iff.mp h
  cases heq
  rw [len, load64_store64_of_disjoint _ _ (by omega), load64_store64_self,
    Nat.zero_mod]

theorem ref_ngxCreateBuf {m m' : Memory} {cap buf : Nat} {block : Option Nat}
    (h : ngxCreateBuf m cap block = some (m', buf)) : ref m' buf = 1 := by
  obtain ⟨_, _, heq⟩ := Option.map_eq_some_iff.mp h
  cases heq
  rw [ref, load64_store64_of_disjoint _ _ (by omega), load64_store64_of_disjoint _ _ (by omega),
    load64_store64_self]
  rfl

/-- The last reference frees the buffer. -/
theorem ngxBufFree_last {m : Memory} {buf : Nat} (h : ref m buf = 1) :
    (ngxBufFree m buf).2 = true := by
  rw [ngxBufFree, h]
  rfl

/-- Only the header is written, and `data` points behind it. -/
theorem data_ngxCreateBuf {m m' : Memory} {cap addr buf : Nat} (hbound : addr + sizeofBuf < wordSize)
    (h : ngxCreateBuf m cap (some addr) = some (m', buf)) :
    buf = addr ∧ data m' buf = buf + sizeofBuf ∧ SameOutside ⟨buf, sizeofBuf⟩ m m' := by
  cases h
  refine ⟨rfl, ?_, ?_⟩
  · rw [data, load64_store64_self]
    exact Nat.mod_eq_of_lt hbound
  · have hword : ∀ (m : Memory) (offset n : Nat), offset + 8 ≤ sizeofBuf →
        SameOutside ⟨addr, sizeofBuf⟩ m (store64 m (addr + offset) n) := by
      intro m offset n hoffset
      apply (sameOutside_store64 m (addr + offset) n).mono
      simp only [Region.Within, Region.stop]
      omega
    exact (((hword m 0 _ (by decide)).trans (hword _ 16 _ (by decide))).trans
      (hword _ 8 _ (by decide))).trans (hword _ 24 _ (by decide))

theorem cap_ngxCreateBuf {m m' : Memory} {cap addr buf : Nat}
    (h : ngxCreateBuf m cap (some addr) = some (m', buf)) :
    Buf.cap m' buf = (createSize cap + wordSize - sizeofBuf) % wordSize := by
  cases h
  rw [Buf.cap, load64_store64_of_disjoint _ _ (by omega), load64_store64_of_disjoint _ _ (by omega),
    load64_store64_of_disjoint _ _ (by omega), load64_store64_self]
  exact Nat.mod_mod _ _

theorem le_createSize {cap : Nat} (h : cap + 39 < wordSize) :
    sizeofBuf + cap ≤ createSize cap := by
  unfold createSize ngxAlign Pool.ngxAlignment sizeofBuf
  unfold wordSize at *
  omega

end NetTest.Buf
