import NetTest.Core.Log.Model

/-!
# Records in memory

What the buffer of a record reads, which part of memory filling it touches, and
when it reads what it should: `vsnprintf` is given the length of the message as
the size of the buffer, so its last byte becomes the terminating null byte.
-/

namespace NetTest.Log

open Memory
open Buf (sizeofBuf)
open Pool (wordSize)

/-- The buffer reads `bytes`. -/
structure RecordAt (m : Memory) (buf : Nat) (bytes : List UInt8) : Prop where
  len : Buf.len m buf = bytes.length
  data : Buf.data m buf = buf + sizeofBuf
  text : load m (buf + sizeofBuf) bytes.length = bytes

theorem RecordAt.frame {m m' : Memory} {buf : Nat} {bytes : List UInt8} (h : RecordAt m buf bytes)
    {r : Region} (hsame : SameOutside r m m')
    (hdisjoint : Region.Disjoint ⟨buf, sizeofBuf + bytes.length⟩ r) : RecordAt m' buf bytes := by
  have hpart : ∀ {addr count : Nat}, buf ≤ addr → addr + count ≤ buf + sizeofBuf + bytes.length →
      Region.Disjoint ⟨addr, count⟩ r := by
    intro addr count hlow hhigh
    simp only [Region.Disjoint, Region.stop] at hdisjoint ⊢
    omega
  constructor
  · rw [Buf.len, hsame.load64 (hpart (by omega) (by unfold sizeofBuf; omega))]
    exact h.len
  · rw [Buf.data, hsame.load64 (hpart (by omega) (by unfold sizeofBuf; omega))]
    exact h.data
  · rw [hsame.load (hpart (by omega) (by omega))]
    exact h.text

/-! ## Filling a record -/

theorem data_store (m : Memory) {buf addr : Nat} (bytes : List UInt8) (h : buf + sizeofBuf ≤ addr) :
    Buf.data (store m addr bytes) buf = Buf.data m buf := by
  apply (sameOutside_store m addr bytes).load64
  simp only [Region.Disjoint, Region.stop]
  unfold sizeofBuf at h
  omega

theorem no_nul_logLevelPrefix (level : Nat) : 0 ∉ logLevelPrefix level := by
  unfold logLevelPrefix
  rcases level with _ | _ | _ | _ | _ | _ | _ | _ | level
  all_goals first | decide | skip
  simp [bytesOf]

theorem length_logLevelPrefix_le (level : Nat) : (logLevelPrefix level).length ≤ 8 := by
  unfold logLevelPrefix
  rcases level with _ | _ | _ | _ | _ | _ | _ | _ | level
  all_goals first | decide | skip
  simp [bytesOf]

theorem strlen_szTmp (stamp : Stamp) (level : Nat) :
    strlen (szTmp stamp level) = (stamp.text ++ logLevelPrefix level).length := by
  have hnul : ∀ c ∈ stamp.text ++ logLevelPrefix level, c ≠ 0 := by
    intro c hc hzero
    subst hzero
    rcases List.mem_append.mp hc with hc | hc
    · exact stamp.no_nul hc
    · exact no_nul_logLevelPrefix level hc
  unfold strlen szTmp
  rw [List.takeWhile_append_of_pos (by simpa using hnul)]
  simp

theorem take_szTmp (stamp : Stamp) (level : Nat) :
    (szTmp stamp level).take (strlen (szTmp stamp level)) =
      stamp.text ++ logLevelPrefix level := by
  rw [strlen_szTmp, szTmp]
  exact List.take_left

/-- The second pass leaves the message in the buffer: there is none, or its last
byte is the one that `vsnprintf` writes. -/
def Kept (message again : List UInt8) : Prop :=
  message = [] ∨ again.take (message.length - 1) ++ [0] = message

instance (message again : List UInt8) : Decidable (Kept message again) :=
  inferInstanceAs (Decidable (_ ∨ _))

theorem vsnprintf_kept {message again : List UInt8} (h : Kept message again) (m : Memory)
    (addr : Nat) : vsnprintf m addr message.length again = store m addr message := by
  unfold vsnprintf
  by_cases hempty : message = []
  · rw [hempty, store_nil]
    rfl
  · rw [if_neg (by simpa using hempty), h.resolve_left hempty]

/-- What the second pass writes stays in its part of the buffer. -/
theorem sameOutside_vsnprintf (m : Memory) (addr size : Nat) (out : List UInt8) :
    SameOutside ⟨addr, size⟩ m (vsnprintf m addr size out) := by
  unfold vsnprintf
  split
  · exact SameOutside.refl _ _
  · apply (sameOutside_store m addr (out.take (size - 1) ++ [0])).mono
    simp only [Region.Within, Region.stop, List.length_append, List.length_take,
      List.length_singleton]
    omega

theorem fillRecord_eq {m : Memory} {buf : Nat} (hdata : Buf.data m buf = buf + sizeofBuf)
    (stamp : Stamp) (level length : Nat) (again : List UInt8) :
    fillRecord m buf stamp level length again =
      (let pre := stamp.text ++ logLevelPrefix level
       let data := buf + sizeofBuf
       Buf.setLen (store (vsnprintf (store m data pre) (data + pre.length) length again)
         (data + (length + pre.length)) [newline, 0]) buf (length + pre.length + 1)) := by
  have hfirst : Buf.data (store m (buf + sizeofBuf) (stamp.text ++ logLevelPrefix level)) buf =
      buf + sizeofBuf := by
    rw [data_store m _ (Nat.le_refl _), hdata]
  have hsecond : ∀ addr, buf + sizeofBuf ≤ addr →
      Buf.data (vsnprintf (store m (buf + sizeofBuf) (stamp.text ++ logLevelPrefix level)) addr
        length again) buf = buf + sizeofBuf := by
    intro addr haddr
    refine Eq.trans ((sameOutside_vsnprintf _ addr length again).load64 ?_) hfirst
    simp only [Region.Disjoint, Region.stop]
    unfold sizeofBuf at haddr
    omega
  unfold fillRecord
  dsimp only
  rw [take_szTmp, strlen_szTmp, hdata, hfirst, Nat.add_sub_cancel,
    hsecond _ (Nat.le_add_right _ _)]

theorem sameOutside_fillRecord {m : Memory} {buf : Nat} (hdata : Buf.data m buf = buf + sizeofBuf)
    (stamp : Stamp) (level length : Nat) (again : List UInt8) :
    SameOutside ⟨buf, sizeofBuf + (length + (stamp.text ++ logLevelPrefix level).length + 3)⟩ m
      (fillRecord m buf stamp level length again) := by
  rw [fillRecord_eq hdata]
  dsimp only
  generalize hpre : stamp.text ++ logLevelPrefix level = pre
  have hwhole : ∀ {addr count : Nat}, buf ≤ addr →
      addr + count ≤ buf + sizeofBuf + length + pre.length + 3 →
      Region.Within ⟨addr, count⟩ ⟨buf, sizeofBuf + (length + pre.length + 3)⟩ := by
    intro addr count hlow hhigh
    simp only [Region.Within, Region.stop]
    omega
  have hstamp := (sameOutside_store m (buf + sizeofBuf) pre).mono
    (hwhole (by omega) (by omega))
  have hmessage := (sameOutside_vsnprintf (store m (buf + sizeofBuf) pre)
    (buf + sizeofBuf + pre.length) length again).mono (hwhole (by omega) (by omega))
  generalize vsnprintf (store m (buf + sizeofBuf) pre) (buf + sizeofBuf + pre.length) length
    again = m₂ at hmessage ⊢
  have hend := (sameOutside_store m₂ (buf + sizeofBuf + (length + pre.length)) [newline, 0]).mono
    (hwhole (by omega) (by simp only [List.length_cons, List.length_nil]; omega))
  generalize store m₂ (buf + sizeofBuf + (length + pre.length)) [newline, 0] = m₃ at hend ⊢
  have hlen := (sameOutside_store64 m₃ (buf + 8) (length + pre.length + 1)).mono
    (hwhole (by omega) (by unfold sizeofBuf; omega))
  exact ((hstamp.trans hmessage).trans hend).trans hlen

/-- A record whose message is kept reads what it should. -/
theorem recordAt_fillRecord {m : Memory} {buf : Nat} (hdata : Buf.data m buf = buf + sizeofBuf)
    (stamp : Stamp) (level : Nat) {message again : List UInt8} (hkept : Kept message again)
    (hbound : (levelRecord stamp level message).length < wordSize) :
    RecordAt (fillRecord m buf stamp level message.length again) buf
      (levelRecord stamp level message) := by
  unfold levelRecord at hbound ⊢
  rw [fillRecord_eq hdata]
  dsimp only
  rw [vsnprintf_kept hkept]
  generalize stamp.text ++ logLevelPrefix level = pre at hbound ⊢
  have hlength : (pre ++ message ++ [newline]).length = message.length + pre.length + 1 := by
    simp only [List.length_append, List.length_singleton]
    omega
  rw [hlength] at hbound
  constructor
  · rw [Buf.len, Buf.setLen, load64_store64_self, hlength]
    exact Nat.mod_eq_of_lt hbound
  · have hheader : Region.Disjoint ⟨buf + 24, 8⟩ ⟨buf + 8, 8⟩ := by
      simp only [Region.Disjoint, Region.stop]
      omega
    rw [Buf.data, Buf.setLen, (sameOutside_store64 _ (buf + 8) _).load64 hheader, ← Buf.data,
      data_store _ _ (by omega), data_store _ _ (by omega), data_store _ _ (by omega), hdata]
  · have hbody : ∀ (m : Memory) (n : Nat) {addr count : Nat}, buf + sizeofBuf ≤ addr →
        load (Buf.setLen m buf n) addr count = load m addr count := by
      intro m n addr count haddr
      apply (sameOutside_store64 m (buf + 8) n).load
      simp only [Region.Disjoint, Region.stop]
      unfold sizeofBuf at haddr
      omega
    have hwritten : store (store (store m (buf + sizeofBuf) pre) (buf + sizeofBuf + pre.length)
        message) (buf + sizeofBuf + (message.length + pre.length)) [newline, 0] =
        store m (buf + sizeofBuf) ((pre ++ message ++ [newline]) ++ [0]) := by
      have haddr : buf + sizeofBuf + (message.length + pre.length) =
          buf + sizeofBuf + (pre ++ message).length := by
        simp only [List.length_append]
        omega
      rw [store_append, haddr, store_append]
      simp
    rw [hbody _ _ (Nat.le_refl _), hwritten, load_store_left]

end NetTest.Log
