import NetTest.Core.Log.Records
import NetTest.Core.Queue.Fifo

/-!
# What reaches the file

A run keeps the records that wait in the queue in buffers of their own, each of
them in use in the pool, so that `print_log_file` writes them out in the order
of the calls and gives every buffer back once.  This needs the calls whose
record is queued to leave the whole record in its buffer, and to keep off the
one push that makes a full queue look empty.
-/

namespace NetTest.Log

open Memory Runs
open Buf (sizeofBuf)
open Pool (wordSize ngxAlignment)
open Queue (Represents ngxQueueSize ngxQueuePush ngxQueueGet ngxQueueEmpty fifoPush)

/-! ## The conditions -/

def Enabled (w : World) (level : Nat) : Prop := ¬ (level < w.level ∨ logLevelOff ≤ level)

def Room (w : World) : Prop := ngxQueueSize w.waitLogs < w.waitLogs.nalloc

instance (w : World) (level : Nat) : Decidable (Enabled w level) :=
  inferInstanceAs (Decidable (¬ _))

instance (w : World) : Decidable (Room w) := inferInstanceAs (Decidable (_ < _))

/-- `vsnprintf` returns an `int`, `len` is an `unsigned int`, and the system
returns memory that is not in use. -/
def Legal (w : World) : Event → Prop
  | .writeLevelLog level stamp message _ mem => message.length < 2 ^ 31 ∧ (Enabled w level →
      Pool.Legal w.pool (.palloc (Buf.createSize (levelCap stamp level message)) mem))
  | .writeData data mem => data.length < 2 ^ 32 ∧
      Pool.Legal w.pool (.palloc (Buf.createSize data.length) mem)
  | .printLogFile => True

def Queued (w : World) : Event → Prop
  | .writeLevelLog level stamp message _ mem => Enabled w level ∧
      allocation w (levelCap stamp level message) mem ≠ none ∧ Room w
  | .writeData data mem => allocation w data.length mem ≠ none ∧ Room w
  | .printLogFile => False

/-- The record is whole once it is in its buffer.  Nobody sets `len` in
`write_data`, so its record is always empty. -/
def Whole : Event → Prop
  | .writeLevelLog _ _ message again _ => Kept message again
  | .writeData data _ => data = []
  | .printLogFile => True

/-- A push that fills the queue finds `head` at slot zero. -/
def FillsFromZero (w : World) : Prop :=
  ngxQueueSize w.waitLogs + 1 = w.waitLogs.nalloc → w.waitLogs.head = 0

def Spares (w : World) (e : Event) : Prop := Queued w e → Whole e ∧ FillsFromZero w

instance : ∀ (w : World) (e : Event), Decidable (Legal w e)
  | w, .writeLevelLog level stamp message _ mem =>
      inferInstanceAs (Decidable (message.length < 2 ^ 31 ∧ (Enabled w level →
        Pool.Legal w.pool (.palloc (Buf.createSize (levelCap stamp level message)) mem))))
  | w, .writeData data mem => inferInstanceAs (Decidable (data.length < 2 ^ 32 ∧
      Pool.Legal w.pool (.palloc (Buf.createSize data.length) mem)))
  | _, .printLogFile => inferInstanceAs (Decidable True)

instance : ∀ (w : World) (e : Event), Decidable (Queued w e)
  | w, .writeLevelLog level stamp message _ mem => inferInstanceAs (Decidable (Enabled w level ∧
      allocation w (levelCap stamp level message) mem ≠ none ∧ Room w))
  | w, .writeData data mem =>
      inferInstanceAs (Decidable (allocation w data.length mem ≠ none ∧ Room w))
  | _, .printLogFile => inferInstanceAs (Decidable False)

instance : ∀ e : Event, Decidable (Whole e)
  | .writeLevelLog _ _ message again _ => inferInstanceAs (Decidable (Kept message again))
  | .writeData data _ => inferInstanceAs (Decidable (data = []))
  | .printLogFile => inferInstanceAs (Decidable True)

instance (w : World) (e : Event) : Decidable (Spares w e) :=
  inferInstanceAs (Decidable (_ → _ ∧ (_ → _)))

/-! ## The waiting records -/

/-- `held` are the waiting records, oldest first, with their buffers. -/
structure Holds (w : World) (held : List (Nat × List UInt8)) : Prop where
  queue : Represents waitLogsSize w.waitLogs (held.map Prod.fst)
  pool : Pool.Inv w.pool
  stored : ∀ x ∈ held, RecordAt w.mem x.1 x.2
  owned : ∀ x ∈ held, ∃ r ∈ w.pool.live, r.addr = x.1 ∧ sizeofBuf + x.2.length ≤ r.size
  distinct : (held.map Prod.fst).Nodup
  pending : w.accepted.flatten = w.file ++ (held.map Prod.snd).flatten

namespace Holds

variable {w : World} {held : List (Nat × List UInt8)}

theorem withPool (h : Holds w held) {pool : Pool.World} (hinv : Pool.Inv pool)
    (hlive : ∀ r ∈ w.pool.live, r.addr ∈ held.map Prod.fst → r ∈ pool.live) :
    Holds { w with pool := pool } held := by
  refine { h with pool := hinv, owned := ?_ }
  intro x hx
  obtain ⟨r, hr, haddr, hsize⟩ := h.owned x hx
  exact ⟨r, hlive r hr (haddr ▸ List.mem_map_of_mem hx), haddr, hsize⟩

theorem palloc (h : Holds w held) {size : Nat} {mem : Option Nat}
    (hlegal : Pool.Legal w.pool (.palloc size mem)) :
    Holds { w with pool := Pool.step w.pool (.palloc size mem) } held := by
  apply h.withPool (h.pool.palloc hlegal)
  intro r hr _
  exact Pool.live_subset_palloc w.pool size mem r hr

theorem withMem (h : Holds w held) {m : Memory} {s : Region} (hsame : SameOutside s w.mem m)
    (hout : ∀ r ∈ w.pool.live, Region.Disjoint r s) : Holds { w with mem := m } held := by
  refine { h with stored := ?_ }
  intro x hx
  obtain ⟨r, hr, haddr, hsize⟩ := h.owned x hx
  apply (h.stored x hx).frame hsame
  refine (hout r hr).mono ⟨Nat.le_of_eq haddr, ?_⟩ ⟨Nat.le_refl _, Nat.le_refl _⟩
  simp only [Region.stop, haddr]
  omega

theorem push (h : Holds w held) {buf : Nat} {bytes : List UInt8} {r : Region}
    (hrecord : RecordAt w.mem buf bytes) (hr : r ∈ w.pool.live) (haddr : r.addr = buf)
    (hsize : sizeofBuf + bytes.length ≤ r.size) (hnew : buf ∉ held.map Prod.fst) (hroom : Room w)
    (hfill : FillsFromZero w) :
    Holds { w with
      waitLogs := (ngxQueuePush w.waitLogs buf).1
      accepted := w.accepted ++ [bytes] } (held ++ [(buf, bytes)]) := by
  have hqueue := h.queue
  have hlt : (held.map Prod.fst).length < waitLogsSize := by
    have hlt := hroom
    rw [Room, hqueue.size_eq, hqueue.nalloc] at hlt
    exact hlt
  have hpushed := hqueue.push buf (by
    intro hlast
    apply hfill
    rw [hqueue.size_eq, hqueue.nalloc, hlast])
  rw [fifoPush, if_neg (Nat.ne_of_lt hlt)] at hpushed
  constructor
  case queue =>
    rw [List.map_append]
    exact hpushed
  case pool => exact h.pool
  case stored =>
    intro x hx
    rcases List.mem_append.mp hx with hx | hx
    · exact h.stored x hx
    · rw [List.mem_singleton.mp hx]
      exact hrecord
  case owned =>
    intro x hx
    rcases List.mem_append.mp hx with hx | hx
    · exact h.owned x hx
    · rw [List.mem_singleton.mp hx]
      exact ⟨r, hr, haddr, hsize⟩
  case distinct =>
    rw [List.map_append]
    apply List.Nodup.append h.distinct (List.nodup_singleton _)
    intro a ha hbuf
    rw [List.mem_singleton.mp hbuf] at ha
    exact hnew ha
  case pending =>
    simp only [List.flatten_append, List.map_append, h.pending, List.append_assoc]
    rfl

end Holds

/-! ## A new buffer in the pool -/

structure Created (w : World) (cap buf : Nat) (m : Memory) (pool : Pool.World) : Prop where
  inv : Pool.Inv pool
  live : pool.live = ⟨buf, Buf.createSize cap⟩ :: w.pool.live
  size : sizeofBuf + cap ≤ Buf.createSize cap
  data : Buf.data m buf = buf + sizeofBuf
  len : Buf.len m buf = 0
  same : SameOutside ⟨buf, sizeofBuf⟩ w.mem m

theorem created {w : World} (hinv : Pool.Inv w.pool) {cap buf : Nat} {m : Memory}
    {mem : Option Nat} (hcap : cap < 2 ^ 63)
    (hlegal : Pool.Legal w.pool (.palloc (Buf.createSize cap) mem))
    (hcreate : Buf.ngxCreateBuf w.mem cap (allocation w cap mem) = some (m, buf)) :
    Created w cap buf m (Pool.step w.pool (.palloc (Buf.createSize cap) mem)) := by
  have hword : cap + 39 < wordSize := by
    unfold wordSize
    omega
  have hsize := Buf.le_createSize hword
  have hlen := Buf.len_ngxCreateBuf hcreate
  cases hret : allocation w cap mem with
  | none =>
      rw [hret] at hcreate
      cases hcreate
  | some addr =>
      have hlt := hinv.palloc_lt hlegal hret
      rw [hret] at hcreate
      obtain ⟨rfl, hdata, hsame⟩ := Buf.data_ngxCreateBuf (by omega) hcreate
      exact ⟨hinv.palloc hlegal, Pool.live_palloc hret, hsize, hdata, hlen, hsame⟩

namespace Created

variable {w : World} {cap buf : Nat} {m : Memory} {pool : Pool.World}

theorem disjoint (h : Created w cap buf m pool) :
    ∀ r ∈ w.pool.live, Region.Disjoint r ⟨buf, Buf.createSize cap⟩ := by
  intro r hr
  have hpairs := h.inv.disjoint
  rw [h.live] at hpairs
  exact ((List.pairwise_cons.mp hpairs).1 r hr).symm

theorem addr_ne (h : Created w cap buf m pool) : ∀ r ∈ w.pool.live, r.addr ≠ buf := by
  intro r hr
  have hpairs := h.inv.addr_ne
  rw [h.live] at hpairs
  exact ((List.pairwise_cons.mp hpairs).1 r hr).symm

theorem header_le (h : Created w cap buf m pool) : sizeofBuf ≤ Buf.createSize cap :=
  Nat.le_trans (Nat.le_add_right _ _) h.size

theorem mem_live (h : Created w cap buf m pool) : ⟨buf, Buf.createSize cap⟩ ∈ pool.live := by
  rw [h.live]
  exact List.mem_cons_self

theorem sameOutside (h : Created w cap buf m pool) {m' : Memory} {size : Nat}
    (hsame : SameOutside ⟨buf, size⟩ m m') (hsize : size ≤ Buf.createSize cap) :
    SameOutside ⟨buf, Buf.createSize cap⟩ w.mem m' := by
  have hheader := h.same.mono (Region.within_of_le h.header_le)
  exact hheader.trans (hsame.mono (Region.within_of_le hsize))

theorem sameOutside_data (h : Created w cap buf m pool) {bytes : List UInt8}
    (hlength : bytes.length ≤ cap) :
    SameOutside ⟨buf, Buf.createSize cap⟩ m (store m (Buf.data m buf) bytes) := by
  apply (sameOutside_store m (Buf.data m buf) bytes).mono
  have hsize := h.size
  rw [h.data]
  simp only [Region.Within, Region.stop]
  omega

end Created

namespace Holds

variable {w : World} {held : List (Nat × List UInt8)} {cap buf : Nat} {m m' : Memory}
  {pool : Pool.World}

theorem create (h : Holds w held) (hnew : Created w cap buf m pool)
    (hsame : SameOutside ⟨buf, Buf.createSize cap⟩ w.mem m') :
    Holds { w with mem := m', pool := pool } held := by
  apply (h.withMem hsame hnew.disjoint).withPool hnew.inv
  intro r hr _
  show r ∈ pool.live
  rw [hnew.live]
  exact List.mem_cons_of_mem _ hr

theorem buf_notMem (h : Holds w held) (hnew : Created w cap buf m pool) :
    buf ∉ held.map Prod.fst := by
  intro hmem
  obtain ⟨x, hx, rfl⟩ := List.mem_map.mp hmem
  obtain ⟨r, hr, haddr, _⟩ := h.owned x hx
  exact hnew.addr_ne r hr haddr

/-- A new buffer that reads its record goes to the end of the queue. -/
theorem accept (h : Holds w held) (hnew : Created w cap buf m pool)
    (hsame : SameOutside ⟨buf, Buf.createSize cap⟩ w.mem m') {bytes : List UInt8}
    (hrecord : RecordAt m' buf bytes) (hlength : bytes.length ≤ cap) (hroom : Room w)
    (hfill : FillsFromZero w) :
    Holds { w with
      mem := m'
      pool := pool
      waitLogs := (ngxQueuePush w.waitLogs buf).1
      accepted := w.accepted ++ [bytes] } (held ++ [(buf, bytes)]) := by
  have hsize : sizeofBuf + bytes.length ≤ Buf.createSize cap :=
    Nat.le_trans (Nat.add_le_add_left hlength _) hnew.size
  exact (h.create hnew hsame).push hrecord hnew.mem_live rfl hsize (h.buf_notMem hnew) hroom hfill

theorem discard (h : Holds w held) (hlive : ∃ r ∈ w.pool.live, r.addr = buf)
    (hbuf : buf ∉ held.map Prod.fst) :
    Holds { w with pool := Pool.step w.pool (.free buf) } held := by
  apply h.withPool (h.pool.free hlive)
  intro r hr hmem
  refine List.mem_filter.mpr ⟨hr, decide_eq_true ?_⟩
  rintro rfl
  exact hbuf hmem

end Holds

/-! ## Steps -/

/-- Nothing has been written behind the last `print_log_file`. -/
def Inv (w : World) : Prop := w.file = w.due ∧ ∃ held, Holds w held

theorem length_levelRecord (stamp : Stamp) (level : Nat) (message : List UInt8) :
    (levelRecord stamp level message).length + 2 = levelCap stamp level message := by
  rw [levelCap, strlen_szTmp, levelRecord]
  simp only [List.length_append, List.length_singleton]
  omega

theorem levelCap_lt (stamp : Stamp) (level : Nat) {message : List UInt8}
    (h : message.length < 2 ^ 31) : levelCap stamp level message < 2 ^ 63 := by
  have hstamp := stamp.length_le
  have hlevel := length_logLevelPrefix_le level
  rw [levelCap, strlen_szTmp, List.length_append]
  omega

theorem allocation_ne_none {w : World} {cap : Nat} {mem : Option Nat} {r : Memory × Nat}
    (h : Buf.ngxCreateBuf w.mem cap (allocation w cap mem) = some r) :
    allocation w cap mem ≠ none := by
  intro hnone
  rw [hnone] at h
  cases h

theorem Inv.writeLevelLog {w : World} (h : Inv w) {level : Nat} {stamp : Stamp}
    {message again : List UInt8} {mem : Option Nat}
    (hlegal : Legal w (.writeLevelLog level stamp message again mem))
    (hspares : Spares w (.writeLevelLog level stamp message again mem)) :
    Inv (writeLevelLog w level stamp message again mem) := by
  obtain ⟨hfile, held, hholds⟩ := h
  obtain ⟨hmessage, hpool⟩ := hlegal
  unfold Log.writeLevelLog
  by_cases hoff : level < w.level ∨ logLevelOff ≤ level
  · rw [if_pos hoff]
    exact ⟨hfile, held, hholds⟩
  rw [if_neg hoff]
  dsimp only
  specialize hpool hoff
  have hcap := levelCap_lt stamp level hmessage
  have hlength := length_levelRecord stamp level message
  cases hcreate : Buf.ngxCreateBuf w.mem (levelCap stamp level message)
      (allocation w (levelCap stamp level message) mem) with
  | none =>
      exact ⟨hfile, held, hholds.palloc hpool⟩
  | some r =>
      obtain ⟨m, buf⟩ := r
      have hnew := created hholds.pool hcap hpool hcreate
      have hsame := hnew.sameOutside
        (sameOutside_fillRecord hnew.data stamp level message.length again) (by
          rw [← strlen_szTmp]
          exact hnew.size)
      dsimp only
      by_cases hroom : ngxQueueSize w.waitLogs < w.waitLogs.nalloc
      · rw [if_pos hroom]
        obtain ⟨hkept, hfill⟩ := hspares ⟨hoff, allocation_ne_none hcreate, hroom⟩
        have hrecord := recordAt_fillRecord hnew.data stamp level hkept (by
          unfold wordSize
          omega)
        exact ⟨hfile, _, hholds.accept hnew hsame hrecord (by omega) hroom hfill⟩
      · rw [if_neg hroom]
        exact ⟨hfile, held, hholds.create hnew hsame⟩

theorem recordAt_empty {w : World} {cap buf : Nat} {m : Memory} {pool : Pool.World}
    (h : Created w cap buf m pool) : RecordAt m buf [] where
  len := h.len
  data := h.data
  text := rfl

theorem sameOutside_ngxBufFree (m : Memory) (buf : Nat) :
    SameOutside ⟨buf, sizeofBuf⟩ m (Buf.ngxBufFree m buf).1 := by
  apply (sameOutside_store64 m (buf + 16) _).mono
  simp only [Region.Within, Region.stop, sizeofBuf]
  omega

theorem Inv.writeData {w : World} (h : Inv w) {data : List UInt8} {mem : Option Nat}
    (hlegal : Legal w (.writeData data mem)) (hspares : Spares w (.writeData data mem)) :
    Inv (writeData w data mem) := by
  obtain ⟨hfile, held, hholds⟩ := h
  obtain ⟨hdata, hpool⟩ := hlegal
  unfold Log.writeData
  dsimp only
  cases hcreate : Buf.ngxCreateBuf w.mem data.length (allocation w data.length mem) with
  | none =>
      exact ⟨hfile, held, hholds.palloc hpool⟩
  | some r =>
      obtain ⟨m, buf⟩ := r
      have hnew := created hholds.pool (by omega) hpool hcreate
      have hfull := hholds.queue.push_result buf
      dsimp only
      cases hpush : (ngxQueuePush w.waitLogs buf).2 with
      | true =>
          have hroom : Room w := by
            have hle := hholds.queue.length_le
            rw [hpush] at hfull
            rw [Room, hholds.queue.size_eq, hholds.queue.nalloc]
            exact lt_of_le_of_ne hle fun heq => absurd (hfull.mpr heq) (by decide)
          obtain ⟨hempty, hfill⟩ := hspares ⟨allocation_ne_none hcreate, hroom⟩
          have hempty : data = [] := hempty
          subst hempty
          rw [if_pos rfl, store_nil]
          have hsame := hnew.sameOutside (SameOutside.refl ⟨buf, 0⟩ m) (Nat.zero_le _)
          exact ⟨hfile, _, hholds.accept hnew hsame (recordAt_empty hnew) (Nat.le_refl _) hroom hfill⟩
      | false =>
          rw [if_neg (by decide)]
          have hbody := hnew.sameOutside_data (Nat.le_refl data.length)
          have hheader := (sameOutside_ngxBufFree (store m (Buf.data m buf) data) buf).mono
            (Region.within_of_le hnew.header_le)
          have hkept := hholds.create hnew
            (hnew.sameOutside (hbody.trans hheader) (Nat.le_refl _))
          split
          · exact ⟨hfile, held, hkept.discard ⟨_, hnew.mem_live, rfl⟩ (hholds.buf_notMem hnew)⟩
          · exact ⟨hfile, held, hkept⟩

theorem Holds.turn {w : World} {buf : Nat} {bytes : List UInt8} {held : List (Nat × List UInt8)}
    (h : Holds w ((buf, bytes) :: held)) :
    Holds { w with
      waitLogs := (ngxQueueGet w.waitLogs).1
      file := w.file ++ load w.mem (Buf.data w.mem buf) (Buf.len w.mem buf)
      pool := Pool.step w.pool (.free buf) } held := by
  obtain ⟨hnotMem, hdistinct⟩ := List.nodup_cons.mp h.distinct
  obtain ⟨r, hr, haddr, _⟩ := h.owned (buf, bytes) List.mem_cons_self
  have hrecord := h.stored (buf, bytes) List.mem_cons_self
  constructor
  case queue => exact h.queue.get
  case pool => exact h.pool.free ⟨r, hr, haddr⟩
  case stored => exact fun x hx => h.stored x (List.mem_cons_of_mem _ hx)
  case owned =>
    intro x hx
    obtain ⟨s, hs, hsaddr, hsize⟩ := h.owned x (List.mem_cons_of_mem _ hx)
    refine ⟨s, List.mem_filter.mpr ⟨hs, decide_eq_true ?_⟩, hsaddr, hsize⟩
    intro heq
    have hmem : buf ∈ held.map Prod.fst := by
      rw [← heq, hsaddr]
      exact List.mem_map_of_mem hx
    exact hnotMem hmem
  case distinct => exact hdistinct
  case pending =>
    have hpending := h.pending
    have hload : load w.mem (Buf.data w.mem buf) (Buf.len w.mem buf) = bytes := by
      rw [hrecord.data, hrecord.len, hrecord.text]
    simp only [hload, hpending, List.map_cons, List.flatten_cons, List.append_assoc]

theorem Holds.oldest {w : World} {buf : Nat} {bytes : List UInt8} {held : List (Nat × List UInt8)}
    (h : Holds w ((buf, bytes) :: held)) :
    ngxQueueEmpty w.waitLogs = false ∧ buf ≠ 0 ∧
      ∃ slot, (ngxQueueGet w.waitLogs).2 = some slot ∧ w.waitLogs.elts slot = buf := by
  obtain ⟨r, hr, haddr, _⟩ := h.owned (buf, bytes) List.mem_cons_self
  have hvalue := h.queue.get_value
  refine ⟨?_, ?_, Option.map_eq_some_iff.mp hvalue⟩
  · rw [Bool.eq_false_iff]
    intro hempty
    exact absurd (h.queue.empty_iff.mp hempty) (by simp)
  · have hlive := (h.pool.live r hr).2.2
    rw [haddr] at hlive
    exact hlive

/-- The loop ends with nothing left to write. -/
theorem Holds.printLoop {w : World} {held : List (Nat × List UInt8)} (h : Holds w held)
    {turns : Nat} (hturns : held.length ≤ turns) :
    Holds (printLoop w turns) [] := by
  induction held generalizing w turns with
  | nil =>
      have hempty := h.queue.empty_iff.mpr rfl
      have hdone : Log.printLoop w turns = w := by
        cases turns with
        | zero => rfl
        | succ turns => rw [Log.printLoop, if_pos hempty]
      rw [hdone]
      exact h
  | cons x held ih =>
      obtain ⟨buf, bytes⟩ := x
      obtain ⟨hempty, hbuf, slot, hget, hslot⟩ := h.oldest
      rcases turns with _ | turns
      · exact absurd hturns (by simp)
      · rw [List.length_cons] at hturns
        rw [Log.printLoop, if_neg (by simp [hempty]), hget]
        dsimp only
        rw [hslot, if_neg hbuf]
        exact ih h.turn (by omega)

theorem Inv.printLogFile {w : World} (h : Inv w) : Inv (printLogFile w) := by
  obtain ⟨_, held, hholds⟩ := h
  have hturns : held.length ≤ w.waitLogs.nalloc := by
    have hle := hholds.queue.length_le
    rw [List.length_map] at hle
    rw [hholds.queue.nalloc]
    exact hle
  have hdone := hholds.printLoop hturns
  refine ⟨?_, [], { hdone with }⟩
  have hpending := hdone.pending
  simp only [List.map_nil, List.flatten_nil, List.append_nil] at hpending
  exact hpending.symm

/-! ## Runs -/

theorem inv_create (level : Nat) (mem : Memory) {addr block : Nat} (slots : Nat → Nat)
    (haligned : ngxAlignment ∣ addr) (hbound : addr + Pool.createSize 1 < wordSize)
    (hqueue : Pool.Legal (Pool.World.init 1 addr) (.palloc queueSize (some block))) :
    Inv (World.create level mem addr block slots) := by
  refine ⟨rfl, [], ?_⟩
  constructor
  case queue => exact Queue.represents_create waitLogsSize slots
  case pool => exact (Pool.inv_init haligned hbound).palloc hqueue
  case distinct => exact List.nodup_nil
  case pending => rfl
  all_goals
    intro x hx
    cases hx

/-- Along every run whose queued records are whole and which never fills the
queue off slot zero, the file holds the records that found room before the last
`print_log_file`, in the order of the calls. -/
theorem file_intact (level : Nat) (mem : Memory) (addr block : Nat) (slots : Nat → Nat)
    (haligned : ngxAlignment ∣ addr) (hbound : addr + Pool.createSize 1 < wordSize)
    (hqueue : Pool.Legal (Pool.World.init 1 addr) (.palloc queueSize (some block)))
    (events : List Event)
    (hlegal : Guarded step Legal (World.create level mem addr block slots) events)
    (hspares : Guarded step Spares (World.create level mem addr block slots) events) :
    Always step (fun w => w.file = w.due) (World.create level mem addr block slots) events := by
  have hinv : Always step Inv (World.create level mem addr block slots) events := by
    refine always_of_guarded ?_ (inv_create level mem slots haligned hbound hqueue)
      (guarded_and.mpr ⟨hlegal, hspares⟩)
    intro w e hw he
    cases e with
    | writeLevelLog level stamp message again mem => exact hw.writeLevelLog he.1 he.2
    | writeData data mem => exact hw.writeData he.1 he.2
    | printLogFile => exact hw.printLogFile
  exact hinv.mono fun _ h => h.1

def morning : Stamp where
  text := bytesOf "2024-01-02 08:15:00.250 "
  no_nul := by decide
  length_le := by decide

/-- An empty message, one that is filtered out, one that ends in a null byte and
no data at all. -/
theorem file_intact_run :
    Always step (fun w => w.file = w.due)
      (World.create logLevelInfo (fun _ => 170) 4096 65536 fun _ => 0)
      [.writeLevelLog 3 morning [] [] none, .writeLevelLog 1 morning [65] [65] none,
        .printLogFile, .writeLevelLog 6 morning [79, 75, 0] [79, 75, 0] none,
        .writeData [] none, .printLogFile] :=
  file_intact logLevelInfo _ 4096 65536 _ (by decide) (by decide) (by decide +kernel) _
    (by decide +kernel) (by decide +kernel)

/-- `write_level_log(log_level_info, "a")` and `print_log_file`: the file gets a
null byte where the message should be. -/
theorem file_loses_last_byte :
    ¬ ∀ (level : Nat) (mem : Memory) (addr block : Nat) (slots : Nat → Nat),
      ngxAlignment ∣ addr → addr + Pool.createSize 1 < wordSize →
      Pool.Legal (Pool.World.init 1 addr) (.palloc queueSize (some block)) →
      ∀ events, Guarded step Legal (World.create level mem addr block slots) events →
        Always step (fun w => w.file = w.due) (World.create level mem addr block slots) events := by
  intro h
  have hrun := h logLevelInfo (fun _ => 0) 4096 65536 (fun _ => 0) (by decide) (by decide)
    (by decide +kernel) [.writeLevelLog 3 morning [97] [97] none, .printLogFile]
    (by decide +kernel)
  exact absurd hrun (by decide +kernel)

end NetTest.Log
