import NetTest.Core.Log.Intact

/-!
# What stays in the pool

Every buffer in use in the pool of the log waits in the queue, until a record is
made for which a full queue has no room, or a push fills the queue with `head`
off slot zero.  The first leaves one buffer behind, the second all of them.
-/

namespace NetTest.Log

open Memory NetTest.Ring Runs
open Buf (sizeofBuf)
open Pool (wordSize ngxAlignment)
open Queue (Represents ngxQueueSize ngxQueuePush ngxQueueGet ngxQueueEmpty fifoPush)

inductive Call where
  | log (e : Event)
  | printNoFile

def callStep (w : World) : Call → World
  | .log e => step w e
  | .printNoFile => w

def LegalCall (w : World) : Call → Prop
  | .log e => Legal w e
  | .printNoFile => True

instance (w : World) : ∀ call : Call, Decidable (LegalCall w call)
  | .log e => inferInstanceAs (Decidable (Legal w e))
  | .printNoFile => inferInstanceAs (Decidable True)

/-- The buffers `_wait_logs` refers to, oldest first. -/
def entries (w : World) : List Nat :=
  window w.waitLogs.elts w.waitLogs.nalloc w.waitLogs.head (ngxQueueSize w.waitLogs)

/-- Apart from the queue, which is at the address `queue`, what is in use in the pool
is what the entries refer to. -/
def NoLeak (queue : Nat) (w : World) : Prop :=
  ∀ a, a ≠ queue → ((∃ r ∈ w.pool.live, r.addr = a) ↔ a ∈ entries w)

/-- A call that writes and does not queue its record leaves what is in use as it was. -/
def Restores (w : World) : Call → Prop
  | .log .printLogFile => True
  | .log e => ¬ Queued w e → (step w e).pool.live = w.pool.live
  | .printNoFile => True

/-- A record of `write_level_log` finds room, and a push that fills the queue finds `head`
at slot zero. -/
def Keeps (w : World) : Call → Prop
  | .log (.writeLevelLog level stamp message _ mem) =>
      Enabled w level → allocation w (levelCap stamp level message) mem ≠ none →
        Room w ∧ FillsFromZero w
  | .log (.writeData data mem) => allocation w data.length mem ≠ none → FillsFromZero w
  | .log .printLogFile => True
  | .printNoFile => True

/-! ## The buffers in use -/

structure Held (queue : Nat) (w : World) (bufs : List Nat) : Prop where
  represents : Represents waitLogsSize w.waitLogs bufs
  pool : Pool.Inv w.pool
  live : ∀ a, (∃ r ∈ w.pool.live, r.addr = a) ↔ a = queue ∨ a ∈ bufs
  distinct : (queue :: bufs).Nodup

namespace Held

variable {queue : Nat} {w : World} {bufs : List Nat}

theorem entries_eq (h : Held queue w bufs) : entries w = bufs := by
  rw [entries, h.represents.size_eq, h.represents.nalloc]
  exact h.represents.held_eq.symm

theorem noLeak (h : Held queue w bufs) : NoLeak queue w := by
  intro a ha
  rw [h.entries_eq, h.live]
  constructor
  · intro hmem
    exact hmem.resolve_left ha
  · exact Or.inr

theorem room_iff (h : Held queue w bufs) : Room w ↔ bufs.length < waitLogsSize := by
  rw [Room, h.represents.size_eq, h.represents.nalloc]

theorem withPool (h : Held queue w bufs) {pool : Pool.World} (hinv : Pool.Inv pool)
    (hlive : pool.live = w.pool.live) (m : Memory) :
    Held queue { w with mem := m, pool := pool } bufs :=
  { h with
    pool := hinv
    live := by
      simp only [hlive]
      exact h.live }

variable {cap buf : Nat} {m : Memory} {pool : Pool.World}

theorem notMem (h : Held queue w bufs) (hnew : Created w cap buf m pool) :
    buf ≠ queue ∧ buf ∉ bufs := by
  have hfresh : ¬ (buf = queue ∨ buf ∈ bufs) := by
    rw [← h.live]
    intro hmem
    rcases hmem with ⟨r, hr, haddr⟩
    exact hnew.addr_ne r hr haddr
  exact not_or.mp hfresh

theorem push (h : Held queue w bufs) (hnew : Created w cap buf m pool) (m' : Memory)
    (accepted : List (List UInt8)) (hroom : Room w) (hfill : FillsFromZero w) :
    Held queue { w with
      mem := m'
      pool := pool
      waitLogs := (ngxQueuePush w.waitLogs buf).1
      accepted := accepted } (bufs ++ [buf]) := by
  have hlt := h.room_iff.mp hroom
  have hpushed := h.represents.push buf (by
    intro hlast
    apply hfill
    rw [h.represents.size_eq, h.represents.nalloc, hlast])
  rw [fifoPush, if_neg (Nat.ne_of_lt hlt)] at hpushed
  have hfresh := h.notMem hnew
  constructor
  · exact hpushed
  · exact hnew.inv
  · intro a
    simp only [hnew.live, List.exists_mem_cons_iff, h.live, List.mem_append, List.mem_singleton]
    rw [eq_comm (a := buf)]
    tauto
  · rw [← List.cons_append]
    apply List.Nodup.append h.distinct (List.nodup_singleton buf)
    intro a ha hbuf
    rw [List.mem_singleton.mp hbuf] at ha
    rcases List.mem_cons.mp ha with heq | hmem
    · exact hfresh.1 heq
    · exact hfresh.2 hmem

theorem leaks (h : Held queue w bufs) (hnew : Created w cap buf m pool) {w' : World}
    (hpool : w'.pool = pool) (hentries : buf ∉ entries w') : ¬ NoLeak queue w' := by
  intro hleak
  apply hentries
  apply (hleak buf (h.notMem hnew).1).mp
  rw [hpool]
  exact ⟨_, hnew.mem_live, rfl⟩

/-- A push that fills the queue off slot zero leaves it without entries. -/
theorem entries_lost (h : Held queue w bufs) (buf : Nat) (hfill : ¬ FillsFromZero w)
    {w' : World} (hqueue : w'.waitLogs = (ngxQueuePush w.waitLogs buf).1) : entries w' = [] := by
  rw [FillsFromZero, h.represents.size_eq, h.represents.nalloc, Classical.not_imp] at hfill
  rw [entries, hqueue, h.represents.push_lost_size buf hfill.1 hfill.2]
  rfl

/-- A push that fills the queue off slot zero leaks, and any other keeps the buffers. -/
theorem push_or_leaks (h : Held queue w bufs) (hnew : Created w cap buf m pool) (m' : Memory)
    (accepted : List (List UInt8)) (hroom : Room w) {w' : World}
    (hafter : w' = { w with
      mem := m'
      pool := pool
      waitLogs := (ngxQueuePush w.waitLogs buf).1
      accepted := accepted }) :
    (FillsFromZero w → ∃ bufs, Held queue w' bufs) ∧ (¬ FillsFromZero w → ¬ NoLeak queue w') := by
  rw [hafter]
  constructor
  · intro hfill
    exact ⟨_, h.push hnew m' accepted hroom hfill⟩
  · intro hfill
    apply h.leaks hnew rfl
    rw [h.entries_lost buf hfill rfl]
    exact List.not_mem_nil

theorem failed (h : Held queue w bufs) {mem : Option Nat}
    (hlegal : Pool.Legal w.pool (.palloc (Buf.createSize cap) mem))
    (hnone : allocation w cap mem = none) :
    Held queue { w with pool := Pool.step w.pool (.palloc (Buf.createSize cap) mem) } bufs ∧
      (Pool.step w.pool (.palloc (Buf.createSize cap) mem)).live = w.pool.live := by
  have hlive := Pool.live_palloc_none hnone
  exact ⟨h.withPool (h.pool.palloc hlegal) hlive w.mem, hlive⟩

end Held

/-! ## Steps -/

/-- A call that keeps to the conditions leaves what is in use in the queue, and one that
does not leaks. -/
def Exact (queue : Nat) (w : World) (call : Call) : Prop :=
  (Keeps w call → (∃ bufs, Held queue (callStep w call) bufs) ∧ Restores w call) ∧
    (¬ Keeps w call → ¬ NoLeak queue (callStep w call))

variable {queue : Nat} {w : World} {bufs : List Nat} {cap buf : Nat} {m : Memory}
  {pool : Pool.World} {mem : Option Nat}

theorem allocation_eq_none {cap : Nat} {mem : Option Nat}
    (h : Buf.ngxCreateBuf w.mem cap (allocation w cap mem) = none) : allocation w cap mem = none :=
  Option.map_eq_none_iff.mp h

theorem writeLevelLog_of_room {level : Nat} {stamp : Stamp} {message again : List UInt8}
    (hon : Enabled w level)
    (hcreate : Buf.ngxCreateBuf w.mem (levelCap stamp level message)
      (allocation w (levelCap stamp level message) mem) = some (m, buf)) (hroom : Room w) :
    writeLevelLog w level stamp message again mem = { w with
      mem := fillRecord m buf stamp level message.length again
      pool := Pool.step w.pool (.palloc (Buf.createSize (levelCap stamp level message)) mem)
      waitLogs := (ngxQueuePush w.waitLogs buf).1
      accepted := w.accepted ++ [levelRecord stamp level message] } := by
  simp only [writeLevelLog, hcreate]
  exact (if_neg hon).trans (if_pos hroom)

theorem exact_writeLevelLog (h : Held queue w bufs) {level : Nat} {stamp : Stamp}
    {message again : List UInt8} {mem : Option Nat}
    (hlegal : Legal w (.writeLevelLog level stamp message again mem)) :
    Exact queue w (.log (.writeLevelLog level stamp message again mem)) := by
  rcases hlegal with ⟨hmessage, hpool⟩
  have hcap := levelCap_lt stamp level hmessage
  by_cases hon : Enabled w level
  · specialize hpool hon
    cases hcreate : Buf.ngxCreateBuf w.mem (levelCap stamp level message)
        (allocation w (levelCap stamp level message) mem) with
    | none =>
        have hnone := allocation_eq_none hcreate
        rcases h.failed hpool hnone with ⟨hheld, hlive⟩
        have hstep : writeLevelLog w level stamp message again mem = { w with
            pool := Pool.step w.pool (.palloc (Buf.createSize (levelCap stamp level message)) mem) } := by
          simp only [writeLevelLog, hcreate]
          exact if_neg hon
        simp only [Exact, Restores, callStep, step, hstep]
        constructor
        · intro _
          exact ⟨⟨bufs, hheld⟩, fun _ => hlive⟩
        · intro hnot
          exact absurd (fun _ hsome => absurd hnone hsome) hnot
    | some r =>
        rcases r with ⟨m, buf⟩
        have hnew := created h.pool hcap hpool hcreate
        have hsome := allocation_ne_none hcreate
        have hkeeps : Keeps w (.log (.writeLevelLog level stamp message again mem)) ↔
            Room w ∧ FillsFromZero w := by
          constructor
          · intro hkeeps
            exact hkeeps hon hsome
          · intro hboth _ _
            exact hboth
        rw [Exact, hkeeps]
        by_cases hroom : Room w
        · rcases h.push_or_leaks hnew _ _ hroom (writeLevelLog_of_room hon hcreate hroom) with
            ⟨hkept, hleaks⟩
          constructor
          · intro hboth
            exact ⟨hkept hboth.2, fun hnot => absurd ⟨hon, hsome, hroom⟩ hnot⟩
          · intro hnot
            exact hleaks fun hfill => hnot ⟨hroom, hfill⟩
        · have hstep : writeLevelLog w level stamp message again mem = { w with
              mem := fillRecord m buf stamp level message.length again
              pool := Pool.step w.pool
                (.palloc (Buf.createSize (levelCap stamp level message)) mem) } := by
            simp only [writeLevelLog, hcreate]
            exact (if_neg hon).trans (if_neg hroom)
          simp only [callStep, step, hstep]
          constructor
          · intro hboth
            exact absurd hboth.1 hroom
          · intro _
            have hnotMem := (h.notMem hnew).2
            rw [← h.entries_eq] at hnotMem
            exact h.leaks hnew rfl hnotMem
  · have hstep : writeLevelLog w level stamp message again mem = w := if_pos (not_not.mp hon)
    simp only [Exact, Restores, callStep, step, hstep]
    constructor
    · intro _
      exact ⟨⟨bufs, h⟩, fun _ => trivial⟩
    · intro hnot
      exact absurd (fun hyes => absurd hyes hon) hnot

theorem ref_store_data (hnew : Created w cap buf m pool)
    (hcreate : Buf.ngxCreateBuf w.mem cap (allocation w cap mem) = some (m, buf))
    (data : List UInt8) : Buf.ref (store m (Buf.data m buf) data) buf = 1 := by
  rw [← Buf.ref_ngxCreateBuf hcreate, hnew.data]
  apply (sameOutside_store m (buf + sizeofBuf) data).load64
  simp only [Region.Disjoint, Region.stop, sizeofBuf]
  omega

theorem live_free_new (hnew : Created w cap buf m pool) :
    (Pool.step pool (.free buf)).live = w.pool.live := by
  have hkeep : w.pool.live.filter (fun r => r.addr ≠ buf) = w.pool.live := by
    apply List.filter_eq_self.mpr
    intro r hr
    exact decide_eq_true (hnew.addr_ne r hr)
  simp only [Pool.step, hnew.live]
  rw [List.filter_cons_of_neg (by simp)]
  exact hkeep

theorem exact_writeData (h : Held queue w bufs) {data : List UInt8} {mem : Option Nat}
    (hlegal : Legal w (.writeData data mem)) : Exact queue w (.log (.writeData data mem)) := by
  rcases hlegal with ⟨hdata, hpool⟩
  cases hcreate : Buf.ngxCreateBuf w.mem data.length (allocation w data.length mem) with
  | none =>
      have hnone := allocation_eq_none hcreate
      rcases h.failed hpool hnone with ⟨hheld, hlive⟩
      have hstep : writeData w data mem =
          { w with pool := Pool.step w.pool (.palloc (Buf.createSize data.length) mem) } := by
        simp only [writeData, hcreate]
      simp only [Exact, Restores, callStep, step, hstep]
      constructor
      · intro _
        exact ⟨⟨bufs, hheld⟩, fun _ => hlive⟩
      · intro hnot
        exact absurd (fun hsome => absurd hnone hsome) hnot
  | some r =>
      rcases r with ⟨m, buf⟩
      have hnew := created h.pool (by omega) hpool hcreate
      have hsome := allocation_ne_none hcreate
      have hkeeps : Keeps w (.log (.writeData data mem)) ↔ FillsFromZero w := by
        constructor
        · intro hkeeps
          exact hkeeps hsome
        · intro hfill _
          exact hfill
      rw [Exact, hkeeps]
      have hfull := h.represents.push_result buf
      cases hpush : (ngxQueuePush w.waitLogs buf).2 with
      | true =>
          have hroom : Room w := by
            rw [hpush] at hfull
            rw [h.room_iff]
            exact lt_of_le_of_ne h.represents.length_le fun heq => absurd (hfull.mpr heq) (by decide)
          have hstep : writeData w data mem = { w with
              mem := store m (Buf.data m buf) data
              pool := Pool.step w.pool (.palloc (Buf.createSize data.length) mem)
              waitLogs := (ngxQueuePush w.waitLogs buf).1
              accepted := w.accepted ++ [data] } := by
            simp only [writeData, hcreate, hpush, if_true]
          rcases h.push_or_leaks hnew _ _ hroom hstep with ⟨hkept, hleaks⟩
          constructor
          · intro hfill
            exact ⟨hkept hfill, fun hnot => absurd ⟨hsome, hroom⟩ hnot⟩
          · exact hleaks
      | false =>
          have hlast := Buf.ngxBufFree_last (ref_store_data hnew hcreate data)
          have hlive := live_free_new hnew
          have hstep : writeData w data mem = { w with
              mem := (Buf.ngxBufFree (store m (Buf.data m buf) data) buf).1
              pool := Pool.step (Pool.step w.pool (.palloc (Buf.createSize data.length) mem))
                (.free buf) } := by
            simp only [writeData, hcreate, hpush, Bool.false_eq_true, if_false, hlast, if_true]
          have hfree := hnew.inv.free ⟨_, hnew.mem_live, rfl⟩
          simp only [Restores, callStep, step, hstep]
          constructor
          · intro _
            exact ⟨⟨bufs, h.withPool hfree hlive _⟩, fun _ => hlive⟩
          · intro hfill
            have hsize : bufs.length = waitLogsSize := hfull.mp hpush
            rw [FillsFromZero, h.represents.size_eq, h.represents.nalloc] at hfill
            exact absurd (fun heq => absurd heq (by omega)) hfill

/-! ## Printing -/

theorem Held.turn {buf : Nat} (h : Held queue w (buf :: bufs)) (file : List UInt8) :
    Held queue { w with
      waitLogs := (ngxQueueGet w.waitLogs).1
      file := file
      pool := Pool.step w.pool (.free buf) } bufs := by
  have hbuf : ∃ r ∈ w.pool.live, r.addr = buf := (h.live buf).mpr (Or.inr List.mem_cons_self)
  rcases List.nodup_cons.mp h.distinct with ⟨hqueue, hbufs⟩
  rcases List.nodup_cons.mp hbufs with ⟨hnotMem, hrest⟩
  rw [List.mem_cons, not_or] at hqueue
  constructor
  · exact h.represents.get
  · exact h.pool.free hbuf
  · intro a
    have hfiltered : (∃ r ∈ (Pool.step w.pool (.free buf)).live, r.addr = a) ↔
        (∃ r ∈ w.pool.live, r.addr = a) ∧ a ≠ buf := by
      simp only [Pool.step, List.mem_filter, decide_eq_true_eq]
      constructor
      · intro hmem
        rcases hmem with ⟨r, ⟨hr, hne⟩, rfl⟩
        exact ⟨⟨r, hr, rfl⟩, hne⟩
      · intro hmem
        rcases hmem with ⟨⟨r, hr, rfl⟩, hne⟩
        exact ⟨r, ⟨hr, hne⟩, rfl⟩
    rw [hfiltered, h.live, List.mem_cons]
    constructor
    · intro h
      rcases h with ⟨hmem, hne⟩
      exact hmem.imp_right fun hor => hor.resolve_left hne
    · intro h
      rcases h with rfl | hmem
      · exact ⟨Or.inl rfl, hqueue.1⟩
      · refine ⟨Or.inr (Or.inr hmem), ?_⟩
        rintro rfl
        exact hnotMem hmem
  · exact List.nodup_cons.mpr ⟨hqueue.2, hrest⟩

theorem Held.printLoop (h : Held queue w bufs) {turns : Nat} (hturns : bufs.length ≤ turns) :
    Held queue (Log.printLoop w turns) [] := by
  induction bufs generalizing w turns with
  | nil =>
      have hempty := h.represents.empty_iff.mpr rfl
      cases turns with
      | zero => exact h
      | succ turns =>
          rw [Log.printLoop, if_pos hempty]
          exact h
  | cons buf bufs ih =>
      rcases (h.live buf).mpr (Or.inr List.mem_cons_self) with ⟨r, hr, haddr⟩
      have hne : buf ≠ 0 := by
        rw [← haddr]
        exact (h.pool.live r hr).2.2
      have hempty : ngxQueueEmpty w.waitLogs ≠ true := by
        rw [Ne, h.represents.empty_iff]
        exact List.cons_ne_nil buf bufs
      rcases Option.map_eq_some_iff.mp h.represents.get_value with ⟨slot, hget, hslot⟩
      rcases turns with _ | turns
      · exact absurd hturns (Nat.not_succ_le_zero _)
      · rw [Log.printLoop, if_neg hempty, hget]
        dsimp only
        rw [hslot, if_neg hne]
        exact ih (h.turn _) (Nat.le_of_succ_le_succ hturns)

theorem exact_printLogFile (h : Held queue w bufs) : Exact queue w (.log .printLogFile) := by
  have hturns : bufs.length ≤ w.waitLogs.nalloc := by
    rw [h.represents.nalloc]
    exact h.represents.length_le
  have hdone := h.printLoop hturns
  constructor
  · intro _
    exact ⟨⟨[], { hdone with }⟩, trivial⟩
  · intro hnot
    exact absurd trivial hnot

theorem exact_call (h : Held queue w bufs) (call : Call) (hlegal : LegalCall w call) :
    Exact queue w call := by
  cases call with
  | printNoFile =>
      constructor
      · intro _
        exact ⟨⟨bufs, h⟩, trivial⟩
      · intro hnot
        exact absurd trivial hnot
  | log e =>
      cases e with
      | writeLevelLog level stamp message again mem => exact exact_writeLevelLog h hlegal
      | writeData data mem => exact exact_writeData h hlegal
      | printLogFile => exact exact_printLogFile h

/-! ## Runs -/

theorem held_create (level : Nat) (mem : Memory) {addr block : Nat} (slots : Nat → Nat)
    (haligned : ngxAlignment ∣ addr) (hbound : addr + Pool.createSize 1 < wordSize)
    (hqueue : Pool.Legal (Pool.World.init 1 addr) (.palloc queueSize (some block))) :
    Held (block + Pool.sizeofLarge) (World.create level mem addr block slots) [] := by
  constructor
  · exact Queue.represents_create waitLogsSize slots
  · exact (Pool.inv_init haligned hbound).palloc hqueue
  · intro a
    have hlive : (World.create level mem addr block slots).pool.live =
        [⟨block + Pool.sizeofLarge, queueSize⟩] :=
      Pool.live_palloc (by
        rw [Pool.ngxPalloc_large _ (by decide)]
        rfl)
    simp only [hlive, List.mem_singleton, exists_eq_left, List.not_mem_nil, or_false]
    exact eq_comm
  · exact List.nodup_singleton _

/-- Along every run of legal calls what is in use is what the entries refer to, and a call
that cannot queue its record changes nothing, if and only if every record of
`write_level_log` finds room and no push fills the queue off slot zero. -/
theorem noLeak_iff (level : Nat) (mem : Memory) (addr block : Nat) (slots : Nat → Nat)
    (haligned : ngxAlignment ∣ addr) (hbound : addr + Pool.createSize 1 < wordSize)
    (hqueue : Pool.Legal (Pool.World.init 1 addr) (.palloc queueSize (some block)))
    (calls : List Call)
    (hlegal : Guarded callStep LegalCall (World.create level mem addr block slots) calls) :
    (Always callStep (NoLeak (block + Pool.sizeofLarge)) (World.create level mem addr block slots)
        calls ∧
      Guarded callStep Restores (World.create level mem addr block slots) calls) ↔
      Guarded callStep Keeps (World.create level mem addr block slots) calls := by
  have hcreate := held_create level mem slots haligned hbound hqueue
  apply always_guarded_iff (fun w => ∃ bufs, Held (block + Pool.sizeofLarge) w bufs) LegalCall
    Restores
  · intro w hheld
    rcases hheld with ⟨bufs, h⟩
    exact h.noLeak
  · intro w call hheld hlegal hkeeps
    rcases hheld with ⟨bufs, h⟩
    exact (exact_call h call hlegal).1 hkeeps
  · intro w call hheld hlegal hnot _
    rcases hheld with ⟨bufs, h⟩
    exact (exact_call h call hlegal).2 hnot
  · exact ⟨[], hcreate⟩
  · exact hlegal

/-- An empty message, data that is queued, a filtered call, a file that cannot be opened
and one that can. -/
theorem noLeak_iff_run :
    (Always callStep (NoLeak (65536 + Pool.sizeofLarge))
        (World.create logLevelInfo (fun _ => 170) 4096 65536 fun _ => 0)
        [.log (.writeLevelLog 3 morning [] [] none), .log (.writeData [1, 2] none),
          .log (.writeLevelLog 1 morning [65] [65] none), .printNoFile, .log .printLogFile] ∧
      Guarded callStep Restores
        (World.create logLevelInfo (fun _ => 170) 4096 65536 fun _ => 0)
        [.log (.writeLevelLog 3 morning [] [] none), .log (.writeData [1, 2] none),
          .log (.writeLevelLog 1 morning [65] [65] none), .printNoFile, .log .printLogFile]) ↔
      Guarded callStep Keeps
        (World.create logLevelInfo (fun _ => 170) 4096 65536 fun _ => 0)
        [.log (.writeLevelLog 3 morning [] [] none), .log (.writeData [1, 2] none),
          .log (.writeLevelLog 1 morning [65] [65] none), .printNoFile, .log .printLogFile] :=
  noLeak_iff logLevelInfo _ 4096 65536 _ (by decide) (by decide) (by decide +kernel) _
    (by decide +kernel)

/-! ## More records than slots -/

/-- The system returns two pages for the record, behind those of the records before. -/
def filler (message : List UInt8) (n : Nat) : Call :=
  .log (.writeLevelLog logLevelInfo morning message [] (some (2 ^ 20 + 8192 * n)))

/-- `n` records wait, and the pool has no memory from where the next one goes. -/
structure Filled (queue n : Nat) (w : World) : Prop where
  held : ∃ bufs, Held queue w bufs ∧ bufs.length = n
  level : w.level = logLevelInfo
  head : w.waitLogs.head = 0
  below : ∀ a ∈ Pool.held w.pool.area (w.pool.pool.blocks.map Pool.Block.frame) w.pool.pool.large,
    a.stop ≤ 2 ^ 20 + 8192 * n

theorem createSize_filler {message : List UInt8} (hmessage : message.length = 5000) :
    Buf.createSize (levelCap morning logLevelInfo message) = 5072 := by
  rw [levelCap, hmessage]
  decide +kernel

namespace Filled

variable {n : Nat} {message : List UInt8}

theorem legal (h : Filled queue n w) (hn : n ≤ waitLogsSize) (hmessage : message.length = 5000) :
    LegalCall w (filler message n) := by
  have hn : n ≤ 4096 := hn
  have hlength : message.length < 2 ^ 31 := by
    rw [hmessage]
    decide
  have hpool : Pool.Legal w.pool (.palloc 5072 (some (2 ^ 20 + 8192 * n))) := by
    constructor
    · decide
    · intro addr haddr
      rw [if_pos (by decide), ← Option.mem_some.mp haddr]
      constructor
      · omega
      · simp only [Pool.sizeofLarge, wordSize]
        omega
      · intro a ha
        exact Or.inr (h.below a ha)
  rw [← createSize_filler hmessage] at hpool
  exact ⟨hlength, fun _ => hpool⟩

theorem next (h : Filled queue n w) (hn : n < waitLogsSize) (hmessage : message.length = 5000) :
    Filled queue (n + 1) (callStep w (filler message n)) := by
  rcases h.legal (Nat.le_of_lt hn) hmessage with ⟨hlegal, hpool⟩
  rcases h.held with ⟨bufs, hheld, hlength⟩
  have hon : Enabled w logLevelInfo := by
    rw [Enabled, h.level]
    decide
  have hroom : Room w := by
    rw [hheld.room_iff, hlength]
    exact hn
  have hfill : FillsFromZero w := fun _ => h.head
  have hpalloc : Pool.ngxPalloc w.pool.pool
      (Buf.createSize (levelCap morning logLevelInfo message)) (some (2 ^ 20 + 8192 * n)) = _ :=
    Pool.ngxPalloc_large w.pool.pool (by rw [createSize_filler hmessage]; decide) _
  cases hcreate : Buf.ngxCreateBuf w.mem (levelCap morning logLevelInfo message)
      (allocation w (levelCap morning logLevelInfo message) (some (2 ^ 20 + 8192 * n))) with
  | none =>
      have hnone := allocation_eq_none hcreate
      rw [allocation, hpalloc] at hnone
      cases hnone
  | some r =>
      rcases r with ⟨m, buf⟩
      have hnew := created hheld.pool (levelCap_lt morning logLevelInfo hlegal) (hpool hon) hcreate
      have hstep : callStep w (filler message n) = _ := writeLevelLog_of_room hon hcreate hroom
      rw [hstep]
      constructor
      · refine ⟨_, hheld.push hnew _ _ hroom hfill, ?_⟩
        rw [List.length_append, hlength]
        rfl
      · exact h.level
      · exact (Queue.ngxQueuePush_head w.waitLogs buf).trans h.head
      · intro a ha
        simp only [Pool.step, hpalloc, Pool.ngxAllocateLarge, Pool.held, List.map_append,
          List.map_singleton] at ha
        rw [← List.append_assoc, ← List.cons_append, List.mem_append, List.mem_singleton] at ha
        rcases ha with hold | rfl
        · have hbelow := h.below a hold
          omega
        · rw [createSize_filler hmessage]
          simp only [Region.stop, Pool.Large.node, Pool.sizeofLarge]
          omega

end Filled

theorem filled_leaks {queue slots : Nat} {w : World} (h : Filled queue slots w)
    (hslots : slots = waitLogsSize) {message : List UInt8} (hmessage : message.length = 5000) :
    ¬ NoLeak queue (callStep w (filler message slots)) := by
  have hlegal := h.legal (Nat.le_of_eq hslots) hmessage
  rcases h.held with ⟨bufs, hheld, hlength⟩
  apply (exact_call hheld _ hlegal).2
  intro hkeeps
  have hon : Enabled w logLevelInfo := by
    rw [Enabled, h.level]
    decide
  have hsome : allocation w (levelCap morning logLevelInfo message)
      (some (2 ^ 20 + 8192 * slots)) ≠ none := by
    rw [allocation, Pool.ngxPalloc_large _ (by rw [createSize_filler hmessage]; decide)]
    exact Option.some_ne_none _
  have hroom := (hkeeps hon hsome).1
  rw [hheld.room_iff, hlength, hslots] at hroom
  exact Nat.lt_irrefl _ hroom

theorem filler_run_leaks {queue slots : Nat} {w : World} (h : Filled queue 0 w)
    (hslots : slots = waitLogsSize) {message : List UInt8} (hmessage : message.length = 5000) :
    ∃ calls, Guarded callStep LegalCall w calls ∧ ¬ Always callStep (NoLeak queue) w calls := by
  have hstep : ∀ n w, n < slots → Filled queue n w →
      LegalCall w (filler message n) ∧ Filled queue (n + 1) (callStep w (filler message n)) := by
    intro n w hn hw
    rw [hslots] at hn
    exact ⟨hw.legal (Nat.le_of_lt hn) hmessage, hw.next hn hmessage⟩
  rcases guarded_range _ _ hstep h with ⟨hguarded, hfull⟩
  have hlast := hfull.legal (Nat.le_of_eq hslots) hmessage
  have hone : Guarded callStep LegalCall _ [filler message slots] := ⟨hlast, trivial⟩
  refine ⟨_, guarded_append.mpr ⟨hguarded, hone⟩, ?_⟩
  intro halways
  have hleak := halways.last
  rw [List.foldl_append] at hleak
  exact filled_leaks hfull hslots hmessage hleak

/-- `write_level_log` 4097 times: the last buffer stays in the pool and nothing refers
to it. -/
theorem noLeak_fails :
    ¬ ∀ (level : Nat) (mem : Memory) (addr block : Nat) (slots : Nat → Nat),
      ngxAlignment ∣ addr → addr + Pool.createSize 1 < wordSize →
      Pool.Legal (Pool.World.init 1 addr) (.palloc queueSize (some block)) →
      ∀ calls, Guarded callStep LegalCall (World.create level mem addr block slots) calls →
        Always callStep (NoLeak (block + Pool.sizeofLarge))
          (World.create level mem addr block slots) calls := by
  intro h
  have haligned : ngxAlignment ∣ 4096 := by decide
  have hqueue : Pool.Legal (Pool.World.init 1 4096) (.palloc queueSize (some 65536)) := by
    decide +kernel
  have hstart : Filled (65536 + Pool.sizeofLarge) 0
      (World.create logLevelInfo (fun _ => 0) 4096 65536 fun _ => 0) := by
    constructor
    · exact ⟨[], held_create logLevelInfo _ _ haligned (by decide) hqueue, rfl⟩
    · rfl
    · rfl
    · decide +kernel
  have hmessage : (List.replicate 5000 (65 : UInt8)).length = 5000 := List.length_replicate
  rcases filler_run_leaks hstart rfl hmessage with ⟨calls, hlegal, hleaks⟩
  exact hleaks (h logLevelInfo _ 4096 65536 _ haligned (by decide) hqueue calls hlegal)

end NetTest.Log
