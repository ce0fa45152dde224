import Mathlib.Data.List.InsertIdx
import Mathlib.Data.List.Nodup
import Mathlib.Data.List.Perm.Basic
import NetTest.Lib.AssocList
import NetTest.Lib.Runs
import NetTest.Threadpool.Model

/-!
# The task table

`live` is the table as the clients see it: the contexts whose ADD has been
handed over and whose RMV has not.  `process_add` writes in place below `cap_`
and appends from there on, while `process_rmv` never shrinks the vector.  Once
the vector is longer than the number of tasks, an ADD at or above `cap_` appends
behind a null slot, and that slot is counted.  An acknowledgement that raises
takes the rest of the batch and the run phase with it.
-/

namespace NetTest.Threadpool

open Runs

/-! ## Runs at the grain of single operations -/

/-- The events of a run: a round begins, an operation of its batch is taken up,
the run phase follows. -/
inductive Event where
  | begin
  | op (o : TaskOp)
  | run

structure World where
  exec : Executor
  live : List TaskContext

def World.init : World := ⟨create, []⟩

/-- The live contexts after an operation, whether or not the loop gets to it. -/
def liveAfter (live : List TaskContext) : TaskOp → List TaskContext
  | .add context => context :: live
  | .rmv context _ => live.filter (·.id ≠ context.id)
  | .clr _ => []

def step (w : World) : Event → World
  | .begin => { w with exec := beginRound w.exec }
  | .op o => ⟨processOp w.exec o, liveAfter w.live o⟩
  | .run => { w with exec := runPhase w.exec }

def roundEvents (batch : List TaskOp) : List Event :=
  .begin :: batch.map .op ++ [.run]

/-- The events of a round are `process_task`. -/
theorem processTask_eq_events (w : World) (batch : List TaskOp) :
    ((roundEvents batch).foldl step w).exec = processTask w.exec batch := by
  have hops : ∀ w : World, ((batch.map Event.op).foldl step w).exec =
      batch.foldl processOp w.exec := by
    induction batch with
    | nil => intro w; rfl
    | cons o batch ih => intro w; exact ih (step w (.op o))
  simp only [roundEvents, List.cons_append, List.foldl_cons, List.foldl_append, List.foldl_nil]
  exact congrArg runPhase (hops _)

/-- What the clients promise: ADD and RMV only, and an added context has an id
no live context has. -/
def Legal (w : World) : Event → Prop
  | .op (.add context) => ∀ c ∈ w.live, c.id ≠ context.id
  | .op (.clr _) => False
  | _ => True

/-- What the clients rely on: as many counted slots as live contexts, none of them
null, every live context in exactly one, so that the run phase calls every live
task once and meets no null slot. -/
structure TableGood (w : World) : Prop where
  no_crash : w.exec.status ≠ .crashed
  size : w.exec.taskSize = w.live.length
  slots : (w.exec.tasks.take w.exec.taskSize).Perm (w.live.map some)
  once : ∀ c ∈ w.live, (w.exec.tasks.take w.exec.taskSize).count (some c) = 1
  calls : ∃ called, calls w.exec = some called ∧ called.Perm w.live

/-- The run phase is reached, meets no null slot and calls every live task once. -/
def RunsAll (w : World) : Event → Prop
  | .run => (runPhase w.exec).status = .running ∧ (runPhase w.exec).called.Perm w.live
  | _ => True

/-- `notify` raises for this id. -/
def BatchSynchronizer.satisfied (b : BatchSynchronizer) (id : Int) : Bool :=
  match b.syncList id with
  | some ⟨some _⟩ => true
  | some ⟨none⟩ | none => false

/-- An ADD at or above `cap_` finds no slack in the vector, and no promise that is
acknowledged has its value already. -/
def Performed (w : World) : Event → Prop
  | .op (.add context) =>
      (w.exec.cap ≤ w.exec.taskSize → w.exec.tasks.length = w.exec.taskSize) ∧
        w.exec.syncer.satisfied context.id = false
  | .op (.rmv context stale) =>
      (∃ c ∈ w.live, c.id = context.id) → w.exec.syncer.satisfied stale = false
  | _ => True

instance : ∀ (w : World) (event : Event), Decidable (Legal w event)
  | w, .op (.add context) => inferInstanceAs (Decidable (∀ c ∈ w.live, c.id ≠ context.id))
  | _, .op (.clr _) => inferInstanceAs (Decidable False)
  | _, .op (.rmv _ _) => inferInstanceAs (Decidable True)
  | _, .begin => inferInstanceAs (Decidable True)
  | _, .run => inferInstanceAs (Decidable True)

instance : ∀ (w : World) (event : Event), Decidable (Performed w event)
  | w, .op (.add context) => inferInstanceAs (Decidable
      ((w.exec.cap ≤ w.exec.taskSize → w.exec.tasks.length = w.exec.taskSize) ∧
        w.exec.syncer.satisfied context.id = false))
  | _, .op (.clr _) => inferInstanceAs (Decidable True)
  | w, .op (.rmv context stale) => inferInstanceAs (Decidable
      ((∃ c ∈ w.live, c.id = context.id) → w.exec.syncer.satisfied stale = false))
  | _, .begin => inferInstanceAs (Decidable True)
  | _, .run => inferInstanceAs (Decidable True)

/-! ## The invariant -/

/-- The counted slots hold the live contexts, the others are null. -/
structure Table (e : Executor) (live : List TaskContext) : Prop where
  no_crash : e.status ≠ .crashed
  cap_le : e.cap ≤ e.tasks.length
  size : e.taskSize = live.length
  slots : (e.tasks.take e.taskSize).Perm (live.map some)
  rest : ∀ o ∈ e.tasks.drop e.taskSize, o = none
  ids : live.Pairwise fun c d => c.id ≠ d.id

theorem mapM_some (l : List TaskContext) : (l.map some).mapM id = some l := by
  induction l with
  | nil => rfl
  | cons c l ih => simp [ih]

theorem map_some_filterMap {slots : List (Option TaskContext)} (h : none ∉ slots) :
    (slots.filterMap id).map some = slots := by
  induction slots with
  | nil => rfl
  | cons o slots ih =>
      cases o with
      | none => simp at h
      | some c => simpa using ih (by simpa using h)

theorem exists_map_some {slots : List (Option TaskContext)} {live : List TaskContext}
    (h : slots.Perm (live.map some)) :
    ∃ l : List TaskContext, slots = l.map some ∧ l.Perm live := by
  have hnull : none ∉ slots := fun hmem => by simpa using h.mem_iff.mp hmem
  refine ⟨slots.filterMap id, (map_some_filterMap hnull).symm, ?_⟩
  simpa [List.filterMap_map] using h.filterMap id

theorem Table.nodup {e : Executor} {live : List TaskContext} (h : Table e live) : live.Nodup :=
  h.ids.imp fun hid heq => hid (congrArg TaskContext.id heq)

theorem Table.size_le {e : Executor} {live : List TaskContext} (h : Table e live) :
    e.taskSize ≤ e.tasks.length := by
  have := h.slots.length_eq
  simp only [List.length_take, List.length_map, ← h.size] at this
  omega

theorem Table.good {w : World} (h : Table w.exec w.live) : TableGood w := by
  obtain ⟨l, hl, hperm⟩ := exists_map_some h.slots
  refine ⟨h.no_crash, h.size, h.slots, ?_, l, ?_, hperm⟩
  · intro c hc
    rw [h.slots.count_eq]
    exact List.count_eq_one_of_mem (h.nodup.map fun _ _ => Option.some.inj)
      (List.mem_map_of_mem hc)
  · rw [Threadpool.calls, hl, mapM_some]

theorem table_create : Table create [] := by
  refine ⟨by decide, List.length_replicate.ge, rfl, List.Perm.refl [], ?_, List.Pairwise.nil⟩
  intro o ho
  exact List.eq_of_mem_replicate ho

theorem notify_status_eq (e : Executor) (id : Int) :
    (notify e id).status = if e.syncer.satisfied id then .unwinding else e.status := by
  rcases hentry : e.syncer.syncList id with _ | ⟨_ | v⟩ <;>
    simp [notify, BatchSynchronizer.notify, BatchSynchronizer.satisfied, hentry]

/-- Acknowledgements do not touch the table. -/
theorem Table.notify {e : Executor} {live : List TaskContext} (h : Table e live) (id : Int) :
    Table (notify e id) live := by
  refine ⟨?_, h.cap_le, h.size, h.slots, h.rest, h.ids⟩
  simp only [Threadpool.notify]
  split
  · decide
  · exact h.no_crash

/-! ## ADD -/

theorem processAdd_status (e : Executor) (context : TaskContext) :
    (processAdd e context).status =
      if e.syncer.satisfied context.id then .unwinding else e.status :=
  notify_status_eq _ context.id

theorem Table.add {e : Executor} {live : List TaskContext} (h : Table e live)
    {context : TaskContext} (hid : ∀ c ∈ live, c.id ≠ context.id)
    (hend : e.cap ≤ e.taskSize → e.tasks.length = e.taskSize) :
    Table (processAdd e context) (context :: live) := by
  apply Table.notify
  have hids : (context :: live).Pairwise fun c d => c.id ≠ d.id :=
    List.pairwise_cons.mpr ⟨fun c hc => (hid c hc).symm, h.ids⟩
  have hslots : ∀ tasks : List (Option TaskContext),
      tasks.take (e.taskSize + 1) = e.tasks.take e.taskSize ++ [some context] →
      (tasks.take (e.taskSize + 1)).Perm ((context :: live).map some) := by
    intro tasks htasks
    rw [htasks, List.map_cons]
    exact (List.perm_append_singleton _ _).trans (h.slots.cons _)
  by_cases hcap : e.taskSize < e.cap
  · have hlt : e.taskSize < e.tasks.length := lt_of_lt_of_le hcap h.cap_le
    simp only [if_pos hcap]
    refine ⟨h.no_crash, by simp [h.cap_le], by simp [h.size], hslots _ ?_, ?_, hids⟩
    · rw [List.take_add_one, List.take_set_of_le (Nat.le_refl _)]
      simp [hlt]
    · intro o ho
      rw [List.drop_set_of_lt (Nat.lt_succ_self _)] at ho
      exact h.rest o (List.drop_subset_drop_left _ (Nat.le_succ _) ho)
  · have heq : e.tasks.length = e.taskSize := hend (by omega)
    simp only [if_neg hcap]
    refine ⟨h.no_crash, ?_, by simp [h.size], hslots _ ?_, ?_, hids⟩
    · have := h.cap_le
      simp only [List.length_append, List.length_singleton]
      omega
    · rw [List.take_of_length_le (by simp [heq]), ← heq, List.take_length]
    · intro o ho
      rw [List.drop_eq_nil_of_le (by simp [heq])] at ho
      cases ho

/-- An ADD that appends behind a null slot counts that slot. -/
theorem Table.add_lost {e : Executor} {live : List TaskContext} (h : Table e live)
    {context : TaskContext} (hcap : e.cap ≤ e.taskSize) (hne : e.tasks.length ≠ e.taskSize)
    (live' : List TaskContext) :
    ¬ TableGood ⟨processAdd e context, live'⟩ := by
  intro hgood
  have hlen : e.taskSize < e.tasks.length := lt_of_le_of_ne h.size_le hne.symm
  have hnull : e.tasks[e.taskSize]? = some none := by
    rw [List.getElem?_eq_getElem hlen]
    exact congrArg some (h.rest _ (List.mem_drop_iff_getElem.mpr ⟨0, by simpa using hlen, by simp⟩))
  have hmem : (none : Option TaskContext) ∈
      ((e.tasks ++ [some context]).take (e.taskSize + 1)) := by
    apply List.mem_of_getElem? (i := e.taskSize)
    rw [List.getElem?_take_of_lt (Nat.lt_succ_self _), List.getElem?_append_left hlen, hnull]
  have hslots := hgood.slots
  simp only [processAdd, Threadpool.notify, if_neg (Nat.not_lt.mpr hcap)] at hslots
  obtain ⟨c, _, hc⟩ := List.mem_map.mp (hslots.mem_iff.mp hmem)
  cases hc

/-! ## RMV -/

theorem findId_map_some (id : Int) (l : List TaskContext) :
    findId id (l.map some) = some (l.findIdx? (·.id = id)) := by
  induction l with
  | nil => rfl
  | cons c l ih =>
      simp only [List.map_cons, findId, List.findIdx?_cons]
      by_cases hc : c.id = id
      · simp [hc]
      · simp [hc, ih]

/-- Moving the last entry of a list into the place of entry `i` and dropping the
last place removes entry `i`. -/
theorem dropLast_set_perm_eraseIdx {α : Type*} {l : List α} {i : Nat} (hi : i < l.length) :
    ((l.set i (l.getLast (List.ne_nil_of_length_pos (by omega)))).dropLast).Perm
      (l.eraseIdx i) := by
  have hne : l ≠ [] := List.ne_nil_of_length_pos (by omega)
  obtain ⟨init, last, rfl⟩ : ∃ init last, l = init ++ [last] :=
    ⟨l.dropLast, l.getLast hne, (List.dropLast_append_getLast hne).symm⟩
  rw [List.getLast_append_singleton]
  rcases Nat.lt_or_ge i init.length with hlt | hge
  · rw [List.set_append_left _ _ hlt, List.dropLast_concat, List.eraseIdx_append_of_lt_length hlt]
    exact (List.set_perm_cons_eraseIdx hlt last).trans (List.perm_append_singleton _ _).symm
  · have heq : i = init.length := by
      simp only [List.length_append, List.length_singleton] at hi
      omega
    rw [List.set_append_right _ _ hge, List.eraseIdx_append_of_length_le hge]
    simp [heq]

/-- What the removal does to the counted slots, and that it leaves the others
null. -/
theorem removed_slots {tasks : List (Option TaskContext)} {size i : Nat}
    (hsize : size ≤ tasks.length) (hi : i < size) :
    let last := size - 1
    let swapped := (tasks.set i (tasks.getD last none)).set last (tasks.getD i none)
    ((swapped.set last none).take last).Perm ((tasks.take size).eraseIdx i) ∧
      (∀ o ∈ (swapped.set last none).drop last, o = none ∨ o ∈ tasks.drop size) := by
  intro last swapped
  have hlast : last < tasks.length := by omega
  have hswapped : swapped.set last none = (tasks.set i (tasks.getD last none)).set last none :=
    List.set_set _
  have hcount : (tasks.take size).length = size := by simp [hsize]
  rw [hswapped]
  constructor
  · have hget : tasks.getD last none =
        (tasks.take size).getLast (List.ne_nil_of_length_pos (by omega)) := by
      simp only [List.getLast_eq_getElem, hcount, List.getElem_take]
      simp [List.getD, List.getElem?_eq_getElem hlast, last]
    have htake : ((tasks.set i (tasks.getD last none)).set last none).take last =
        ((tasks.take size).set i (tasks.getD last none)).dropLast := by
      rw [List.take_set_of_le (Nat.le_refl _), List.dropLast_eq_take, List.length_set, hcount,
        List.take_set, List.take_set, List.take_take, Nat.min_eq_left (by omega)]
    rw [htake, hget]
    exact dropLast_set_perm_eraseIdx (by omega)
  · intro o ho
    obtain ⟨k, hk, rfl⟩ := List.mem_drop_iff_getElem.mp ho
    simp only [List.length_set] at hk
    rcases Nat.eq_zero_or_pos k with rfl | hpos
    · left
      simp
    · right
      rw [List.getElem_set_ne (by omega), List.getElem_set_ne (by omega)]
      exact List.mem_drop_iff_getElem.mpr ⟨k - 1, by omega, by congr 1; omega⟩

/-- RMV acknowledges only when it has found a live context. -/
theorem Table.rmv_status {e : Executor} {live : List TaskContext} (h : Table e live)
    (context : TaskContext) (stale : Int) :
    (processRmv e context stale).status =
      if (∃ c ∈ live, c.id = context.id) ∧ e.syncer.satisfied stale = true then .unwinding
      else e.status := by
  obtain ⟨l, hl, hperm⟩ := exists_map_some h.slots
  unfold processRmv
  rw [hl, findId_map_some]
  cases hfind : l.findIdx? (·.id = context.id) with
  | none =>
      have hnot : ¬ ∃ c ∈ live, c.id = context.id := by
        rintro ⟨c, hc, hid⟩
        have := List.findIdx?_eq_none_iff.mp hfind c (hperm.mem_iff.mpr hc)
        simp [hid] at this
      rw [if_neg fun hfound => hnot hfound.1]
  | some i =>
      obtain ⟨hi, hid, _⟩ := List.findIdx?_eq_some_iff_getElem.mp hfind
      have hfound : ∃ c ∈ live, c.id = context.id :=
        ⟨l[i], hperm.mem_iff.mp (List.getElem_mem hi), by simpa using hid⟩
      simp only [notify_status_eq, hfound, true_and]

theorem Table.rmv {e : Executor} {live : List TaskContext} (h : Table e live)
    (context : TaskContext) (stale : Int) :
    Table (processRmv e context stale) (live.filter (·.id ≠ context.id)) := by
  obtain ⟨l, hl, hperm⟩ := exists_map_some h.slots
  have hllen : l.length = e.taskSize := by
    rw [hperm.length_eq, h.size]
  unfold processRmv
  rw [hl, findId_map_some]
  cases hfind : l.findIdx? (·.id = context.id) with
  | none =>
      have hnot : ∀ c ∈ live, c.id ≠ context.id := by
        intro c hc
        simpa using List.findIdx?_eq_none_iff.mp hfind c (hperm.mem_iff.mpr hc)
      rw [List.filter_eq_self.mpr (by simpa using hnot)]
      exact h
  | some i =>
      obtain ⟨hi, hid, _⟩ := List.findIdx?_eq_some_iff_getElem.mp hfind
      have hid : l[i].id = context.id := by simpa using hid
      have hmem : l[i] ∈ live := hperm.mem_iff.mp (List.getElem_mem hi)
      obtain ⟨hslots, hrest⟩ := removed_slots h.size_le (show i < e.taskSize by omega)
      have hlive : live.Perm (l[i] :: live.filter (·.id ≠ context.id)) :=
        hid ▸ AssocList.perm_cons_filter_key h.ids hmem
      apply Table.notify
      refine ⟨h.no_crash, by simpa using h.cap_le, ?_, ?_, ?_, h.ids.sublist List.filter_sublist⟩
      · have := hlive.length_eq
        simp only [List.length_cons, ← h.size] at this
        simp only
        omega
      · apply hslots.trans
        rw [hl, List.eraseIdx_map]
        apply List.Perm.map _
        exact (List.perm_cons l[i]).mp
          ((List.getElem_cons_eraseIdx_perm hi).trans (hperm.trans hlive))
      · intro o ho
        rcases hrest o ho with rfl | ho
        · rfl
        · exact h.rest o ho

/-! ## Runs -/

/-- What carries a run along its operations. -/
structure Sound (w : World) : Prop where
  table : Table w.exec w.live
  running : w.exec.status = .running

theorem Sound.begin {w : World} (h : Sound w) : Sound (step w .begin) := by
  have hnot : w.exec.status ≠ .crashed := by simp [h.running]
  simp only [step, beginRound, if_neg hnot]
  exact ⟨⟨by simp, h.table.cap_le, h.table.size, h.table.slots, h.table.rest, h.table.ids⟩, rfl⟩

theorem Sound.run {w : World} (h : Sound w) : Sound (step w .run) ∧ RunsAll w .run := by
  obtain ⟨called, hcalls, hperm⟩ := h.table.good.calls
  have hphase : runPhase w.exec = { w.exec with called := called } := by
    simp only [runPhase, if_pos h.running, hcalls]
  simp only [step, RunsAll, hphase]
  exact ⟨⟨⟨h.table.no_crash, h.table.cap_le, h.table.size, h.table.slots, h.table.rest,
    h.table.ids⟩, h.running⟩, h.running, hperm⟩

theorem Sound.op {w : World} (h : Sound w) {o : TaskOp} (hlegal : Legal w (.op o))
    (hok : Performed w (.op o)) : Sound (step w (.op o)) := by
  simp only [step, processOp, if_pos h.running]
  cases o with
  | add context =>
      refine ⟨h.table.add hlegal hok.1, ?_⟩
      rw [processAdd_status, hok.2]
      exact h.running
  | rmv context stale =>
      refine ⟨h.table.rmv context stale, ?_⟩
      have hnot : ¬ ((∃ c ∈ w.live, c.id = context.id) ∧ w.exec.syncer.satisfied stale = true) := by
        rintro ⟨hfound, hraise⟩
        rw [hok hfound] at hraise
        cases hraise
      rw [h.table.rmv_status, if_neg hnot]
      exact h.running
  | clr context => exact hlegal.elim

/-- An operation outside the condition loses a task at once or raises. -/
theorem Sound.op_fails {w : World} (h : Sound w) {o : TaskOp} (hlegal : Legal w (.op o))
    (hbad : ¬ Performed w (.op o)) :
    ¬ TableGood (step w (.op o)) ∨ (step w (.op o)).exec.status ≠ .running := by
  simp only [step, processOp, if_pos h.running]
  cases o with
  | add context =>
      by_cases hend : w.exec.cap ≤ w.exec.taskSize → w.exec.tasks.length = w.exec.taskSize
      · right
        have hraise : w.exec.syncer.satisfied context.id = true := by
          simpa using fun hopen => hbad ⟨hend, hopen⟩
        simp [processAdd_status, hraise]
      · left
        obtain ⟨hcap, hne⟩ := Classical.not_imp.mp hend
        exact h.table.add_lost hcap hne _
  | rmv context stale =>
      right
      have hraise := Classical.not_imp.mp hbad
      rw [h.table.rmv_status, if_pos ⟨hraise.1, by simpa using hraise.2⟩]
      decide
  | clr context => exact hlegal.elim

/-- After an exception the rest of the batch is dropped and the run phase is not
reached. -/
theorem not_runsAll_of_stopped {w : World} (h : w.exec.status ≠ .running) (batch : List TaskOp)
    (tail : List Event) : ¬ Guarded step RunsAll w (batch.map .op ++ .run :: tail) := by
  induction batch generalizing w with
  | nil =>
      intro hguard
      have hreached := hguard.1.1
      rw [runPhase, if_neg h] at hreached
      exact h hreached
  | cons o batch ih =>
      intro hguard
      have hsame : (step w (.op o)).exec = w.exec := if_neg h
      exact ih (by rw [hsame]; exact h) hguard.2

/-- Every operation is followed by the rest of its batch and the run phase. -/
def Batched : List Event → Prop
  | [] => True
  | .op _ :: rest =>
      (∃ (batch : List TaskOp) (tail : List Event), rest = batch.map .op ++ .run :: tail) ∧
        Batched rest
  | _ :: rest => Batched rest

theorem Batched.tail {event : Event} {rest : List Event} (h : Batched (event :: rest)) :
    Batched rest := by
  cases event with
  | op o => exact h.2
  | begin => exact h
  | run => exact h

theorem batched_ops (batch : List TaskOp) {tail : List Event} (h : Batched tail) :
    Batched (batch.map .op ++ .run :: tail) := by
  induction batch with
  | nil => exact h
  | cons o batch ih => exact ⟨⟨batch, tail, rfl⟩, ih⟩

theorem batched_rounds (batches : List (List TaskOp)) :
    Batched (batches.flatMap roundEvents) := by
  induction batches with
  | nil => trivial
  | cons batch batches ih =>
      have hround : (batch :: batches).flatMap roundEvents =
          .begin :: (batch.map .op ++ .run :: batches.flatMap roundEvents) := by
        simp [roundEvents]
      rw [hround]
      exact batched_ops batch ih

/-- Along a run of ADD and RMV operations in any batches, the table stays good and
every run phase calls all live tasks, exactly when every ADD at or above `cap_`
finds no slack in the vector and no acknowledgement raises. -/
theorem executor_table_iff (batches : List (List TaskOp))
    (hlegal : Guarded step Legal World.init (batches.flatMap roundEvents)) :
    (Always step TableGood World.init (batches.flatMap roundEvents) ∧
        Guarded step RunsAll World.init (batches.flatMap roundEvents)) ↔
      Guarded step Performed World.init (batches.flatMap roundEvents) := by
  refine always_guarded_iff_of_rest Sound Legal RunsAll Batched (fun _ _ h => h.tail) ?_ ?_ ?_
    ⟨table_create, rfl⟩ (batched_rounds batches) hlegal
  · intro w hw
    exact hw.table.good
  · intro w event hw hlegal hok
    cases event with
    | begin => exact ⟨hw.begin, trivial⟩
    | op o => exact ⟨hw.op hlegal hok, trivial⟩
    | run => exact hw.run
  · intro w event rest hw hlegal hbad hbatched halways hruns
    cases event with
    | begin => exact hbad trivial
    | run => exact hbad trivial
    | op o =>
        obtain ⟨⟨batch, tail, rfl⟩, _⟩ := hbatched
        rcases hw.op_fails hlegal hbad with hlost | hstopped
        · exact hlost halways.2.head
        · exact not_runsAll_of_stopped hstopped batch tail hruns.2

/-- Two tasks added in one round, one removed and one added in the next. -/
theorem executor_table_run :
    Always step TableGood World.init
        ([[.add ⟨1, 10⟩, .add ⟨2, 20⟩], [.rmv ⟨1, 10⟩ 0, .add ⟨3, 30⟩]].flatMap roundEvents) ∧
      Guarded step RunsAll World.init
        ([[.add ⟨1, 10⟩, .add ⟨2, 20⟩], [.rmv ⟨1, 10⟩ 0, .add ⟨3, 30⟩]].flatMap roundEvents) :=
  (executor_table_iff _ (by decide +kernel)).mpr (by decide +kernel)

-- The RMV reads the old id from the freed context: its acknowledgement raises
-- and the ADD behind it is dropped.
example : ¬ Guarded step Performed World.init
    ([[.add ⟨1, 10⟩], [.rmv ⟨1, 10⟩ 1, .add ⟨2, 20⟩]].flatMap roundEvents) := by
  decide +kernel

/-! ## Crossing the capacity -/

def numberedAdds (n : Nat) : List TaskOp :=
  (List.range n).map fun i => .add ⟨i + 1, 0⟩

/-- The executor after the ids `1..n` have been added to an empty table. -/
structure Filling (w : World) (n : Nat) : Prop where
  table : Table w.exec w.live
  running : w.exec.status = .running
  cap : w.exec.cap = 256
  size : w.exec.taskSize = n
  length : w.exec.tasks.length = max 256 n
  ids : ∀ c ∈ w.live, c.id ≤ n
  first : 0 < n → ∃ c ∈ w.live, c.id = 1
  unsatisfied : ∀ id : Int, n < id → w.exec.syncer.syncList id = none

theorem Filling.add {w : World} {n : Nat} (h : Filling w n) :
    Legal w (.op (.add ⟨n + 1, 0⟩)) ∧
      Filling (step w (.op (.add ⟨n + 1, 0⟩))) (n + 1) := by
  have hid : ∀ c ∈ w.live, c.id ≠ (n : Int) + 1 := by
    intro c hc
    have := h.ids c hc
    omega
  have hopen : w.exec.syncer.syncList ((n : Int) + 1) = none :=
    h.unsatisfied _ (by omega)
  have hend : w.exec.cap ≤ w.exec.taskSize → w.exec.tasks.length = w.exec.taskSize := by
    rw [h.cap, h.size, h.length]
    omega
  refine ⟨hid, ?_⟩
  simp only [step, processOp, if_pos h.running, liveAfter]
  refine ⟨h.table.add hid hend, ?_, h.cap, ?_, ?_, ?_, ?_, ?_⟩
  · simp [processAdd, notify, BatchSynchronizer.notify, hopen, h.running]
  · simp [processAdd, notify, h.size]
  · simp only [processAdd, notify, h.cap, h.size]
    split
    · rw [List.length_set, h.length]
      omega
    · rw [List.length_append, h.length, List.length_singleton]
      omega
  · intro c hc
    rcases List.mem_cons.mp hc with rfl | hc
    · simp
    · have := h.ids c hc
      push_cast
      omega
  · intro _
    rcases Nat.eq_zero_or_pos n with rfl | hpos
    · exact ⟨_, List.mem_cons_self, rfl⟩
    · obtain ⟨c, hc, hone⟩ := h.first hpos
      exact ⟨c, List.mem_cons_of_mem _ hc, hone⟩
  · intro id hlt
    have hne : id ≠ (n : Int) + 1 := by
      push_cast at hlt
      omega
    simp only [processAdd, notify, BatchSynchronizer.notify, hopen]
    rw [Function.update_of_ne hne]
    exact h.unsatisfied id (by push_cast at hlt; omega)

theorem filling_run {w : World} (h : Filling w 0) (n : Nat) :
    Guarded step Legal w ((numberedAdds n).map .op) ∧
      Filling (((numberedAdds n).map .op).foldl step w) n := by
  induction n with
  | zero => exact ⟨trivial, h⟩
  | succ n ih =>
      obtain ⟨hlegal, hfill⟩ := ih
      have hsucc : (numberedAdds (n + 1)).map Event.op =
          (numberedAdds n).map .op ++ [.op (.add ⟨n + 1, 0⟩)] := by
        simp [numberedAdds, List.range_succ]
      rw [hsucc, guarded_append, List.foldl_append]
      exact ⟨⟨hlegal, hfill.add.1, trivial⟩, hfill.add.2⟩

theorem filling_begin : Filling (step World.init .begin) 0 := by
  refine ⟨table_create, rfl, rfl, rfl, List.length_replicate, ?_, fun h => absurd h (by decide),
    fun _ _ => rfl⟩
  intro c hc
  cases hc

theorem Filling.nextRound {w : World} {n : Nat} (h : Filling w n) :
    Filling (step (step w .run) .begin) n := by
  obtain ⟨called, hcalls, _⟩ := h.table.good.calls
  simp only [step, runPhase, if_pos h.running, hcalls, beginRound]
  rw [if_neg (by simp [h.running])]
  exact ⟨⟨by simp, h.table.cap_le, h.table.size, h.table.slots, h.table.rest, h.table.ids⟩,
    rfl, h.cap, h.size, h.length, h.ids, h.first, h.unsatisfied⟩

/-- What RMV leaves alone when its acknowledgement does not raise. -/
theorem processRmv_frame {e : Executor} {stale : Int} (hopen : e.syncer.syncList stale = none)
    (context : TaskContext) :
    (processRmv e context stale).cap = e.cap ∧
      (processRmv e context stale).tasks.length = e.tasks.length ∧
      ((processRmv e context stale).status = e.status ∨
        (processRmv e context stale).status = .crashed) := by
  unfold processRmv
  split
  · exact ⟨rfl, rfl, .inr rfl⟩
  · exact ⟨rfl, rfl, .inl rfl⟩
  · simp [notify, BatchSynchronizer.notify, hopen]

theorem Filling.shrink {w : World} {n : Nat} (h : Filling w (n + 1)) (hn : 256 ≤ n) (stale : Int)
    (hstale : (n : Int) + 1 < stale) :
    let e := processRmv w.exec ⟨1, 0⟩ stale
    Table e (w.live.filter (·.id ≠ 1)) ∧ e.status = .running ∧ e.cap = 256 ∧ e.taskSize = n ∧
      e.tasks.length = n + 1 := by
  intro e
  have htable : Table e (w.live.filter (·.id ≠ 1)) := h.table.rmv ⟨1, 0⟩ stale
  obtain ⟨hcap, hlen, hstatus⟩ :=
    processRmv_frame (h.unsatisfied stale (by push_cast; exact hstale)) ⟨1, 0⟩
  obtain ⟨c, hc, hone⟩ := h.first (Nat.succ_pos n)
  have hperm : w.live.Perm (c :: w.live.filter (·.id ≠ 1)) :=
    hone ▸ AssocList.perm_cons_filter_key h.table.ids hc
  refine ⟨htable, ?_, hcap.trans h.cap, ?_, ?_⟩
  · rcases hstatus with hstatus | hstatus
    · exact hstatus.trans h.running
    · exact absurd hstatus htable.no_crash
  · have hlive := hperm.length_eq
    have hsize := h.table.size.symm.trans h.size
    rw [List.length_cons] at hlive
    rw [htable.size]
    omega
  · rw [hlen, h.length]
    omega

/-- 257 tasks are added, the first is removed and one more is added: the vector
has 257 slots for 256 tasks when the last ADD appends, so the counted slots are
the 256 tasks and the null slot, and the new task is behind them. -/
theorem executor_add_after_shrink_loses_task :
    ¬ ∀ batches : List (List TaskOp),
      Guarded step Legal World.init (batches.flatMap roundEvents) →
        Always step TableGood World.init (batches.flatMap roundEvents) ∧
          Guarded step RunsAll World.init (batches.flatMap roundEvents) := by
  intro hall
  obtain ⟨hlegal, hfill⟩ := filling_run filling_begin 257
  have hnext := hfill.nextRound
  have hevents : ([numberedAdds 257, [.rmv ⟨1, 0⟩ 300, .add ⟨258, 0⟩]].flatMap roundEvents) =
      .begin :: ((numberedAdds 257).map .op ++
        [.run, .begin, .op (.rmv ⟨1, 0⟩ 300), .op (.add ⟨258, 0⟩), .run]) := by
    simp [roundEvents]
  have hgood := hall [numberedAdds 257, [.rmv ⟨1, 0⟩ 300, .add ⟨258, 0⟩]]
  rw [hevents] at hgood
  generalize hw : step (step (((numberedAdds 257).map Event.op).foldl step
    (step World.init .begin)) .run) .begin = w at hnext
  obtain ⟨htable, hrun, hcap, hsize, hlen⟩ := hnext.shrink (Nat.le_refl 256) 300 (by omega)
  have hrmv : step w (.op (.rmv ⟨1, 0⟩ 300)) =
      ⟨processRmv w.exec ⟨1, 0⟩ 300, w.live.filter (·.id ≠ 1)⟩ := by
    simp only [step, processOp, if_pos hnext.running, liveAfter]
  have hfresh : ∀ c ∈ w.live.filter (·.id ≠ 1), c.id ≠ 258 := by
    intro c hc
    have := hnext.ids c (List.mem_of_mem_filter hc)
    omega
  have hguard : Guarded step Legal World.init (.begin :: ((numberedAdds 257).map .op ++
      [.run, .begin, .op (.rmv ⟨1, 0⟩ 300), .op (.add ⟨258, 0⟩), .run])) := by
    refine ⟨trivial, guarded_append.mpr ⟨hlegal, trivial, trivial, trivial, ?_, trivial, trivial⟩⟩
    rw [hw, hrmv]
    exact hfresh
  have hlast := always_iff_prefixes.mp (hgood hguard).1
    (.begin :: ((numberedAdds 257).map .op ++
      [.run, .begin, .op (.rmv ⟨1, 0⟩ 300), .op (.add ⟨258, 0⟩)])) (by simp)
  simp only [List.foldl_cons, List.foldl_append, List.foldl_nil, hw, hrmv] at hlast
  simp only [step, processOp, if_pos hrun] at hlast
  exact htable.add_lost (by omega) (by omega) _ hlast

end NetTest.Threadpool
