import Mathlib.Data.List.Nodup
import NetTest.Lib.Counting
import NetTest.Lib.Runs
import NetTest.Threadpool.Clients

/-!
# Acknowledgements

Every context has one entry in `sync_list_`, and an entry is good for one value
and one `get`.  ADD acknowledges on it, and so does the RMV of the same context
and the CLR that finds it in the table; a blocking `add_task` waits on it, and so
does `rmv_task`.  What is left when these are kept apart is one acknowledgement
and one wait for an id.
-/

namespace NetTest.Threadpool.Clients

open Runs Counting

/-! ## The property -/

/-- `notify` and `get` once for an id, so that neither `set_value` nor a wait on
a consumed future raises. -/
structure OneShot (w : World) : Prop where
  notify_once : w.notified.Nodup
  get_once : w.gets.Nodup
  no_second_value : w.exec.status ≠ .unwinding
  no_second_wait : ∀ c ∈ w.callList, c.pc ≠ .raised

/-- `rmv_task` is given a context that `add_task` has handed out. -/
def HandedOut (w : World) : Event → Prop
  | .rmvTask (some context) _ => ∃ c ∈ w.callList, c.request.isAdd = true ∧ c.context = context
  | .rmvTask none _ | .addTask _ _ | .stop | .run _ _ | .loop => True

def Request.awaits : Request → Bool
  | .add async => !async
  | .rmv _ | .stop => true

/-- The call waits for the id, will wait for it, or has taken its value. -/
def Call.claims (id : Int) (c : Call) : Bool :=
  c.request.awaits && c.context.id == id &&
    match c.pc with
    | .returned value _ => value
    | .begun | .pushed | .halted | .waiting _ | .raised => true

def FindsNone (e : Executor) : TaskOp → Prop
  | .add _ => True
  | .rmv context _ => ∀ o ∈ e.tasks.take e.taskSize, o.map TaskContext.id ≠ some context.id
  | .clr _ => e.taskSize = 0

/-- No RMV finds its context and no CLR finds a task, and `rmv_task` is not
called for a context that another call has a claim on. -/
def Separate (w : World) : Event → Prop
  | .rmvTask (some context) _ => ∀ c ∈ w.callList, c.claims context.id = false
  | .loop =>
      match w.loop with
      | .ops (op :: _) => FindsNone w.exec op
      | .ops [] | .idle | .calling _ => True
  | .rmvTask none _ | .addTask _ _ | .stop | .run _ _ => True

instance : ∀ (w : World) (event : Event), Decidable (HandedOut w event)
  | w, .rmvTask (some context) _ => inferInstanceAs (Decidable (∃ c ∈ w.callList,
      c.request.isAdd = true ∧ c.context = context))
  | _, .rmvTask none _ => inferInstanceAs (Decidable True)
  | _, .addTask _ _ => inferInstanceAs (Decidable True)
  | _, .stop => inferInstanceAs (Decidable True)
  | _, .run _ _ => inferInstanceAs (Decidable True)
  | _, .loop => inferInstanceAs (Decidable True)

instance : ∀ (e : Executor) (op : TaskOp), Decidable (FindsNone e op)
  | _, .add _ => inferInstanceAs (Decidable True)
  | e, .rmv context _ => inferInstanceAs (Decidable (∀ o ∈ e.tasks.take e.taskSize,
      o.map TaskContext.id ≠ some context.id))
  | e, .clr _ => inferInstanceAs (Decidable (e.taskSize = 0))

instance : ∀ (w : World) (event : Event), Decidable (Separate w event)
  | w, .rmvTask (some context) _ => inferInstanceAs (Decidable (∀ c ∈ w.callList,
      c.claims context.id = false))
  | ⟨_, .ops (op :: _), _, _, _, _, _, _, _, _, _⟩, .loop =>
      inferInstanceAs (Decidable (FindsNone _ op))
  | ⟨_, .ops [], _, _, _, _, _, _, _, _, _⟩, .loop => inferInstanceAs (Decidable True)
  | ⟨_, .idle, _, _, _, _, _, _, _, _, _⟩, .loop => inferInstanceAs (Decidable True)
  | ⟨_, .calling _, _, _, _, _, _, _, _, _, _⟩, .loop => inferInstanceAs (Decidable True)
  | _, .rmvTask none _ => inferInstanceAs (Decidable True)
  | _, .addTask _ _ => inferInstanceAs (Decidable True)
  | _, .stop => inferInstanceAs (Decidable True)
  | _, .run _ _ => inferInstanceAs (Decidable True)

/-! ## Acknowledgements on their way -/

def TaskOp.acksId (id : Int) : TaskOp → Bool
  | .add context | .clr context => context.id == id
  | .rmv _ _ => false

def Call.willAck (id : Int) (c : Call) : Bool := c.pc == .begun && TaskOp.acksId id c.op

theorem willAck_id {id : Int} {c : Call} (h : Call.willAck id c = true) : c.context.id = id := by
  rcases c with ⟨request, context, pc⟩
  cases request with
  | add async => simp_all [Call.willAck, Call.op, TaskOp.acksId]
  | rmv stale => simp [Call.willAck, Call.op, TaskOp.acksId] at h
  | stop => simp_all [Call.willAck, Call.op, TaskOp.acksId]

/-- How often the id will be acknowledged by what has been asked for. -/
def World.acking (w : World) (id : Int) : Nat :=
  w.pending.countP (TaskOp.acksId id) + w.callList.countP (Call.willAck id)

/-- An id is acknowledged or will be, not both, and ids not handed out are
neither. -/
structure AckInv (w : World) : Prop where
  ops_running : ∀ rest, w.loop = .ops rest → w.exec.status = .running
  status : w.exec.status ≠ .unwinding
  freed : w.freed = []
  once : ∀ id, w.notified.count id + w.acking id ≤ 1
  fresh : ∀ id, w.nextId < id → w.notified.count id + w.acking id = 0
  values : ∀ id v, w.exec.syncer.syncList id = some ⟨some v⟩ → v = true ∧ id ∈ w.notified

theorem AckInv.frame {w w' : World} (h : AckInv w)
    (hrunning : ∀ rest, w'.loop = .ops rest → w'.exec.status = .running)
    (hstatus : w'.exec.status ≠ .unwinding) (hfreed : w'.freed = w.freed)
    (hnotified : w'.notified = w.notified) (hnext : w'.nextId = w.nextId)
    (hacking : ∀ id, w'.acking id = w.acking id)
    (hvalues : ∀ id v, w'.exec.syncer.syncList id = some ⟨some v⟩ →
      w.exec.syncer.syncList id = some ⟨some v⟩) : AckInv w' := by
  refine ⟨hrunning, hstatus, hfreed.trans h.freed, ?_, ?_, ?_⟩
  · intro id
    rw [hnotified, hacking]
    exact h.once id
  · intro id hid
    rw [hnotified, hacking]
    exact h.fresh id (hnext ▸ hid)
  · intro id v hv
    rw [hnotified]
    exact h.values id v (hvalues id v hv)

theorem pending_setPc (w : World) (k : Nat) (c : Call) (pc : Pc) :
    (w.setPc k c pc).pending = w.pending := rfl

theorem acking_setPc {w : World} {k : Nat} {c : Call} (hk : w.callList[k]? = some c) {pc : Pc}
    (hold : c.pc ≠ .begun) (hnew : pc ≠ .begun) (id : Int) :
    (w.setPc k c pc).acking id = w.acking id := by
  have hcount := countP_set_add hk { c with pc := pc } (Call.willAck id)
  have hc : Call.willAck id c = false := by simp [Call.willAck, hold]
  have hc' : Call.willAck id { c with pc := pc } = false := by simp [Call.willAck, hnew]
  rw [hc, hc'] at hcount
  simp only [World.acking, pending_setPc]
  simp only [World.setPc]
  omega

theorem touch_values {b : BatchSynchronizer} {id' id : Int} {v : Bool}
    (h : (b.touch id').syncList id = some ⟨some v⟩) : b.syncList id = some ⟨some v⟩ := by
  unfold BatchSynchronizer.touch at h
  split at h
  · exact h
  · by_cases hid : id = id'
    · rw [hid] at h
      simp at h
    · simpa [Function.update_of_ne hid] using h

theorem ack_values {b : BatchSynchronizer} {id' id : Int} {v : Bool}
    (h : (b.ack id').syncList id = some ⟨some v⟩) :
    b.syncList id = some ⟨some v⟩ ∨ (id = id' ∧ v = true) := by
  unfold BatchSynchronizer.ack BatchSynchronizer.notify at h
  by_cases hid : id = id'
  · subst hid
    split at h
    · exact Or.inl h
    · right
      simpa [eq_comm] using h
    · right
      simpa [eq_comm] using h
  · left
    split at h
    · exact h
    · simpa [Function.update_of_ne hid] using h
    · simpa [Function.update_of_ne hid] using h

theorem foldl_ack_values {ids : List Int} {b : BatchSynchronizer} {id : Int} {v : Bool}
    (h : (ids.foldl BatchSynchronizer.ack b).syncList id = some ⟨some v⟩) :
    b.syncList id = some ⟨some v⟩ ∨ (id ∈ ids ∧ v = true) := by
  induction ids generalizing b with
  | nil => exact Or.inl h
  | cons id' ids ih =>
      rcases ih h with hb | ⟨hmem, hv⟩
      · rcases ack_values hb with hold | ⟨heq, hv⟩
        · exact Or.inl hold
        · exact Or.inr ⟨heq ▸ List.mem_cons_self, hv⟩
      · exact Or.inr ⟨List.mem_cons_of_mem _ hmem, hv⟩

theorem notify_status (e : Executor) {id : Int}
    (h : ∀ v, e.syncer.syncList id ≠ some ⟨some v⟩) : (notify e id).status = e.status := by
  unfold notify BatchSynchronizer.notify
  split
  · rename_i v heq
    exact absurd heq (h v)
  · rfl
  · rfl

/-- An operation that finds nothing in the table acknowledges its own id at most,
and deletes nothing. -/
theorem findsNone_acks {e : Executor} {op : TaskOp} (h : FindsNone e op)
    (hrun : e.status = .running) :
    (∀ id, (acks e op).count id = if TaskOp.acksId id op then 1 else 0) ∧ deletes e op = [] := by
  cases op with
  | add context =>
      refine ⟨fun id => ?_, rfl⟩
      simp [acks, TaskOp.acksId, List.count_singleton]
  | rmv context stale =>
      have hfind : ∀ i, findId context.id (e.tasks.take e.taskSize) ≠ some (some i) := by
        intro i hi
        rcases findId_some hi with ⟨c, hc, hid⟩
        exact h (some c) (List.mem_of_getElem? hc) (congrArg some hid)
      simp only [acks, deletes, TaskOp.acksId]
      split
      · rename_i i hi
        exact absurd hi (hfind i)
      · exact ⟨fun id => rfl, rfl⟩
      · exact ⟨fun id => rfl, rfl⟩
  | clr context =>
      have hsize : e.taskSize = 0 := h
      refine ⟨fun id => ?_, by simp [deletes, hsize, clearAcks]⟩
      simp [acks, hsize, clearAcks, clearSlots, hrun, TaskOp.acksId, List.count_singleton]

theorem findsNone_status {e : Executor} {op : TaskOp} (h : FindsNone e op)
    (hrun : e.status = .running)
    (hopen : ∀ id v, TaskOp.acksId id op = true → e.syncer.syncList id ≠ some ⟨some v⟩) :
    (processOp e op).status ≠ .unwinding := by
  simp only [processOp, if_pos hrun]
  cases op with
  | add context =>
      have hnone := fun v => hopen context.id v (by simp [TaskOp.acksId])
      simp only [processAdd]
      rw [notify_status _ (by exact hnone)]
      simp [hrun]
  | rmv context stale =>
      simp only [processRmv]
      split
      · simp
      · simp [hrun]
      · rename_i i hi
        rcases findId_some hi with ⟨c, hc, hid⟩
        exact absurd (congrArg some hid) (h (some c) (List.mem_of_getElem? hc))
  | clr context =>
      have hsize : e.taskSize = 0 := h
      have hnone := fun v => hopen context.id v (by simp [TaskOp.acksId])
      simp only [processClr, hsize, clearSlots, if_pos hrun]
      rw [notify_status e hnone]
      simp [hrun]

/-! ## The steps -/

theorem readOp_of_freed_nil {w : World} (h : w.freed = []) (op : TaskOp) : w.readOp op = op := by
  cases op with
  | add context => rfl
  | rmv context stale => simp [World.readOp, idOf_of_freed_nil h]
  | clr context => rfl

/-- A new call of `add_task` or `stop` brings a new id. -/
theorem AckInv.fetch {w : World} (h : AckInv w) (request : Request) (task : Nat) :
    AckInv (w.fetch request task) := by
  have hacking : ∀ id, (w.fetch request task).acking id ≤
      w.acking id + if w.nextId + 1 = id then 1 else 0 := by
    intro id
    have hpending : (w.fetch request task).pending = w.pending := rfl
    simp only [World.acking, hpending]
    simp only [World.fetch, List.countP_append, List.countP_singleton]
    by_cases hwill : Call.willAck id ⟨request, ⟨w.nextId + 1, task⟩, .begun⟩ = true
    · rw [if_pos hwill, if_pos (willAck_id hwill)]
      omega
    · rw [if_neg hwill]
      omega
  refine ⟨h.ops_running, h.status, h.freed, ?_, ?_, h.values⟩
  · intro id
    have hle := hacking id
    have honce := h.once id
    have hfresh := h.fresh id
    change w.notified.count id + _ ≤ 1
    split at hle
    · have := hfresh (by omega)
      omega
    · omega
  · intro id hid
    have hle := hacking id
    have hlt : w.nextId + 1 < id := hid
    have hfresh := h.fresh id (by omega)
    change w.notified.count id + _ = 0
    rw [if_neg (by omega)] at hle
    omega

theorem AckInv.rmvTask {w : World} (h : AckInv w) (context : TaskContext) (stale : Int) :
    AckInv { w with callList := w.callList ++ [⟨.rmv stale, context, .begun⟩] } := by
  refine h.frame h.ops_running h.status rfl rfl rfl ?_ (fun _ _ hv => hv)
  intro id
  simp [World.acking, World.pending, Call.willAck, Call.op, TaskOp.acksId]

theorem AckInv.move {w : World} (h : AckInv w) {k : Nat} {c : Call} (hk : w.callList[k]? = some c)
    {pc : Pc} (hold : c.pc ≠ .begun) (hnew : pc ≠ .begun) {syncer : BatchSynchronizer}
    (hvalues : ∀ id v, syncer.syncList id = some ⟨some v⟩ →
      w.exec.syncer.syncList id = some ⟨some v⟩) (gets : List Int) (running : Bool) :
    AckInv { w with
      exec := { w.exec with syncer := syncer }, gets := gets, running := running
      callList := w.callList.set k { c with pc := pc } } :=
  h.frame h.ops_running h.status rfl rfl rfl (acking_setPc hk hold hnew) hvalues

theorem AckInv.runCall {w : World} (h : AckInv w) {k : Nat} {c : Call}
    (hk : w.callList[k]? = some c) (stale : Int) : AckInv (w.runCall k c stale) := by
  unfold World.runCall
  cases hpc : c.pc with
  | begun =>
      refine h.frame h.ops_running h.status rfl rfl rfl ?_ (fun _ _ hv => hv)
      -- the acknowledgement moves from the call to the queue
      intro id
      have hcount := countP_set_add hk { c with pc := .pushed } (Call.willAck id)
      have hold : Call.willAck id c = TaskOp.acksId id c.op := by simp [Call.willAck, hpc]
      have hnew : ¬ Call.willAck id { c with pc := .pushed } = true := by simp [Call.willAck]
      rw [hold, if_neg hnew] at hcount
      simp only [World.acking, pending_push, List.countP_append, List.countP_singleton]
      simp only [World.setPc]
      omega
  | pushed =>
      have hold : c.pc ≠ .begun := by simp [hpc]
      simp only
      split
      · exact h.move hk hold (by simp) (fun _ _ hv => hv) w.gets w.running
      · exact h.move hk hold (by simp) (fun _ _ hv => touch_values hv) w.gets w.running
      · exact h.move hk hold (by simp) (fun _ _ hv => touch_values hv) w.gets w.running
      · exact h.move hk hold (by simp) (fun _ _ hv => hv) w.gets false
  | halted =>
      exact h.move hk (by simp [hpc]) (by simp) (fun _ _ hv => touch_values hv) w.gets w.running
  | waiting id =>
      have hold : c.pc ≠ .begun := by simp [hpc]
      simp only [World.endWait]
      split
      · exact h.move hk hold (by simp) (fun _ _ hv => hv) w.gets w.running
      · split
        · exact h.move hk hold (by simp) (fun _ _ hv => hv) (id :: w.gets) w.running
        · exact h.move hk hold (by simp) (fun _ _ hv => hv) w.gets w.running
        · exact h.move hk hold (by simp) (fun _ _ hv => hv) w.gets w.running
  | returned value mark => exact h
  | raised => exact h

theorem AckInv.perform {w : World} (h : AckInv w) {op : TaskOp} {rest : List TaskOp}
    (hloop : w.loop = .ops (op :: rest)) (hnone : FindsNone w.exec op) :
    AckInv (w.perform op rest) := by
  have hrun := h.ops_running _ hloop
  have hread := readOp_of_freed_nil h.freed op
  rcases findsNone_acks hnone hrun with ⟨hacks, hdeletes⟩
  have hacking : ∀ id, (w.perform op rest).acking id + (if TaskOp.acksId id op then 1 else 0) ≤
      w.acking id := by
    intro id
    simp only [World.acking, World.pending, World.perform, hread, hloop]
    by_cases hstatus : (processOp w.exec op).status = .running
    · simp only [if_pos hstatus, List.cons_append, List.countP_cons]
      omega
    · simp only [if_neg hstatus, List.cons_append, List.countP_cons, List.countP_append]
      omega
  have hnotified : ∀ id, (w.perform op rest).notified.count id =
      w.notified.count id + if TaskOp.acksId id op then 1 else 0 := by
    intro id
    simp only [World.perform, hread, List.count_append, hacks]
  have hopen : ∀ id v, TaskOp.acksId id op = true →
      w.exec.syncer.syncList id ≠ some ⟨some v⟩ := by
    intro id v hid hv
    have hmem := List.count_pos_iff.mpr (h.values id v hv).2
    have hone := h.once id
    have hle := hacking id
    rw [if_pos hid] at hle
    omega
  constructor
  · exact fun _ => perform_running
  · simp only [World.perform, hread]
    exact findsNone_status hnone hrun hopen
  · simp [World.perform, hread, hdeletes, h.freed]
  · intro id
    have hone := h.once id
    have hle := hacking id
    rw [hnotified]
    omega
  · intro id hid
    have hzero := h.fresh id hid
    have hle := hacking id
    rw [hnotified]
    omega
  · intro id v hv
    simp only [World.perform, hread, processOp_syncer hrun] at hv
    simp only [World.perform, hread, List.mem_append]
    rcases foldl_ack_values hv with hold | ⟨hmem, hv⟩
    · exact ⟨(h.values id v hold).1, Or.inl (h.values id v hold).2⟩
    · exact ⟨hv, Or.inr hmem⟩

theorem AckInv.callTask {w : World} (h : AckInv w) {i : Nat} (hloop : w.loop = .calling i) :
    AckInv (w.callTask i) := by
  have hacking : ∀ w' : World, w'.taskOps = w.taskOps → w'.callList = w.callList →
      (∀ rest, w'.loop ≠ .ops rest) → ∀ id, w'.acking id = w.acking id := by
    intro w' hops hcalls hleft id
    have hpending : w'.pending = w'.taskOps := by
      unfold World.pending
      split
      · rename_i rest hrest
        exact absurd hrest (hleft rest)
      · rfl
      · rfl
    simp only [World.acking, hpending, hops, hcalls]
    simp only [World.pending, hloop]
  apply callTask_rule
  · refine h.frame ?_ (by simp) rfl rfl rfl (fun id => rfl) (fun _ _ hv => hv)
    intro rest hrest
    simp [hloop] at hrest
  · intro c _
    exact h.frame (fun rest hrest => by simp at hrest) h.status rfl rfl rfl
      (hacking _ rfl rfl (by simp)) (fun _ _ hv => hv)
  · exact h.frame (fun rest hrest => by simp at hrest) h.status rfl rfl rfl
      (hacking _ rfl rfl (by simp)) (fun _ _ hv => hv)

theorem AckInv.runLoop {w : World} (h : AckInv w)
    (hnone : ∀ op rest, w.loop = .ops (op :: rest) → FindsNone w.exec op) : AckInv w.runLoop := by
  apply runLoop_rule h
  · intro hcrash hloop
    refine h.frame ?_ ?_ rfl rfl rfl ?_ ?_
    · intro rest hrest
      simp [beginRound, hcrash]
    · simp [beginRound, hcrash]
    · intro id
      simp [World.acking, World.pending, hloop]
    · intro id v hv
      simpa [beginRound, hcrash] using hv
  · intro hloop
    refine h.frame (fun rest hrest => by simp at hrest) h.status rfl rfl rfl ?_ (fun _ _ hv => hv)
    intro id
    simp [World.acking, World.pending, hloop]
  · intro op rest hloop
    exact h.perform hloop (hnone op rest hloop)
  · intro i hloop
    exact h.callTask hloop

/-! ## Waits -/

/-- The call has returned with the value of its future. -/
def Call.satisfied (id : Int) (c : Call) : Bool :=
  c.claims id &&
    match c.pc with
    | .returned _ _ => true
    | .begun | .pushed | .halted | .waiting _ | .raised => false

/-- At most one call has a claim on an id, and a future is consumed by a call
that has returned. -/
structure WaitInv (calls : List Call) (gets : List Int) (nextId : Int) : Prop where
  known : ∀ c ∈ calls, c.context.id ≤ nextId
  waits : ∀ c ∈ calls, ∀ id, c.pc = .waiting id → c.context.id = id ∧ c.request.awaits = true
  halts : ∀ c ∈ calls, c.pc = .halted → c.request.awaits = true
  once : ∀ id, calls.countP (Call.claims id) ≤ 1
  taken : ∀ id, gets.count id = calls.countP (Call.satisfied id)
  quiet : ∀ c ∈ calls, c.pc ≠ .raised

theorem claims_id {id : Int} {c : Call} (h : c.claims id = true) : c.context.id = id := by
  simp only [Call.claims, Bool.and_eq_true, beq_iff_eq] at h
  exact h.1.2

theorem WaitInv.append {calls : List Call} {gets : List Int} {nextId nextId' : Int}
    (h : WaitInv calls gets nextId) (hle : nextId ≤ nextId') (request : Request)
    (context : TaskContext) (hid : context.id ≤ nextId')
    (hfree : ∀ c ∈ calls, c.claims context.id = false) :
    WaitInv (calls ++ [⟨request, context, .begun⟩]) gets nextId' := by
  have hcases : ∀ {P : Call → Prop}, (∀ c ∈ calls, P c) → P ⟨request, context, .begun⟩ →
      ∀ c ∈ calls ++ [⟨request, context, .begun⟩], P c := by
    intro P hold hnew
    exact List.forall_mem_append.mpr ⟨hold, List.forall_mem_singleton.mpr hnew⟩
  constructor
  · exact hcases (fun c hc => Int.le_trans (h.known c hc) hle) hid
  · exact hcases h.waits (fun id hpc => by simp at hpc)
  · exact hcases h.halts (fun hpc => by simp at hpc)
  · intro id
    have hone := h.once id
    rw [List.countP_append, List.countP_singleton]
    split
    · rename_i hclaims
      have hzero : calls.countP (Call.claims id) = 0 := by
        rw [List.countP_eq_zero, ← claims_id hclaims]
        intro c hc
        simp [hfree c hc]
      omega
    · omega
  · intro id
    rw [h.taken id, List.countP_append, List.countP_singleton]
    simp [Call.satisfied]
  · exact hcases h.quiet (by simp)

theorem WaitInv.set {calls : List Call} {gets gets' : List Int} {nextId : Int}
    (h : WaitInv calls gets nextId) {k : Nat} {c : Call} (hk : calls[k]? = some c) {pc : Pc}
    (hwaits : ∀ id, pc = .waiting id → c.context.id = id ∧ c.request.awaits = true)
    (hhalts : pc = .halted → c.request.awaits = true) (hquiet : pc ≠ .raised)
    (hclaims : ∀ id, Call.claims id { c with pc := pc } = true → c.claims id = true)
    (htaken : ∀ id, gets'.count id + (if c.satisfied id then 1 else 0) =
      gets.count id + (if Call.satisfied id { c with pc := pc } then 1 else 0)) :
    WaitInv (calls.set k { c with pc := pc }) gets' nextId := by
  have hmem : c ∈ calls := List.mem_of_getElem? hk
  constructor
  · exact forall_mem_set h.known (y := { c with pc := pc }) (h.known c hmem) k
  · exact forall_mem_set h.waits hwaits k
  · exact forall_mem_set h.halts hhalts k
  · intro id
    have hcount := countP_set_add hk { c with pc := pc } (Call.claims id)
    have hone := h.once id
    have hle : (if Call.claims id { c with pc := pc } = true then 1 else 0) ≤
        (if c.claims id = true then 1 else 0) := by
      split
      · rename_i hnew
        rw [if_pos (hclaims id hnew)]
      · omega
    omega
  · intro id
    have hcount := countP_set_add hk { c with pc := pc } (Call.satisfied id)
    have hold := h.taken id
    have hnew := htaken id
    omega
  · exact forall_mem_set h.quiet hquiet k

theorem WaitInv.not_taken {calls : List Call} {gets : List Int} {nextId : Int}
    (h : WaitInv calls gets nextId) {c : Call} (hc : c ∈ calls) {id : Int}
    (hpc : c.pc = .waiting id) : id ∉ gets := by
  rcases h.waits c hc id hpc with ⟨hid, hawaits⟩
  have hlt := countP_lt_of_mem (p := Call.claims id) (q := Call.satisfied id)
    (fun x hx => by simp only [Call.satisfied, Bool.and_eq_true] at hx; exact hx.1) hc
    (by simp [Call.claims, hawaits, hid, hpc]) (by simp [Call.satisfied, hpc])
  have hone := h.once id
  have htaken := h.taken id
  rw [← List.count_eq_zero]
  omega

theorem WaitInv.advance {calls : List Call} {gets : List Int} {nextId : Int}
    (h : WaitInv calls gets nextId) {k : Nat} {c : Call} (hk : calls[k]? = some c) {pc : Pc}
    (hwaits : ∀ id, pc = .waiting id → c.context.id = id ∧ c.request.awaits = true)
    (hhalts : pc = .halted → c.request.awaits = true) (hquiet : pc ≠ .raised)
    (hold : ∀ value mark, c.pc ≠ .returned value mark)
    (hnew : ∀ value mark, pc ≠ .returned value mark) :
    WaitInv (calls.set k { c with pc := pc }) gets nextId := by
  refine h.set hk hwaits hhalts hquiet ?_ ?_
  · intro id hclaims
    simp only [Call.claims, Bool.and_eq_true] at hclaims ⊢
    refine ⟨hclaims.1, ?_⟩
    split
    · rename_i value mark heq
      exact absurd heq (hold value mark)
    all_goals rfl
  · intro id
    have hc : c.satisfied id = false := by
      unfold Call.satisfied
      split
      · rename_i value mark heq
        exact absurd heq (hold value mark)
      all_goals simp
    have hc' : Call.satisfied id { c with pc := pc } = false := by
      unfold Call.satisfied
      split
      · rename_i value mark heq
        exact absurd heq (hnew value mark)
      all_goals simp
    rw [hc, hc']

theorem WaitInv.endWait {w : World} (h : WaitInv w.callList w.gets w.nextId)
    (hvalues : ∀ id v, w.exec.syncer.syncList id = some ⟨some v⟩ → v = true) {k : Nat} {c : Call}
    (hk : w.callList[k]? = some c) {id : Int} (hpc : c.pc = .waiting id) :
    WaitInv (w.endWait k c id).callList (w.endWait k c id).gets (w.endWait k c id).nextId := by
  have hmem : c ∈ w.callList := List.mem_of_getElem? hk
  have hopen : id ∉ w.gets := h.not_taken hmem hpc
  have hunsatisfied : ∀ id, c.satisfied id = false := by
    intro id
    simp [Call.satisfied, hpc]
  have htimeout : WaitInv (w.callList.set k { c with pc := .returned false w.invoked.length })
      w.gets w.nextId := by
    refine h.set hk (by simp) (by simp) (by simp) ?_ ?_
    · intro id hclaims
      simp [Call.claims] at hclaims
    · intro id
      rw [hunsatisfied]
      simp [Call.satisfied, Call.claims]
  rcases h.waits c hmem id hpc with ⟨hid, hawaits⟩
  simp only [World.endWait, if_neg hopen]
  split
  · rename_i v hv
    rw [hvalues id v hv]
    refine h.set hk (by simp) (by simp) (by simp) ?_ ?_
    · intro id' hclaims
      simp only [Call.claims, Bool.and_eq_true] at hclaims ⊢
      exact ⟨hclaims.1, by simp [hpc]⟩
    · intro id'
      change (id :: w.gets).count id' + _ = _
      rw [hunsatisfied, List.count_cons]
      simp [Call.satisfied, Call.claims, hawaits, hid]
  · exact htimeout
  · exact htimeout

theorem WaitInv.runCall {w : World} (h : WaitInv w.callList w.gets w.nextId)
    (hack : AckInv w) {k : Nat} {c : Call} (hk : w.callList[k]? = some c) (stale : Int) :
    WaitInv (w.runCall k c stale).callList (w.runCall k c stale).gets
      (w.runCall k c stale).nextId := by
  have hmem : c ∈ w.callList := List.mem_of_getElem? hk
  have hread := idOf_of_freed_nil hack.freed c.context stale
  unfold World.runCall
  cases hpc : c.pc with
  | begun =>
      exact h.advance hk (by simp) (by simp) (by simp) (by simp [hpc]) (by simp)
  | pushed =>
      simp only
      split
      · rename_i hrequest
        -- an asynchronous call has no claim at all
        refine h.set hk (by simp) (by simp) (by simp) ?_ ?_
        · intro id hclaims
          simp [Call.claims, hrequest, Request.awaits] at hclaims
        · intro id
          change w.gets.count id + _ = _
          simp [Call.satisfied, Call.claims, hrequest, Request.awaits]
      · rename_i hrequest
        refine h.advance hk ?_ (by simp) (by simp) (by simp [hpc]) (by simp)
        intro id hid
        cases hid
        exact ⟨hread.symm, by simp [hrequest, Request.awaits]⟩
      · rename_i stale' hrequest
        refine h.advance hk ?_ (by simp) (by simp) (by simp [hpc]) (by simp)
        intro id hid
        cases hid
        exact ⟨hread.symm, by simp [hrequest, Request.awaits]⟩
      · rename_i hrequest
        exact h.advance hk (by simp) (fun _ => by simp [hrequest, Request.awaits]) (by simp)
          (by simp [hpc]) (by simp)
  | halted =>
      refine h.advance hk ?_ (by simp) (by simp) (by simp [hpc]) (by simp)
      intro id hid
      cases hid
      exact ⟨hread.symm, h.halts c hmem hpc⟩
  | waiting id => exact h.endWait (fun id v hv => (hack.values id v hv).1) hk hpc
  | returned value mark => exact h
  | raised => exact h

/-! ## Runs -/

structure ShotInv (w : World) : Prop where
  acks : AckInv w
  waits : WaitInv w.callList w.gets w.nextId

theorem ShotInv.oneShot {w : World} (h : ShotInv w) : OneShot w := by
  refine ⟨?_, ?_, h.acks.status, h.waits.quiet⟩
  · rw [List.nodup_iff_count_le_one]
    intro id
    have := h.acks.once id
    omega
  · rw [List.nodup_iff_count_le_one]
    intro id
    rw [h.waits.taken id]
    refine Nat.le_trans (List.countP_mono_left ?_) (h.waits.once id)
    intro c _ hc
    simp only [Call.satisfied, Bool.and_eq_true] at hc
    exact hc.1

theorem shotInv_init : ShotInv World.init := by
  have hacking : ∀ id, World.init.acking id = 0 := fun id => rfl
  constructor
  · refine ⟨fun rest hrest => rfl, by decide, rfl, ?_, fun id _ => rfl, ?_⟩
    · intro id
      rw [hacking]
      exact Nat.zero_le _
    · intro id v hv
      cases hv
  · exact ⟨by simp [World.init], by simp [World.init], by simp [World.init], fun id => Nat.zero_le _,
      fun id => rfl, by simp [World.init]⟩

theorem ShotInv.step {w : World} (h : ShotInv w) {event : Event} (hlegal : HandedOut w event)
    (hok : Separate w event) : ShotInv (Clients.step w event) := by
  have hnew : ∀ c ∈ w.callList, c.claims (w.nextId + 1) = false := by
    intro c hc
    by_contra hclaims
    have hid := claims_id (by simpa using hclaims)
    have hle := h.waits.known c hc
    omega
  have hnext : w.nextId ≤ w.nextId + 1 := by omega
  cases event with
  | addTask task async =>
      exact ⟨h.acks.fetch _ _, h.waits.append hnext _ _ (Int.le_refl _) hnew⟩
  | rmvTask context stale =>
      cases context with
      | none => exact h
      | some context =>
          rcases hlegal with ⟨c, hc, _, hcontext⟩
          exact ⟨h.acks.rmvTask context stale,
            h.waits.append (Int.le_refl _) _ _ (hcontext ▸ h.waits.known c hc) hok⟩
  | stop => exact ⟨h.acks.fetch _ _, h.waits.append hnext _ _ (Int.le_refl _) hnew⟩
  | run k stale =>
      apply step_run_rule h k stale
      intro c hk
      exact ⟨h.acks.runCall hk stale, h.waits.runCall h.acks hk stale⟩
  | loop =>
      rcases runLoop_calls w with ⟨hcalls, hgets, hnext⟩
      refine ⟨h.acks.runLoop ?_, ?_⟩
      · intro op rest hloop
        simpa only [Separate, hloop] using hok
      · simp only [Clients.step, hcalls, hgets, hnext]
        exact h.waits

/-- One acknowledgement and one wait for an id, along every run in which the
operations on one context are kept apart. -/
theorem executor_oneShot (events : List Event)
    (hlegal : Guarded step HandedOut World.init events)
    (hseparate : Guarded step Separate World.init events) :
    Always step OneShot World.init events := by
  have hboth : Guarded step (fun w event => HandedOut w event ∧ Separate w event) World.init
      events := guarded_and.mpr ⟨hlegal, hseparate⟩
  have hinv : Always step ShotInv World.init events :=
    always_of_guarded (fun _ _ h hok => h.step hok.1 hok.2) shotInv_init hboth
  exact hinv.mono fun _ h => h.oneShot

/-- A blocking `add_task` and an asynchronous one, both acknowledged in one
round, then `rmv_task` for the context nobody waited for. -/
theorem executor_oneShot_run :
    Always step OneShot World.init
      [.addTask 7 false, .run 0 0, .run 0 0, .addTask 8 true, .run 1 0, .run 1 0,
        .loop, .loop, .loop, .loop, .run 0 0, .rmvTask (some ⟨2, 8⟩) 0, .run 2 0, .run 2 0,
        .run 2 0] :=
  executor_oneShot _ (by decide +kernel) (by decide +kernel)

/-- A blocking `add_task` takes its acknowledgement out of the future, and
`rmv_task` waits on the same future again. -/
theorem rmvTask_waits_again :
    ¬ ∀ events, Guarded step HandedOut World.init events →
      Always step OneShot World.init events := by
  intro hall
  have hrun := hall [.addTask 7 false, .run 0 0, .run 0 0, .loop, .loop, .run 0 0,
    .rmvTask (some ⟨1, 7⟩) 0, .run 1 0, .run 1 0, .run 1 0] (by decide +kernel)
  have hlast := (always_iff_prefixes.mp hrun _ (List.prefix_refl _)).no_second_wait
    ⟨.rmv 0, ⟨1, 7⟩, .raised⟩
  exact hlast (by decide +kernel) rfl

end NetTest.Threadpool.Clients
