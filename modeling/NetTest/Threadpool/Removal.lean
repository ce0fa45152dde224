import NetTest.Lib.Counting
import NetTest.Lib.Runs
import NetTest.Threadpool.Slots

/-!
# Removal

`rmv_task` waits on the future of its context, which the ADD of the context has
satisfied already, and gives up after five milliseconds.  So its return says
nothing about `process_rmv`.  Once `process_rmv` has run, the context is out of
the table for good: its ADD came first, and no other operation brings it back.
-/

namespace NetTest.Threadpool.Clients

open Runs Counting

/-! ## The property -/

def Call.isReturned (c : Call) : Bool :=
  match c.pc with
  | .returned _ _ => true
  | .begun | .pushed | .halted | .waiting _ | .raised => false

def Call.isWaiting (c : Call) : Bool :=
  match c.pc with
  | .waiting _ => true
  | .begun | .pushed | .halted | .returned _ _ | .raised => false

/-- The context of a returned `rmv_task` is in no counted slot and its task has
not been called since. -/
def RemovedOnReturn (w : World) : Prop :=
  ∀ c ∈ w.callList, c.request.isRmv = true → ∀ value mark, c.pc = .returned value mark →
    (∀ x, some x ∈ w.exec.tasks.take w.exec.taskSize → x.id ≠ c.context.id) ∧
      ∀ x ∈ w.invoked.drop mark, x.id ≠ c.context.id

/-- Clients that call `add_task` and then, at most once, `rmv_task` for the
context they got. -/
def AddThenRmv (w : World) : Event → Prop
  | .rmvTask (some context) _ =>
      (∃ c ∈ w.callList, c.request.isAdd = true ∧ c.context = context ∧ c.isReturned = true) ∧
        ∀ c ∈ w.callList, c.request.isRmv = true → c.context.id ≠ context.id
  | .stop => False
  | .rmvTask none _ | .addTask _ _ | .run _ _ | .loop => True

/-- The wait of an `rmv_task` ends when `process_rmv` has run for its context. -/
def WaitsForRemoval (w : World) : Event → Prop
  | .run k _ => ∀ c ∈ w.callList[k]?, c.request.isRmv = true → c.isWaiting = true →
      c.context.id ∈ w.performed
  | .rmvTask _ _ | .addTask _ _ | .stop | .loop => True

instance : ∀ (w : World) (event : Event), Decidable (AddThenRmv w event)
  | w, .rmvTask (some context) _ => inferInstanceAs (Decidable ((∃ c ∈ w.callList,
      c.request.isAdd = true ∧ c.context = context ∧ c.isReturned = true) ∧
        ∀ c ∈ w.callList, c.request.isRmv = true → c.context.id ≠ context.id))
  | _, .stop => inferInstanceAs (Decidable False)
  | _, .rmvTask none _ => inferInstanceAs (Decidable True)
  | _, .addTask _ _ => inferInstanceAs (Decidable True)
  | _, .run _ _ => inferInstanceAs (Decidable True)
  | _, .loop => inferInstanceAs (Decidable True)

instance : ∀ (w : World) (event : Event), Decidable (WaitsForRemoval w event)
  | w, .run k _ => inferInstanceAs (Decidable (∀ c ∈ w.callList[k]?, c.request.isRmv = true →
      c.isWaiting = true → c.context.id ∈ w.performed))
  | _, .rmvTask _ _ => inferInstanceAs (Decidable True)
  | _, .addTask _ _ => inferInstanceAs (Decidable True)
  | _, .stop => inferInstanceAs (Decidable True)
  | _, .loop => inferInstanceAs (Decidable True)

/-! ## Contexts on their way -/

def TaskOp.adds (id : Int) : TaskOp → Bool
  | .add context => context.id == id
  | .rmv _ _ | .clr _ => false

def TaskOp.rmvs (id : Int) : TaskOp → Bool
  | .rmv context _ => context.id == id
  | .add _ | .clr _ => false

def Call.willAdd (id : Int) (c : Call) : Bool := c.pc == .begun && TaskOp.adds id c.op

def Call.willRmv (id : Int) (c : Call) : Bool := c.pc == .begun && TaskOp.rmvs id c.op

/-- How many places hold the context with the id: slots of the table, queued ADD
operations and calls that have yet to queue one. -/
def World.present (w : World) (id : Int) : Nat :=
  w.exec.tasks.countP (slotHas id) + w.pending.countP (TaskOp.adds id) +
    w.callList.countP (Call.willAdd id)

def World.removing (w : World) (id : Int) : Nat :=
  w.performed.count id + w.pending.countP (TaskOp.rmvs id) + w.callList.countP (Call.willRmv id)

/-- What the calls alone say: ids are handed out once, and removed once. -/
structure CallInv (calls : List Call) (nextId : Int) : Prop where
  known : ∀ c ∈ calls, c.context.id ≤ nextId
  added : ∀ id, calls.countP (fun c => TaskOp.adds id c.op) ≤ 1
  removed : ∀ id, calls.countP (fun c => TaskOp.rmvs id c.op) ≤ 1

/-- The accounts of the contexts: how many places hold one, how often it is being
removed, how often that was asked for, and how many calls have yet to queue its
ADD.  A context is in one place, and in none once its removal has been
performed; its removal is asked for when its ADD has been queued. -/
structure Flow (present removing asked adding : Int → Nat) (performed : List Int) (nextId : Int) :
    Prop where
  once : ∀ id, present id ≤ 1
  fresh : ∀ id, nextId < id → present id = 0
  asked : ∀ id, removing id ≤ asked id
  queued : ∀ id, 0 < removing id → adding id = 0
  gone : ∀ id ∈ performed, present id = 0

theorem Flow.mono {present removing asked adding present' removing' asked' adding' : Int → Nat}
    {performed performed' : List Int} {nextId : Int}
    (h : Flow present removing asked adding performed nextId)
    (hpresent : ∀ id, present' id ≤ present id) (hremoving : ∀ id, removing' id ≤ removing id)
    (hasked : ∀ id, asked id ≤ asked' id) (hadding : ∀ id, adding' id ≤ adding id)
    (hgone : ∀ id ∈ performed', present' id = 0) :
    Flow present' removing' asked' adding' performed' nextId := by
  constructor
  · intro id
    exact Nat.le_trans (hpresent id) (h.once id)
  · intro id hid
    have hle := hpresent id
    have hzero := h.fresh id hid
    omega
  · intro id
    exact Nat.le_trans (hremoving id) (Nat.le_trans (h.asked id) (hasked id))
  · intro id hid
    have hle := hadding id
    have hzero := h.queued id (Nat.lt_of_lt_of_le hid (hremoving id))
    omega
  · exact hgone

/-- The removal of a context is queued behind its ADD, and what has been removed
stays out. -/
structure RemovalInv (w : World) : Prop where
  shape : Shape w.exec
  ops_running : ∀ rest, w.loop = .ops rest → w.exec.status = .running
  calls : CallInv w.callList w.nextId
  flow : Flow w.present w.removing (fun id => w.callList.countP fun c => TaskOp.rmvs id c.op)
    (fun id => w.callList.countP (Call.willAdd id)) w.performed w.nextId
  behind : w.pending.Pairwise fun op later => ∀ id, TaskOp.rmvs id op = true →
    TaskOp.adds id later = false
  freed : ∀ id ∈ w.freed, id ∈ w.performed
  returned : ∀ c ∈ w.callList, c.request.isRmv = true → ∀ value mark,
    c.pc = .returned value mark → c.context.id ∈ w.performed ∧ mark ≤ w.invoked.length ∧
      ∀ x ∈ w.invoked.drop mark, x.id ≠ c.context.id

theorem RemovalInv.removedOnReturn {w : World} (h : RemovalInv w) : RemovedOnReturn w := by
  intro c hc hrmv value mark hpc
  rcases h.returned c hc hrmv value mark hpc with ⟨hperformed, _, hinvoked⟩
  refine ⟨?_, hinvoked⟩
  intro x hx hid
  have hgone := h.flow.gone c.context.id hperformed
  have hpos : 0 < w.exec.tasks.countP (slotHas c.context.id) := by
    rw [List.countP_pos_iff]
    exact ⟨some x, List.mem_of_mem_take hx, by simp [slotHas, hid]⟩
  simp only [World.present] at hgone
  omega

theorem removalInv_init : RemovalInv World.init := by
  have htasks : ∀ id, World.init.present id = 0 := by
    intro id
    have hslots : World.init.exec.tasks.countP (slotHas id) = 0 := by
      rw [List.countP_eq_zero]
      intro o ho
      rw [List.eq_of_mem_replicate ho]
      simp [slotHas]
    simp only [World.present, hslots]
    rfl
  refine ⟨shape_create, fun _ _ => rfl, ⟨?_, fun _ => Nat.zero_le _, fun _ => Nat.zero_le _⟩,
    ⟨?_, fun id _ => htasks id, fun _ => Nat.zero_le _, fun _ _ => rfl, ?_⟩, List.Pairwise.nil,
    ?_, ?_⟩
  · intro c hc
    cases hc
  · intro id
    rw [htasks]
    exact Nat.zero_le _
  · intro id hid
    cases hid
  · intro id hid
    cases hid
  · intro c hc
    cases hc

/-! ## The clients -/

theorem countP_set_same {calls : List Call} {k : Nat} {c : Call} (hk : calls[k]? = some c)
    (pc : Pc) {p : Call → Bool} (hp : p { c with pc := pc } = p c) :
    (calls.set k { c with pc := pc }).countP p = calls.countP p := by
  have hcount := countP_set_add hk { c with pc := pc } p
  rw [hp] at hcount
  omega

theorem CallInv.set {calls : List Call} {nextId : Int} (h : CallInv calls nextId) {k : Nat}
    {c : Call} (hk : calls[k]? = some c) (pc : Pc) :
    CallInv (calls.set k { c with pc := pc }) nextId := by
  have hmem := List.mem_of_getElem? hk
  refine ⟨forall_mem_set h.known (y := { c with pc := pc }) (h.known c hmem) k, ?_, ?_⟩
  · intro id
    rw [countP_set_same hk pc (p := fun c => TaskOp.adds id c.op) rfl]
    exact h.added id
  · intro id
    rw [countP_set_same hk pc (p := fun c => TaskOp.rmvs id c.op) rfl]
    exact h.removed id

/-- A call that has queued its operation moves on.  If it is an `rmv_task` that
returns, its removal has been performed. -/
theorem RemovalInv.move {w : World} (h : RemovalInv w) {k : Nat} {c : Call}
    (hk : w.callList[k]? = some c) {pc : Pc} (hold : c.pc ≠ .begun) (hnew : pc ≠ .begun)
    (hreturn : c.request.isRmv = true → ∀ value mark, pc = .returned value mark →
      c.context.id ∈ w.performed ∧ mark = w.invoked.length)
    (syncer : BatchSynchronizer) (gets : List Int) (running : Bool) :
    RemovalInv { w with
      exec := { w.exec with syncer := syncer }, gets := gets, running := running
      callList := w.callList.set k { c with pc := pc } } := by
  have hadd : ∀ id, (w.callList.set k { c with pc := pc }).countP (Call.willAdd id) =
      w.callList.countP (Call.willAdd id) :=
    fun id => countP_set_same hk pc (by simp [Call.willAdd, beq_false_of_ne hold, beq_false_of_ne hnew])
  have hrmv : ∀ id, (w.callList.set k { c with pc := pc }).countP (Call.willRmv id) =
      w.callList.countP (Call.willRmv id) :=
    fun id => countP_set_same hk pc (by simp [Call.willRmv, beq_false_of_ne hold, beq_false_of_ne hnew])
  have hpresent : ∀ id, World.present { w with
      exec := { w.exec with syncer := syncer }, gets := gets, running := running
      callList := w.callList.set k { c with pc := pc } } id = w.present id := by
    intro id
    simp only [World.present, hadd]
    rfl
  have hremoving : ∀ id, World.removing { w with
      exec := { w.exec with syncer := syncer }, gets := gets, running := running
      callList := w.callList.set k { c with pc := pc } } id = w.removing id := by
    intro id
    simp only [World.removing, hrmv]
    rfl
  refine ⟨⟨h.shape.cap_le, h.shape.size_le, h.shape.lost⟩, h.ops_running, h.calls.set hk pc,
    ?_, h.behind, h.freed, ?_⟩
  · apply h.flow.mono (fun id => (hpresent id).le) (fun id => (hremoving id).le)
    · exact fun id => (countP_set_same hk pc (p := fun c => TaskOp.rmvs id c.op) rfl).ge
    · exact fun id => (hadd id).le
    · exact fun id hid => (hpresent id).trans (h.flow.gone id hid)
  · intro c' hc' hrmv' value mark hpc'
    rcases List.mem_or_eq_of_mem_set hc' with hmem | heq
    · exact h.returned c' hmem hrmv' value mark hpc'
    · rw [heq] at hrmv' hpc' ⊢
      rcases hreturn hrmv' value mark hpc' with ⟨hperformed, hmark⟩
      refine ⟨hperformed, by rw [hmark], ?_⟩
      intro x hx
      rw [hmark, List.drop_length] at hx
      cases hx

theorem RemovalInv.push {w : World} (h : RemovalInv w) {k : Nat} {c : Call}
    (hk : w.callList[k]? = some c) (hpc : c.pc = .begun) :
    RemovalInv { w with
      taskOps := w.taskOps ++ [c.op], callList := w.callList.set k { c with pc := .pushed } } := by
  have hpending : World.pending { w with
      taskOps := w.taskOps ++ [c.op], callList := w.callList.set k { c with pc := .pushed } } =
      w.pending ++ [c.op] := pending_push w k c .pushed
  have hadd : ∀ id, (w.callList.set k { c with pc := .pushed }).countP (Call.willAdd id) +
      (if TaskOp.adds id c.op then 1 else 0) = w.callList.countP (Call.willAdd id) := by
    intro id
    have hcount := countP_set_add hk { c with pc := .pushed } (Call.willAdd id)
    have hnew : ¬ Call.willAdd id { c with pc := .pushed } = true := by simp [Call.willAdd]
    have hold : Call.willAdd id c = TaskOp.adds id c.op := by simp [Call.willAdd, hpc]
    rw [hold, if_neg hnew] at hcount
    exact hcount
  have hrmv : ∀ id, (w.callList.set k { c with pc := .pushed }).countP (Call.willRmv id) +
      (if TaskOp.rmvs id c.op then 1 else 0) = w.callList.countP (Call.willRmv id) := by
    intro id
    have hcount := countP_set_add hk { c with pc := .pushed } (Call.willRmv id)
    have hnew : ¬ Call.willRmv id { c with pc := .pushed } = true := by simp [Call.willRmv]
    have hold : Call.willRmv id c = TaskOp.rmvs id c.op := by simp [Call.willRmv, hpc]
    rw [hold, if_neg hnew] at hcount
    exact hcount
  have hpresent : ∀ id, World.present { w with
      taskOps := w.taskOps ++ [c.op], callList := w.callList.set k { c with pc := .pushed } } id =
      w.present id := by
    intro id
    have := hadd id
    simp only [World.present, hpending, List.countP_append, List.countP_singleton]
    omega
  have hremoving : ∀ id, World.removing { w with
      taskOps := w.taskOps ++ [c.op], callList := w.callList.set k { c with pc := .pushed } } id =
      w.removing id := by
    intro id
    have := hrmv id
    simp only [World.removing, hpending, List.countP_append, List.countP_singleton]
    omega
  exact {
    shape := h.shape
    ops_running := h.ops_running
    calls := h.calls.set hk .pushed
    flow := by
      apply h.flow.mono (fun id => (hpresent id).le) (fun id => (hremoving id).le)
      · exact fun id => (countP_set_same hk .pushed (p := fun c => TaskOp.rmvs id c.op) rfl).ge
      · exact fun id => Nat.le_of_add_right_le (hadd id).le
      · exact fun id hid => (hpresent id).trans (h.flow.gone id hid)
    behind := by
      rw [hpending, List.pairwise_append]
      refine ⟨h.behind, List.pairwise_singleton _ _, ?_⟩
      intro op hop later hlater id hid
      rw [List.mem_singleton.mp hlater]
      -- an RMV in the queue would say that the ADD has been queued
      by_contra hadds
      have hpos : 0 < w.pending.countP (TaskOp.rmvs id) :=
        List.countP_pos_iff.mpr ⟨op, hop, hid⟩
      have hqueued := h.flow.queued id (by simp only [World.removing]; omega)
      have hcount := hadd id
      rw [if_pos (by simpa using hadds)] at hcount
      omega
    freed := h.freed
    returned := by
      intro c' hc' hrmv' value mark hpc'
      rcases List.mem_or_eq_of_mem_set hc' with hmem | heq
      · exact h.returned c' hmem hrmv' value mark hpc'
      · rw [heq] at hpc'
        cases hpc' }

theorem RemovalInv.runCall {w : World} (h : RemovalInv w) {k : Nat} {c : Call}
    (hk : w.callList[k]? = some c)
    (hwait : c.request.isRmv = true → c.isWaiting = true → c.context.id ∈ w.performed)
    (stale : Int) : RemovalInv (w.runCall k c stale) := by
  unfold World.runCall
  cases hpc : c.pc with
  | begun => exact h.push hk hpc
  | pushed =>
      have hold : c.pc ≠ .begun := by simp [hpc]
      simp only
      split
      · rename_i hrequest
        refine h.move hk hold (by simp) ?_ w.exec.syncer w.gets w.running
        intro hrmv
        simp [hrequest, Request.isRmv] at hrmv
      · exact h.move hk hold (by simp) (by simp) _ w.gets w.running
      · exact h.move hk hold (by simp) (by simp) _ w.gets w.running
      · exact h.move hk hold (by simp) (by simp) w.exec.syncer w.gets false
  | halted => exact h.move hk (by simp [hpc]) (by simp) (by simp) _ w.gets w.running
  | waiting id =>
      have hold : c.pc ≠ .begun := by simp [hpc]
      have hreturn : ∀ v, c.request.isRmv = true → ∀ value mark,
          Pc.returned v w.invoked.length = .returned value mark →
            c.context.id ∈ w.performed ∧ mark = w.invoked.length := by
        intro v hrmv value mark heq
        cases heq
        exact ⟨hwait hrmv (by simp [Call.isWaiting, hpc]), rfl⟩
      simp only [World.endWait]
      split
      · exact h.move hk hold (by simp) (by simp) w.exec.syncer w.gets w.running
      · split
        · exact h.move hk hold (by simp) (hreturn _) w.exec.syncer _ w.running
        · exact h.move hk hold (by simp) (hreturn _) w.exec.syncer w.gets w.running
        · exact h.move hk hold (by simp) (hreturn _) w.exec.syncer w.gets w.running
  | returned value mark => exact h
  | raised => exact h

theorem adds_id {id : Int} {c : Call} (h : TaskOp.adds id c.op = true) : c.context.id = id := by
  rcases c with ⟨request, context, pc⟩
  cases request with
  | add async => simpa [Call.op, TaskOp.adds] using h
  | rmv stale => cases h
  | stop => cases h

theorem adds_of_isAdd {c : Call} (h : c.request.isAdd = true) :
    TaskOp.adds c.context.id c.op = true := by
  rcases c with ⟨request, context, pc⟩
  cases request with
  | add async => simp [Call.op, TaskOp.adds]
  | rmv stale => cases h
  | stop => cases h

theorem rmvs_id {id : Int} {c : Call} (h : TaskOp.rmvs id c.op = true) : c.context.id = id := by
  rcases c with ⟨request, context, pc⟩
  cases request with
  | add async => cases h
  | rmv stale => simpa [Call.op, TaskOp.rmvs] using h
  | stop => cases h

theorem CallInv.fresh {calls : List Call} {nextId id : Int} (h : CallInv calls nextId)
    (hid : nextId < id) :
    calls.countP (fun c => TaskOp.adds id c.op) = 0 ∧
      calls.countP (fun c => TaskOp.rmvs id c.op) = 0 := by
  rw [List.countP_eq_zero, List.countP_eq_zero]
  constructor
  · intro c hc hadds
    have := h.known c hc
    rw [adds_id hadds] at this
    omega
  · intro c hc hrmvs
    have := h.known c hc
    rw [rmvs_id hrmvs] at this
    omega

theorem RemovalInv.returned_append {w : World} (h : RemovalInv w) (request : Request)
    (context : TaskContext) :
    ∀ c ∈ w.callList ++ [⟨request, context, .begun⟩], c.request.isRmv = true → ∀ value mark,
      c.pc = .returned value mark → c.context.id ∈ w.performed ∧ mark ≤ w.invoked.length ∧
        ∀ x ∈ w.invoked.drop mark, x.id ≠ c.context.id := by
  intro c hc hrmv value mark hpc
  rcases List.mem_append.mp hc with hmem | hmem
  · exact h.returned c hmem hrmv value mark hpc
  · rw [List.mem_singleton.mp hmem] at hpc
    cases hpc

theorem RemovalInv.addTask {w : World} (h : RemovalInv w) (task : Nat) (async : Bool) :
    RemovalInv (w.fetch (.add async) task) := by
  have hfresh := h.calls.fresh (show w.nextId < w.nextId + 1 by omega)
  have hadds : ∀ id, TaskOp.adds id (Call.op ⟨.add async, ⟨w.nextId + 1, task⟩, .begun⟩) =
      (w.nextId + 1 == id) := fun id => rfl
  have hrmvs : ∀ id, TaskOp.rmvs id (Call.op ⟨.add async, ⟨w.nextId + 1, task⟩, .begun⟩) = false :=
    fun id => rfl
  have hpresent : ∀ id, (w.fetch (.add async) task).present id =
      w.present id + if w.nextId + 1 = id then 1 else 0 := by
    intro id
    have hpending : (w.fetch (.add async) task).pending = w.pending := rfl
    simp only [World.present, hpending]
    simp [World.fetch, Call.willAdd, hadds, Nat.add_assoc]
  have hremoving : ∀ id, (w.fetch (.add async) task).removing id = w.removing id := by
    intro id
    have hpending : (w.fetch (.add async) task).pending = w.pending := rfl
    simp only [World.removing, hpending]
    simp [World.fetch, Call.willRmv, hrmvs]
  have hnot : ∀ id, 0 < w.removing id → w.nextId + 1 ≠ id := by
    intro id hid heq
    have := h.flow.asked id
    rw [← heq] at this hid
    omega
  exact {
    shape := h.shape
    ops_running := h.ops_running
    calls := {
      known := by
        intro c hc
        rcases List.mem_append.mp hc with hmem | hmem
        · exact Int.le_trans (h.calls.known c hmem) (show w.nextId ≤ w.nextId + 1 by omega)
        · rw [List.mem_singleton.mp hmem]
          exact Int.le_refl _
      added := by
        intro id
        have hone := h.calls.added id
        simp only [World.fetch, List.countP_append, List.countP_singleton, hadds, beq_iff_eq]
        split
        · rename_i heq
          rw [← heq, hfresh.1]
        · omega
      removed := by
        intro id
        have hone := h.calls.removed id
        simpa [World.fetch, hrmvs] using hone }
    flow := {
      once := by
        intro id
        have hone := h.flow.once id
        rw [hpresent]
        split
        · rename_i heq
          rw [h.flow.fresh id (by omega)]
        · omega
      fresh := by
        intro id hid
        have hlt : w.nextId + 1 < id := hid
        rw [hpresent, h.flow.fresh id (by omega), if_neg (by omega)]
      asked := by
        intro id
        have hasked := h.flow.asked id
        rw [hremoving]
        simpa [World.fetch, hrmvs] using hasked
      queued := by
        intro id hid
        rw [hremoving] at hid
        have hqueued := h.flow.queued id hid
        have hne := hnot id hid
        simp only [World.fetch, List.countP_append, List.countP_singleton, hqueued, Call.willAdd, hadds]
        simp [hne]
      gone := by
        intro id hid
        have hpos : 0 < w.performed.count id := List.count_pos_iff.mpr hid
        have hne := hnot id (by simp only [World.removing]; omega)
        rw [hpresent, h.flow.gone id hid, if_neg hne] }
    behind := h.behind
    freed := h.freed
    returned := h.returned_append _ _ }

theorem isRmv_of_rmvs {id : Int} {c : Call} (h : TaskOp.rmvs id c.op = true) :
    c.request.isRmv = true := by
  rcases c with ⟨request, context, pc⟩
  cases request with
  | add async => cases h
  | rmv stale => rfl
  | stop => cases h

/-- A call that has returned has queued its ADD, and no other call has one for the
context. -/
theorem CallInv.queued {calls : List Call} {nextId : Int} (h : CallInv calls nextId) {c : Call}
    (hc : c ∈ calls) (hadd : c.request.isAdd = true) (hreturned : c.isReturned = true) :
    calls.countP (Call.willAdd c.context.id) = 0 := by
  have hpc : c.pc ≠ .begun := by
    intro hpc
    simp [Call.isReturned, hpc] at hreturned
  have hless : ∀ d, Call.willAdd c.context.id d = true → TaskOp.adds c.context.id d.op = true := by
    intro d hd
    simp only [Call.willAdd, Bool.and_eq_true] at hd
    exact hd.2
  have hlt := countP_lt_of_mem (p := fun d => TaskOp.adds c.context.id d.op) hless hc
    (adds_of_isAdd hadd) (by simp [Call.willAdd, beq_false_of_ne hpc])
  have hone := h.added c.context.id
  omega

theorem CallInv.ask {calls : List Call} {nextId : Int} (h : CallInv calls nextId)
    {context : TaskContext} (hknown : context.id ≤ nextId)
    (hfirst : calls.countP (fun c => TaskOp.rmvs context.id c.op) = 0) (stale : Int) :
    CallInv (calls ++ [⟨.rmv stale, context, .begun⟩]) nextId := by
  have hadds : ∀ id, TaskOp.adds id (Call.op ⟨.rmv stale, context, .begun⟩) = false :=
    fun id => rfl
  have hrmvs : ∀ id, TaskOp.rmvs id (Call.op ⟨.rmv stale, context, .begun⟩) =
      (context.id == id) := fun id => rfl
  constructor
  · intro d hd
    rcases List.mem_append.mp hd with hmem | hmem
    · exact h.known d hmem
    · rw [List.mem_singleton.mp hmem]
      exact hknown
  · intro id
    have hone := h.added id
    simpa [hadds] using hone
  · intro id
    have hone := h.removed id
    simp only [List.countP_append, List.countP_singleton, hrmvs, beq_iff_eq]
    split
    · rename_i heq
      rw [← heq, hfirst]
    · omega

theorem Flow.ask {present removing asked adding present' removing' asked' adding' : Int → Nat}
    {performed : List Int} {nextId : Int}
    (h : Flow present removing asked adding performed nextId) {x : Int} (hqueued : adding x = 0)
    (hpresent : ∀ id, present' id = present id) (hadding : ∀ id, adding' id = adding id)
    (hremoving : ∀ id, removing' id = removing id + if x = id then 1 else 0)
    (hasked : ∀ id, asked' id = asked id + if x = id then 1 else 0) :
    Flow present' removing' asked' adding' performed nextId := by
  constructor
  · intro id
    rw [hpresent]
    exact h.once id
  · intro id hid
    rw [hpresent]
    exact h.fresh id hid
  · intro id
    have hle := h.asked id
    rw [hremoving, hasked]
    omega
  · intro id hid
    rw [hremoving] at hid
    rw [hadding]
    split at hid
    · rename_i heq
      rw [← heq]
      exact hqueued
    · exact h.queued id hid
  · intro id hid
    rw [hpresent]
    exact h.gone id hid

theorem RemovalInv.rmvTask {w : World} (h : RemovalInv w) {context : TaskContext} {stale : Int}
    (hlegal : AddThenRmv w (.rmvTask (some context) stale)) :
    RemovalInv { w with callList := w.callList ++ [⟨.rmv stale, context, .begun⟩] } := by
  rcases hlegal with ⟨⟨c, hc, hadd, hcontext, hreturned⟩, hnone⟩
  have hrmvs : ∀ id, TaskOp.rmvs id (Call.op ⟨.rmv stale, context, .begun⟩) =
      (context.id == id) := fun id => rfl
  have hfirst : w.callList.countP (fun c => TaskOp.rmvs context.id c.op) = 0 := by
    rw [List.countP_eq_zero]
    intro d hd hrmv
    exact hnone d hd (isRmv_of_rmvs hrmv) (rmvs_id hrmv)
  have hknown : context.id ≤ w.nextId := hcontext ▸ h.calls.known c hc
  have hqueued : w.callList.countP (Call.willAdd context.id) = 0 :=
    hcontext ▸ h.calls.queued hc hadd hreturned
  have hadding : ∀ id, (w.callList ++ [(⟨.rmv stale, context, .begun⟩ : Call)]).countP
      (Call.willAdd id) = w.callList.countP (Call.willAdd id) := by
    intro id
    rw [List.countP_append, List.countP_singleton]
    exact Nat.add_zero _
  have hpresent : ∀ id, World.present
      { w with callList := w.callList ++ [⟨.rmv stale, context, .begun⟩] } id = w.present id := by
    intro id
    simp only [World.present, hadding]
    rfl
  have hremoving : ∀ id, World.removing
      { w with callList := w.callList ++ [⟨.rmv stale, context, .begun⟩] } id =
        w.removing id + if context.id = id then 1 else 0 := by
    intro id
    simp only [World.removing, List.countP_append, List.countP_singleton]
    simp only [Call.willRmv, hrmvs, beq_self_eq_true, Bool.true_and, beq_iff_eq]
    rw [← Nat.add_assoc]
    rfl
  exact {
    shape := h.shape
    ops_running := h.ops_running
    calls := h.calls.ask hknown hfirst stale
    flow := by
      apply h.flow.ask hqueued hpresent hadding hremoving
      intro id
      simp only [List.countP_append, List.countP_singleton, hrmvs, beq_iff_eq]
    behind := h.behind
    freed := h.freed
    returned := h.returned_append _ _ }

/-! ## The loop thread -/

/-- A step of the loop thread: contexts and removals only go on their way, and
the tasks it calls have not been removed. -/
theorem RemovalInv.loopStep {w w' : World} (h : RemovalInv w) (hshape : Shape w'.exec)
    (hrunning : ∀ rest, w'.loop = .ops rest → w'.exec.status = .running)
    (hcalls : w'.callList = w.callList) (hnext : w'.nextId = w.nextId)
    (hpresent : ∀ id, w'.present id ≤ w.present id)
    (hremoving : ∀ id, w'.removing id ≤ w.removing id) (hpending : w'.pending.Sublist w.pending)
    (hperformed : ∀ id ∈ w.performed, id ∈ w'.performed)
    (hgone : ∀ id ∈ w'.performed, w'.present id = 0) (hfreed : ∀ id ∈ w'.freed, id ∈ w'.performed)
    (hinvoked : ∃ called, w'.invoked = w.invoked ++ called ∧ ∀ x ∈ called, x.id ∉ w.performed) :
    RemovalInv w' := by
  exact {
    shape := hshape
    ops_running := hrunning
    calls := by
      rw [hcalls, hnext]
      exact h.calls
    flow := by
      rw [hcalls, hnext]
      exact h.flow.mono hpresent hremoving (fun _ => Nat.le_refl _) (fun _ => Nat.le_refl _) hgone
    behind := h.behind.sublist hpending
    freed := hfreed
    returned := by
      intro c hc hrmv value mark hpc
      rw [hcalls] at hc
      rcases hinvoked with ⟨called, heq, hcalled⟩
      rcases h.returned c hc hrmv value mark hpc with ⟨hmem, hmark, hold⟩
      refine ⟨hperformed _ hmem, ?_, ?_⟩
      · rw [heq, List.length_append]
        omega
      · intro x hx
        rw [heq, List.drop_append_of_le_length hmark] at hx
        rcases List.mem_append.mp hx with hx | hx
        · exact hold x hx
        · intro hid
          exact hcalled x hx (hid ▸ hmem) }

theorem pending_perform (w : World) {op : TaskOp} {rest : List TaskOp}
    (hloop : w.loop = .ops (op :: rest)) :
    w.pending = op :: (rest ++ w.taskOps) ∧
      (w.perform op rest).pending.Sublist (rest ++ w.taskOps) := by
  constructor
  · simp [World.pending, hloop]
  · simp only [World.pending, World.perform]
    by_cases hstatus : (processOp w.exec (w.readOp op)).status = .running
    · simp [hstatus]
    · simp only [if_neg hstatus]
      exact List.sublist_append_right _ _

theorem RemovalInv.performAdd {w : World} (h : RemovalInv w) {context : TaskContext}
    {rest : List TaskOp} (hloop : w.loop = .ops (.add context :: rest)) :
    RemovalInv (w.perform (.add context) rest) := by
  rcases pending_perform w hloop with ⟨hpending, hsub⟩
  have hrun := h.ops_running _ hloop
  have hexec : (w.perform (.add context) rest).exec = processAdd w.exec context := by
    simp [World.perform, World.readOp, processOp, hrun]
  have hperformed : (w.perform (.add context) rest).performed = w.performed := by
    simp [World.perform, removes]
  have hfreed : (w.perform (.add context) rest).freed = w.freed := by
    simp [World.perform, World.readOp, deletes]
  have hpresent : ∀ id, (w.perform (.add context) rest).present id ≤ w.present id := by
    intro id
    have hslots := countP_processAdd h.shape context id
    have hops := hsub.countP_le (p := TaskOp.adds id)
    have hadds : TaskOp.adds id (.add context) = (context.id == id) := rfl
    simp only [World.present, hexec, hpending, List.countP_cons, hadds, beq_iff_eq]
    have hcalls : (w.perform (.add context) rest).callList = w.callList := rfl
    rw [hcalls]
    omega
  refine h.loopStep ?_ (fun _ => perform_running) rfl rfl hpresent ?_ ?_ ?_ ?_ ?_
    ⟨[], by simp [World.perform], by simp⟩
  · rw [hexec]
    exact h.shape.processAdd context
  · intro id
    have hops := hsub.countP_le (p := TaskOp.rmvs id)
    have hcalls : (w.perform (.add context) rest).callList = w.callList := rfl
    simp only [World.removing, hperformed, hpending, List.countP_cons, hcalls]
    omega
  · rw [hpending]
    exact hsub.trans (List.sublist_cons_self _ _)
  · rw [hperformed]
    exact fun id hid => hid
  · intro id hid
    rw [hperformed] at hid
    have := hpresent id
    have := h.flow.gone id hid
    omega
  · rw [hfreed, hperformed]
    exact h.freed

/-- A context whose removal is queued has not been deleted. -/
theorem RemovalInv.readOp_rmv {w : World} (h : RemovalInv w) {context : TaskContext} {stale : Int}
    (hop : .rmv context stale ∈ w.pending) :
    w.readOp (.rmv context stale) = .rmv context stale := by
  have hfree : context.id ∉ w.freed := by
    intro hmem
    have hpos : 0 < w.performed.count context.id := List.count_pos_iff.mpr (h.freed _ hmem)
    have hqueued : 0 < w.pending.countP (TaskOp.rmvs context.id) :=
      List.countP_pos_iff.mpr ⟨_, hop, by simp [TaskOp.rmvs]⟩
    have hasked := h.flow.asked context.id
    have honce := h.calls.removed context.id
    simp only [World.removing] at hasked
    omega
  simp only [World.readOp, World.idOf, if_neg hfree]

/-- `process_rmv` deletes its own context, and then it comes to its end. -/
theorem deletes_rmv {e : Executor} (hrun : e.status = .running) {context : TaskContext}
    {stale id : Int} (h : id ∈ deletes e (.rmv context stale)) :
    id = context.id ∧ (processRmv e context stale).status ≠ .crashed := by
  simp only [deletes] at h
  simp only [processRmv]
  cases hfind : findId context.id (e.tasks.take e.taskSize) with
  | none => simp [hfind] at h
  | some found =>
      cases found with
      | none => simp [hfind] at h
      | some i =>
          refine ⟨by simpa [hfind] using h, ?_⟩
          simp only [notify]
          split <;> simp [hrun]

theorem RemovalInv.performRmv {w : World} (h : RemovalInv w) {context : TaskContext} {stale : Int}
    {rest : List TaskOp} (hloop : w.loop = .ops (.rmv context stale :: rest)) :
    RemovalInv (w.perform (.rmv context stale) rest) := by
  rcases pending_perform w hloop with ⟨hpending, hsub⟩
  have hrun := h.ops_running _ hloop
  have hread := h.readOp_rmv (show TaskOp.rmv context stale ∈ w.pending by simp [hpending])
  rcases h.shape.processRmv context stale with ⟨hshape, hslots, hremoved⟩
  have hexec : (w.perform (.rmv context stale) rest).exec = processRmv w.exec context stale := by
    simp [World.perform, hread, processOp, hrun]
  have hcalls : (w.perform (.rmv context stale) rest).callList = w.callList := rfl
  have hperformed : (w.perform (.rmv context stale) rest).performed = w.performed ++
      if (processRmv w.exec context stale).status = .crashed then [] else [context.id] := by
    simp [World.perform, hread, removes, processOp, hrun]
  have hrmvs : ∀ id, TaskOp.rmvs id (.rmv context stale) = (context.id == id) := fun id => rfl
  have hpresent : ∀ id, (w.perform (.rmv context stale) rest).present id ≤ w.present id := by
    intro id
    have hle := hslots id
    have hops := hsub.countP_le (p := TaskOp.adds id)
    simp only [World.present, hexec, hpending, List.countP_cons, hcalls]
    omega
  refine h.loopStep (by rw [hexec]; exact hshape) (fun _ => perform_running) rfl rfl hpresent
    ?_ ?_ ?_ ?_ ?_ ⟨[], by simp [World.perform], by simp⟩
  · intro id
    have hops := hsub.countP_le (p := TaskOp.rmvs id)
    simp only [World.removing, hperformed, hpending, List.countP_cons, hcalls, List.count_append,
      hrmvs, beq_iff_eq]
    split
    · simp only [List.count_nil]
      omega
    · simp only [List.count_singleton, beq_iff_eq]
      omega
  · rw [hpending]
    exact hsub.trans (List.sublist_cons_self _ _)
  · rw [hperformed]
    exact fun id hid => List.mem_append_left _ hid
  · intro id hid
    rw [hperformed] at hid
    rcases List.mem_append.mp hid with hmem | hmem
    · have := hpresent id
      have := h.flow.gone id hmem
      omega
    · split at hmem
      · cases hmem
      · rename_i hend
        rw [List.mem_singleton.mp hmem]
        -- neither a slot nor a queued ADD nor a call has the context any more
        have hone := h.flow.once context.id
        have hslot := hremoved hend (by simp only [World.present] at hone; omega)
        have hbehind := h.behind
        rw [hpending] at hbehind
        have hqueue : (rest ++ w.taskOps).countP (TaskOp.adds context.id) = 0 := by
          rw [List.countP_eq_zero]
          intro later hlater
          have := List.rel_of_pairwise_cons hbehind hlater context.id (by simp [hrmvs])
          simp [this]
        have hops := hsub.countP_le (p := TaskOp.adds context.id)
        have hpos : 0 < w.removing context.id := by
          simp only [World.removing, hpending, List.countP_cons, hrmvs, beq_self_eq_true, if_true]
          omega
        have hqueued := h.flow.queued context.id hpos
        simp only [World.present, hexec, hcalls]
        omega
  · intro id hid
    simp only [World.perform, hread] at hid
    rw [hperformed]
    rcases List.mem_append.mp hid with hmem | hmem
    · exact List.mem_append_left _ (h.freed id hmem)
    · rcases deletes_rmv hrun hmem with ⟨heq, hend⟩
      rw [if_neg hend, heq]
      exact List.mem_append_right _ List.mem_cons_self

theorem RemovalInv.quietStep {w w' : World} (h : RemovalInv w)
    (hcap : w'.exec.cap = w.exec.cap) (htasks : w'.exec.tasks = w.exec.tasks)
    (hsize : w'.exec.taskSize = w.exec.taskSize)
    (hrunning : ∀ rest, w'.loop = .ops rest → w'.exec.status = .running)
    (hpending : w'.pending = w.pending) (hcalls : w'.callList = w.callList)
    (hnext : w'.nextId = w.nextId) (hperformed : w'.performed = w.performed)
    (hfreed : w'.freed = w.freed)
    (hinvoked : ∃ called, w'.invoked = w.invoked ++ called ∧ ∀ x ∈ called, x.id ∉ w.performed) :
    RemovalInv w' := by
  have hpresent : ∀ id, w'.present id = w.present id := by
    intro id
    simp only [World.present, htasks, hpending, hcalls]
  have hremoving : ∀ id, w'.removing id = w.removing id := by
    intro id
    simp only [World.removing, hperformed, hpending, hcalls]
  refine h.loopStep (h.shape.frame htasks hcap hsize) hrunning hcalls hnext
    (fun id => (hpresent id).le) (fun id => (hremoving id).le) (by rw [hpending])
    (by simp [hperformed]) ?_ ?_ hinvoked
  · intro id hid
    rw [hpresent]
    exact h.flow.gone id (hperformed ▸ hid)
  · rw [hfreed, hperformed]
    exact h.freed

theorem RemovalInv.callTask {w : World} (h : RemovalInv w) {i : Nat} (hloop : w.loop = .calling i) :
    RemovalInv (w.callTask i) := by
  have hpending : w.taskOps = w.pending := by simp [World.pending, hloop]
  apply callTask_rule
  · refine h.quietStep rfl rfl rfl ?_ rfl rfl rfl rfl rfl ⟨[], by simp, by simp⟩
    intro rest hrest
    simp [hloop] at hrest
  · intro c hslot
    refine h.quietStep rfl rfl rfl (fun rest hrest => by cases hrest) hpending rfl rfl rfl rfl
      ⟨[c], rfl, ?_⟩
    intro x hx hperformed
    rw [List.mem_singleton.mp hx] at hperformed
    -- the task that is called is in a slot
    have hgone := h.flow.gone c.id hperformed
    have hmem : some c ∈ w.exec.tasks := by
      rw [List.getD_eq_getElem?_getD] at hslot
      cases hget : w.exec.tasks[i]? with
      | none => simp [hget] at hslot
      | some o =>
          rw [hget] at hslot
          exact List.mem_of_getElem? (hget.trans (congrArg some hslot))
    have hpos : 0 < w.exec.tasks.countP (slotHas c.id) :=
      List.countP_pos_iff.mpr ⟨some c, hmem, by simp [slotHas]⟩
    simp only [World.present] at hgone
    omega
  · exact h.quietStep rfl rfl rfl (fun rest hrest => by cases hrest) hpending rfl rfl rfl rfl
      ⟨[], by simp, by simp⟩

theorem RemovalInv.runLoop {w : World} (h : RemovalInv w)
    (hclr : ∀ context, .clr context ∉ w.pending) : RemovalInv w.runLoop := by
  apply runLoop_rule h
  · intro hcrash hloop
    have hexec : beginRound w.exec = { w.exec with status := .running, called := [] } := by
      simp [beginRound, hcrash]
    refine h.quietStep ?_ ?_ ?_ ?_ ?_ rfl rfl rfl rfl ⟨[], by simp, by simp⟩
    · rw [hexec]
    · rw [hexec]
    · rw [hexec]
    · intro rest hrest
      rw [hexec]
    · simp [World.pending, hloop]
  · intro hloop
    refine h.quietStep rfl rfl rfl (fun rest hrest => by cases hrest) ?_ rfl rfl rfl rfl
      ⟨[], by simp, by simp⟩
    simp [World.pending, hloop]
  · intro op rest hloop
    cases op with
    | add context => exact h.performAdd hloop
    | rmv context stale => exact h.performRmv hloop
    | clr context => exact absurd (by simp [World.pending, hloop]) (hclr context)
  · intro i hloop
    exact h.callTask hloop

/-! ## Without `stop` -/

/-- Nobody has called `stop`, so no CLR is on its way. -/
structure NoStop (w : World) : Prop where
  calls : ∀ c ∈ w.callList, c.request ≠ .stop
  queue : ∀ context, .clr context ∉ w.pending

theorem NoStop.append {w : World} (h : NoStop w) {c : Call} (hc : c.request ≠ .stop)
    (nextId : Int) : NoStop { w with callList := w.callList ++ [c], nextId := nextId } := by
  exact ⟨List.forall_mem_append.mpr ⟨h.calls, List.forall_mem_singleton.mpr hc⟩, h.queue⟩

theorem NoStop.runCall {w : World} (h : NoStop w) {k : Nat} {c : Call}
    (hk : w.callList[k]? = some c) (stale : Int) : NoStop (w.runCall k c stale) := by
  have hc : c.request ≠ .stop := h.calls c (List.mem_of_getElem? hk)
  have hset : ∀ (w' : World) (pc : Pc), w'.pending = w.pending →
      w'.callList = w.callList.set k { c with pc := pc } → NoStop w' := by
    intro w' pc hpending hcalls
    constructor
    · rw [hcalls]
      exact forall_mem_set h.calls (y := { c with pc := pc }) hc k
    · rw [hpending]
      exact h.queue
  unfold World.runCall
  split
  · refine ⟨(hset (w.setPc k c .pushed) _ rfl rfl).calls, ?_⟩
    intro context hmem
    rw [pending_push] at hmem
    rcases List.mem_append.mp hmem with hold | hnew
    · exact h.queue context hold
    · have hop := List.mem_singleton.mp hnew
      unfold Call.op at hop
      split at hop
      · cases hop
      · cases hop
      · contradiction
  · split
    · exact hset _ _ rfl rfl
    · exact hset _ _ rfl rfl
    · exact hset _ _ rfl rfl
    · exact hset _ _ rfl rfl
  · exact hset _ _ rfl rfl
  · unfold World.endWait
    split
    · exact hset _ _ rfl rfl
    · split
      · exact hset _ _ rfl rfl
      · exact hset _ _ rfl rfl
      · exact hset _ _ rfl rfl
  · exact h
  · exact h

theorem runLoop_pending (w : World) : w.runLoop.pending.Sublist w.pending := by
  apply runLoop_rule (P := fun w' => w'.pending.Sublist w.pending)
  · exact List.Sublist.refl _
  · intro _ hloop
    simp [World.pending, hloop]
  · intro hloop
    simp [World.pending, hloop]
  · intro op rest hloop
    rcases pending_perform w hloop with ⟨hpending, hsub⟩
    rw [hpending]
    exact hsub.trans (List.sublist_cons_self _ _)
  · intro i hloop
    apply callTask_rule (P := fun w' => w'.pending.Sublist w.pending)
    · exact List.Sublist.refl _
    · intro c _
      simp [World.pending, hloop]
    · simp [World.pending, hloop]

theorem NoStop.step {w : World} (h : NoStop w) {event : Event} (hlegal : AddThenRmv w event) :
    NoStop (Clients.step w event) := by
  cases event with
  | addTask task async => exact h.append (by simp) _
  | rmvTask context stale =>
      cases context with
      | none => exact h
      | some context => exact h.append (by simp) w.nextId
  | stop => exact hlegal.elim
  | run k stale => exact step_run_rule h k stale fun c hk => h.runCall hk stale
  | loop =>
      refine ⟨?_, fun context hmem => h.queue context ((runLoop_pending w).subset hmem)⟩
      simp only [Clients.step, (runLoop_calls w).1]
      exact h.calls

/-! ## Runs -/

theorem RemovalInv.step {w : World} (h : RemovalInv w) (hstop : NoStop w) {event : Event}
    (hlegal : AddThenRmv w event) (hok : WaitsForRemoval w event) :
    RemovalInv (Clients.step w event) := by
  cases event with
  | addTask task async => exact h.addTask task async
  | rmvTask context stale =>
      cases context with
      | none => exact h
      | some context => exact h.rmvTask hlegal
  | stop => exact hlegal.elim
  | run k stale => exact step_run_rule h k stale fun c hk => h.runCall hk (hok c hk) stale
  | loop => exact h.runLoop hstop.queue

/-- In every run in which the wait of `rmv_task` ends after `process_rmv`, a
context is out of the table when its `rmv_task` returns and its task is not
called any more. -/
theorem rmvTask_synchronous (events : List Event)
    (hlegal : Guarded step AddThenRmv World.init events)
    (hwaits : Guarded step WaitsForRemoval World.init events) :
    Always step RemovedOnReturn World.init events := by
  have hinv : Always step (fun w => RemovalInv w ∧ NoStop w) World.init events := by
    have hboth : Guarded step (fun w event => AddThenRmv w event ∧ WaitsForRemoval w event)
        World.init events := guarded_and.mpr ⟨hlegal, hwaits⟩
    refine always_of_guarded ?_ ⟨removalInv_init, ⟨?_, ?_⟩⟩ hboth
    · intro w event h hok
      exact ⟨h.1.step h.2 hok.1 hok.2, h.2.step hok.1⟩
    · intro c hc
      cases hc
    · intro context hmem
      cases hmem
  exact hinv.mono fun _ h => h.1.removedOnReturn

/-- A task is added, called once and removed in the next round, before the wait
of its `rmv_task` ends. -/
theorem rmvTask_synchronous_run :
    Always step RemovedOnReturn World.init
      [.addTask 7 true, .run 0 0, .run 0 0, .loop, .loop, .loop, .loop, .loop,
        .rmvTask (some ⟨1, 7⟩) 1, .run 1 0, .run 1 0, .loop, .loop, .run 1 0, .loop] :=
  rmvTask_synchronous _ (by decide +kernel) (by decide +kernel)

/-- The ADD of the context has been acknowledged, so the wait of `rmv_task` ends
at once: the RMV is still queued, and the task is called after the return. -/
theorem rmvTask_returns_early :
    ¬ ∀ events, Guarded step AddThenRmv World.init events →
      Always step RemovedOnReturn World.init events := by
  intro hall
  have hrun := hall [.addTask 7 true, .run 0 0, .run 0 0, .loop, .loop, .rmvTask (some ⟨1, 7⟩) 1,
    .run 1 0, .run 1 0, .run 1 0, .loop, .loop] (by decide +kernel)
  have hlast := always_iff_prefixes.mp hrun _ (List.prefix_refl _)
    ⟨.rmv 1, ⟨1, 7⟩, .returned true 0⟩ (by decide +kernel) rfl true 0 rfl
  exact hlast.2 ⟨1, 7⟩ (by decide +kernel) rfl

end NetTest.Threadpool.Clients
