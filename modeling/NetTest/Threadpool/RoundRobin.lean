import NetTest.Threadpool.Acks
import NetTest.Threadpool.Slots

/-!
# Rounds

An executor whose clients only add tasks.  Whatever a blocking `add_task` has
returned, its context is queued or in the table, once, and the table keeps the
order in which the operations were queued.  The loop thread goes through the
table from the front, round after round, and a task that is added later takes its
turn at the end.
-/

namespace NetTest.Threadpool.Clients

open Runs Counting

/-! ## The property -/

def World.table (w : World) : List TaskContext :=
  (w.exec.tasks.take w.exec.taskSize).filterMap id

def TaskOp.addition : TaskOp → Option TaskContext
  | .add context => some context
  | .rmv _ _ | .clr _ => none

def World.queued (w : World) : List TaskContext := w.pending.filterMap TaskOp.addition

def World.turn (w : World) : Nat :=
  match w.loop with
  | .calling i => i
  | .idle | .ops _ => 0

def Call.handedOver (context : TaskContext) (c : Call) : Bool :=
  c.pc != .begun && c.context == context

structure RoundRobin (w : World) : Prop where
  running : w.exec.status = .running
  nodup : w.table.Nodup
  /-- Nothing that was queued is lost or doubled. -/
  held : ∀ context,
    (w.table ++ w.queued).count context = w.callList.countP (Call.handedOver context)
  /-- Each round has called the tasks of the table as it was then, in order. -/
  rounds : ∃ sizes : List Nat, sizes.Pairwise (· ≤ ·) ∧ (∀ n ∈ sizes, n ≤ w.table.length) ∧
    w.invoked = sizes.flatMap (fun n => w.table.take n) ++ w.table.take w.turn

def AddsOnly : Event → Prop
  | .rmvTask _ _ | .stop => False
  | .addTask _ _ | .run _ _ | .loop => True

instance : DecidablePred AddsOnly
  | .rmvTask _ _ => inferInstanceAs (Decidable False)
  | .stop => inferInstanceAs (Decidable False)
  | .addTask _ _ => inferInstanceAs (Decidable True)
  | .run _ _ => inferInstanceAs (Decidable True)
  | .loop => inferInstanceAs (Decidable True)

/-! ## The table -/

/-- A table without null slots, as long as it has grown. -/
structure Filled (e : Executor) (table : List TaskContext) : Prop where
  slots : e.tasks.take e.taskSize = table.map some
  size : e.taskSize = table.length
  length : e.tasks.length = max e.cap e.taskSize

theorem filled_create : Filled create [] := ⟨rfl, rfl, List.length_replicate⟩

theorem Filled.add {e : Executor} {table : List TaskContext} (h : Filled e table)
    (context : TaskContext) : Filled (processAdd e context) (table ++ [context]) := by
  have hslots := h.slots
  have hsize := h.size
  have hlength := h.length
  simp only [processAdd, notify]
  by_cases hcap : e.taskSize < e.cap
  · have hlt : e.taskSize < e.tasks.length := by omega
    simp only [if_pos hcap]
    refine ⟨?_, ?_, ?_⟩
    · rw [List.take_add_one, List.take_set_of_le (Nat.le_refl _), hslots,
        List.getElem?_set_self hlt, List.map_append]
      rfl
    · rw [List.length_append, List.length_singleton, hsize]
    · rw [List.length_set, hlength]
      dsimp only
      omega
  · have hfull : e.tasks = table.map some := by
      rw [← hslots, List.take_of_length_le (by omega)]
    simp only [if_neg hcap]
    refine ⟨?_, ?_, ?_⟩
    · have hall : (e.tasks ++ [some context]).length ≤ e.taskSize + 1 := by
        rw [List.length_append, List.length_singleton]
        omega
      rw [List.take_of_length_le hall, hfull, List.map_append]
      rfl
    · rw [List.length_append, List.length_singleton, hsize]
    · rw [List.length_append, List.length_singleton, hlength]
      dsimp only
      omega

theorem Filled.frame {e e' : Executor} {table : List TaskContext} (h : Filled e table)
    (htasks : e'.tasks = e.tasks) (hcap : e'.cap = e.cap) (hsize : e'.taskSize = e.taskSize) :
    Filled e' table := by
  refine ⟨?_, ?_, ?_⟩
  · rw [htasks, hsize]
    exact h.slots
  · rw [hsize]
    exact h.size
  · rw [htasks, hcap, hsize]
    exact h.length

theorem Filled.table_eq {w : World} {table : List TaskContext} (h : Filled w.exec table) :
    w.table = table := by
  rw [World.table, h.slots, List.filterMap_map]
  exact List.filterMap_some

theorem Filled.slot {e : Executor} {table : List TaskContext} (h : Filled e table) {i : Nat}
    (hi : i < e.taskSize) :
    ∃ c, e.tasks.getD i none = some c ∧ table.take (i + 1) = table.take i ++ [c] := by
  have hlt : i < table.length := by rw [← h.size]; exact hi
  have hget : e.tasks[i]? = some (some table[i]) := by
    rw [← List.getElem?_take_of_lt hi, h.slots, List.getElem?_map, List.getElem?_eq_getElem hlt]
    rfl
  refine ⟨table[i], ?_, ?_⟩
  · rw [List.getD_eq_getElem?_getD, hget]
    rfl
  · rw [List.take_add_one, List.getElem?_eq_getElem hlt]
    rfl

/-! ## The invariant -/

structure Turning (w : World) (table : List TaskContext) (sizes : List Nat) : Prop where
  acks : AckInv w
  running : w.exec.status = .running
  filled : Filled w.exec table
  adds : ∀ c ∈ w.callList, c.request.isAdd = true
  additions : ∀ op ∈ w.pending, ∃ context, op = .add context
  notified : w.notified = table.map TaskContext.id
  held : ∀ context,
    (table ++ w.queued).count context = w.callList.countP (Call.handedOver context)
  sorted : sizes.Pairwise (· ≤ ·)
  sizes_le : ∀ n ∈ sizes, n ≤ table.length
  turn_le : w.turn ≤ table.length
  invoked : w.invoked = sizes.flatMap (fun n => table.take n) ++ table.take w.turn

theorem turning_init : Turning World.init [] [] where
  acks := shotInv_init.acks
  running := rfl
  filled := filled_create
  adds _ hc := nomatch hc
  additions _ hop := nomatch hop
  notified := rfl
  held _ := rfl
  sorted := .nil
  sizes_le _ hn := nomatch hn
  turn_le := Nat.le_refl 0
  invoked := rfl

namespace Turning

variable {w : World} {table : List TaskContext} {sizes : List Nat}

theorem roundRobin (h : Turning w table sizes) : RoundRobin w where
  running := h.running
  nodup := by
    have hids : w.notified.Nodup := by
      rw [List.nodup_iff_count_le_one]
      intro id
      have honce := h.acks.once id
      omega
    rw [h.notified] at hids
    rw [h.filled.table_eq]
    exact hids.of_map _
  held := by
    rw [h.filled.table_eq]
    exact h.held
  rounds := by
    rw [h.filled.table_eq]
    exact ⟨sizes, h.sorted, h.sizes_le, h.invoked⟩

theorem addTask (h : Turning w table sizes) (task : Nat) (async : Bool) :
    Turning (w.fetch (.add async) task) table sizes where
  acks := h.acks.fetch _ _
  running := h.running
  filled := h.filled
  adds := List.forall_mem_append.mpr ⟨h.adds, List.forall_mem_singleton.mpr rfl⟩
  additions := h.additions
  notified := h.notified
  held context := by
    have hnew : (w.fetch (.add async) task).callList.countP (Call.handedOver context) =
        w.callList.countP (Call.handedOver context) := by
      rw [World.fetch, List.countP_append, List.countP_singleton]
      rfl
    rw [hnew]
    exact h.held context
  sorted := h.sorted
  sizes_le := h.sizes_le
  turn_le := h.turn_le
  invoked := h.invoked

theorem frame {w' : World} (h : Turning w table sizes) (hacks : AckInv w')
    (hexec : ∃ syncer, w'.exec = { w.exec with syncer := syncer }) (hloop : w'.loop = w.loop)
    (hops : w'.taskOps = w.taskOps) (hnotified : w'.notified = w.notified)
    (hinvoked : w'.invoked = w.invoked) (hadds : ∀ c ∈ w'.callList, c.request.isAdd = true)
    (hcalls : ∀ context, w'.callList.countP (Call.handedOver context) =
      w.callList.countP (Call.handedOver context)) : Turning w' table sizes := by
  rcases hexec with ⟨syncer, hexec⟩
  have hpending : w'.pending = w.pending := by
    unfold World.pending
    rw [hloop, hops]
  have hturn : w'.turn = w.turn := by
    unfold World.turn
    rw [hloop]
  constructor
  · exact hacks
  · rw [hexec]
    exact h.running
  · rw [hexec]
    exact h.filled.frame rfl rfl rfl
  · exact hadds
  · rw [hpending]
    exact h.additions
  · rw [hnotified]
    exact h.notified
  · intro context
    rw [hcalls, World.queued, hpending]
    exact h.held context
  · exact h.sorted
  · exact h.sizes_le
  · rw [hturn]
    exact h.turn_le
  · rw [hinvoked, hturn]
    exact h.invoked

theorem move (h : Turning w table sizes) {k : Nat} {c : Call} (hk : w.callList[k]? = some c)
    {pc : Pc} (hold : c.pc ≠ .begun) (hnew : pc ≠ .begun) {w' : World} (hacks : AckInv w')
    (hexec : ∃ syncer, w'.exec = { w.exec with syncer := syncer }) (hloop : w'.loop = w.loop)
    (hops : w'.taskOps = w.taskOps) (hnotified : w'.notified = w.notified)
    (hinvoked : w'.invoked = w.invoked)
    (hcalls : w'.callList = w.callList.set k { c with pc := pc }) : Turning w' table sizes := by
  apply h.frame hacks hexec hloop hops hnotified hinvoked
  · rw [hcalls]
    exact forall_mem_set h.adds (y := { c with pc := pc }) (h.adds c (List.mem_of_getElem? hk)) k
  · intro context
    have hcount := countP_set_add hk { c with pc := pc } (Call.handedOver context)
    have hsame : Call.handedOver context { c with pc := pc } = Call.handedOver context c := by
      unfold Call.handedOver
      rw [bne_iff_ne.mpr hold, bne_iff_ne.mpr hnew]
    rw [hsame] at hcount
    rw [hcalls]
    omega

theorem push (h : Turning w table sizes) {k : Nat} {c : Call} (hk : w.callList[k]? = some c)
    (hbegun : c.pc = .begun)
    (hacks : AckInv ({ w with taskOps := w.taskOps ++ [c.op] }.setPc k c .pushed)) :
    Turning ({ w with taskOps := w.taskOps ++ [c.op] }.setPc k c .pushed) table sizes := by
  have hmem := List.mem_of_getElem? hk
  have hop : c.op = .add c.context := by
    have hadd := h.adds c hmem
    unfold Call.op
    cases hrequest : c.request with
    | add async => rfl
    | rmv stale =>
        rw [hrequest] at hadd
        cases hadd
    | stop =>
        rw [hrequest] at hadd
        cases hadd
  have hpending := pending_push w k c .pushed
  constructor
  · exact hacks
  · exact h.running
  · exact h.filled
  · exact forall_mem_set h.adds (y := { c with pc := .pushed }) (h.adds c hmem) k
  · rw [hpending, hop]
    exact List.forall_mem_append.mpr ⟨h.additions, List.forall_mem_singleton.mpr ⟨_, rfl⟩⟩
  · exact h.notified
  · intro context
    have hcount := countP_set_add hk { c with pc := .pushed } (Call.handedOver context)
    have hbefore : Call.handedOver context c = false := by
      rw [Call.handedOver, hbegun]
      rfl
    have hafter : Call.handedOver context { c with pc := .pushed } = (c.context == context) := rfl
    have hqueued : ({ w with taskOps := w.taskOps ++ [c.op] }.setPc k c .pushed).queued =
        w.queued ++ [c.context] := by
      rw [World.queued, hpending, hop, List.filterMap_append]
      rfl
    have hheld := h.held context
    rw [hbefore, hafter] at hcount
    rw [hqueued, ← List.append_assoc, List.count_append, List.count_singleton, hheld]
    exact hcount.symm
  · exact h.sorted
  · exact h.sizes_le
  · exact h.turn_le
  · exact h.invoked

theorem runCall (h : Turning w table sizes) {k : Nat} {c : Call} (hk : w.callList[k]? = some c)
    (stale : Int) : Turning (w.runCall k c stale) table sizes := by
  have hacks := h.acks.runCall hk stale
  have hmem := List.mem_of_getElem? hk
  unfold World.runCall at hacks ⊢
  cases hpc : c.pc with
  | begun =>
      rw [hpc] at hacks
      exact h.push hk hpc hacks
  | pushed =>
      have hold : c.pc ≠ .begun := by simp [hpc]
      rw [hpc] at hacks
      dsimp only at hacks ⊢
      cases hrequest : c.request with
      | add async =>
          rw [hrequest] at hacks
          cases async with
          | true => exact h.move hk hold (by simp) hacks ⟨_, rfl⟩ rfl rfl rfl rfl rfl
          | false => exact h.move hk hold (by simp) hacks ⟨_, rfl⟩ rfl rfl rfl rfl rfl
      | rmv stale =>
          have hadd := h.adds c hmem
          rw [hrequest] at hadd
          cases hadd
      | stop =>
          have hadd := h.adds c hmem
          rw [hrequest] at hadd
          cases hadd
  | halted =>
      rw [hpc] at hacks
      exact h.move hk (by simp [hpc]) (by simp) hacks ⟨_, rfl⟩ rfl rfl rfl rfl rfl
  | waiting id =>
      have hold : c.pc ≠ .begun := by simp [hpc]
      rw [hpc] at hacks
      dsimp only at hacks ⊢
      unfold World.endWait at hacks ⊢
      split at hacks
      · rename_i hget
        rw [if_pos hget]
        exact h.move hk hold (by simp) hacks ⟨_, rfl⟩ rfl rfl rfl rfl rfl
      · rename_i hget
        rw [if_neg hget]
        split at hacks
        · exact h.move hk hold (by simp) hacks ⟨_, rfl⟩ rfl rfl rfl rfl rfl
        · exact h.move hk hold (by simp) hacks ⟨_, rfl⟩ rfl rfl rfl rfl rfl
        · exact h.move hk hold (by simp) hacks ⟨_, rfl⟩ rfl rfl rfl rfl rfl
  | returned value mark => exact h
  | raised => exact h

theorem flatMap_take_append {table : List TaskContext} {sizes : List Nat}
    (hle : ∀ n ∈ sizes, n ≤ table.length) (more : List TaskContext) :
    sizes.flatMap (fun n => (table ++ more).take n) = sizes.flatMap fun n => table.take n := by
  induction sizes with
  | nil => rfl
  | cons n sizes ih =>
      rw [List.flatMap_cons, List.flatMap_cons, ih fun m hm => hle m (List.mem_cons_of_mem n hm),
        List.take_append_of_le_length (hle n List.mem_cons_self)]

theorem loopStep {w' : World} {sizes' : List Nat} (h : Turning w table sizes) (hacks : AckInv w')
    (hrunning : w'.exec.status = .running) (hfilled : Filled w'.exec table)
    (hcalls : w'.callList = w.callList) (hpending : w'.pending = w.pending)
    (hnotified : w'.notified = w.notified) (hsorted : sizes'.Pairwise (· ≤ ·))
    (hsizes : ∀ n ∈ sizes', n ≤ table.length) (hturn : w'.turn ≤ table.length)
    (hinvoked : w'.invoked = sizes'.flatMap (fun n => table.take n) ++ table.take w'.turn) :
    Turning w' table sizes' where
  acks := hacks
  running := hrunning
  filled := hfilled
  adds := by
    rw [hcalls]
    exact h.adds
  additions := by
    rw [hpending]
    exact h.additions
  notified := by
    rw [hnotified]
    exact h.notified
  held context := by
    rw [World.queued, hpending, hcalls]
    exact h.held context
  sorted := hsorted
  sizes_le := hsizes
  turn_le := hturn
  invoked := hinvoked

/-- Outside the run phase whole rounds have been called. -/
theorem invoked_between (h : Turning w table sizes) (hturn : w.turn = 0) :
    w.invoked = sizes.flatMap (fun n => table.take n) ++ table.take 0 := by
  have hinvoked := h.invoked
  rw [hturn] at hinvoked
  exact hinvoked

theorem beginRound (h : Turning w table sizes) (hloop : w.loop = .idle)
    (hacks : AckInv { w with
      exec := Threadpool.beginRound w.exec, loop := .ops w.taskOps, taskOps := [] }) :
    Turning { w with
      exec := Threadpool.beginRound w.exec, loop := .ops w.taskOps, taskOps := [] } table sizes := by
  have hbegin : Threadpool.beginRound w.exec = { w.exec with status := .running, called := [] } :=
    if_neg (by rw [h.running]; decide)
  have hturn : w.turn = 0 := by rw [World.turn, hloop]
  refine h.loopStep hacks ?_ ?_ rfl ?_ rfl h.sorted h.sizes_le (Nat.zero_le _)
    (h.invoked_between hturn)
  · rw [hbegin]
  · rw [hbegin]
    exact h.filled.frame rfl rfl rfl
  · simp [World.pending, hloop]

theorem startCalling (h : Turning w table sizes) (hloop : w.loop = .ops [])
    (hacks : AckInv { w with loop := .calling 0 }) :
    Turning { w with loop := .calling 0 } table sizes := by
  have hturn : w.turn = 0 := by rw [World.turn, hloop]
  have hpending : World.pending { w with loop := .calling 0 } = w.pending := by
    simp [World.pending, hloop]
  exact h.loopStep hacks h.running h.filled rfl hpending rfl h.sorted h.sizes_le (Nat.zero_le _)
    (h.invoked_between hturn)

theorem perform (h : Turning w table sizes) {op : TaskOp} {rest : List TaskOp}
    (hloop : w.loop = .ops (op :: rest)) (hacks : AckInv (w.perform op rest)) :
    ∃ table', Turning (w.perform op rest) table' sizes := by
  have hpending : w.pending = op :: (rest ++ w.taskOps) := by
    rw [World.pending, hloop]
    rfl
  have hmem : op ∈ w.pending := by
    rw [hpending]
    exact List.mem_cons_self
  rcases h.additions op hmem with ⟨context, rfl⟩
  have hturn : w.turn = 0 := by rw [World.turn, hloop]
  -- the promise of the context has no value yet
  have hopen : ∀ v, w.exec.syncer.syncList context.id ≠ some ⟨some v⟩ := by
    intro v hv
    have hnotified := List.count_pos_iff.mpr (h.acks.values context.id v hv).2
    have honce := h.acks.once context.id
    have hacking : 0 < w.acking context.id := by
      rw [World.acking, hpending, List.countP_cons, if_pos (by simp [TaskOp.acksId])]
      omega
    omega
  have hexec : processOp w.exec (.add context) = processAdd w.exec context := if_pos h.running
  have hstatus : (processAdd w.exec context).status = .running := by
    unfold processAdd
    dsimp only
    rw [notify_status _ (by exact hopen)]
    exact h.running
  have hworld : w.perform (.add context) rest = { w with
      exec := processAdd w.exec context
      loop := .ops rest
      notified := w.notified ++ [context.id]
      performed := w.performed ++ [] } := by
    simp [World.perform, World.readOp, hexec, hstatus, Clients.acks, deletes,
      removes]
  rw [hworld] at hacks ⊢
  refine ⟨table ++ [context], ?_⟩
  constructor
  · exact hacks
  · exact hstatus
  · exact h.filled.add context
  · exact h.adds
  · intro op hop
    apply h.additions op
    rw [hpending]
    exact List.mem_cons_of_mem _ hop
  · rw [h.notified, List.map_append]
    rfl
  · intro context'
    have hheld := h.held context'
    rw [World.queued, hpending, List.filterMap_cons] at hheld
    rw [List.append_assoc]
    exact hheld
  · exact h.sorted
  · intro n hn
    have hle := h.sizes_le n hn
    rw [List.length_append]
    omega
  · exact Nat.zero_le _
  · have hinvoked := h.invoked
    rw [hturn] at hinvoked
    rw [flatMap_take_append h.sizes_le]
    exact hinvoked

theorem callTask (h : Turning w table sizes) {i : Nat} (hloop : w.loop = .calling i)
    (hacks : AckInv (w.callTask i)) : ∃ sizes', Turning (w.callTask i) table sizes' := by
  have hturn : w.turn = i := by rw [World.turn, hloop]
  have hinvoked := h.invoked
  have hle := h.turn_le
  rw [hturn] at hinvoked hle
  unfold World.callTask at hacks ⊢
  by_cases hi : i < w.exec.taskSize
  · rcases h.filled.slot hi with ⟨c, hslot, htake⟩
    rw [if_pos hi, hslot] at hacks ⊢
    dsimp only at hacks ⊢
    have hpending : World.pending { w with
        invoked := w.invoked ++ [c], loop := .calling (i + 1) } = w.pending := by
      simp [World.pending, hloop]
    have hsize := h.filled.size
    refine ⟨sizes, h.loopStep hacks h.running h.filled rfl hpending rfl h.sorted h.sizes_le ?_ ?_⟩
    · rw [← hsize]
      exact hi
    · show w.invoked ++ [c] = _ ++ table.take (i + 1)
      rw [htake, hinvoked, List.append_assoc]
  · rw [if_neg hi] at hacks ⊢
    have hpending : World.pending { w with loop := .idle } = w.pending := by
      simp [World.pending, hloop]
    have hsize := h.filled.size
    have hend : i = table.length := by omega
    refine ⟨sizes ++ [table.length], h.loopStep hacks h.running h.filled rfl hpending rfl ?_ ?_
      (Nat.zero_le _) ?_⟩
    · rw [List.pairwise_append]
      refine ⟨h.sorted, List.pairwise_singleton _ _, ?_⟩
      intro n hn m hm
      rw [List.mem_singleton.mp hm]
      exact h.sizes_le n hn
    · intro n hn
      rcases List.mem_append.mp hn with hold | hlast
      · exact h.sizes_le n hold
      · rw [List.mem_singleton.mp hlast]
    · show w.invoked = _ ++ []
      rw [hinvoked, hend, List.flatMap_append, List.append_nil, List.flatMap_singleton]

theorem runLoop (h : Turning w table sizes) : ∃ table' sizes', Turning w.runLoop table' sizes' := by
  have hacks := h.acks.runLoop fun op rest hloop => by
    have hmem : op ∈ w.pending := by
      rw [World.pending, hloop]
      exact List.mem_append_left _ List.mem_cons_self
    rcases h.additions op hmem with ⟨context, rfl⟩
    trivial
  revert hacks
  apply runLoop_rule (P := fun w' => AckInv w' → ∃ table' sizes', Turning w' table' sizes')
  · exact fun _ => ⟨table, sizes, h⟩
  · exact fun _ hloop hacks => ⟨table, sizes, h.beginRound hloop hacks⟩
  · exact fun hloop hacks => ⟨table, sizes, h.startCalling hloop hacks⟩
  · intro op rest hloop hacks
    rcases h.perform hloop hacks with ⟨table', hnext⟩
    exact ⟨table', sizes, hnext⟩
  · intro i hloop hacks
    rcases h.callTask hloop hacks with ⟨sizes', hnext⟩
    exact ⟨table, sizes', hnext⟩

theorem step (h : Turning w table sizes) {event : Event} (hadds : AddsOnly event) :
    ∃ table' sizes', Turning (Clients.step w event) table' sizes' := by
  cases event with
  | addTask task async => exact ⟨table, sizes, h.addTask task async⟩
  | rmvTask context stale => exact hadds.elim
  | stop => exact hadds.elim
  | run k stale =>
      apply step_run_rule (P := fun w' => ∃ table' sizes', Turning w' table' sizes')
        ⟨table, sizes, h⟩ k stale
      exact fun c hk => ⟨table, sizes, h.runCall hk stale⟩
  | loop => exact h.runLoop

end Turning

/-! ## Runs -/

/-- Clients that only add get every task called once in each round, in the order
of the additions, whatever their calls of `add_task` have returned. -/
theorem executor_roundRobin (events : List Event) (hadds : ∀ event ∈ events, AddsOnly event) :
    Always step RoundRobin World.init events := by
  have hinv : Always step (fun w => ∃ table sizes, Turning w table sizes) World.init events := by
    have hguarded : Guarded step (fun _ event => AddsOnly event) World.init events :=
      guarded_iff_mem.mpr hadds
    refine always_of_guarded ?_ ⟨[], [], turning_init⟩ hguarded
    intro w event h hevent
    rcases h with ⟨table, sizes, h⟩
    exact h.step hevent
  apply hinv.mono
  intro w h
  rcases h with ⟨table, sizes, h⟩
  exact h.roundRobin

/-- A blocking `add_task` times out before the loop thread runs, a second one is
asynchronous; the first task is called once in each of two rounds. -/
theorem executor_roundRobin_timeout :
    Always step RoundRobin World.init
      [.addTask 7 false, .run 0 0, .run 0 0, .run 0 0, .loop, .loop, .loop, .addTask 8 true,
        .run 1 0, .loop, .loop, .loop, .loop, .loop, .loop, .loop, .loop] :=
  executor_roundRobin _ (by decide)

end NetTest.Threadpool.Clients
