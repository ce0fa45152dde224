import NetTest.Basic.LockFreeArray.Model

/-!
# The lock-free array under many threads

Every call is a small program over the shared counters and slots; its local
variables are part of its program counter.  One step of a call is one load of a
counter, one access to a slot or one compare-and-swap.  The schedule is a list
of events: a call begins, or the call with a given name takes its next step.
-/

namespace NetTest.LockFree

open Wrapping

variable {α : Type*}

/-- Where a `push` is, with `current_write_index` once it has been loaded. -/
inductive PushPc where
  | loadWrite
  | loadRead (currentWrite : Nat)
  | reserve (currentWrite : Nat)
  | store (currentWrite : Nat)
  | publish (currentWrite : Nat)
  | returned (currentWrite : Nat) (ok : Bool)

/-- Where a `try_pop` is.  `empty` compares two loads, whose order the language
leaves open. -/
inductive PopPc (α : Type*) where
  | testFirst
  | testSecond (seen : Nat)
  | loadRead
  | readSlot (currentRead : Nat)
  | commit (currentRead : Nat) (data : α)
  | returned (ok : Bool)

inductive Call (α : Type*) where
  | push (data : α) (pc : PushPc)
  | tryPop (writeFirst : Bool) (pc : PopPc α)

structure System (α : Type*) where
  array : LockFreeArray α
  calls : Nat → Option (Call α)
  /-- The pushes whose reservation took effect, by name and element, in order. -/
  reserved : List (Nat × α)
  /-- How often `max_num_read_index` has been moved. -/
  published : Nat
  /-- The counter and the element of each successful `try_pop`, in order. -/
  popped : List (Nat × α)

def System.create (queue : Nat → α) : System α where
  array := LockFree.create queue
  calls := fun _ => none
  reserved := []
  published := 0
  popped := []

def System.setCall (s : System α) (k : Nat) (call : Call α) : System α :=
  { s with calls := Function.update s.calls k (some call) }

@[simp] theorem System.setCall_calls_self (s : System α) (k : Nat) (call : Call α) :
    (s.setCall k call).calls k = some call := by
  simp [System.setCall]

theorem System.setCall_calls_of_ne (s : System α) {k k' : Nat} (call : Call α) (h : k' ≠ k) :
    (s.setCall k call).calls k' = s.calls k' := by
  simp [System.setCall, h]

def runPush (n : Nat) (s : System α) (k : Nat) (data : α) : PushPc → System α
  | .loadWrite => s.setCall k (.push data (.loadRead s.array.writeIndex))
  | .loadRead cw =>
      if index n (next cw) = index n s.array.readIndex then
        s.setCall k (.push data (.returned cw false))
      else s.setCall k (.push data (.reserve cw))
  | .reserve cw =>
      if s.array.writeIndex = cw then
        { s with
          array := { s.array with writeIndex := next cw }
          reserved := s.reserved ++ [(k, data)] }.setCall k (.push data (.store cw))
      else s.setCall k (.push data .loadWrite)
  | .store cw =>
      { s with array := { s.array with
          queue := Function.update s.array.queue (index n cw) data } }.setCall k
        (.push data (.publish cw))
  | .publish cw =>
      if s.array.maxNumReadIndex = cw then
        { s with
          array := { s.array with maxNumReadIndex := next cw }
          published := s.published + 1 }.setCall k (.push data (.returned cw true))
      else s
  | .returned _ _ => s

def runPop (n : Nat) (s : System α) (k : Nat) (writeFirst : Bool) : PopPc α → System α
  | .testFirst =>
      s.setCall k (.tryPop writeFirst (.testSecond
        (if writeFirst then s.array.writeIndex else s.array.readIndex)))
  | .testSecond seen =>
      if seen = (if writeFirst then s.array.readIndex else s.array.writeIndex) then
        s.setCall k (.tryPop writeFirst (.returned false))
      else s.setCall k (.tryPop writeFirst .loadRead)
  | .loadRead => s.setCall k (.tryPop writeFirst (.readSlot s.array.readIndex))
  | .readSlot cr => s.setCall k (.tryPop writeFirst (.commit cr (s.array.queue (index n cr))))
  | .commit cr data =>
      if s.array.readIndex = cr then
        { s with
          array := { s.array with readIndex := next cr }
          popped := s.popped ++ [(cr, data)] }.setCall k (.tryPop writeFirst (.returned true))
      else s.setCall k (.tryPop writeFirst (.returned false))
  | .returned _ => s

inductive Event (α : Type*) where
  | push (k : Nat) (data : α)
  | tryPop (k : Nat) (writeFirst : Bool)
  | run (k : Nat)

/-- A name is used for one call only. -/
def step (n : Nat) (s : System α) : Event α → System α
  | .push k data =>
      match s.calls k with
      | none => s.setCall k (.push data .loadWrite)
      | some _ => s
  | .tryPop k writeFirst =>
      match s.calls k with
      | none => s.setCall k (.tryPop writeFirst .testFirst)
      | some _ => s
  | .run k =>
      match s.calls k with
      | none => s
      | some (.push data pc) => runPush n s k data pc
      | some (.tryPop writeFirst pc) => runPop n s k writeFirst pc

/-! ## One call alone -/

/-- The steps of a `push` that nobody interferes with compute `push`. -/
theorem push_alone {n : Nat} {s : System α} {k : Nat} {data : α} {a : LockFreeArray α} {ok : Bool}
    (hfree : s.calls k = none) (hpush : push n s.array data = some (a, ok)) :
    ∃ events : List (Event α), ∃ cw,
      (events.foldl (step n) s).array = a ∧
      (events.foldl (step n) s).calls k = some (.push data (.returned cw ok)) := by
  unfold push at hpush
  by_cases hfull : index n (next s.array.writeIndex) = index n s.array.readIndex
  · rw [if_pos hfull] at hpush
    cases hpush
    refine ⟨[.push k data, .run k, .run k], s.array.writeIndex, ?_, ?_⟩ <;>
      simp [step, hfree, System.setCall, runPush, hfull]
  · rw [if_neg hfull] at hpush
    by_cases hturn : s.array.maxNumReadIndex = s.array.writeIndex
    · simp only [hturn, if_true, Option.some.injEq, Prod.mk.injEq] at hpush
      rcases hpush with ⟨rfl, rfl⟩
      refine ⟨[.push k data, .run k, .run k, .run k, .run k, .run k], s.array.writeIndex, ?_, ?_⟩ <;>
        simp [step, hfree, System.setCall, runPush, hfull, hturn]
    · simp [hturn] at hpush

/-- The steps of a `try_pop` that nobody interferes with compute `tryPop`. -/
theorem tryPop_alone {n : Nat} {s : System α} {k : Nat} (writeFirst : Bool)
    (hfree : s.calls k = none) :
    ∃ events : List (Event α),
      (events.foldl (step n) s).array = (tryPop n s.array).1 ∧
      (events.foldl (step n) s).calls k =
        some (.tryPop writeFirst (.returned (tryPop n s.array).2.isSome)) := by
  unfold tryPop
  by_cases hempty : s.array.readIndex = s.array.writeIndex
  · refine ⟨[.tryPop k writeFirst, .run k, .run k], ?_, ?_⟩ <;>
      cases writeFirst <;> simp [step, hfree, System.setCall, runPop, empty, hempty]
  · refine ⟨[.tryPop k writeFirst, .run k, .run k, .run k, .run k, .run k], ?_, ?_⟩ <;>
      cases writeFirst <;>
        simp [step, hfree, System.setCall, runPop, empty, hempty, Ne.symm hempty]

/-! ## What a step does -/

/-- The steps that only move a call along: the event, the name of the call and
where the call is afterwards. -/
inductive Quiet (n : Nat) (s : System α) : Event α → Nat → Call α → Prop where
  | beginPush {k : Nat} {data : α} (hcall : s.calls k = none) :
      Quiet n s (.push k data) k (.push data .loadWrite)
  | beginPop {k : Nat} {writeFirst : Bool} (hcall : s.calls k = none) :
      Quiet n s (.tryPop k writeFirst) k (.tryPop writeFirst .testFirst)
  | loadWrite {k : Nat} {data : α} (hcall : s.calls k = some (.push data .loadWrite)) :
      Quiet n s (.run k) k (.push data (.loadRead s.array.writeIndex))
  | full {k cw : Nat} {data : α} (hcall : s.calls k = some (.push data (.loadRead cw)))
      (hfull : index n (next cw) = index n s.array.readIndex) :
      Quiet n s (.run k) k (.push data (.returned cw false))
  | free {k cw : Nat} {data : α} (hcall : s.calls k = some (.push data (.loadRead cw)))
      (hfree : index n (next cw) ≠ index n s.array.readIndex) :
      Quiet n s (.run k) k (.push data (.reserve cw))
  | retry {k cw : Nat} {data : α} (hcall : s.calls k = some (.push data (.reserve cw))) :
      Quiet n s (.run k) k (.push data .loadWrite)
  | testFirst {k seen : Nat} {writeFirst : Bool}
      (hcall : s.calls k = some (.tryPop writeFirst .testFirst)) :
      Quiet n s (.run k) k (.tryPop writeFirst (.testSecond seen))
  | foundEmpty {k seen : Nat} {writeFirst : Bool}
      (hcall : s.calls k = some (.tryPop writeFirst (.testSecond seen))) :
      Quiet n s (.run k) k (.tryPop writeFirst (.returned false))
  | foundElement {k seen : Nat} {writeFirst : Bool}
      (hcall : s.calls k = some (.tryPop writeFirst (.testSecond seen))) :
      Quiet n s (.run k) k (.tryPop writeFirst .loadRead)
  | loadRead {k : Nat} {writeFirst : Bool} (hcall : s.calls k = some (.tryPop writeFirst .loadRead)) :
      Quiet n s (.run k) k (.tryPop writeFirst (.readSlot s.array.readIndex))
  | readSlot {k cr : Nat} {writeFirst : Bool}
      (hcall : s.calls k = some (.tryPop writeFirst (.readSlot cr))) :
      Quiet n s (.run k) k (.tryPop writeFirst (.commit cr (s.array.queue (index n cr))))
  | lost {k cr : Nat} {data : α} {writeFirst : Bool}
      (hcall : s.calls k = some (.tryPop writeFirst (.commit cr data))) :
      Quiet n s (.run k) k (.tryPop writeFirst (.returned false))

/-- All steps, by what they do to the counters, the slots and the history. -/
inductive Effect (n : Nat) (s : System α) : Event α → System α → Prop where
  | idle {e : Event α} : Effect n s e s
  | quiet {e : Event α} {k : Nat} {call : Call α} (hquiet : Quiet n s e k call) :
      Effect n s e (s.setCall k call)
  | reserve {k : Nat} {data : α}
      (hcall : s.calls k = some (.push data (.reserve s.array.writeIndex))) :
      Effect n s (.run k) ({ s with
        array := { s.array with writeIndex := next s.array.writeIndex }
        reserved := s.reserved ++ [(k, data)] }.setCall k
          (.push data (.store s.array.writeIndex)))
  | store {k cw : Nat} {data : α} (hcall : s.calls k = some (.push data (.store cw))) :
      Effect n s (.run k) ({ s with array := { s.array with
        queue := Function.update s.array.queue (index n cw) data } }.setCall k
          (.push data (.publish cw)))
  | publish {k : Nat} {data : α}
      (hcall : s.calls k = some (.push data (.publish s.array.maxNumReadIndex))) :
      Effect n s (.run k) ({ s with
        array := { s.array with maxNumReadIndex := next s.array.maxNumReadIndex }
        published := s.published + 1 }.setCall k
          (.push data (.returned s.array.maxNumReadIndex true)))
  | commit {k : Nat} {data : α} {writeFirst : Bool}
      (hcall : s.calls k = some (.tryPop writeFirst (.commit s.array.readIndex data))) :
      Effect n s (.run k) ({ s with
        array := { s.array with readIndex := next s.array.readIndex }
        popped := s.popped ++ [(s.array.readIndex, data)] }.setCall k
          (.tryPop writeFirst (.returned true)))

theorem runPush_effect {n : Nat} {s : System α} {k : Nat} {data : α} {pc : PushPc}
    (hcall : s.calls k = some (.push data pc)) : Effect n s (.run k) (runPush n s k data pc) := by
  cases pc with
  | loadWrite => exact .quiet (.loadWrite hcall)
  | loadRead cw =>
      simp only [runPush]
      split
      · rename_i hfull
        exact .quiet (.full hcall hfull)
      · rename_i hfree
        exact .quiet (.free hcall hfree)
  | reserve cw =>
      simp only [runPush]
      split
      · rename_i hcas
        subst hcas
        exact .reserve hcall
      · exact .quiet (.retry hcall)
  | store cw => exact .store hcall
  | publish cw =>
      simp only [runPush]
      split
      · rename_i hcas
        subst hcas
        exact .publish hcall
      · exact .idle
  | returned cw ok => exact .idle

theorem runPop_effect {n : Nat} {s : System α} {k : Nat} {writeFirst : Bool} {pc : PopPc α}
    (hcall : s.calls k = some (.tryPop writeFirst pc)) :
    Effect n s (.run k) (runPop n s k writeFirst pc) := by
  cases pc with
  | testFirst => exact .quiet (.testFirst hcall)
  | testSecond seen =>
      simp only [runPop]
      generalize (if writeFirst = true then s.array.readIndex else s.array.writeIndex) = other
      split
      · exact .quiet (.foundEmpty hcall)
      · exact .quiet (.foundElement hcall)
  | loadRead => exact .quiet (.loadRead hcall)
  | readSlot cr => exact .quiet (.readSlot hcall)
  | commit cr data =>
      simp only [runPop]
      split
      · rename_i hcas
        subst hcas
        exact .commit hcall
      · exact .quiet (.lost hcall)
  | returned ok => exact .idle

theorem step_effect (n : Nat) (s : System α) (e : Event α) : Effect n s e (step n s e) := by
  cases e with
  | push k data =>
      simp only [step]
      split
      · rename_i hcall
        exact .quiet (.beginPush hcall)
      · exact .idle
  | tryPop k writeFirst =>
      simp only [step]
      split
      · rename_i hcall
        exact .quiet (.beginPop hcall)
      · exact .idle
  | run k =>
      simp only [step]
      split
      · exact .idle
      · rename_i data pc hcall
        exact runPush_effect hcall
      · rename_i writeFirst pc hcall
        exact runPop_effect hcall

structure Counted (s : System α) : Prop where
  write : s.array.writeIndex = s.reserved.length % sizeT
  published : s.array.maxNumReadIndex = s.published % sizeT
  read : s.array.readIndex = s.popped.length % sizeT
  popped : ∀ j x, s.popped[j]? = some x → x.1 = j % sizeT

theorem counted_create (queue : Nat → α) : Counted (System.create queue) where
  write := rfl
  published := rfl
  read := rfl
  popped j x h := by cases h

theorem next_mod (count : Nat) : next (count % sizeT) = (count + 1) % sizeT :=
  Nat.mod_add_mod count sizeT 1

theorem counted_step {s : System α} (h : Counted s) (n : Nat) (e : Event α) :
    Counted (step n s e) := by
  have heffect := step_effect n s e
  generalize step n s e = s' at heffect
  cases heffect with
  | idle => exact h
  | quiet hquiet => exact ⟨h.write, h.published, h.read, h.popped⟩
  | reserve hcall =>
      refine ⟨?_, h.published, h.read, h.popped⟩
      simp only [System.setCall, List.length_append, List.length_singleton]
      rw [h.write, next_mod]
  | store hcall => exact ⟨h.write, h.published, h.read, h.popped⟩
  | publish hcall =>
      refine ⟨h.write, ?_, h.read, h.popped⟩
      simp only [System.setCall]
      rw [h.published, next_mod]
  | commit hcall =>
      refine ⟨h.write, h.published, ?_, ?_⟩
      · simp only [System.setCall, List.length_append, List.length_singleton]
        rw [h.read, next_mod]
      · intro j x hx
        simp only [System.setCall] at hx
        rcases Nat.lt_or_ge j s.popped.length with hlt | hge
        · rw [List.getElem?_append_left hlt] at hx
          exact h.popped j x hx
        · rw [List.getElem?_append_right hge, List.getElem?_singleton] at hx
          split at hx
          · rename_i hzero
            have hj : j = s.popped.length := by omega
            cases hx
            rw [h.read, hj]
          · cases hx

theorem reserved_length_step (n : Nat) (s : System α) (e : Event α) :
    (step n s e).reserved.length ≤ s.reserved.length + 1 := by
  have heffect := step_effect n s e
  generalize step n s e = s' at heffect
  cases heffect with
  | reserve hcall => simp [System.setCall]
  | _ => simp [System.setCall]

end NetTest.LockFree
