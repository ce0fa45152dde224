import NetTest.Basic.LockFreeArray.Producers
import NetTest.Lib.Runs

/-!
# Publication

Among themselves the producers are right: what lies below `max_num_read_index`
is stored, and reservations are published in order.  The consumer does not look
at that counter.  Its test for emptiness compares with the write counter, so it
can read a slot that is reserved and not yet written.
-/

namespace NetTest.LockFree

open Runs Wrapping

variable {α : Type*}

/-! ## Only producers -/

def OnlyPushes : Event α → Prop
  | .tryPop _ _ => False
  | _ => True

/-- What holds of the counters, the slots and the pushes of a fresh array while
nobody pops. -/
structure ProducersAgree (n : Nat) (s : System α) : Prop where
  published_le : s.array.maxNumReadIndex ≤ s.array.writeIndex
  write_le : s.array.writeIndex ≤ n - 1
  reserved_once : ∀ i, i < s.array.writeIndex →
    ∃! k, ∃ data pc, s.calls k = some (.push data pc) ∧ pc.reserved = some i
  stored : ∀ i, i < s.array.maxNumReadIndex → ∀ k data pc, s.calls k = some (.push data pc) →
    pc.reserved = some i → s.array.queue (index n i) = data
  accepted : ∀ k data cw, s.calls k = some (.push data (.returned cw true)) →
    cw < s.array.maxNumReadIndex
  refused : ∀ k data cw, s.calls k = some (.push data (.returned cw false)) →
    s.array.writeIndex = n - 1

structure Producing (n : Nat) (s : System α) : Prop where
  staged : Staged n s
  fresh : Fresh n s
  noPops : ∀ k writeFirst pc, s.calls k ≠ some (.tryPop writeFirst pc)
  nothing : s.popped = []
  refused : ∀ k data cw, s.calls k = some (.push data (.returned cw false)) →
    s.reserved.length + 1 = n

namespace Producing

variable {m : Nat} {s : System α}

theorem short (hm : m ≤ 63) (h : Producing (2 ^ m) s) : s.reserved.length < sizeT := by
  have hroom := h.staged.room
  have hsize := two_pow_lt_sizeT hm
  rw [h.nothing, List.length_nil] at hroom
  omega

theorem write_eq (hm : m ≤ 63) (h : Producing (2 ^ m) s) :
    s.array.writeIndex = s.reserved.length := by
  rw [h.staged.counted.write, Nat.mod_eq_of_lt (h.short hm)]

theorem published_eq (hm : m ≤ 63) (h : Producing (2 ^ m) s) :
    s.array.maxNumReadIndex = s.published := by
  have hle := h.staged.published_le
  have hshort := h.short hm
  rw [h.staged.counted.published, Nat.mod_eq_of_lt (by omega)]

theorem reserved_iff (hm : m ≤ 63) (h : Producing (2 ^ m) s) {i k : Nat} :
    (∃ data pc, s.calls k = some (.push data pc) ∧ pc.reserved = some i) ↔
      ∃ data, s.reserved[i]? = some (k, data) := by
  have hshort := h.short hm
  constructor
  · intro hex
    rcases hex with ⟨data, pc, hcall, hpc⟩
    rcases h.staged.stage_of_call hcall (by rw [hpc]; simp) with ⟨j, hj, hstage⟩
    have hjlt := Staged.position_lt hj
    rw [hstage.reserved_eq, Option.some.injEq, Nat.mod_eq_of_lt (by omega)] at hpc
    subst hpc
    exact ⟨data, hj⟩
  · intro hex
    rcases hex with ⟨data, hi⟩
    have hilt := Staged.position_lt hi
    rcases h.staged.stage i k data hi with ⟨pc, hcall, hstage⟩
    refine ⟨data, pc, hcall, ?_⟩
    rw [hstage.reserved_eq, Nat.mod_eq_of_lt (by omega)]

theorem agree (hm : m ≤ 63) (h : Producing (2 ^ m) s) : ProducersAgree (2 ^ m) s where
  published_le := by
    rw [h.published_eq hm, h.write_eq hm]
    exact h.staged.published_le
  write_le := by
    have hroom := h.staged.room
    rw [h.nothing, List.length_nil] at hroom
    rw [h.write_eq hm]
    omega
  reserved_once i hi := by
    rw [h.write_eq hm] at hi
    refine ⟨(s.reserved[i]).1, (h.reserved_iff hm).mpr ⟨(s.reserved[i]).2, ?_⟩, ?_⟩
    · rw [List.getElem?_eq_getElem hi]
    · intro k hk
      rcases (h.reserved_iff hm).mp hk with ⟨data, hdata⟩
      rw [List.getElem?_eq_getElem hi, Option.some.injEq] at hdata
      rw [hdata]
  stored i hi k data pc hcall hpc := by
    have hshort := h.short hm
    have hsize : 2 ^ m ∣ sizeT := two_pow_dvd_sizeT hm
    rw [h.published_eq hm] at hi
    rcases h.staged.stage_of_call hcall (by rw [hpc]; simp) with ⟨j, hj, hstage⟩
    have hjlt := Staged.position_lt hj
    rw [hstage.reserved_eq, Option.some.injEq, Nat.mod_eq_of_lt (by omega)] at hpc
    subst hpc
    rw [index_two_pow]
    cases pc with
    | store cw => exact absurd hstage.2 (Nat.not_le.mpr hi)
    | publish cw => exact hstage.2.2
    | returned cw ok =>
        cases ok with
        | true => exact hstage.2.2 (by rw [h.nothing]; exact Nat.zero_le _)
        | false => exact hstage.elim
    | _ => exact hstage.elim
  accepted k data cw hcall := by
    have hshort := h.short hm
    rcases h.staged.stage_of_call hcall (by simp [PushPc.reserved]) with ⟨j, hj, hcw, hlt, _⟩
    have hjlt := Staged.position_lt hj
    rw [Nat.mod_eq_of_lt (by omega)] at hcw
    rw [h.published_eq hm, hcw]
    exact hlt
  refused k data cw hcall := by
    have hlen := h.refused k data cw hcall
    rw [h.write_eq hm]
    omega

theorem moved (h : Producing (2 ^ m) s) {e : Event α} (he : OnlyPushes e) {k : Nat}
    {call : Call α} (hquiet : Quiet (2 ^ m) s e k call) : ∃ data pc, call = .push data pc := by
  cases hquiet with
  | beginPop => exact he.elim
  | beginPush => exact ⟨_, _, rfl⟩
  | loadWrite => exact ⟨_, _, rfl⟩
  | full => exact ⟨_, _, rfl⟩
  | free => exact ⟨_, _, rfl⟩
  | retry => exact ⟨_, _, rfl⟩
  | testFirst hcall => exact absurd hcall (h.noPops _ _ _)
  | foundEmpty hcall => exact absurd hcall (h.noPops _ _ _)
  | foundElement hcall => exact absurd hcall (h.noPops _ _ _)
  | loadRead hcall => exact absurd hcall (h.noPops _ _ _)
  | readSlot hcall => exact absurd hcall (h.noPops _ _ _)
  | lost hcall => exact absurd hcall (h.noPops _ _ _)

theorem noPops_update (h : Producing (2 ^ m) s) (k : Nat) (data : α) (pc : PushPc) (k' : Nat)
    (writeFirst : Bool) (pc' : PopPc α) :
    Function.update s.calls k (some (.push data pc)) k' ≠ some (.tryPop writeFirst pc') := by
  by_cases hk : k' = k
  · subst hk
    rw [Function.update_self]
    simp
  · rw [Function.update_of_ne hk]
    exact h.noPops k' writeFirst pc'

/-- A push is refused when all but one of the slots are reserved. -/
theorem refused_of_full (hm : m ≤ 63) (h : Producing (2 ^ m) s) {k cw : Nat} {data : α}
    (hcall : s.calls k = some (.push data (.loadRead cw)))
    (hfull : index (2 ^ m) (next cw) = index (2 ^ m) s.array.readIndex) :
    s.reserved.length + 1 = 2 ^ m := by
  have hroom := h.staged.room
  have hfresh : cw ≤ s.reserved.length := h.fresh k data _ hcall
  rw [h.nothing, List.length_nil, Nat.zero_add] at hroom
  rw [index_two_pow, index_two_pow, h.staged.counted.read, h.nothing, next, mod_sizeT_mod hm,
    mod_sizeT_mod hm, List.length_nil, Nat.zero_mod] at hfull
  have hle := Nat.le_of_dvd (Nat.succ_pos cw) (Nat.dvd_of_mod_eq_zero hfull)
  omega

theorem refused_update (h : Producing (2 ^ m) s) {k : Nat} {call : Call α}
    (hnew : ∀ data cw, call = .push data (.returned cw false) → s.reserved.length + 1 = 2 ^ m)
    {k' cw : Nat} {data : α}
    (hcall : Function.update s.calls k (some call) k' = some (.push data (.returned cw false))) :
    s.reserved.length + 1 = 2 ^ m := by
  by_cases hk : k' = k
  · subst hk
    rw [Function.update_self, Option.some.injEq] at hcall
    exact hnew data cw hcall
  · rw [Function.update_of_ne hk] at hcall
    exact h.refused k' data cw hcall

theorem step (hm : m ≤ 63) (h : Producing (2 ^ m) s) {e : Event α} (he : OnlyPushes e) :
    Producing (2 ^ m) (LockFree.step (2 ^ m) s e) := by
  have hfree := reservesFree_of_fresh hm h.staged h.fresh (h.short hm) e
  have hstaged := staged_step hm h.staged hfree
    (fun k writeFirst cr data hcall => absurd hcall (h.noPops k writeFirst _))
  have hfresh := fresh_step hm h.staged h.fresh (h.short hm) e
  have heffect := step_effect (2 ^ m) s e
  generalize LockFree.step (2 ^ m) s e = s' at heffect hstaged hfresh
  cases heffect with
  | idle => exact h
  | quiet hquiet =>
      rcases h.moved he hquiet with ⟨data, pc, hpush⟩
      subst hpush
      refine ⟨hstaged, hfresh, h.noPops_update _ data pc, h.nothing, ?_⟩
      intro k' data' cw hcall'
      refine h.refused_update ?_ hcall'
      intro data' cw' heq
      cases heq
      cases hquiet with
      | full hcall hfull => exact h.refused_of_full hm hcall hfull
  | reserve hcall =>
      refine ⟨hstaged, hfresh, h.noPops_update _ _ _, h.nothing, ?_⟩
      intro k' data' cw hcall'
      -- a reservation is made only where nobody has been refused
      have hroom := hstaged.room
      simp only [System.setCall, h.nothing, List.length_nil, List.length_append,
        List.length_singleton] at hroom
      have hlen := h.refused_update (by intro _ _ heq; cases heq) hcall'
      omega
  | store hcall =>
      refine ⟨hstaged, hfresh, h.noPops_update _ _ _, h.nothing, ?_⟩
      intro k' data' cw hcall'
      exact h.refused_update (by intro _ _ heq; cases heq) hcall'
  | publish hcall =>
      refine ⟨hstaged, hfresh, h.noPops_update _ _ _, h.nothing, ?_⟩
      intro k' data' cw hcall'
      exact h.refused_update (by intro _ _ heq; cases heq) hcall'
  | commit hcall => exact absurd hcall (h.noPops _ _ _)

end Producing

theorem producing_create (m : Nat) (queue : Nat → α) :
    Producing (2 ^ m) (System.create queue) where
  staged := staged_create (Nat.two_pow_pos m) queue
  fresh k data pc h := by cases h
  noPops k writeFirst pc h := by cases h
  nothing := rfl
  refused k data cw h := by cases h

/-- Any number of pushes, in any interleaving, neither lose nor overwrite each
other's elements. -/
theorem producers_agree (m : Nat) (hm : m ≤ 63) (queue : Nat → α) (events : List (Event α))
    (hpushes : ∀ e ∈ events, OnlyPushes e) :
    Always (step (2 ^ m)) (ProducersAgree (2 ^ m)) (System.create queue) events := by
  have hguarded : Guarded (step (2 ^ m)) (fun _ e => OnlyPushes e) (System.create queue) events :=
    guarded_iff_mem.mpr hpushes
  have hinv : Always (step (2 ^ m)) (Producing (2 ^ m)) (System.create queue) events :=
    always_of_guarded (fun s e hs he => hs.step hm he) (producing_create m queue) hguarded
  exact hinv.mono fun s hs => hs.agree hm

/-- Two producers on two slots: the second one is refused. -/
theorem producers_agree_two :
    Always (step (2 ^ 1)) (ProducersAgree (2 ^ 1)) (System.create fun _ => (0 : Nat))
      [.push 0 7, .push 1 8, .run 0, .run 1, .run 0, .run 0, .run 1, .run 1, .run 1, .run 1] :=
  producers_agree 1 (by decide) (fun _ => 0) _ (by simp [OnlyPushes])

/-! ## One consumer -/

def PopPc.Active : PopPc α → Prop
  | .returned _ => False
  | _ => True

/-- A `try_pop` begins when no other is under way. -/
def SingleConsumer (s : System α) : Event α → Prop
  | .tryPop _ _ => ∀ k writeFirst pc, s.calls k = some (.tryPop writeFirst pc) → ¬ pc.Active
  | _ => True

/-- What was popped for a counter is the element of the push that reserved it,
which has stored and published it, and a slot is read only after its
publication. -/
structure ConsumesPublished (s : System α) : Prop where
  delivered : ∀ (j : Nat) x, s.popped[j]? = some x → x.1 = j % sizeT ∧
    ∃ k, s.reserved[j]? = some (k, x.2) ∧
      s.calls k = some (.push x.2 (.returned (j % sizeT) true))
  read : ∀ k writeFirst cr data, s.calls k = some (.tryPop writeFirst (.commit cr data)) →
    s.popped.length < s.published

/-- The consumer reads a slot only if there is one to read below
`max_num_read_index`. -/
def ReadsPublished (s : System α) : Event α → Prop
  | .run k => ∀ writeFirst cr, s.calls k = some (.tryPop writeFirst (.readSlot cr)) →
      s.array.readIndex ≠ s.array.maxNumReadIndex
  | _ => True

structure Consumer (s : System α) : Prop where
  single : ∀ k k' writeFirst writeFirst' pc pc', s.calls k = some (.tryPop writeFirst pc) →
    s.calls k' = some (.tryPop writeFirst' pc') → pc.Active → pc'.Active → k = k'
  slot : ∀ k writeFirst cr, s.calls k = some (.tryPop writeFirst (.readSlot cr)) →
    cr = s.popped.length % sizeT
  commit : ∀ k writeFirst cr data, s.calls k = some (.tryPop writeFirst (.commit cr data)) →
    s.popped.length < s.published ∧ ∃ k', s.reserved[s.popped.length]? = some (k', data)

theorem consumer_create (queue : Nat → α) : Consumer (System.create queue) where
  single k k' writeFirst writeFirst' pc pc' h := by cases h
  slot k writeFirst cr h := by cases h
  commit k writeFirst cr data h := by cases h

theorem Staged.returned {n : Nat} {s : System α} (h : Staged n s) {j : Nat}
    (hj : j < s.published) : ∃ k data, s.reserved[j]? = some (k, data) ∧
      s.calls k = some (.push data (.returned (j % sizeT) true)) ∧
      (s.popped.length ≤ j → s.array.queue (j % n) = data) := by
  have hlt : j < s.reserved.length := Nat.lt_of_lt_of_le hj h.published_le
  refine ⟨(s.reserved[j]).1, (s.reserved[j]).2, List.getElem?_eq_getElem hlt, ?_⟩
  rcases h.stage j _ _ (List.getElem?_eq_getElem hlt) with ⟨pc, hcall, hstage⟩
  cases pc with
  | store cw => exact absurd hstage.2 (Nat.not_le.mpr hj)
  | publish cw => exact absurd hstage.2.1 (Nat.not_le.mpr hj)
  | returned cw ok =>
      cases ok with
      | true =>
          rw [hstage.1] at hcall
          exact ⟨hcall, hstage.2.2⟩
      | false => exact hstage.elim
  | _ => exact hstage.elim

theorem consumesPublished {n : Nat} {s : System α} (h : Staged n s) (hc : Consumer s) :
    ConsumesPublished s where
  delivered j x hx := by
    have hlt : j < s.published :=
      Nat.lt_of_lt_of_le (List.getElem?_eq_some_iff.mp hx).1 h.popped_le
    refine ⟨h.counted.popped j x hx, ?_⟩
    rcases h.delivered j x hx with ⟨k, hk⟩
    rcases h.returned hlt with ⟨k', data, hk', hcall, _⟩
    rw [hk] at hk'
    cases hk'
    exact ⟨k, hk, hcall⟩
  read k writeFirst cr data hcall := (hc.commit k writeFirst cr data hcall).1

namespace Consumer

variable {m : Nat} {s s' : System α}

theorem of_push (h : Consumer s) {k : Nat} {data : α} {pc : PushPc}
    (hcalls : s'.calls = Function.update s.calls k (some (.push data pc)))
    (hpopped : s'.popped = s.popped) (hpublished : s.published ≤ s'.published)
    (hreserved : ∀ (j : Nat) x, s.reserved[j]? = some x → s'.reserved[j]? = some x) :
    Consumer s' := by
  have hold : ∀ k' writeFirst pc', s'.calls k' = some (.tryPop writeFirst pc') →
      s.calls k' = some (.tryPop writeFirst pc') := by
    intro k' writeFirst pc' hcall
    rw [hcalls] at hcall
    by_cases hk : k' = k
    · subst hk
      rw [Function.update_self] at hcall
      cases hcall
    · rw [Function.update_of_ne hk] at hcall
      exact hcall
  constructor
  · intro k₁ k₂ _ _ _ _ h₁ h₂ ha₁ ha₂
    exact h.single _ _ _ _ _ _ (hold _ _ _ h₁) (hold _ _ _ h₂) ha₁ ha₂
  · intro k' writeFirst cr hcall
    rw [hpopped]
    exact h.slot k' writeFirst cr (hold _ _ _ hcall)
  · intro k' writeFirst cr data' hcall
    rcases h.commit k' writeFirst cr data' (hold _ _ _ hcall) with ⟨hlt, k'', hk''⟩
    rw [hpopped]
    exact ⟨Nat.lt_of_lt_of_le hlt hpublished, k'', hreserved _ _ hk''⟩

theorem of_tryPop {k : Nat} {writeFirst : Bool} {pc : PopPc α}
    (halone : ∀ k' writeFirst' pc', k' ≠ k → s.calls k' = some (.tryPop writeFirst' pc') →
      ¬ pc'.Active)
    (hcalls : s'.calls = Function.update s.calls k (some (.tryPop writeFirst pc)))
    (hslot : ∀ cr, pc = .readSlot cr → cr = s'.popped.length % sizeT)
    (hcommit : ∀ cr data, pc = .commit cr data → s'.popped.length < s'.published ∧
      ∃ k', s'.reserved[s'.popped.length]? = some (k', data)) : Consumer s' := by
  have hactive : ∀ k' writeFirst' pc', s'.calls k' = some (.tryPop writeFirst' pc') → pc'.Active →
      k' = k ∧ pc' = pc := by
    intro k' writeFirst' pc' hcall ha
    rw [hcalls] at hcall
    by_cases hk : k' = k
    · subst hk
      rw [Function.update_self] at hcall
      cases hcall
      exact ⟨rfl, rfl⟩
    · rw [Function.update_of_ne hk] at hcall
      exact absurd ha (halone k' writeFirst' pc' hk hcall)
  constructor
  · intro k₁ k₂ _ _ _ _ h₁ h₂ ha₁ ha₂
    rw [(hactive _ _ _ h₁ ha₁).1, (hactive _ _ _ h₂ ha₂).1]
  · intro k' writeFirst' cr hcall
    exact hslot cr (hactive _ _ _ hcall trivial).2.symm
  · intro k' writeFirst' cr data hcall
    exact hcommit cr data (hactive _ _ _ hcall trivial).2.symm

/-- While a `try_pop` is under way it is the only one. -/
theorem alone (h : Consumer s) {k : Nat} {writeFirst : Bool} {pc : PopPc α}
    (hcall : s.calls k = some (.tryPop writeFirst pc)) (ha : pc.Active) (k' : Nat)
    (writeFirst' : Bool) (pc' : PopPc α) (hk : k' ≠ k)
    (hcall' : s.calls k' = some (.tryPop writeFirst' pc')) : ¬ pc'.Active := by
  intro ha'
  exact hk (h.single _ _ _ _ _ _ hcall' hcall ha' ha)

theorem read_published (hm : m ≤ 63) (hs : Staged (2 ^ m) s) {cr : Nat}
    (hcr : cr = s.popped.length % sizeT) (hne : s.array.readIndex ≠ s.array.maxNumReadIndex) :
    s.popped.length < s.published ∧
      ∃ k, s.reserved[s.popped.length]? = some (k, s.array.queue (index (2 ^ m) cr)) := by
  have hlt : s.popped.length < s.published := by
    refine Nat.lt_of_le_of_ne hs.popped_le fun heq => hne ?_
    rw [hs.counted.read, hs.counted.published, heq]
  rcases hs.returned hlt with ⟨k, data, hk, _, hqueue⟩
  refine ⟨hlt, k, ?_⟩
  rw [hcr, index_two_pow, mod_sizeT_mod hm, hqueue (Nat.le_refl _)]
  exact hk

theorem step_quiet (hm : m ≤ 63) (h : Consumer s) (hs : Staged (2 ^ m) s) {e : Event α} {k : Nat}
    {call : Call α} (hquiet : Quiet (2 ^ m) s e k call) (hsingle : SingleConsumer s e)
    (hread : ReadsPublished s e) : Consumer (s.setCall k call) := by
  have hpush : ∀ data pc, Consumer (s.setCall k (.push data pc)) := fun data pc =>
    h.of_push rfl rfl (Nat.le_refl _) (fun _ _ hx => hx)
  cases hquiet with
  | beginPush hcall => exact hpush _ _
  | loadWrite hcall => exact hpush _ _
  | full hcall hfull => exact hpush _ _
  | free hcall hfree => exact hpush _ _
  | retry hcall => exact hpush _ _
  | beginPop hcall =>
      refine of_tryPop (fun k' writeFirst' pc' _ hcall' => hsingle k' writeFirst' pc' hcall') rfl
        ?_ ?_
      · intro cr heq
        cases heq
      · intro cr data heq
        cases heq
  | loadRead hcall =>
      refine of_tryPop (h.alone hcall trivial) rfl ?_ ?_
      · intro cr heq
        cases heq
        exact hs.counted.read
      · intro cr data heq
        cases heq
  | readSlot hcall =>
      refine of_tryPop (h.alone hcall trivial) rfl ?_ ?_
      · intro cr heq
        cases heq
      · intro cr data heq
        cases heq
        exact read_published hm hs (h.slot _ _ _ hcall) (hread _ _ hcall)
  | testFirst hcall | foundEmpty hcall | foundElement hcall | lost hcall =>
      refine of_tryPop (h.alone hcall trivial) rfl ?_ ?_
      · intro cr heq
        cases heq
      · intro cr data heq
        cases heq

theorem step (hm : m ≤ 63) (h : Consumer s) (hs : Staged (2 ^ m) s) {e : Event α}
    (hsingle : SingleConsumer s e) (hread : ReadsPublished s e) :
    Consumer (LockFree.step (2 ^ m) s e) := by
  have heffect := step_effect (2 ^ m) s e
  generalize LockFree.step (2 ^ m) s e = s' at heffect
  cases heffect with
  | idle => exact h
  | quiet hquiet => exact h.step_quiet hm hs hquiet hsingle hread
  | reserve hcall =>
      exact h.of_push rfl rfl (Nat.le_refl _) (fun _ _ hx => Staged.getElem?_append_of_some hx)
  | store hcall => exact h.of_push rfl rfl (Nat.le_refl _) (fun _ _ hx => hx)
  | publish hcall => exact h.of_push rfl rfl (Nat.le_succ _) (fun _ _ hx => hx)
  | commit hcall =>
      refine of_tryPop (h.alone hcall trivial) rfl ?_ ?_
      · intro cr heq
        cases heq
      · intro cr data heq
        cases heq

end Consumer

theorem not_readsPublished {n : Nat} {s : System α} (hs : Staged n s)
    (hshort : s.reserved.length < sizeT) {e : Event α} (hbad : ¬ ReadsPublished s e) :
    ¬ ConsumesPublished (step n s e) := by
  cases e with
  | push k data => exact absurd trivial hbad
  | tryPop k writeFirst => exact absurd trivial hbad
  | run k =>
      simp only [ReadsPublished, not_forall, not_not] at hbad
      rcases hbad with ⟨writeFirst, cr, hcall, heq⟩
      have hpopped := hs.popped_le
      have hpublished := hs.published_le
      rw [hs.counted.read, hs.counted.published, Nat.mod_eq_of_lt (by omega),
        Nat.mod_eq_of_lt (by omega)] at heq
      intro hconsumes
      have hlt := hconsumes.read k writeFirst cr (s.array.queue (index n cr)) (by
        simp only [step, hcall, runPop, System.setCall_calls_self])
      simp only [step, hcall, runPop, System.setCall] at hlt
      omega

/-- With one consumer every pop delivers what the push with its counter was
given, provided that each slot read finds a published element and no reservation
is made on a full array.  The second condition takes care of itself in schedules
too short for a counter to go round, and there the first is also necessary. -/
theorem tryPop_consumes_published (m : Nat) (hm : m ≤ 63) (queue : Nat → α)
    (events : List (Event α))
    (hsingle : Guarded (step (2 ^ m)) SingleConsumer (System.create queue) events) :
    (Guarded (step (2 ^ m)) (fun s e => ReadsPublished s e ∧ ReservesFree (2 ^ m) s e)
        (System.create queue) events →
      Always (step (2 ^ m)) ConsumesPublished (System.create queue) events) ∧
    (events.length ≤ sizeT →
      (Always (step (2 ^ m)) ConsumesPublished (System.create queue) events ↔
        Guarded (step (2 ^ m)) ReadsPublished (System.create queue) events)) := by
  constructor
  · intro hok
    have hinv : Always (step (2 ^ m)) (fun s => Staged (2 ^ m) s ∧ Consumer s)
        (System.create queue) events :=
      always_of_guarded
        (fun s e hs he => ⟨staged_step hm hs.1 he.2.2 hs.2.commit, hs.2.step hm hs.1 he.1 he.2.1⟩)
        ⟨staged_create (Nat.two_pow_pos m) queue, consumer_create queue⟩
        (guarded_and.mpr ⟨hsingle, hok⟩)
    exact hinv.mono fun s hs => consumesPublished hs.1 hs.2
  · intro hshort
    have hlengths : Guarded (step (2 ^ m)) (fun s _ => s.reserved.length < sizeT)
        (System.create queue) events :=
      guarded_of_measure (fun s : System α => s.reserved.length) (reserved_length_step (2 ^ m))
        (by simpa [System.create] using hshort)
    refine always_iff_guarded
      (fun s : System α => Staged (2 ^ m) s ∧ Consumer s ∧ Fresh (2 ^ m) s)
      (fun s e => SingleConsumer s e ∧ s.reserved.length < sizeT) ?_ ?_ ?_
      ⟨staged_create (Nat.two_pow_pos m) queue, consumer_create queue, fun k data pc h => by cases h⟩
      (guarded_and.mpr ⟨hsingle, hlengths⟩)
    · intro s hs
      exact consumesPublished hs.1 hs.2.1
    · intro s e hs hlegal hread
      have hfree := reservesFree_of_fresh hm hs.1 hs.2.2 hlegal.2 e
      exact ⟨staged_step hm hs.1 hfree hs.2.1.commit, hs.2.1.step hm hs.1 hlegal.1 hread,
        fresh_step hm hs.1 hs.2.2 hlegal.2 e⟩
    · intro s e hs hlegal hbad
      exact not_readsPublished hs.1 hlegal.2 hbad

def earlyConsumer : List (Event Nat) :=
  [.push 0 7, .run 0, .run 0, .run 0,
    .tryPop 1 false, .run 1, .run 1, .run 1, .run 1, .run 1]

theorem earlyConsumer_single :
    Guarded (step (2 ^ 2)) SingleConsumer (System.create fun _ => 0) earlyConsumer := by
  refine ⟨trivial, trivial, trivial, trivial, ?_, trivial, trivial, trivial, trivial, trivial,
    trivial⟩
  intro k writeFirst pc hcall
  cases k with
  | zero =>
      have hpush : some (Call.push 7 (.store 0)) = some (.tryPop writeFirst pc) := hcall
      cases hpush
  | succ k =>
      have hnone : none = some (Call.tryPop writeFirst pc) := hcall
      cases hnone

theorem tryPop_consumes_early :
    ¬ Always (step (2 ^ 2)) ConsumesPublished (System.create fun _ => 0) earlyConsumer := by
  rw [(tryPop_consumes_published 2 (by decide) (fun _ => 0) earlyConsumer
    earlyConsumer_single).2 (by decide)]
  intro hread
  exact hread.2.2.2.2.2.2.2.2.1 false 0 rfl rfl

/-- The consumer gets the old content of the slot. -/
theorem tryPop_reads_reserved_slot :
    ¬ ∀ (m : Nat) (queue : Nat → Nat) (events : List (Event Nat)), m ≤ 63 →
      Guarded (step (2 ^ m)) SingleConsumer (System.create queue) events →
        Always (step (2 ^ m)) ConsumesPublished (System.create queue) events := by
  intro h
  have hconsumes := always_iff_prefixes.mp
    (h 2 (fun _ => 0) earlyConsumer (by decide) earlyConsumer_single) _ List.prefix_rfl
  rcases (hconsumes.delivered 0 (0, 0) rfl).2 with ⟨k, hk, _⟩
  have hreserved : some (0, 7) = some (k, 0) := hk
  simp at hreserved

end NetTest.LockFree
