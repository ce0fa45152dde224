import Mathlib.Data.List.Count
import NetTest.Core.NetIo
import NetTest.Lib.Runs

/-!
# Who closes a descriptor

A `net_io` gets descriptors from `create` and gives them back through `close`,
which `terminate` calls from the second time on and the destructor through
`terminate`.  All of them end in the same test, and on Linux that test lets only
negative descriptors through to `::close`.
-/

namespace NetTest.Descriptors

inductive Op where
  | create (fd : Int)
  | connect (failure : Option Int)
  | close
  | terminate (now : Nat)

/-- The object, what `create` has returned and what was passed to `::close`. -/
structure Owner where
  io : NetIo
  created : List Int
  closed : List Int

namespace Owner

def new (disconnCb : Bool) : Owner := ⟨.new disconnCb, [], []⟩

def create (o : Owner) (fd : Int) : Owner :=
  { o with io := o.io.create fd, created := o.created ++ [fd] }

/-- `::close` is called in the same branch that resets the descriptor. -/
def close (o : Owner) : Owner :=
  { o with io := o.io.close, closed := o.closed ++ if o.io.fd < 0 then [o.io.fd] else [] }

/-- Leaving the loop changes neither the descriptor nor the break time, so the
call of `close` sees them as they were. -/
def terminate (o : Owner) (now : Nat) : Owner :=
  { o with
    io := o.io.terminate now
    closed := o.closed ++ if o.io.brkTm ≠ 0 ∧ o.io.fd < 0 then [o.io.fd] else [] }

def step (o : Owner) : Op → Owner
  | .create fd => o.create fd
  | .connect failure => { o with io := o.io.connect failure }
  | .close => o.close
  | .terminate now => o.terminate now

def run (o : Owner) (ops : List Op) : Owner := ops.foldl step o

/-- `~net_io`. -/
def destroy (o : Owner) (now : Nat) : Owner := o.terminate now

end Owner

def ClosesBeforeCreate (disconnCb : Bool) (ops : List Op) : Prop :=
  ∀ before fd after, ops = before ++ .create fd :: after →
    0 ≤ ((Owner.new disconnCb).run before).io.fd → before.getLast? = some .close

def EachClosedOnce (o : Owner) : Prop := ∀ fd, 0 ≤ fd → o.closed.count fd = o.created.count fd

/-! ## What reaches `::close` -/

theorem closed_step (o : Owner) (op : Op) :
    (o.step op).closed = o.closed ∨ o.io.fd < 0 ∧ (o.step op).closed = o.closed ++ [o.io.fd] := by
  cases op with
  | create fd => exact .inl rfl
  | connect failure => exact .inl rfl
  | close =>
      by_cases hneg : o.io.fd < 0
      · exact .inr ⟨hneg, by simp [Owner.step, Owner.close, hneg]⟩
      · exact .inl (by simp [Owner.step, Owner.close, hneg])
  | terminate now =>
      by_cases hneg : o.io.brkTm ≠ 0 ∧ o.io.fd < 0
      · exact .inr ⟨hneg.2, by simp [Owner.step, Owner.terminate, hneg]⟩
      · exact .inl (by simp [Owner.step, Owner.terminate, hneg])

theorem created_step (o : Owner) (op : Op) :
    (o.step op).created = o.created ++ (match op with | .create fd => [fd] | _ => []) := by
  cases op with
  | create fd => rfl
  | connect failure => exact (List.append_nil _).symm
  | close => exact (List.append_nil _).symm
  | terminate now => exact (List.append_nil _).symm

theorem closed_neg_step {o : Owner} (h : ∀ fd ∈ o.closed, fd < 0) (op : Op) :
    ∀ fd ∈ (o.step op).closed, fd < 0 := by
  rcases closed_step o op with heq | ⟨hneg, heq⟩
  · rw [heq]
    exact h
  · rw [heq]
    intro fd hfd
    rcases List.mem_append.mp hfd with hfd | hfd
    · exact h fd hfd
    · rw [List.mem_singleton.mp hfd]
      exact hneg

theorem mem_created_run {o : Owner} {ops : List Op} {fd : Int} :
    fd ∈ (o.run ops).created ↔ fd ∈ o.created ∨ .create fd ∈ ops := by
  induction ops generalizing o with
  | nil => simp [Owner.run]
  | cons op ops ih =>
      have hstep : o.run (op :: ops) = (o.step op).run ops := rfl
      rw [hstep, ih, created_step, List.mem_append, List.mem_cons, or_assoc]
      cases op with
      | create fd' => simp
      | connect failure => simp
      | close => simp
      | terminate now => simp

/-- Whatever the order of the calls, the descriptors of an object are closed
only when it was given none. -/
theorem descriptors_closed_iff (disconnCb : Bool) (ops : List Op) (now : Nat) :
    EachClosedOnce (((Owner.new disconnCb).run ops).destroy now) ↔
      ∀ fd, .create fd ∈ ops → fd < 0 := by
  -- the destructor is one more `terminate`
  have hrun : ((Owner.new disconnCb).run ops).destroy now =
      (Owner.new disconnCb).run (ops ++ [.terminate now]) := by
    simp [Owner.run, Owner.destroy, Owner.step]
  have hclosed : ∀ fd ∈ (((Owner.new disconnCb).run ops).destroy now).closed, fd < 0 := by
    rw [hrun]
    refine Runs.foldl_of_step (P := fun o : Owner => ∀ fd ∈ o.closed, fd < 0)
      (fun _ op h => closed_neg_step h op) ?_ (ops ++ [.terminate now])
    exact fun _ h => absurd h List.not_mem_nil
  have hcreated : ∀ fd, fd ∈ (((Owner.new disconnCb).run ops).destroy now).created ↔
      .create fd ∈ ops := by
    intro fd
    rw [hrun, mem_created_run]
    simp [Owner.new]
  have hcount : ∀ fd, 0 ≤ fd → (((Owner.new disconnCb).run ops).destroy now).closed.count fd = 0 := by
    intro fd hfd
    rw [List.count_eq_zero]
    intro hmem
    have := hclosed fd hmem
    omega
  constructor
  · intro h fd hmem
    by_contra hneg
    have hfd : 0 ≤ fd := by omega
    have hzero := h fd hfd
    rw [hcount fd hfd] at hzero
    exact List.count_eq_zero.mp hzero.symm ((hcreated fd).mpr hmem)
  · intro h fd hfd
    rw [hcount fd hfd, eq_comm, List.count_eq_zero, hcreated]
    intro hmem
    have := h fd hmem
    omega

/-- One socket, closed by hand and terminated: every call leaves it open. -/
theorem descriptor_leaks :
    ClosesBeforeCreate true [.create 3, .close, .terminate 1] ∧
      (((Owner.new true).run [.create 3, .close, .terminate 1]).destroy 2).closed = [] ∧
      ¬ EachClosedOnce (((Owner.new true).run [.create 3, .close, .terminate 1]).destroy 2) := by
  refine ⟨?_, rfl, ?_⟩
  · intro before fd after heq hheld
    cases before with
    | nil => exact absurd hheld (by decide)
    | cons op before =>
        rw [List.cons_append, List.cons.injEq] at heq
        have hmem : Op.create fd ∈ [Op.close, .terminate 1] := by
          rw [heq.2]
          simp
        simp at hmem
  · intro h
    exact absurd (h 3 (by decide)) (by decide)

end NetTest.Descriptors
