import Mathlib.Data.List.DropRight
import Mathlib.Logic.Function.Basic

/-!
# First-writer-wins mailboxes

One box for each key.  `put` fills an empty box and leaves a full one alone,
`take` empties the box and returns what was in it.  The log of a run holds every
operation with its outcome; it alone decides what the next `take` returns, and
for each key only the operations on that key matter.
-/

namespace NetTest.Mailbox

variable {K V : Type*} [DecidableEq K]

inductive Op (K V : Type*) where
  | put (key : K) (value : V)
  | take (key : K)

def Op.key : Op K V → K
  | .put key _ => key
  | .take key => key

/-- An operation with what it returned; a `put` returns nothing. -/
abbrev Log (K V : Type*) := List (Op K V × Option V)

structure State (K V : Type*) where
  box : K → Option V
  log : Log K V

def State.empty : State K V := ⟨fun _ => none, []⟩

def outcome (box : K → Option V) : Op K V → Option V
  | .put _ _ => none
  | .take key => box key

def boxAfter (box : K → Option V) : Op K V → K → Option V
  | .put key value => Function.update box key ((box key).or (some value))
  | .take key => Function.update box key none

def step (s : State K V) (op : Op K V) : State K V :=
  ⟨boxAfter s.box op, s.log ++ [(op, outcome s.box op)]⟩

def run (ops : List (Op K V)) : State K V := ops.foldl step State.empty

theorem run_append (ops : List (Op K V)) (op : Op K V) :
    run (ops ++ [op]) = step (run ops) op := by
  simp [run]

theorem log_run (ops : List (Op K V)) : (run ops).log.map Prod.fst = ops := by
  induction ops using List.reverseRecOn with
  | nil => rfl
  | append_singleton ops op ih => simp [run_append, step, ih]

/-! ## What the log says -/

def delivers (key : K) (entry : Op K V × Option V) : Bool :=
  match entry.1 with
  | .put _ _ => false
  | .take key' => key' = key && entry.2.isSome

/-- The log since the last value was taken from the box. -/
def sinceDelivery (key : K) (log : Log K V) : Log K V :=
  log.rtakeWhile fun entry => !delivers key entry

def putValue (key : K) (entry : Op K V × Option V) : Option V :=
  match entry.1 with
  | .put key' value => if key' = key then some value else none
  | .take _ => none

/-- The first value put into the box since then. -/
def pending (key : K) (log : Log K V) : Option V :=
  (sinceDelivery key log).findSome? (putValue key)

theorem pending_append (key : K) (log : Log K V) (entry : Op K V × Option V) :
    pending key (log ++ [entry]) =
      if delivers key entry then none else (pending key log).or (putValue key entry) := by
  unfold pending sinceDelivery
  by_cases hdelivers : delivers key entry = true
  · rw [if_pos hdelivers, List.rtakeWhile_concat_neg _ _ _ (by simp [hdelivers])]
    rfl
  · rw [if_neg hdelivers, List.rtakeWhile_concat_pos _ _ _ (by simp [hdelivers]),
      List.findSome?_append]
    congr 1
    rw [List.findSome?_cons, List.findSome?_nil]
    cases putValue key entry with
    | none => rfl
    | some value => rfl

theorem box_run (ops : List (Op K V)) (key : K) :
    (run ops).box key = pending key (run ops).log := by
  induction ops using List.reverseRecOn with
  | nil => rfl
  | append_singleton ops op ih =>
      rw [run_append, step, pending_append]
      cases op with
      | put key' value =>
          by_cases hkey : key' = key
          · subst hkey
            simp [boxAfter, delivers, putValue, ih]
          · simp [boxAfter, delivers, putValue, Function.update_of_ne (Ne.symm hkey), hkey, ih]
      | take key' =>
          by_cases hkey : key' = key
          · subst hkey
            cases hbox : (run ops).box key' with
            | none => simp [boxAfter, delivers, putValue, outcome, hbox, ← ih]
            | some value => simp [boxAfter, delivers, outcome, hbox]
          · simp [boxAfter, delivers, putValue, Function.update_of_ne (Ne.symm hkey), hkey, ih]

/-- Every `take` in the log returned what was pending in the log before it. -/
theorem take_run (ops : List (Op K V)) {before after : Log K V} {key : K} {out : Option V}
    (h : (run ops).log = before ++ (.take key, out) :: after) : out = pending key before := by
  induction ops using List.reverseRecOn generalizing after with
  | nil => simp [run, State.empty] at h
  | append_singleton ops op ih =>
      rw [run_append, step] at h
      cases after using List.reverseRecOn with
      | nil =>
          obtain ⟨hlog, hlast⟩ := List.append_inj' h rfl
          rw [List.singleton_inj, Prod.mk.injEq] at hlast
          rw [← hlast.2, hlast.1, ← hlog, ← box_run]
          rfl
      | append_singleton after last =>
          have hsplit : before ++ (.take key, out) :: (after ++ [last]) =
              (before ++ (.take key, out) :: after) ++ [last] := by
            simp
          rw [hsplit] at h
          exact ih (List.append_inj' h rfl).1

/-- Operations on other keys change nothing for a key. -/
theorem run_filter (ops : List (Op K V)) (key : K) :
    (run (ops.filter fun op => op.key = key)).box key = (run ops).box key ∧
      (run (ops.filter fun op => op.key = key)).log =
        (run ops).log.filter fun entry => entry.1.key = key := by
  induction ops using List.reverseRecOn with
  | nil => exact ⟨rfl, rfl⟩
  | append_singleton ops op ih =>
      obtain ⟨hbox, hlog⟩ := ih
      rw [run_append, List.filter_append]
      by_cases hkey : op.key = key
      · rw [List.filter_cons_of_pos (by simpa using hkey), List.filter_nil, run_append]
        constructor
        · cases op with
          | put key' value =>
              have hkey' : key' = key := hkey
              simp [step, boxAfter, hkey', hbox]
          | take key' =>
              have hkey' : key' = key := hkey
              simp [step, boxAfter, hkey']
        · have houtcome : outcome (run (ops.filter fun op => op.key = key)).box op =
              outcome (run ops).box op := by
            cases op with
            | put key' value => rfl
            | take key' =>
                have hkey' : key' = key := hkey
                rw [outcome, outcome, hkey', hbox]
          simp [step, hlog, hkey, houtcome]
      · rw [List.filter_cons_of_neg (by simpa using hkey), List.filter_nil, List.append_nil]
        constructor
        · rw [hbox]
          cases op with
          | put key' value =>
              have hkey' : key ≠ key' := Ne.symm hkey
              simp [step, boxAfter, Function.update_of_ne hkey']
          | take key' =>
              have hkey' : key ≠ key' := Ne.symm hkey
              simp [step, boxAfter, Function.update_of_ne hkey']
        · simp [step, hlog, hkey]

end NetTest.Mailbox
