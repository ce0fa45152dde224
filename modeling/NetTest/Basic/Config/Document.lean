import Mathlib.Algebra.Group.Nat.Defs
import NetTest.Basic.Config.Lines
import NetTest.Lib.Paths

/-!
# Changing a document

`ConfigNode` is changed through chains of `operator[]`, by name and by index, which
make every node on the way an object or an array, whatever it was before.  What a
document holds after any such changes is what its tree holds after updates at paths.
-/

namespace NetTest.Config

open Paths

/-- The argument of an `operator[]`. -/
inductive Step where
  | key (k : Str)
  | index (i : Nat)
  deriving DecidableEq

inductive Shape where
  | object
  | array
  deriving DecidableEq

def Step.kind : Step → Shape
  | key _ => .object
  | index _ => .array

/-- The size that the index asks for is a `size_t`. -/
def Step.Bounded : Step → Prop
  | key _ => True
  | index i => i + 1 < 2 ^ 64

instance : ∀ step : Step, Decidable step.Bounded
  | .key _ => inferInstanceAs (Decidable True)
  | .index i => inferInstanceAs (Decidable (i + 1 < 2 ^ 64))

namespace ConfigNode

def shape : ConfigNode → Option Shape
  | .value _ => none
  | .object _ => some .object
  | .array _ => some .array

/-- The elements that `operator[]` starts from; a node that is no array becomes an
empty one. -/
def elements : ConfigNode → List ConfigNode
  | .array e => e
  | .value _ => []
  | .object _ => []

/-- `node[key]` or `node[index]`, read. -/
def child (node : ConfigNode) : Step → ConfigNode
  | .key k => node.get k
  | .index i => (node.elements[i]?).getD fresh

/-- `std::vector::resize`. -/
def resize (elements : List ConfigNode) (n : Nat) : List ConfigNode :=
  elements.take n ++ List.replicate (n - elements.length) fresh

/-- `arr.resize(index + 1)` where the index lies behind the end. -/
def resized (elements : List ConfigNode) (i : Nat) : List ConfigNode :=
  if elements.length ≤ i then resize elements ((i + 1) % 2 ^ 64) else elements

/-- `node[key] = c` or `node[index] = c`.  Where `index + 1` is zero there is no
element behind the reference that is written to; nothing is claimed of that. -/
def put (node : ConfigNode) (step : Step) (c : ConfigNode) : ConfigNode :=
  match step with
  | .key k => node.set k c
  | .index i => .array ((resized node.elements i).set i c)

theorem resized_eq {i : Nat} (hi : i + 1 < 2 ^ 64) (elements : List ConfigNode) :
    resized elements i = elements ++ List.replicate (i + 1 - elements.length) fresh := by
  unfold resized resize
  rw [Nat.mod_eq_of_lt hi]
  split
  · rw [List.take_of_length_le (by omega)]
  · rw [show i + 1 - elements.length = 0 by omega, List.replicate_zero, List.append_nil]

theorem length_resized {i : Nat} (hi : i + 1 < 2 ^ 64) (elements : List ConfigNode) :
    i < (resized elements i).length := by
  rw [resized_eq hi, List.length_append, List.length_replicate]
  omega

theorem getD_resized {i : Nat} (hi : i + 1 < 2 ^ 64) (elements : List ConfigNode) (j : Nat) :
    ((resized elements i)[j]?).getD fresh = (elements[j]?).getD fresh := by
  rw [resized_eq hi]
  by_cases hj : j < elements.length
  · rw [List.getElem?_append_left hj]
  · rw [List.getElem?_append_right (by omega), List.getElem?_replicate,
      List.getElem?_eq_none (by omega : elements.length ≤ j)]
    split <;> rfl

theorem get_set_of_ne (node : ConfigNode) {k k' : Str} (h : k' ≠ k) (c : ConfigNode) :
    (node.set k c).get k' = node.get k' := by
  rw [get, get, find_set_of_ne node h]

theorem elements_of_shape {node : ConfigNode} (h : node.shape ≠ some .array) :
    node.elements = [] := by
  cases node with
  | value v => rfl
  | object m => rfl
  | array e => exact absurd rfl h

theorem members_of_shape {node : ConfigNode} (h : node.shape ≠ some .object) :
    node.members = [] := by
  cases node with
  | value v => rfl
  | object m => exact absurd rfl h
  | array e => rfl

theorem child_of_shape (node : ConfigNode) (step : Step) (h : node.shape ≠ some step.kind) :
    node.child step = fresh := by
  cases step with
  | key k =>
      rw [child, get, find, members_of_shape h]
      rfl
  | index i =>
      rw [child, elements_of_shape h]
      rfl

theorem shape_put (node : ConfigNode) (step : Step) (c : ConfigNode) :
    (node.put step c).shape = some step.kind := by
  cases step <;> rfl

theorem child_put_self (node : ConfigNode) {step : Step} (hstep : step.Bounded) (c : ConfigNode) :
    (node.put step c).child step = c := by
  cases step with
  | key k => rw [child, put, get, find_set_self, Option.getD_some]
  | index i =>
      have helements : (node.put (.index i) c).elements = (resized node.elements i).set i c := rfl
      rw [child, helements, List.getElem?_set_self (length_resized hstep node.elements),
        Option.getD_some]

theorem child_put_of_kind (node : ConfigNode) {step other : Step} (hstep : step.Bounded)
    (hne : other ≠ step) (hkind : other.kind = step.kind) (c : ConfigNode) :
    (node.put step c).child other = node.child other := by
  cases step with
  | key k =>
      cases other with
      | key k' => exact get_set_of_ne node (fun heq => hne (congrArg Step.key heq)) c
      | index j => cases hkind
  | index i =>
      cases other with
      | key k => cases hkind
      | index j =>
          have hj : i ≠ j := fun heq => hne (congrArg Step.index heq.symm)
          have helements : (node.put (.index i) c).elements =
            (resized node.elements i).set i c := rfl
          rw [child, helements, List.getElem?_set_ne hj, getD_resized hstep, child]

/-- Documents are trees that are reached by keys and indices. -/
def tree : Tree ConfigNode Step Shape where
  empty := fresh
  kind := Step.kind
  shape := shape
  child := child
  put := put
  Ok := Step.Bounded
  shape_empty := rfl
  child_of_shape := child_of_shape
  child_put_self node _ c hstep := child_put_self node hstep c
  child_put_of_ne node step c other hstep hne := by
    by_cases hkind : other.kind = step.kind
    · rw [child_put_of_kind node hstep hne hkind]
      split
      · rfl
      · rename_i hshape
        exact child_of_shape node other (hkind ▸ hshape)
    · have hput : (node.put step c).shape ≠ some other.kind := by
        rw [shape_put]
        exact fun heq => hkind (Option.some.inj heq).symm
      rw [child_of_shape _ other hput]
      split
      · rename_i hshape
        have hnode : node.shape ≠ some other.kind := by
          rw [hshape]
          exact fun heq => hkind (Option.some.inj heq).symm
        rw [child_of_shape node other hnode]
      · rfl

def read (node : ConfigNode) (path : List Step) : ConfigNode := tree.read node path

/-! ## What is done to a node -/

def setValue (v : Value) (_ : ConfigNode) : ConfigNode := .value v

/-- `insert(key, value)` and `set(key, value)`, which have the same body. -/
def setKey (k : Str) (v : Value) (node : ConfigNode) : ConfigNode :=
  let node := node.set k fresh
  node.set k ((node.get k).setValue v)

def setIndex (i : Nat) (v : Value) (node : ConfigNode) : ConfigNode :=
  let arr := resized node.elements i
  .array (arr.modify i (setValue v))

def append (v : Value) (node : ConfigNode) : ConfigNode :=
  let arr := node.elements ++ [fresh]
  .array (arr.modify (arr.length - 1) (setValue v))

def clear : ConfigNode → ConfigNode
  | .object _ => .object []
  | .array _ => .array []
  | .value _ => fresh

def arraySize (node : ConfigNode) : Nat := node.elements.length

end ConfigNode

/-! ## Changes of a document -/

/-- A call on the node behind a chain of `operator[]`. -/
inductive Change where
  | setValue (v : Value)
  | insert (k : Str) (v : Value)
  | setKey (k : Str) (v : Value)
  | setIndex (i : Nat) (v : Value)
  | append (v : Value)
  | clear
  | reset

def Change.act : Change → ConfigNode → ConfigNode
  | setValue v => ConfigNode.setValue v
  | insert k v => ConfigNode.setKey k v
  | setKey k v => ConfigNode.setKey k v
  | setIndex i v => ConfigNode.setIndex i v
  | append v => ConfigNode.append v
  | clear => ConfigNode.clear
  | reset => fun _ => .fresh

namespace ConfigNode

theorem setKey_eq_put (k : Str) (v : Value) (node : ConfigNode) :
    node.setKey k v = node.put (.key k) (.value v) := by
  have htwice : ∀ (m : List (Str × ConfigNode)) (c d : ConfigNode),
      AssocList.assign k d (AssocList.assign k c m) = AssocList.assign k d m := by
    intro m c d
    induction m with
    | nil => simp [AssocList.assign]
    | cons e m ih =>
        rw [AssocList.assign, AssocList.assign]
        by_cases hkey : e.1 == k
        · rw [if_pos hkey, if_pos hkey, AssocList.assign, if_pos (beq_self_eq_true k)]
        · rw [if_neg hkey, if_neg hkey, AssocList.assign, if_neg hkey, ih]
  exact congrArg object (htwice node.members fresh (.value v))

theorem modify_setValue (l : List ConfigNode) (i : Nat) (v : Value) :
    l.modify i (setValue v) = l.set i (.value v) := by
  induction l generalizing i with
  | nil => cases i <;> rfl
  | cons c l ih =>
      cases i with
      | zero => rfl
      | succ i => exact congrArg (c :: ·) (ih i)

theorem setIndex_eq_put (i : Nat) (v : Value) (node : ConfigNode) :
    node.setIndex i v = node.put (.index i) (.value v) :=
  congrArg array (modify_setValue _ i v)

theorem append_eq_put (v : Value) {node : ConfigNode} (hsize : node.arraySize + 1 < 2 ^ 64) :
    node.append v = node.put (.index node.arraySize) (.value v) := by
  have hresized : resized node.elements node.arraySize = node.elements ++ [fresh] := by
    rw [resized_eq hsize, arraySize, Nat.add_sub_cancel_left]
    rfl
  have hlast : (node.elements ++ [fresh]).length - 1 = node.arraySize := by
    rw [List.length_append]
    rfl
  rw [append, put, hresized, hlast, modify_setValue]

end ConfigNode

/-! ## Changes as updates -/

/-- Where below the node a change takes effect. -/
def Change.place (node : ConfigNode) : Change → List Step
  | setValue _ => []
  | insert k _ => [.key k]
  | setKey k _ => [.key k]
  | setIndex i _ => [.index i]
  | append _ => [.index node.arraySize]
  | clear => []
  | reset => []

def Change.effect : Change → ConfigNode → ConfigNode
  | setValue v => fun _ => .value v
  | insert _ v => fun _ => .value v
  | setKey _ v => fun _ => .value v
  | setIndex _ v => fun _ => .value v
  | append v => fun _ => .value v
  | clear => ConfigNode.clear
  | reset => fun _ => .fresh

theorem Change.act_eq_update (c : Change) {node : ConfigNode}
    (hplace : ∀ s ∈ c.place node, s.Bounded) :
    c.act node = ConfigNode.tree.update node (c.place node) c.effect := by
  cases c with
  | setValue v => rfl
  | insert k v => exact ConfigNode.setKey_eq_put k v node
  | setKey k v => exact ConfigNode.setKey_eq_put k v node
  | setIndex i v => exact ConfigNode.setIndex_eq_put i v node
  | append v => exact ConfigNode.append_eq_put v (hplace _ (List.mem_singleton_self _))
  | clear => rfl
  | reset => rfl

structure Edit where
  path : List Step
  change : Change

namespace Edit

def apply (doc : ConfigNode) (e : Edit) : ConfigNode :=
  ConfigNode.tree.update doc e.path e.change.act

/-- Where in the document the edit takes effect. -/
def target (doc : ConfigNode) (e : Edit) : List Step :=
  e.path ++ e.change.place (doc.read e.path)

theorem apply_eq_update {doc : ConfigNode} {e : Edit} (h : ∀ s ∈ e.target doc, s.Bounded) :
    e.apply doc = ConfigNode.tree.update doc (e.target doc) e.change.effect := by
  rw [apply, target, Tree.update_append]
  exact Tree.update_congr _ _ _
    (e.change.act_eq_update fun s hs => h s (List.mem_append_right _ hs))

/-- Edits as updates, each at its place in the document it finds. -/
def updates (doc : ConfigNode) : List Edit → List (List Step × (ConfigNode → ConfigNode))
  | [] => []
  | e :: rest => (e.target doc, e.change.effect) :: updates (e.apply doc) rest

def applyAll (doc : ConfigNode) (edits : List Edit) : ConfigNode := edits.foldl apply doc

theorem applyAll_eq_updates (edits : List Edit) (doc : ConfigNode)
    (h : ∀ u ∈ updates doc edits, ∀ s ∈ u.1, s.Bounded) :
    applyAll doc edits =
      (updates doc edits).foldl (fun node u => ConfigNode.tree.update node u.1 u.2) doc := by
  induction edits generalizing doc with
  | nil => rfl
  | cons e rest ih =>
      rw [updates, List.forall_mem_cons] at h
      rw [updates, List.foldl_cons, ← apply_eq_update h.1, ← ih (e.apply doc) h.2]
      rfl

/-- What is read after an edit: below its target, the effect; on the way to it, the
changed node; beside it, what was there, unless the node where the paths part had to
become an object or an array that it was not. -/
theorem read_apply (doc : ConfigNode) (e : Edit) (h : ∀ s ∈ e.target doc, s.Bounded)
    (path : List Step) :
    (e.apply doc).read path =
      match Tree.part (e.target doc) path with
      | .below rest => (e.change.effect (doc.read (e.target doc))).read rest
      | .above s rest => ConfigNode.tree.update (doc.read path) (s :: rest) e.change.effect
      | .beside shared s _ _ =>
          if (doc.read shared).shape = some s.kind then doc.read path else .fresh := by
  have hread := ConfigNode.tree.read_update doc h path e.change.effect
  rw [apply_eq_update h, ConfigNode.read, hread]
  cases Tree.part (e.target doc) path <;> rfl

/-- A member is set beside an array that is there. -/
theorem read_apply_beside :
    ((⟨[.key (ascii "net")], .setIndex 2 (.string (ascii "80"))⟩ : Edit).apply
        (.object [(ascii "log", .array [.value (.bool true)])])).read
        [.key (ascii "log"), .index 0] = .value (.bool true) := by
  rw [read_apply _ _ (by decide +kernel)]
  rfl

/-- A path that every edit hits or leaves beside it, by a step of the same kind, reads
as what its own edits make of it, one after the other: the document is a map from such
paths to nodes. -/
theorem read_applyAll (doc : ConfigNode) (edits : List Edit) (path : List Step)
    (hbounded : ∀ u ∈ updates doc edits, ∀ s ∈ u.1, s.Bounded)
    (h : ∀ u ∈ updates doc edits, u.1 = path ∨ ConfigNode.tree.Apart u.1 path) :
    (applyAll doc edits).read path =
      ((updates doc edits).filter fun u => u.1 = path).foldl (fun node u => u.2 node)
        (doc.read path) := by
  rw [applyAll_eq_updates edits doc hbounded]
  exact ConfigNode.tree.read_updates _ doc path hbounded h

/-- Two settings of one member of `net`, and one of another. -/
theorem read_applyAll_port :
    (applyAll .fresh
      [⟨[.key (ascii "net")], .setKey (ascii "port") (.string (ascii "80"))⟩,
        ⟨[.key (ascii "net"), .key (ascii "host")], .append (.string (ascii "a"))⟩,
        ⟨[.key (ascii "net")], .insert (ascii "port") (.string (ascii "81"))⟩]).read
      [.key (ascii "net"), .key (ascii "port")] = .value (.string (ascii "81")) := by
  rw [read_applyAll _ _ _ (by decide +kernel)]
  · rfl
  · intro u hu
    simp only [updates, List.mem_cons, List.not_mem_nil, or_false] at hu
    rcases hu with rfl | rfl | rfl
    · exact .inl rfl
    · exact .inr rfl
    · exact .inl rfl

end Edit

end NetTest.Config
