import NetTest.Basic.Config.IniRoundTrip
import NetTest.Basic.Config.Numbers

/-!
# Typed values, saved and loaded

A program fills a tree with `root[section].set(key, value)`, writes it as INI, and
another reads it and asks for the values with `get<T>`.  On the way a value is a
text: what comes back depends on how its type is printed and read.
-/

namespace NetTest.Config

open AssocList (keys)
open Numerals
open Text (Trimmed)

/-! ## `get<T>` for the other types -/

def trueTexts : List Str :=
  ["true", "True", "TRUE", "t", "T", "yes", "YES", "Yes", "y", "Y", "ON", "on", "On"].map ascii

def readBool (str : Str) : Except Raised Bool :=
  if str.all (isDigit 10) then (stoi isSpace 10 str).map (· != 0)
  else if startsWith "0x" str || startsWith "0X" str then (stoul isSpace 16 str).map (· != 0)
  else if startsWith "0b" str || startsWith "0B" str then (stoul isSpace 2 str).map (· != 0)
  else .ok (trueTexts.contains str)

namespace ConfigNode

def getString (node : ConfigNode) (defaultValue : Str) : Str :=
  match node with
  | .value (.string v) => v
  | _ => defaultValue

def getBool (node : ConfigNode) (defaultValue : Bool) : Except Raised Bool :=
  match node with
  | .value (.bool v) => .ok v
  | .value (.string str) => readBool str
  | _ => .ok defaultValue

/-- `str_val[0]`, and a null byte for the empty string. -/
def getChar (node : ConfigNode) (defaultValue : UInt8) : UInt8 :=
  match node with
  | .value (.char v) => v
  | .value (.string str) => str.headD 0
  | _ => defaultValue

/-- No branch converts a string to a `uint8_t`. -/
def getUint8 (node : ConfigNode) (defaultValue : UInt8) : UInt8 :=
  match node with
  | .value (.uint8 v) => v
  | _ => defaultValue

def getInt8 (node : ConfigNode) (defaultValue : Int8) : Int8 :=
  match node with
  | .value (.int8 v) => v
  | _ => defaultValue

/-- `get<std::nullptr_t>`, where no string is converted either. -/
def getNull (node : ConfigNode) (defaultValue : Unit) : Unit :=
  match node with
  | .value .null => ()
  | _ => defaultValue

end ConfigNode

/-- The value has no floating-point type.  Printing and reading these is left out. -/
def Value.Exact : Value → Prop
  | .double _ => False
  | .float _ => False
  | _ => True

/-- `get<T>`, with the type of the value `v`, returns `v`. -/
def Restored (node : ConfigNode) : Value → Prop
  | .string v => ∀ d, node.getString d = v
  | .bool v => ∀ d, node.getBool d = .ok v
  | .int32 v => ∀ d, node.getNumber .int32 d = .ok v.toInt
  | .uint32 v => ∀ d, node.getNumber .uint32 d = .ok v.toNat
  | .int64 v => ∀ d, node.getNumber .int64 d = .ok v.toInt
  | .uint64 v => ∀ d, node.getNumber .uint64 d = .ok v.toNat
  | .int16 v => ∀ d, node.getNumber .int16 d = .ok v.toInt
  | .uint16 v => ∀ d, node.getNumber .uint16 d = .ok v.toNat
  | .char v => ∀ d, node.getChar d = v
  | .uint8 v => ∀ d, node.getUint8 d = v
  | .int8 v => ∀ d, node.getInt8 d = v
  | .null => ∀ d, node.getNull d = ()
  | .double _ => False
  | .float _ => False

/-- The types that are not read from a text. -/
def Value.Small : Value → Prop
  | .uint8 _ => True
  | .int8 _ => True
  | _ => False

/-! ## A text read as a type -/

theorem getNumber_printInt {t : NumType} {v : Int} (hfits : t.Fits v) (d : Int) :
    (leaf (printInt v)).getNumber t d = .ok v := by
  have hnumeral : Numeral .decimal (printInt v) v := numeral_toString v
  have hread : (leaf (printInt v)).getNumber t d = outcome t .decimal v := by
    rw [← read_numeral t hnumeral]
    cases t <;> rfl
  have hright : ReadsRight t .decimal v := by
    cases t with
    | int16 => exact .inl hfits
    | uint16 => exact .inl hfits
    | int32 => trivial
    | uint32 => exact .inl hfits
    | int64 => trivial
    | uint64 => exact .inl hfits.1
  have hsign : Notation.decimal = .hexadecimal → 0 ≤ v := nofun
  rw [hread]
  exact ((faithful_outcome_iff t hsign).mpr hright).1 hfits

theorem getBool_text (lib : Library) (v d : Bool) :
    (leaf (configNodeValueToString lib Options.default (.value (.bool v)))).getBool d = .ok v := by
  cases v with
  | false => rfl
  | true => rfl

/-- The text of a value is read back as the value, except for the eight-bit numbers. -/
theorem restored_text_iff (lib : Library) {v : Value} (hexact : v.Exact) :
    Restored (leaf (configNodeValueToString lib Options.default (.value v))) v ↔ ¬ v.Small := by
  cases v with
  | string v => exact iff_of_true (fun _ => rfl) id
  | bool v => exact iff_of_true (getBool_text lib v) id
  | double bits => exact hexact.elim
  | float bits => exact hexact.elim
  | int32 v => exact iff_of_true (getNumber_printInt ⟨v.le_toInt, v.toInt_lt⟩) id
  | uint32 v =>
      have hlt := v.toNat_lt
      exact iff_of_true (getNumber_printInt ⟨by simp [NumType.low], by
        simp only [NumType.high]
        omega⟩) id
  | int64 v => exact iff_of_true (getNumber_printInt ⟨v.le_toInt, v.toInt_lt⟩) id
  | uint64 v =>
      have hlt := v.toNat_lt
      exact iff_of_true (getNumber_printInt ⟨by simp [NumType.low], by
        simp only [NumType.high]
        omega⟩) id
  | int16 v => exact iff_of_true (getNumber_printInt ⟨v.le_toInt, v.toInt_lt⟩) id
  | uint16 v =>
      have hlt := v.toNat_lt
      exact iff_of_true (getNumber_printInt ⟨by simp [NumType.low], by
        simp only [NumType.high]
        omega⟩) id
  | char v => exact iff_of_true (fun _ => rfl) id
  | int8 v =>
      -- whatever the text, the default is returned
      refine iff_of_false (fun h => ?_) (fun h => h trivial)
      have hzero : (0 : Int8) = v := h 0
      have hone : (1 : Int8) = v := h 1
      exact absurd (hzero.trans hone.symm) (by decide)
  | uint8 v =>
      refine iff_of_false (fun h => ?_) (fun h => h trivial)
      have hzero : (0 : UInt8) = v := h 0
      have hone : (1 : UInt8) = v := h 1
      exact absurd (hzero.trans hone.symm) (by decide)
  | null => exact iff_of_true (fun _ => rfl) id

/-! ## Filling a tree -/

structure Setting where
  name : Str
  key : Str
  value : Value

/-- `root[name].set(key, value)`: `set` starts from an empty node at the key. -/
def ConfigNode.setting (root : ConfigNode) (x : Setting) : ConfigNode :=
  root.set x.name ((root.get x.name).set x.key (.value x.value))

def built (settings : List Setting) : ConfigNode := settings.foldl ConfigNode.setting .fresh

def lastSet (settings : List Setting) (s k : Str) : Option Value :=
  (settings.reverse.find? fun x => x.name = s ∧ x.key = k).map Setting.value

/-- The names are such that the writer's lines are what the reader takes them for. -/
structure Setting.Writable (x : Setting) : Prop where
  named : x.name ≠ []
  name_trimmed : Trimmed isSpace x.name
  name_newline : newline ∉ x.name
  key : GoodKey x.key
  start : x.key.head? ∉ [some semicolon, some hash, some openBracket]

theorem lastSet_mem {settings : List Setting} {s k : Str} {v : Value}
    (h : lastSet settings s k = some v) : ∃ x ∈ settings, x.value = v := by
  obtain ⟨x, hx, hv⟩ := Option.map_eq_some_iff.mp h
  exact ⟨x, List.mem_reverse.mp (List.mem_of_find?_eq_some hx), hv⟩

theorem lastSet_append (settings : List Setting) (x : Setting) (s k : Str) :
    lastSet (settings ++ [x]) s k =
      if x.name = s ∧ x.key = k then some x.value else lastSet settings s k := by
  rw [lastSet, List.reverse_append, List.reverse_singleton, List.singleton_append,
    List.find?_cons]
  by_cases hx : x.name = s ∧ x.key = k
  · simp [hx]
  · simp [hx, lastSet]

def ValueAt (root : ConfigNode) (s k : Str) (v : Value) : Prop :=
  (root.get s).find k = some (.value v)

theorem valueAt_built (settings : List Setting) (s k : Str) (v : Value) :
    ValueAt (built settings) s k v ↔ lastSet settings s k = some v := by
  induction settings using List.reverseRecOn with
  | nil =>
      refine iff_of_false ?_ nofun
      intro h
      cases h
  | append_singleton settings x ih =>
      rw [lastSet_append]
      have hbuilt : built (settings ++ [x]) = (built settings).setting x := by
        rw [built, List.foldl_append]
        rfl
      rw [hbuilt, ValueAt, ConfigNode.get, ConfigNode.setting]
      by_cases hname : s = x.name
      · subst hname
        rw [find_set_self, Option.getD_some]
        by_cases hkey : k = x.key
        · subst hkey
          rw [find_set_self, if_pos ⟨rfl, rfl⟩]
          simp
        · rw [find_set_of_ne _ hkey, if_neg (fun h => hkey h.2.symm)]
          exact ih
      · rw [find_set_of_ne _ hname, if_neg (fun h => hname h.1.symm)]
        exact ih

namespace IniParser

def ValueSection : ConfigNode → Prop :=
  Holding fun d => EntryKey d.1 ∧ d.1.head? ≠ some openBracket ∧ ∃ v, d.2 = .value v

def ValueRoot : ConfigNode → Prop :=
  Holding fun e => (e.1 ≠ [] ∧ SectionName e.1) ∧ IsObject e.2 ∧ ValueSection e.2

theorem valueRoot_built {settings : List Setting} (h : ∀ x ∈ settings, x.Writable) :
    ValueRoot (built settings) := by
  induction settings using List.reverseRecOn with
  | nil => exact holding_fresh _
  | append_singleton settings x ih =>
      have hroot := ih fun y hy => h y (List.mem_append_left _ hy)
      have hx := h x (List.mem_append_right _ (List.mem_singleton_self x))
      have hstart := hx.start
      simp only [List.mem_cons, List.not_mem_nil, or_false, not_or] at hstart
      have hbuilt : built (settings ++ [x]) = (built settings).setting x := by
        rw [built, List.foldl_append]
        rfl
      rw [hbuilt]
      have hsection : ValueSection ((built settings).get x.name) :=
        Holding.get hroot (fun _ he => he.2.2) (holding_fresh _) _
      exact Holding.set hroot ⟨⟨hx.named, hx.name_trimmed, hx.name_newline⟩, ⟨_, rfl⟩,
        Holding.set hsection ⟨⟨hx.key, hstart.1, hstart.2.1⟩, hstart.2.2, _, rfl⟩⟩

/-! ## The text of a tree of values -/

section Tree

variable {m : List (Str × ConfigNode)}

theorem ValueSection.mem_leafEntries (lib : Library) {node : ConfigNode} (h : ValueSection node)
    {k t : Str} : (k, t) ∈ leafEntries lib node.members ↔
      ∃ v, node.find k = some (.value v) ∧
        t = configNodeValueToString lib Options.default (.value v) := by
  have hfind : ∀ child, node.find k = some child ↔ (k, child) ∈ node.members :=
    fun child => AssocList.lookup_eq_some_iff_mem h.unique
  rw [leafEntries, List.mem_map]
  constructor
  · rintro ⟨⟨key, child⟩, he, heq⟩
    have hmem := (lib.order_perm _).mem_iff.mp (List.mem_filter.mp he).1
    rcases (h.each _ hmem).2.2 with ⟨v, hv⟩
    simp only at hv
    subst hv
    cases heq
    exact ⟨v, (hfind _).mpr hmem, rfl⟩
  · rintro ⟨v, hv, rfl⟩
    exact ⟨(k, .value v),
      List.mem_filter.mpr ⟨(lib.order_perm _).mem_iff.mpr ((hfind _).mp hv), rfl⟩, rfl⟩

theorem ValueSection.entry (lib : Library) {node : ConfigNode} (h : ValueSection node)
    {e : Str × Str} (he : e ∈ leafEntries lib node.members) :
    EntryKey e.1 ∧ e.1.head? ≠ some openBracket := by
  rcases (h.mem_leafEntries lib).mp he with ⟨v, hv, _⟩
  have heach := h.each _ (AssocList.mem_of_lookup hv)
  exact ⟨heach.1, heach.2.1⟩

theorem mem_docOf (lib : Library) {sec : Str × List (Str × Str)} :
    sec ∈ docOf lib m ↔ ∃ e ∈ m, (e.1, leafEntries lib e.2.members) = sec := by
  rw [docOf, List.mem_map]
  constructor
  · rintro ⟨e, he, heq⟩
    exact ⟨e, (lib.order_perm m).mem_iff.mp he, heq⟩
  · rintro ⟨e, he, heq⟩
    exact ⟨e, (lib.order_perm m).mem_iff.mpr he, heq⟩

/-- A tree of values is read back as the tree of their texts. -/
theorem leafAt_dump (lib : Library) (h : ValueRoot (.object m)) :
    ∃ text, dump Options.default lib Options.default (.object m) = .ok text ∧
      ∀ s k t, LeafAt (parse Options.default text .fresh) s k t ↔
        ∃ v, ValueAt (.object m) s k v ∧
          t = configNodeValueToString lib Options.default (.value v) := by
  refine ⟨_, dump_object lib fun e he => (h.each e he).2.1, ?_⟩
  have hwritable : (docOf lib m).Writable := by
    constructor
    · intro sec hsec
      rcases (mem_docOf lib).mp hsec with ⟨e, he, rfl⟩
      exact (h.each e he).1.2
    · intro sec hsec d hd
      rcases (mem_docOf lib).mp hsec with ⟨e, he, rfl⟩
      exact ((h.each e he).2.2.entry lib hd).1
  have hnames : (keys (docOf lib m)).Nodup := by
    have hkeys : keys (docOf lib m) = keys (lib.order m) := by
      simp [keys, docOf, List.map_map, Function.comp_def]
    have hperm : (keys (lib.order m)).Perm (keys m) := (lib.order_perm m).map _
    rw [hkeys, hperm.nodup_iff]
    exact h.unique
  have hunique : ∀ sec ∈ docOf lib m, (keys sec.2).Nodup := by
    intro sec hsec
    rcases (mem_docOf lib).mp hsec with ⟨e, he, rfl⟩
    exact nodup_keys_leafEntries lib (h.each e he).2.2.unique
  have hplain : ∀ sec ∈ docOf lib m, ∀ e ∈ sec.2, ¬ Bracketed e.1 e.2 := by
    intro sec hsec d hd hbracketed
    rcases (mem_docOf lib).mp hsec with ⟨e, he, rfl⟩
    exact ((h.each e he).2.2.entry lib hd).2 hbracketed.1
  intro s k t
  rw [leafAt_render hwritable hnames hunique hplain]
  have hfind : ∀ node, ConfigNode.find (.object m) s = some node ↔ (s, node) ∈ m :=
    fun node => AssocList.lookup_eq_some_iff_mem h.unique
  constructor
  · rintro ⟨_, es, hes, hentry⟩
    rcases (mem_docOf lib).mp hes with ⟨⟨name, node⟩, he, heq⟩
    cases heq
    rcases ((h.each _ he).2.2.mem_leafEntries lib).mp hentry with ⟨v, hv, ht⟩
    refine ⟨v, ?_, ht⟩
    rw [ValueAt, ConfigNode.get, (hfind node).mpr he]
    exact hv
  · rintro ⟨v, hv, ht⟩
    rw [ValueAt, ConfigNode.get] at hv
    cases hnode : ConfigNode.find (.object m) s with
    | none =>
        rw [hnode] at hv
        cases hv
    | some node =>
        rw [hnode, Option.getD_some] at hv
        have he := (hfind node).mp hnode
        exact ⟨(h.each _ he).1.1, _, (mem_docOf lib).mpr ⟨_, he, rfl⟩,
          ((h.each _ he).2.2.mem_leafEntries lib).mpr ⟨v, hv, ht⟩⟩

end Tree

/-- Whatever is set but floating-point numbers, in whatever order and how often, can
be saved and loaded: the text holds the last value of every key and nothing else, and
`get<T>` gives back a value of the type it was set with exactly when that type is not
an eight-bit number. -/
theorem ini_typed_roundTrip (lib : Library) (settings : List Setting)
    (h : ∀ x ∈ settings, x.Writable) (hexact : ∀ x ∈ settings, x.value.Exact) :
    ∃ text, dump Options.default lib Options.default (built settings) = .ok text ∧
      (∀ s k t, LeafAt (parse Options.default text .fresh) s k t ↔
        ∃ v, lastSet settings s k = some v ∧
          t = configNodeValueToString lib Options.default (.value v)) ∧
      ∀ s k v, lastSet settings s k = some v →
        (Restored (((parse Options.default text .fresh).get s).get k) v ↔ ¬ v.Small) := by
  have hdump : ∃ text, dump Options.default lib Options.default (built settings) = .ok text ∧
      ∀ s k t, LeafAt (parse Options.default text .fresh) s k t ↔
        ∃ v, lastSet settings s k = some v ∧
          t = configNodeValueToString lib Options.default (.value v) := by
    have hroot := valueRoot_built h
    rcases hroot.kind with hfresh | ⟨m, hm⟩
    · rw [hfresh]
      refine ⟨[], rfl, ?_⟩
      intro s k t
      refine iff_of_false ?_ ?_
      · rintro ⟨node, hnode, _⟩
        cases hnode
      · rintro ⟨v, hv, _⟩
        rw [← valueAt_built, hfresh] at hv
        cases hv
    · rw [hm] at hroot ⊢
      rcases leafAt_dump lib hroot with ⟨text, htext, hleaf⟩
      refine ⟨text, htext, ?_⟩
      intro s k t
      rw [hleaf, ← hm]
      simp only [valueAt_built]
  rcases hdump with ⟨text, htext, hleaf⟩
  refine ⟨text, htext, hleaf, ?_⟩
  intro s k v hv
  rcases (hleaf s k _).mpr ⟨v, hv, rfl⟩ with ⟨node, hnode, hchild⟩
  have hget : ((parse Options.default text .fresh).get s).get k =
      leaf (configNodeValueToString lib Options.default (.value v)) := by
    rw [ConfigNode.get, ConfigNode.get, hnode, Option.getD_some, hchild, Option.getD_some]
  rw [hget]
  obtain ⟨x, hx, rfl⟩ := lastSet_mem hv
  exact restored_text_iff lib (hexact x hx)

/-- A port is set twice, and a byte beside it. -/
theorem ini_typed_roundTrip_port :
    ∃ text, dump Options.default reversing Options.default
        (built [⟨[110], [112], .uint16 80⟩, ⟨[110], [98], .uint8 7⟩, ⟨[110], [112], .uint16 8080⟩]) =
          .ok text ∧
      (∀ s k t, LeafAt (parse Options.default text .fresh) s k t ↔
        ∃ v, lastSet [⟨[110], [112], .uint16 80⟩, ⟨[110], [98], .uint8 7⟩,
            ⟨[110], [112], .uint16 8080⟩] s k = some v ∧
          t = configNodeValueToString reversing Options.default (.value v)) ∧
      ∀ s k v, lastSet [⟨[110], [112], .uint16 80⟩, ⟨[110], [98], .uint8 7⟩,
          ⟨[110], [112], .uint16 8080⟩] s k = some v →
        (Restored (((parse Options.default text .fresh).get s).get k) v ↔ ¬ v.Small) := by
  apply ini_typed_roundTrip
  · intro x hx
    simp only [List.mem_cons, List.not_mem_nil, or_false] at hx
    rcases hx with rfl | rfl | rfl
    · exact ⟨by decide, by decide, by decide, by decide, by decide⟩
    · exact ⟨by decide, by decide, by decide, by decide, by decide⟩
    · exact ⟨by decide, by decide, by decide, by decide, by decide⟩
  · intro x hx
    simp only [List.mem_cons, List.not_mem_nil, or_false] at hx
    rcases hx with rfl | rfl | rfl <;> trivial

end IniParser

end NetTest.Config
