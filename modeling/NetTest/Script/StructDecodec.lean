import NetTest.Lib.Regex

/-!
# Extraction of structs from a header

`struct_decodec.py`: the structs of a header are found with one regular expression, the
fields of each with another, and each struct is to be described by a dictionary of its
own in the list that is returned.  The dictionary is created once, before the loop, so
all entries of the list are the same object.
-/

namespace NetTest.StructDecodec

open Regex

abbrev Str := List Char

/-- The character classes of `re`, `\s`, `\w` and `\d`, with what `int` reads a digit as.
`str.strip` removes the characters of `\s`. -/
structure CharClasses where
  space : Char → Bool
  word : Char → Bool
  digit : Char → Bool
  digitValue : Char → Nat
  space_word : ∀ c, space c = true → word c = false
  space_semicolon : space ';' = false

variable (classes : CharClasses)

/-! ## The patterns -/

/-- `struct\s+(\w+)\s*{((?:.|\n)*?)}`, where `.` is any character (`re.DOTALL`). -/
def structPattern : Pattern Char :=
  .word "struct".toList <|
    .seq (.plus (.letter classes.space)) <|
    .seq (.group 1 (.plus (.letter classes.word))) <|
    .seq (.star (.letter classes.space)) <|
    .seq (.letter (· == '\x7b')) <|
    .seq (.group 2 (.lazyStar (.alt (.letter fun _ => true) (.letter (· == '\n'))))) <|
    .letter (· == '\x7d')

/-- `\s*(\w+)\s+(\w+)(\[(\d+)\])?;` -/
def fieldPattern : Pattern Char :=
  .seq (.star (.letter classes.space)) <|
    .seq (.group 1 (.plus (.letter classes.word))) <|
    .seq (.plus (.letter classes.space)) <|
    .seq (.group 2 (.plus (.letter classes.word))) <|
    .seq (.opt (.group 3 (.seq (.letter (· == '['))
      (.seq (.group 4 (.plus (.letter classes.digit))) (.letter (· == ']')))))) <|
    .letter (· == ';')

/-! ## The loop -/

structure Field where
  type : Str
  name : Str
  array : Option Nat
  deriving DecidableEq

/-- The dictionary of a struct; a key that has not been set is `none`. -/
structure StructDict where
  name : Option Str
  fields : Option (List Field)
  deriving DecidableEq

def intOf (size : Str) : Nat := size.foldl (fun n c => 10 * n + classes.digitValue c) 0

def fieldOf (groups : Nat → Str) : Field where
  type := groups 1
  name := groups 2
  array := if 0 < (groups 4).length then some (intOf classes (groups 4)) else none

def fieldsOf (structContent : Str) : List Field :=
  (findAll (fieldPattern classes) structContent).map (fieldOf classes)

def strip (s : Str) : Str := Text.trim classes.space s

/-- The dictionaries by reference, and the list `structs`. -/
structure Extraction where
  dicts : Nat → StructDict
  structs : List Nat

/-- One turn of the loop, for the dictionary that the variable `struct` refers to. -/
def addStruct (struct : Nat) (e : Extraction) (m : Nat → Str) : Extraction :=
  let named := { e.dicts struct with name := some (strip classes (m 1)) }
  let dicts := Function.update e.dicts struct named
  let fields := fieldsOf classes (strip classes (m 2))
  let filled := { dicts struct with fields := some fields }
  { dicts := Function.update dicts struct filled, structs := e.structs ++ [struct] }

/-- The loop, and before it `struct = {}`. -/
def extractLoop (matchs : List (Nat → Str)) : Extraction :=
  let struct := 0
  let e : Extraction := { dicts := fun _ => { name := none, fields := none }, structs := [] }
  matchs.foldl (addStruct classes struct) e

def structMatchs (text : Str) : List (Nat → Str) := findAll (structPattern classes) text

def Extraction.entries (e : Extraction) : List StructDict := e.structs.map e.dicts

/-- `extract_structs_from_cpp`, for the text of the file. -/
def extractStructsFromCpp (text : Str) : List StructDict :=
  (extractLoop classes (structMatchs classes text)).entries

/-! ## What the list is to hold -/

def entry (m : Nat → Str) : StructDict where
  name := some (m 1)
  fields := some (fieldsOf classes (m 2))

/-- Every match has its own entry, which the later turns leave alone. -/
structure KeptApart (text : Str) : Prop where
  entries : extractStructsFromCpp classes text = (structMatchs classes text).map (entry classes)
  kept : ∀ done m, done ++ [m] <+: structMatchs classes text →
    (extractLoop classes (done ++ [m])).entries.take done.length =
      (extractLoop classes done).entries

/-! ## Blanks around names and bodies -/

variable {classes}

theorem letters_of_mem_structMatchs {text : Str} {m : Nat → Str}
    (h : m ∈ structMatchs classes text) : ∀ c ∈ m 1, classes.word c = true := by
  rcases mem_findAll h with ⟨rest, s, hs, rfl⟩
  rcases mem_results_word hs with ⟨a, ha⟩
  rw [results, List.mem_flatMap] at ha
  rcases ha with ⟨a₁, -, ha₁⟩
  rw [results, List.mem_flatMap] at ha₁
  rcases ha₁ with ⟨a₂, hname, hbody⟩
  -- nothing behind the name sets its group
  have hgroups : s.groups 1 = a₂.groups 1 := by
    apply groups_of_mem_results _ hbody
    simp [Pattern.Sets, Pattern.star, Pattern.lazyStar]
  rw [hgroups]
  exact groups_of_mem_group_plus hname

theorem strip_name {text : Str} {m : Nat → Str} (h : m ∈ structMatchs classes text) :
    strip classes (m 1) = m 1 := by
  have hblank : ∀ c ∈ m 1, classes.space c = false := by
    intro c hc
    have hword := letters_of_mem_structMatchs h c hc
    cases hspace : classes.space c with
    | false => rfl
    | true =>
        rw [classes.space_word c hspace] at hword
        exact absurd hword Bool.noConfusion
  apply Text.trim_of_trimmed
  constructor
  · intro c hc
    exact hblank c (List.mem_of_mem_head? hc)
  · intro c hc
    exact hblank c (List.mem_of_mem_getLast? hc)

theorem fieldsOf_strip (body : Str) :
    fieldsOf classes (strip classes body) = fieldsOf classes body := by
  rw [fieldsOf, fieldsOf, strip, findAll_trim]
  · intro b hb
    have hword : Refuses b (.letter classes.word) := refuses_letter (classes.space_word b hb)
    exact skips_star hb (((hword.seq _).group 1).seq _)
  · intro b hb
    have hne : (b == ';') = false := by
      rw [beq_eq_false_iff_ne]
      rintro rfl
      rw [classes.space_semicolon] at hb
      exact Bool.noConfusion hb
    have hlast : Stops b (.letter (· == ';')) := stops_letter hne
    exact ((((hlast.seq _).seq _).seq _).seq _).seq _

/-! ## One dictionary for all -/

/-- What the turn of a match writes is its entry. -/
theorem dicts_addStruct {text : Str} {m : Nat → Str} (h : m ∈ structMatchs classes text)
    (struct : Nat) (e : Extraction) :
    (addStruct classes struct e m).dicts struct = entry classes m := by
  simp only [addStruct, Function.update_self]
  rw [strip_name h, fieldsOf_strip, entry]

theorem structs_foldl (struct : Nat) (e : Extraction) (matchs : List (Nat → Str)) :
    (matchs.foldl (addStruct classes struct) e).structs =
      e.structs ++ List.replicate matchs.length struct := by
  induction matchs generalizing e with
  | nil => exact (List.append_nil _).symm
  | cons m matchs ih =>
      rw [List.foldl_cons, ih, List.length_cons, List.replicate_succ, addStruct,
        List.append_assoc, List.singleton_append]

/-- After a turn, all entries are the entry of its match. -/
theorem entries_extractLoop {text : Str} {m : Nat → Str} (h : m ∈ structMatchs classes text)
    (done : List (Nat → Str)) :
    (extractLoop classes (done ++ [m])).entries =
      List.replicate (done.length + 1) (entry classes m) := by
  rw [Extraction.entries, extractLoop, structs_foldl, List.nil_append, List.length_append,
    List.length_singleton, List.map_replicate, List.foldl_append, List.foldl_cons, List.foldl_nil,
    dicts_addStruct h]

theorem extract_eq {text : Str} {done : List (Nat → Str)} {last : Nat → Str}
    (h : structMatchs classes text = done ++ [last]) :
    extractStructsFromCpp classes text =
      List.replicate (structMatchs classes text).length (entry classes last) := by
  have hlast : last ∈ structMatchs classes text := by
    rw [h]
    exact List.mem_concat_self
  have hentries := entries_extractLoop hlast done
  rw [extractStructsFromCpp, h, hentries, List.length_append, List.length_singleton]

theorem entry_eq_of_entries {text : Str}
    (h : extractStructsFromCpp classes text = (structMatchs classes text).map (entry classes))
    {m m' : Nat → Str} (hm : m ∈ structMatchs classes text) (hm' : m' ∈ structMatchs classes text) :
    entry classes m = entry classes m' := by
  rcases List.eq_nil_or_concat' (structMatchs classes text) with hnil | ⟨done, last, heq⟩
  · rw [hnil] at hm
    cases hm
  · rw [extract_eq heq] at h
    have hall := (List.eq_replicate_iff.mp h.symm).2
    have hlast : ∀ m ∈ structMatchs classes text, entry classes m = entry classes last :=
      fun m hm => hall _ (List.mem_map_of_mem hm)
    rw [hlast m hm, hlast m' hm']

/-- Structs are kept apart exactly where there is nothing to tell apart: when all
matches have the same name and the same fields. -/
theorem keptApart_iff (classes : CharClasses) (text : Str) :
    KeptApart classes text ↔ ∀ m ∈ structMatchs classes text, ∀ m' ∈ structMatchs classes text,
      entry classes m = entry classes m' := by
  constructor
  · intro h m hm m' hm'
    exact entry_eq_of_entries h.entries hm hm'
  · intro h
    constructor
    · rcases List.eq_nil_or_concat' (structMatchs classes text) with hnil | ⟨done, last, heq⟩
      · rw [extractStructsFromCpp, hnil]
        rfl
      · have hlast : last ∈ structMatchs classes text := by
          rw [heq]
          exact List.mem_concat_self
        rw [extract_eq heq]
        apply Eq.symm
        rw [List.eq_replicate_iff, List.length_map]
        refine ⟨rfl, ?_⟩
        intro d hd
        rcases List.mem_map.mp hd with ⟨m, hm, rfl⟩
        exact h m hm last hlast
    · intro done m hprefix
      have hmem : ∀ m' ∈ done ++ [m], m' ∈ structMatchs classes text := fun m' hm' =>
        hprefix.subset hm'
      have hm := hmem m List.mem_concat_self
      rw [entries_extractLoop hm, List.take_replicate, Nat.min_eq_left (Nat.le_succ _)]
      rcases List.eq_nil_or_concat' done with hnil | ⟨before, m', heq⟩
      · rw [hnil]
        rfl
      · have hm' : m' ∈ structMatchs classes text := by
          apply hmem m'
          rw [heq]
          exact List.mem_append_left _ List.mem_concat_self
        rw [heq, entries_extractLoop hm', List.length_append, List.length_singleton,
          h m hm m' hm']

/-! ## Two structs -/

def asciiBlanks : List Char :=
  [' ', '\t', '\n', '\x0b', '\x0c', '\r', '\x1c', '\x1d', '\x1e', '\x1f']

def asciiClasses : CharClasses where
  space c := asciiBlanks.contains c
  word c := c.isAlphanum || c == '_'
  digit c := c.isDigit
  digitValue c := c.toNat - '0'.toNat
  space_word := by
    intro c hc
    have hall : asciiBlanks.all fun c => (c.isAlphanum || c == '_') == false := by decide
    rw [List.contains_iff_mem] at hc
    exact eq_of_beq (List.all_eq_true.mp hall c hc)
  space_semicolon := by decide

def twoStructs : Str := "struct A \x7b int a; \x7d; struct B \x7b long b[4]; \x7d;".toList

/-- The first entry becomes that of the second struct. -/
theorem two_structs_mixed : ¬ ∀ (classes : CharClasses) (text : Str), KeptApart classes text := by
  intro h
  have hentries : (structMatchs asciiClasses twoStructs).map (entry asciiClasses) =
      [{ name := some "A".toList
         fields := some [{ type := "int".toList, name := "a".toList, array := none }] },
       { name := some "B".toList
         fields := some [{ type := "long".toList, name := "b".toList, array := some 4 }] }] := by
    decide +kernel
  have hsame : ∀ d ∈ (structMatchs asciiClasses twoStructs).map (entry asciiClasses),
      ∀ d' ∈ (structMatchs asciiClasses twoStructs).map (entry asciiClasses), d = d' := by
    intro d hd d' hd'
    rcases List.mem_map.mp hd with ⟨m, hm, rfl⟩
    rcases List.mem_map.mp hd' with ⟨m', hm', rfl⟩
    exact entry_eq_of_entries (h asciiClasses twoStructs).entries hm hm'
  rw [hentries] at hsame
  have hname := hsame _ List.mem_cons_self _ (List.mem_cons_of_mem _ List.mem_cons_self)
  have hne : "A".toList ≠ "B".toList := by decide
  exact hne (Option.some.inj (StructDict.mk.inj hname).1)

end NetTest.StructDecodec
