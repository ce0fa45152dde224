import Mathlib.Algebra.Order.BigOperators.Group.List
import Mathlib.Algebra.Order.Group.Nat
import NetTest.Basic.Config.Lines

/-!
# Writing a CONF text and reading it back

`ConfParser::dump` writes values as they are, while `ConfParser::parse` cuts at
newlines, trims, unescapes and strips quotes.  A value survives exactly when
none of that touches it: each of these steps makes a text shorter, so a value
that one of them touches is not read back from the line it was written on, and
no line of a longer value can stand in for it.
-/

namespace NetTest.Config.ConfParser

open AssocList (keys)
open Text (Trimmed)

/-! ## Lengths along the reader -/

theorem length_trim_lt {v : Str} (h : ¬ Trimmed isSpace v) : (trim v).length < v.length := by
  apply lt_of_le_of_ne (Text.length_trim_le v)
  intro hlen
  exact h (Text.trim_eq_self_iff.mp ((Text.trim_isInfix v).eq_of_length hlen))

/-- A backslash in front of a byte it stands for. -/
def HasEscape (v : Str) : Prop := ∃ c, [backslash, c] <:+: v ∧ unescapeByte c ≠ none

theorem hasEscape_cons_cons {c d : UInt8} {rest : Str} :
    HasEscape (c :: d :: rest) ↔
      (c = backslash ∧ unescapeByte d ≠ none) ∨ HasEscape (d :: rest) := by
  constructor
  · rintro ⟨e, hin, he⟩
    rcases List.infix_cons_iff.mp hin with hprefix | hin
    · obtain ⟨rfl, htail⟩ := List.cons_prefix_cons.mp hprefix
      obtain ⟨rfl, _⟩ := List.cons_prefix_cons.mp htail
      exact .inl ⟨rfl, he⟩
    · exact .inr ⟨e, hin, he⟩
  · rintro (⟨rfl, hd⟩ | ⟨e, hin, he⟩)
    · exact ⟨d, List.infix_cons_iff.mpr (.inl ⟨rest, rfl⟩), hd⟩
    · exact ⟨e, List.infix_cons_iff.mpr (.inr hin), he⟩

theorem length_unescape_le (v : Str) : (unescape v).length ≤ v.length := by
  fun_induction unescape v with
  | case1 => exact Nat.le_refl _
  | case2 c => exact Nat.le_refl _
  | case3 d rest e hd ih =>
      simp only [List.length_cons]
      omega
  | case4 d rest hd ih =>
      simp only [List.length_cons] at ih ⊢
      omega
  | case5 c d rest hc ih =>
      simp only [List.length_cons] at ih ⊢
      omega

theorem length_unescape_lt {v : Str} (h : HasEscape v) : (unescape v).length < v.length := by
  fun_induction unescape v with
  | case1 =>
      obtain ⟨c, hin, _⟩ := h
      exact absurd hin.length_le (by simp)
  | case2 c =>
      obtain ⟨d, hin, _⟩ := h
      exact absurd hin.length_le (by simp)
  | case3 d rest e hd ih =>
      have := length_unescape_le rest
      simp only [List.length_cons]
      omega
  | case4 d rest hd ih =>
      have := ih ((hasEscape_cons_cons.mp h).resolve_left (fun hl => hl.2 hd))
      simp only [List.length_cons] at this ⊢
      omega
  | case5 c d rest hc ih =>
      have := ih ((hasEscape_cons_cons.mp h).resolve_left (fun hl => hc hl.1))
      simp only [List.length_cons] at this ⊢
      omega

theorem unescape_eq_self {v : Str} (h : ¬ HasEscape v) : unescape v = v := by
  fun_induction unescape v with
  | case1 => rfl
  | case2 c => rfl
  | case3 d rest e hd ih =>
      exact absurd (hasEscape_cons_cons.mpr (.inl ⟨rfl, by simp [hd]⟩)) h
  | case4 d rest hd ih => rw [ih fun hrest => h (hasEscape_cons_cons.mpr (.inr hrest))]
  | case5 c d rest hc ih => rw [ih fun hrest => h (hasEscape_cons_cons.mpr (.inr hrest))]

def Quoted (v : Str) : Prop :=
  2 ≤ v.length ∧ (surroundedBy doubleQuote v ∨ surroundedBy singleQuote v)

theorem length_trimQuotes_le (v : Str) : (trimQuotes v).length ≤ v.length := by
  unfold trimQuotes
  split
  · simp only [List.length_take, List.length_drop]
    omega
  · exact Nat.le_refl _

theorem length_trimQuotes_lt {v : Str} (h : Quoted v) : (trimQuotes v).length < v.length := by
  have heq : trimQuotes v = (v.drop 1).take (v.length - 2) := if_pos h
  have := h.1
  rw [heq, List.length_take]
  omega

theorem trimQuotes_eq_self {v : Str} (h : ¬ Quoted v) : trimQuotes v = v := if_neg h

/-- A value no step of the reader touches. -/
structure SafeValue (v : Str) : Prop where
  no_newline : newline ∉ v
  trimmed : Trimmed isSpace v
  no_escape : ¬ HasEscape v
  unquoted : ¬ Quoted v

theorem length_readValue_le (v : Str) : (readValue v).length ≤ v.length :=
  calc (readValue v).length ≤ (unescape (trim v)).length := length_trimQuotes_le _
    _ ≤ (trim v).length := length_unescape_le _
    _ ≤ v.length := Text.length_trim_le v

theorem readValue_safe {v : Str} (h : SafeValue v) : readValue v = v := by
  rw [readValue, trim, Text.trim_of_trimmed h.trimmed, unescape_eq_self h.no_escape,
    trimQuotes_eq_self h.unquoted]

theorem length_readValue_lt {v : Str} (hnewline : newline ∉ v) (h : ¬ SafeValue v) :
    (readValue v).length < v.length := by
  by_cases htrim : Trimmed isSpace v
  · rw [readValue, trim, Text.trim_of_trimmed htrim]
    by_cases hescape : HasEscape v
    · exact lt_of_le_of_lt (length_trimQuotes_le _) (length_unescape_lt hescape)
    · rw [unescape_eq_self hescape]
      by_cases hquoted : Quoted v
      · exact length_trimQuotes_lt hquoted
      · exact absurd ⟨hnewline, htrim, hescape, hquoted⟩ h
  · calc (readValue v).length ≤ (unescape (trim v)).length := length_trimQuotes_le _
      _ ≤ (trim v).length := length_unescape_le _
      _ < v.length := length_trim_lt htrim

/-! ## Entries of a text -/

def entryOf (raw : Str) : Option (Str × Str) :=
  let line := trim raw
  if line = [] ∨ line.head? = some hash then none else keyValue equals line

def entriesOf (text : Str) : List (Str × Str) := (Text.lines newline text).filterMap entryOf

theorem readLine_eq (root : ConfigNode) (raw : Str) :
    readLine Options.default root raw = assignAll (entryOf raw).toList root := by
  unfold readLine entryOf
  dsimp only
  have hdelimiter : firstByte Options.default.keyValueDelimiter = equals := rfl
  rw [hdelimiter]
  split
  · rfl
  · cases keyValue equals (trim raw) with
    | none => rfl
    | some kv => rfl

theorem parse_eq (text : Str) (root : ConfigNode) :
    parse Options.default text root = assignAll (entriesOf text) root := by
  unfold parse entriesOf
  induction Text.lines newline text generalizing root with
  | nil => rfl
  | cons raw ls ih =>
      rw [List.foldl_cons, ih, readLine_eq, List.filterMap_cons]
      cases entryOf raw with
      | none => rfl
      | some e => rfl

theorem find_parse (text k : Str) :
    (parse Options.default text .fresh).find k = ((entriesOf text).reverse.lookup k).map leaf := by
  rw [parse_eq, find_assignAll, find_fresh, Option.or_none]

theorem length_lt_of_entryOf {raw k v : Str} (h : entryOf raw = some (k, v)) :
    v.length < raw.length := by
  unfold entryOf at h
  dsimp only at h
  split at h
  · cases h
  · by_cases hmem : equals ∈ trim raw
    · obtain ⟨before, after, heq, hbefore⟩ := List.eq_append_cons_of_mem hmem
      rw [heq, keyValue_split hbefore] at h
      cases h
      have htrim := congrArg List.length heq
      have hle : (trim raw).length ≤ raw.length := Text.length_trim_le raw
      have hvalue := length_readValue_le after
      simp only [List.length_append, List.length_cons] at htrim
      omega
    · rw [keyValue_none hmem] at h
      cases h

structure ConfKey (key : Str) : Prop extends GoodKey key where
  no_comment : key.head? ≠ some hash

theorem entryOf_entryLine {k : Str} (h : ConfKey k) (text : Str) :
    entryOf (entryLine k text) = some (k, readValue text) := by
  have hhead := head?_entryLine h.trimmed text
  unfold entryOf
  dsimp only
  rw [if_neg, keyValue_entryLine h.toGoodKey]
  rw [hhead]
  rintro (hnil | hfirst)
  · rw [hnil] at hhead
    cases hhead
  · cases k with
    | nil => exact absurd hfirst (by decide)
    | cons c k => exact h.no_comment hfirst

def written (e : Str × Str) : List (Str × Str) := entriesOf (entryLine e.1 e.2 ++ [newline])

theorem written_safe {k v : Str} (hk : ConfKey k) (hv : SafeValue v) :
    written (k, v) = [(k, v)] := by
  unfold written entriesOf
  rw [Text.lines_line (newline_not_mem_entryLine hk.no_newline hv.no_newline) []]
  simp [Text.lines, entryOf_entryLine hk, readValue_safe hv]

/-- Whatever is read from a value that is not safe is shorter than the value. -/
theorem length_lt_of_mem_written {k v : Str} (hk : ConfKey k) (hv : ¬ SafeValue v)
    {e : Str × Str} (he : e ∈ written (k, v)) : e.2.length < v.length := by
  unfold written entriesOf at he
  rcases Text.line_or_split newline v with hline | ⟨first, rest, rfl, hfirst⟩
  · rw [Text.lines_line (newline_not_mem_entryLine hk.no_newline hline) []] at he
    simp only [Text.lines, List.filterMap_cons, entryOf_entryLine hk, List.filterMap_nil,
      List.mem_singleton] at he
    rw [he]
    exact length_readValue_lt hline hv
  · have hsplit : entryLine k (first ++ newline :: rest) ++ [newline] =
        entryLine k first ++ newline :: (rest ++ [newline]) := by
      simp [entryLine]
    simp only [hsplit, Text.lines_line (newline_not_mem_entryLine hk.no_newline hfirst),
      List.filterMap_cons, entryOf_entryLine hk, List.mem_cons, List.mem_filterMap] at he
    simp only [List.length_append, List.length_cons]
    rcases he with rfl | ⟨raw, hraw, he⟩
    · have := length_readValue_le first
      simp only
      omega
    · have hshort := length_lt_of_entryOf he
      have hin := Text.length_le_of_mem_lines hraw
      simp only [List.length_append, List.length_singleton] at hin
      omega

/-! ## The round trip -/

section Tree

variable {m : List (Str × ConfigNode)}

structure ConfTree (m : List (Str × ConfigNode)) : Prop where
  unique : (keys m).Nodup
  each : ∀ e ∈ m, GoodKey e.1 ∧ e.1.head? ≠ some hash ∧ ∃ v, e.2 = leaf v

theorem dump_object (lib : Library) (m : List (Str × ConfigNode)) :
    dump Options.default lib Options.default (.object m) =
      .ok ((leafEntries lib m).flatMap fun e => entryLine e.1 e.2 ++ [newline]) := by
  simp only [dump, leafEntries, List.flatMap_map]
  rfl

theorem entriesOf_dump (es : List (Str × Str)) :
    entriesOf (es.flatMap fun e => entryLine e.1 e.2 ++ [newline]) = es.flatMap written := by
  unfold entriesOf
  rw [Text.lines_flatMap, List.filterMap_flatMap]
  rfl

theorem ConfTree.leaves (h : ConfTree m) : ∀ e ∈ m, ∃ v, e.2 = leaf v :=
  fun e he => (h.each e he).2.2

theorem ConfTree.confKey (h : ConfTree m) {k v : Str} (hmem : (k, leaf v) ∈ m) : ConfKey k :=
  ⟨(h.each _ hmem).1, (h.each _ hmem).2.1⟩

/-- If every member of a kind has a longer one of the kind, there is none. -/
theorem not_of_ascending {α : Type*} {l : List α} {f : α → Nat} {P : α → Prop}
    (h : ∀ a ∈ l, P a → ∃ b ∈ l, P b ∧ f a < f b) : ∀ a ∈ l, ¬ P a := by
  obtain ⟨bound, hbound⟩ : ∃ bound, ∀ a ∈ l, f a ≤ bound := by
    refine ⟨(l.map f).sum, fun a ha => ?_⟩
    exact List.le_sum_of_mem (List.mem_map_of_mem ha)
  intro a ha
  induction hgap : bound - f a using Nat.strongRecOn generalizing a with
  | ind gap ih =>
      intro hP
      obtain ⟨b, hb, hPb, hlt⟩ := h a ha hP
      have := hbound b hb
      exact ih (bound - f b) (by omega) b hb rfl hPb

theorem ConfTree.find_iff (h : ConfTree m) {k v : Str} :
    ConfigNode.find (.object m) k = some (leaf v) ↔ (k, leaf v) ∈ m :=
  AssocList.lookup_eq_some_iff_mem h.unique

def readBack (lib : Library) (m : List (Str × ConfigNode)) : List (Str × Str) :=
  (leafEntries lib m).flatMap written

theorem ConfTree.readBack_of_safe (lib : Library) (h : ConfTree m)
    (hsafe : ∀ k v, (k, leaf v) ∈ m → SafeValue v) : readBack lib m = leafEntries lib m := by
  have hone : ∀ e ∈ leafEntries lib m, written e = [e] := by
    intro e he
    have hmem := (mem_leafEntries lib h.leaves).mp he
    exact written_safe (h.confKey hmem) (hsafe _ _ hmem)
  unfold readBack
  rw [List.flatMap_congr hone, List.flatMap_singleton']

theorem ConfTree.longer_of_mem_readBack (lib : Library) (h : ConfTree m) {k v : Str}
    (hbad : ¬ SafeValue v) (hmem : (k, v) ∈ readBack lib m) :
    ∃ e ∈ leafEntries lib m, ¬ SafeValue e.2 ∧ v.length < e.2.length := by
  obtain ⟨e, he, hwritten⟩ := List.mem_flatMap.mp hmem
  have hkey := h.confKey ((mem_leafEntries lib h.leaves).mp he)
  have hlong : ¬ SafeValue e.2 := by
    intro hsafe
    rw [written_safe hkey hsafe, List.mem_singleton] at hwritten
    have hv : v = e.2 := congrArg Prod.snd hwritten
    exact hbad (hv ▸ hsafe)
  exact ⟨e, he, hlong, length_lt_of_mem_written hkey hlong hwritten⟩

/-- The values come back exactly when none of them needs protection. -/
theorem conf_roundTrip_iff (lib : Library) (m : List (Str × ConfigNode)) (h : ConfTree m) :
    (∃ text, dump Options.default lib Options.default (.object m) = .ok text ∧
      ∀ k v, (parse Options.default text .fresh).find k = some (leaf v) ↔
        ConfigNode.find (.object m) k = some (leaf v)) ↔
      ∀ k v, ConfigNode.find (.object m) k = some (leaf v) → SafeValue v := by
  have hread : ∀ k v, (parse Options.default ((leafEntries lib m).flatMap fun e =>
      entryLine e.1 e.2 ++ [newline]) .fresh).find k = some (leaf v) ↔
      (readBack lib m).reverse.lookup k = some v := by
    intro k v
    rw [find_parse, entriesOf_dump, Option.map_eq_some_iff]
    constructor
    · rintro ⟨v', hv', heq⟩
      cases heq
      exact hv'
    · intro hv
      exact ⟨v, hv, rfl⟩
  constructor
  · rintro ⟨text, hdump, hsame⟩
    rw [dump_object] at hdump
    cases hdump
    have hsafe : ∀ e ∈ leafEntries lib m, ¬ ¬ SafeValue e.2 := by
      apply not_of_ascending (f := fun e => e.2.length)
      intro e he hbad
      have hmem := (mem_leafEntries lib h.leaves).mp he
      have hback := (hread _ _).mp ((hsame _ _).mpr (h.find_iff.mpr hmem))
      exact h.longer_of_mem_readBack lib hbad
        (List.mem_reverse.mp (AssocList.mem_of_lookup hback))
    intro k v hfind
    exact not_not.mp (hsafe _ ((mem_leafEntries lib h.leaves).mpr (h.find_iff.mp hfind)))
  · intro hsafe
    refine ⟨_, dump_object lib m, ?_⟩
    intro k v
    have hback : readBack lib m = leafEntries lib m :=
      h.readBack_of_safe lib fun k v hmem => hsafe k v (h.find_iff.mpr hmem)
    have hunique : (keys (leafEntries lib m).reverse).Nodup := by
      rw [keys, List.map_reverse]
      exact List.nodup_reverse.mpr (nodup_keys_leafEntries lib h.unique)
    rw [hread, hback, AssocList.lookup_eq_some_iff_mem hunique, List.mem_reverse,
      mem_leafEntries lib h.leaves, h.find_iff]

end Tree

def inOrder : Library where
  printDouble _ _ := []
  printFloat _ := []
  order m := m
  order_perm m := List.Perm.refl m

theorem confTree_single {k : Str} (hkey : GoodKey k) (hhash : k.head? ≠ some hash) (v : Str) :
    ConfTree [(k, leaf v)] := by
  refine ⟨by simp, ?_⟩
  intro e he
  rw [List.mem_singleton.mp he]
  exact ⟨hkey, hhash, v, rfl⟩

/-- A single entry with a blank inside its value comes back. -/
theorem conf_roundTrip_plain :
    ∃ text, dump Options.default inOrder Options.default
        (.object [(ascii "k", leaf (ascii "a b"))]) = .ok text ∧
      ∀ k v, (parse Options.default text .fresh).find k = some (leaf v) ↔
        ConfigNode.find (.object [(ascii "k", leaf (ascii "a b"))]) k = some (leaf v) := by
  refine (conf_roundTrip_iff inOrder _ (confTree_single (by decide) (by decide) _)).mpr ?_
  intro k v hfind
  have hmem := AssocList.mem_of_lookup hfind
  have hv : v = ascii "a b" := by
    simpa [ConfigNode.members, leaf] using congrArg Prod.snd (List.mem_singleton.mp hmem)
  rw [hv]
  refine ⟨by decide, by decide, ?_, ?_⟩
  · rintro ⟨c, hin, _⟩
    exact absurd (hin.subset (List.mem_cons_self)) (by decide)
  · rintro ⟨_, hends⟩
    exact absurd hends (by decide)

/-- A value that starts with a blank comes back without it. -/
theorem conf_dump_loses_leading_blank :
    ¬ ∀ (lib : Library) (m : List (Str × ConfigNode)), ConfTree m →
      ∃ text, dump Options.default lib Options.default (.object m) = .ok text ∧
        ∀ k v, (parse Options.default text .fresh).find k = some (leaf v) ↔
          ConfigNode.find (.object m) k = some (leaf v) := by
  intro hall
  obtain ⟨text, hdump, hsame⟩ := hall inOrder [(ascii "k", leaf (ascii " a"))]
    (confTree_single (by decide) (by decide) _)
  cases hdump
  have hread := (hsame (ascii "k") (ascii " a")).mpr rfl
  cases hread

end NetTest.Config.ConfParser
