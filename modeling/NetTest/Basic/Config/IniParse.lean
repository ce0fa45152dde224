import NetTest.Basic.Config.Lines

/-!
# What an INI text means

`IniParser::parse` at the default options, line by line.  A line is skipped,
opens a section or holds an entry, and what the result holds at a section and a
key is the last entry for the key in the last block of the section.
-/

namespace NetTest.Config

open AssocList (keys)
open Text (Trimmed)

/-- The node holds the string `v` at `(section, key)`. -/
def LeafAt (root : ConfigNode) (s k v : Str) : Prop :=
  ∃ node, root.find s = some node ∧ node.find k = some (leaf v)

namespace IniParser

/-! ## Lines -/

inductive Line where
  | skip
  | header (name : Str)
  | entry (key value : Str)
  deriving DecidableEq

def Line.isHeader : Line → Bool
  | .header _ => true
  | .skip => false
  | .entry _ _ => false

def classify (raw : Str) : Line :=
  let line := trim raw
  if line = [] ∨ line.head? = some semicolon ∨ line.head? = some hash then .skip
  else if line.head? = some openBracket ∧ line.getLast? = some closeBracket then
    .header (trim ((line.drop 1).take (line.length - 2)))
  else
    match keyValue equals line with
    | none => .skip
    | some (key, value) => .entry key value

def State.apply (st : State) : Line → State
  | .skip => st
  | .header name => ⟨name, st.root.set name .fresh⟩
  | .entry key value =>
      if st.currentSection = [] then st
      else
        { st with
          root := st.root.set st.currentSection
            ((st.root.get st.currentSection).set key (leaf value)) }

theorem readLine_eq (st : State) (raw : Str) :
    readLine Options.default st raw = st.apply (classify raw) := by
  unfold readLine classify
  dsimp only
  have hdelimiter : firstByte Options.default.keyValueDelimiter = equals := rfl
  rw [hdelimiter]
  by_cases hskip : trim raw = [] ∨ (trim raw).head? = some semicolon ∨
      (trim raw).head? = some hash
  · rw [if_pos hskip, if_pos hskip]
    rfl
  · rw [if_neg hskip, if_neg hskip]
    by_cases hheader : (trim raw).head? = some openBracket ∧
        (trim raw).getLast? = some closeBracket
    · rw [if_pos hheader, if_pos hheader]
      rfl
    · rw [if_neg hheader, if_neg hheader]
      cases hkv : keyValue equals (trim raw) with
      | none => split <;> rfl
      | some kv => rfl

def linesOf (text : Str) : List Line := (Text.lines newline text).map classify

theorem parse_eq (text : Str) (root : ConfigNode) :
    parse Options.default text root = ((linesOf text).foldl State.apply ⟨[], root⟩).root := by
  have hstep : readLine Options.default = fun st raw => st.apply (classify raw) := by
    funext st raw
    exact readLine_eq st raw
  unfold parse linesOf
  rw [hstep, List.foldl_map]

/-! ## Blocks -/

/-- The lines up to the next header. -/
def leading (ls : List Line) : List Line := ls.takeWhile fun l => !l.isHeader

/-- The lines between the last header of the section and the header after it. -/
def lastBlock (s : Str) : List Line → Option (List Line)
  | [] => none
  | l :: rest =>
      match lastBlock s rest with
      | some block => some block
      | none => if l = .header s then some (leading rest) else none

def Line.entry? : Line → Option (Str × Str)
  | .entry key value => some (key, value)
  | .skip => none
  | .header _ => none

def lastValue (k : Str) (block : List Line) : Option Str :=
  (block.filterMap Line.entry?).reverse.lookup k

/-- What the lines of a block do to the node of section `s`; nothing is stored
under the empty name. -/
def fillSection (s : Str) (block : List Line) (node : ConfigNode) : ConfigNode :=
  if s = [] then node else assignAll (block.filterMap Line.entry?) node

theorem fillSection_no_lines (s : Str) : fillSection s [] = id := by
  funext node
  simp [fillSection, assignAll]

theorem fillSection_no_name (block : List Line) : fillSection [] block = id := by
  funext node
  simp [fillSection]

theorem leading_header (name : Str) (rest : List Line) : leading (.header name :: rest) = [] := rfl

/-- What a run of lines leaves at a section, from any state whose current
section is present. -/
theorem find_foldl_apply (ls : List Line) (st : State)
    (hcur : st.currentSection ≠ [] → (st.root.find st.currentSection).isSome) (s : Str) :
    (ls.foldl State.apply st).root.find s =
      match lastBlock s ls with
      | some block => some (fillSection s block .fresh)
      | none =>
          if s = st.currentSection then (st.root.find s).map (fillSection s (leading ls))
          else st.root.find s := by
  induction ls generalizing st with
  | nil => simp [lastBlock, leading, fillSection_no_lines]
  | cons l ls ih =>
      rw [List.foldl_cons]
      cases l with
      | skip =>
          rw [State.apply, ih st hcur, lastBlock]
          cases lastBlock s ls with
          | some block => rfl
          | none => rfl
      | header name =>
          have hset : (st.root.set name .fresh).find name = some .fresh := find_set_self _ _ _
          rw [State.apply, ih _ (fun _ => by rw [hset]; rfl), lastBlock]
          cases hblock : lastBlock s ls with
          | some block => rfl
          | none =>
              by_cases hs : s = name
              · subst hs
                simp [hset]
              · have hne : Line.header name ≠ .header s := by
                  intro heq
                  cases heq
                  exact hs rfl
                simp only [if_neg hs, if_neg hne, find_set_of_ne _ hs, leading_header]
                split
                · rw [fillSection_no_lines, Option.map_id_apply]
                · rfl
      | entry key value =>
          rw [lastBlock]
          by_cases hempty : st.currentSection = []
          · rw [State.apply, if_pos hempty, ih st hcur]
            cases hblock : lastBlock s ls with
            | some block => rfl
            | none =>
                simp only [hempty, reduceCtorEq, if_false]
                split
                · rename_i hs
                  rw [hs, fillSection_no_name, fillSection_no_name]
                · rfl
          · rw [State.apply, if_neg hempty, ih _ (fun _ => by simp [find_set_self])]
            cases hblock : lastBlock s ls with
            | some block => rfl
            | none =>
                simp only [reduceCtorEq, if_false]
                split
                · rename_i hs
                  obtain ⟨node, hnode⟩ := Option.isSome_iff_exists.mp (hcur hempty)
                  rw [hs, find_set_self, hnode]
                  simp [fillSection, hempty, leading, Line.isHeader, Line.entry?, assignAll,
                    ConfigNode.get, hnode]
                · rename_i hs
                  exact find_set_of_ne _ hs _

/-- The section a parsed text holds, from a fresh node. -/
theorem find_parse (text : Str) (s : Str) :
    (parse Options.default text .fresh).find s =
      (lastBlock s (linesOf text)).map fun block => fillSection s block .fresh := by
  rw [parse_eq, find_foldl_apply _ _ (fun h => absurd rfl h)]
  cases lastBlock s (linesOf text) with
  | some block => rfl
  | none => simp

theorem leafAt_parse {text s k v : Str} :
    LeafAt (parse Options.default text .fresh) s k v ↔
      s ≠ [] ∧ ∃ block, lastBlock s (linesOf text) = some block ∧ lastValue k block = some v := by
  have hfind : ∀ block, s ≠ [] →
      (fillSection s block .fresh).find k = (lastValue k block).map leaf := by
    intro block hs
    rw [fillSection, if_neg hs, find_assignAll, find_fresh, Option.or_none, lastValue]
  constructor
  · rintro ⟨node, hnode, hleaf⟩
    rw [find_parse] at hnode
    obtain ⟨block, hblock, rfl⟩ := Option.map_eq_some_iff.mp hnode
    by_cases hs : s = []
    · rw [hs, fillSection_no_name] at hleaf
      cases hleaf
    · rw [hfind block hs] at hleaf
      obtain ⟨v', hv', heq⟩ := Option.map_eq_some_iff.mp hleaf
      cases heq
      exact ⟨hs, block, hblock, hv'⟩
  · rintro ⟨hs, block, hblock, hvalue⟩
    refine ⟨fillSection s block .fresh, ?_, ?_⟩
    · rw [find_parse, hblock]
      rfl
    · rw [hfind block hs, hvalue]
      rfl

/-! ## Lines that a leaf comes from -/

theorem mem_of_lastBlock {s : Str} {ls block : List Line} (h : lastBlock s ls = some block) :
    ∀ l ∈ block, l ∈ ls := by
  induction ls with
  | nil => cases h
  | cons l ls ih =>
      rw [lastBlock] at h
      intro x hx
      cases hrest : lastBlock s ls with
      | some b =>
          rw [hrest] at h
          cases h
          exact List.mem_cons_of_mem _ (ih hrest x hx)
      | none =>
          rw [hrest] at h
          simp only at h
          split at h
          · cases h
            exact List.mem_cons_of_mem _ (List.takeWhile_subset _ hx)
          · cases h

theorem entry_of_lastValue {k v : Str} {block : List Line} (h : lastValue k block = some v) :
    Line.entry k v ∈ block := by
  have hmem := AssocList.mem_of_lookup h
  rw [List.mem_reverse, List.mem_filterMap] at hmem
  obtain ⟨l, hl, hentry⟩ := hmem
  cases l with
  | skip => cases hentry
  | header name => cases hentry
  | entry key value =>
      cases hentry
      exact hl

theorem entry_of_leafAt {text s k v : Str}
    (h : LeafAt (parse Options.default text .fresh) s k v) : Line.entry k v ∈ linesOf text := by
  obtain ⟨_, block, hblock, hvalue⟩ := leafAt_parse.mp h
  exact mem_of_lastBlock hblock _ (entry_of_lastValue hvalue)

theorem lastBlock_isSome_of_header {s : Str} {ls : List Line} (h : Line.header s ∈ ls) :
    (lastBlock s ls).isSome := by
  induction ls with
  | nil => cases h
  | cons l ls ih =>
      rw [lastBlock]
      cases hrest : lastBlock s ls with
      | some block => rfl
      | none =>
          rcases List.mem_cons.mp h with rfl | h
          · simp
          · have := ih h
            simp [hrest] at this

theorem header_of_lastBlock {s : Str} {ls block : List Line} (h : lastBlock s ls = some block) :
    Line.header s ∈ ls := by
  induction ls with
  | nil => cases h
  | cons l ls ih =>
      rw [lastBlock] at h
      cases hrest : lastBlock s ls with
      | some b => exact List.mem_cons_of_mem _ (ih (hrest.trans (by simpa [hrest] using h)))
      | none =>
          by_cases hl : l = .header s
          · exact hl ▸ List.mem_cons_self
          · simp [hrest, hl] at h

/-! ## The shape of the result -/

/-- A key that starts no comment line. -/
structure EntryKey (key : Str) : Prop extends GoodKey key where
  no_comment : key.head? ≠ some semicolon ∧ key.head? ≠ some hash

structure SectionName (name : Str) : Prop where
  trimmed : Trimmed isSpace name
  no_newline : newline ∉ name

def Line.Good : Line → Prop
  | .skip => True
  | .header name => SectionName name
  | .entry key _ => EntryKey key

theorem classify_good {raw : Str} (hraw : newline ∉ raw) : (classify raw).Good := by
  have hnewline : newline ∉ trim raw := fun h => hraw (Text.mem_of_mem_trim h)
  unfold classify
  dsimp only
  split
  · trivial
  · rename_i hskip
    rw [not_or, not_or] at hskip
    split
    · refine ⟨Text.trimmed_trim _, fun h => hnewline ?_⟩
      exact List.mem_of_mem_drop (List.mem_of_mem_take (Text.mem_of_mem_trim h))
    · cases hkv : keyValue equals (trim raw) with
      | none => trivial
      | some kv =>
          obtain ⟨hkey, hhead⟩ := goodKey_of_keyValue (Text.trimmed_trim raw) hnewline hkv
          refine ⟨hkey, ?_, ?_⟩
          · intro h
            exact hskip.2.1 (hhead _ h)
          · intro h
            exact hskip.2.2 (hhead _ h)

theorem linesOf_good (text : Str) : ∀ l ∈ linesOf text, l.Good := by
  intro l hl
  obtain ⟨raw, hraw, rfl⟩ := List.mem_map.mp hl
  exact classify_good (Text.not_mem_of_mem_lines hraw)

/-- A default-constructed node or an object whose members all satisfy `P`. -/
structure Holding (P : Str × ConfigNode → Prop) (node : ConfigNode) : Prop where
  kind : node = .fresh ∨ ∃ m, node = .object m
  unique : (keys node.members).Nodup
  each : ∀ e ∈ node.members, P e

theorem holding_fresh (P : Str × ConfigNode → Prop) : Holding P .fresh :=
  ⟨.inl rfl, List.nodup_nil, fun _ h => nomatch h⟩

theorem Holding.set {P : Str × ConfigNode → Prop} {node : ConfigNode} (h : Holding P node)
    {key : Str} {child : ConfigNode} (hP : P (key, child)) : Holding P (node.set key child) := by
  refine ⟨.inr ⟨_, rfl⟩, AssocList.nodup_keys_assign h.unique, ?_⟩
  intro e he
  rcases AssocList.mem_assign he with rfl | he
  · exact hP
  · exact h.each e he

theorem Holding.get {P : Str × ConfigNode → Prop} {Q : ConfigNode → Prop} {node : ConfigNode}
    (h : Holding P node) (hQ : ∀ e, P e → Q e.2) (hfresh : Q .fresh) (key : Str) :
    Q (node.get key) := by
  unfold ConfigNode.get
  cases hfind : node.find key with
  | none => exact hfresh
  | some child => exact hQ _ (h.each _ (AssocList.mem_of_lookup hfind))

def SectionNode : ConfigNode → Prop := Holding fun e => EntryKey e.1 ∧ ∃ v, e.2 = leaf v

def ParsedRoot : ConfigNode → Prop := Holding fun e => SectionName e.1 ∧ SectionNode e.2

theorem ParsedRoot.apply {st : State} (h : ParsedRoot st.root)
    (hname : SectionName st.currentSection) {l : Line} (hl : l.Good) :
    ParsedRoot (st.apply l).root ∧ SectionName (st.apply l).currentSection := by
  cases l with
  | skip => exact ⟨h, hname⟩
  | header name => exact ⟨Holding.set h ⟨hl, holding_fresh _⟩, hl⟩
  | entry key value =>
      rw [State.apply]
      split
      · exact ⟨h, hname⟩
      · have hsection : SectionNode (st.root.get st.currentSection) :=
          Holding.get h (fun _ he => he.2) (holding_fresh _) _
        exact ⟨Holding.set h ⟨hname, Holding.set hsection ⟨hl, value, rfl⟩⟩, hname⟩

theorem parsedRoot_foldl (ls : List Line) (hls : ∀ l ∈ ls, l.Good) {st : State}
    (h : ParsedRoot st.root) (hname : SectionName st.currentSection) :
    ParsedRoot (ls.foldl State.apply st).root := by
  induction ls generalizing st with
  | nil => exact h
  | cons l ls ih =>
      rw [List.forall_mem_cons] at hls
      have hstep := ParsedRoot.apply h hname hls.1
      exact ih hls.2 hstep.1 hstep.2

theorem parsedRoot_parse (text : Str) : ParsedRoot (parse Options.default text .fresh) := by
  rw [parse_eq]
  exact parsedRoot_foldl _ (linesOf_good text) (holding_fresh _) ⟨by decide, by decide⟩

end IniParser

end NetTest.Config
