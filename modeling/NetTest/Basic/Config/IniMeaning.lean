import NetTest.Basic.Config.IniParse

/-!
# The declarative meaning of an INI text

What a text says about a section and a key is read off its lines, without the
state the reader carries along: the last header of the section opens the block
that counts, and in it the last entry for the key.
-/

namespace NetTest.Config.IniParser

/-- Name of the section that is open behind the lines, empty if there is none. -/
def openSection (ls : List Line) : Str :=
  ls.foldl (fun cur l => match l with
    | .header name => name
    | .skip => cur
    | .entry _ _ => cur) []

/-- `block` is what stands between the last header of `s` and the next header or
the end. -/
structure LastBlockAt (s : Str) (ls before block after : List Line) : Prop where
  split : ls = before ++ .header s :: (block ++ after)
  entries : ∀ l ∈ block, l.isHeader = false
  next : ∀ l ∈ after.head?, l.isHeader = true
  last : Line.header s ∉ after

/-- The last entry for `k` in the block has the value `v`. -/
def LastEntry (k v : Str) (block : List Line) : Prop :=
  ∃ earlier later, block = earlier ++ .entry k v :: later ∧ ∀ v', Line.entry k v' ∉ later

theorem leading_spec (ls : List Line) :
    ∃ after, ls = leading ls ++ after ∧ (∀ l ∈ leading ls, l.isHeader = false) ∧
      ∀ l ∈ after.head?, l.isHeader = true := by
  refine ⟨ls.dropWhile fun l => !l.isHeader, List.takeWhile_append_dropWhile.symm, ?_, ?_⟩
  · intro l hl
    simpa using List.mem_takeWhile_imp hl
  · intro l hl
    have hnot := List.head?_dropWhile_not (fun l : Line => !l.isHeader) ls
    rw [Option.mem_def.mp hl] at hnot
    simpa using hnot

theorem lastBlock_none {s : Str} {ls : List Line} (h : lastBlock s ls = none) :
    Line.header s ∉ ls := by
  intro hmem
  have hsome := lastBlock_isSome_of_header hmem
  rw [h] at hsome
  cases hsome

theorem lastBlockAt_of_lastBlock {s : Str} {ls block : List Line}
    (h : lastBlock s ls = some block) :
    ∃ before after, LastBlockAt s ls before block after := by
  induction ls with
  | nil => cases h
  | cons l ls ih =>
      rw [lastBlock] at h
      cases hrest : lastBlock s ls with
      | some b =>
          rw [hrest] at h
          cases h
          rcases ih hrest with ⟨before, after, hblock⟩
          refine ⟨l :: before, after, ?_, hblock.entries, hblock.next, hblock.last⟩
          rw [hblock.split]
          rfl
      | none =>
          rw [hrest] at h
          simp only at h
          split at h
          · rename_i hheader
            cases h
            rcases leading_spec ls with ⟨after, hsplit, hentries, hnext⟩
            refine ⟨[], after, ?_, hentries, hnext, ?_⟩
            · rw [hheader, List.nil_append, ← hsplit]
            · intro hmem
              apply lastBlock_none hrest
              rw [hsplit]
              exact List.mem_append_right _ hmem
          · cases h

theorem lastValue_some {k v : Str} {block : List Line} (h : lastValue k block = some v) :
    LastEntry k v block := by
  rcases List.lookup_eq_some_iff.mp h with ⟨later, earlier, hsplit, hother⟩
  have hentries : block.filterMap Line.entry? = earlier.reverse ++ (k, v) :: later.reverse := by
    rw [← List.reverse_reverse (block.filterMap Line.entry?), hsplit]
    simp
  rcases List.filterMap_eq_append_iff.mp hentries with ⟨b₁, b₂, hblock, _, hb₂⟩
  rcases List.filterMap_eq_cons_iff.mp hb₂ with ⟨b₃, l, b₄, hb₂', _, hl, hb₄⟩
  have hentry : l = .entry k v := by
    cases l with
    | skip => cases hl
    | header name => cases hl
    | entry key value =>
        cases hl
        rfl
  refine ⟨b₁ ++ b₃, b₄, ?_, ?_⟩
  · rw [hblock, hb₂', hentry, List.append_assoc]
  · intro v' hmem
    have hin : (k, v') ∈ later := by
      rw [← List.mem_reverse, ← hb₄]
      exact List.mem_filterMap.mpr ⟨_, hmem, rfl⟩
    simpa using hother _ hin

theorem lastValue_none {k : Str} {block : List Line} (h : lastValue k block = none) (v : Str) :
    Line.entry k v ∉ block := by
  intro hmem
  have hin : (k, v) ∈ (block.filterMap Line.entry?).reverse :=
    List.mem_reverse.mpr (List.mem_filterMap.mpr ⟨_, hmem, rfl⟩)
  have hne := List.lookup_eq_none_iff.mp h _ hin
  simp at hne

/-- What the text leaves at a section. -/
theorem find_parse_root (text : Str) (root : ConfigNode) (s : Str) :
    (parse Options.default text root).find s =
      match lastBlock s (linesOf text) with
      | some block => some (fillSection s block .fresh)
      | none => root.find s := by
  rw [parse_eq, find_foldl_apply _ _ (fun h => absurd rfl h)]
  cases lastBlock s (linesOf text) with
  | some block => rfl
  | none =>
      simp only
      split
      · rename_i hs
        rw [hs, fillSection_no_name, Option.map_id_apply]
      · rfl

theorem currentSection_foldl (ls : List Line) (st : State) :
    (ls.foldl State.apply st).currentSection =
      ls.foldl (fun cur l => match l with
        | .header name => name
        | .skip => cur
        | .entry _ _ => cur) st.currentSection := by
  induction ls generalizing st with
  | nil => rfl
  | cons l ls ih =>
      rw [List.foldl_cons, List.foldl_cons, ih]
      cases l with
      | skip => rfl
      | header name => rfl
      | entry key value =>
          rw [State.apply]
          split <;> rfl

/-- An entry without an open section might as well not be there. -/
theorem parse_drop_entry {text text' : Str} {before after : List Line} {k v : Str}
    (htext : linesOf text = before ++ .entry k v :: after) (hopen : openSection before = [])
    (htext' : linesOf text' = before ++ after) (root : ConfigNode) :
    parse Options.default text root = parse Options.default text' root := by
  have hcurrent : (before.foldl State.apply ⟨[], root⟩).currentSection = [] := by
    rw [currentSection_foldl]
    exact hopen
  rw [parse_eq, parse_eq, htext, htext', List.foldl_append, List.foldl_append, List.foldl_cons,
    State.apply, if_pos hcurrent]

/-- The meaning of an INI text: sections with a header hold the last entries of
their last blocks and nothing else, the others are as before, and entries
without an open section do not count. -/
theorem ini_parse_meaning (text : Str) (root : ConfigNode) :
    (∀ s, s ≠ [] → Line.header s ∈ linesOf text →
      ∃ before block after, LastBlockAt s (linesOf text) before block after ∧
        ∃ node, (parse Options.default text root).find s = some node ∧
          ∀ k, (∃ v, LastEntry k v block ∧ node.find k = some (leaf v)) ∨
            ((∀ v, Line.entry k v ∉ block) ∧ node.find k = none)) ∧
    (∀ s, Line.header s ∉ linesOf text →
      (parse Options.default text root).find s = root.find s) ∧
    (∀ text' before k v after, linesOf text = before ++ .entry k v :: after →
      openSection before = [] → linesOf text' = before ++ after →
        parse Options.default text root = parse Options.default text' root) := by
  refine ⟨?_, ?_, ?_⟩
  · intro s hs hheader
    rcases Option.isSome_iff_exists.mp (lastBlock_isSome_of_header hheader) with ⟨block, hblock⟩
    rcases lastBlockAt_of_lastBlock hblock with ⟨before, after, hat⟩
    refine ⟨before, block, after, hat, fillSection s block .fresh, ?_, ?_⟩
    · rw [find_parse_root, hblock]
    · intro k
      rw [fillSection, if_neg hs, find_assignAll, find_fresh, Option.or_none]
      change (∃ v, _ ∧ (lastValue k block).map leaf = _) ∨ (_ ∧ (lastValue k block).map leaf = none)
      cases hvalue : lastValue k block with
      | some v => exact Or.inl ⟨v, lastValue_some hvalue, rfl⟩
      | none => exact Or.inr ⟨lastValue_none hvalue, rfl⟩
  · intro s hheader
    rw [find_parse_root]
    cases hblock : lastBlock s (linesOf text) with
    | some block => exact absurd (header_of_lastBlock hblock) hheader
    | none => rfl
  · intro text' before k v after htext hopen htext'
    exact parse_drop_entry htext hopen htext' root

end NetTest.Config.IniParser
