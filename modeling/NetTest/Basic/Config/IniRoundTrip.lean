import NetTest.Basic.Config.IniParse

/-!
# Writing an INI text and reading it back

A tree of sections is written as a header line, one line for each entry and an
empty line for each section, in the iteration order of the maps.  Read back, the
text gives the same leaves, unless an entry line looks like a header: its key
starts with an opening bracket, and its value is written without quotes and ends
with a closing one.
-/

namespace NetTest.Config.IniParser

open AssocList (keys)
open Text (Trimmed)

/-! ## The lines of a dumped tree -/

/-- Sections with their entries, in the order they are written. -/
abbrev Doc := List (Str × List (Str × Str))

def rawLines (sec : Str × List (Str × Str)) : List Str :=
  ([openBracket] ++ sec.1 ++ [closeBracket]) ::
    (sec.2.map (fun e => entryLine e.1 (addQuotesIfNeeded e.2)) ++ [[]])

def Doc.render (doc : Doc) : Str := (doc.flatMap rawLines).flatMap (· ++ [newline])

/-- The entry is written as a line that reads as a header. -/
def Bracketed (k v : Str) : Prop :=
  k.head? = some openBracket ∧ Plain v ∧ v.getLast? = some closeBracket

instance (k v : Str) : Decidable (Bracketed k v) := inferInstanceAs (Decidable (_ ∧ _))

theorem classify_header {name : Str} (h : SectionName name) :
    classify ([openBracket] ++ name ++ [closeBracket]) = .header name := by
  have htrim : trim ([openBracket] ++ name ++ [closeBracket]) =
      [openBracket] ++ name ++ [closeBracket] := by
    apply Text.trim_of_trimmed
    constructor
    · intro c hc
      cases hc
      decide
    · intro c hc
      rw [List.getLast?_concat] at hc
      cases hc
      decide
  have hinner : (([openBracket] ++ name ++ [closeBracket]).drop 1).take
      (([openBracket] ++ name ++ [closeBracket]).length - 2) = name := by
    simp
  unfold classify
  dsimp only
  rw [htrim, hinner, List.getLast?_concat, if_neg (by simp; decide), if_pos ⟨rfl, rfl⟩, trim,
    Text.trim_of_trimmed h.trimmed]

theorem getLastD_addQuotesIfNeeded_iff {v : Str} :
    (addQuotesIfNeeded v).getLastD equals = closeBracket ↔
      Plain v ∧ v.getLast? = some closeBracket := by
  rcases addQuotesIfNeeded_cases v with ⟨hplain, heq⟩ | ⟨hplain, heq⟩
  · rw [heq, List.getLastD_eq_getLast?]
    cases v.getLast? with
    | none => simp; decide
    | some c => simp [hplain]
  · rw [heq, ← List.cons_append, List.getLastD_concat]
    simp only [hplain, false_and, iff_false]
    decide

theorem classify_entryLine {k : Str} (hk : EntryKey k) (v : Str) :
    if Bracketed k v then ∃ name, classify (entryLine k (addQuotesIfNeeded v)) = .header name
    else classify (entryLine k (addQuotesIfNeeded v)) = .entry k v := by
  have hhead := head?_entryLine hk.trimmed (addQuotesIfNeeded v)
  have hlast := getLast?_entryLine k (trimmed_addQuotesIfNeeded v)
  have hkv := keyValue_entryLine hk.toGoodKey (addQuotesIfNeeded v)
  rw [readValue_addQuotesIfNeeded] at hkv
  have hskip : ¬ (trim (entryLine k (addQuotesIfNeeded v)) = [] ∨
      (trim (entryLine k (addQuotesIfNeeded v))).head? = some semicolon ∨
      (trim (entryLine k (addQuotesIfNeeded v))).head? = some hash) := by
    rw [hhead]
    rintro (hnil | hfirst | hfirst)
    · rw [hnil] at hhead
      cases hhead
    · cases k with
      | nil => exact absurd hfirst (by decide)
      | cons c k => exact hk.no_comment.1 hfirst
    · cases k with
      | nil => exact absurd hfirst (by decide)
      | cons c k => exact hk.no_comment.2 hfirst
  have hbracket : ((trim (entryLine k (addQuotesIfNeeded v))).head? = some openBracket ∧
      (trim (entryLine k (addQuotesIfNeeded v))).getLast? = some closeBracket) ↔
      Bracketed k v := by
    rw [hhead, hlast, Option.some.injEq, Option.some.injEq, getLastD_addQuotesIfNeeded_iff]
    have hfirst : k.headD equals = openBracket ↔ k.head? = some openBracket := by
      cases k with
      | nil => decide
      | cons c k => simp
    rw [hfirst]
    rfl
  unfold classify
  dsimp only
  rw [if_neg hskip]
  split
  · rename_i hb
    rw [if_pos (hbracket.mpr hb)]
    exact ⟨_, rfl⟩
  · rename_i hb
    rw [if_neg (fun h => hb (hbracket.mp h)), hkv]

/-- What the writer needs of a document. -/
structure Doc.Writable (doc : Doc) : Prop where
  names : ∀ sec ∈ doc, SectionName sec.1
  keys : ∀ sec ∈ doc, ∀ e ∈ sec.2, EntryKey e.1

theorem linesOf_render {doc : Doc} (h : doc.Writable) :
    linesOf doc.render = doc.flatMap fun sec =>
      .header sec.1 ::
        (sec.2.map (fun e => classify (entryLine e.1 (addQuotesIfNeeded e.2))) ++ [.skip]) := by
  have hraw : ∀ line ∈ doc.flatMap rawLines, newline ∉ line := by
    intro line hline
    obtain ⟨sec, hsec, hline⟩ := List.mem_flatMap.mp hline
    rw [rawLines, List.mem_cons, List.mem_append, List.mem_map, List.mem_singleton] at hline
    rcases hline with rfl | ⟨e, he, rfl⟩ | rfl
    · simp only [List.mem_append, List.mem_singleton, not_or]
      exact ⟨⟨by decide, (h.names sec hsec).no_newline⟩, by decide⟩
    · exact newline_not_mem_entryLine (h.keys sec hsec e he).no_newline
        (newline_not_mem_addQuotesIfNeeded e.2)
    · simp
  unfold linesOf Doc.render
  rw [Text.lines_unlines hraw, List.map_flatMap]
  have hskip : classify [] = .skip := by decide
  apply List.flatMap_congr
  intro sec hsec
  rw [rawLines, List.map_cons, classify_header (h.names sec hsec), List.map_append, List.map_map,
    List.map_singleton, hskip]
  rfl

theorem not_bracketed_of_entry_mem {doc : Doc} (h : doc.Writable) {k v : Str}
    (hmem : Line.entry k v ∈ linesOf doc.render) : ¬ Bracketed k v := by
  rw [linesOf_render h] at hmem
  obtain ⟨sec, hsec, hmem⟩ := List.mem_flatMap.mp hmem
  rw [List.mem_cons, List.mem_append, List.mem_map, List.mem_singleton] at hmem
  rcases hmem with hmem | ⟨e, he, heq⟩ | hmem
  · cases hmem
  · have hclass := classify_entryLine (h.keys sec hsec e he) e.2
    split at hclass
    · obtain ⟨name, hname⟩ := hclass
      rw [hname] at heq
      cases heq
    · rename_i hb
      rw [hclass] at heq
      cases heq
      exact hb
  · cases hmem

/-! ## Reading a document back -/

def entryLines (es : List (Str × Str)) : List Line := es.map (fun e => .entry e.1 e.2) ++ [.skip]

def Doc.lines (doc : Doc) : List Line := doc.flatMap fun sec => .header sec.1 :: entryLines sec.2

theorem isHeader_of_mem_entryLines {es : List (Str × Str)} : ∀ l ∈ entryLines es, l.isHeader = false := by
  intro l hl
  rw [entryLines, List.mem_append, List.mem_map, List.mem_singleton] at hl
  rcases hl with ⟨e, _, rfl⟩ | rfl
  · rfl
  · rfl

theorem lastBlock_append_of_no_header {s : Str} {block : List Line}
    (h : ∀ l ∈ block, l.isHeader = false) (rest : List Line) :
    lastBlock s (block ++ rest) = lastBlock s rest := by
  induction block with
  | nil => rfl
  | cons l block ih =>
      rw [List.forall_mem_cons] at h
      have hne : l ≠ .header s := by
        intro heq
        rw [heq] at h
        cases h.1
      rw [List.cons_append, lastBlock, ih h.2]
      cases lastBlock s rest with
      | some b => rfl
      | none => exact if_neg hne

theorem leading_append_of_no_header {block : List Line} (h : ∀ l ∈ block, l.isHeader = false)
    (rest : List Line) : leading (block ++ rest) = block ++ leading rest := by
  unfold leading
  rw [List.takeWhile_append_of_pos]
  intro l hl
  rw [h l hl]
  rfl

theorem leading_doc (doc : Doc) : leading doc.lines = [] := by
  cases doc with
  | nil => rfl
  | cons sec doc => rfl

theorem lastBlock_doc {doc : Doc} (h : (keys doc).Nodup) (s : Str) :
    lastBlock s doc.lines = (doc.lookup s).map entryLines := by
  induction doc with
  | nil => rfl
  | cons sec doc ih =>
      rw [AssocList.keys_cons, List.nodup_cons] at h
      have hlines : Doc.lines (sec :: doc) = .header sec.1 :: (entryLines sec.2 ++ Doc.lines doc) := by
        simp [Doc.lines]
      rw [hlines, lastBlock, lastBlock_append_of_no_header isHeader_of_mem_entryLines,
        leading_append_of_no_header isHeader_of_mem_entryLines, leading_doc, List.append_nil, ih h.2,
        List.lookup_cons]
      by_cases hs : s = sec.1
      · have hnone : doc.lookup s = none := by
          rw [List.lookup_eq_none_iff]
          intro e he
          have hne : s ≠ e.1 := fun heq => h.1 (hs ▸ heq ▸ List.mem_map_of_mem he)
          simpa using hne
        rw [hnone, hs]
        simp
      · have hne : Line.header sec.1 ≠ .header s := by
          intro heq
          cases heq
          exact hs rfl
        rw [beq_false_of_ne hs]
        cases doc.lookup s with
        | none => simp [hne]
        | some es => rfl

theorem lastValue_entryLines {es : List (Str × Str)} (h : (keys es).Nodup) {k v : Str} :
    lastValue k (entryLines es) = some v ↔ (k, v) ∈ es := by
  have hentries : (entryLines es).filterMap Line.entry? = es := by
    rw [entryLines, List.filterMap_append, List.filterMap_map]
    have hsome : Line.entry? ∘ (fun e : Str × Str => Line.entry e.1 e.2) = some := rfl
    rw [hsome, List.filterMap_some]
    simp [Line.entry?]
  have hunique : (keys es.reverse).Nodup := by
    rw [AssocList.keys, List.map_reverse]
    exact List.nodup_reverse.mpr h
  rw [lastValue, hentries, AssocList.lookup_eq_some_iff_mem hunique, List.mem_reverse]

/-- A document without bracketed entries comes back as it was written. -/
theorem leafAt_render {doc : Doc} (h : doc.Writable) (hnames : (keys doc).Nodup)
    (hkeys : ∀ sec ∈ doc, (keys sec.2).Nodup)
    (hplain : ∀ sec ∈ doc, ∀ e ∈ sec.2, ¬ Bracketed e.1 e.2) {s k v : Str} :
    LeafAt (parse Options.default doc.render .fresh) s k v ↔
      s ≠ [] ∧ ∃ es, (s, es) ∈ doc ∧ (k, v) ∈ es := by
  have hlines : linesOf doc.render = doc.lines := by
    rw [linesOf_render h]
    apply List.flatMap_congr
    intro sec hsec
    rw [entryLines]
    congr 2
    apply List.map_congr_left
    intro e he
    have hclass := classify_entryLine (h.keys sec hsec e he) e.2
    rwa [if_neg (hplain sec hsec e he)] at hclass
  rw [leafAt_parse, hlines, lastBlock_doc hnames]
  apply and_congr_right
  intro _
  constructor
  · rintro ⟨block, hblock, hvalue⟩
    obtain ⟨es, hes, rfl⟩ := Option.map_eq_some_iff.mp hblock
    have hmem := (AssocList.lookup_eq_some_iff_mem hnames).mp hes
    exact ⟨es, hmem, (lastValue_entryLines (hkeys _ hmem)).mp hvalue⟩
  · rintro ⟨es, hmem, hentry⟩
    refine ⟨entryLines es, ?_, (lastValue_entryLines (hkeys _ hmem)).mpr hentry⟩
    rw [(AssocList.lookup_eq_some_iff_mem hnames).mpr hmem]
    rfl

/-! ## Dumping a tree -/

def docOf (lib : Library) (m : List (Str × ConfigNode)) : Doc :=
  (lib.order m).map fun e => (e.1, leafEntries lib e.2.members)

def IsObject (node : ConfigNode) : Prop := ∃ m, node = .object m

theorem dumpSection_object (lib : Library) {e : Str × ConfigNode} (h : IsObject e.2) :
    dumpSection Options.default lib Options.default e =
      .ok ((rawLines (e.1, leafEntries lib e.2.members)).flatMap (· ++ [newline])) := by
  obtain ⟨name, node⟩ := e
  obtain ⟨m, rfl⟩ := h
  have hentry : ∀ d : Str × ConfigNode, dumpEntry Options.default lib Options.default d =
      entryLine d.1 (addQuotesIfNeeded (configNodeValueToString lib Options.default d.2)) ++
        [newline] := by
    intro d
    rfl
  have hentries : (leaves lib m).flatMap (dumpEntry Options.default lib Options.default) =
      ((leafEntries lib m).map fun d => entryLine d.1 (addQuotesIfNeeded d.2)).flatMap
        (· ++ [newline]) := by
    rw [leafEntries, List.map_map, List.flatMap_map]
    exact List.flatMap_congr fun d _ => hentry d
  simp only [dumpSection, hentries]
  simp [rawLines, Options.default, ConfigNode.members]

theorem mapM_ok {α β : Type} {f : α → Except Fault β} {g : α → β} {l : List α}
    (h : ∀ a ∈ l, f a = .ok (g a)) : l.mapM f = .ok (l.map g) := by
  induction l with
  | nil => rfl
  | cons a l ih =>
      rw [List.forall_mem_cons] at h
      rw [List.mapM_cons, h.1, ih h.2]
      rfl

theorem ok_of_mapM_ok {α β : Type} {f : α → Except Fault β} {l : List α} {ys : List β}
    (h : l.mapM f = .ok ys) : ∀ a ∈ l, ∃ y, f a = .ok y := by
  induction l generalizing ys with
  | nil =>
      intro a ha
      cases ha
  | cons a l ih =>
      rw [List.mapM_cons] at h
      intro b hb
      cases hfa : f a with
      | error e =>
          rw [hfa] at h
          cases h
      | ok y =>
          rcases List.mem_cons.mp hb with rfl | hb
          · exact ⟨y, hfa⟩
          · cases hrest : l.mapM f with
            | error e =>
                rw [hfa, hrest] at h
                cases h
            | ok ys => exact ih hrest b hb

theorem dump_object (lib : Library) {m : List (Str × ConfigNode)}
    (h : ∀ e ∈ m, IsObject e.2) :
    dump Options.default lib Options.default (.object m) = .ok (docOf lib m).render := by
  have hall : ∀ e ∈ lib.order m, dumpSection Options.default lib Options.default e =
      .ok ((rawLines (e.1, leafEntries lib e.2.members)).flatMap (· ++ [newline])) :=
    fun e he => dumpSection_object lib (h e ((lib.order_perm m).mem_iff.mp he))
  simp only [dump]
  rw [mapM_ok hall]
  rw [Doc.render, List.flatMap_assoc, docOf, List.flatMap_map, List.flatMap_def]
  rfl

theorem object_of_dump_ok {lib : Library} {m : List (Str × ConfigNode)} {text : Str}
    (h : dump Options.default lib Options.default (.object m) = .ok text) :
    ∀ e ∈ m, IsObject e.2 := by
  intro e he
  simp only [dump] at h
  cases hmap : (lib.order m).mapM (dumpSection Options.default lib Options.default) with
  | error fault =>
      rw [hmap] at h
      cases h
  | ok parts =>
      obtain ⟨y, hy⟩ := ok_of_mapM_ok hmap e ((lib.order_perm m).mem_iff.mpr he)
      unfold dumpSection at hy
      split at hy
      · rename_i m' hm'
        exact ⟨m', hm'⟩
      · cases hy
      · cases hy

/-! ## Leaves of a tree and entries of its document -/

section Tree

variable {m : List (Str × ConfigNode)}

theorem SectionNode.leaves {node : ConfigNode} (h : SectionNode node) :
    ∀ e ∈ node.members, ∃ v, e.2 = leaf v :=
  fun e he => (h.each e he).2

theorem SectionNode.mem_entries (lib : Library) {node : ConfigNode} (h : SectionNode node)
    {k v : Str} : (k, v) ∈ leafEntries lib node.members ↔ node.find k = some (leaf v) := by
  rw [mem_leafEntries lib h.leaves, ConfigNode.find, AssocList.lookup_eq_some_iff_mem h.unique]

theorem SectionNode.entryKey (lib : Library) {node : ConfigNode} (h : SectionNode node)
    {e : Str × Str} (he : e ∈ leafEntries lib node.members) : EntryKey e.1 :=
  (h.each _ ((mem_leafEntries lib h.leaves).mp he)).1

theorem writable_docOf (lib : Library) (h : ParsedRoot (.object m)) : (docOf lib m).Writable := by
  have hmem : ∀ sec ∈ docOf lib m, ∃ e ∈ m, sec = (e.1, leafEntries lib e.2.members) := by
    intro sec hsec
    obtain ⟨e, he, rfl⟩ := List.mem_map.mp hsec
    exact ⟨e, (lib.order_perm m).mem_iff.mp he, rfl⟩
  constructor
  · intro sec hsec
    obtain ⟨e, he, rfl⟩ := hmem sec hsec
    exact (h.each e he).1
  · intro sec hsec d hd
    obtain ⟨e, he, rfl⟩ := hmem sec hsec
    exact (h.each e he).2.entryKey lib hd

theorem leafAt_iff_docOf (lib : Library) (h : ParsedRoot (.object m)) {s k v : Str} :
    LeafAt (.object m) s k v ↔ ∃ es, (s, es) ∈ docOf lib m ∧ (k, v) ∈ es := by
  have hfind : ∀ node, ConfigNode.find (.object m) s = some node ↔ (s, node) ∈ m :=
    fun node => AssocList.lookup_eq_some_iff_mem h.unique
  constructor
  · rintro ⟨node, hnode, hleaf⟩
    have hmem := (hfind node).mp hnode
    refine ⟨leafEntries lib node.members, ?_, ((h.each _ hmem).2.mem_entries lib).mpr hleaf⟩
    exact List.mem_map.mpr ⟨(s, node), (lib.order_perm m).mem_iff.mpr hmem, rfl⟩
  · rintro ⟨es, hes, hentry⟩
    obtain ⟨⟨s', node⟩, he, heq⟩ := List.mem_map.mp hes
    cases heq
    have hmem := (lib.order_perm m).mem_iff.mp he
    exact ⟨node, (hfind node).mpr hmem, ((h.each _ hmem).2.mem_entries lib).mp hentry⟩

/-- A tree of objects without empty section names and bracketed leaves comes
back with the leaves it had. -/
theorem roundTrip_of_not_bracketed (lib : Library) (h : ParsedRoot (.object m))
    (hobject : ∀ e ∈ m, IsObject e.2) (hnamed : ∀ e ∈ m, e.1 ≠ [])
    (hplain : ∀ s k v, LeafAt (.object m) s k v → ¬ Bracketed k v) :
    ∃ text, dump Options.default lib Options.default (.object m) = .ok text ∧
      ∀ s k v, LeafAt (parse Options.default text .fresh) s k v ↔ LeafAt (.object m) s k v := by
  refine ⟨_, dump_object lib hobject, ?_⟩
  have hnames : (keys (docOf lib m)).Nodup := by
    have hkeys : keys (docOf lib m) = keys (lib.order m) := by
      simp [keys, docOf, List.map_map, Function.comp_def]
    have hperm : (keys (lib.order m)).Perm (keys m) := (lib.order_perm m).map _
    rw [hkeys, hperm.nodup_iff]
    exact h.unique
  have hkeys : ∀ sec ∈ docOf lib m, (keys sec.2).Nodup := by
    intro sec hsec
    obtain ⟨e, he, rfl⟩ := List.mem_map.mp hsec
    exact nodup_keys_leafEntries lib (h.each e ((lib.order_perm m).mem_iff.mp he)).2.unique
  intro s k v
  rw [leafAt_render (writable_docOf lib h) hnames hkeys, leafAt_iff_docOf lib h]
  · rw [and_iff_right_iff_imp]
    rintro ⟨es, hes, _⟩
    obtain ⟨e, he, heq⟩ := List.mem_map.mp hes
    cases heq
    exact hnamed e ((lib.order_perm m).mem_iff.mp he)
  · intro sec hsec e he
    exact hplain sec.1 e.1 e.2 ((leafAt_iff_docOf lib h).mpr ⟨sec.2, hsec, he⟩)

end Tree

/-! ## Trees built by hand -/

/-- Sections under trimmed non-empty names, string leaves under keys that start
no comment and no header. -/
structure IniTree (m : List (Str × ConfigNode)) : Prop where
  unique : (keys m).Nodup
  names : ∀ e ∈ m, e.1 ≠ [] ∧ Trimmed isSpace e.1 ∧ newline ∉ e.1
  sections : ∀ e ∈ m, ∃ es, e.2 = .object es ∧ (keys es).Nodup ∧ ∀ d ∈ es,
    GoodKey d.1 ∧ d.1.head? ∉ [some semicolon, some hash, some openBracket] ∧ ∃ v, d.2 = leaf v

theorem IniTree.sectionNode {m : List (Str × ConfigNode)} (h : IniTree m) {e : Str × ConfigNode}
    (he : e ∈ m) : SectionNode e.2 := by
  obtain ⟨es, heq, hunique, hentries⟩ := h.sections e he
  rw [heq]
  refine ⟨.inr ⟨es, rfl⟩, hunique, ?_⟩
  intro d hd
  obtain ⟨hkey, hstart, hleaf⟩ := hentries d hd
  simp only [List.mem_cons, List.not_mem_nil, or_false, not_or] at hstart
  exact ⟨⟨hkey, hstart.1, hstart.2.1⟩, hleaf⟩

theorem IniTree.parsedRoot {m : List (Str × ConfigNode)} (h : IniTree m) :
    ParsedRoot (.object m) := by
  refine ⟨.inr ⟨m, rfl⟩, h.unique, ?_⟩
  intro e he
  obtain ⟨_, htrimmed, hnewline⟩ := h.names e he
  exact ⟨⟨htrimmed, hnewline⟩, h.sectionNode he⟩

theorem IniTree.key_head {m : List (Str × ConfigNode)} (h : IniTree m) {s k v : Str}
    (hleaf : LeafAt (.object m) s k v) : k.head? ≠ some openBracket := by
  obtain ⟨node, hnode, hfind⟩ := hleaf
  obtain ⟨es, heq, _, hentries⟩ := h.sections _ (AssocList.mem_of_lookup hnode)
  simp only at heq
  rw [heq] at hfind
  have hstart := (hentries _ (AssocList.mem_of_lookup hfind)).2.1
  simp only [List.mem_cons, List.not_mem_nil, or_false, not_or] at hstart
  exact hstart.2.2

/-- A tree of sections is read back with the leaves it was written with,
whatever bytes the values hold and in whatever order the maps are iterated. -/
theorem ini_roundTrip (lib : Library) (m : List (Str × ConfigNode)) (h : IniTree m) :
    ∃ text, dump Options.default lib Options.default (.object m) = .ok text ∧
      ∀ s k v, LeafAt (parse Options.default text .fresh) s k v ↔ LeafAt (.object m) s k v := by
  refine roundTrip_of_not_bracketed lib h.parsedRoot ?_ (fun e he => (h.names e he).1) ?_
  · intro e he
    obtain ⟨es, heq, _⟩ := h.sections e he
    exact ⟨es, heq⟩
  · intro s k v hleaf hbracketed
    exact h.key_head hleaf hbracketed.1

def reversing : Library where
  printDouble _ _ := []
  printFloat _ := []
  order m := m.reverse
  order_perm m := List.reverse_perm m

/-- Two sections, one of them empty, and a value that needs quotes. -/
theorem ini_roundTrip_quoted :
    ∃ text, dump Options.default reversing Options.default
        (.object [([115], .object [([107], leaf [32, 34, 10, 92]), ([], leaf [])]),
          ([116], .object [])]) = .ok text ∧
      ∀ s k v, LeafAt (parse Options.default text .fresh) s k v ↔
        LeafAt (.object [([115], .object [([107], leaf [32, 34, 10, 92]), ([], leaf [])]),
          ([116], .object [])]) s k v := by
  apply ini_roundTrip
  refine ⟨by decide, by decide, ?_⟩
  intro e he
  simp only [List.mem_cons, List.not_mem_nil, or_false] at he
  rcases he with rfl | rfl
  · refine ⟨_, rfl, by decide, ?_⟩
    intro d hd
    simp only [List.mem_cons, List.not_mem_nil, or_false] at hd
    rcases hd with rfl | rfl
    · exact ⟨by decide, by decide, _, rfl⟩
    · exact ⟨by decide, by decide, _, rfl⟩
  · exact ⟨_, rfl, by decide, by simp⟩

/-! ## Trees that were read -/

/-- The text names no section with an empty name, the last block of every
section has an entry, and no entry that counts is bracketed. -/
structure DumpSafe (ls : List Line) : Prop where
  named : Line.header [] ∉ ls
  keyed : ∀ s block, lastBlock s ls = some block → ∃ k v, Line.entry k v ∈ block
  plain : ∀ s block k v, lastBlock s ls = some block → lastValue k block = some v →
    ¬ Bracketed k v

theorem filterMap_entry?_ne_nil {block : List Line} :
    block.filterMap Line.entry? ≠ [] ↔ ∃ k v, Line.entry k v ∈ block := by
  rw [ne_eq, List.filterMap_eq_nil_iff]
  push Not
  constructor
  · rintro ⟨l, hl, hentry⟩
    cases l with
    | skip => exact absurd rfl hentry
    | header name => exact absurd rfl hentry
    | entry k v => exact ⟨k, v, hl⟩
  · rintro ⟨k, v, hmem⟩
    exact ⟨_, hmem, by simp [Line.entry?]⟩

theorem isObject_assignAll {es : List (Str × Str)} {node : ConfigNode}
    (h : IsObject node ∨ es ≠ []) : IsObject (assignAll es node) := by
  induction es generalizing node with
  | nil => exact h.resolve_right (by simp)
  | cons e es ih => exact ih (.inl ⟨_, rfl⟩)

/-- The members of a tree that was read are its sections' last blocks. -/
theorem mem_parse_iff {t : Str} {m : List (Str × ConfigNode)}
    (hroot : parse Options.default t .fresh = .object m) {s : Str} {node : ConfigNode} :
    (s, node) ∈ m ↔
      ∃ block, lastBlock s (linesOf t) = some block ∧ fillSection s block .fresh = node := by
  have hparsed := parsedRoot_parse t
  have hfind := find_parse t s
  rw [hroot] at hparsed hfind
  have hmem : ConfigNode.find (.object m) s = some node ↔ (s, node) ∈ m :=
    AssocList.lookup_eq_some_iff_mem hparsed.unique
  rw [← hmem, hfind, Option.map_eq_some_iff]

theorem isObject_fresh_false (h : IsObject .fresh) : False := by
  obtain ⟨m, hm⟩ := h
  cases hm

def ReadsBack (lib : Library) (t text : Str) : Prop :=
  dump Options.default lib Options.default (parse Options.default t .fresh) = .ok text ∧
    ∀ s k v, LeafAt (parse Options.default text .fresh) s k v ↔
      LeafAt (parse Options.default t .fresh) s k v

theorem named_and_keyed_of_objects {t : Str} {m : List (Str × ConfigNode)}
    (hroot : parse Options.default t .fresh = .object m) (hobject : ∀ e ∈ m, IsObject e.2)
    {s : Str} {block : List Line} (hblock : lastBlock s (linesOf t) = some block) :
    s ≠ [] ∧ ∃ k v, Line.entry k v ∈ block := by
  have hnode := hobject _ ((mem_parse_iff hroot).mpr ⟨block, hblock, rfl⟩)
  constructor
  · intro hs
    rw [hs, fillSection_no_name] at hnode
    exact isObject_fresh_false hnode
  · apply filterMap_entry?_ne_nil.mp
    intro hno
    simp only [fillSection, hno, assignAll, List.foldl_nil, ite_self] at hnode
    exact isObject_fresh_false hnode

theorem dumpSafe_of_readsBack {lib : Library} {t text : Str} (h : ReadsBack lib t text) :
    DumpSafe (linesOf t) := by
  obtain ⟨hdump, hsame⟩ := h
  have hparsed := parsedRoot_parse t
  rcases hparsed.kind with hfresh | ⟨m, hroot⟩
  · have hnone : ∀ s, lastBlock s (linesOf t) = none := by
      intro s
      have hfind := find_parse t s
      rw [hfresh, find_fresh] at hfind
      exact Option.map_eq_none_iff.mp hfind.symm
    refine ⟨?_, ?_, ?_⟩
    · intro hmem
      have := lastBlock_isSome_of_header hmem
      rw [hnone] at this
      cases this
    · intro s block hblock
      rw [hnone] at hblock
      cases hblock
    · intro s block k v hblock
      rw [hnone] at hblock
      cases hblock
  · have hobject : ∀ e ∈ m, IsObject e.2 := by
      rw [hroot] at hdump
      exact object_of_dump_ok hdump
    refine ⟨?_, ?_, ?_⟩
    · intro hmem
      obtain ⟨block, hblock⟩ := Option.isSome_iff_exists.mp (lastBlock_isSome_of_header hmem)
      exact (named_and_keyed_of_objects hroot hobject hblock).1 rfl
    · intro s block hblock
      exact (named_and_keyed_of_objects hroot hobject hblock).2
    · intro s block k v hblock hvalue
      have hs := (named_and_keyed_of_objects hroot hobject hblock).1
      have hleaf := (hsame s k v).mpr (leafAt_parse.mpr ⟨hs, block, hblock, hvalue⟩)
      have hentry := entry_of_leafAt hleaf
      rw [hroot, dump_object lib hobject] at hdump
      cases hdump
      exact not_bracketed_of_entry_mem (writable_docOf lib (hroot ▸ hparsed)) hentry

theorem readsBack_of_dumpSafe (lib : Library) {t : Str} (h : DumpSafe (linesOf t)) :
    ∃ text, ReadsBack lib t text := by
  have hparsed := parsedRoot_parse t
  rcases hparsed.kind with hfresh | ⟨m, hroot⟩
  · refine ⟨[], ?_, ?_⟩
    · rw [hfresh]
      rfl
    · rw [hfresh]
      exact fun _ _ _ => Iff.rfl
  · unfold ReadsBack
    rw [hroot] at hparsed ⊢
    refine roundTrip_of_not_bracketed lib hparsed ?_ ?_ ?_
    · intro e he
      obtain ⟨block, hblock, hfill⟩ := (mem_parse_iff hroot).mp he
      have hs : e.1 ≠ [] := fun hs => h.named (hs ▸ header_of_lastBlock hblock)
      rw [← hfill, fillSection, if_neg hs]
      exact isObject_assignAll (.inr (filterMap_entry?_ne_nil.mpr (h.keyed _ _ hblock)))
    · intro e he hs
      obtain ⟨block, hblock, _⟩ := (mem_parse_iff hroot).mp he
      exact h.named (hs ▸ header_of_lastBlock hblock)
    · intro s k v hleaf
      rw [← hroot] at hleaf
      obtain ⟨_, block, hblock, hvalue⟩ := leafAt_parse.mp hleaf
      exact h.plain s block k v hblock hvalue

/-- What was read from a text can be written and read again, with the same
leaves, exactly when the text is safe. -/
theorem ini_parse_dump_iff (lib : Library) (t : Str) :
    (∃ text, ReadsBack lib t text) ↔ DumpSafe (linesOf t) := by
  constructor
  · rintro ⟨text, h⟩
    exact dumpSafe_of_readsBack h
  · exact readsBack_of_dumpSafe lib

/-- A header without entries: the section is no object and `dump` raises. -/
theorem ini_dump_raises_on_empty_section :
    ¬ ∀ (lib : Library) (t : Str), ∃ text, ReadsBack lib t text := by
  intro hall
  obtain ⟨text, hdump, _⟩ := hall reversing (ascii "[s]")
  have hraises : dump Options.default reversing Options.default
      (parse Options.default (ascii "[s]") .fresh) = .error .badVariantAccess := by
    rfl
  rw [hraises] at hdump
  cases hdump

end NetTest.Config.IniParser
