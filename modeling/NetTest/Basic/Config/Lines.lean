import NetTest.Basic.Config.Model

/-!
# Writing and reading one line

What the readers make of a line `key = text`: the key comes back when it is
trimmed and has no delimiter, and the text goes through `readValue`.  Quoting
and escaping on the writer's side undo `readValue`.
-/

namespace NetTest.Config

open Text (Trimmed)

/-! ## Escapes and quotes -/

theorem unescape_cons {c : UInt8} (hc : c ≠ backslash) (rest : Str) :
    unescape (c :: rest) = c :: unescape rest := by
  cases rest with
  | nil => rfl
  | cons d rest => rw [unescape, if_neg hc]

theorem unescape_pair {d e : UInt8} (hd : unescapeByte d = some e) (rest : Str) :
    unescape (backslash :: d :: rest) = e :: unescape rest := by
  rw [unescape, if_pos rfl, hd]

theorem escapeByte_cases (c : UInt8) :
    (escapeByte c = [c] ∧ c ≠ backslash ∧ c ≠ newline) ∨
      ∃ d, escapeByte c = [backslash, d] ∧ unescapeByte d = some c ∧ d ≠ newline := by
  by_cases hnewline : c = newline
  · exact .inr ⟨letterN, by simp [escapeByte, hnewline], by rw [hnewline]; decide, by decide⟩
  by_cases htab : c = tab
  · exact .inr ⟨letterT, by rw [htab]; decide, by rw [htab]; decide, by decide⟩
  by_cases hreturn : c = carriageReturn
  · exact .inr ⟨letterR, by rw [hreturn]; decide, by rw [hreturn]; decide, by decide⟩
  by_cases hbackslash : c = backslash
  · exact .inr ⟨backslash, by rw [hbackslash]; decide, by rw [hbackslash]; decide, by decide⟩
  by_cases hdouble : c = doubleQuote
  · exact .inr ⟨doubleQuote, by rw [hdouble]; decide, by rw [hdouble]; decide, by decide⟩
  by_cases hsingle : c = singleQuote
  · exact .inr ⟨singleQuote, by rw [hsingle]; decide, by rw [hsingle]; decide, by decide⟩
  · left
    simp [escapeByte, hnewline, htab, hreturn, hbackslash, hdouble, hsingle]

theorem unescape_escape_append (str rest : Str) :
    unescape (escape str ++ rest) = str ++ unescape rest := by
  induction str with
  | nil => rfl
  | cons c str ih =>
      rw [escape, List.flatMap_cons, List.append_assoc]
      have hrest : unescape (str.flatMap escapeByte ++ rest) = str ++ unescape rest := ih
      rcases escapeByte_cases c with ⟨heq, hbackslash, _⟩ | ⟨d, heq, hd, _⟩
      · rw [heq, List.singleton_append, unescape_cons hbackslash, hrest]
        rfl
      · rw [heq, List.cons_append, List.singleton_append, unescape_pair hd, hrest]
        rfl

theorem newline_not_mem_escape (str : Str) : newline ∉ escape str := by
  intro hmem
  obtain ⟨c, _, hc⟩ := List.mem_flatMap.mp hmem
  rcases escapeByte_cases c with ⟨heq, _, hne⟩ | ⟨d, heq, _, hne⟩
  · rw [heq, List.mem_singleton] at hc
    exact hne hc.symm
  · rw [heq, List.mem_cons, List.mem_singleton] at hc
    rcases hc with hc | hc
    · exact absurd hc (by decide)
    · exact hne hc.symm

/-- The text is written without quotes. -/
def Plain (str : Str) : Prop := ∀ c ∈ str, needsQuotes c = false

instance (str : Str) : Decidable (Plain str) := inferInstanceAs (Decidable (∀ c ∈ str, _))

theorem addQuotesIfNeeded_cases (str : Str) :
    (Plain str ∧ addQuotesIfNeeded str = str) ∨
      (¬ Plain str ∧ addQuotesIfNeeded str = doubleQuote :: (escape str ++ [doubleQuote])) := by
  unfold addQuotesIfNeeded Plain
  by_cases h : str.any needsQuotes
  · right
    rw [if_pos h]
    refine ⟨?_, rfl⟩
    simpa using h
  · left
    rw [if_neg h]
    refine ⟨?_, rfl⟩
    simpa using h

theorem Plain.ne {str : Str} (h : Plain str) {c : UInt8} (hc : c ∈ str) :
    isSpace c = false ∧ c ≠ doubleQuote ∧ c ≠ singleQuote ∧ c ≠ backslash ∧ c ≠ newline := by
  have := h c hc
  simp only [needsQuotes, Bool.or_eq_false_iff, beq_eq_false_iff_ne] at this
  obtain ⟨⟨⟨⟨⟨⟨hspace, hdouble⟩, hsingle⟩, hbackslash⟩, _⟩, hnewline⟩, _⟩ := this
  exact ⟨hspace, hdouble, hsingle, hbackslash, hnewline⟩

theorem unescape_of_no_backslash {str : Str} (h : backslash ∉ str) : unescape str = str := by
  induction str with
  | nil => rfl
  | cons c str ih =>
      rw [List.mem_cons, not_or] at h
      rw [unescape_cons (Ne.symm h.1), ih h.2]

theorem surroundedBy_iff {quote : UInt8} {str : Str} :
    surroundedBy quote str = true ↔ str.head? = some quote ∧ str.getLast? = some quote := by
  simp [surroundedBy]

theorem trimQuotes_quoted (str : Str) :
    trimQuotes (doubleQuote :: (str ++ [doubleQuote])) = str := by
  have hends : surroundedBy doubleQuote (doubleQuote :: (str ++ [doubleQuote])) = true := by
    rw [surroundedBy_iff, ← List.cons_append, List.getLast?_concat]
    exact ⟨rfl, rfl⟩
  unfold trimQuotes
  rw [if_pos ⟨by simp, .inl hends⟩]
  simp

theorem trimQuotes_of_no_quote {str : Str} (hdouble : doubleQuote ∉ str)
    (hsingle : singleQuote ∉ str) : trimQuotes str = str := by
  unfold trimQuotes
  apply if_neg
  rintro ⟨_, hends | hends⟩
  · exact hdouble (List.mem_of_mem_head? (surroundedBy_iff.mp hends).1)
  · exact hsingle (List.mem_of_mem_head? (surroundedBy_iff.mp hends).1)

theorem trimmed_addQuotesIfNeeded (str : Str) : Trimmed isSpace (addQuotesIfNeeded str) := by
  rcases addQuotesIfNeeded_cases str with ⟨hplain, heq⟩ | ⟨_, heq⟩
  · rw [heq]
    exact ⟨fun c hc => (hplain.ne (List.mem_of_mem_head? hc)).1,
      fun c hc => (hplain.ne (List.mem_of_mem_getLast? hc)).1⟩
  · rw [heq]
    constructor
    · intro c hc
      cases hc
      decide
    · intro c hc
      rw [← List.cons_append, List.getLast?_concat] at hc
      cases hc
      decide

/-- The reader undoes the writer. -/
theorem readValue_addQuotesIfNeeded (str : Str) : readValue (addQuotesIfNeeded str) = str := by
  unfold readValue trim
  rw [Text.trim_of_trimmed (trimmed_addQuotesIfNeeded str)]
  rcases addQuotesIfNeeded_cases str with ⟨hplain, heq⟩ | ⟨_, heq⟩
  · rw [heq, unescape_of_no_backslash fun h => (hplain.ne h).2.2.2.1 rfl]
    exact trimQuotes_of_no_quote (fun h => (hplain.ne h).2.1 rfl) fun h => (hplain.ne h).2.2.1 rfl
  · rw [heq, unescape_cons (by decide), unescape_escape_append]
    exact trimQuotes_quoted str

/-- Escaping is lossless, and so are the quotes around it: an escape never runs into
the closing quote, and a text that begins or ends with quotes or blanks is quoted
before it is trimmed. -/
theorem escape_lossless (str : Str) :
    unescape (escape str) = str ∧ trimQuotes (unescape (trim (addQuotesIfNeeded str))) = str := by
  constructor
  · have happend := unescape_escape_append str []
    rw [List.append_nil, unescape, List.append_nil] at happend
    exact happend
  · exact readValue_addQuotesIfNeeded str

theorem newline_not_mem_addQuotesIfNeeded (str : Str) : newline ∉ addQuotesIfNeeded str := by
  rcases addQuotesIfNeeded_cases str with ⟨hplain, heq⟩ | ⟨_, heq⟩
  · rw [heq]
    exact fun h => (hplain.ne h).2.2.2.2 rfl
  · rw [heq]
    simp only [List.mem_cons, List.mem_append, not_or]
    exact ⟨by decide, newline_not_mem_escape str, by decide⟩

/-! ## A line `key = text` -/

/-- What a key has to be for the readers to find it again. -/
structure GoodKey (key : Str) : Prop where
  trimmed : Trimmed isSpace key
  no_equals : equals ∉ key
  no_newline : newline ∉ key

instance (key : Str) : Decidable (GoodKey key) :=
  decidable_of_iff (Trimmed isSpace key ∧ equals ∉ key ∧ newline ∉ key)
    ⟨fun h => ⟨h.1, h.2.1, h.2.2⟩, fun h => ⟨h.trimmed, h.no_equals, h.no_newline⟩⟩

theorem keyValue_split {before : Str} (h : equals ∉ before) (after : Str) :
    keyValue equals (before ++ equals :: after) = some (trim before, readValue after) := by
  have hpos : (before ++ equals :: after).idxOf equals = before.length := by
    rw [List.idxOf_append_of_notMem h, List.idxOf_cons_self, Nat.add_zero]
  unfold keyValue
  rw [if_pos (by simp), hpos]
  simp

theorem keyValue_none {line : Str} (h : equals ∉ line) : keyValue equals line = none := by
  rw [keyValue, if_neg h]

def entryLine (key text : Str) : Str := key ++ [space] ++ [equals] ++ [space] ++ text

theorem dropWhile_key {key : Str} (h : Trimmed isSpace key) :
    (key ++ [space]).dropWhile isSpace = if key = [] then [] else key ++ [space] := by
  cases key with
  | nil => rfl
  | cons c key =>
      rw [if_neg (List.cons_ne_nil _ _), List.cons_append,
        List.dropWhile_cons_of_neg (by simp [h.1 c rfl])]

theorem trim_entryLine (key text : Str) :
    trim (entryLine key text) =
      (key ++ [space]).dropWhile isSpace ++ equals :: (space :: text).rdropWhile isSpace := by
  have hsplit : entryLine key text = (key ++ [space]) ++ equals :: (space :: text) := by
    simp [entryLine]
  rw [hsplit]
  exact Text.trim_split (by decide) _ _

theorem readValue_congr {x y : Str} (h : trim x = trim y) : readValue x = readValue y := by
  rw [readValue, readValue, h]

theorem keyValue_entryLine {key : Str} (h : GoodKey key) (text : Str) :
    keyValue equals (trim (entryLine key text)) = some (key, readValue text) := by
  have hno : equals ∉ (key ++ [space]).dropWhile isSpace := by
    intro hmem
    have := List.dropWhile_subset isSpace hmem
    rw [List.mem_append, List.mem_singleton] at this
    exact this.elim h.no_equals (by decide)
  have hkey : trim ((key ++ [space]).dropWhile isSpace) = key := by
    unfold trim
    rw [Text.trim_dropWhile, Text.trim_append_blank (by decide), Text.trim_of_trimmed h.trimmed]
  have hvalue : readValue ((space :: text).rdropWhile isSpace) = readValue text := by
    apply readValue_congr
    unfold trim
    rw [Text.trim_rdropWhile, Text.trim_cons_blank (by decide)]
  rw [trim_entryLine, keyValue_split hno, hkey, hvalue]

theorem head?_entryLine {key : Str} (h : Trimmed isSpace key) (text : Str) :
    (trim (entryLine key text)).head? = some (key.headD equals) := by
  rw [trim_entryLine, dropWhile_key h]
  cases key with
  | nil => rfl
  | cons c key => rfl

theorem getLast?_entryLine (key : Str) {text : Str} (h : Trimmed isSpace text) :
    (trim (entryLine key text)).getLast? = some (text.getLastD equals) := by
  rw [trim_entryLine]
  cases text using List.reverseRecOn with
  | nil =>
      have hblank : ([space] : Str).rdropWhile isSpace = [] := by decide
      rw [hblank, List.getLast?_concat]
      rfl
  | append_singleton text c _ =>
      have hc : isSpace c = false := h.2 c (by simp)
      rw [← List.cons_append, List.rdropWhile_concat_neg _ _ _ (by simp [hc]), ← List.cons_append,
        ← List.append_assoc, List.getLast?_concat]
      simp

theorem newline_not_mem_entryLine {key text : Str} (hkey : newline ∉ key)
    (htext : newline ∉ text) : newline ∉ entryLine key text := by
  simp only [entryLine, List.mem_append, List.mem_singleton, not_or]
  exact ⟨⟨⟨⟨hkey, by decide⟩, by decide⟩, by decide⟩, htext⟩

theorem goodKey_of_keyValue {line key value : Str} (htrim : Trimmed isSpace line)
    (hnewline : newline ∉ line) (h : keyValue equals line = some (key, value)) :
    GoodKey key ∧ ∀ c ∈ key.head?, line.head? = some c := by
  by_cases hmem : equals ∈ line
  · obtain ⟨before, after, rfl, hbefore⟩ := List.eq_append_cons_of_mem hmem
    rw [keyValue_split hbefore] at h
    cases h
    refine ⟨⟨Text.trimmed_trim before, fun hin => hbefore (Text.mem_of_mem_trim hin),
      fun hin => hnewline (List.mem_append_left _ (Text.mem_of_mem_trim hin))⟩, ?_⟩
    intro c hc
    cases before with
    | nil => cases hc
    | cons d before =>
        have hd : isSpace d = false := htrim.1 d rfl
        have hhead : trim (d :: before) = d :: before.rdropWhile isSpace := by
          simpa [trim] using Text.trim_split hd [] before
        rw [hhead] at hc
        exact hc
  · rw [keyValue_none hmem] at h
    cases h

/-! ## Nodes -/

def leaf (v : Str) : ConfigNode := .value (.string v)

theorem find_set_self (node : ConfigNode) (k : Str) (child : ConfigNode) :
    (node.set k child).find k = some child :=
  AssocList.lookup_assign_self k child _

theorem find_set_of_ne (node : ConfigNode) {k k' : Str} (h : k' ≠ k) (child : ConfigNode) :
    (node.set k child).find k' = node.find k' :=
  AssocList.lookup_assign_of_ne h child _

@[simp] theorem find_fresh (k : Str) : ConfigNode.fresh.find k = none := rfl

def assignAll (es : List (Str × Str)) (node : ConfigNode) : ConfigNode :=
  es.foldl (fun node e => node.set e.1 (leaf e.2)) node

/-- The last entry for a key is the one that stays. -/
theorem find_assignAll (k : Str) (es : List (Str × Str)) (node : ConfigNode) :
    (assignAll es node).find k = ((es.reverse.lookup k).map leaf).or (node.find k) := by
  induction es generalizing node with
  | nil => rfl
  | cons e es ih =>
      rcases e with ⟨key, value⟩
      change (assignAll es (node.set key (leaf value))).find k = _
      rw [ih, List.reverse_cons, List.lookup_append, List.lookup_cons]
      cases es.reverse.lookup k with
      | some v => rfl
      | none =>
          by_cases hk : k = key
          · subst hk
            simp [find_set_self]
          · simp [find_set_of_ne _ hk, beq_false_of_ne hk]

/-- The entries a map of leaves is written as, in iteration order. -/
def leafEntries (lib : Library) (m : List (Str × ConfigNode)) : List (Str × Str) :=
  (leaves lib m).map fun e => (e.1, configNodeValueToString lib Options.default e.2)

theorem mem_leafEntries (lib : Library) {m : List (Str × ConfigNode)}
    (h : ∀ e ∈ m, ∃ v, e.2 = leaf v) {k v : Str} :
    (k, v) ∈ leafEntries lib m ↔ (k, leaf v) ∈ m := by
  rw [leafEntries, List.mem_map]
  constructor
  · rintro ⟨e, he, heq⟩
    have hmem : e ∈ m := (lib.order_perm m).mem_iff.mp (List.mem_filter.mp he).1
    obtain ⟨v', hv'⟩ := h e hmem
    rw [hv'] at heq
    cases heq
    have hpair : e = (e.1, leaf v') := Prod.ext rfl hv'
    exact hpair ▸ hmem
  · intro hmem
    exact ⟨(k, leaf v), List.mem_filter.mpr ⟨(lib.order_perm m).mem_iff.mpr hmem, rfl⟩, rfl⟩

theorem nodup_keys_leafEntries (lib : Library) {m : List (Str × ConfigNode)}
    (h : (AssocList.keys m).Nodup) : (AssocList.keys (leafEntries lib m)).Nodup := by
  have hkeys : AssocList.keys (leafEntries lib m) = AssocList.keys (leaves lib m) := by
    simp [AssocList.keys, leafEntries, List.map_map, Function.comp_def]
  have hperm : (AssocList.keys (lib.order m)).Perm (AssocList.keys m) := (lib.order_perm _).map _
  rw [hkeys]
  exact (hperm.nodup_iff.mpr h).sublist (List.filter_sublist.map _)

end NetTest.Config
