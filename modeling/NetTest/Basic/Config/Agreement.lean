import NetTest.Basic.Config.ConfRoundTrip
import NetTest.Basic.Config.IniRoundTrip

/-!
# The common language of the two parsers

A text without section headers and without `;` comments is read by both parsers
in the same way: one `[name]` line in front of it, and `IniParser::parse` stores
under the name what `ConfParser::parse` builds at the root.
-/

namespace NetTest.Config

open IniParser (Line classify linesOf lastBlock leading fillSection SectionName)
open Text (Trimmed)

/-- A line that neither parser reads as something of its own. -/
structure CommonLine (raw : Str) : Prop where
  no_semicolon : (trim raw).head? ≠ some semicolon
  no_header : ¬ ((trim raw).head? = some openBracket ∧ (trim raw).getLast? = some closeBracket)

instance (raw : Str) : Decidable (CommonLine raw) :=
  decidable_of_iff ((trim raw).head? ≠ some semicolon ∧
      ¬ ((trim raw).head? = some openBracket ∧ (trim raw).getLast? = some closeBracket))
    ⟨fun h => ⟨h.1, h.2⟩, fun h => ⟨h.no_semicolon, h.no_header⟩⟩

/-- The INI reader makes an entry of a common line exactly when the CONF reader
does, and it is the same entry. -/
theorem classify_common {raw : Str} (h : CommonLine raw) :
    Line.entry? (classify raw) = ConfParser.entryOf raw ∧ (classify raw).isHeader = false := by
  unfold classify ConfParser.entryOf
  dsimp only
  by_cases hskip : trim raw = [] ∨ (trim raw).head? = some hash
  · have hini : trim raw = [] ∨ (trim raw).head? = some semicolon ∨
        (trim raw).head? = some hash := by
      rcases hskip with hempty | hhash
      · exact .inl hempty
      · exact .inr (.inr hhash)
    rw [if_pos hskip, if_pos hini]
    exact ⟨rfl, rfl⟩
  · have hini : ¬ (trim raw = [] ∨ (trim raw).head? = some semicolon ∨
        (trim raw).head? = some hash) := by
      rintro (hempty | hsemicolon | hhash)
      · exact hskip (.inl hempty)
      · exact h.no_semicolon hsemicolon
      · exact hskip (.inr hhash)
    rw [if_neg hskip, if_neg hini, if_neg h.no_header]
    cases keyValue equals (trim raw) with
    | none => exact ⟨rfl, rfl⟩
    | some kv => exact ⟨rfl, rfl⟩

section CommonText

variable {t : Str} (h : ∀ raw ∈ Text.lines newline t, CommonLine raw)
include h

theorem isHeader_of_common : ∀ l ∈ linesOf t, l.isHeader = false := by
  intro l hl
  obtain ⟨raw, hraw, rfl⟩ := List.mem_map.mp hl
  exact (classify_common (h raw hraw)).2

theorem entries_of_common : (linesOf t).filterMap Line.entry? = ConfParser.entriesOf t := by
  unfold linesOf ConfParser.entriesOf
  rw [List.filterMap_map]
  apply List.filterMap_congr
  intro raw hraw
  exact (classify_common (h raw hraw)).1

theorem lastBlock_of_common (s : Str) :
    lastBlock s (.header s :: linesOf t) = some (linesOf t) := by
  have hnone : lastBlock s (linesOf t) = none := by
    rw [← List.append_nil (linesOf t),
      IniParser.lastBlock_append_of_no_header (isHeader_of_common h)]
    rfl
  have hall : leading (linesOf t) = linesOf t := by
    rw [← List.append_nil (linesOf t),
      IniParser.leading_append_of_no_header (isHeader_of_common h)]
    rfl
  rw [lastBlock, hnone, hall]
  exact if_pos rfl

end CommonText

theorem linesOf_header {s : Str} (h : SectionName s) (t : Str) :
    linesOf ([openBracket] ++ s ++ [closeBracket] ++ [newline] ++ t) =
      .header s :: linesOf t := by
  have hnewline : newline ∉ [openBracket] ++ s ++ [closeBracket] := by
    simp only [List.mem_append, List.mem_singleton, not_or]
    exact ⟨⟨by decide, h.no_newline⟩, by decide⟩
  have hsplit : [openBracket] ++ s ++ [closeBracket] ++ [newline] ++ t =
      ([openBracket] ++ s ++ [closeBracket]) ++ newline :: t := by
    simp
  unfold linesOf
  rw [hsplit, Text.lines_line hnewline, List.map_cons, IniParser.classify_header h]

/-- Both parsers build the same node from a text in their common language. -/
theorem ini_conf_agree (s t : Str) (hname : s ≠ []) (hnewline : newline ∉ s)
    (htrimmed : Trimmed isSpace s) (ht : ∀ raw ∈ Text.lines newline t, CommonLine raw) :
    (IniParser.parse Options.default
        ([openBracket] ++ s ++ [closeBracket] ++ [newline] ++ t) .fresh).find s =
      some (ConfParser.parse Options.default t .fresh) := by
  rw [IniParser.find_parse, linesOf_header ⟨htrimmed, hnewline⟩, lastBlock_of_common ht,
    Option.map_some, fillSection, if_neg hname, entries_of_common ht, ConfParser.parse_eq]

/-- A comment, a line without a delimiter, an empty key, a quoted value, a key
that starts with a bracket and a key that is stored twice. -/
theorem ini_conf_agree_mixed :
    (IniParser.parse Options.default
        ([openBracket] ++ ascii "s" ++ [closeBracket] ++ [newline] ++
          ascii "# c\nplain\n = \"v\"\nk = 1\n[k = 2\nk = 3") .fresh).find (ascii "s") =
      some (ConfParser.parse Options.default
        (ascii "# c\nplain\n = \"v\"\nk = 1\n[k = 2\nk = 3") .fresh) :=
  ini_conf_agree _ _ (by decide) (by decide) (by decide) (by decide)

end NetTest.Config
