import NetTest.ThirdParty.Cmdline.Model

/-!
# Words

How `parse(arg)` cuts a text into arguments.  A backslash takes the next byte as it
is, inside quotes and outside, a quote opens or closes a part in which spaces are
text, and one space stands between two words.  The last word does not count when it
is empty.
-/

namespace NetTest.Cmdline

/-! ## The grammar -/

/-- `Word q text word q'`: the text is read as the word, from inside quotes or not
(`q`) to inside quotes or not (`q'`). -/
inductive Word : Bool → Str → Str → Bool → Prop where
  | done (q : Bool) : Word q [] [] q
  | quote {q q' : Bool} {text word : Str} (h : Word (!q) text word q') :
      Word q (doubleQuote :: text) word q'
  | escaped {q q' : Bool} {text word : Str} (c : UInt8) (h : Word q text word q') :
      Word q (backslash :: c :: text) (c :: word) q'
  | plain {q q' : Bool} {text word : Str} {c : UInt8} (hquote : c ≠ doubleQuote)
      (hbackslash : c ≠ backslash) (hspace : c = space → q = true) (h : Word q text word q') :
      Word q (c :: text) (c :: word) q'

/-- Words with a space between each two. -/
inductive Line : Str → List Str → Prop where
  | last {text word : Str} (h : Word false text word false) : Line text [word]
  | cons {text word rest : Str} {words : List Str} (h : Word false text word false)
      (hrest : Line rest words) : Line (text ++ space :: rest) (word :: words)

/-- Without an empty word at the end. -/
def dropEmpty (words : List Str) : List Str :=
  if words.getLast? = some [] then words.dropLast else words

/-! ## Words are read as the grammar says -/

theorem Word.snoc_quote {q q' : Bool} {text word : Str} (h : Word q text word q') :
    Word q (text ++ [doubleQuote]) word (!q') := by
  induction h with
  | done q => exact .quote (.done _)
  | quote _ ih => exact .quote ih
  | escaped c _ ih => exact .escaped c ih
  | plain hquote hbackslash hspace _ ih => exact .plain hquote hbackslash hspace ih

theorem Word.snoc_escaped {q q' : Bool} {text word : Str} (h : Word q text word q') (c : UInt8) :
    Word q (text ++ [backslash, c]) (word ++ [c]) q' := by
  induction h with
  | done q => exact .escaped c (.done _)
  | quote _ ih => exact .quote ih
  | escaped d _ ih => exact .escaped d ih
  | plain hquote hbackslash hspace _ ih => exact .plain hquote hbackslash hspace ih

theorem Word.snoc_plain {q q' : Bool} {text word : Str} (h : Word q text word q') {c : UInt8}
    (hquote : c ≠ doubleQuote) (hbackslash : c ≠ backslash) (hspace : c = space → q' = true) :
    Word q (text ++ [c]) (word ++ [c]) q' := by
  induction h with
  | done q => exact .plain hquote hbackslash hspace (.done _)
  | quote _ ih => exact .quote (ih hspace)
  | escaped d _ ih => exact .escaped d (ih hspace)
  | plain hquote' hbackslash' hspace' _ ih => exact .plain hquote' hbackslash' hspace' (ih hspace)

theorem splitLoop_cons (args : List Str) (buf : Str) (q : Bool) (c : UInt8) (rest : Str) :
    splitLoop args buf q (c :: rest) =
      if c = doubleQuote then splitLoop args buf (!q) rest
      else if c = space ∧ q = false then splitLoop (args ++ [buf]) [] q rest
      else if c = backslash then
        match rest with
        | [] => .error (ascii "unexpected occurrence of '\\' at end of string")
        | d :: rest => splitLoop args (buf ++ [d]) q rest
      else splitLoop args (buf ++ [c]) q rest := by
  rw [splitLoop.eq_def]
  rfl

theorem splitLoop_word {q q' : Bool} {text word : Str} (h : Word q text word q')
    (args : List Str) (buf rest : Str) :
    splitLoop args buf q (text ++ rest) = splitLoop args (buf ++ word) q' rest := by
  induction h generalizing buf with
  | done q => rw [List.nil_append, List.append_nil]
  | quote _ ih =>
      rw [List.cons_append, splitLoop_cons, if_pos rfl]
      exact ih buf
  | escaped c _ ih =>
      rw [List.cons_append, List.cons_append, splitLoop_cons, if_neg (by decide),
        if_neg (fun h => absurd h.1 (by decide)), if_pos rfl]
      simp only
      rw [ih, List.append_assoc, List.singleton_append]
  | plain hquote hbackslash hspace _ ih =>
      have hnot : ¬ (_ = space ∧ _ = false) := fun h =>
        absurd ((hspace h.1).symm.trans h.2) (by decide)
      rw [List.cons_append, splitLoop_cons, if_neg hquote, if_neg hnot, if_neg hbackslash, ih,
        List.append_assoc, List.singleton_append]

theorem dropEmpty_cons {word : Str} {words : List Str} (hne : words ≠ []) :
    dropEmpty (word :: words) = word :: dropEmpty words := by
  rcases List.exists_cons_of_ne_nil hne with ⟨next, rest, rfl⟩
  rw [dropEmpty, dropEmpty, List.getLast?_cons_cons]
  split
  · rfl
  · rfl

theorem Line.ne_nil {text : Str} {words : List Str} (h : Line text words) : words ≠ [] := by
  cases h with
  | last _ => exact List.cons_ne_nil _ _
  | cons _ _ => exact List.cons_ne_nil _ _

theorem splitLoop_line {text : Str} {words : List Str} (h : Line text words) (args : List Str) :
    splitLoop args [] false text = .ok (args ++ dropEmpty words) := by
  induction h generalizing args with
  | @last text word h =>
      have hread := splitLoop_word h args [] []
      rw [List.append_nil, List.nil_append] at hread
      rw [hread, splitLoop, if_neg (by decide), dropEmpty]
      cases word with
      | nil => simp
      | cons c word => simp
  | @cons text word rest words h hrest ih =>
      rw [splitLoop_word h, List.nil_append, splitLoop_cons, if_neg (by decide), if_pos ⟨rfl, rfl⟩, ih,
        dropEmpty_cons hrest.ne_nil, List.append_assoc, List.singleton_append]

/-! ## And nothing else is -/

/-- A word read so far, in front of a line. -/
theorem line_of_splitLoop (text : Str) {args args' : List Str} {buf read : Str} {q : Bool}
    (hread : Word false read buf q) (h : splitLoop args buf q text = .ok args') :
    ∃ words, Line (read ++ text) words ∧ args' = args ++ dropEmpty words := by
  induction hlength : text.length using Nat.strongRecOn generalizing text args buf read q with
  | ind n ih =>
      subst hlength
      cases text with
      | nil =>
          cases q with
          | true => cases h
          | false =>
              rw [splitLoop, if_neg (by decide), Except.ok.injEq] at h
              refine ⟨[buf], .last (by rwa [List.append_nil]), ?_⟩
              rw [← h, dropEmpty]
              cases buf with
              | nil => simp
              | cons c buf => simp
      | cons c rest =>
          rw [splitLoop_cons] at h
          have happend : ∀ c : UInt8, read ++ c :: rest = read ++ [c] ++ rest := by simp
          by_cases hquote : c = doubleQuote
          · subst hquote
            rw [if_pos rfl] at h
            rw [happend]
            exact ih rest.length (Nat.lt_succ_self _) rest hread.snoc_quote h rfl
          · rw [if_neg hquote] at h
            by_cases hspace : c = space ∧ q = false
            · rcases hspace with ⟨rfl, rfl⟩
              rw [if_pos ⟨rfl, rfl⟩] at h
              rcases ih rest.length (Nat.lt_succ_self _) rest (.done false) h rfl with
                ⟨words, hline, hargs⟩
              refine ⟨buf :: words, .cons hread hline, ?_⟩
              rw [hargs, dropEmpty_cons hline.ne_nil, List.append_assoc, List.singleton_append]
            · rw [if_neg hspace] at h
              by_cases hbackslash : c = backslash
              · subst hbackslash
                rw [if_pos rfl] at h
                cases rest with
                | nil => cases h
                | cons d rest =>
                    have hescaped := hread.snoc_escaped d
                    have hsplit : read ++ backslash :: d :: rest =
                        read ++ [backslash, d] ++ rest := by simp
                    rw [hsplit]
                    exact ih rest.length (by simp only [List.length_cons]; omega) rest hescaped h rfl
              · rw [if_neg hbackslash] at h
                have hq : c = space → q = true := by
                  intro heq
                  cases q with
                  | true => rfl
                  | false => exact absurd ⟨heq, rfl⟩ hspace
                rw [happend]
                exact ih rest.length (Nat.lt_succ_self _) rest
                  (hread.snoc_plain hquote hbackslash hq) h rfl

/-- The texts that are cut into arguments are the lines of the grammar, and the
arguments are their words. -/
theorem split_iff (text : Str) (args : List Str) :
    split text = .ok args ↔ ∃ words, Line text words ∧ args = dropEmpty words := by
  constructor
  · intro h
    exact line_of_splitLoop text (.done false) h
  · rintro ⟨words, hline, rfl⟩
    exact splitLoop_line hline []

/-! ## Writing a command line as one text -/

def escapeByte (c : UInt8) : Str :=
  if c = doubleQuote ∨ c = space ∨ c = backslash then [backslash, c] else [c]

def escape (arg : Str) : Str := arg.flatMap escapeByte

def quoted (args : List Str) : Str := args.flatMap fun arg => escape arg ++ [space]

theorem word_escape (arg : Str) : Word false (escape arg) arg false := by
  induction arg with
  | nil => exact .done false
  | cons c arg ih =>
      rw [escape, List.flatMap_cons, escapeByte]
      split
      · exact .escaped c ih
      · rename_i hplain
        rw [not_or, not_or] at hplain
        exact .plain hplain.1 hplain.2.2 (fun heq => absurd heq hplain.2.1) ih

theorem line_quoted (args : List Str) : Line (quoted args) (args ++ [[]]) := by
  induction args with
  | nil => exact .last (.done false)
  | cons arg args ih =>
      have hquoted : quoted (arg :: args) = escape arg ++ space :: quoted args := by
        simp [quoted]
      rw [hquoted]
      exact .cons (word_escape arg) ih

theorem split_quoted (args : List Str) : split (quoted args) = .ok args := by
  rw [split_iff]
  refine ⟨args ++ [[]], line_quoted args, ?_⟩
  rw [dropEmpty, List.getLast?_concat, if_pos rfl, List.dropLast_concat]

/-- Every command line can be given as one text, and is then read as it would have been
read from `argv`. -/
theorem parseText_quoted {V : Type*} (p : Parser V) (argv : List Str) (h : ∀ arg ∈ argv, 0 ∉ arg) :
    p.parseText (quoted argv) = p.parse argv := by
  have hsame : argv.map CString.cstr = argv := by
    rw [List.map_congr_left fun arg harg => CString.cstr_of_no_nul (h arg harg), List.map_id']
  rw [Parser.parseText, split_quoted]
  simp only
  rw [hsame]

/-- A file name with a space, and an empty argument at the end. -/
theorem parseText_quoted_space :
    (Parser.new : Parser Unit).parseText (quoted [[97], [98, 32, 99], []]) =
      Parser.new.parse [[97], [98, 32, 99], []] :=
  parseText_quoted Parser.new [[97], [98, 32, 99], []] (by decide)

end NetTest.Cmdline
