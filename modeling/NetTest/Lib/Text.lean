import Mathlib.Data.List.DropRight
import Mathlib.Data.List.Lemmas

/-!
# Trimming and lines

Two things every line-oriented reader does to a text: it cuts the text at a
separator, and it drops blanks at both ends of what it cut out.  The letters are
of any type; what counts as blank is a parameter.
-/

namespace NetTest.Text

variable {α : Type*} (p : α → Bool)

/-! ## Trimming -/

def trim (l : List α) : List α := (l.dropWhile p).rdropWhile p

/-- No blank at either end. -/
def Trimmed (l : List α) : Prop :=
  (∀ c ∈ l.head?, p c = false) ∧ ∀ c ∈ l.getLast?, p c = false

instance (l : List α) : Decidable (Trimmed p l) :=
  inferInstanceAs (Decidable (_ ∧ _))

variable {p}

theorem rdropWhile_split {c : α} (hc : p c = false) (x y : List α) :
    (x ++ c :: y).rdropWhile p = x ++ c :: y.rdropWhile p := by
  induction y using List.reverseRecOn with
  | nil => simp [hc]
  | append_singleton y d ih =>
      have hassoc : x ++ c :: (y ++ [d]) = (x ++ c :: y) ++ [d] := by simp
      rw [hassoc, List.rdropWhile_concat, List.rdropWhile_concat]
      split
      · exact ih
      · simp

theorem dropWhile_split {c : α} (hc : p c = false) (x y : List α) :
    (x ++ c :: y).dropWhile p = x.dropWhile p ++ c :: y := by
  induction x with
  | nil => simp [hc]
  | cons d x ih =>
      rw [List.cons_append, List.dropWhile_cons, List.dropWhile_cons]
      split
      · exact ih
      · rfl

theorem trim_split {c : α} (hc : p c = false) (x y : List α) :
    trim p (x ++ c :: y) = x.dropWhile p ++ c :: y.rdropWhile p := by
  rw [trim, dropWhile_split hc, rdropWhile_split hc]

theorem trim_of_all_blank {l : List α} (h : ∀ c ∈ l, p c = true) : trim p l = [] := by
  rw [trim, List.dropWhile_eq_nil_iff.mpr h, List.rdropWhile_nil]

theorem blank_or_split (l : List α) :
    (∀ c ∈ l, p c = true) ∨ ∃ x c y, l = x ++ c :: y ∧ p c = false := by
  by_cases h : ∀ c ∈ l, p c = true
  · exact .inl h
  · push Not at h
    obtain ⟨c, hmem, hc⟩ := h
    obtain ⟨x, y, hl⟩ := List.append_of_mem hmem
    exact .inr ⟨x, c, y, hl, by simpa using hc⟩

theorem trim_dropWhile (l : List α) : trim p (l.dropWhile p) = trim p l := by
  rw [trim, trim, List.dropWhile_idempotent]

theorem trim_rdropWhile (l : List α) : trim p (l.rdropWhile p) = trim p l := by
  rcases blank_or_split l with hall | ⟨x, c, y, rfl, hc⟩
  · rw [List.rdropWhile_eq_nil_iff.mpr hall, trim_of_all_blank hall]
    rfl
  · rw [rdropWhile_split hc, trim_split hc, trim_split hc, List.rdropWhile_idempotent]

theorem trim_cons_blank {b : α} (hb : p b = true) (l : List α) : trim p (b :: l) = trim p l := by
  rw [trim, List.dropWhile_cons_of_pos hb, trim]

theorem trim_append_blank {b : α} (hb : p b = true) (l : List α) :
    trim p (l ++ [b]) = trim p l := by
  rw [← trim_rdropWhile, List.rdropWhile_concat_pos _ _ _ hb, trim_rdropWhile]

theorem trim_of_trimmed {l : List α} (h : Trimmed p l) : trim p l = l := by
  cases l with
  | nil => rfl
  | cons c l =>
      have hc : p c = false := h.1 c rfl
      rw [trim, List.dropWhile_cons_of_neg (by simp [hc]), List.rdropWhile_eq_self_iff]
      intro hne
      have hlast := h.2 _ (List.getLast?_eq_some_getLast hne)
      simp [hlast]

theorem trimmed_trim (l : List α) : Trimmed p (trim p l) := by
  rcases blank_or_split l with hall | ⟨x, c, y, rfl, hc⟩
  · rw [trim_of_all_blank hall]
    exact ⟨by simp, by simp⟩
  · constructor
    · rw [trim_split hc]
      intro d hd
      cases hx : x.dropWhile p with
      | nil =>
          rw [hx] at hd
          cases hd
          exact hc
      | cons e rest =>
          rw [hx] at hd
          cases hd
          simpa [hx] using List.head_dropWhile_not p (l := x) (by simp [hx])
    · intro d hd
      have hne : trim p (x ++ c :: y) ≠ [] := by simp [trim_split hc]
      rw [List.getLast?_eq_some_getLast hne] at hd
      cases hd
      exact Bool.eq_false_iff.mpr (List.rdropWhile_last_not p _ hne)

theorem trim_eq_self_iff {l : List α} : trim p l = l ↔ Trimmed p l :=
  ⟨fun h => h ▸ trimmed_trim l, trim_of_trimmed⟩

theorem trim_isInfix (l : List α) : trim p l <:+: l :=
  (List.rdropWhile_prefix p _).isInfix.trans (List.dropWhile_suffix p).isInfix

theorem mem_of_mem_trim {l : List α} {c : α} (h : c ∈ trim p l) : c ∈ l :=
  (trim_isInfix l).subset h

theorem length_trim_le (l : List α) : (trim p l).length ≤ l.length :=
  (trim_isInfix l).length_le

/-! ## Lines -/

section Lines

variable [DecidableEq α] (nl : α)

/-- What repeated `getline` calls return: the stretches between separators,
without an empty one after the last separator. -/
def lines : List α → List (List α)
  | [] => []
  | c :: rest =>
      if c = nl then [] :: lines rest
      else
        match lines rest with
        | [] => [[c]]
        | line :: more => (c :: line) :: more

variable {nl}

theorem lines_line {line : List α} (h : nl ∉ line) (rest : List α) :
    lines nl (line ++ nl :: rest) = line :: lines nl rest := by
  induction line with
  | nil => simp [lines]
  | cons c line ih =>
      rw [List.mem_cons, not_or] at h
      simp [lines, ih h.2, Ne.symm h.1]

theorem line_or_split (nl : α) (text : List α) :
    nl ∉ text ∨ ∃ line rest, text = line ++ nl :: rest ∧ nl ∉ line := by
  by_cases h : nl ∈ text
  · obtain ⟨line, rest, heq, hline⟩ := List.eq_append_cons_of_mem h
    exact .inr ⟨line, rest, heq, hline⟩
  · exact .inl h

theorem lines_append (x rest : List α) :
    lines nl (x ++ nl :: rest) = lines nl (x ++ [nl]) ++ lines nl rest := by
  induction hlen : x.length using Nat.strongRecOn generalizing x with
  | ind n ih =>
      rcases line_or_split nl x with hx | ⟨line, more, rfl, hline⟩
      · rw [lines_line hx, lines_line hx]
        rfl
      · have hmore : more.length < n := by
          rw [← hlen]
          simp only [List.length_append, List.length_cons]
          omega
        rw [List.append_assoc, List.append_assoc, List.cons_append, List.cons_append,
          lines_line hline, lines_line hline, ih _ hmore more rfl]
        rfl

/-- The lines of a text written piece by piece, a separator after each. -/
theorem lines_flatMap {ι : Type*} (pieces : List ι) (f : ι → List α) :
    lines nl (pieces.flatMap fun i => f i ++ [nl]) =
      pieces.flatMap fun i => lines nl (f i ++ [nl]) := by
  induction pieces with
  | nil => rfl
  | cons i pieces ih =>
      simp only [List.flatMap_cons]
      rw [← ih, List.append_assoc, List.singleton_append, lines_append]

/-- Writing lines out and cutting the text gives the lines back. -/
theorem lines_unlines {ls : List (List α)} (h : ∀ line ∈ ls, nl ∉ line) :
    lines nl (ls.flatMap (· ++ [nl])) = ls := by
  induction ls with
  | nil => rfl
  | cons line ls ih =>
      rw [List.forall_mem_cons] at h
      rw [List.flatMap_cons, List.append_assoc, List.singleton_append, lines_line h.1, ih h.2]

theorem not_mem_of_mem_lines {text line : List α} (h : line ∈ lines nl text) : nl ∉ line := by
  induction text generalizing line with
  | nil => cases h
  | cons c text ih =>
      by_cases hc : c = nl
      · rw [lines, if_pos hc] at h
        rcases List.mem_cons.mp h with rfl | h
        · simp
        · exact ih h
      · rw [lines, if_neg hc] at h
        cases hmore : lines nl text with
        | nil =>
            rw [hmore] at h
            rw [List.mem_singleton.mp h, List.mem_singleton]
            exact Ne.symm hc
        | cons first more =>
            rw [hmore] at h ih
            rcases List.mem_cons.mp h with rfl | h
            · rw [List.mem_cons, not_or]
              exact ⟨Ne.symm hc, ih List.mem_cons_self⟩
            · exact ih (List.mem_cons_of_mem _ h)

theorem length_le_of_mem_lines {text line : List α} (h : line ∈ lines nl text) :
    line.length ≤ text.length := by
  induction text generalizing line with
  | nil => cases h
  | cons c text ih =>
      rw [lines] at h
      split at h
      · rcases List.mem_cons.mp h with rfl | h
        · simp
        · exact Nat.le_succ_of_le (ih h)
      · cases hmore : lines nl text with
        | nil =>
            rw [hmore] at h
            simp [List.mem_singleton.mp h]
        | cons first more =>
            rw [hmore] at h ih
            rcases List.mem_cons.mp h with rfl | h
            · exact Nat.succ_le_succ (ih List.mem_cons_self)
            · exact Nat.le_succ_of_le (ih (List.mem_cons_of_mem _ h))

end Lines

end NetTest.Text
