import Mathlib.Data.List.Basic
import Mathlib.Logic.Function.Basic
import Mathlib.Logic.Relation
import NetTest.Lib.Text

/-!
# Backtracking regular expressions

A pattern is matched by trying its alternatives in order and going back to the next one
when the rest fails.  `results` lists all ways to match a prefix of the text in the order
they are tried, so the match a backtracking engine returns is the first of them.
`findAll` collects the matches from left to right, each from where the one before ended.

What a pattern does without taking the last letter of the text it also does on the text
without that letter; this is what makes trailing letters irrelevant to a pattern that
cannot end in them.
-/

namespace NetTest.Regex

variable {α : Type*}

inductive Pattern (α : Type*) where
  | letter (p : α → Bool)
  | seq (x y : Pattern α)
  | alt (x y : Pattern α)
  | opt (x : Pattern α)
  | many (lazily : Bool) (x : Pattern α)
  | group (n : Nat) (x : Pattern α)

namespace Pattern

def star (x : Pattern α) : Pattern α := .many false x

def lazyStar (x : Pattern α) : Pattern α := .many true x

def plus (x : Pattern α) : Pattern α := .seq x (.star x)

/-- The letters of a word, one after the other, and then `x`. -/
def word [DecidableEq α] : List α → Pattern α → Pattern α
  | [], x => x
  | c :: rest, x => .seq (.letter (· == c)) (word rest x)

end Pattern

/-- What the groups have captured so far, empty for a group that has taken no part, and
the text that is left. -/
structure State (α : Type*) where
  groups : Nat → List α
  rest : List α

/-- At most so many turns, as many or, lazily, as few as possible first.  A turn that
takes nothing ends the loop. -/
def loop (lazily : Bool) (turn : State α → List (State α)) : Nat → State α → List (State α)
  | 0, s => [s]
  | turns + 1, s =>
      let more :=
        ((turn s).filter (·.rest.length < s.rest.length)).flatMap (loop lazily turn turns)
      if lazily then s :: more else more ++ [s]

def results : Pattern α → State α → List (State α)
  | .letter p, s =>
      match s.rest with
      | [] => []
      | c :: rest => if p c then [{ s with rest }] else []
  | .seq x y, s => (results x s).flatMap (results y)
  | .alt x y, s => results x s ++ results y s
  | .opt x, s => results x s ++ [s]
  | .many lazily x, s => loop lazily (results x) s.rest.length s
  | .group n x, s =>
      (results x s).map fun s' =>
        let taken := s.rest.take (s.rest.length - s'.rest.length)
        { s' with groups := Function.update s'.groups n taken }

/-- The first way to match that takes a letter. -/
def first (x : Pattern α) (text : List α) : Option (State α) :=
  (results x { groups := fun _ => [], rest := text }).find? (·.rest.length < text.length)

def findFrom (x : Pattern α) : Nat → List α → List (Nat → List α)
  | 0, _ => []
  | steps + 1, text =>
      match first x text with
      | some s => s.groups :: findFrom x steps s.rest
      | none => findFrom x steps text.tail

def findAll (x : Pattern α) (text : List α) : List (Nat → List α) := findFrom x text.length text

/-! ## Turn by turn -/

section Turns

variable {turn : State α → List (State α)} {s s' : State α}

theorem mem_loop {lazily : Bool} {turns : Nat} :
    s' ∈ loop lazily turn (turns + 1) s ↔ s' = s ∨
      ∃ a ∈ (turn s).filter (·.rest.length < s.rest.length), s' ∈ loop lazily turn turns a := by
  rw [loop]
  cases lazily with
  | true =>
      rw [if_pos rfl, List.mem_cons, List.mem_flatMap]
  | false =>
      rw [if_neg Bool.false_ne_true, List.mem_append, List.mem_singleton, List.mem_flatMap, or_comm]

theorem reach_of_mem_loop {lazily : Bool} {turns : Nat} (h : s' ∈ loop lazily turn turns s) :
    Relation.ReflTransGen (fun a b => b ∈ turn a) s s' := by
  induction turns generalizing s with
  | zero =>
      rw [loop, List.mem_singleton] at h
      rw [h]
  | succ turns ih =>
      rcases mem_loop.mp h with heq | ⟨a, ha, hmem⟩
      · rw [heq]
      · exact .head (List.mem_filter.mp ha).1 (ih hmem)

theorem le_of_reach {μ : State α → Nat} (hturn : ∀ a b, b ∈ turn a → μ b ≤ μ a)
    (h : Relation.ReflTransGen (fun a b => b ∈ turn a) s s') : μ s' ≤ μ s := by
  induction h with
  | refl => exact Nat.le_refl _
  | tail _ hmem ih => exact Nat.le_trans (hturn _ _ hmem) ih

theorem eq_of_reach {β : Type*} {f : State α → β} (hturn : ∀ a b, b ∈ turn a → f b = f a)
    (h : Relation.ReflTransGen (fun a b => b ∈ turn a) s s') : f s' = f s := by
  induction h with
  | refl => rfl
  | tail _ hmem ih => exact (hturn _ _ hmem).trans ih

end Turns

theorem results_letter_nil {p : α → Bool} {s : State α} (hrest : s.rest = []) :
    results (.letter p) s = [] := by
  simp only [results, hrest]

theorem results_letter_cons {p : α → Bool} {s : State α} {c : α} {rest : List α}
    (hrest : s.rest = c :: rest) :
    results (.letter p) s = if p c then [{ s with rest }] else [] := by
  simp only [results, hrest]

theorem mem_results_letter {p : α → Bool} {s s' : State α} (h : s' ∈ results (.letter p) s) :
    ∃ c, s.rest = c :: s'.rest ∧ p c = true ∧ s'.groups = s.groups := by
  cases hrest : s.rest with
  | nil =>
      rw [results_letter_nil hrest] at h
      cases h
  | cons c rest =>
      rw [results_letter_cons hrest] at h
      by_cases hp : p c = true
      · rw [if_pos hp, List.mem_singleton] at h
        rw [h]
        exact ⟨c, rfl, hp, rfl⟩
      · rw [if_neg hp] at h
        cases h

/-! ## How much a pattern takes -/

/-- A number of letters every match takes. -/
def Pattern.least : Pattern α → Nat
  | .letter _ => 1
  | .seq x y => x.least + y.least
  | .alt x y => min x.least y.least
  | .opt _ => 0
  | .many _ _ => 0
  | .group _ x => x.least

theorem length_of_mem_results {x : Pattern α} {s s' : State α} (h : s' ∈ results x s) :
    s'.rest.length + x.least ≤ s.rest.length := by
  induction x generalizing s s' with
  | letter p =>
      rcases mem_results_letter h with ⟨c, hrest, -, -⟩
      rw [hrest, List.length_cons]
      exact Nat.le_refl _
  | seq x y ihx ihy =>
      rw [results, List.mem_flatMap] at h
      rcases h with ⟨a, ha, hmem⟩
      have hx := ihx ha
      have hy := ihy hmem
      rw [Pattern.least]
      omega
  | alt x y ihx ihy =>
      rw [results, List.mem_append] at h
      rw [Pattern.least]
      rcases h with h | h
      · have hx := ihx h
        omega
      · have hy := ihy h
        omega
  | opt x ih =>
      rw [results, List.mem_append, List.mem_singleton] at h
      rcases h with h | heq
      · exact Nat.le_trans (Nat.le_add_right _ _) (ih h)
      · rw [heq]
        exact Nat.le_refl _
  | many lazily x ih =>
      rw [results] at h
      exact le_of_reach (fun a b hab => Nat.le_of_add_right_le (ih hab)) (reach_of_mem_loop h)
  | group n x ih =>
      rw [results, List.mem_map] at h
      rcases h with ⟨a, ha, rfl⟩
      have hx : a.rest.length + x.least ≤ s.rest.length := ih ha
      exact hx

/-! ## Which groups a pattern sets -/

def Pattern.Sets (n : Nat) : Pattern α → Prop
  | .letter _ => False
  | .seq x y => x.Sets n ∨ y.Sets n
  | .alt x y => x.Sets n ∨ y.Sets n
  | .opt x => x.Sets n
  | .many _ x => x.Sets n
  | .group m x => m = n ∨ x.Sets n

theorem groups_of_mem_results {n : Nat} {x : Pattern α} (hx : ¬ x.Sets n) {s s' : State α}
    (h : s' ∈ results x s) : s'.groups n = s.groups n := by
  induction x generalizing s s' with
  | letter p =>
      rcases mem_results_letter h with ⟨c, -, -, hgroups⟩
      rw [hgroups]
  | seq x y ihx ihy =>
      rw [Pattern.Sets, not_or] at hx
      rw [results, List.mem_flatMap] at h
      rcases h with ⟨a, ha, hmem⟩
      exact (ihy hx.2 hmem).trans (ihx hx.1 ha)
  | alt x y ihx ihy =>
      rw [Pattern.Sets, not_or] at hx
      rw [results, List.mem_append] at h
      rcases h with h | h
      · exact ihx hx.1 h
      · exact ihy hx.2 h
  | opt x ih =>
      rw [results, List.mem_append, List.mem_singleton] at h
      rcases h with h | heq
      · exact ih hx h
      · rw [heq]
  | many lazily x ih =>
      rw [results] at h
      exact eq_of_reach (f := fun s => s.groups n) (fun a b hab => ih hx hab) (reach_of_mem_loop h)
  | group m x ih =>
      rw [Pattern.Sets, not_or] at hx
      rw [results, List.mem_map] at h
      rcases h with ⟨a, ha, rfl⟩
      exact (Function.update_of_ne (Ne.symm hx.1) _ _).trans (ih hx.2 ha)

/-! ## What a run of letters takes -/

theorem mem_results_word [DecidableEq α] {l : List α} {x : Pattern α} {s s' : State α}
    (h : s' ∈ results (.word l x) s) : ∃ a, s' ∈ results x a := by
  induction l generalizing s with
  | nil => exact ⟨s, h⟩
  | cons c l ih =>
      rw [Pattern.word, results, List.mem_flatMap] at h
      rcases h with ⟨a, -, hmem⟩
      exact ih hmem

theorem taken_of_mem_star {p : α → Bool} {s s' : State α}
    (h : s' ∈ results (.star (.letter p)) s) :
    ∃ taken, s.rest = taken ++ s'.rest ∧ ∀ c ∈ taken, p c = true := by
  rw [Pattern.star, results] at h
  have hreach := reach_of_mem_loop h
  clear h
  induction hreach with
  | refl => exact ⟨[], rfl, fun c hc => absurd hc List.not_mem_nil⟩
  | tail _ hmem ih =>
      rcases ih with ⟨taken, hrest, htaken⟩
      rcases mem_results_letter hmem with ⟨c, hmore, hc, -⟩
      refine ⟨taken ++ [c], ?_, ?_⟩
      · rw [hrest, hmore, List.append_assoc, List.singleton_append]
      · exact List.forall_mem_append.mpr ⟨htaken, List.forall_mem_singleton.mpr hc⟩

theorem taken_of_mem_plus {p : α → Bool} {s s' : State α}
    (h : s' ∈ results (.plus (.letter p)) s) :
    ∃ taken, s.rest = taken ++ s'.rest ∧ ∀ c ∈ taken, p c = true := by
  rw [Pattern.plus, results, List.mem_flatMap] at h
  rcases h with ⟨a, ha, hmem⟩
  rcases mem_results_letter ha with ⟨c, hrest, hc, -⟩
  rcases taken_of_mem_star hmem with ⟨taken, hmore, htaken⟩
  refine ⟨c :: taken, ?_, List.forall_mem_cons.mpr ⟨hc, htaken⟩⟩
  rw [hrest, hmore, List.cons_append]

/-- A group around a run of letters captures such letters. -/
theorem groups_of_mem_group_plus {n : Nat} {p : α → Bool} {s s' : State α}
    (h : s' ∈ results (.group n (.plus (.letter p))) s) : ∀ c ∈ s'.groups n, p c = true := by
  rw [results, List.mem_map] at h
  rcases h with ⟨a, ha, rfl⟩
  rcases taken_of_mem_plus ha with ⟨taken, hrest, htaken⟩
  have hlength : s.rest.length - a.rest.length = taken.length := by
    rw [hrest, List.length_append, Nat.add_sub_cancel]
  simp only [Function.update_self, hlength]
  rw [hrest, List.take_left]
  exact htaken

/-! ## One letter more at the end -/

section Push

variable (b : α)

/-- The text with one letter more. -/
def State.push (s : State α) : State α := { s with rest := s.rest ++ [b] }

def State.unfinished (s : State α) : Bool := !s.rest.isEmpty

variable {b}

theorem unfinished_push (s : State α) : (s.push b).unfinished = true := by
  have hne : s.rest ++ [b] ≠ [] := List.append_ne_nil_of_right_ne_nil _ (List.cons_ne_nil b [])
  rw [State.unfinished, State.push, Bool.not_eq_true', Bool.eq_false_iff, ne_eq, List.isEmpty_iff]
  exact hne

theorem rest_of_not_unfinished {s : State α} (h : s.unfinished = false) : s.rest = [] := by
  rw [State.unfinished, Bool.not_eq_false', List.isEmpty_iff] at h
  exact h

/-- Whoever takes the last letter is followed by nothing that counts. -/
theorem filter_eq_nil {l : List (State α)} (h : ∀ s ∈ l, s.rest = []) :
    l.filter (·.unfinished) = [] := by
  rw [List.filter_eq_nil_iff]
  intro s hs
  rw [State.unfinished, h s hs]
  exact Bool.noConfusion

theorem flatMap_push {l l' : List (State α)} {f g : State α → List (State α)}
    (hl : l.filter (·.unfinished) = l'.map (State.push b))
    (hf : ∀ a ∈ l', (f (a.push b)).filter (·.unfinished) = (g a).map (State.push b))
    (hend : ∀ a ∈ l, a.rest = [] → ∀ s ∈ f a, s.rest = []) :
    (l.flatMap f).filter (·.unfinished) = (l'.flatMap g).map (State.push b) := by
  have hskip : (l.flatMap f).filter (·.unfinished) =
      (l.filter (·.unfinished)).flatMap fun a => (f a).filter (·.unfinished) := by
    rw [List.filter_flatMap]
    clear hl
    induction l with
    | nil => rfl
    | cons a l ih =>
        rw [List.forall_mem_cons] at hend
        rw [List.flatMap_cons, ih hend.2, List.filter_cons]
        cases ha : a.unfinished with
        | true => rfl
        | false =>
            rw [filter_eq_nil (hend.1 (rest_of_not_unfinished ha))]
            rfl
  rw [hskip, hl, List.flatMap_map, List.map_flatMap]
  exact List.flatMap_congr hf

theorem rest_of_mem_results {x : Pattern α} {s s' : State α} (hs : s.rest = [])
    (h : s' ∈ results x s) : s'.rest = [] := by
  have hle := length_of_mem_results h
  rw [hs, List.length_nil] at hle
  exact List.eq_nil_of_length_eq_zero (by omega)

theorem rest_of_mem_loop {x : Pattern α} {lazily : Bool} {turns : Nat} {s s' : State α}
    (hs : s.rest = []) (h : s' ∈ loop lazily (results x) turns s) : s'.rest = [] := by
  have hle : s'.rest.length ≤ s.rest.length :=
    le_of_reach (fun a b hab => Nat.le_of_add_right_le (length_of_mem_results hab))
      (reach_of_mem_loop h)
  rw [hs, List.length_nil] at hle
  exact List.eq_nil_of_length_eq_zero (Nat.le_zero.mp hle)

theorem filter_turn_push {turn : State α → List (State α)} {s : State α}
    (hturn : (turn (s.push b)).filter (·.unfinished) = (turn s).map (State.push b)) :
    ((turn (s.push b)).filter (·.rest.length < (s.push b).rest.length)).filter (·.unfinished) =
      ((turn s).filter (·.rest.length < s.rest.length)).map (State.push b) := by
  rw [List.filter_comm, hturn, List.filter_map]
  congr 1
  apply List.filter_congr
  intro a _
  simp only [Function.comp_apply, State.push, List.length_append, List.length_singleton,
    Nat.add_lt_add_iff_right]

theorem filter_loop {more more' : List (State α)} (lazily : Bool) (s : State α)
    (h : more.filter (·.unfinished) = more'.map (State.push b)) :
    (if lazily then s.push b :: more else more ++ [s.push b]).filter (·.unfinished) =
      (if lazily then s :: more' else more' ++ [s]).map (State.push b) := by
  cases lazily with
  | true =>
      rw [if_pos rfl, if_pos rfl, List.filter_cons, if_pos (unfinished_push s), h, List.map_cons]
  | false =>
      rw [if_neg Bool.false_ne_true, if_neg Bool.false_ne_true, List.filter_append, h,
        List.map_append, List.filter_cons, if_pos (unfinished_push s)]
      rfl

/-- The longer text allows one turn more, which takes the last letter. -/
theorem loop_push {x : Pattern α} {lazily : Bool} {turns : Nat}
    (hturn : ∀ s, (results x (s.push b)).filter (·.unfinished) = (results x s).map (State.push b))
    {s : State α} (hturns : s.rest.length ≤ turns) :
    (loop lazily (results x) (turns + 1) (s.push b)).filter (·.unfinished) =
      (loop lazily (results x) turns s).map (State.push b) := by
  induction turns generalizing s with
  | zero =>
      have hone : [s] = if lazily then s :: [] else [] ++ [s] := by
        rw [List.nil_append, ite_self]
      rw [loop, loop, hone]
      apply filter_loop
      apply filter_eq_nil
      intro s' hs'
      rcases List.mem_flatMap.mp hs' with ⟨a, ha, hmem⟩
      have hlt := of_decide_eq_true (List.mem_filter.mp ha).2
      rw [State.push, List.length_append, List.length_singleton] at hlt
      exact rest_of_mem_loop (List.eq_nil_of_length_eq_zero (by omega)) hmem
  | succ turns ih =>
      rw [loop, loop]
      apply filter_loop
      apply flatMap_push (filter_turn_push (hturn s))
      · intro a ha
        have hlt := of_decide_eq_true (List.mem_filter.mp ha).2
        exact ih (by omega)
      · intro a _ hrest s' hs'
        exact rest_of_mem_loop hrest hs'

/-- The ways to match that leave the last letter are the ways to match without it. -/
theorem results_push (x : Pattern α) (s : State α) :
    (results x (s.push b)).filter (·.unfinished) = (results x s).map (State.push b) := by
  induction x generalizing s with
  | letter p =>
      cases hrest : s.rest with
      | nil =>
          rw [results_letter_nil hrest]
          apply filter_eq_nil
          intro s' hs'
          rcases mem_results_letter hs' with ⟨c, hpush, -, -⟩
          rw [State.push, hrest, List.nil_append] at hpush
          exact (List.cons.inj hpush).2.symm
      | cons c rest =>
          have hpush : (s.push b).rest = c :: (rest ++ [b]) := by
            rw [State.push, hrest, List.cons_append]
          rw [results_letter_cons hrest, results_letter_cons hpush]
          by_cases hp : p c = true
          · have hleft := unfinished_push (b := b) { s with rest }
            rw [if_pos hp, if_pos hp, List.filter_cons]
            exact if_pos hleft
          · rw [if_neg hp, if_neg hp]
            rfl
  | seq x y ihx ihy =>
      rw [results, results]
      apply flatMap_push (ihx s)
      · intro a _
        exact ihy a
      · intro a _ hrest s' hs'
        exact rest_of_mem_results hrest hs'
  | alt x y ihx ihy =>
      rw [results, results, List.filter_append, ihx, ihy, List.map_append]
  | opt x ih =>
      rw [results, results, List.filter_append, ih, List.map_append, List.filter_cons,
        if_pos (unfinished_push s)]
      rfl
  | many lazily x ih =>
      have hlength : (s.push b).rest.length = s.rest.length + 1 := by
        rw [State.push, List.length_append, List.length_singleton]
      rw [results, results, hlength]
      exact loop_push ih (Nat.le_refl _)
  | group n x ih =>
      have htaken : ∀ a : State α,
          (s.push b).rest.take ((s.push b).rest.length - (a.push b).rest.length) =
            s.rest.take (s.rest.length - a.rest.length) := by
        intro a
        simp only [State.push, List.length_append, List.length_singleton, Nat.add_sub_add_right]
        exact List.take_append_of_le_length (Nat.sub_le _ _)
      have hfilter : ((results x (s.push b)).filter fun a => a.unfinished) =
          (results x s).map (State.push b) := ih s
      rw [results, results, List.filter_map, List.map_map]
      simp only [Function.comp_def, State.unfinished] at hfilter ⊢
      rw [hfilter, List.map_map]
      apply List.map_congr_left
      intro a _
      simp only [Function.comp_apply, htaken]
      rfl

/-- A match takes a letter, and leaves the last one if that is `b`. -/
structure Stops (b : α) (x : Pattern α) : Prop where
  takes : 0 < x.least
  leaves : ∀ s : State α, ∀ s' ∈ results x (s.push b), s'.unfinished = true

theorem stops_letter {p : α → Bool} (hb : p b = false) : Stops b (.letter p) := by
  refine ⟨Nat.one_pos, ?_⟩
  intro s s' hs'
  rcases mem_results_letter hs' with ⟨c, hrest, hc, -⟩
  cases hleft : s'.unfinished with
  | true => rfl
  | false =>
      rw [rest_of_not_unfinished hleft] at hrest
      have hlast : s.rest ++ [b] = [] ++ [c] := hrest
      rw [← (List.append_singleton_inj.mp hlast).2, hb] at hc
      exact absurd hc Bool.noConfusion

theorem Stops.seq {y : Pattern α} (hy : Stops b y) (x : Pattern α) : Stops b (.seq x y) := by
  refine ⟨Nat.lt_of_lt_of_le hy.takes (Nat.le_add_left _ _), ?_⟩
  intro s s' hs'
  rw [results, List.mem_flatMap] at hs'
  rcases hs' with ⟨a, ha, hmem⟩
  cases hleft : a.unfinished with
  | true =>
      have hpush := List.mem_filter.mpr ⟨ha, hleft⟩
      rw [results_push, List.mem_map] at hpush
      rcases hpush with ⟨a', -, rfl⟩
      exact hy.leaves a' s' hmem
  | false =>
      have hle := length_of_mem_results hmem
      have htakes := hy.takes
      rw [rest_of_not_unfinished hleft, List.length_nil] at hle
      omega

theorem Stops.results {x : Pattern α} (hx : Stops b x) (s : State α) :
    results x (s.push b) = (results x s).map (State.push b) := by
  rw [← results_push, List.filter_eq_self.mpr (hx.leaves s)]

end Push

/-! ## One letter more at the start -/

/-- A text that starts with `b` does not match. -/
def Refuses (b : α) (x : Pattern α) : Prop :=
  ∀ groups rest, results x { groups, rest := b :: rest } = []

def Skips (b : α) (x : Pattern α) : Prop :=
  ∀ groups rest, results x { groups, rest := b :: rest } = results x { groups, rest }

variable {b : α} {x y : Pattern α}

theorem refuses_letter {p : α → Bool} (hb : p b = false) : Refuses b (.letter p) := by
  intro groups rest
  rw [results_letter_cons rfl, hb]
  rfl

theorem Refuses.seq (hx : Refuses b x) (y : Pattern α) : Refuses b (.seq x y) := by
  intro groups rest
  rw [results, hx groups rest]
  rfl

theorem Refuses.group (hx : Refuses b x) (n : Nat) : Refuses b (.group n x) := by
  intro groups rest
  rw [results, hx groups rest]
  rfl

theorem skips_star {p : α → Bool} (hb : p b = true) (hy : Refuses b y) :
    Skips b (.seq (.star (.letter p)) y) := by
  intro groups rest
  have hstar : results (.star (.letter p)) { groups, rest := b :: rest } =
      results (.star (.letter p)) { groups, rest } ++ [{ groups, rest := b :: rest }] := by
    rw [Pattern.star, results, List.length_cons, loop, results_letter_cons rfl, if_pos hb,
      if_neg Bool.false_ne_true, results, List.filter_cons, if_pos (by simp), List.filter_nil,
      List.flatMap_singleton]
  rw [results, hstar, List.flatMap_append, List.flatMap_singleton, hy groups rest,
    List.append_nil, results]

/-! ## The search through the text -/

theorem lt_of_first {text : List α} {s : State α} (h : first x text = some s) :
    s.rest.length < text.length := by
  have hs : decide (s.rest.length < text.length) = true := by
    rw [first] at h
    exact List.find?_some (p := fun s : State α => decide (s.rest.length < text.length)) h
  exact of_decide_eq_true hs

theorem first_nil (x : Pattern α) : first x [] = none := by
  cases h : first x [] with
  | none => rfl
  | some s => exact absurd (lt_of_first h) (Nat.not_lt_zero _)

theorem findFrom_nil (x : Pattern α) (steps : Nat) : findFrom x steps [] = [] := by
  induction steps with
  | zero => rfl
  | succ steps ih =>
      rw [findFrom, first_nil]
      exact ih

/-- Steps that are not needed change nothing. -/
theorem findFrom_congr {steps steps' : Nat} {text : List α} (h : text.length ≤ steps)
    (h' : text.length ≤ steps') : findFrom x steps text = findFrom x steps' text := by
  induction steps generalizing steps' text with
  | zero =>
      rw [List.eq_nil_of_length_eq_zero (Nat.le_zero.mp h), findFrom_nil, findFrom_nil]
  | succ steps ih =>
      cases steps' with
      | zero => rw [List.eq_nil_of_length_eq_zero (Nat.le_zero.mp h'), findFrom_nil, findFrom_nil]
      | succ steps' =>
          rw [findFrom, findFrom]
          cases hfirst : first x text with
          | some s =>
              have hlt := lt_of_first hfirst
              have hrest : findFrom x steps s.rest = findFrom x steps' s.rest :=
                ih (by omega) (by omega)
              simp only [hrest]
          | none =>
              have htail := List.length_tail (l := text)
              exact ih (by omega) (by omega)

theorem findAll_of_some {text : List α} {s : State α} (h : first x text = some s) :
    findAll x text = s.groups :: findAll x s.rest := by
  have hlt := lt_of_first h
  rw [findAll, findAll, findFrom_congr (Nat.le_refl _) (Nat.le_succ text.length), findFrom, h]
  simp only [findFrom_congr (Nat.le_of_lt hlt) (Nat.le_refl _)]

theorem findAll_of_none {text : List α} (h : first x text = none) :
    findAll x text = findAll x text.tail := by
  have htail := List.length_tail (l := text)
  rw [findAll, findAll, findFrom_congr (Nat.le_refl _) (Nat.le_succ text.length), findFrom, h]
  exact findFrom_congr (by omega) (Nat.le_refl _)

/-- A match is one of the ways to match somewhere in the text. -/
theorem mem_findAll {text : List α} {groups : Nat → List α} (h : groups ∈ findAll x text) :
    ∃ rest, ∃ s ∈ results x { groups := fun _ => [], rest }, s.groups = groups := by
  induction hlen : text.length using Nat.strongRecOn generalizing text with
  | ind n ih =>
      cases hfirst : first x text with
      | some s =>
          have hlt := lt_of_first hfirst
          rw [findAll_of_some hfirst, List.mem_cons] at h
          rcases h with heq | hmem
          · exact ⟨text, s, List.mem_of_find?_eq_some hfirst, heq.symm⟩
          · exact ih s.rest.length (by omega) hmem rfl
      | none =>
          rw [findAll_of_none hfirst] at h
          cases text with
          | nil => cases h
          | cons c rest =>
              rw [List.length_cons] at hlen
              exact ih rest.length (by omega) h rfl

theorem first_append (hx : Stops b x) (text : List α) :
    first x (text ++ [b]) = (first x text).map (State.push b) := by
  have hpush : ({ groups := fun _ => [], rest := text ++ [b] } : State α) =
      State.push b { groups := fun _ => [], rest := text } := rfl
  rw [first, first, hpush, hx.results, List.find?_map]
  congr 2
  funext s
  simp only [Function.comp_apply, State.push, List.length_append, List.length_singleton,
    Nat.add_lt_add_iff_right]

theorem findAll_append (hx : Stops b x) (text : List α) :
    findAll x (text ++ [b]) = findAll x text := by
  induction hlen : text.length using Nat.strongRecOn generalizing text with
  | ind n ih =>
      have happend := first_append hx text
      cases hfirst : first x text with
      | some s =>
          have hlt := lt_of_first hfirst
          rw [hfirst] at happend
          rw [findAll_of_some hfirst, findAll_of_some happend]
          exact congrArg _ (ih s.rest.length (by omega) s.rest rfl)
      | none =>
          rw [hfirst] at happend
          rw [findAll_of_none hfirst, findAll_of_none happend]
          cases text with
          | nil => rfl
          | cons c rest =>
              rw [List.length_cons] at hlen
              exact ih rest.length (by omega) rest rfl

theorem first_eq_head (hpos : 0 < x.least) (text : List α) :
    first x text = (results x { groups := fun _ => [], rest := text }).head? := by
  have htakes : ∀ s ∈ results x { groups := fun _ => [], rest := text },
      s.rest.length < text.length := by
    intro s hs
    have hle : s.rest.length + x.least ≤ text.length := length_of_mem_results hs
    omega
  rw [first]
  cases hall : results x { groups := fun _ => [], rest := text } with
  | nil => rfl
  | cons s more =>
      have hs := htakes s (hall ▸ List.mem_cons_self)
      rw [List.find?_cons, decide_eq_true hs, List.head?_cons]

theorem findAll_cons (hx : Skips b x) (hpos : 0 < x.least) (text : List α) :
    findAll x (b :: text) = findAll x text := by
  have hcons : first x (b :: text) = first x text := by
    rw [first_eq_head hpos, first_eq_head hpos, hx]
  cases hfirst : first x text with
  | some s => rw [findAll_of_some hfirst, findAll_of_some (hcons.trans hfirst)]
  | none => rw [findAll_of_none (hcons.trans hfirst), List.tail_cons]

/-- Blanks at the ends make no difference to a pattern that skips them and does not end
in one. -/
theorem findAll_trim {blank : α → Bool} (hskips : ∀ b, blank b = true → Skips b x)
    (hstops : ∀ b, blank b = true → Stops b x) (text : List α) :
    findAll x (Text.trim blank text) = findAll x text := by
  have hstart : ∀ l : List α, findAll x (l.dropWhile blank) = findAll x l := by
    intro l
    induction l with
    | nil => rfl
    | cons c l ih =>
        rw [List.dropWhile_cons]
        by_cases hc : blank c = true
        · rw [if_pos hc, ih, findAll_cons (hskips c hc) (hstops c hc).takes]
        · rw [if_neg hc]
  have hend : ∀ l : List α, findAll x (l.rdropWhile blank) = findAll x l := by
    intro l
    induction l using List.reverseRecOn with
    | nil => rfl
    | append_singleton l c ih =>
        rw [List.rdropWhile_concat]
        by_cases hc : blank c = true
        · rw [if_pos hc, ih, findAll_append (hstops c hc)]
        · rw [if_neg hc]
  rw [Text.trim, hend, hstart]

end NetTest.Regex
