import NetTest.ThirdParty.Cmdline.Model

/-!
# What a command line means

A command line is a list of items: options in their long and short spellings, with
or without a value, and arguments that are no options.  A parser allows some of them,
and an item that it allows sets options and leaves no error.
-/

namespace NetTest.Cmdline

open AssocList (keys)

variable {V : Type*}

/-! ## Items -/

inductive Item where
  /-- An argument that is no option. -/
  | rest (arg : Str)
  /-- A single dash, which is ignored. -/
  | dash
  /-- `--name` -/
  | long (name : Str)
  /-- `--name=value` -/
  | longEq (name value : Str)
  /-- `--name value` -/
  | longSep (name value : Str)
  /-- `-abc` -/
  | short (flags : List UInt8) (last : UInt8)
  /-- `-abc value` -/
  | shortSep (flags : List UInt8) (last : UInt8) (value : Str)

namespace Item

/-- How the item is written. -/
def words : Item → List Str
  | rest arg => [arg]
  | dash => [[Cmdline.dash]]
  | long name => [Cmdline.dash :: Cmdline.dash :: name]
  | longEq name value => [Cmdline.dash :: Cmdline.dash :: (name ++ equals :: value)]
  | longSep name value => [Cmdline.dash :: Cmdline.dash :: name, value]
  | short flags last => [Cmdline.dash :: (flags ++ [last])]
  | shortSep flags last value => [Cmdline.dash :: (flags ++ [last]), value]

/-- The writing is not that of another item. -/
def Clear : Item → Prop
  | rest arg => arg.head? ≠ some Cmdline.dash
  | dash => True
  | long name => equals ∉ name
  | longEq name _ => equals ∉ name
  | longSep name _ => equals ∉ name
  | short flags last => (flags ++ [last]).head? ≠ some Cmdline.dash
  | shortSep flags last _ => (flags ++ [last]).head? ≠ some Cmdline.dash

def letters : Item → List UInt8
  | short flags last => flags ++ [last]
  | shortSep flags last _ => flags ++ [last]
  | _ => []

def settings (shorts : List (UInt8 × Str)) : Item → List (Str × Option Str)
  | rest _ => []
  | dash => []
  | long name => [(name, none)]
  | longEq name value => [(name, some value)]
  | longSep name value => [(name, some value)]
  | short flags last => (flags ++ [last]).map fun c => ((shorts.lookup c).getD [], none)
  | shortSep flags last value =>
      (flags.map fun c => ((shorts.lookup c).getD [], none)) ++
        [((shorts.lookup last).getD [], some value)]

def others : Item → List Str
  | rest arg => [arg]
  | _ => []

end Item

/-! ## What a parser allows -/

def Opt.given (o : Opt V) (value : Option Str) : Option (Opt V) :=
  match value with
  | none => o.set
  | some text => o.setValue text

def Opt.reader (o : Opt V) : Option (Str → Option V) :=
  match o.kind with
  | .withoutValue => none
  | .withValue _ _ read => some read

def shortNames (options : List (Str × Opt V)) : List (UInt8 × Str) :=
  (options.filter fun e => e.1 ≠ [] ∧ e.2.shortName ≠ 0).map fun e => (e.2.shortName, e.1)

namespace Parser

def shorts (p : Parser V) : List (UInt8 × Str) := shortNames p.options

/-- What does not change while arguments are read. -/
def shape (p : Parser V) : List (Str × UInt8 × Option (Str → Option V)) :=
  p.options.map fun e => (e.1, e.2.shortName, e.2.reader)

/-- The option is there and takes such a value, or none. -/
def Accepts (p : Parser V) (s : Str × Option Str) : Prop :=
  match s.2 with
  | none => ∃ o, p.options.lookup s.1 = some o ∧ o.reader = none
  | some value => ∃ o read v,
      p.options.lookup s.1 = some o ∧ o.reader = some read ∧ read value = some v

structure Allows (p : Parser V) (item : Item) : Prop where
  clear : item.Clear
  letters : ∀ c ∈ item.letters, (p.shorts.lookup c).isSome
  settings : ∀ s ∈ item.settings p.shorts, p.Accepts s

def setTo (p : Parser V) (s : Str × Option Str) : Parser V :=
  match s.2 with
  | none => p.setOption s.1
  | some value => p.setOptionValue s.1 value

def apply (p : Parser V) (item : Item) : Parser V :=
  { (item.settings p.shorts).foldl setTo p with others := p.others ++ item.others }

def applyAll (p : Parser V) (items : List Item) : Parser V := items.foldl apply p

def started (p : Parser V) (prog : Str) : Parser V :=
  { p with
    errors := []
    others := []
    progName := if p.progName = [] then prog else p.progName }

end Parser

/-! ## Setting an option -/

theorem Opt.given_none_iff (o o' : Opt V) :
    o.given none = some o' ↔ o.kind = .withoutValue ∧ o' = { o with has := true } := by
  unfold given set
  cases hkind : o.kind with
  | withoutValue => simp [eq_comm]
  | withValue need actual read => simp

theorem Opt.given_some_iff (o o' : Opt V) (text : Str) :
    o.given (some text) = some o' ↔ ∃ need actual read v, o.kind = .withValue need actual read ∧
      read text = some v ∧ o' = { o with has := true, kind := .withValue need v read } := by
  unfold given setValue
  cases hkind : o.kind with
  | withoutValue => simp
  | withValue need actual read =>
      simp only [Option.map_eq_some_iff, Kind.withValue.injEq]
      constructor
      · rintro ⟨v, hv, rfl⟩
        exact ⟨need, actual, read, v, ⟨rfl, rfl, rfl⟩, hv, rfl⟩
      · rintro ⟨_, _, _, v, ⟨rfl, rfl, rfl⟩, hv, rfl⟩
        exact ⟨v, hv, rfl⟩

/-- Setting an option changes neither its short name nor its reader. -/
theorem Opt.given_spec {o o' : Opt V} {value : Option Str} (h : o.given value = some o') :
    o'.shortName = o.shortName ∧ o'.reader = o.reader ∧ o'.has = true := by
  cases value with
  | none =>
      rcases (o.given_none_iff o').mp h with ⟨_, rfl⟩
      exact ⟨rfl, rfl, rfl⟩
  | some text =>
      rcases (o.given_some_iff o' text).mp h with ⟨need, actual, read, v, hkind, _, rfl⟩
      exact ⟨rfl, by simp [reader, hkind], rfl⟩

namespace Parser

variable {p : Parser V}

theorem lookup_eq_find (name : Str) :
    (p.options.lookup name).map (fun o => (o.shortName, o.reader)) =
      (p.shape.lookup name) := by
  rw [shape]
  induction p.options with
  | nil => rfl
  | cons e rest ih =>
      rw [List.map_cons, List.lookup_cons, List.lookup_cons]
      cases name == e.1 with
      | true => rfl
      | false => exact ih

theorem shorts_eq_of_shape {q : Parser V} (h : q.shape = p.shape) : q.shorts = p.shorts := by
  have hshorts : ∀ p : Parser V, p.shorts =
      (p.shape.filter fun e => e.1 ≠ [] ∧ e.2.1 ≠ 0).map fun e => (e.2.1, e.1) := by
    intro p
    rw [shorts, shortNames, shape, List.filter_map, List.map_map]
    rfl
  rw [hshorts, hshorts, h]

theorem accepts_iff_shape (s : Str × Option Str) :
    p.Accepts s ↔
      match s.2 with
      | none => ∃ c, p.shape.lookup s.1 = some (c, none)
      | some value => ∃ c read v, p.shape.lookup s.1 = some (c, some read) ∧
          read value = some v := by
  rcases s with ⟨name, value⟩
  have hlookup := p.lookup_eq_find name
  cases value with
  | none =>
      simp only [Accepts]
      constructor
      · rintro ⟨o, ho, hreader⟩
        rw [ho, Option.map_some, hreader] at hlookup
        exact ⟨_, hlookup.symm⟩
      · rintro ⟨c, hc⟩
        rw [hc] at hlookup
        rcases Option.map_eq_some_iff.mp hlookup with ⟨o, ho, heq⟩
        exact ⟨o, ho, (Prod.mk.inj heq).2⟩
  | some value =>
      simp only [Accepts]
      constructor
      · rintro ⟨o, read, v, ho, hreader, hv⟩
        rw [ho, Option.map_some, hreader] at hlookup
        exact ⟨_, read, v, hlookup.symm, hv⟩
      · rintro ⟨c, read, v, hc, hv⟩
        rw [hc] at hlookup
        rcases Option.map_eq_some_iff.mp hlookup with ⟨o, ho, heq⟩
        exact ⟨o, read, v, ho, (Prod.mk.inj heq).2, hv⟩

theorem accepts_of_shape {q : Parser V} (h : q.shape = p.shape) (s : Str × Option Str) :
    q.Accepts s ↔ p.Accepts s := by
  rw [accepts_iff_shape, accepts_iff_shape, h]

theorem allows_of_shape {q : Parser V} (h : q.shape = p.shape) (item : Item) :
    q.Allows item ↔ p.Allows item := by
  have hshorts := shorts_eq_of_shape h
  constructor
  · rintro ⟨hclear, hletters, hsettings⟩
    rw [hshorts] at hletters hsettings
    exact ⟨hclear, hletters, fun s hs => (accepts_of_shape h s).mp (hsettings s hs)⟩
  · rintro ⟨hclear, hletters, hsettings⟩
    refine ⟨hclear, ?_, ?_⟩
    · rw [hshorts]
      exact hletters
    · rw [hshorts]
      exact fun s hs => (accepts_of_shape h s).mpr (hsettings s hs)

theorem accepts_iff_given (s : Str × Option Str) :
    p.Accepts s ↔ ∃ o o', p.options.lookup s.1 = some o ∧ o.given s.2 = some o' := by
  rcases s with ⟨name, value⟩
  cases value with
  | none =>
      simp only [Accepts, Opt.given_none_iff]
      constructor
      · rintro ⟨o, ho, hreader⟩
        refine ⟨o, _, ho, ?_, rfl⟩
        cases hkind : o.kind with
        | withoutValue => rfl
        | withValue need actual read => simp [Opt.reader, hkind] at hreader
      · rintro ⟨o, o', ho, hkind, _⟩
        exact ⟨o, ho, by simp [Opt.reader, hkind]⟩
  | some text =>
      simp only [Accepts, Opt.given_some_iff]
      constructor
      · rintro ⟨o, read, v, ho, hreader, hv⟩
        cases hkind : o.kind with
        | withoutValue => simp [Opt.reader, hkind] at hreader
        | withValue need actual read' =>
            have hread : read' = read := by simpa [Opt.reader, hkind] using hreader
            exact ⟨o, _, ho, need, actual, read', v, hkind, hread ▸ hv, rfl⟩
      · rintro ⟨o, o', ho, need, actual, read, v, hkind, hv, _⟩
        exact ⟨o, read, v, ho, by simp [Opt.reader, hkind], hv⟩

theorem shape_put {name : Str} {o o' : Opt V} (ho : p.options.lookup name = some o)
    (hshort : o'.shortName = o.shortName) (hreader : o'.reader = o.reader) :
    (p.put name o').shape = p.shape := by
  unfold put shape
  simp only
  induction hoptions : p.options generalizing p with
  | nil =>
      rw [hoptions] at ho
      cases ho
  | cons e rest ih =>
      rw [hoptions, List.lookup_cons] at ho
      rw [AssocList.assign]
      by_cases hname : name = e.1
      · subst hname
        rw [beq_self_eq_true, Option.some.injEq] at ho
        subst ho
        simp [hshort, hreader]
      · have hne : (e.1 == name) = false := beq_false_of_ne (Ne.symm hname)
        rw [beq_false_of_ne hname] at ho
        rw [hne]
        simp only [Bool.false_eq_true, if_false, List.map_cons, List.cons.injEq, true_and]
        exact ih (p := { p with options := rest }) ho rfl

theorem setTo_cases (p : Parser V) (s : Str × Option Str) :
    (p.Accepts s ∧ ∃ o o', p.options.lookup s.1 = some o ∧ o.given s.2 = some o' ∧
        p.setTo s = p.put s.1 o') ∨
      (¬ p.Accepts s ∧ ∃ error, p.setTo s = p.fail error) := by
  rcases s with ⟨name, value⟩
  rw [accepts_iff_given]
  cases ho : p.options.lookup name with
  | none =>
      refine .inr ⟨by simp, ?_⟩
      cases value with
      | none => exact ⟨_, by simp only [setTo, setOption, ho]; rfl⟩
      | some text => exact ⟨_, by simp only [setTo, setOptionValue, ho]; rfl⟩
  | some o =>
      cases hgiven : o.given value with
      | none =>
          refine .inr ⟨by simp [hgiven], ?_⟩
          cases value with
          | none =>
              have hset : o.set = none := hgiven
              exact ⟨_, by simp only [setTo, setOption, ho, hset]; rfl⟩
          | some text =>
              have hset : o.setValue text = none := hgiven
              exact ⟨_, by simp only [setTo, setOptionValue, ho, hset]; rfl⟩
      | some o' =>
          refine .inl ⟨⟨o, o', rfl, hgiven⟩, o, o', rfl, hgiven, ?_⟩
          cases value with
          | none =>
              have hset : o.set = some o' := hgiven
              simp only [setTo, setOption, ho, hset]
          | some text =>
              have hset : o.setValue text = some o' := hgiven
              simp only [setTo, setOptionValue, ho, hset]

/-! ## Errors only grow -/

/-- The values of the options, and all that their readers give, meet a condition. -/
def ValuesMeet (P : Str → V → Prop) (p : Parser V) : Prop :=
  ∀ name o, (name, o) ∈ p.options → ∀ need actual read, o.kind = .withValue need actual read →
    P name actual ∧ ∀ text v, read text = some v → P name v

/-- No error is taken back, the shape stays, and so does what the values meet. -/
structure Onward (p q : Parser V) : Prop where
  errors : p.errors <+: q.errors
  shape : q.shape = p.shape
  values : ∀ P, p.ValuesMeet P → q.ValuesMeet P

theorem Onward.refl (p : Parser V) : Onward p p := ⟨List.prefix_rfl, rfl, fun _ h => h⟩

theorem Onward.trans {q r : Parser V} (h : Onward p q) (h' : Onward q r) : Onward p r :=
  ⟨h.errors.trans h'.errors, h'.shape.trans h.shape, fun P hP => h'.values P (h.values P hP)⟩

theorem onward_fail (p : Parser V) (error : Str) : Onward p (p.fail error) :=
  ⟨List.prefix_append _ _, rfl, fun _ h => h⟩

theorem onward_others (p : Parser V) (others : List Str) :
    Onward p { p with others := others } :=
  ⟨List.prefix_rfl, rfl, fun _ h => h⟩

theorem given_meets {P : V → Prop} {o o' : Opt V} {value : Option Str}
    (h : ∀ need actual read, o.kind = .withValue need actual read →
      P actual ∧ ∀ text v, read text = some v → P v) (hgiven : o.given value = some o') :
    ∀ need actual read, o'.kind = .withValue need actual read →
      P actual ∧ ∀ text v, read text = some v → P v := by
  cases value with
  | none =>
      rcases (o.given_none_iff o').mp hgiven with ⟨_, rfl⟩
      exact h
  | some text =>
      rcases (o.given_some_iff o' text).mp hgiven with ⟨need, actual, read, v, hkind, hv, rfl⟩
      have hread := (h need actual read hkind).2
      intro need' actual' read' hkind'
      rcases Kind.withValue.inj hkind' with ⟨_, rfl, rfl⟩
      exact ⟨hread text v hv, hread⟩

theorem valuesMeet_put {P : Str → V → Prop} {name : Str} {o : Opt V} (h : p.ValuesMeet P)
    (ho : ∀ need actual read, o.kind = .withValue need actual read →
      P name actual ∧ ∀ text v, read text = some v → P name v) :
    (p.put name o).ValuesMeet P := by
  intro name' o' hmem
  rcases AssocList.mem_assign hmem with heq | hold
  · rw [(Prod.mk.inj heq).1, (Prod.mk.inj heq).2]
    exact ho
  · exact h name' o' hold

theorem onward_setTo (p : Parser V) (s : Str × Option Str) : Onward p (p.setTo s) := by
  rcases setTo_cases p s with ⟨_, o, o', ho, hgiven, heq⟩ | ⟨_, error, heq⟩
  · rw [heq]
    have hspec := Opt.given_spec hgiven
    refine ⟨List.prefix_rfl, shape_put ho hspec.1 hspec.2.1, ?_⟩
    intro P hP
    exact valuesMeet_put hP (given_meets (hP s.1 o (AssocList.mem_of_lookup ho)) hgiven)
  · rw [heq]
    exact onward_fail p error

theorem Onward.squeeze {q r : Parser V} (h : Onward p q) (h' : Onward q r)
    (hsame : r.errors = p.errors) : q.errors = p.errors ∧ r.errors = q.errors := by
  have hle := h.errors.length_le
  have hle' := h'.errors.length_le
  rw [hsame] at hle'
  have hfirst : p.errors = q.errors := h.errors.eq_of_length (by omega)
  exact ⟨hfirst.symm, by rw [hsame, hfirst]⟩

theorem fail_errors_ne (p : Parser V) (error : Str) : (p.fail error).errors ≠ p.errors := by
  simp [fail]

theorem setTo_quiet_iff (p : Parser V) (s : Str × Option Str) :
    (p.setTo s).errors = p.errors ↔ p.Accepts s := by
  rcases setTo_cases p s with ⟨haccepts, _, _, _, _, heq⟩ | ⟨hnot, error, heq⟩
  · exact iff_of_true (by rw [heq, put]) haccepts
  · refine iff_of_false ?_ hnot
    rw [heq]
    exact fail_errors_ne p error

theorem onward_setAll (settings : List (Str × Option Str)) (p : Parser V) :
    Onward p (settings.foldl setTo p) := by
  induction settings generalizing p with
  | nil => exact .refl p
  | cons s rest ih => exact (onward_setTo p s).trans (ih (p.setTo s))

theorem setAll_quiet_iff (settings : List (Str × Option Str)) (p : Parser V) :
    (settings.foldl setTo p).errors = p.errors ↔ ∀ s ∈ settings, p.Accepts s := by
  induction settings generalizing p with
  | nil => simp
  | cons s rest ih =>
      rw [List.foldl_cons, List.forall_mem_cons]
      constructor
      · intro h
        have hsqueeze := (onward_setTo p s).squeeze (onward_setAll rest (p.setTo s)) h
        have hshape := (onward_setTo p s).shape
        refine ⟨(setTo_quiet_iff p s).mp hsqueeze.1, ?_⟩
        intro t ht
        exact (accepts_of_shape hshape t).mp ((ih (p.setTo s)).mp hsqueeze.2 t ht)
      · rintro ⟨hs, hrest⟩
        have hshape := (onward_setTo p s).shape
        rw [(ih (p.setTo s)).mpr fun t ht => (accepts_of_shape hshape t).mpr (hrest t ht)]
        exact (setTo_quiet_iff p s).mpr hs

theorem others_setTo (p : Parser V) (s : Str × Option Str) : (p.setTo s).others = p.others := by
  rcases setTo_cases p s with ⟨_, _, _, _, _, heq⟩ | ⟨_, error, heq⟩
  · rw [heq, put]
  · rw [heq, fail]

theorem others_setAll (settings : List (Str × Option Str)) (p : Parser V) :
    (settings.foldl setTo p).others = p.others := by
  induction settings generalizing p with
  | nil => rfl
  | cons s rest ih => exact (ih (p.setTo s)).trans (others_setTo p s)

theorem onward_apply (p : Parser V) (item : Item) : Onward p (p.apply item) :=
  (onward_setAll (item.settings p.shorts) p).trans (onward_others _ _)

theorem apply_eq_setAll {item : Item} (h : item.others = []) :
    p.apply item = (item.settings p.shorts).foldl setTo p := by
  have hothers := others_setAll (item.settings p.shorts) p
  rw [apply, h, List.append_nil, ← hothers]

theorem apply_quiet_iff (p : Parser V) (item : Item) :
    (p.apply item).errors = p.errors ↔ ∀ s ∈ item.settings p.shorts, p.Accepts s :=
  setAll_quiet_iff (item.settings p.shorts) p

end Parser

end NetTest.Cmdline
