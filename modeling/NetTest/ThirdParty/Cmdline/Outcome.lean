import NetTest.ThirdParty.Cmdline.Parse

/-!
# What a parsed command line says

`exist`, `get` and `rest` after a command line has been accepted, the readers that check
a value, and the options of the demo, whose port is always in its range.
-/

namespace NetTest.Cmdline

variable {V : Type*}

/-! ## The last value of an option -/

def lastText (settings : List (Str × Option Str)) (name : Str) : Option Str :=
  (settings.filterMap fun s => if s.1 = name then s.2 else none).getLast?

theorem lastText_cons (s : Str × Option Str) (rest : List (Str × Option Str)) (name : Str) :
    lastText (s :: rest) name =
      (lastText rest name).or (if s.1 = name then s.2 else none) := by
  unfold lastText
  rw [List.filterMap_cons]
  cases if s.1 = name then s.2 else none with
  | none => simp
  | some text =>
      simp only [List.getLast?_cons]
      cases (rest.filterMap _).getLast? <;> rfl

theorem mem_of_lastText {settings : List (Str × Option Str)} {name text : Str}
    (h : lastText settings name = some text) : (name, some text) ∈ settings := by
  have hmem := List.mem_of_getLast? h
  rcases List.mem_filterMap.mp hmem with ⟨⟨name', value⟩, hs, heq⟩
  by_cases hname : name' = name
  · rw [if_pos hname] at heq
    rw [← hname, ← heq]
    exact hs
  · rw [if_neg hname] at heq
    cases heq

namespace Parser

variable {p : Parser V}

/-- What an option makes of a text. -/
def readValue (p : Parser V) (name text : Str) : Option V :=
  ((p.options.lookup name).bind Opt.reader).bind fun read => read text

theorem readValue_of_shape {q : Parser V} (h : q.shape = p.shape) : q.readValue = p.readValue := by
  have hreader : ∀ (p : Parser V) (name : Str),
      (p.options.lookup name).bind Opt.reader = (p.shape.lookup name).bind (·.2) := by
    intro p name
    rw [← lookup_eq_find, Option.bind_map]
    rfl
  funext name text
  rw [readValue, readValue, hreader, hreader, h]

theorem readValue_of_accepts {name text : Str} (h : p.Accepts (name, some text)) :
    ∃ v, p.readValue name text = some v := by
  rcases h with ⟨o, read, v, ho, hreader, hv⟩
  have ho : p.options.lookup name = some o := ho
  exact ⟨v, by simp [readValue, ho, hreader, hv]⟩

theorem exist_put (p : Parser V) (name name' : Str) (o : Opt V) :
    (p.put name o).exist name' = if name' = name then .ok o.has else p.exist name' := by
  unfold exist put
  by_cases hname : name' = name
  · simp only [hname, AssocList.lookup_assign_self, if_true]
  · simp only [AssocList.lookup_assign_of_ne hname, if_neg hname]

theorem get_put_of_ne (p : Parser V) {name name' : Str} (h : name' ≠ name) (o : Opt V) :
    (p.put name o).get name' = p.get name' := by
  unfold get put
  simp only [AssocList.lookup_assign_of_ne h]

theorem exist_setTo {s : Str × Option Str} (h : p.Accepts s) (name : Str) :
    (p.setTo s).exist name = (p.exist name).map fun was => was || name == s.1 := by
  rcases setTo_cases p s with ⟨_, o, o', ho, hgiven, heq⟩ | ⟨hnot, _⟩
  · rw [heq, exist_put]
    by_cases hname : name = s.1
    · have hwas : p.exist name = .ok o.has := by simp only [exist, hname, ho]
      rw [if_pos hname, hwas, (Opt.given_spec hgiven).2.2]
      simp [Except.map, hname]
    · rw [if_neg hname]
      cases p.exist name <;> simp [Except.map, hname]
  · exact absurd h hnot

theorem get_setTo {name : Str} {value : Option Str} (h : p.Accepts (name, value)) :
    (p.setTo (name, value)).get name =
      match value.bind (p.readValue name) with
      | some v => .ok v
      | none => p.get name := by
  rcases setTo_cases p (name, value) with ⟨_, o, o', ho, hgiven, heq⟩ | ⟨hnot, _⟩
  · have ho : p.options.lookup name = some o := ho
    rw [heq, put]
    cases value with
    | none =>
        rcases (o.given_none_iff o').mp hgiven with ⟨hkind, rfl⟩
        simp only [get, AssocList.lookup_assign_self, ho, hkind, Option.bind_none]
    | some text =>
        rcases (o.given_some_iff o' text).mp hgiven with ⟨need, actual, read, v, hkind, hv, rfl⟩
        have hread : p.readValue name text = some v := by
          simp [readValue, ho, Opt.reader, hkind, hv]
        simp only [get, AssocList.lookup_assign_self, Option.bind_some, hread]
  · exact absurd h hnot

theorem get_setTo_of_ne {s : Str × Option Str} (h : p.Accepts s) {name : Str}
    (hname : s.1 ≠ name) : (p.setTo s).get name = p.get name := by
  rcases setTo_cases p s with ⟨_, _, _, _, _, heq⟩ | ⟨hnot, _⟩
  · rw [heq]
    exact get_put_of_ne p (Ne.symm hname) _
  · exact absurd h hnot

/-! ## After all the settings -/

theorem exist_setAll (settings : List (Str × Option Str)) (p : Parser V)
    (h : ∀ s ∈ settings, p.Accepts s) (name : Str) :
    (settings.foldl setTo p).exist name =
      (p.exist name).map fun was => was || (settings.map Prod.fst).contains name := by
  induction settings generalizing p with
  | nil => cases hexist : p.exist name <;> simp [Except.map, hexist]
  | cons s rest ih =>
      rw [List.forall_mem_cons] at h
      have hshape := (onward_setTo p s).shape
      rw [List.foldl_cons, ih (p.setTo s) fun t ht => (accepts_of_shape hshape t).mpr (h.2 t ht),
        exist_setTo h.1]
      cases p.exist name <;> simp [Except.map, Bool.or_assoc]

/-- The value of an option is what its reader makes of the last text, or what it was. -/
theorem get_setAll (settings : List (Str × Option Str)) (p : Parser V)
    (h : ∀ s ∈ settings, p.Accepts s) (name : Str) :
    (settings.foldl setTo p).get name =
      match (lastText settings name).bind (p.readValue name) with
      | some v => .ok v
      | none => p.get name := by
  induction settings generalizing p with
  | nil => rfl
  | cons s rest ih =>
      rw [List.forall_mem_cons] at h
      have hshape := (onward_setTo p s).shape
      rw [List.foldl_cons, ih (p.setTo s) fun t ht => (accepts_of_shape hshape t).mpr (h.2 t ht),
        readValue_of_shape hshape, lastText_cons]
      cases hlast : lastText rest name with
      | some text =>
          rcases readValue_of_accepts (h.2 _ (mem_of_lastText hlast)) with ⟨v, hv⟩
          simp only [Option.some_or, Option.bind_some, hv]
      | none =>
          simp only [Option.bind_none, Option.none_or]
          rcases s with ⟨name', value⟩
          by_cases hname : name' = name
          · subst hname
            rw [if_pos rfl]
            exact get_setTo h.1
          · rw [if_neg hname]
            exact get_setTo_of_ne h.1 hname

theorem setTo_others (p : Parser V) (others : List Str) (s : Str × Option Str) :
    setTo { p with others := others } s = { p.setTo s with others := others } := by
  rcases s with ⟨name, value⟩
  cases value with
  | none =>
      simp only [setTo, setOption]
      cases p.options.lookup name with
      | none => rfl
      | some o => cases hset : o.set <;> simp only [hset] <;> rfl
  | some text =>
      simp only [setTo, setOptionValue]
      cases p.options.lookup name with
      | none => rfl
      | some o => cases hset : o.setValue text <;> simp only [hset] <;> rfl

theorem setAll_others (settings : List (Str × Option Str)) (p : Parser V) (others : List Str) :
    settings.foldl setTo { p with others := others } =
      { settings.foldl setTo p with others := others } := by
  induction settings generalizing p with
  | nil => rfl
  | cons s rest ih => rw [List.foldl_cons, setTo_others, ih, List.foldl_cons]

theorem applyAll_eq (items : List Item) (p : Parser V) :
    p.applyAll items =
      { (items.flatMap (Item.settings p.shorts)).foldl setTo p with
        others := p.others ++ items.flatMap Item.others } := by
  induction items generalizing p with
  | nil => simp [applyAll]
  | cons item rest ih =>
      have hshorts := shorts_eq_of_shape (onward_apply p item).shape
      have hall : p.applyAll (item :: rest) = (p.apply item).applyAll rest := rfl
      rw [hall, ih, hshorts, List.flatMap_cons, List.flatMap_cons, List.foldl_append, apply,
        setAll_others, ← List.append_assoc]

theorem parse_values {P : Str → V → Prop} {p : Parser V} (argv : List Str) (h : p.ValuesMeet P) :
    (p.parse argv).1.ValuesMeet P := by
  cases argv with
  | nil => exact h
  | cons prog args =>
      rw [parse_eq]
      cases hlookup : makeLookup [] p.options with
      | error c => exact h
      | ok lookup =>
          have hl := ((makeLookup_iff p.options [] List.nodup_nil lookup).mp hlookup).2
          rw [hl]
          exact (onward_readArgs (p.started prog) p args).values P h

theorem accepts_of_allows {items : List Item} (h : ∀ item ∈ items, p.Allows item) (prog : Str) :
    ∀ s ∈ items.flatMap (Item.settings p.shorts), (p.started prog).Accepts s := by
  intro s hs
  rcases List.mem_flatMap.mp hs with ⟨item, hitem, hmem⟩
  exact (h item hitem).settings s hmem

theorem get_applyAll {items : List Item} (h : ∀ item ∈ items, p.Allows item) (prog name : Str) :
    ((p.started prog).applyAll items).get name =
      match (lastText (items.flatMap (Item.settings p.shorts)) name).bind (p.readValue name) with
      | some v => .ok v
      | none => p.get name := by
  rw [applyAll_eq]
  exact get_setAll _ (p.started prog) (accepts_of_allows h prog) name

theorem exist_applyAll {items : List Item} (h : ∀ item ∈ items, p.Allows item) (prog name : Str) :
    ((p.started prog).applyAll items).exist name = (p.exist name).map fun was =>
      was || ((items.flatMap (Item.settings p.shorts)).map Prod.fst).contains name := by
  rw [applyAll_eq]
  exact exist_setAll _ (p.started prog) (accepts_of_allows h prog) name

/-- After a command line that is accepted, `rest` holds the arguments that were no
options, `exist` says which options were there, now or before, and `get` is what the
option's reader makes of the last value given to it, or what it was before. -/
theorem parse_observed {p p' : Parser V} {prog : Str} {args : List Str}
    (h : p.parse (prog :: args) = (p', true)) :
    ∃ items : List Item, args = items.flatMap Item.words ∧ (∀ item ∈ items, p.Allows item) ∧
      p'.others = items.flatMap Item.others ∧
      (∀ name, p'.exist name = (p.exist name).map fun was =>
        was || ((items.flatMap (Item.settings p.shorts)).map Prod.fst).contains name) ∧
      ∀ name, p'.get name =
        match (lastText (items.flatMap (Item.settings p.shorts)) name).bind (p.readValue name) with
        | some v => .ok v
        | none => p.get name := by
  rcases items_of_parse h with ⟨_, items, hargs, hallow, hp', _⟩
  have hothers : p'.others = items.flatMap Item.others := by
    rw [hp', applyAll_eq]
    rfl
  subst hp'
  exact ⟨items, hargs, hallow, hothers, exist_applyAll hallow prog, get_applyAll hallow prog⟩

/-! ## Over any command lines -/

def parseAll (p : Parser V) (lines : List (List Str)) : Parser V :=
  lines.foldl (fun q argv => (q.parse argv).1) p

/-- What the defaults meet and all that the readers give, every value meets that is ever
got, also when command lines were rejected halfway. -/
theorem parses_values {P : Str → V → Prop} {p : Parser V} (h : p.ValuesMeet P)
    (lines : List (List Str)) {name : Str} {v : V} (hget : (p.parseAll lines).get name = .ok v) :
    P name v := by
  have hmeet : (p.parseAll lines).ValuesMeet P := by
    clear hget
    unfold parseAll
    induction lines generalizing p with
    | nil => exact h
    | cons argv rest ih => exact ih (parse_values argv h)
  unfold get at hget
  split at hget
  · cases hget
  · rename_i o ho
    split at hget
    · cases hget
    · rename_i need v read hkind
      cases hget
      exact (hmeet name o (AssocList.mem_of_lookup ho) need v read hkind).1

end Parser

/-! ## Readers -/

/-- `range_reader`, over the reader of the type. -/
def rangeReader (read : Str → Option Int) (low high : Int) (s : Str) : Option Int :=
  match read s with
  | none => none
  | some ret => if !(decide (low ≤ ret) && decide (ret ≤ high)) then none else some ret

theorem rangeReader_eq_some_iff (read : Str → Option Int) (low high : Int) (s : Str) (v : Int) :
    rangeReader read low high s = some v ↔ read s = some v ∧ low ≤ v ∧ v ≤ high := by
  unfold rangeReader
  cases read s with
  | none => simp
  | some ret =>
      simp only [Option.some.injEq]
      split <;> grind

/-! ## The demo -/

inductive Value where
  | str (s : Str)
  | int (v : Int)
  deriving DecidableEq

/-- The options of `main`, with any reader of numbers. -/
def demoParser (readInt : Str → Option Int) : Except Str (Parser Value) := do
  let text := fun s : Str => some (Value.str s)
  let p ← Parser.new.add (ascii "config") 99 (.withValue false (.str (ascii "./gateway.cfg")) text)
  let p ← p.add (ascii "port") 112
    (.withValue false (.int 2000) fun s => (rangeReader readInt 1024 65535 s).map .int)
  let p ← p.add (ascii "logdir") 108 (.withValue false (.str (ascii "./")) text)
  p.add (ascii "version") 118 .withoutValue

/-- Where `parse_check` ends: the program exits, or goes on with the parser. -/
inductive Checked (V : Type*) where
  | exited (code : Nat)
  | ready (p : Parser V)

namespace Parser

def check (argc : Nat) (p : Parser V) (ok : Bool) : Except Str (Checked V) :=
  if argc = 1 ∧ ok = false then .ok (.exited 0)
  else
    match p.exist (ascii "help") with
    | .error error => .error error
    | .ok true => .ok (.exited 0)
    | .ok false => if ok then .ok (.ready p) else .ok (.exited 1)

def parseCheck (p : Parser V) (argv : List Str) : Except Str (Checked V) := do
  let p ← if (p.options.lookup (ascii "help")).isSome then .ok p
    else p.add (ascii "help") 63 .withoutValue
  (p.parse argv).1.check argv.length (p.parse argv).2

end Parser

def demoStart (readInt : Str → Option Int) (argv : List Str) : Except Str (Checked Value) := do
  (← demoParser readInt).parseCheck argv

def demoParserHelp (readInt : Str → Option Int) : Parser Value where
  options :=
    [(ascii "config", ⟨99, false,
        .withValue false (.str (ascii "./gateway.cfg")) fun s => some (.str s)⟩),
      (ascii "help", ⟨63, false, .withoutValue⟩),
      (ascii "logdir", ⟨108, false, .withValue false (.str (ascii "./")) fun s => some (.str s)⟩),
      (ascii "port", ⟨112, false, .withValue false (.int 2000)
        fun s => (rangeReader readInt 1024 65535 s).map .int⟩),
      (ascii "version", ⟨118, false, .withoutValue⟩)]
  progName := []
  others := []
  errors := []

theorem demoStart_eq (readInt : Str → Option Int) (argv : List Str) :
    demoStart readInt argv =
      ((demoParserHelp readInt).parse argv).1.check argv.length
        ((demoParserHelp readInt).parse argv).2 := by
  rfl

theorem check_ready {argc : Nat} {p q : Parser V} {ok : Bool}
    (h : p.check argc ok = .ok (.ready q)) : q = p ∧ ok = true := by
  unfold Parser.check at h
  split at h
  · cases h
  · split at h
    · cases h
    · cases h
    · split at h
      · rename_i hok
        cases h
        exact ⟨rfl, hok⟩
      · cases h

theorem readValue_port (readInt : Str → Option Int) (text : Str) :
    (demoParserHelp readInt).readValue (ascii "port") text =
      (rangeReader readInt 1024 65535 text).map .int := by
  rfl

/-- The demo goes on past its options only with a port in the range of `range`: the last
one that the command line gives, or else 2000. -/
theorem demo_port {readInt : Str → Option Int} {argv : List Str} {p : Parser Value}
    (h : demoStart readInt argv = .ok (.ready p)) :
    ∃ (prog : Str) (items : List Item) (port : Int),
      argv = prog :: items.flatMap Item.words ∧ p.get (ascii "port") = .ok (.int port) ∧
        1024 ≤ port ∧ port ≤ 65535 ∧
        match lastText (items.flatMap (Item.settings (demoParserHelp readInt).shorts))
            (ascii "port") with
        | none => port = 2000
        | some text => readInt text = some port := by
  rw [demoStart_eq] at h
  rcases check_ready h with ⟨hp, hok⟩
  cases argv with
  | nil => cases hok
  | cons prog args =>
      have hparse : (demoParserHelp readInt).parse (prog :: args) = (p, true) :=
        Prod.ext hp.symm hok
      rcases Parser.items_of_parse hparse with ⟨_, items, hargs, hallow, hp', _⟩
      have hport := Parser.get_applyAll hallow prog (ascii "port")
      rw [← hp'] at hport
      cases hlast : lastText (items.flatMap (Item.settings (demoParserHelp readInt).shorts))
          (ascii "port") with
      | none =>
          rw [hlast] at hport
          exact ⟨prog, items, 2000, by rw [hargs], hport, by decide, by decide, by rw [hlast]⟩
      | some text =>
          rcases List.mem_flatMap.mp (mem_of_lastText hlast) with ⟨item, hitem, hmem⟩
          rcases Parser.readValue_of_accepts ((hallow item hitem).settings _ hmem) with ⟨v, hv⟩
          rw [hlast, Option.bind_some, hv] at hport
          rw [readValue_port] at hv
          rcases Option.map_eq_some_iff.mp hv with ⟨port, hrange, rfl⟩
          rcases (rangeReader_eq_some_iff readInt 1024 65535 text port).mp hrange with
            ⟨hread, hlow, hhigh⟩
          exact ⟨prog, items, port, by rw [hargs], hport, hlow, hhigh, by rw [hlast]; exact hread⟩

def readOne (s : Str) : Option Int := if s = ascii "8080" then some 8080 else none

theorem demo_port_given :
    ∃ (p : Parser Value) (prog : Str) (items : List Item) (port : Int),
      demoStart readOne [ascii "demo", ascii "-vp", ascii "8080"] = .ok (.ready p) ∧
        [ascii "demo", ascii "-vp", ascii "8080"] = prog :: items.flatMap Item.words ∧
        p.get (ascii "port") = .ok (.int port) ∧ 1024 ≤ port ∧ port ≤ 65535 := by
  have h : demoStart readOne [ascii "demo", ascii "-vp", ascii "8080"] =
      .ok (.ready ((demoParserHelp readOne).parse
        [ascii "demo", ascii "-vp", ascii "8080"]).1) := by rfl
  rcases demo_port h with ⟨prog, items, port, hargv, hport, hlow, hhigh, _⟩
  exact ⟨_, prog, items, port, h, hargv, hport, hlow, hhigh⟩

theorem parse_observed_demo :
    ((demoParserHelp readOne).parse [ascii "demo", ascii "--port=8080", ascii "x"]).2 = true ∧
      ∃ items : List Item, [ascii "--port=8080", ascii "x"] = items.flatMap Item.words := by
  have h : (demoParserHelp readOne).parse [ascii "demo", ascii "--port=8080", ascii "x"] =
      (((demoParserHelp readOne).parse [ascii "demo", ascii "--port=8080", ascii "x"]).1,
        true) := by rfl
  rcases Parser.parse_observed h with ⟨items, hargs, _⟩
  exact ⟨by rfl, items, hargs⟩

def InRange (name : Str) (v : Value) : Prop :=
  name = ascii "port" → ∃ port : Int, v = .int port ∧ 1024 ≤ port ∧ port ≤ 65535

theorem demo_inRange (readInt : Str → Option Int) : (demoParserHelp readInt).ValuesMeet InRange := by
  have hother : ∀ name : Str, name ≠ ascii "port" → ∀ v, InRange name v :=
    fun name hname v heq => absurd heq hname
  intro name o hmem need actual read hkind
  simp only [demoParserHelp, List.mem_cons, Prod.mk.injEq, List.not_mem_nil, or_false] at hmem
  rcases hmem with ⟨rfl, _⟩ | ⟨rfl, _⟩ | ⟨rfl, _⟩ | ⟨rfl, rfl⟩ | ⟨rfl, _⟩
  · exact ⟨hother _ (by decide) _, fun _ v _ => hother _ (by decide) v⟩
  · exact ⟨hother _ (by decide) _, fun _ v _ => hother _ (by decide) v⟩
  · exact ⟨hother _ (by decide) _, fun _ v _ => hother _ (by decide) v⟩
  · rcases Kind.withValue.inj hkind with ⟨_, rfl, rfl⟩
    refine ⟨fun _ => ⟨2000, rfl, by decide, by decide⟩, ?_⟩
    intro text v hv _
    rcases Option.map_eq_some_iff.mp hv with ⟨port, hrange, rfl⟩
    exact ⟨port, rfl, ((rangeReader_eq_some_iff readInt 1024 65535 text port).mp hrange).2⟩
  · exact ⟨hother _ (by decide) _, fun _ v _ => hother _ (by decide) v⟩

theorem parses_values_demo :
    ∃ port : Int, 1024 ≤ port ∧ port ≤ 65535 ∧
      ((demoParserHelp readOne).parseAll
        [[ascii "demo", ascii "--port=80", ascii "-p"], [ascii "demo", ascii "-p", ascii "8080"]]).get
          (ascii "port") = .ok (.int port) := by
  have hget : ((demoParserHelp readOne).parseAll
      [[ascii "demo", ascii "--port=80", ascii "-p"], [ascii "demo", ascii "-p", ascii "8080"]]).get
        (ascii "port") = .ok (.int 8080) := by rfl
  rcases Parser.parses_values (demo_inRange readOne) _ hget rfl with ⟨port, hv, hlow, hhigh⟩
  exact ⟨port, hlow, hhigh, by rw [hget, hv]⟩

end NetTest.Cmdline
