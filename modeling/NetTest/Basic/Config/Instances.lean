import Mathlib.Logic.Function.Basic
import NetTest.Basic.Config.ConfRoundTrip

/-!
# Parser instances of one process

`IniParser::dump` and `ConfParser::dump` keep the line end and the delimiter in
function-local statics, so the first instance of a class that dumps decides them
for the rest of the process.  `parse` reads the delimiter of its own instance on
every call.
-/

namespace NetTest.Config

inductive Kind where
  | ini
  | conf
  deriving DecidableEq

/-- A parser object: its class and its options at the time of the call. -/
structure Parser where
  kind : Kind
  options : Options

/-- The options the statics of each class's `dump` were initialised from. -/
structure Process where
  captured : Kind → Option Options

def Process.start : Process := ⟨fun _ => none⟩

namespace Parser

def parse (p : Parser) (data : Str) (root : ConfigNode) : ConfigNode :=
  match p.kind with
  | .ini => IniParser.parse p.options data root
  | .conf => ConfParser.parse p.options data root

def dumpWith (captured : Options) (lib : Library) (p : Parser) (root : ConfigNode) :
    Except Fault Str :=
  match p.kind with
  | .ini => IniParser.dump captured lib p.options root
  | .conf => ConfParser.dump captured lib p.options root

end Parser

namespace Process

/-- The statics in a call of `dump`: initialised by the first one. -/
def statics (ps : Process) (p : Parser) : Options := (ps.captured p.kind).getD p.options

def dump (lib : Library) (ps : Process) (p : Parser) (root : ConfigNode) :
    Process × Except Fault Str :=
  (⟨Function.update ps.captured p.kind (some (ps.statics p))⟩, p.dumpWith (ps.statics p) lib root)

/-- The process after calls of `dump` on any instances. -/
def after (lib : Library) (calls : List (Parser × ConfigNode)) (ps : Process) : Process :=
  calls.foldl (fun ps call => (ps.dump lib call.1 call.2).1) ps

end Process

/-! ## What the statics hold -/

def firstOf (kind : Kind) (calls : List (Parser × ConfigNode)) : Option Options :=
  (calls.find? fun call => call.1.kind = kind).map fun call => call.1.options

theorem Process.captured_after (lib : Library) (calls : List (Parser × ConfigNode))
    (ps : Process) (kind : Kind) :
    (ps.after lib calls).captured kind = (ps.captured kind).or (firstOf kind calls) := by
  induction calls generalizing ps with
  | nil => exact (Option.or_none).symm
  | cons call calls ih =>
      have hstep : ps.after lib (call :: calls) = (ps.dump lib call.1 call.2).1.after lib calls := rfl
      rw [hstep, ih]
      by_cases hkind : call.1.kind = kind
      · subst hkind
        have hfirst : firstOf call.1.kind (call :: calls) = some call.1.options := by
          simp [firstOf]
        rw [hfirst]
        simp only [Process.dump, Function.update_self, Process.statics, Option.some_or]
        cases ps.captured call.1.kind with
        | none => rfl
        | some options => rfl
      · have hfirst : firstOf kind (call :: calls) = firstOf kind calls := by
          simp [firstOf, List.find?_cons_of_neg, hkind]
        rw [hfirst]
        simp only [Process.dump, Function.update_of_ne (Ne.symm hkind)]

/-- The statics that serve the instance, after any calls in a new process. -/
theorem statics_after (lib : Library) (calls : List (Parser × ConfigNode)) (p : Parser) :
    (Process.start.after lib calls).statics p = (firstOf p.kind calls).getD p.options := by
  rw [Process.statics, Process.captured_after]
  rfl

/-! ## What the statics decide -/

def SameFormat (o o' : Options) : Prop :=
  o.enterLine = o'.enterLine ∧ o.keyValueDelimiter = o'.keyValueDelimiter

instance (o o' : Options) : Decidable (SameFormat o o') := inferInstanceAs (Decidable (_ ∧ _))

theorem dumpWith_congr {o o' : Options} (h : SameFormat o o') (lib : Library) (p : Parser) :
    p.dumpWith o lib = p.dumpWith o' lib := by
  obtain ⟨henter, hdelimiter⟩ := h
  have hini : IniParser.dumpSection o lib p.options = IniParser.dumpSection o' lib p.options := by
    have hentry : IniParser.dumpEntry o lib p.options = IniParser.dumpEntry o' lib p.options := by
      funext e
      unfold IniParser.dumpEntry
      rw [henter, hdelimiter]
    funext e
    unfold IniParser.dumpSection
    rw [hentry, henter]
  have hconf : ConfParser.dumpEntry o lib p.options = ConfParser.dumpEntry o' lib p.options := by
    funext e
    unfold ConfParser.dumpEntry
    rw [henter, hdelimiter]
  funext root
  unfold Parser.dumpWith IniParser.dump ConfParser.dump
  rw [hini, hconf]

def oneLeaf (v : Str) : ConfigNode := .object [([], .value (.string v))]

def oneSection (node : ConfigNode) : ConfigNode := .object [([], node)]

theorem order_single (lib : Library) (e : Str × ConfigNode) : lib.order [e] = [e] :=
  List.perm_singleton.mp (lib.order_perm [e])

theorem leaves_single (lib : Library) (v : Str) :
    leaves lib [([], .value (.string v))] = [([], .value (.string v))] := by
  unfold leaves
  rw [order_single]
  rfl

theorem leaves_nil (lib : Library) : leaves lib [] = [] := by
  unfold leaves
  rw [List.perm_nil.mp (lib.order_perm [])]
  rfl

theorem conf_dump_oneLeaf (o : Options) (lib : Library) (options : Options) (v : Str) :
    ConfParser.dump o lib options (oneLeaf v) =
      .ok (space :: (o.keyValueDelimiter ++ space :: (v ++ o.enterLine))) := by
  unfold ConfParser.dump oneLeaf
  dsimp only
  rw [leaves_single]
  simp [ConfParser.dumpEntry, configNodeValueToString]

theorem ini_dump_oneSection (o : Options) (lib : Library) (options : Options)
    (m : List (Str × ConfigNode)) :
    IniParser.dump o lib options (oneSection (.object m)) =
      .ok ([openBracket, closeBracket] ++ o.enterLine ++
        (leaves lib m).flatMap (IniParser.dumpEntry o lib options) ++ o.enterLine) := by
  unfold IniParser.dump oneSection
  dsimp only
  rw [order_single]
  simp [IniParser.dumpSection, Except.map, Functor.map, pure, Except.pure, bind, Except.bind]

/-- Two texts around a blank and any value: the value tells where the first one
ends. -/
theorem eq_of_forall_between {α : Type*} {x y : α} (hxy : y ≠ x) {d d' e e' : List α}
    (h : ∀ v, d ++ x :: (v ++ e) = d' ++ x :: (v ++ e')) : d = d' ∧ e = e' := by
  -- the shorter text is a beginning of the longer one, and what is left is empty
  have hrest : ∀ {d a e e' : List α},
      (∀ v, d ++ x :: (v ++ e) = (d ++ a) ++ x :: (v ++ e')) → a = [] := by
    intro d a e e' h
    cases a with
    | nil => rfl
    | cons c a =>
        have hv := h (List.replicate (a.length + 1) y)
        rw [List.append_assoc, List.append_cancel_left_eq, List.cons_append, List.cons.injEq] at hv
        have hat := congrArg (·[a.length]?) hv.2
        simp [List.getElem?_append] at hat
        exact absurd hat hxy
  have heq : d = d' := by
    rcases List.append_eq_append_iff.mp (h []) with ⟨a, rfl, _⟩ | ⟨a, rfl, _⟩
    · rw [hrest h, List.append_nil]
    · rw [hrest fun v => (h v).symm, List.append_nil]
  subst heq
  have hnil := h []
  rw [List.append_cancel_left_eq, List.cons.injEq] at hnil
  exact ⟨rfl, hnil.2⟩

/-- The texts of a few trees give the statics away. -/
theorem sameFormat_of_dumpWith {o o' : Options} (lib : Library) (p : Parser)
    (h : ∀ root, p.dumpWith o lib root = p.dumpWith o' lib root) : SameFormat o o' := by
  obtain ⟨kind, options⟩ := p
  cases kind with
  | ini =>
      have hdump : ∀ m, IniParser.dump o lib options (oneSection (.object m)) =
          IniParser.dump o' lib options (oneSection (.object m)) :=
        fun m => h (oneSection (.object m))
      have hempty := hdump []
      rw [ini_dump_oneSection, ini_dump_oneSection, leaves_nil] at hempty
      simp only [List.flatMap_nil, List.append_nil, Except.ok.injEq, List.append_assoc,
        List.append_cancel_left_eq] at hempty
      have hlength : o.enterLine.length = o'.enterLine.length := by
        have := congrArg List.length hempty
        simp only [List.length_append] at this
        omega
      have henter := (List.append_inj hempty hlength).1
      have hone := hdump [([], .value (.string []))]
      rw [ini_dump_oneSection, ini_dump_oneSection, leaves_single, henter] at hone
      simp only [List.flatMap_singleton, IniParser.dumpEntry, henter, Except.ok.injEq,
        List.append_assoc, List.append_cancel_left_eq, List.append_cancel_right_eq] at hone
      exact ⟨henter, hone⟩
  | conf =>
      have hleaf : ∀ v, o.keyValueDelimiter ++ space :: (v ++ o.enterLine) =
          o'.keyValueDelimiter ++ space :: (v ++ o'.enterLine) := by
        intro v
        have hv : ConfParser.dump o lib options (oneLeaf v) =
            ConfParser.dump o' lib options (oneLeaf v) := h (oneLeaf v)
        rw [conf_dump_oneLeaf, conf_dump_oneLeaf, Except.ok.injEq, List.cons.injEq] at hv
        exact hv.2
      obtain ⟨hdelimiter, henter⟩ := eq_of_forall_between (y := tab) (by decide) hleaf
      exact ⟨henter, hdelimiter⟩

/-! ## Interference -/

/-- What the instance writes, and what it reads from its own output, is what it
would write and read in a process of its own. -/
structure Undisturbed (lib : Library) (ps : Process) (p : Parser) : Prop where
  dump : ∀ root, (ps.dump lib p root).2 = (Process.start.dump lib p root).2
  parse : ∀ root text, (ps.dump lib p root).2 = .ok text →
    ∃ own, (Process.start.dump lib p root).2 = .ok own ∧ p.parse text .fresh = p.parse own .fresh

/-- Earlier calls of `dump` leave an instance alone exactly when the first of
them in its class had the same line end and the same delimiter. -/
theorem dump_undisturbed_iff (lib : Library) (calls : List (Parser × ConfigNode)) (p : Parser) :
    Undisturbed lib (Process.start.after lib calls) p ↔
      ∀ first, firstOf p.kind calls = some first → SameFormat first p.options := by
  have hown : ∀ root, (Process.start.dump lib p root).2 = p.dumpWith p.options lib root :=
    fun _ => rfl
  constructor
  · intro h first hfirst
    apply sameFormat_of_dumpWith lib p
    intro root
    have hroot := h.dump root
    rw [hown] at hroot
    rw [← hroot, Process.dump, statics_after, hfirst]
    rfl
  · intro h
    have hsame : SameFormat ((Process.start.after lib calls).statics p) p.options := by
      rw [statics_after]
      cases hfirst : firstOf p.kind calls with
      | none => exact ⟨rfl, rfl⟩
      | some first => exact h first hfirst
    have hdump : ∀ root, ((Process.start.after lib calls).dump lib p root).2 =
        (Process.start.dump lib p root).2 := by
      intro root
      rw [hown, ← dumpWith_congr hsame]
      rfl
    exact ⟨hdump, fun root text htext => ⟨text, hdump root ▸ htext, rfl⟩⟩

/-- An instance with `:` after one with `=`: it writes `=` and finds no entry in
its own output. -/
theorem dump_disturbed_by_first_instance :
    let q : Parser := ⟨.ini, Options.default⟩
    let p : Parser := ⟨.ini, { Options.default with keyValueDelimiter := ascii ":" }⟩
    let root : ConfigNode :=
      .object [(ascii "s", .object [(ascii "k", .value (.string (ascii "v")))])]
    let ps := Process.start.after ConfParser.inOrder [(q, .object [])]
    (ps.dump ConfParser.inOrder p root).2 = .ok (ascii "[s]\nk = v\n\n") ∧
      (Process.start.dump ConfParser.inOrder p root).2 = .ok (ascii "[s]\nk : v\n\n") ∧
      ((p.parse (ascii "[s]\nk = v\n\n") .fresh).get (ascii "s")).find (ascii "k") = none ∧
      ((p.parse (ascii "[s]\nk : v\n\n") .fresh).get (ascii "s")).find (ascii "k") =
        some (.value (.string (ascii "v"))) ∧
      ¬ Undisturbed ConfParser.inOrder ps p := by
  intro q p root ps
  have hdumped : (ps.dump ConfParser.inOrder p root).2 = .ok (ascii "[s]\nk = v\n\n") := rfl
  have hown : (Process.start.dump ConfParser.inOrder p root).2 =
      .ok (ascii "[s]\nk : v\n\n") := rfl
  refine ⟨hdumped, hown, by rfl, by rfl, fun h => ?_⟩
  have hroot := h.dump root
  rw [hdumped, hown, Except.ok.injEq] at hroot
  exact absurd hroot (by decide)

end NetTest.Config
