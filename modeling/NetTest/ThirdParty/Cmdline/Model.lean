import NetTest.Lib.AssocList
import NetTest.Lib.CString

/-!
# Command lines

`cmdline.h`: options are declared on a parser, `parse` reads a command line into
them, and `exist`, `get` and `rest` say what it held.  The values of all types are
those of one type `V`, and the reader of an option is a function into it; a reader
throws where the function has no value.
-/

namespace NetTest.Cmdline

open CString (cstr)

abbrev Str := List UInt8

def space : UInt8 := 32
def doubleQuote : UInt8 := 34
def dash : UInt8 := 45
def equals : UInt8 := 61
def backslash : UInt8 := 92

def ascii (s : String) : Str := s.toList.map Char.toUInt8

variable {V : Type*}

/-! ## Options -/

/-- `option_without_value` and `option_with_value_with_reader`. -/
inductive Kind (V : Type*) where
  | withoutValue
  | withValue (need : Bool) (actual : V) (read : Str → Option V)

/-- `option_base`; the short name is zero where there is none. -/
structure Opt (V : Type*) where
  shortName : UInt8
  has : Bool
  kind : Kind V

namespace Opt

def hasValue (o : Opt V) : Bool :=
  match o.kind with
  | .withoutValue => false
  | .withValue _ _ _ => true

def set (o : Opt V) : Option (Opt V) :=
  match o.kind with
  | .withoutValue => some { o with has := true }
  | .withValue _ _ _ => none

def setValue (o : Opt V) (value : Str) : Option (Opt V) :=
  match o.kind with
  | .withoutValue => none
  | .withValue need _ read =>
      (read value).map fun v => { o with has := true, kind := .withValue need v read }

def valid (o : Opt V) : Bool :=
  match o.kind with
  | .withoutValue => true
  | .withValue need _ _ => !(need && !o.has)

end Opt

/-! ## The parser -/

/-- `options` is in the order of the names. -/
structure Parser (V : Type*) where
  options : List (Str × Opt V)
  progName : Str
  others : List Str
  errors : List Str

def Parser.new : Parser V := ⟨[], [], [], []⟩

def before : Str → Str → Bool
  | [], [] => false
  | [], _ :: _ => true
  | _ :: _, [] => false
  | x :: xs, y :: ys => if x = y then before xs ys else x < y

def place (name : Str) (o : Opt V) : List (Str × Opt V) → List (Str × Opt V)
  | [] => [(name, o)]
  | e :: rest => if before name e.1 then (name, o) :: e :: rest else e :: place name o rest

namespace Parser

/-- Both kinds of `add`, which throw on a name that is there. -/
def add (p : Parser V) (name : Str) (shortName : UInt8) (kind : Kind V) : Except Str (Parser V) :=
  if (p.options.lookup name).isSome then .error (ascii "multiple definition: " ++ name)
  else .ok { p with options := place name ⟨shortName, false, kind⟩ p.options }

def exist (p : Parser V) (name : Str) : Except Str Bool :=
  match p.options.lookup name with
  | none => .error (ascii "there is no flag: --" ++ name)
  | some o => .ok o.has

/-- `get`, for the type that the option was declared with. -/
def get (p : Parser V) (name : Str) : Except Str V :=
  match p.options.lookup name with
  | none => .error (ascii "there is no flag: --" ++ name)
  | some o =>
      match o.kind with
      | .withoutValue => .error (ascii "type mismatch flag '" ++ name ++ ascii "'")
      | .withValue _ actual _ => .ok actual

def fail (p : Parser V) (error : Str) : Parser V := { p with errors := p.errors ++ [error] }

def put (p : Parser V) (name : Str) (o : Opt V) : Parser V :=
  { p with options := AssocList.assign name o p.options }

def setOption (p : Parser V) (name : Str) : Parser V :=
  match p.options.lookup name with
  | none => p.fail (ascii "undefined option: --" ++ name)
  | some o =>
      match o.set with
      | none => p.fail (ascii "option needs value: --" ++ name)
      | some o => p.put name o

def setOptionValue (p : Parser V) (name value : Str) : Parser V :=
  match p.options.lookup name with
  | none => p.fail (ascii "undefined option: --" ++ name)
  | some o =>
      match o.setValue value with
      | none => p.fail (ascii "option value is invalid: --" ++ name ++ [equals] ++ value)
      | some o => p.put name o

end Parser

/-! ## `parse` -/

/-- The names behind the short names, or the first short name that has two. -/
def makeLookup : List (UInt8 × Str) → List (Str × Opt V) → Except UInt8 (List (UInt8 × Str))
  | lookup, [] => .ok lookup
  | lookup, (name, o) :: rest =>
      if name = [] then makeLookup lookup rest
      else if o.shortName = 0 then makeLookup lookup rest
      else if (lookup.lookup o.shortName).isSome then .error o.shortName
      else makeLookup (lookup ++ [(o.shortName, name)]) rest

namespace Parser

/-- A short option in front of others, in one argument. -/
def readShort (lookup : List (UInt8 × Str)) (p : Parser V) (c : UInt8) : Parser V :=
  match lookup.lookup c with
  | none => p.fail (ascii "undefined short option: -" ++ [c])
  | some name =>
      if name = [] then p.fail (ascii "ambiguous short option: -" ++ [c]) else p.setOption name

/-- The last short option of an argument, which may take the argument that follows;
whether it did. -/
def readLastShort (lookup : List (UInt8 × Str)) (p : Parser V) (c : UInt8) (following : Option Str) :
    Parser V × Bool :=
  match lookup.lookup c with
  | none => (p.fail (ascii "undefined short option: -" ++ [c]), false)
  | some name =>
      if name = [] then (p.fail (ascii "ambiguous short option: -" ++ [c]), false)
      else
        match following with
        | none => (p.setOption name, false)
        | some value =>
            if (p.options.lookup name).any Opt.hasValue then (p.setOptionValue name value, true)
            else (p.setOption name, false)

/-- A long option, without its dashes. -/
def readLong (p : Parser V) (body : Str) (following : Option Str) : Parser V × Bool :=
  if equals ∈ body then
    (p.setOptionValue (body.takeWhile (· ≠ equals)) (body.dropWhile (· ≠ equals)).tail, false)
  else
    match p.options.lookup body with
    | none => (p.fail (ascii "undefined option: --" ++ body), false)
    | some o =>
        if o.hasValue then
          match following with
          | none => (p.fail (ascii "option needs value: --" ++ body), false)
          | some value => (p.setOptionValue body value, true)
        else (p.setOption body, false)

/-- One argument, and whether it took the argument that follows. -/
def readArg (lookup : List (UInt8 × Str)) (p : Parser V) (arg : Str) (following : Option Str) :
    Parser V × Bool :=
  match arg with
  | c :: d :: body =>
      if c = dash then
        if d = dash then p.readLong body following
        else
          ((d :: body).dropLast.foldl (readShort lookup) p).readLastShort lookup
            ((d :: body).getLast (by simp)) following
      else ({ p with others := p.others ++ [arg] }, false)
  | [c] => if c = dash then (p, false) else ({ p with others := p.others ++ [arg] }, false)
  | [] => ({ p with others := p.others ++ [arg] }, false)

def readArgs (lookup : List (UInt8 × Str)) : Parser V → List Str → Parser V
  | p, [] => p
  | p, [arg] => (p.readArg lookup arg none).1
  | p, arg :: value :: rest =>
      if (p.readArg lookup arg (some value)).2 then
        readArgs lookup (p.readArg lookup arg (some value)).1 rest
      else readArgs lookup (p.readArg lookup arg (some value)).1 (value :: rest)

def needs (p : Parser V) : List Str :=
  (p.options.filter fun e => !e.2.valid).map fun e => ascii "need option: --" ++ e.1

def parse (p : Parser V) (argv : List Str) : Parser V × Bool :=
  let p := { p with errors := [], others := [] }
  match argv with
  | [] => (p.fail (ascii "argument number must be longer than 0"), false)
  | prog :: args =>
      let p := if p.progName = [] then { p with progName := prog } else p
      match makeLookup [] p.options with
      | .error c => (p.fail (ascii "short option '" ++ [c] ++ ascii "' is ambiguous"), false)
      | .ok lookup =>
          let p := p.readArgs lookup args
          let p := { p with errors := p.errors ++ p.needs }
          (p, p.errors.isEmpty)

end Parser

/-! ## A command line in one text -/

/-- The words of a text: `buf` is the word so far. -/
def splitLoop (args : List Str) (buf : Str) (inQuote : Bool) : Str → Except Str (List Str)
  | [] =>
      if inQuote then .error (ascii "quote is not closed")
      else .ok (if 0 < buf.length then args ++ [buf] else args)
  | c :: rest =>
      if c = doubleQuote then splitLoop args buf (!inQuote) rest
      else if c = space ∧ inQuote = false then splitLoop (args ++ [buf]) [] inQuote rest
      else if c = backslash then
        match rest with
        | [] => .error (ascii "unexpected occurrence of '\\' at end of string")
        | d :: rest => splitLoop args (buf ++ [d]) inQuote rest
      else splitLoop args (buf ++ [c]) inQuote rest

def split (text : Str) : Except Str (List Str) := splitLoop [] [] false text

/-- `parse(arg)`: the words are passed on as C strings. -/
def Parser.parseText (p : Parser V) (arg : Str) : Parser V × Bool :=
  match split arg with
  | .error error => (p.fail error, false)
  | .ok args => p.parse (args.map cstr)

end NetTest.Cmdline
