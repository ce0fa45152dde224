import NetTest.Lib.AssocList
import NetTest.Lib.Text

/-!
# Configuration files

`config_parser.h` and `config_parser.cpp`: the configuration tree and the two
parsers that read it from a text and write it to one.  A `std::string` is a list
of bytes.
-/

namespace NetTest.Config

abbrev Str := List UInt8

def tab : UInt8 := 9
def newline : UInt8 := 10
def verticalTab : UInt8 := 11
def formFeed : UInt8 := 12
def carriageReturn : UInt8 := 13
def space : UInt8 := 32
def doubleQuote : UInt8 := 34
def hash : UInt8 := 35
def singleQuote : UInt8 := 39
def semicolon : UInt8 := 59
def equals : UInt8 := 61
def openBracket : UInt8 := 91
def backslash : UInt8 := 92
def closeBracket : UInt8 := 93
def letterN : UInt8 := 110
def letterR : UInt8 := 114
def letterT : UInt8 := 116

def ascii (s : String) : Str := s.toList.map Char.toUInt8

/-! ## `util` -/

def whitespace : Str := [space, tab, newline, carriageReturn, formFeed, verticalTab]

/-- `std::isspace` in the C locale: the bytes `trim` removes. -/
def isSpace (c : UInt8) : Bool := whitespace.contains c

def trim (str : Str) : Str := Text.trim isSpace str

def escapeByte (c : UInt8) : Str :=
  if c = newline then [backslash, letterN]
  else if c = tab then [backslash, letterT]
  else if c = carriageReturn then [backslash, letterR]
  else if c = backslash then [backslash, backslash]
  else if c = doubleQuote then [backslash, doubleQuote]
  else if c = singleQuote then [backslash, singleQuote]
  else [c]

def escape (str : Str) : Str := str.flatMap escapeByte

/-- What a backslash before `c` stands for; `none` when the backslash is kept. -/
def unescapeByte (c : UInt8) : Option UInt8 :=
  if c = letterN then some newline
  else if c = letterT then some tab
  else if c = letterR then some carriageReturn
  else if c = backslash then some backslash
  else if c = doubleQuote then some doubleQuote
  else if c = singleQuote then some singleQuote
  else none

def unescape : Str → Str
  | [] => []
  | [c] => [c]
  | c :: d :: rest =>
      if c = backslash then
        match unescapeByte d with
        | some e => e :: unescape rest
        | none => c :: unescape (d :: rest)
      else c :: unescape (d :: rest)

def needsQuotes (c : UInt8) : Bool :=
  isSpace c || c == doubleQuote || c == singleQuote || c == backslash || c == carriageReturn ||
    c == newline || c == tab

def addQuotesIfNeeded (str : Str) : Str :=
  if str.any needsQuotes then [doubleQuote] ++ escape str ++ [doubleQuote] else str

/-- The first and the last byte are both `quote`. -/
def surroundedBy (quote : UInt8) (str : Str) : Bool :=
  str.head? == some quote && str.getLast? == some quote

def trimQuotes (str : Str) : Str :=
  if 2 ≤ str.length ∧ (surroundedBy doubleQuote str ∨ surroundedBy singleQuote str) then
    (str.drop 1).take (str.length - 2)
  else str

/-! ## The tree -/

/-- `value_type`.  Floating-point alternatives are kept as their bits. -/
inductive Value where
  | string (v : Str)
  | bool (v : Bool)
  | double (bits : UInt64)
  | float (bits : UInt32)
  | int32 (v : Int32)
  | uint32 (v : UInt32)
  | int64 (v : Int64)
  | uint64 (v : UInt64)
  | int16 (v : Int16)
  | uint16 (v : UInt16)
  | char (v : UInt8)
  | int8 (v : Int8)
  | uint8 (v : UInt8)
  | null

/-- The members of an object are in the order of insertion; what the map of the
library makes of it is `Library.order`. -/
inductive ConfigNode where
  | value (v : Value)
  | object (members : List (Str × ConfigNode))
  | array (elements : List ConfigNode)

namespace ConfigNode

/-- A default-constructed node: the first alternative of both variants. -/
def fresh : ConfigNode := .value (.string [])

/-- The members that `operator[]` starts from; a node that is no object becomes
an empty one. -/
def members : ConfigNode → List (Str × ConfigNode)
  | .object m => m
  | .value _ => []
  | .array _ => []

def find (node : ConfigNode) (key : Str) : Option ConfigNode := node.members.lookup key

/-- `node[key]`, read. -/
def get (node : ConfigNode) (key : Str) : ConfigNode := (node.find key).getD fresh

def set (node : ConfigNode) (key : Str) (child : ConfigNode) : ConfigNode :=
  .object (AssocList.assign key child node.members)

end ConfigNode

/-- What the C++ library decides: how floating-point numbers are printed and in
which order a map is iterated. -/
structure Library where
  printDouble : Nat → UInt64 → Str
  printFloat : UInt32 → Str
  order : List (Str × ConfigNode) → List (Str × ConfigNode)
  order_perm : ∀ m, (order m).Perm m

/-! ## Options -/

structure Options where
  enterLine : Str
  keyValueDelimiter : Str
  fmtBooleanTrue : Str
  fmtBooleanFalse : Str
  fmtDoublePrecision : Nat

def Options.default : Options where
  enterLine := [newline]
  keyValueDelimiter := [equals]
  fmtBooleanTrue := ascii "true"
  fmtBooleanFalse := ascii "false"
  fmtDoublePrecision := 6

/-- `s[0]`, which is the terminating null byte of an empty string. -/
def firstByte (s : Str) : UInt8 := s.headD 0

def printInt (v : Int) : Str := ascii (toString v)

/-- `int8_t` and `nullptr_t` have no case in the source. -/
def configNodeValueToString (lib : Library) (options : Options) (node : ConfigNode) : Str :=
  match node with
  | .value v =>
      match v with
      | .string v => v
      | .int32 v => printInt v.toInt
      | .uint32 v => printInt v.toNat
      | .int64 v => printInt v.toInt
      | .uint64 v => printInt v.toNat
      | .int16 v => printInt v.toInt
      | .uint16 v => printInt v.toNat
      | .uint8 v => printInt v.toNat
      | .float bits => lib.printFloat bits
      | .double bits => lib.printDouble options.fmtDoublePrecision bits
      | .bool v => if v then options.fmtBooleanTrue else options.fmtBooleanFalse
      | .char v => [v]
      | .int8 _ => []
      | .null => []
  | .object _ => []
  | .array _ => []

/-! ## Both parsers: a `key = value` line -/

def readValue (text : Str) : Str := trimQuotes (unescape (trim text))

/-- Key and value of a line, cut at the first delimiter. -/
def keyValue (delimiter : UInt8) (line : Str) : Option (Str × Str) :=
  if delimiter ∈ line then
    let pos := line.idxOf delimiter
    some (trim (line.take pos), readValue (line.drop (pos + 1)))
  else none

/-- The members of a map in iteration order that are written out as text. -/
def leaves (lib : Library) (m : List (Str × ConfigNode)) : List (Str × ConfigNode) :=
  (lib.order m).filter fun e =>
    match e.2 with
    | .value _ => true
    | .object _ => false
    | .array _ => false

inductive Fault where
  | badVariantAccess
  | runtimeError (what : String)

/-! ## INI -/

namespace IniParser

structure State where
  currentSection : Str
  root : ConfigNode

def readLine (options : Options) (st : State) (raw : Str) : State :=
  let line := trim raw
  let delimiter := firstByte options.keyValueDelimiter
  if line = [] ∨ line.head? = some semicolon ∨ line.head? = some hash then st
  else if line.head? = some openBracket ∧ line.getLast? = some closeBracket then
    let currentSection := trim ((line.drop 1).take (line.length - 2))
    ⟨currentSection, st.root.set currentSection .fresh⟩
  else if st.currentSection = [] then st
  else
    match keyValue delimiter line with
    | none => st
    | some (key, value) =>
        { st with
          root := st.root.set st.currentSection
            ((st.root.get st.currentSection).set key (.value (.string value))) }

def parse (options : Options) (data : Str) (root : ConfigNode) : ConfigNode :=
  ((Text.lines newline data).foldl (readLine options) ⟨[], root⟩).root

/-- `captured` are the options of the parser whose `dump` was the first call of
the process: the line end and the delimiter are function-local statics. -/
def dumpEntry (captured : Options) (lib : Library) (options : Options) (e : Str × ConfigNode) :
    Str :=
  e.1 ++ [space] ++ captured.keyValueDelimiter ++ [space] ++
    addQuotesIfNeeded (configNodeValueToString lib options e.2) ++ captured.enterLine

def dumpSection (captured : Options) (lib : Library) (options : Options)
    (e : Str × ConfigNode) : Except Fault Str :=
  match e.2 with
  | .object m =>
      .ok ([openBracket] ++ e.1 ++ [closeBracket] ++ captured.enterLine ++
        (leaves lib m).flatMap (dumpEntry captured lib options) ++ captured.enterLine)
  | .value _ => .error .badVariantAccess
  | .array _ => .error .badVariantAccess

def dump (captured : Options) (lib : Library) (options : Options) (root : ConfigNode) :
    Except Fault Str :=
  match root with
  | .object m => (·.flatten) <$> (lib.order m).mapM (dumpSection captured lib options)
  | .value v => .ok (configNodeValueToString lib options (.value v))
  | .array _ => .ok []

end IniParser

/-! ## CONF -/

namespace ConfParser

def readLine (options : Options) (root : ConfigNode) (raw : Str) : ConfigNode :=
  let line := trim raw
  let delimiter := firstByte options.keyValueDelimiter
  if line = [] ∨ line.head? = some hash then root
  else
    match keyValue delimiter line with
    | none => root
    | some (key, value) => root.set key (.value (.string value))

def parse (options : Options) (data : Str) (root : ConfigNode) : ConfigNode :=
  (Text.lines newline data).foldl (readLine options) root

def dumpEntry (captured : Options) (lib : Library) (options : Options) (e : Str × ConfigNode) :
    Str :=
  e.1 ++ [space] ++ captured.keyValueDelimiter ++ [space] ++
    configNodeValueToString lib options e.2 ++ captured.enterLine

def dump (captured : Options) (lib : Library) (options : Options) (root : ConfigNode) :
    Except Fault Str :=
  match root with
  | .object m => .ok ((leaves lib m).flatMap (dumpEntry captured lib options))
  | .value v => .ok (configNodeValueToString lib options (.value v))
  | .array _ => .error (.runtimeError "IConfigParser::dump does not support array type")

end ConfParser

end NetTest.Config
