import JsxTemplate.Script.Token
import JsxTemplate.Script.Tree

/-!
# Reading scripts: the ground

A reader is a function on a state that holds the current token, with no result where the script is
not well formed. Some mistakes do not stop the reading; they only mark the state as faulty, so that a
guess that is undone later leaves no trace.

The rules of the language call each other without end. A rule that needs another one takes it from a
record of rules (`Grammar`), and the record is tied to itself in the end with a bound on the depth.
-/

namespace JsxTemplate.Script

/-- What the constructs around the current token allow. -/
structure Surroundings where
  /-- `in` may be an operator. -/
  allowIn : Bool
  /-- Values may be handed out by `yield`. -/
  inGenerator : Bool
  inAsync : Bool
  inFunction : Bool
  allowConditionalType : Bool
  deriving Repr, Inhabited

/-- The surroundings of a whole script, which is a module. -/
def Surroundings.outermost : Surroundings := ⟨true, false, true, false, true⟩

structure ReaderState where
  /-- The text from the current token on. -/
  here : Input
  rest : Input
  token : Token
  newLine : Bool
  lastStop : Nat
  faulty : Bool
  /-- Where defaults stand in object literals, which are only allowed if the literal turns out to be
  a pattern. -/
  openDefaults : List Nat
  /-- Where no arrow function starts, although it looked so. -/
  notArrows : List Nat
  around : Surroundings
  /-- More than the number of tokens of the script. -/
  bound : Nat
  deriving Inhabited

abbrev Reader := StateT ReaderState Option

/-- The rules that other rules call. -/
structure Grammar where
  expression : Reader Tree
  /-- An expression without commas. The argument says whether an arrow function in it may state the
  type of its result. -/
  assignment : Bool → Reader Tree
  /-- Operands joined by operators that bind at least as strongly as given. -/
  operation : Nat → Reader Tree
  operand : Reader Tree
  pattern : Reader Tree
  type : Reader Tree
  statement : Reader Tree
  /-- An element or a fragment. The argument says whether it stands between tags. -/
  element : Bool → Reader Tree

namespace Reader

variable {α : Type}

/-- The script is not well formed here. -/
def fail : Reader α := fun _ => none

/-- The script is not well formed, but can be read on. -/
def fault : Reader Unit :=
  modify fun s => { s with faulty := true }

/-- Note a mistake under a condition. -/
def faultIf (b : Bool) : Reader Unit :=
  if b then fault else pure ()

def token : Reader Token := do return (← get).token

def start : Reader Nat := do return (← get).here.offset

/-- Make `token`, which starts at `here`, the current one. -/
def settle (newLine : Bool) (here : Input) (found : Token × Input) : Reader Unit :=
  modify fun s =>
    { s with here, newLine, token := found.1, rest := found.2, lastStop := s.rest.offset }

def advance : Reader Unit := do
  let s ← get
  let (newLine, here) ← skipGaps .code false s.rest.chars s.rest.offset
  settle newLine here (← readToken here.chars here.offset)

/-- Go on to character data, or to the mark that ends it. -/
def advanceChild : Reader Unit := do
  let s ← get
  settle false s.rest (← readChildToken s.rest.chars s.rest.offset)

/-- Go on to the value of an attribute. -/
def advanceValue : Reader Unit := do
  let s ← get
  let (newLine, here) ← skipGaps .code false s.rest.chars s.rest.offset
  match readAttributeString here.chars here.offset with
  | some found => settle newLine here found
  | none =>
    if here.chars.head? == some '\x22' || here.chars.head? == some '\x27' then fail
    else settle newLine here (← readToken here.chars here.offset)

/-- Read the current token again, in another way. -/
def reread (read : List Char → Nat → Option (Token × Input)) : Reader Unit := do
  let s ← get
  let (token, rest) ← read s.here.chars s.here.offset
  set { s with token, rest }

def isMark (mark : String) : Reader Bool := do return (← token) == .mark mark

def isMarkOf (marks : List String) : Reader Bool := do
  match ← token with
  | .mark m => return marks.contains m
  | _ => return false

def isWord (word : String) : Reader Bool := do return (← token) == .word word

def isWordOf (words : List String) : Reader Bool := do
  match ← token with
  | .word w => return words.contains w
  | _ => return false

def onNewLine : Reader Bool := do return (← get).newLine

def eatMark (mark : String) : Reader Bool := do
  if ← isMark mark then
    advance
    return true
  else return false

def eatWord (word : String) : Reader Bool := do
  if ← isWord word then
    advance
    return true
  else return false

def expectMark (mark : String) : Reader Unit := do
  unless ← eatMark mark do fail

def expectWord (word : String) : Reader Unit := do
  unless ← eatWord word do fail

/-- Read, but stay where one is. There is no result if the reader fails. -/
def lookahead (r : Reader α) : Reader (Option α) := fun s =>
  some ((r s).map Prod.fst, s)

/-- Whether a test succeeds from here on, without moving. -/
def aheadIs (r : Reader Bool) : Reader Bool := do
  return (← lookahead r) == some true

/-- Read, or stay where one is if the reader fails. -/
def attempt (r : Reader α) : Reader (Option α) := fun s =>
  match r s with
  | some (a, s') => some (some a, s')
  | none => some (none, s)

def within (change : Surroundings → Surroundings) (r : Reader α) : Reader α := do
  let around := (← get).around
  modify fun s => { s with around := change s.around }
  let a ← r
  modify fun s => { s with around }
  return a

/-- The results of a reader until it gives none, at most `n` of them. -/
def collectUpTo (item : Reader (Option α)) : Nat → Reader (List α)
  | 0 => fail
  | n + 1 => do
    match ← item with
    | none => return []
    | some a => return a :: (← collectUpTo item n)

def collect (item : Reader (Option α)) : Reader (List α) := do
  collectUpTo item (← get).bound

/-- Change a value until there is no change any more, at most `n` times. -/
def iterateUpTo (step : α → Reader (Option α)) : Nat → α → Reader α
  | 0, _ => fail
  | n + 1, a => do
    match ← step a with
    | none => return a
    | some a => iterateUpTo step n a

def iterate (step : α → Reader (Option α)) (a : α) : Reader α := do
  iterateUpTo step (← get).bound a

/-- Items up to a closing mark, which is left standing. Between two items there is a comma, and there
may be one behind the last. -/
def commaList (close : String) (item : Reader α) : Reader (List α) := do
  if ← isMark close then return []
  let first ← item
  let rest ← collect do
    if ← eatMark "," then
      if ← isMark close then return none
      else return some (← item)
    else return none
  return first :: rest

/-- Items up to a closing mark, with both marks. -/
def bracketed (opening close : String) (item : Reader α) : Reader (List α) := do
  expectMark opening
  let items ← commaList close item
  expectMark close
  return items

/-- A node that ends with the token before the current one. -/
def finish (kind : Kind) (start : Nat) (children : List Tree) : Reader Tree := do
  return .node kind ⟨start, (← get).lastStop⟩ children

def leaf (kind : Kind) : Reader Tree := do
  let start ← start
  advance
  finish kind start []

/-- A reader's result as a list, if a mark stands here that it starts with. -/
def whenMark (mark : String) (r : Reader Tree) : Reader (List Tree) := do
  if ← isMark mark then return [← r] else return []

end Reader

end JsxTemplate.Script
