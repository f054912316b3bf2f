import JsxTemplate.Script.Reader.Function
import JsxTemplate.Script.Reader.Target

/-!
# Reading operands

An operand is a literal, a name, a function, something in brackets, or an element, with the accesses
and calls behind it.
-/

namespace JsxTemplate.Script.Reader

/-! ## Literals -/

/-- The texts of a template literal and the expressions between them. -/
def templateParts (g : Grammar) : Reader (List (Option String) × List Tree) := do
  let piece : Bool × List (Option String) × List Tree →
      Reader (Option (Bool × List (Option String) × List Tree)) := fun (done, texts, es) => do
    if done then return none
    match ← token with
    | .text value true =>
      advance
      return some (true, texts ++ [value], es)
    | .text value false =>
      advance
      let e ← within (fun a => { a with allowIn := true }) g.expression
      if !(← isMark "\x7d") then fail
      reread fun cs o => templateToken (cs.drop 1) (o + 1)
      return some (false, texts ++ [value], es ++ [e])
    | _ => fail
  return (← iterate piece (false, [], [])).2

def template (g : Grammar) : Reader Tree := do
  let start ← start
  let (texts, es) ← templateParts g
  faultIf (texts.any Option.isNone)
  finish (.template texts) start es

/-- An expression whose elements are spread, or the expression alone. -/
def spreadable (g : Grammar) : Reader Tree := do
  let start ← start
  if ← eatMark "..." then
    let e ← insideBrackets g
    finish .spread start [e]
  else insideBrackets g

def array (g : Grammar) : Reader Tree := do
  let start ← start
  let elements ← bracketed "[" "]" do
    let start ← Reader.start
    if ← isMark "," then return .node .elision ⟨start, start⟩ [] else spreadable g
  finish .array start elements

/-- A property whose key is a variable that gives also its value. The default that a pattern may have
is noted. -/
def shorthand (g : Grammar) (start : Nat) (k : Tree) : Reader Tree := do
  match k with
  | .node (.name n) span [] =>
    if isReservedWord n then fail
    let around := (← get).around
    faultIf ((n == "await" && around.inAsync) || (n == "yield" && around.inGenerator))
    let reference := Tree.node (.reference n) span []
    if ← eatMark "=" then
      let value ← insideBrackets g
      modify fun s => { s with openDefaults := start :: s.openDefaults }
      finish (.property .shorthand false) start [k, reference, value]
    else finish (.property .shorthand false) start [k, reference]
  | _ => fail

/-- A property of an object literal. -/
def property (g : Grammar) : Reader Tree := do
  let start ← start
  if ← isMark "..." then spreadable g
  else
    let asyncBefore := do
      expectWord "async"
      return !(← onNewLine) && ((← startsKey) || (← isMark "*"))
    let isAsync ← aheadIs asyncBefore
    if isAsync then advance
    let isGenerator ← eatMark "*"
    let isAccessor := !isAsync && !isGenerator && (← isWordOf ["get", "set"])
      && (← aheadIs (do advance; startsKey))
    let isGetter := isAccessor && (← isWord "get")
    if isAccessor then advance
    let (k, computed) ← key g
    if isAccessor || (← isMarkOf ["(", "<"]) then
      let first ← Reader.start
      let parts ← functionTail g isAsync isGenerator true
      faultIf (isAccessor && !isAccessorOf isGetter parts)
      let method ← finish .function first parts
      finish (.property (if isAccessor then .accessor else .method) computed) start [k, method]
    else if isAsync || isGenerator then fail
    else if ← eatMark ":" then
      let value ← insideBrackets g
      finish (.property .plain computed) start [k, value]
    else shorthand g start k

def object (g : Grammar) : Reader Tree := do
  let start ← start
  let properties ← bracketed "\x7b" "\x7d" (property g)
  finish .object start properties

/-! ## Operands without anything behind them -/

def paren (g : Grammar) : Reader Tree := do
  let start ← start
  expectMark "("
  let e ← within (fun a => { a with allowIn := true }) g.expression
  expectMark ")"
  finish .paren start [e]

def arguments (g : Grammar) : Reader (List Tree) :=
  bracketed "(" ")" (spreadable g)

/-- What follows the word `import` in an expression. -/
def importOperand (g : Grammar) : Reader Tree := do
  let start ← start
  let word ← leaf (.name "import")
  let call := do
    let args ← arguments g
    faultIf (args.isEmpty || args.length > 2 || args.any fun a => a.kind == .spread)
    finish .importCall start args
  if ← eatMark "." then
    if ← isWord "meta" then
      let property ← plainName
      finish .metaProperty start [word, property]
    else if ← isWordOf ["source", "defer"] then
      advance
      call
    else fail
  else call

/-- An operand without anything behind it, other than a construction. -/
def primary (g : Grammar) : Reader Tree := do
  match ← token with
  | .string v => leaf (.string v)
  | .number => leaf .number
  | .bigint => leaf .bigint
  | .text _ _ => template g
  | .word "this" => leaf .this
  | .word "super" =>
    let tree ← leaf .super
    faultIf !(← isMarkOf ["(", ".", "["])
    return tree
  | .word "null" => leaf .null
  | .word "true" => leaf .boolean
  | .word "false" => leaf .boolean
  | .word "function" => functionWithKeyword g true
  | .word "class" => classWithKeyword g
  | .word "import" => importOperand g
  | .word "async" =>
    let isFunction := do
      advance
      return (← isWord "function") && !(← onNewLine)
    if ← aheadIs isFunction then functionWithKeyword g true else reference
  | .mark "@" => classWithKeyword g
  | .mark "(" => paren g
  | .mark "[" => array g
  | .mark "\x7b" => object g
  | .mark "/" | .mark "/=" =>
    reread fun cs o => readRegex (cs.drop 1) (o + 1)
    leaf .regex
  | .mark "<" => g.element false
  | _ => reference

/-! ## Accesses and calls -/

def memberName : Reader Tree := do
  if (← token) == .privateWord then leaf .privateName else plainName

def startsExpression : Reader Bool := do
  match ← token with
  | .word w =>
    return !isReservedWord w
      || ["this", "super", "null", "true", "false", "function", "class", "new", "delete", "typeof",
        "void", "import"].contains w
  | .number | .bigint | .string _ | .text _ _ | .privateWord => return true
  | .mark m => return ["(", "[", "\x7b", "+", "-", "~", "!", "++", "--", "<", "/", "/=", "@"].contains m
  | _ => return false

/-- How strongly an operator between two operands binds, if the token is one. -/
def strength? : Token → Option Nat
  | .mark m =>
    if m == "??" then some 1
    else if m == "||" then some 2
    else if m == "&&" then some 3
    else if m == "|" then some 4
    else if m == "^" then some 5
    else if m == "&" then some 6
    else if ["==", "!=", "===", "!=="].contains m then some 7
    else if ["<", ">", "<=", ">="].contains m then some 8
    else if ["<<", ">>", ">>>"].contains m then some 9
    else if ["+", "-"].contains m then some 10
    else if ["*", "/", "%"].contains m then some 11
    else if m == "**" then some 12
    else none
  | .word w => if ["in", "instanceof", "as", "satisfies"].contains w then some 8 else none
  | _ => none

/-- Type arguments behind an operand. They are only taken for such if what follows cannot be the right
side of a comparison. -/
def typeArgumentsBehind (g : Grammar) : Reader (Option Tree) :=
  attempt do
    let args ← typeArguments g
    if ← isMark "(" then return args
    match ← token with
    | .text _ _ => return args
    | t =>
      if ← isMarkOf ["<", ">", "+", "-"] then fail
      if (← onNewLine) || (strength? t).isSome || !(← startsExpression) then return args
      else fail

/-- An operand with what was read behind it so far, and whether part of it is left out when its object
is missing. -/
structure Access where
  tree : Tree
  /-- Whether part of it may be left out. -/
  optional : Bool

/-- What an operand with type arguments is when it is called. -/
def calleeParts (t : Tree) : List Tree :=
  match t with
  | .node .instantiation _ parts => parts
  | t => [t]

/-- One access or call behind an operand, if there is one. Calls are not read in the function of a
construction. -/
def accessStep (g : Grammar) (start : Nat) (allowCall : Bool) (a : Access) :
    Reader (Option Access) := do
  let index : Reader (List Tree) := do
    advance
    let e ← within (fun a => { a with allowIn := true }) g.expression
    expectMark "]"
    return [e]
  match ← token with
  | .mark "." =>
    advance
    let name ← memberName
    return some { a with tree := ← finish .member start [a.tree, name] }
  | .mark "?." =>
    if !allowCall then fail
    advance
    let tree ← do
      if ← isMark "[" then
        let parts ← index
        finish .member start (a.tree :: parts)
      else if ← isMark "(" then
        let args ← arguments g
        finish .call start (calleeParts a.tree ++ args)
      else if ← isMarkOf ["<", "<<"] then
        let types ← typeArguments g
        let args ← arguments g
        finish .call start (calleeParts a.tree ++ types :: args)
      else
        let name ← memberName
        finish .member start [a.tree, name]
    return some ⟨tree, true⟩
  | .mark "[" =>
    let parts ← index
    return some { a with tree := ← finish .member start (a.tree :: parts) }
  | .mark "!" =>
    if ← onNewLine then return none
    advance
    return some { a with tree := ← finish .typed start [a.tree] }
  | .text _ _ =>
    faultIf a.optional
    let (_, es) ← templateParts g
    return some { a with tree := ← finish .tagged start (calleeParts a.tree ++ es) }
  | .mark "(" =>
    if !allowCall then return none
    let args ← arguments g
    return some { a with tree := ← finish .call start (calleeParts a.tree ++ args) }
  | .mark "<" | .mark "<<" =>
    match ← typeArgumentsBehind g with
    | none => return none
    | some types => return some { a with tree := ← finish .instantiation start [a.tree, types] }
  | _ => return none

/-- A construction. Its function is an operand without calls, which may be a construction again. -/
def construct (g : Grammar) : Nat → Reader Tree
  | 0 => fail
  | n + 1 => do
    let start ← start
    let word ← leaf (.name "new")
    if ← eatMark "." then
      unless ← isWord "target" do fail
      let property ← plainName
      finish .metaProperty start [word, property]
    else
      let first ← Reader.start
      let callee ← if ← isWord "new" then construct g n else primary g
      let callee ← iterate (accessStep g first false) ⟨callee, false⟩
      let args ← if ← isMark "(" then arguments g else pure []
      finish .construct start (calleeParts callee.tree ++ args)

/-- An operand with the accesses and calls behind it. -/
def accessed (g : Grammar) : Reader Tree := do
  let start ← start
  let first ← if ← isWord "new" then construct g (← get).bound else primary g
  let a ← iterate (accessStep g start true) ⟨first, false⟩
  if a.optional then finish .chain start [a.tree] else return a.tree

end JsxTemplate.Script.Reader
