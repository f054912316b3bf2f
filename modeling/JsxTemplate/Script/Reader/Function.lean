import JsxTemplate.Script.Reader.Type

/-!
# Reading functions and classes
-/

namespace JsxTemplate.Script.Reader

/-- The end of a statement: a semicolon, or none where the statement cannot go on. -/
def endStatement : Reader Unit := do
  if ← eatMark ";" then return
  if (← isMark "\x7d") || (← onNewLine) || (← token) == .eof then return
  fail

def decorators (g : Grammar) : Reader (List Tree) :=
  collect do
    if ← eatMark "@" then return some (← g.operand) else return none

def insideFunction (isAsync isGenerator : Bool) (a : Surroundings) : Surroundings :=
  { a with allowIn := true, inAsync := isAsync, inGenerator := isGenerator, inFunction := true }

def initializer (g : Grammar) : Reader (List Tree) := do
  if ← eatMark "=" then return [← g.assignment true] else return []

/-- A parameter of a function. A statement about the receiver is a node of kind `this`. -/
def parameter (g : Grammar) : Reader Tree := do
  let start ← start
  let before ← decorators g
  let _ ← collect do
    let isModifier ← isWordOf ["public", "private", "protected", "readonly", "override"]
    let startsPattern := do
      advance
      return (← isVariable) || (← isMarkOf ["[", "\x7b"])
    if isModifier && (← aheadIs startsPattern) then
      advance
      return some ()
    else return none
  if ← eatMark "..." then
    let pattern ← g.pattern
    let type ← typeAnnotation g
    faultIf ((← isMark ",") || (← isMark "="))
    finish .restParam start (before ++ pattern :: type)
  else if ← eatWord "this" then
    let type ← typeAnnotation g
    finish .this start type
  else
    let pattern ← g.pattern
    let _ ← eatMark "?"
    let type ← typeAnnotation g
    let value ← initializer g
    finish .param start (pattern :: before ++ type ++ value)

def parameters (g : Grammar) : Reader Tree := do
  let start ← start
  let params ← bracketed "(" ")" (parameter g)
  finish .params start params

def block (g : Grammar) : Reader Tree := do
  let start ← start
  expectMark "\x7b"
  let statements ← collect do
    if ← isMark "\x7d" then return none else return some (← g.statement)
  expectMark "\x7d"
  finish .group start statements

/-- The type of a result behind a colon, if it stands here. -/
def resultBehind (g : Grammar) : Reader (List Tree) := do
  if ← eatMark ":" then return [← resultType g] else return []

/-- A function from its parameters on. Only a declaration may lack a body. -/
def functionTail (g : Grammar) (isAsync isGenerator needsBody : Bool) : Reader (List Tree) :=
  within (insideFunction isAsync isGenerator) do
    let types ← typeParameters g
    let params ← parameters g
    let result ← resultBehind g
    if ← isMark "\x7b" then return types ++ params :: result ++ [← block g]
    else if needsBody then fail
    else return types ++ params :: result

/-- Whether the parts of a function have the parameters of an accessor: none to read a property, and
a single plain one to write it. -/
def isAccessorOf (isGetter : Bool) (parts : List Tree) : Bool :=
  match (parts.find? fun p => p.kind == .params).map Tree.children with
  | some [] => isGetter
  | some [p] => !isGetter && p.kind == .param
  | _ => false

def functionWithKeyword (g : Grammar) (needsBody : Bool) : Reader Tree := do
  let start ← start
  let isAsync ← eatWord "async"
  expectWord "function"
  let isGenerator ← eatMark "*"
  let name ← if ← isVariable then (do return [← within (insideFunction false false) binding]) else pure []
  let rest ← functionTail g isAsync isGenerator needsBody
  finish .function start (name ++ rest)

/-! ## Classes -/

/-- The words that may stand before a member of a class. -/
def memberModifiers : List String :=
  ["declare", "abstract", "static", "readonly", "public", "private", "protected", "override",
    "accessor", "async"]

/-- A word before a member of a class, if it is not the member's own name. -/
def memberModifier : Reader (Option String) := do
  match ← token with
  | .word w =>
    let applies := do
      advance
      return ((← startsKey) || (← isMark "*")) && (w == "static" || !(← onNewLine))
    if memberModifiers.contains w && (← aheadIs applies) then
      advance
      return some w
    else return none
  | _ => return none

def classMember (g : Grammar) : Reader Tree := do
  let start ← start
  let before ← decorators g
  if (← isWord "static") && (← aheadIs (do advance; isMark "\x7b")) then
    advance
    let body ← within (insideFunction false false) (block g)
    finish .group start [body]
  else
    let modifiers ← collect memberModifier
    if ← startsIndex then
      let types ← indexSignature g
      endStatement
      finish .group start types
    else
      let isAccessor := (← isWordOf ["get", "set"]) && (← aheadIs (do advance; startsKey))
      let isGetter := isAccessor && (← isWord "get")
      if isAccessor then advance
      let isGenerator ← eatMark "*"
      let k ← if (← token) == .privateWord then leaf .privateName else (do return (← key g).1)
      let _ ← eatMark "?"
      let _ ← eatMark "!"
      if ← isMarkOf ["(", "<"] then
        let first ← Reader.start
        let parts ← functionTail g (modifiers.contains "async") isGenerator false
        faultIf (isAccessor && !isAccessorOf isGetter parts)
        let method ← finish .function first parts
        if method.children.getLast?.any (fun t => t.kind != .group) then endStatement
        finish .group start (before ++ [k, .node .place method.span [method]])
      else
        if modifiers.contains "async" || isGenerator then fail
        let type ← typeAnnotation g
        let value ← within (insideFunction false false) (initializer g)
        let tree ← finish .group start (before ++ k :: type ++ value)
        endStatement
        return tree

/-- The class or the interfaces behind a word, with their type arguments. -/
def heritage (g : Grammar) : Reader Tree := do
  let start ← start
  let parent ← g.operand
  let args ← argumentsBehind g
  if args.isEmpty then return parent
  finish .group start (parent :: args)

def classWithKeyword (g : Grammar) : Reader Tree := do
  let start ← start
  let before ← decorators g
  let _ ← eatWord "abstract"
  expectWord "class"
  let isNamed := (← isVariable) && !(← isWord "implements")
  let name ← if isNamed then (do return [← binding]) else pure []
  let types ← typeParameters g
  let parent ← if ← eatWord "extends" then (do return [← heritage g]) else pure []
  let interfaces ← if ← eatWord "implements" then commaList "\x7b" g.type else pure []
  expectMark "\x7b"
  let members ← collect do
    let _ ← collect do
      if ← eatMark ";" then return some () else return none
    if ← isMark "\x7d" then return none else return some (← classMember g)
  expectMark "\x7d"
  finish .classDefinition start (before ++ name ++ types ++ parent ++ interfaces ++ members)

/-! ## Arrow functions -/

/-- Whether an arrow function starts somewhere. -/
inductive Likelihood where
  | no
  | perhaps
  /-- There is one, or nothing at all. -/
  | yes
  deriving DecidableEq, Repr

/-- Whether an arrow function starts with the parenthesis that stands here. -/
def arrowAtParen : Reader Likelihood := do
  expectMark "("
  if ← eatMark ")" then return if ← isMarkOf ["=>", ":", "\x7b"] then .yes else .no
  if ← isMarkOf ["[", "\x7b"] then return .perhaps
  if ← isMark "..." then return .yes
  if (← isVariable) || (← isWord "this") then
    advance
    if ← isMark ":" then return .yes
    if ← eatMark "?" then return if ← isMarkOf [":", ",", "=", ")"] then .yes else .no
    return if ← isMarkOf [",", "=", ")"] then .perhaps else .no
  return .no

/-- Whether an arrow function starts with the angle that stands here, and not an element. -/
def arrowAtAngle : Reader Likelihood := do
  expectMark "<"
  let _ ← eatWord "const"
  if !(← isVariable) then return .no
  advance
  if ← eatWord "extends" then
    if ← isMarkOf ["=", ">", "/"] then return .no
    return if ← isVariable then .perhaps else .yes
  return if ← isMarkOf ["=", ","] then .yes else .no

/-- Whether an arrow function starts here whose parameters are in parentheses. -/
def arrowHere : Reader Likelihood := do
  let atParen := do return (← lookahead arrowAtParen).getD .no
  let atAngle := do return (← lookahead arrowAtAngle).getD .no
  if ← isMark "(" then atParen
  else if ← isMark "<" then atAngle
  else if ← isWord "async" then
    let behind ← lookahead do
      advance
      if ← onNewLine then return .no
      if ← isMark "(" then atParen
      else if ← isMark "<" then atAngle
      else return .no
    return behind.getD .no
  else return .no

/-- The head of an arrow function up to the arrow: its parts, whether it is asynchronous, and whether
it states the type of its result. -/
def arrowHead (g : Grammar) : Reader (List Tree × Bool × Bool) := do
  let isAsync ← eatWord "async"
  let types ← typeParameters g
  let params ← within (fun a => { a with inAsync := isAsync || a.inAsync }) (parameters g)
  faultIf (params.children.any fun p => p.kind == .this)
  let stated ← isMark ":"
  let result ← resultBehind g
  if ← isMark "=>" then return (types ++ params :: result, isAsync, stated) else fail

def arrowBody (g : Grammar) (isAsync allowResult : Bool) : Reader Tree := do
  faultIf (← onNewLine)
  expectMark "=>"
  if ← isMark "\x7b" then within (insideFunction isAsync false) (block g)
  else within (fun a => { a with inAsync := isAsync, inGenerator := false }) (g.assignment allowResult)

/-- A whole arrow function whose parameters are in parentheses, and whether it states the type of its
result. -/
def arrowFunction (g : Grammar) (allowResult : Bool) : Reader (Tree × Bool) := do
  let start ← start
  let (head, isAsync, stated) ← arrowHead g
  let body ← arrowBody g isAsync allowResult
  return (← finish .arrow start (head ++ [body]), stated)

/-- An arrow function whose parameters are in parentheses, if one starts here. Where only a try can
tell, a head without an arrow is taken back. Between the marks of a condition, a type of the result
that is not followed by the second branch is taken back as well: there the colon was that of the
condition. -/
def arrowFunction? (g : Grammar) (allowResult : Bool) : Reader (Option Tree) := do
  match ← arrowHere with
  | .no => return none
  | .yes => return some (← arrowFunction g allowResult).1
  | .perhaps =>
    let before ← get
    let start := before.here.offset
    if before.notArrows.contains start then return none
    let giveUp : Reader (Option Tree) := do
      set { before with notArrows := start :: before.notArrows }
      return none
    match ← lookahead (arrowHead g) with
    | none => giveUp
    | some _ =>
      let (tree, stated) ← arrowFunction g allowResult
      if !allowResult && stated && !(← isMark ":") then giveUp
      else return some tree

/-- An arrow function with a single parameter without parentheses. -/
def simpleArrow (g : Grammar) (allowResult : Bool) : Reader Tree := do
  let start ← start
  let isAsync ← if ← aheadIs (do advance; isMark "=>") then pure false else eatWord "async"
  let first ← Reader.start
  let name ← binding
  let param ← finish .param first [name]
  let params ← finish .params first [param]
  let body ← arrowBody g isAsync allowResult
  finish .arrow start [params, body]

/-- Whether an arrow function with a single parameter without parentheses starts here. -/
def startsSimpleArrow : Reader Bool := do
  if !(← isVariable) then return false
  let plain ← aheadIs do
    advance
    return (← isMark "=>")
  if plain then return true
  if !(← isWord "async") then return false
  aheadIs do
    advance
    if (← onNewLine) || !(← isVariable) then return false
    advance
    return (← isMark "=>") && !(← onNewLine)

end JsxTemplate.Script.Reader
