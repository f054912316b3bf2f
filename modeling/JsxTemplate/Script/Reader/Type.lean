import JsxTemplate.Script.Reader.Pattern

/-!
# Reading types

Types have no meaning for a template, but they have to be passed, and the names in them are variables
as any other.
-/

namespace JsxTemplate.Script.Reader

def typeWords : List String :=
  ["any", "unknown", "never", "void", "null", "undefined", "string", "number", "boolean", "symbol",
    "object", "bigint", "true", "false", "intrinsic", "this"]

def typeArguments (g : Grammar) : Reader Tree := do
  let start ← start
  if ← isMark "<<" then reread fun cs o => some (.mark "<", ⟨cs.drop 1, o + 1⟩)
  let types ← bracketed "<" ">" g.type
  if types.isEmpty then fail
  finish .type start types

def typeParameter (g : Grammar) : Reader Tree := do
  let start ← start
  let _ ← collect do
    if (← isWordOf ["const", "in", "out"]) && (← aheadIs (do advance; isVariable)) then
      advance
      return some ()
    else return none
  let name ← binding
  let bound ← if ← eatWord "extends" then (do return [← g.type]) else pure []
  let default ← if ← eatMark "=" then (do return [← g.type]) else pure []
  finish .type start (name :: bound ++ default)

def typeParameters (g : Grammar) : Reader (List Tree) := do
  let start ← start
  if ← isMark "<" then
    let params ← bracketed "<" ">" (typeParameter g)
    if params.isEmpty then fault
    return [← finish .type start params]
  else return []

def typeAnnotation (g : Grammar) : Reader (List Tree) := do
  if ← eatMark ":" then
    return [← within (fun a => { a with allowConditionalType := true }) g.type]
  else return []

/-- The type of a result: a type, or a statement about an argument. -/
def resultType (g : Grammar) : Reader Tree := do
  let start ← start
  let statesFact := do
    match ← token with
    | .word _ =>
      advance
      return (← isWord "is") && !(← onNewLine)
    | _ => return false
  let assertsFact := do
    expectWord "asserts"
    return !(← onNewLine) && ((← isVariable) || (← isWord "this"))
  if ← aheadIs assertsFact then
    advance
    let name ← plainName
    let rest ← if ← eatWord "is" then (do return [← g.type]) else pure []
    finish .type start (name :: rest)
  else if ← aheadIs statesFact then
    let name ← plainName
    advance
    let type ← g.type
    finish .type start [name, type]
  else g.type

/-- Whether a list of parameters starts here, and not a type in parentheses. -/
def startsFunctionType : Reader Bool := do
  if ← isMark "<" then return true
  if !(← isMark "(") then return false
  aheadIs do
    advance
    if ← isMarkOf [")", "..."] then return true
    if (← isMarkOf ["[", "\x7b"]) then
      let depth ← iterate (fun n : Nat => do
        if n == 0 then return none
        else
          if ← isMarkOf ["[", "\x7b"] then advance; return some (n + 1)
          else if ← isMarkOf ["]", "\x7d"] then advance; return some (n - 1)
          else if (← token) == .eof then fail
          else advance; return some n) (← do advance; pure 1)
      if depth != 0 then return false
    else if (← isVariable) || (← isWord "this") then advance
    else return false
    if ← isMarkOf [":", ",", "?", "="] then return true
    if ← eatMark ")" then isMark "=>" else return false

def typedParameter (g : Grammar) : Reader Tree := do
  let start ← start
  let isRest ← eatMark "..."
  if (← isWord "this") && !isRest then
    advance
    let type ← typeAnnotation g
    finish .type start type
  else
    let pattern ← g.pattern
    let _ ← eatMark "?"
    let type ← typeAnnotation g
    let tree ← defaultBehind g start pattern
    finish (if isRest then .restParam else .param) start (tree :: type)

def typedParameters (g : Grammar) : Reader Tree := do
  let start ← start
  let params ← bracketed "(" ")" (typedParameter g)
  finish .params start params

def functionType (g : Grammar) (start : Nat) : Reader Tree := do
  let types ← typeParameters g
  let params ← typedParameters g
  expectMark "=>"
  let result ← resultType g
  finish .type start (types ++ [params, result])

/-- A dotted name whose first part is a variable. -/
def typeName : Reader (List Tree) := do
  let first ← if ← isWord "this" then leaf .this else reference
  let rest ← collect do
    if ← eatMark "." then return some (← plainName) else return none
  return first :: rest

/-- Type arguments on the same line, if they stand here. -/
def argumentsBehind (g : Grammar) : Reader (List Tree) := do
  if (← isMarkOf ["<", "<<"]) && !(← onNewLine) then return [← typeArguments g] else return []

def endMember : Reader Unit := do
  if (← eatMark ";") || (← eatMark ",") then return
  if (← isMark "\x7d") || (← onNewLine) then return
  fail

def signature (g : Grammar) : Reader (List Tree) := do
  let types ← typeParameters g
  let params ← typedParameters g
  let result ← if ← eatMark ":" then (do return [← resultType g]) else pure []
  return types ++ params :: result

def startsIndex : Reader Bool :=
  aheadIs do
    expectMark "["
    if !(← isVariable) then return false
    advance
    isMark ":"

def indexSignature (g : Grammar) : Reader (List Tree) := do
  expectMark "["
  advance
  let keyType ← typeAnnotation g
  expectMark "]"
  let type ← typeAnnotation g
  return keyType ++ type

def typeMember (g : Grammar) : Reader Tree := do
  let start ← start
  let children ← do
    if (← isMark "(") || (← isMark "<") then signature g
    else if (← isWord "new") && (← aheadIs (do advance; isMarkOf ["(", "<"])) then
      advance
      signature g
    else
      if (← isWord "readonly") && (← aheadIs (do advance; startsKey)) then advance
      if ← startsIndex then indexSignature g
      else
        if (← isWordOf ["get", "set"]) && (← aheadIs (do advance; startsKey)) then advance
        let (k, _) ← key g
        let _ ← eatMark "?"
        if ← isMarkOf ["(", "<"] then return ← (do
          let rest ← signature g
          let tree ← finish .group start (k :: rest)
          endMember
          return tree)
        let type ← typeAnnotation g
        pure (k :: type)
  let tree ← finish .group start children
  endMember
  return tree

/-- Whether an object type is one that runs over the keys of another. -/
def startsMapped : Reader Bool :=
  aheadIs do
    expectMark "\x7b"
    if ← isMarkOf ["+", "-"] then return true
    let _ ← eatWord "readonly"
    expectMark "["
    if !(← isVariable) then return false
    advance
    isWord "in"

/-- An object type that runs over the keys of another. -/
def mappedType (g : Grammar) (start : Nat) : Reader Tree := do
  expectMark "\x7b"
  if ← isMarkOf ["+", "-"] then advance
  let _ ← eatWord "readonly"
  expectMark "["
  let name ← binding
  expectWord "in"
  let keys ← g.type
  let renamed ← if ← eatWord "as" then (do return [← g.type]) else pure []
  expectMark "]"
  if ← isMarkOf ["+", "-"] then advance
  let _ ← eatMark "?"
  let type ← typeAnnotation g
  let _ ← eatMark ";"
  expectMark "\x7d"
  finish .type start (name :: keys :: renamed ++ type)

def objectType (g : Grammar) (start : Nat) : Reader Tree := do
  if ← startsMapped then mappedType g start
  else
    expectMark "\x7b"
    let members ← collect do
      if ← isMark "\x7d" then return none else return some (← typeMember g)
    expectMark "\x7d"
    finish .type start members

def tupleElement (g : Grammar) : Reader Tree := do
  let start ← start
  let _ ← eatMark "..."
  let isNamed := do
    match ← token with
    | .word _ =>
      advance
      let _ ← eatMark "?"
      isMark ":"
    | _ => return false
  if ← aheadIs isNamed then
    let name ← plainName
    let _ ← eatMark "?"
    let type ← typeAnnotation g
    finish .type start (name :: type)
  else
    let type ← g.type
    let _ ← eatMark "?"
    finish .type start [type]

def templateType (g : Grammar) (start : Nat) : Reader Tree := do
  let piece : Bool × List Tree → Reader (Option (Bool × List Tree)) := fun (done, types) => do
    if done then return none
    match ← token with
    | .text _ true =>
      advance
      return some (true, types)
    | .text _ false =>
      advance
      let type ← g.type
      if !(← isMark "\x7d") then fail
      reread fun cs o => templateToken (cs.drop 1) (o + 1)
      return some (false, types ++ [type])
    | _ => fail
  let (_, types) ← iterate piece (false, [])
  finish .type start types

def importType (g : Grammar) (start : Nat) : Reader Tree := do
  expectWord "import"
  expectMark "("
  let source ← g.type
  let options ← if ← eatMark "," then (do return [← g.assignment true]) else pure []
  expectMark ")"
  let names ← collect do
    if ← eatMark "." then return some (← plainName) else return none
  let args ← argumentsBehind g
  finish .type start (source :: options ++ names ++ args)

/-- A type that needs no brackets around it. -/
def primaryType (g : Grammar) : Reader Tree := do
  let start ← start
  match ← token with
  | .string _ | .number | .bigint => leaf .type
  | .text _ _ => templateType g start
  | .mark "-" =>
    advance
    if (← token) == .number || (← token) == .bigint then
      advance
      finish .type start []
    else fail
  | .mark "(" =>
    advance
    let type ← within (fun a => { a with allowConditionalType := true }) g.type
    expectMark ")"
    finish .type start [type]
  | .mark "[" =>
    let elements ← bracketed "[" "]" (tupleElement g)
    finish .type start elements
  | .mark "\x7b" => objectType g start
  | .word "import" => importType g start
  | .word "typeof" =>
    advance
    if ← isWord "import" then
      let type ← importType g start
      finish .type start [type]
    else
      let names ← typeName
      let args ← argumentsBehind g
      finish .type start (names ++ args)
  | .word w =>
    if typeWords.contains w && !(← aheadIs (do advance; isMark ".")) then leaf .type
    else if w == "const" then
      advance
      finish .type start [.node (.reference w) ⟨start, (← get).lastStop⟩ []]
    else
      let names ← typeName
      let args ← argumentsBehind g
      finish .type start (names ++ args)
  | _ => fail

def suffixedType (g : Grammar) : Reader Tree := do
  let start ← start
  let first ← primaryType g
  iterate (fun type => do
    if ← onNewLine then return none
    if ← eatMark "!" then return some (← finish .type start [type])
    if ← isMark "[" then
      advance
      let index ← if ← isMark "]" then pure [] else (do return [← g.type])
      expectMark "]"
      return some (← finish .type start (type :: index))
    else return none) first

/-- A type with the words before it. -/
def operatorType (g : Grammar) : Nat → Reader Tree
  | 0 => fail
  | n + 1 => do
    let start ← start
    let startsOperand := do
      advance
      match ← token with
      | .word w => return !(["extends", "in", "is", "as"].contains w)
      | .string _ | .number | .bigint | .text _ _ => return true
      | .mark m => return ["(", "[", "\x7b", "-"].contains m
      | _ => return false
    if (← isWordOf ["keyof", "unique", "readonly"]) && (← aheadIs startsOperand) then
      advance
      let type ← operatorType g n
      finish .type start [type]
    else if (← isWord "infer") && (← aheadIs startsOperand) then
      advance
      let name ← binding
      let bound ← attempt do
        expectWord "extends"
        let type ← within (fun a => { a with allowConditionalType := false }) g.type
        if (← get).around.allowConditionalType && (← isMark "?") then fail
        return type
      finish .type start (name :: bound.toList)
    else suffixedType g

/-- Types joined by a mark, which may also stand before the first. -/
def joinedTypes (mark : String) (item : Reader Tree) : Reader Tree := do
  let start ← start
  let leading ← eatMark mark
  let first ← item
  let rest ← collect do
    if ← eatMark mark then return some (← item) else return none
  if !leading && rest.isEmpty then return first
  finish .type start (first :: rest)

def type (g : Grammar) : Reader Tree := do
  let start ← start
  let bound := (← get).bound
  let isConstructor ← aheadIs do
    let _ ← eatWord "abstract"
    isWord "new"
  if isConstructor then
    let _ ← eatWord "abstract"
    advance
    functionType g start
  else if ← startsFunctionType then functionType g start
  else
    let member := do
      if ← startsFunctionType then functionType g (← Reader.start) else operatorType g bound
    let checked ← joinedTypes "|" (joinedTypes "&" member)
    if (← get).around.allowConditionalType && !(← onNewLine) && (← isWord "extends") then
      advance
      let pattern ← within (fun a => { a with allowConditionalType := false }) g.type
      expectMark "?"
      let yes ← g.type
      expectMark ":"
      let no ← g.type
      finish .type start [checked, pattern, yes, no]
    else return checked

end JsxTemplate.Script.Reader
