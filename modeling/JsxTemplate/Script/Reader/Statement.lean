import JsxTemplate.Script.Reader.Operator

/-!
# Reading statements
-/

namespace JsxTemplate.Script.Reader

/-- A function or a class that is declared rather than evaluated. -/
def declared (r : Reader Tree) : Reader Tree := do
  let tree ← r
  return .node .place tree.span [tree]

/-- A statement after its keyword, which is made of an expression in parentheses and what follows. -/
def conditionInParens (g : Grammar) : Reader Tree := do
  expectMark "("
  let e ← within (fun a => { a with allowIn := true }) g.expression
  expectMark ")"
  return e

/-! ## Declarations -/

/-- A variable that is declared. `needsValue` says that it must have a value. -/
def declarator (g : Grammar) (needsValue : Bool) : Reader Tree := do
  let start ← start
  let pattern ← g.pattern
  let _ ← eatMark "!"
  let type ← typeAnnotation g
  let value ← initializer g
  let isLoop := (← isWordOf ["in", "of"])
  faultIf (value.isEmpty && !isLoop
    && (needsValue || pattern.kind == .objectPattern || pattern.kind == .arrayPattern))
  finish .group start (pattern :: type ++ value)

def declarators (g : Grammar) (needsValue : Bool) : Reader (List Tree) := do
  let first ← declarator g needsValue
  let rest ← collect do
    if ← eatMark "," then return some (← declarator g needsValue) else return none
  return first :: rest

def startsDeclaration : Reader Bool := do
  if ← isWordOf ["var", "const"] then return true
  if ← isWord "let" then
    return ← aheadIs do
      advance
      return (← isVariable) || (← isMarkOf ["[", "\x7b"])
  if ← isWord "using" then
    return ← aheadIs do
      advance
      return (← isVariable) && !(← isWord "of") && !(← onNewLine)
  return false

def declaration (g : Grammar) : Reader Tree := do
  let start ← start
  let needsValue ← isWordOf ["const", "using"]
  advance
  let declared ← declarators g needsValue
  finish .group start declared

def enumMember (g : Grammar) : Reader Tree := do
  let start ← start
  let (k, _) ← key g
  let value ← initializer g
  finish .group start (k :: value)

def enumeration (g : Grammar) (start : Nat) : Reader Tree := do
  expectWord "enum"
  let name ← binding
  let members ← bracketed "\x7b" "\x7d" (enumMember g)
  finish .group start (name :: members)

def typeAlias (g : Grammar) : Reader Tree := do
  let start ← start
  expectWord "type"
  let name ← binding
  let params ← typeParameters g
  expectMark "="
  let type ← g.type
  endStatement
  finish .group start (name :: params ++ [type])

def interface (g : Grammar) : Reader Tree := do
  let start ← start
  expectWord "interface"
  let name ← binding
  let params ← typeParameters g
  let parents ← if ← eatWord "extends" then commaList "\x7b" g.type else pure []
  let body ← objectType g (← Reader.start)
  finish .group start (name :: params ++ parents ++ [body])

def namespaceBlock (g : Grammar) : Reader Tree := do
  let start ← start
  advance
  let name ← binding
  let rest ← collect do
    if ← eatMark "." then return some (← binding) else return none
  let body ← block g
  finish .group start (name :: rest ++ [body])

/-! ## Modules -/

/-- One name of an import, possibly under another name. -/
def importedName : Reader Tree := do
  let start ← start
  if (← isWord "type") && (← aheadIs (do advance; isVariable)) then advance
  match ← token with
  | .word w =>
    let name ← leaf (.name w)
    if ← eatWord "as" then
      let target ← binding
      finish .group start [name, target]
    else
      if isReservedWord w then fail
      finish .group start [name, .node (.binding w) name.span []]
  | .string _ =>
    advance
    expectWord "as"
    let target ← binding
    finish .group start [target]
  | _ => fail

def moduleText : Reader Unit := do
  match ← token with
  | .string _ => advance
  | _ => fail

def importStatement : Reader Tree := do
  let start ← start
  expectWord "import"
  match ← token with
  | .string _ =>
    advance
    endStatement
    finish .group start []
  | _ =>
    let isTypeOnly := do
      expectWord "type"
      return ((← isVariable) && !(← isWord "from")) || (← isMarkOf ["\x7b", "*"])
    if ← aheadIs isTypeOnly then advance
    let default ← if ← isVariable then (do return [← binding]) else pure []
    if !default.isEmpty then
      if !(← eatMark ",") && !(← isWord "from") then fail
    let names ← do
      if ← eatMark "*" then
        expectWord "as"
        pure [← binding]
      else if ← isMark "\x7b" then bracketed "\x7b" "\x7d" importedName
      else pure []
    expectWord "from"
    moduleText
    endStatement
    finish .group start (default ++ names)

/-- One name of an export, possibly under another name. -/
def exportedName : Reader Tree := do
  let start ← start
  let name ← match ← token with
    | .word w => if isReservedWord w then leaf (.name w) else leaf (.reference w)
    | .string v => leaf (.string v)
    | _ => fail
  if ← eatWord "as" then
    match ← token with
    | .word w =>
      let other ← leaf (.name w)
      finish .group start [name, other]
    | .string v =>
      let other ← leaf (.string v)
      finish .group start [name, other]
    | _ => fail
  else return name

def exportStatement (g : Grammar) : Reader Tree := do
  let start ← start
  expectWord "export"
  if ← eatWord "default" then
    if (← isWord "function") || (← aheadIs (do expectWord "async"; isWord "function")) then
      let f ← declared (functionWithKeyword g false)
      finish .group start [f]
    else if (← isWord "class") || (← isMark "@") then
      let c ← declared (classWithKeyword g)
      finish .group start [c]
    else
      let e ← g.assignment true
      endStatement
      finish .group start [e]
  else if ← eatMark "*" then
    let name ← if ← eatWord "as" then (do return [← plainName]) else pure []
    expectWord "from"
    moduleText
    endStatement
    finish .group start name
  else if ← isMark "\x7b" then
    let names ← bracketed "\x7b" "\x7d" exportedName
    if ← eatWord "from" then moduleText
    endStatement
    finish .group start names
  else
    let statement ← g.statement
    finish .group start [statement]

/-! ## Control -/

def forStatement (g : Grammar) (start : Nat) : Reader Tree := do
  let _ ← eatWord "await"
  expectMark "("
  let inHead := within (fun a => { a with allowIn := false })
  let optional (mark : String) : Reader (List Tree) := do
    if ← isMark mark then return [] else return [← g.expression]
  let isDeclaration ← startsDeclaration
  let (first, isPlain) ← do
    if ← isMark ";" then pure ([], true)
    else if isDeclaration then
      let d ← inHead (declaration g)
      pure ([d], ← isMark ";")
    else
      let e ← inHead g.expression
      if ← isWordOf ["in", "of"] then pure ([← asTarget e], false) else pure ([e], true)
  let head ← do
    if isPlain then
      expectMark ";"
      let test ← optional ";"
      expectMark ";"
      let step ← optional ")"
      pure (first ++ test ++ step)
    else if ← eatWord "of" then
      let e ← g.assignment true
      pure (first ++ [e])
    else
      expectWord "in"
      let e ← g.expression
      pure (first ++ [e])
  expectMark ")"
  let body ← g.statement
  finish .group start (head ++ [body])

/-- The statements of one case of a switch. -/
def caseClause (g : Grammar) : Reader Tree := do
  let start ← start
  let test ← do
    if ← eatWord "default" then pure []
    else
      expectWord "case"
      pure [← g.expression]
  expectMark ":"
  let body ← collect do
    if (← isMark "\x7d") || (← isWordOf ["case", "default"]) then return none
    else return some (← g.statement)
  finish .group start (test ++ body)

/-- A protected block after its keyword. -/
def tryStatement (g : Grammar) (start : Nat) : Reader Tree := do
  let body ← block g
  let handler ← do
    if ← eatWord "catch" then
      let param ← do
        if ← eatMark "(" then
          let p ← g.pattern
          let type ← typeAnnotation g
          expectMark ")"
          pure (p :: type)
        else pure []
      let b ← block g
      pure (param ++ [b])
    else pure []
  let last ← if ← eatWord "finally" then (do return [← block g]) else pure []
  if handler.isEmpty && last.isEmpty then fail
  finish .group start (body :: handler ++ last)

/-- A statement that leaves the function, or throws, with the value behind its keyword. -/
def leavingStatement (g : Grammar) (start : Nat) (needsValue : Bool) : Reader Tree := do
  let ends := (← onNewLine) || (← isMarkOf [";", "\x7d"]) || (← token) == .eof
  if ends then
    if needsValue then fail
    endStatement
    finish .group start []
  else
    let e ← g.expression
    endStatement
    finish .group start [e]

def expressionStatement (g : Grammar) : Reader Tree := do
  let start ← start
  let e ← g.expression
  endStatement
  finish .group start [e]

def statementWithKeyword (g : Grammar) (word : String) : Reader Tree := do
  let start ← start
  match word with
  | "if" =>
    advance
    let test ← conditionInParens g
    let yes ← g.statement
    let no ← if ← eatWord "else" then (do return [← g.statement]) else pure []
    finish .group start (test :: yes :: no)
  | "for" =>
    advance
    forStatement g start
  | "while" | "with" =>
    advance
    let test ← conditionInParens g
    let body ← g.statement
    finish .group start [test, body]
  | "do" =>
    advance
    let body ← g.statement
    expectWord "while"
    let test ← conditionInParens g
    let _ ← eatMark ";"
    finish .group start [body, test]
  | "switch" =>
    advance
    let value ← conditionInParens g
    expectMark "\x7b"
    let clauses ← collect do
      if ← isMark "\x7d" then return none else return some (← caseClause g)
    expectMark "\x7d"
    finish .group start (value :: clauses)
  | "try" =>
    advance
    tryStatement g start
  | "throw" =>
    advance
    leavingStatement g start true
  | "return" =>
    faultIf !(← get).around.inFunction
    advance
    leavingStatement g start false
  | "break" | "continue" =>
    advance
    if (← isVariable) && !(← onNewLine) then advance
    endStatement
    finish .group start []
  | "debugger" =>
    advance
    endStatement
    finish .group start []
  | "function" => declared (functionWithKeyword g false)
  | "class" => declared (classWithKeyword g)
  | "enum" => enumeration g start
  | "export" => exportStatement g
  | _ => expressionStatement g

/-- Whether a word that may also be a variable is followed, on the same line, by a further word. -/
def isFollowedByWord (words : List String) : Reader Bool := do
  if !(← isWordOf words) then return false
  aheadIs do
    advance
    return (← isVariable) && !(← onNewLine)

/-- A statement that may start with a word that is no word of the language. -/
def statementAtWord (g : Grammar) (word : String) : Reader Tree := do
  let start ← start
  if (← isWord "const") && (← aheadIs (do advance; isWord "enum")) then
    advance
    enumeration g start
  else if ← startsDeclaration then
    let tree ← declaration g
    endStatement
    return tree
  else if (← isWord "import") && !(← aheadIs (do advance; isMarkOf ["(", "."])) then importStatement
  else if isReservedWord word then statementWithKeyword g word
  else if ← aheadIs (do
      expectWord "async"
      return (← isWord "function") && !(← onNewLine)) then
    declared (functionWithKeyword g false)
  else if ← aheadIs (do
      expectWord "abstract"
      isWord "class") then
    declared (classWithKeyword g)
  else if ← aheadIs (do advance; isMark ":") then
    advance
    advance
    let body ← g.statement
    finish .group start [body]
  else if ← isFollowedByWord ["type"] then typeAlias g
  else if ← isFollowedByWord ["interface"] then interface g
  else if ← isFollowedByWord ["namespace", "module"] then namespaceBlock g
  else if ← aheadIs (do
      expectWord "declare"
      match ← token with
      | .word _ => return !(← onNewLine)
      | _ => return false) then
    advance
    g.statement
  else expressionStatement g

def statement (g : Grammar) : Reader Tree := do
  match ← token with
  | .mark "\x7b" => block g
  | .mark ";" => leaf .group
  | .mark "@" => declared (classWithKeyword g)
  | .word w => statementAtWord g w
  | _ => expressionStatement g

end JsxTemplate.Script.Reader
