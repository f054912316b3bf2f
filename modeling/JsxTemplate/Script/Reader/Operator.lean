import JsxTemplate.Script.Reader.Operand

/-!
# Reading operators
-/

namespace JsxTemplate.Script.Reader

def operand (g : Grammar) : Reader Tree := do
  let start ← start
  match ← token with
  | .mark "+" | .mark "-" | .mark "~" | .mark "!" | .word "delete" | .word "typeof" | .word "void" =>
    advance
    let e ← g.operand
    finish .unary start [e]
  | .mark "++" | .mark "--" =>
    advance
    let e ← g.operand
    let place ← asSimpleTarget e
    finish .update start [place]
  | .mark "<" => g.element false
  | t =>
    if t == .word "await" && (← get).around.inAsync then
      advance
      let e ← g.operand
      finish .await start [e]
    else
      let e ← accessed g
      if (← isMarkOf ["++", "--"]) && !(← onNewLine) then
        let place ← asSimpleTarget e
        advance
        finish .update start [place]
      else return e

/-- Whether two operators without parentheses between them leave it open what is meant. -/
def isAmbiguous (op : String) (operands : List Tree) : Bool :=
  operands.any fun t =>
    match t.kind with
    | .logical inner => (op == "??") != (inner == "??")
    | _ => false

/-- One operator with its right side, if it binds at least as strongly as `least`. -/
def operatorStep (g : Grammar) (start least : Nat) (left : Tree) : Reader (Option Tree) := do
  if ← isMark ">" then reread readAngle
  let t ← token
  match strength? t with
  | none => return none
  | some strength =>
    if strength < least then return none
    match t with
    | .word "in" =>
      if !(← get).around.allowIn then return none
      advance
      let right ← g.operation (strength + 1)
      return some (← finish (.binary "in") start [left, right])
    | .word "instanceof" =>
      advance
      let right ← g.operation (strength + 1)
      return some (← finish (.binary "instanceof") start [left, right])
    | .mark op =>
      advance
      if op == "**" then
        faultIf (left.kind == .unary || left.kind == .await)
        let right ← g.operation strength
        return some (← finish (.binary op) start [left, right])
      else
        let right ← g.operation (strength + 1)
        if ["??", "||", "&&"].contains op then
          faultIf (isAmbiguous op [left, right])
          return some (← finish (.logical op) start [left, right])
        else return some (← finish (.binary op) start [left, right])
    | _ =>
      if ← onNewLine then return none
      advance
      let type ← g.type
      return some (← finish .typed start [left, type])

/-- Operands joined by operators that bind at least as strongly as `least`. -/
def operation (g : Grammar) (least : Nat) : Reader Tree := do
  let start ← start
  if (← token) == .privateWord then
    let name ← leaf .privateName
    if !(← isWord "in") || 8 < least || !(← get).around.allowIn then fail
    advance
    let right ← g.operation 9
    let first ← finish .privateIn start [name, right]
    iterate (operatorStep g start least) first
  else
    let first ← g.operand
    iterate (operatorStep g start least) first

def assignmentMarks : List String :=
  ["=", "+=", "-=", "*=", "/=", "%=", "**=", "<<=", ">>=", ">>>=", "&=", "|=", "^=", "&&=", "||=",
    "??="]

/-- A value that a generator hands out. -/
def yieldExpression (g : Grammar) (allowResult : Bool) : Reader Tree := do
  let start ← start
  advance
  let ends := (← onNewLine) || (← isMarkOf [")", "]", "\x7d", ",", ";", ":"])
    || (← isWord "in") || (← token) == .eof
  if ends then finish .yield start []
  else
    let _ ← eatMark "*"
    let e ← g.assignment allowResult
    finish .yield start [e]

/-- An expression without commas. -/
def assignment (g : Grammar) (allowResult : Bool) : Reader Tree := do
  let start ← start
  if (← isWord "yield") && (← get).around.inGenerator then yieldExpression g allowResult
  else
    match ← arrowFunction? g allowResult with
    | some tree => return tree
    | none =>
      if ← startsSimpleArrow then simpleArrow g allowResult
      else
        let left ← g.operation 1
        match ← token with
        | .mark "?" =>
          advance
          let yes ← within (fun a => { a with allowIn := true }) (g.assignment false)
          expectMark ":"
          let no ← g.assignment allowResult
          finish .conditional start [left, yes, no]
        | .mark op =>
          if assignmentMarks.contains op then
            let place ← if op == "=" then asTarget left else asSimpleTarget left
            advance
            let right ← g.assignment allowResult
            finish (.assignment op) start [place, right]
          else return left
        | _ => return left

/-- An expression, also with commas. -/
def expression (g : Grammar) : Reader Tree := do
  let start ← start
  let first ← g.assignment true
  if ← isMark "," then
    let rest ← collect do
      if ← eatMark "," then return some (← g.assignment true) else return none
    finish .sequence start (first :: rest)
  else return first

end JsxTemplate.Script.Reader
