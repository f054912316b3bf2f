import JsxTemplate.Script.Reader.Type

/-!
# Reading elements

The children of the node of an element are the variable in its tag, if the tag is one, then its
attributes, its own children, and the variable in its closing tag.
-/

namespace JsxTemplate.Script.Reader

/-- A name inside a tag, in which also dashes may stand. -/
def jsxName : Reader String := do
  match ← token with
  | .word _ =>
    let inName := fun c => continuesWord c || c == '-'
    reread fun cs o =>
      let name := cs.takeWhile inName
      some (.word (String.ofList name), ⟨cs.dropWhile inName, o + Text.byteLength name⟩)
    match ← token with
    | .word name =>
      advance
      return name
    | _ => fail
  | _ => fail

/-- Whether a tag names a variable: its name starts with neither a small letter of the basic alphabet
nor holds a dash. -/
def isVariableTag (name : String) : Bool :=
  !name.toList.head?.any Char.isLower && !name.toList.contains '-'

/-- The name of a tag, with the variable in it. -/
def tagName : Reader (String × List Tree) := do
  let start ← start
  let first ← jsxName
  let span : Span := ⟨start, (← get).lastStop⟩
  let tagVariable :=
    if first == "this" then Tree.node .this span [] else Tree.node (.reference first) span []
  if ← eatMark ":" then
    let second ← jsxName
    faultIf (← isMarkOf [".", ":"])
    return (first ++ ":" ++ second, [])
  else if ← isMark "." then
    faultIf (first.toList.contains '-')
    let parts ← collect do
      if ← eatMark "." then
        let part ← jsxName
        faultIf (part.toList.contains '-')
        return some part
      else return none
    faultIf (← isMark ":")
    return (".".intercalate (first :: parts), [tagVariable])
  else return (first, if isVariableTag first || first == "this" then [tagVariable] else [])

/-- An expression in braces. Commas must not join its parts, unless they stand in parentheses. -/
def contained (g : Grammar) : Reader Tree := do
  let e ← g.expression
  match e.kind with
  | .sequence => fault
  | _ => pure ()
  return e

/-- An expression in braces that is the value of an attribute. It must not be missing. -/
def attributeContainer (g : Grammar) : Reader Tree := do
  let start ← start
  expectMark "\x7b"
  let e ← contained g
  expectMark "\x7d"
  finish .jsxContainer start [e]

def jsxAttribute (g : Grammar) : Reader Tree := do
  let start ← start
  let name ← jsxName
  let arg ← if ← eatMark ":" then (do return some (← jsxName)) else pure none
  let nameStop := (← get).lastStop
  let value ← do
    if ← isMark "=" then
      advanceValue
      match ← token with
      | .string v => pure [← leaf (.jsxString v)]
      | .mark "\x7b" => pure [← attributeContainer g]
      | .mark "<" => pure [← g.element false]
      | _ => fail
    else pure []
  finish (.jsxAttribute name arg nameStop) start value

/-- An attribute or an object that is spread, if there is one. -/
def tagItem (g : Grammar) : Reader (Option Tree) := do
  if ← isMarkOf [">", "/"] then return none
  let start ← start
  if ← eatMark "\x7b" then
    expectMark "..."
    let e ← contained g
    expectMark "\x7d"
    return some (← finish .jsxSpread start [e])
  else return some (← jsxAttribute g)

/-- Go past the last mark of a tag, on to what may stand behind it. -/
def endTag (inChild : Bool) : Reader Unit := do
  unless ← isMark ">" do fail
  if inChild then advanceChild else advance

/-- Go past the brace behind an expression between tags. -/
def endContainer : Reader Unit := do
  unless ← isMark "\x7d" do fail
  advanceChild

/-- A child of an element, if there is one. -/
def jsxChild (g : Grammar) : Reader (Option Tree) := do
  let start ← start
  match ← token with
  | .jsxText text =>
    advanceChild
    return some (← finish (.jsxText text) start [])
  | .mark "\x7b" =>
    advance
    if ← eatMark "..." then
      let e ← contained g
      endContainer
      return some (← finish .jsxSpreadChild start [e])
    else if ← isMark "\x7d" then
      endContainer
      return some (← finish .jsxContainer start [])
    else
      let e ← contained g
      endContainer
      return some (← finish .jsxContainer start [e])
  | .mark "<" =>
    if ← aheadIs (do advance; isMark "/") then return none
    else return some (← g.element true)
  | _ => fail

def element (g : Grammar) (inChild : Bool) : Reader Tree := do
  let start ← start
  expectMark "<"
  if ← isMark ">" then
    advanceChild
    let children ← collect (jsxChild g)
    expectMark "<"
    expectMark "/"
    endTag inChild
    finish .jsxFragment start children
  else
    let (tag, tagVariable) ← tagName
    let types ← if ← isMarkOf ["<", "<<"] then (do return [← typeArguments g]) else pure []
    let items ← collect (tagItem g)
    if ← eatMark "/" then
      endTag inChild
      finish (.jsxElement tag true) start (tagVariable ++ types ++ items)
    else
      endTag true
      let children ← collect (jsxChild g)
      expectMark "<"
      expectMark "/"
      let (closing, closingVariable) ← tagName
      faultIf (closing != tag)
      endTag inChild
      finish (.jsxElement tag false) start
        (tagVariable ++ types ++ items ++ children ++ closingVariable)

end JsxTemplate.Script.Reader
