import JsxTemplate.Expression
import JsxTemplate.Script.Reader

/-!
# The head of a loop

A loop is written as `(value, key, index) in source`, where the parentheses, and all names but the
first, may be missing, and `of` may stand for `in`. The names are patterns as in the parameters of a
function.
-/

namespace JsxTemplate

structure LoopHead where
  source : Expression
  value : Option Expression
  key : Option Expression
  index : Option Expression
  deriving DecidableEq, Repr, Inhabited

namespace LoopHead

def isGap (c : Char) : Bool :=
  c == ' ' || c == '\t' || c == '\n' || c == '\r' || c == '\x0c'

/-- Whether a text starts with the word of a loop, and what is behind the word. -/
def afterWord? : List Char → Option (List Char)
  | 'i' :: 'n' :: cs => some cs
  | 'o' :: 'f' :: cs => some cs
  | _ => none

/-- Where the names of a loop end and its source starts: on the two sides of the first `in` or `of`
that has blanks around it and something behind them. -/
def split? : List Char → Nat → Option (Nat × Nat)
  | [], _ => none
  | c :: cs, o =>
    let found :=
      if isGap c then
        let gap := (c :: cs).takeWhile isGap
        (afterWord? ((c :: cs).dropWhile isGap)).bind fun behind =>
          let gap' := behind.takeWhile isGap
          if gap'.isEmpty || (behind.dropWhile isGap).isEmpty then none
          else some (o, o + gap.length + 2 + gap'.length)
      else none
    found.or (split? cs (o + c.utf8Size))

/-- Whether a range cannot be given for the names of a loop because they are only blanks, of a kind that
is no gap: trimmed on the left they start at their end, and trimmed on the right they stop at their
start. -/
def isInverted (names : List Char) : Bool :=
  !names.isEmpty && names.all Text.isBlank

/-- The characters between the parentheses around the names of a loop, either of which may be missing,
and how many bytes stand before them. -/
def insideParens (names : List Char) : List Char × Nat :=
  let before := Text.byteLength (names.takeWhile Text.isBlank)
  let core := Text.trimRight (Text.trimLeft names)
  let (core, before) :=
    match core with
    | '(' :: cs => (cs, before + 1)
    | cs => (cs, before)
  if core.getLast? == some ')' then (core.dropLast, before) else (core, before)

/-- The patterns of some parameters, given by the range of each in the script that wraps them as the
parameters of a function. -/
def parameterSpans? (wrapped : String) : Option (List Script.Span) :=
  (Script.readWhole wrapped).bind fun tree =>
    match tree with
    | .node .arrow _ parts =>
      some <| (parts.find? fun p => p.kind == .params).toList.flatMap fun params =>
        params.children.filterMap fun p =>
          match p with
          | .node .param _ (pattern :: _) => some pattern.span
          | _ => none
    | _ => none

/-- The script of a function with the given parameters. -/
def wrap (params : String) : String :=
  "(" ++ params ++ ") => 0"

/-- The head of a loop with the given names and with its source from `sourceStart` on. -/
def ofParts? (e : Expression) (names : List Char) (sourceStart : Nat) : Option LoopHead := do
  let sourceStop := Text.byteLength (Text.trimRight e.content.toList)
  let source := e.sub sourceStart sourceStop
  let (inner, before) := insideParens names
  if inner.all Text.isBlank then return ⟨source, none, none, none⟩
  let spans ← parameterSpans? (wrap (String.ofList inner))
  let names := spans.map fun span => e.sub (before + span.start - 1) (before + span.stop - 1)
  return ⟨source, names[0]?, names[1]?, names[2]?⟩

def ofExpression (e : Expression) : Except Text.CutFault (Option LoopHead) :=
  match split? e.content.toList 0 with
  | none => .ok none
  | some (namesStop, sourceStart) =>
    let names := (Text.slice e.content 0 namesStop).toList
    if isInverted names then .error .inverted else .ok (ofParts? e names sourceStart)

end LoopHead

end JsxTemplate
