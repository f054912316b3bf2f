import JsxTemplate.Diagnostic
import JsxTemplate.Script.Reader
import JsxTemplate.Template.Directive
import JsxTemplate.Template.Whitespace

/-!
# Reading templates

A template is a script that is one element or one fragment. Its element tree keeps the expressions as
pieces of the source. Fragments inside other nodes leave only their children, and comments in braces
leave nothing.
-/

namespace JsxTemplate

namespace Template

open Script

/-- What is needed to read a template besides its source. -/
structure ReadOptions where
  isCustomElement : String → Bool

def ReadOptions.tagType (options : ReadOptions) (tag : String) : TagType :=
  if tag == "template" then .template
  else if isComponentTag tag && !options.isCustomElement tag then .component
  else .element

variable (options : ReadOptions) (table : LineTable)

def locate (span : Span) : Location :=
  table.location span.start span.stop

def expressionAt (span : Span) : Expression :=
  let loc := locate table span
  ⟨loc.text, false, loc⟩

def attributeValue (value : Tree) : Expression :=
  match value with
  | .node (.jsxString text) span _ => ⟨text, true, locate table span⟩
  | .node .jsxContainer _ [e] => expressionAt table e.span
  | other => expressionAt table other.span

/-- The item of an opening tag, if the part of an element is one. -/
def tagItem? (part : Tree) : Option TagItem :=
  match part with
  | .node (.jsxAttribute name arg nameStop) span value =>
    some <| .attribute
      { name, arg
        nameLoc := locate table ⟨span.start, nameStop⟩
        value := value.head?.map (attributeValue table)
        loc := locate table span }
  | .node .jsxSpread span [e] => some (.spread (expressionAt table e.span) (locate table span))
  | _ => none

def tagOf (name : String) (selfClosing : Bool) (span : Span) (parts : List Tree) : Tag :=
  { name
    type := options.tagType name
    items := parts.filterMap (tagItem? table)
    selfClosing
    loc := locate table span }

/-- Character data, if anything is left of it. -/
def textNode? (text : String) (span : Span) : List Node :=
  let content := cleanText text
  if content.isEmpty then [] else [.text content (locate table span)]

mutual

/-- The children among the parts of an element or a fragment. -/
def childrenOf : List Tree → List Node
  | [] => []
  | .node (.jsxText text) span _ :: ts => textNode? table text span ++ childrenOf ts
  | .node (.jsxElement name selfClosing) span parts :: ts =>
    .element (tagOf options table name selfClosing span parts) (childrenOf parts) :: childrenOf ts
  | .node .jsxFragment _ parts :: ts => childrenOf parts ++ childrenOf ts
  | .node .jsxContainer span [e] :: ts =>
    .expression (expressionAt table e.span) (rootsIn e) (locate table span) :: childrenOf ts
  | .node .jsxSpreadChild span [e] :: ts =>
    .expression (expressionAt table e.span) (rootsIn e) (locate table span) :: childrenOf ts
  | _ :: ts => childrenOf ts

/-- The outermost elements and fragments in an expression, each as a fragment. -/
def rootsIn : Tree → List Node
  | .node (.jsxElement name selfClosing) span parts =>
    [.fragment [.element (tagOf options table name selfClosing span parts) (childrenOf parts)]
      (locate table span)]
  | .node .jsxFragment span parts => [.fragment (childrenOf parts) (locate table span)]
  | .node _ _ cs => rootsInAll cs

def rootsInAll : List Tree → List Node
  | [] => []
  | t :: ts => rootsIn t ++ rootsInAll ts

end

def withoutParens : Tree → Tree
  | .node .paren _ (inner :: _) => withoutParens inner
  | t => t

/-- Read a template. A source that is no element and no fragment gives an empty template. -/
def read (source : String) : Template × List Diagnostic :=
  let table := LineTable.ofSource source
  let template := fun children => Template.mk source children (table.location 0 source.utf8ByteSize)
  match (readExpression source).map withoutParens with
  | none => (template [], [⟨.parseError, none⟩])
  | some tree =>
    match tree with
    | .node (.jsxElement _ _) _ _ => (template (childrenOf options table [tree]), [])
    | .node .jsxFragment _ parts => (template (childrenOf options table parts), [])
    | other => (template [], [⟨.unexpectedRoot, some (locate table other.span)⟩])

end Template

end JsxTemplate
