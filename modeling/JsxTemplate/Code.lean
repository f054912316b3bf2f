import JsxTemplate.Code.Block
import JsxTemplate.Code.SourceMap

/-!
# From rendering plans to code

The code of a template is an expression that renders it. Before it stands a preamble, which imports the
helpers, makes the pieces of markup, and registers the events that are caught at the document.
-/

namespace JsxTemplate

structure GeneratedCode where
  listing : Listing
  preamble : String
  /-- The helpers that are imported, in the order of their first use. -/
  helpers : List String
  /-- The events that are caught at the document, in alphabetical order. -/
  delegatedEvents : List String

def GeneratedCode.code (g : GeneratedCode) : Code := g.listing.code

namespace Emit

def renderExpression (block : Block) : Emit Listing := do
  let body ← Listing.blockBody true block
  return [.text "(", .function [] body, .text ")()"]

/-- The statement that makes a piece of markup; `root` says that it is all that is rendered. -/
def templateStatement (index : Nat) (markup : String) (root : Bool) : Emit String := do
  let name ← helper "template"
  return "const t" ++ toString index ++ " = " ++ name ++ "(" ++ Text.quote markup
    ++ (if root then ", true" else "") ++ ")\n"

def eventStatement (event : String) : Emit String := do
  let name ← helper "delegateEvents"
  return name ++ "(" ++ Text.quote event ++ ")\n"

def moduleStatements (plan : RenderPlan) : Emit String := do
  let templates ← plan.templates.zipIdx.mapM fun (markup, index) =>
    templateStatement index markup (plan.rootTemplates.contains index)
  let events ← (← get).sortedDelegates.mapM eventStatement
  return String.join (templates ++ events)

end Emit

def importStatement (library : String) (helpers : List String) : String :=
  if helpers.isEmpty then ""
  else
    let names := ", ".intercalate (helpers.map fun name => name ++ " as _" ++ name)
    "import \x7b " ++ names ++ " \x7d from '" ++ library ++ "';\n"

def RenderPlan.generate (options : EmitOptions) (library : String) (plan : RenderPlan) :
    GeneratedCode :=
  let (listing, s) := Emit.renderExpression plan.block (.ofPlan options plan)
  let (statements, s) := Emit.moduleStatements plan s
  { listing
    preamble := importStatement library s.helpers ++ statements
    helpers := s.helpers
    delegatedEvents := s.sortedDelegates }

end JsxTemplate
