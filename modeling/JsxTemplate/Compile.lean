import JsxTemplate.Code
import JsxTemplate.Lowering
import JsxTemplate.Template.Reader

/-!
# Compiling templates

A template is read, lowered to a rendering plan, and turned into code. Mistakes are gathered on the way,
or the first one ends it.
-/

namespace JsxTemplate

structure CompileOptions where
  filename : String
  runtimeModule : String
  sourceMap : Bool
  /-- Whether components are made by the helper that can fall back on an element. -/
  withFallback : Bool
  /-- Whether comparisons with the key of a loop are treated specially. -/
  optimizeLoops : Bool
  collectErrors : Bool
  isCustomElement : String → Bool

namespace CompileOptions

def reading (o : CompileOptions) : Template.ReadOptions := ⟨o.isCustomElement⟩

def lowering (o : CompileOptions) : LoweringOptions := ⟨o.collectErrors, o.isCustomElement⟩

def emitting (o : CompileOptions) : EmitOptions := ⟨o.withFallback, o.optimizeLoops⟩

end CompileOptions

structure Compilation where
  code : String
  preamble : String
  templates : List String
  /-- The piece of markup that is all that is rendered, if there is a single one. -/
  rootTemplate : Option Nat
  helpers : List String
  delegatedEvents : List String
  sourceMap : Option SourceMap
  errors : List Diagnostic
  deriving DecidableEq, Repr

def RenderPlan.sourceMap (options : CompileOptions) (plan : RenderPlan) (code : Code) :
    Except Text.CutFault (Option SourceMap) :=
  if options.sourceMap then
    (SourceMap.ofMappings options.filename plan.source code.mappings).map some
  else .ok none

def RenderPlan.compile (options : CompileOptions) (plan : RenderPlan) (errors : List Diagnostic) :
    Except Text.CutFault Compilation :=
  let generated := plan.generate options.emitting options.runtimeModule
  (plan.sourceMap options generated.code).map fun sourceMap =>
    { code := generated.code.render
      preamble := generated.preamble
      templates := plan.templates
      rootTemplate := match plan.rootTemplates with
        | [index] => some index
        | _ => none
      helpers := generated.helpers
      delegatedEvents := generated.delegatedEvents
      sourceMap
      errors }

inductive Failure where
  | mistake (d : Diagnostic)
  /-- A piece could not be cut out of the template. -/
  | cut (fault : Text.CutFault)
  deriving DecidableEq, Repr

structure CompileResult where
  outcome : Except Failure Compilation
  reported : List Diagnostic
  remarks : List String

def Template.compile (options : CompileOptions) (extensions : Extensions) (t : Template) :
    CompileResult :=
  let lowered := t.lower options.lowering extensions
  { outcome :=
      match lowered.fault, options.collectErrors, lowered.errors with
      | some fault, _, _ => .error (.cut fault)
      | none, false, error :: _ => .error (.mistake error)
      | none, _, errors => (lowered.finish.compile options errors).mapError .cut
    reported := lowered.errors
    remarks := lowered.remarks }

def Compilation.addErrors (errors : List Diagnostic) (c : Compilation) : Compilation :=
  { c with errors := errors ++ c.errors }

def compile (options : CompileOptions) (extensions : Extensions) (source : String) : CompileResult :=
  let (template, errors) := Template.read options.reading source
  match options.collectErrors, errors with
  | false, error :: _ => ⟨.error (.mistake error), errors, []⟩
  | _, _ =>
    let result := template.compile options extensions
    { result with
      outcome := result.outcome.map (Compilation.addErrors errors)
      reported := errors ++ result.reported }

end JsxTemplate
