import JsxTemplate.Position

/-!
# Diagnostics

What can be wrong with a template: a code with its wording, and the place where it was found.
-/

namespace JsxTemplate

inductive ErrorCode where
  /-- The template is not a well-formed expression. -/
  | parseError
  /-- The template is an expression, but neither an element nor a fragment. -/
  | unexpectedRoot
  | ifNoExpression
  | ifSameKey
  | elseNoAdjacentIf
  | forNoExpression
  /-- A loop whose expression is not of the form alias in source. -/
  | forMalformed
  | bindNoExpression
  | onNoExpression
  | showNoExpression
  | htmlNoExpression
  | htmlWithChildren
  | textNoExpression
  | textWithChildren
  | directiveOnSlotOutlet
  | mixedSlotUsage
  | duplicateSlotNames
  | extraneousDefaultSlotChildren
  /-- A slot on an element that is neither a component nor a template. -/
  | slotMisplaced
  | modelNoExpression
  | modelMalformed
  | modelOnScopeVariable
  | modelOnProps
  | modelOnInvalidElement
  | modelArgOnElement
  | modelOnFileInput
  | modelUnnecessaryValue
  deriving DecidableEq, Repr

namespace ErrorCode

def all : List ErrorCode :=
  [.parseError, .unexpectedRoot, .ifNoExpression, .ifSameKey, .elseNoAdjacentIf, .forNoExpression,
    .forMalformed, .bindNoExpression, .onNoExpression, .showNoExpression, .htmlNoExpression,
    .htmlWithChildren, .textNoExpression, .textWithChildren, .directiveOnSlotOutlet,
    .mixedSlotUsage, .duplicateSlotNames, .extraneousDefaultSlotChildren, .slotMisplaced,
    .modelNoExpression, .modelMalformed, .modelOnScopeVariable, .modelOnProps,
    .modelOnInvalidElement, .modelArgOnElement, .modelOnFileInput, .modelUnnecessaryValue]

/-- The name of a code, its number, of which the tens tell the family, and its wording. -/
def entry : ErrorCode → String × Nat × String
  | .parseError => ("JsxParseError", 0, "Failed to parse JSX template.")
  | .unexpectedRoot =>
    ("UnexpectedRoot", 1, "Template root must be a single JSX element or fragment.")
  | .ifNoExpression => ("VIfNoExpression", 10, "v-if/v-else-if is missing expression.")
  | .ifSameKey => ("VIfSameKey", 11, "v-if/else branches must use unique keys.")
  | .elseNoAdjacentIf =>
    ("VElseNoAdjacentIf", 12, "v-else/v-else-if has no adjacent v-if or v-else-if.")
  | .forNoExpression => ("VForNoExpression", 13, "v-for is missing expression.")
  | .forMalformed => ("VForMalformedExpression", 14, "v-for has invalid expression.")
  | .bindNoExpression => ("VBindNoExpression", 20, "v-bind is missing expression.")
  | .onNoExpression => ("VOnNoExpression", 21, "v-on is missing expression.")
  | .showNoExpression => ("VShowNoExpression", 22, "v-show is missing expression.")
  | .htmlNoExpression => ("VHtmlNoExpression", 23, "v-html is missing expression.")
  | .htmlWithChildren => ("VHtmlWithChildren", 24, "v-html will override element children.")
  | .textNoExpression => ("VTextNoExpression", 25, "v-text is missing expression.")
  | .textWithChildren => ("VTextWithChildren", 26, "v-text will override element children.")
  | .directiveOnSlotOutlet =>
    ("VSlotUnexpectedDirectiveOnSlotOutlet", 30, "Unexpected custom directive on <slot> outlet.")
  | .mixedSlotUsage =>
    ("VSlotMixedSlotUsage", 31,
      "Mixed v-slot usage on both the component and nested <template>. When there are multiple "
      ++ "named slots, all slots should use <template> syntax to avoid scope ambiguity.")
  | .duplicateSlotNames => ("VSlotDuplicateSlotNames", 32, "Duplicate slot names found.")
  | .extraneousDefaultSlotChildren =>
    ("VSlotExtraneousDefaultSlotChildren", 33,
      "Extraneous children found when component already has explicitly named default slot. "
      ++ "These children will be ignored.")
  | .slotMisplaced =>
    ("VSlotMisplaced", 34, "v-slot can only be used on components or <template> tags.")
  | .modelNoExpression => ("VModelNoExpression", 40, "v-model is missing expression.")
  | .modelMalformed =>
    ("VModelMalformedExpression", 41, "v-model value must be a valid JavaScript member expression.")
  | .modelOnScopeVariable =>
    ("VModelOnScopeVariable", 42,
      "v-model cannot be used on v-for or v-slot scope variables because they are not writable.")
  | .modelOnProps =>
    ("VModelOnProps", 43, "v-model cannot be used on a prop, because local prop bindings are not writable.")
  | .modelOnInvalidElement =>
    ("VModelOnInvalidElement", 44, "v-model can only be used on <input>, <textarea> and <select> elements.")
  | .modelArgOnElement =>
    ("VModelArgOnElement", 45, "v-model argument is not supported on plain elements.")
  | .modelOnFileInput =>
    ("VModelOnFileInputElement", 46,
      "v-model cannot be used on file inputs since they are read-only. Use a v-on:change "
      ++ "listener instead.")
  | .modelUnnecessaryValue =>
    ("VModelUnnecessaryValue", 47,
      "Unnecessary value binding used alongside v-model. It will interfere with v-model's "
      ++ "behavior.")

def name (c : ErrorCode) : String := c.entry.1

def number (c : ErrorCode) : Nat := c.entry.2.1

def message (c : ErrorCode) : String := c.entry.2.2

def ofName? (s : String) : Option ErrorCode :=
  all.find? fun code => code.name == s

end ErrorCode

structure Diagnostic where
  code : ErrorCode
  loc : Option Location
  deriving DecidableEq, Repr

def Diagnostic.message (d : Diagnostic) : String :=
  d.code.message

end JsxTemplate
