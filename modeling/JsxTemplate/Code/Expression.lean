import JsxTemplate.Code.Emit
import JsxTemplate.Script.Constant
import JsxTemplate.Script.Reference

/-!
# Expressions

An expression is written as it stands in the template, except that the variables of loops and slots are
replaced by what stands for them.
-/

namespace JsxTemplate.Expression

open Script (Reference)

/-- A piece of an expression, from one byte up to another, as it is. -/
def piece (e : Expression) (start stop : Nat) : Fragment :=
  .mapped (Text.slice e.content start stop) (e.subLocation start stop) none

/-- What is written for a reference to a variable. A name that stands alone for a property keeps the
name of the property. -/
def replaced (e : Expression) (r : Reference) (replacement : String) : Fragment :=
  let text := if r.shorthand then r.name ++ ": " ++ replacement else replacement
  .mapped text (e.subLocation r.start r.stop) (some r.name)

/-- The piece of an expression from `last` up to `stop` with references replaced, and how many of them
were. References that start before `start` or end behind `stop` do not count. -/
def substituteFrom (names : Renaming) (e : Expression) (start stop : Nat) (last : Nat) :
    List Reference → Code × Nat
  | [] => (if last < stop then [e.piece last stop] else [], 0)
  | r :: rs =>
    if r.start < start || stop < r.stop then substituteFrom names e start stop last rs
    else
      match names.find? r.name with
      | some (some replacement) =>
        let before := if last < r.start then [e.piece last r.start] else []
        let (code, count) := substituteFrom names e start stop r.stop rs
        (before ++ e.replaced r replacement :: code, count + 1)
      | _ => substituteFrom names e start stop last rs

def substitute (names : Renaming) (e : Expression) (references : List Reference) (start stop : Nat) :
    Code × Nat :=
  substituteFrom names e start stop start references

def substituted? (names : Renaming) (e : Expression) : Option Code :=
  if e.isEmpty || names.isEmpty || e.isConstant then none
  else
    (Script.references? e.content).bind fun references =>
      let (code, count) := e.substitute names references 0 e.content.utf8ByteSize
      if count == 0 then none else some code

/-- The code of an expression. A plain string becomes a literal. -/
def code (names : Renaming) (e : Expression) : Code :=
  if e.isStatic then [.mapped (Text.quote e.content) e.loc none]
  else (e.substituted? names).getD [.mapped e.content e.loc none]

def assignment (names : Renaming) (e : Expression) (value : String) : Code :=
  if e.isStatic then e.code names else e.code names ++ [.code (" = " ++ value)]

end JsxTemplate.Expression

namespace JsxTemplate.Emit

def expression (e : Expression) : Emit Code := do return e.code (← names)

def expression? : Option Expression → Emit (Option Code)
  | none => return none
  | some e => do return some (← expression e)

end JsxTemplate.Emit
