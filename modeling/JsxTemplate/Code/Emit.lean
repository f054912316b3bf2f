import JsxTemplate.Code.Listing

/-!
# The state of code generation

While code is made from a plan, the helpers that it needs are gathered, and the variables of loops and
slots are given other names inside their blocks.
-/

namespace JsxTemplate

/-- What stands for variables: a piece of code, or the variable itself where it hides an outer one. The
innermost ones come first. -/
abbrev Renaming := List (String × Option String)

namespace Renaming

def find? (r : Renaming) (name : String) : Option (Option String) :=
  (List.find? (fun entry => entry.1 == name) r).map Prod.snd

def push (r : Renaming) (entries : List (String × Option String)) : Renaming :=
  entries.reverse ++ r

def popOne (r : Renaming) (name : String) : Renaming :=
  r.eraseP fun entry => entry.1 == name

def pop (r : Renaming) (names : List String) : Renaming :=
  names.foldl popOne r

end Renaming

structure EmitOptions where
  withFallback : Bool
  optimizeLoops : Bool
  deriving Repr, Inhabited

structure Emitter where
  options : EmitOptions
  hasReference : Bool
  helpers : List String
  delegates : List String
  names : Renaming
  /-- How many loops and slots with variables of their own are around. -/
  depth : Nat
  /-- The blocks around, the innermost first, each with the number of its next temporary variable. -/
  blocks : List (Block × Nat)

abbrev Emit := StateM Emitter

def Emitter.ofPlan (options : EmitOptions) (plan : RenderPlan) : Emitter :=
  { options
    hasReference := plan.hasReference
    helpers := []
    delegates := []
    names := []
    depth := 0
    blocks := [] }

def Emitter.sortedDelegates (s : Emitter) : List String :=
  s.delegates.mergeSort fun a b => a ≤ b

namespace Emit

def helper (name : String) : Emit String := do
  modify fun s => if s.helpers.contains name then s else { s with helpers := s.helpers ++ [name] }
  return "_" ++ name

def delegate (event : String) : Emit Unit :=
  modify fun s =>
    if s.delegates.contains event then s else { s with delegates := s.delegates ++ [event] }

def names : Emit Renaming := do return (← get).names

def pushNames (entries : List (String × Option String)) : Emit Unit :=
  modify fun s => { s with names := s.names.push entries }

def popNames (names : List String) : Emit Unit :=
  modify fun s => { s with names := s.names.pop names }

/-- Give names other meanings while something is written. -/
def withNames {α : Type} (entries : List (String × Option String)) (write : Emit α) : Emit α := do
  pushNames entries
  let written ← write
  popNames (entries.map Prod.fst)
  return written

/-- Enter a loop or a slot. The result is the number of those around it. -/
def enterScope : Emit Nat := do
  let s ← get
  set { s with depth := s.depth + 1 }
  return s.depth

def exitScope : Emit Unit :=
  modify fun s => { s with depth := s.depth - 1 }

def enterBlock (block : Block) : Emit Unit :=
  modify fun s => { s with blocks := (block, 0) :: s.blocks }

def exitBlock : Emit Unit :=
  modify fun s => { s with blocks := s.blocks.tail }

def currentBlock : Emit (Option Block) := do
  return (← get).blocks.head?.map Prod.fst

def temporary : Emit Nat := do
  let s ← get
  match s.blocks with
  | [] => return 0
  | (block, next) :: blocks =>
    set { s with blocks := (block, next + 1) :: blocks }
    return next

def callHelper (name : String) (args : List (Option Code)) : Emit Code := do
  let name ← helper name
  return Code.call name args

/-- A call of a helper with arguments that hold variables or functions. -/
def callWith (name : String) (args : List (Option Listing)) : Emit Listing := do
  let name ← helper name
  return Listing.call name args

def statement (name : String) (args : List (Option Listing)) : Emit Listing := do
  let call ← callWith name args
  return .newline :: call

end Emit

end JsxTemplate
