import AlertAudit.Template.Outline

/-!
What a template reads from its alert. Rendering starts with the alert as the dot and with a few
variables; `Denotation` is what the dot, a variable or a pipeline stands for as far as that can be
told, so `$labels.job`, `.Labels.job`, `$l.job` after `$l := $labels` and `index $labels "job"` all
read the label `job`, and `$v := $value` makes `$v` another name for the sample value. Binding the
sample value to a variable is no read of it; the uses of the variable are.
-/

set_option autoImplicit false

namespace AlertAudit.Template

open AlertAudit.Text

/-- A name that a template mentions, with the place and the number of line breaks before it. -/
structure Mention where
  name : String
  span : Span
  line : Nat
  deriving DecidableEq, Repr

/-- A read of the sample value. The chain starts with the name that was read and goes through the
names it stands for. -/
structure ValueRead extends Mention where
  chain : List String
  deriving DecidableEq, Repr

/-- What a template reads and calls, in the order of discovery. -/
structure Reads where
  labels : List Mention := []
  values : List ValueRead := []
  calls : List Mention := []
  deriving DecidableEq, Repr

/-- The first read of the value under each name. -/
def Reads.distinctValues (r : Reads) : List ValueRead :=
  r.values.foldl (fun seen v ↦ if seen.any (·.name = v.name) then seen else seen ++ [v]) []

/-- What something stands for. -/
inductive Denotation where
  /-- The alert, which has labels and a value. -/
  | alert
  | labels
  /-- The sample value, through the given names. -/
  | value (chain : List String)
  | unknown
  deriving DecidableEq, Repr

/-- Whether this is the sample value. -/
def Denotation.isValue : Denotation → Bool
  | .value _ => true
  | _ => false

namespace Reading

/-- What is known at a place of a template. -/
structure State where
  text : List Char
  reads : Reads := {}
  /-- What the variables in scope stand for, the innermost first. -/
  scope : List (String × Denotation)
  dot : Denotation

/-- At the start of an alert template. -/
def State.start (text : String) : State where
  text := text.toList
  scope := [("$value", .value []), ("$externalURL", .unknown), ("$externalLabels", .unknown),
    ("$labels", .labels), ("$", .alert)]
  dot := .alert

end Reading

/-- A step through a template. -/
abbrev Reading (α : Type) := StateM Reading.State α

namespace Reading

def mention (name : String) (span : Span) : Reading Mention :=
  return ⟨name, span, lineAt (← get).text span.start⟩

def readLabel (name : String) (span : Span) : Reading Unit := do
  let m ← mention name span
  modify fun s ↦ { s with reads.labels := s.reads.labels ++ [m] }

def readValue (chain : List String) (span : Span) : Reading Unit := do
  let m ← mention (chain.headD "") span
  modify fun s ↦ { s with reads.values := s.reads.values ++ [⟨m, chain⟩] }

def callFunction (name : Token) : Reading Unit := do
  let m ← mention name.text name.span
  modify fun s ↦ { s with reads.calls := s.reads.calls ++ [m] }

def lookup (name : String) : Reading Denotation :=
  return ((← get).scope.lookup name).getD .unknown

/-- The name of a field, without its dot. -/
def fieldName (t : Token) : String := String.ofList (t.text.toList.dropWhile (· = '.'))

/-- Follows one field of the operand at `span`. -/
def applyField (span : Span) (base : Denotation) (field : Token) : Reading Denotation := do
  let name := fieldName field
  match base with
  | .alert =>
    if name = "Labels" then return .labels
    else if name = "Value" then return .value [String.ofList (span.slice (← get).text)]
    else return .unknown
  | .labels =>
    readLabel name field.span
    return .unknown
  | _ => return .unknown

/-- Follows fields one after the other. -/
def applyFields (span : Span) : Denotation → List Token → Reading Denotation
  | base, [] => return base
  | base, f :: fs => do applyFields span (← applyField span base f) fs

/-- A lookup of a label by name: `index`, the labels and a string. -/
def indexedLabel? : List Operand → List Denotation → Option (String × Span)
  | .mk (.function (some name)) _ _ :: _ :: .mk (.literal (some key)) span _ :: _,
    _ :: .labels :: _ =>
    if name.text = "index" then key.stringValue?.map (·, span) else none
  | _, _ => none

/-- What a command stands for, by what its operands stand for. -/
def commandResult (operands : List Operand) (values : List Denotation) : Reading Denotation := do
  match indexedLabel? operands values, values with
  | some (name, span), _ =>
    readLabel name span
    return .unknown
  | none, [single] => return single
  | none, _ => return .unknown

/-- What a pipeline stands for, by what its commands stand for: filters keep a value a value. -/
def pipelineResult : List Denotation → Denotation
  | [] => .unknown
  | [single] => single
  | first :: _ => if first.isValue then first else .unknown

/-- Changes what the innermost variable of a name stands for; `none` if there is no such name. -/
def rebind? (name : String) (d : Denotation) :
    List (String × Denotation) → Option (List (String × Denotation))
  | [] => none
  | (n, old) :: scope =>
    if n = name then some ((n, d) :: scope) else ((rebind? name d scope).map ((n, old) :: ·))

/-- Binds variables to the result of a pipeline. Loop variables hold elements of it. `valuesBefore`
is the number of value reads in front of the pipeline. -/
def bind (decl : Decl) (inRange : Bool) (valuesBefore : Nat) (result : Denotation) :
    Reading Unit :=
  modify fun s ↦
    match inRange, decl.names with
    | false, [name] =>
      let reads := if result.isValue then
          { s.reads with values := s.reads.values.take valuesBefore }
        else s.reads
      let pushed := (name.text, result) :: s.scope
      let scope := if decl.isAssign then (rebind? name.text result s.scope).getD pushed
        else pushed
      { s with reads, scope }
    | _, names =>
      { s with scope := (names.map fun v ↦ (v.text, Denotation.unknown)).reverse ++ s.scope }

/-- What a term without its fields stands for; `none` for one that has no fields to follow. -/
def termResult : Term → Reading (Option Denotation)
  | .dot | .field => return some (← get).dot
  | .variable (some name) => do
    match ← lookup name.text with
    | .value chain => return some (.value (name.text :: chain))
    | d => return some d
  | .function name => do
    if let some name := name then callFunction name
    return none
  | _ => return none

/-- Whether a term is the dot or a name, so that a value it holds is read right here. -/
def isDirect : Term → Bool
  | .dot | .field | .variable _ => true
  | _ => false

/-- Follows the fields of an operand and records a read of the sample value. -/
def finishOperand (term : Term) (span : Span) (fields : List Token) (base : Denotation) :
    Reading Denotation := do
  let d ← applyFields span base fields
  if let .value chain := d then
    if isDirect term then readValue chain span
  return d

mutual

def operand : Operand → Reading Denotation
  | .mk (.paren none) span fields => finishOperand (.paren none) span fields .unknown
  | .mk (.paren (some p)) span fields => do
    let base ← pipeline p false
    finishOperand (.paren none) span fields base
  | .mk term span fields => do
    match ← termResult term with
    | some base => finishOperand term span fields base
    | none => return .unknown

def operands : List Operand → Reading (List Denotation)
  | [] => return []
  | o :: os => do
    let d ← operand o
    let ds ← operands os
    return d :: ds

def commands : List (List Operand) → Reading (List Denotation)
  | [] => return []
  | c :: cs => do
    let values ← operands c
    let d ← commandResult c values
    let ds ← commands cs
    return d :: ds

/-- Reads a pipeline and binds its variables. -/
def pipeline : Pipeline → Bool → Reading Denotation
  | .mk decl cs, inRange => do
    let valuesBefore := (← get).reads.values.length
    let ds ← commands cs
    let result := pipelineResult ds
    if let some decl := decl then bind decl inRange valuesBefore result
    return result

end

/-- Reads a pipeline that may be missing. -/
def pipelineOf (p : Option Pipeline) (inRange : Bool) : Reading Denotation :=
  match p with
  | some p => pipeline p inRange
  | none => return .unknown

/-- Runs a step, after which the variables in scope are as many as before. -/
def keepingScope (step : Reading Unit) : Reading Unit := do
  let depth := (← get).scope.length
  step
  modify fun s ↦ { s with scope := s.scope.drop (s.scope.length - depth) }

def withDot (dot : Denotation) (step : Reading Unit) : Reading Unit := do
  let outer := (← get).dot
  modify ({ · with dot })
  step
  modify ({ · with dot := outer })

/-- Runs a step as the body of a template of its own, which is rendered with any dot. -/
def isolated (step : Reading Unit) : Reading Unit := do
  let outer ← get
  modify ({ · with scope := [("$", .unknown)], dot := .unknown })
  step
  modify ({ · with scope := outer.scope, dot := outer.dot })

mutual

def item : Item → Reading Unit
  | .action _ p => do
    let _ ← pipelineOf p false
  | .control kind _ p b o => keepingScope do
    let d ← pipelineOf p (kind = .rangeBlock)
    match kind with
    | .ifBlock => body b
    | .withBlock => withDot d (body b)
    | .rangeBlock => withDot .unknown (body b)
    otherwise o
  | .define _ _ b => isolated (body b)
  | .block _ _ p b => do
    let _ ← pipelineOf p false
    isolated (body b)
  | .call _ _ p => do
    let _ ← pipelineOf p false

/-- Reads the items of a block. -/
def body : Body → Reading Unit
  | .missing => return
  | .items is => items is

def items : List Item → Reading Unit
  | [] => return
  | i :: is => do
    item i
    items is

/-- Reads an else branch. -/
def otherwise : Otherwise → Reading Unit
  | .none => return
  | .nested i => item i
  | .body b => body b

end

end Reading

/-- What a template reads, or why it is rejected. -/
def Reads.ofText (text : String) : Except ParseError Reads :=
  let parse := Parse.ofText text
  match parse.error with
  | some e => .error e
  | none => .ok (Reading.items parse.tree.items (.start text)).2.reads

end AlertAudit.Template
