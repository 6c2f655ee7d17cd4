import AlertAudit.Template.Reads

/-!
Paths through a template: every `if` and `with` goes through its list or its else branch, and every
`range` through its list any number of times or through its else branch. The declarations and
assignments along a path say which variables hold the sample value, and where such a variable is
used.

A reading of a template goes through all of its text once and does not know paths. `Tracking` says
how far a path takes that into account: `pathOnly` is the plain meaning, and by `cautious` the text
that a path leaves out spoils the variables that it binds.
-/

set_option autoImplicit false

namespace AlertAudit.Template.Path

open AlertAudit.Text

/-- What the dot or a variable holds, as far as the sample value is concerned. -/
inductive Holding where
  | alert
  | value
  | other
  deriving DecidableEq, Repr

/-- The variables in scope and what they hold, the innermost first. -/
abbrev Scope := List (String × Holding)

/-- What is known at a place of a path. -/
structure State where
  scope : Scope
  dot : Holding
  /-- The operands so far that are a variable which holds the sample value, without fields and not
  in a declaration. -/
  uses : List Span

/-- At the start of an alert template. -/
def State.start : State where
  scope := [("$value", .value), ("$externalURL", .other), ("$externalLabels", .other),
    ("$labels", .other), ("$", .alert)]
  dot := .alert
  uses := []

/-- What counts on a path. -/
inductive Tracking where
  /-- Only what is met on the path. -/
  | pathOnly
  /-- Also the text that the path leaves out: its declarations and assignments bind variables to
  something else than the sample value. In the second and later rounds of a loop a variable holds
  the value only if it also did in front of the first. The variables in the header of a loop are
  declared there even if they exist. -/
  | cautious

/-! ### Scope -/

/-- Changes what the innermost variable of a name holds; `none` if there is no such name. -/
def assign? (name : String) (h : Holding) : Scope → Option Scope
  | [] => none
  | (n, old) :: vs =>
    if n = name then some ((n, h) :: vs) else ((assign? name h vs).map ((n, old) :: ·))

/-- Makes variables that exist hold something else. -/
def forget (names : List Token) (vs : Scope) : Scope :=
  names.foldl (fun vs name ↦ (assign? name.text .other vs).getD vs) vs

/-- Declares variables that hold something else. -/
def declare (names : List Token) (vs : Scope) : Scope :=
  (names.map fun name ↦ (name.text, Holding.other)).reverse ++ vs

/-- Binds the variables of a loop to its elements, or several variables at once. -/
def bindElements (t : Tracking) (decl : Decl) (vs : Scope) : Scope :=
  if decl.isAssign then
    match t with
    | .pathOnly => forget decl.names vs
    | .cautious => declare decl.names (forget decl.names vs)
  else declare decl.names vs

/-- The variables behind a pipeline that holds `h`. -/
def bind (t : Tracking) (decl : Decl) (inRange : Bool) (h : Holding) (vs : Scope) : Scope :=
  match inRange, decl.names with
  | false, [name] =>
    let declared := (name.text, h) :: vs
    if decl.isAssign then (assign? name.text h vs).getD declared else declared
  | _, _ => bindElements t decl vs

/-- The variables of the first list, which hold what they also hold in the second, or something
else. -/
def agreeing : Scope → Scope → Scope
  | [], _ => []
  | (n, h) :: vs, ws =>
    (n, if ws.head?.map Prod.snd = some h then h else .other) :: agreeing vs ws.tail

/-! ### Pipelines -/

/-- A step along a path. -/
abbrev Replay (α : Type) := StateM State α

/-- Follows fields: the alert has a value. -/
def follow : Holding → List Token → Holding
  | h, [] => h
  | .alert, field :: fields =>
    follow (if Reading.fieldName field = "Value" then .value else .other) fields
  | _, _ :: _ => .other

/-- What one thing alone holds; of several, nothing is known. -/
def single : List Holding → Holding
  | [h] => h
  | _ => .other

def lookup (name : String) (vs : Scope) : Holding := (vs.lookup name).getD .other

/-- Notes the use of a variable without fields that holds the sample value. -/
def use (counts : Bool) (h : Holding) (span : Span) (fields : List Token) : Replay Unit :=
  modify fun u ↦
    if counts && fields.isEmpty && h = .value then { u with uses := u.uses ++ [span] } else u

mutual

/-- Goes through an operand. Where `counts` is false, the path only passes by. -/
def operand (t : Tracking) (counts : Bool) : Operand → Replay Holding
  | .mk (.paren (some p)) _ _ => do
    let _ ← pipeline t counts p false
    return .other
  | .mk (.variable (some name)) span fields => do
    let h := lookup name.text (← get).scope
    use counts h span fields
    return follow h fields
  | .mk .dot _ fields | .mk .field _ fields => return follow (← get).dot fields
  | .mk _ _ _ => return .other

/-- Goes through operands one after the other. -/
def operands (t : Tracking) (counts : Bool) : List Operand → Replay (List Holding)
  | [] => return []
  | o :: os => do
    let h ← operand t counts o
    let hs ← operands t counts os
    return h :: hs

/-- Goes through commands one after the other. -/
def commands (t : Tracking) (counts : Bool) : List (List Operand) → Replay (List Holding)
  | [] => return []
  | c :: cs => do
    let hs ← operands t counts c
    let rest ← commands t counts cs
    return single hs :: rest

/-- Goes through a pipeline and binds its variables. To bind a variable is no use of what it is
bound to. -/
def pipeline (t : Tracking) (counts : Bool) : Pipeline → Bool → Replay Holding
  | .mk decl cs, inRange => do
    let before ← get
    let hs ← commands t counts cs
    let h := single hs
    if let some decl := decl then
      modify fun u ↦ { u with
        scope := bind t decl inRange (if counts then h else .other) u.scope
        uses := before.uses }
    return h

end

/-- Goes through a pipeline that may be missing. -/
def pipelineOf (t : Tracking) (counts : Bool) (p : Option Pipeline) (inRange : Bool) :
    Replay Holding :=
  match p with
  | some p => pipeline t counts p inRange
  | none => return .other

/-! ### Items -/

/-- In front of the list of a block, the header of which holds `h`. -/
def State.enter (kind : Control) (h : Holding) (u : State) : State :=
  match kind with
  | .ifBlock => u
  | .withBlock => { u with dot := h }
  | .rangeBlock => { u with dot := .other }

/-- Behind the list of a block, with the dot from behind its header. -/
def State.exit (u : State) (kind : Control) (header : State) : State :=
  match kind with
  | .ifBlock => u
  | .withBlock | .rangeBlock => { u with dot := header.dot }

/-- Behind a block that started from the first state: its variables are out of scope. -/
def State.leave (outer u : State) : State :=
  { u with scope := u.scope.drop (u.scope.length - outer.scope.length) }

mutual

/-- Passes by an item. -/
def skipItem : Item → State → State
  | .action _ p, u => (pipelineOf .cautious false p false u).2
  | .control kind _ p b o, u =>
    let header := pipelineOf .cautious false p (kind = .rangeBlock) u
    let behind := skipBody b (header.2.enter kind header.1)
    u.leave (skipOtherwise o (behind.exit kind header.2))
  | .define _ _ _, u => u
  | .block _ _ p _, u => (pipelineOf .cautious false p false u).2
  | .call _ _ p, u => (pipelineOf .cautious false p false u).2

/-- Passes by the list of a block. -/
def skipBody : Body → State → State
  | .missing, u => u
  | .items is, u => skipItems is u

/-- Passes by several items. -/
def skipItems : List Item → State → State
  | [], u => u
  | i :: is, u => skipItems is (skipItem i u)

/-- Passes by an else branch. -/
def skipOtherwise : Otherwise → State → State
  | .none, u => u
  | .nested i, u => skipItem i u
  | .body b, u => skipBody b u

end

/-- Behind text that a path leaves out. -/
def Tracking.leaveOut (t : Tracking) (skip : State → State) (u : State) : State :=
  match t with
  | .pathOnly => u
  | .cautious => skip u

/-- The variables that a header binds. -/
def headerNames : Option Pipeline → List Token
  | some (.mk (some decl) _) => decl.names
  | _ => []

/-- In front of another round of a loop that was entered from the first state. The variables in its
header hold the next element. -/
def State.restart (t : Tracking) (names : List Token) (entry u : State) : State :=
  let behind := (entry.leave u).scope
  { scope := match t with
      | .pathOnly => forget names behind
      | .cautious => agreeing entry.scope behind
    dot := entry.dot
    uses := u.uses }

/-- The states behind one or more rounds of a list; only loops have more than one. -/
inductive Rounds (t : Tracking) (kind : Control) (names : List Token)
    (round : State → State → Prop) (entry : State) : State → Prop
  | first {u : State} : round entry u → Rounds t kind names round entry u
  | again {u v : State} : kind = .rangeBlock → Rounds t kind names round entry u →
    round (entry.restart t names u) v → Rounds t kind names round entry v

mutual

/-- A path leads through the item from the first state to the second. -/
def item (t : Tracking) : Item → State → State → Prop
  | .action _ p, u, v => v = (pipelineOf t true p false u).2
  | .control kind _ p b o, u, v =>
    let header := pipelineOf t true p (kind = .rangeBlock) u
    let inner := header.2.enter kind header.1
    let beyond := (t.leaveOut (skipBody b) inner).exit kind header.2
    ∃ w, v = u.leave w ∧
      -- through the list, through the else branch, or past both of them
      ((∃ x, Rounds t kind (headerNames p) (body t b) inner x ∧
          w = t.leaveOut (skipOtherwise o) (x.exit kind header.2)) ∨
        otherwise t o beyond w ∨
        (kind = .rangeBlock ∧ w = t.leaveOut (skipOtherwise o) beyond))
  | .define _ _ _, u, v => v = u
  | .block _ _ p _, u, v => v = (pipelineOf t true p false u).2
  | .call _ _ p, u, v => v = (pipelineOf t true p false u).2

/-- A path leads through the list of a block. -/
def body (t : Tracking) : Body → State → State → Prop
  | .missing, u, v => v = u
  | .items is, u, v => items t is u v

/-- A path leads through items one after the other. -/
def items (t : Tracking) : List Item → State → State → Prop
  | [], u, v => v = u
  | i :: is, u, v => ∃ w, item t i u w ∧ items t is w v

/-- A path leads through an else branch. -/
def otherwise (t : Tracking) : Otherwise → State → State → Prop
  | .none, u, v => v = u
  | .nested i, u, v => item t i u v
  | .body b, u, v => body t b u v

end

end AlertAudit.Template.Path
