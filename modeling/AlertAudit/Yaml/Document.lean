import AlertAudit.Yaml.Node
import AlertAudit.Yaml.Token.Scan

/-!
YAML documents as values. A text holds at most one document; `Node.ofText?` is its value, and null
for a text without any. Aliases stand for the values of their anchors. How often they may be
followed, and how deep collections may lie, is limited, so a short text cannot make a huge value.
-/

set_option autoImplicit false

namespace AlertAudit.Yaml

/-- The reading of a document up to some token. -/
structure Composing where
  tokens : List Token
  /-- What the handles of tags stand for. -/
  handles : List (String × String)
  /-- The anchors seen, the last one first, by number. -/
  anchors : List (String × Nat) := []
  /-- The values of the anchors that are complete, and the aliases followed to read each. -/
  values : List (Nat × Node × Nat) := []
  /-- Scalars, aliases, and the two ends of collections. -/
  events : Nat := 0
  /-- Aliases followed, also those inside of values that aliases stand for. -/
  jumps : Nat := 0
  deriving Inhabited

/-- A step of the reading; it fails where the text is no document. -/
abbrev Compose := StateT Composing Option

namespace Compose

def peek : Compose (Option Token) := do return (← get).tokens.head?

def advance : Compose Unit := modify fun c ↦ { c with tokens := c.tokens.drop 1 }

/-- Takes the next token if it is the given one. -/
def take? (t : Token) : Compose Bool := do
  if (← peek) == some t then
    advance
    return true
  else return false

def require (t : Token) : Compose Unit := do
  if !(← take? t) then failure

/-- One of some tokens, or the end, comes next. -/
def stopsAt (ts : List Token) : Compose Bool := do
  match ← peek with
  | none => return true
  | some t => return ts.contains t

/-- Counts scalars, aliases and ends of collections. -/
def count (n : Nat) : Compose Unit := modify fun c ↦ { c with events := c.events + n }

/-- The anchor and the tag in front of a value. -/
structure Properties where
  anchor : Option String := none
  tag : Option (String × String) := none

/-- Reads an anchor and a tag, each at most once. -/
def properties : Compose Properties := do
  match ← peek with
  | some (.anchor name) =>
    advance
    match ← peek with
    | some (.tag handle suffix) =>
      advance
      return ⟨some name, some (handle, suffix)⟩
    | _ => return ⟨some name, none⟩
  | some (.tag handle suffix) =>
    advance
    match ← peek with
    | some (.anchor name) =>
      advance
      return ⟨some name, some (handle, suffix)⟩
    | _ => return ⟨none, some (handle, suffix)⟩
  | _ => return {}

/-- A tag with its handle replaced by what that stands for. -/
def fullTag (tag : Option (String × String)) : Compose (Option String) := do
  match tag with
  | none => return none
  | some (handle, suffix) =>
    if handle.isEmpty then return some suffix
    else
      match (← get).handles.find? (·.1 = handle) with
      | some (_, meaning) => return some (meaning ++ suffix)
      | none => failure

/-- Notes an anchor whose value follows. -/
def openAnchor (name : Option String) : Compose (Option Nat) := do
  match name with
  | none => return none
  | some name =>
    let id := (← get).anchors.length
    modify fun c ↦ { c with anchors := (name, id) :: c.anchors }
    return some id

/-- Notes the value of an anchor. -/
def closeAnchor (id : Option Nat) (node : Node) (jumpsBefore : Nat) : Compose Unit := do
  match id with
  | none => return
  | some id => modify fun c ↦ { c with values := (id, node, c.jumps - jumpsBefore) :: c.values }

/-- The value that an alias stands for. An anchor whose value is not complete has none. -/
def follow (name : String) : Compose Node := do
  let c ← get
  match c.anchors.find? (·.1 = name) with
  | none => failure
  | some (_, id) =>
    match c.values.find? (·.1 = id) with
    | none => failure
    | some (_, node, jumps) =>
      set { c with jumps := c.jumps + jumps + 1, events := c.events + 1 }
      return node

/-- A scalar that is not written at all. -/
def missing : Compose Node := do
  count 1
  return .null

/-- A collection with the tag that belongs to it, if one does. -/
def withTag (tag : Option String) (node : Node) : Node :=
  match tag.bind Scalar.localName? with
  | some name => .tagged name node
  | none => node

def mapping (entries : List (Node × Node)) : Compose Node := do
  count 2
  if Node.distinctKeys entries then return .mapping entries else failure

def sequence (items : List Node) : Compose Node := do
  count 2
  return .sequence items

mutual

/-- Reads a value. `block` allows block collections, and `indentless` sequences whose dashes are
not indented. `fuel` bounds the calls. -/
def node (block indentless : Bool) : Nat → Compose Node
  | 0 => failure
  | fuel + 1 => do
    match ← peek with
    | some (.alias name) =>
      advance
      follow name
    | _ =>
      let props ← properties
      let tag ← fullTag props.tag
      let id ← openAnchor props.anchor
      let before := (← get).jumps
      let node ← content block indentless props tag fuel
      closeAnchor id node before
      return node

/-- Reads a value behind its properties. -/
def content (block indentless : Bool) (props : Properties) (tag : Option String) :
    Nat → Compose Node
  | 0 => failure
  | fuel + 1 => do
    match ← peek with
    | some (.scalar plain text) =>
      advance
      count 1
      -- a lone exclamation mark says nothing about a scalar
      match Scalar.node? (tag.filter (· ≠ "!")) plain text with
      | some node => return node
      | none => failure
    | some .flowSequenceStart =>
      advance
      return withTag tag (← sequence (← flowItems true fuel))
    | some .flowMappingStart =>
      advance
      return withTag tag (← mapping (← flowEntries true fuel))
    | next =>
      if indentless && next == some .blockEntry then
        return withTag tag (← sequence (← bareItems fuel))
      else if block && next == some .blockSequenceStart then
        advance
        return withTag tag (← sequence (← blockItems fuel))
      else if block && next == some .blockMappingStart then
        advance
        return withTag tag (← mapping (← blockEntries fuel))
      else if props.anchor.isSome || props.tag.isSome then
        count 1
        match Scalar.node? tag true "" with
        | some node => return node
        | none => failure
      else failure

/-- Reads a value, or takes it as missing where one of some tokens comes next. -/
def nodeUnless (stops : List Token) (block indentless : Bool) : Nat → Compose Node
  | 0 => failure
  | fuel + 1 => do
    if ← stopsAt stops then missing else node block indentless fuel

/-- Reads the items of a block sequence and its end. -/
def blockItems : Nat → Compose (List Node)
  | 0 => failure
  | fuel + 1 => do
    if ← take? .blockEntry then
      let item ← nodeUnless [.blockEntry, .blockEnd] true false fuel
      return item :: (← blockItems fuel)
    else
      require .blockEnd
      return []

/-- Reads the items of a block sequence whose dashes are not indented. -/
def bareItems : Nat → Compose (List Node)
  | 0 => failure
  | fuel + 1 => do
    if ← take? .blockEntry then
      let item ← nodeUnless [.blockEntry, .key, .value, .blockEnd] true false fuel
      return item :: (← bareItems fuel)
    else return []

/-- Reads the entries of a block mapping and its end. -/
def blockEntries : Nat → Compose (List (Node × Node))
  | 0 => failure
  | fuel + 1 => do
    if ← take? .key then
      let key ← nodeUnless [.key, .value, .blockEnd] true true fuel
      let value ←
        if ← take? .value then nodeUnless [.key, .value, .blockEnd] true true fuel else missing
      return (key, value) :: (← blockEntries fuel)
    else
      require .blockEnd
      return []

/-- Reads the items of a flow sequence and its end. An item may be a single entry of a mapping. -/
def flowItems (first : Bool) : Nat → Compose (List Node)
  | 0 => failure
  | fuel + 1 => do
    if ← take? .flowSequenceEnd then return []
    else
      if !first then require .flowEntry
      if ← take? .flowSequenceEnd then return []
      else if ← take? .key then
        let key ←
          if ← stopsAt [.value, .flowEntry, .flowSequenceEnd] then
            advance
            missing
          else node false false fuel
        let value ←
          if ← take? .value then nodeUnless [.flowEntry, .flowSequenceEnd] false false fuel
          else missing
        let item ← mapping [(key, value)]
        return item :: (← flowItems false fuel)
      else
        let item ← node false false fuel
        return item :: (← flowItems false fuel)

/-- Reads the entries of a flow mapping and its end. -/
def flowEntries (first : Bool) : Nat → Compose (List (Node × Node))
  | 0 => failure
  | fuel + 1 => do
    if ← take? .flowMappingEnd then return []
    else
      if !first then require .flowEntry
      if ← take? .flowMappingEnd then return []
      else if ← take? .key then
        let key ← nodeUnless [.value, .flowEntry, .flowMappingEnd] false false fuel
        let value ←
          if ← take? .value then nodeUnless [.flowEntry, .flowMappingEnd] false false fuel
          else missing
        return (key, value) :: (← flowEntries false fuel)
      else
        let key ← node false false fuel
        let value ← missing
        return (key, value) :: (← flowEntries false fuel)

end

/-- The handles of tags that need no directive. -/
def standardHandles : List (String × String) := [("!", "!"), ("!!", "tag:yaml.org,2002:")]

/-- Reads the directives in front of a document: the handles they define. Each may be given
once. -/
def directives : Nat → Bool → List (String × String) → List Token →
    Option (List (String × String) × List Token)
  | 0, _, _, _ => none
  | fuel + 1, version, handles, ts =>
    match ts with
    | .version :: rest => if version then none else directives fuel true handles rest
    | .tagHandle handle meaning :: rest =>
      if handles.any (·.1 = handle) then none
      else directives fuel version ((handle, meaning) :: handles) rest
    | _ => some (handles, ts)

/-- The most collections that may lie in each other. -/
def maxDepth : Nat := 128

/-- How often aliases may be followed for each part of the document. -/
def jumpsPerEvent : Nat := 100

/-- Reads the value of a document whose directives have been read, and the end of the text. -/
def document (handles : List (String × String)) (ts : List Token) (empty : Bool) : Option Node := do
  let fuel := 4 * ts.length + 4
  let (node, c) ← (if empty then missing else node true false fuel).run { tokens := ts, handles }
  if c.tokens.all (· == .documentEnd) && node.depth ≤ maxDepth
      && c.jumps ≤ c.events * jumpsPerEvent then
    return node
  else none

end Compose

open Compose in
/-- The value of the document that some tokens make up; there is none if they make up no document
or more than one. -/
def Node.ofTokens? (ts : List Token) : Option Node := do
  match ts with
  | [] => return .null
  | .version :: _ | .tagHandle .. :: _ | .documentStart :: _ =>
    let (handles, rest) ← directives (ts.length + 1) false [] ts
    match rest with
    | .documentStart :: rest =>
      let handles := handles ++ standardHandles.filter fun h ↦ !handles.any (·.1 = h.1)
      document handles rest (rest.head?.all (· == .documentEnd))
    | _ => none
  | _ => document standardHandles ts false

/-- The value of a text with at most one document. -/
def Node.ofText? (text : String) : Option Node := (Token.ofText? text).bind Node.ofTokens?

end AlertAudit.Yaml
