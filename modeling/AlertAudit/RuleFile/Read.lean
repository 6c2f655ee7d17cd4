import AlertAudit.RuleFile.Locate
import AlertAudit.RuleFile.Rule
import AlertAudit.RuleFile.Shape

/-!
Rule files as rules. Values come from the YAML document and lines from the indentation of the text,
so the two are paired: rules in their order, which must be equally many, and the entries of labels
and annotations in their order if they are equally many and by name otherwise. An entry that was
not located has the lines of the whole mapping.
-/

set_option autoImplicit false

namespace AlertAudit

open AlertAudit.Locate AlertAudit.Shape

/-- Why a text is no rule file. -/
inductive ReadError where
  /-- It is no YAML document, or its values have the wrong types. -/
  | invalidYaml
  /-- The document is neither a list nor a mapping with groups. -/
  | noRuleList
  /-- The numbers of rules in the document and of rules located in the text differ. -/
  | unlocated (rules located : Nat)
  deriving DecidableEq, Repr

/-- The wording of an error. -/
def ReadError.message : ReadError → String
  | invalidYaml => "invalid YAML"
  | noRuleList =>
    "unexpected rule file layout: expected a list of rules or a mapping with `groups`"
  | unlocated rules located =>
    s!"unexpected rule file layout: found {rules} rules but could only locate {located} of them; " ++
      "flow-style rule lists are not supported"

namespace RuleFile

/-- The sort and the name of a rule; a list item without either is no rule. -/
def title? (f : RuleFields) : Option (RuleKind × String) :=
  match f.alert, f.record with
  | some name, _ => some (.alerting, name.toText)
  | none, some name => some (.recording, name.toText)
  | none, none => none

/-- The entries of a section with the lines of each. -/
def entries (ls : List Text.Line) (span : RuleSpan) (section_ : String)
    (texts : List (String × Yaml.Node)) : List Entry :=
  let parent := span.key? section_
  let spans := parent.elim [] (children ls)
  let fallback := parent.elim span.lines KeySpan.lines
  let located : List (Option KeySpan) :=
    if spans.length = texts.length then spans.map some
    else texts.map fun (key, _) ↦ spans.find? (·.name = key)
  List.zipWith (fun (key, value) k ↦
    match k with
    | some k => ⟨⟨key, .single k.line⟩, ⟨value.toText, k.value⟩⟩
    | none => ⟨⟨key, fallback⟩, ⟨value.toText, fallback⟩⟩) texts located

/-- A rule from its fields and its place. -/
def rule (ls : List Text.Line) (title : RuleKind × String) (f : RuleFields) (span : RuleSpan) :
    Rule where
  kind := title.1
  name := title.2
  lines := span.lines
  query := f.expr.map fun expr ↦ ⟨expr.toText, (span.key? "expr").elim span.lines (·.value)⟩
  labels := entries ls span "labels" (f.labels.getD [])
  annotations := entries ls span "annotations" (f.annotations.getD [])

/-- The fields of all rules of a document. -/
def fields (document : Yaml.Node) : Except ReadError (List RuleFields) :=
  let orInvalid (r : Option (List RuleFields)) := r.elim (.error .invalidYaml) .ok
  match document.untagged with
  | .null => .ok []
  | .sequence _ => orInvalid (rules? document)
  | _ =>
    match groupsOf? document with
    | some groups => orInvalid (groups? groups)
    | none => .error .noRuleList

/-- Reads the rules of a rule file, in their order. -/
def read (source : String) : Except ReadError (List Rule) :=
  if Text.isBlankText source.toList then .ok []
  else
    match Yaml.Node.ofText? source with
    | none => .error .invalidYaml
    | some document => do
      let found := (← fields document).filterMap fun f ↦ (title? f).map (·, f)
      let ls := Text.lines source
      let spans := Locate.rules ls
      if spans.length = found.length then
        return List.zipWith (fun (title, f) span ↦ rule ls title f span) found spans
      else throw (.unlocated found.length spans.length)

end RuleFile

end AlertAudit
