/-!
The tokens of a YAML text. Those that open and close block collections have no characters of their
own: they come from the indentation. A key that is followed by a colon on its line gets its `key`
token in front of it.
-/

set_option autoImplicit false

namespace AlertAudit.Yaml

/-- A token of a YAML text. -/
inductive Token where
  /-- `%YAML` with a version. -/
  | version
  /-- `%TAG`: what a handle of tags stands for. -/
  | tagHandle (handle tagPrefix : String)
  | documentStart
  | documentEnd
  | blockSequenceStart
  | blockMappingStart
  | blockEnd
  | flowSequenceStart
  | flowSequenceEnd
  | flowMappingStart
  | flowMappingEnd
  /-- The dash of a block sequence. -/
  | blockEntry
  /-- The comma of a flow collection. -/
  | flowEntry
  | key
  | value
  | alias (name : String)
  | anchor (name : String)
  | tag (handle suffix : String)
  /-- A scalar; only plain ones can be something else than a string. -/
  | scalar (plain : Bool) (text : String)
  deriving DecidableEq, Repr, Inhabited

end AlertAudit.Yaml
