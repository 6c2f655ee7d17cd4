import AlertAudit.Proofs.RuleFile.Spans
import AlertAudit.RuleFile.Read

/-!
Where the parts of a rule that was read stand. An entry that was located has the lines of its key
and value, and any other one those of its section or of the rule; so the lines of all of them begin
in the rule. The rules that are read of a text follow one another. The lines are not always those of
the entry or the rule: a comment can hide the keys of a section (`read_comment_hides`), and an item
that is no rule can stand in for one (`read_misplaced`).
-/

set_option autoImplicit false

namespace AlertAudit

open AlertAudit.Locate AlertAudit.Shape

/-- Comments are indented with spaces only. -/
def PlainComments (source : String) : Prop := ∀ l ∈ Text.lines source, PlainComment l.text

/-- A rule takes lines of a text, and what stands in it begins in it. -/
structure Rule.PlacedIn (source : String) (r : Rule) : Prop where
  pos : 1 ≤ r.lines.first
  proper : r.lines.first ≤ r.lines.last
  last_le : r.lines.last ≤ (Text.lines source).length
  query : ∀ q ∈ r.query, q.lines.BeginsIn r.lines r.lines.last
  entry : ∀ e ∈ r.labels ++ r.annotations,
    e.lines.BeginsIn r.lines (Text.lines source).length ∧
      (PlainComments source → e.lines.BeginsIn r.lines r.lines.last)

namespace RuleFile

variable {source : String} {rules : List Rule} {r : Rule} {span : RuleSpan}

/-- The entries of a section stand where their keys were found, or in the section or the rule. -/
theorem exists_of_mem_entries {ls : List Text.Line} {name : String}
    {texts : List (String × Yaml.Node)} {e : Entry} (h : e ∈ entries ls span name texts) :
    e.lines = span.lines ∨ ∃ k ∈ span.keys,
      e.lines = k.lines ∨ ∃ c ∈ children ls k, e.lines = c.lines := by
  rw [entries, ← List.map_uncurry_zip_eq_zipWith] at h
  obtain ⟨⟨text, located⟩, hzip, rfl⟩ := List.mem_map.mp h
  have hlocated := (List.of_mem_zip hzip).2
  cases hparent : span.key? name with
  | none =>
    cases located with
    | none => exact .inl (LineRange.cover_self _)
    | some c =>
      rw [hparent] at hlocated
      split at hlocated <;> simp at hlocated
  | some k =>
    refine .inr ⟨k, List.mem_of_find?_eq_some hparent, ?_⟩
    cases located with
    | none => exact .inl (LineRange.cover_self _)
    | some c =>
      refine .inr ⟨c, ?_, rfl⟩
      rw [hparent] at hlocated
      split at hlocated
      · simpa using hlocated
      · obtain ⟨text, -, hfind⟩ := List.mem_map.mp hlocated
        exact List.mem_of_find?_eq_some hfind

/-- The entries of a rule stand where its keys do. -/
theorem placedIn_rule (title : RuleKind × String) (f : RuleFields)
    (h : RuleAt (Text.lines source) (Text.lines source).length span) :
    (rule (Text.lines source) title f span).PlacedIn source := by
  have hself : ∀ bound, span.lines.last ≤ bound → span.lines.BeginsIn span.lines bound :=
    fun bound hbound ↦ ⟨Nat.le_refl _, h.proper, h.proper, hbound⟩
  refine ⟨h.pos, h.proper, h.last_le, fun q hq ↦ ?_, fun e he ↦ ?_⟩
  · obtain ⟨expr, -, rfl⟩ := Option.map_eq_some_iff.mp hq
    cases hkey : span.key? "expr" with
    | none => exact hself _ (Nat.le_refl _)
    | some k => exact (h.key k (List.mem_of_find?_eq_some hkey)).2
  · have hentry : e.lines = span.lines ∨ ∃ k ∈ span.keys,
        e.lines = k.lines ∨ ∃ c ∈ children (Text.lines source) k, e.lines = c.lines := by
      rcases List.mem_append.mp he with he | he
      · exact exists_of_mem_entries he
      · exact exists_of_mem_entries he
    rcases hentry with heq | ⟨k, hk, heq | ⟨c, hc, heq⟩⟩
    · rw [heq]
      exact ⟨hself _ h.last_le, fun _ ↦ hself _ (Nat.le_refl _)⟩
    · rw [heq]
      have hin := (h.key k hk).1
      exact ⟨{ hin with last_le := hin.last_le.trans h.last_le }, fun _ ↦ hin⟩
    · rw [heq]
      exact h.child k hk c hc

/-- Rules are read by pairing what the document says with where it says it. -/
theorem read_eq_ok (h : read source = .ok rules) :
    Text.isBlankText source.toList = true ∧ rules = [] ∨ ∃ document all,
      Yaml.Node.ofText? source = some document ∧ fields document = .ok all ∧ rules =
        List.zipWith (fun f span ↦ rule (Text.lines source) f.1 f.2 span)
          (all.filterMap fun f ↦ (title? f).map (·, f)) (Locate.rules (Text.lines source)) := by
  rw [read] at h
  split at h
  next hblank => exact .inl ⟨hblank, (Except.ok.inj h).symm⟩
  · cases hdocument : Yaml.Node.ofText? source with
    | none =>
      rw [hdocument] at h
      exact absurd h (by simp)
    | some document =>
      rw [hdocument] at h
      cases hfields : fields document with
      | error err =>
        simp only [hfields] at h
        exact absurd h (by simp [bind, Except.bind])
      | ok all =>
        simp only [hfields, bind, Except.bind] at h
        split at h
        · exact .inr ⟨document, all, rfl, hfields, (Except.ok.inj h).symm⟩
        · exact absurd h (by simp [throw, throwThe, MonadExceptOf.throw])

/-- Rules that are read have their titles from the document and their places from the text. -/
theorem exists_zipWith_of_read (h : read source = .ok rules) :
    ∃ found : List ((RuleKind × String) × RuleFields), rules =
      List.zipWith (fun f span ↦ rule (Text.lines source) f.1 f.2 span) found
        (Locate.rules (Text.lines source)) := by
  rcases read_eq_ok h with ⟨-, hrules⟩ | ⟨document, all, -, -, hrules⟩
  · exact ⟨[], hrules⟩
  · exact ⟨_, hrules⟩

/-- A rule in a flow sequence is not located. Where another section has as many items in block
style, their number hides that, and the rule gets the lines of an item that is no rule. -/
theorem read_misplaced :
    read "groups:\n- name: g\n  rules: [{alert: A, expr: up}]\nextra:\n- alert: B\n  expr: down\n" =
      .ok [{ kind := .alerting
             name := "A"
             lines := ⟨5, 6⟩
             query := some ⟨"up", ⟨6, 6⟩⟩
             labels := []
             annotations := [] }] := by
  decide +kernel

/-- Each rule that is read stands in the text with its entries. -/
theorem placedIn_of_mem_read (h : read source = .ok rules) (hr : r ∈ rules) :
    r.PlacedIn source := by
  obtain ⟨found, rfl⟩ := exists_zipWith_of_read h
  rw [← List.map_uncurry_zip_eq_zipWith] at hr
  obtain ⟨⟨f, span⟩, hzip, rfl⟩ := List.mem_map.mp hr
  exact placedIn_rule f.1 f.2 (ruleAt_of_mem_rules (List.of_mem_zip hzip).2)

/-- The rule of a text with one label on some lines. -/
def labelled (last : Nat) (lines : LineRange) : Rule where
  kind := .alerting
  name := "A"
  lines := ⟨1, last⟩
  query := none
  labels := [⟨⟨"a", lines⟩, ⟨"b", lines⟩⟩]
  annotations := []

/-- A comment to the left of the first entry of a section hides the keys of the section. -/
theorem read_comment_hides :
    read "- alert: A\n  labels:\n    a: b\n" = .ok [labelled 3 ⟨3, 3⟩] ∧
      read "- alert: A\n  labels:\n# note\n    a: b\n" = .ok [labelled 4 ⟨2, 4⟩] := by
  decide +kernel

/-- Rules that are put on places in order are in order. -/
theorem pairwise_zipWith_rule {ls : List Text.Line} {spans : List RuleSpan}
    (found : List ((RuleKind × String) × RuleFields))
    (h : spans.Pairwise fun a b ↦ a.lines.last < b.lines.first) :
    (List.zipWith (fun f span ↦ rule ls f.1 f.2 span) found spans).Pairwise
      fun a b ↦ a.lines.last < b.lines.first := by
  induction found generalizing spans with
  | nil => exact .nil
  | cons f found ih =>
    cases spans with
    | nil => exact .nil
    | cons span spans =>
      obtain ⟨hfirst, hrest⟩ := List.pairwise_cons.mp h
      refine List.pairwise_cons.mpr ⟨fun r hr ↦ ?_, ih hrest⟩
      rw [← List.map_uncurry_zip_eq_zipWith] at hr
      obtain ⟨⟨f', span'⟩, hzip, rfl⟩ := List.mem_map.mp hr
      exact hfirst span' (List.of_mem_zip hzip).2

/-- Each rule of a text ends in front of the next one. -/
theorem pairwise_read (h : read source = .ok rules) :
    rules.Pairwise fun a b ↦ a.lines.last < b.lines.first := by
  obtain ⟨found, rfl⟩ := exists_zipWith_of_read h
  exact pairwise_zipWith_rule found (pairwise_rules (Locate.ascending_lines source))

end RuleFile

end AlertAudit
