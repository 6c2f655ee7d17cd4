import AlertAudit.Check
import AlertAudit.Proofs.Diagnostic.Order
import Mathlib.Data.List.Forall2

/-!
The check of a rule, entry by entry. What is found in a text depends on that text, its entry and the
query alone, and the diagnostics of a rule are those of its entries, each taken on its own, in a
stable order. So an entry can be left out, changed or broken, and the diagnostics of all others stay
as they are, in the same order.
-/

set_option autoImplicit false

namespace AlertAudit

open AlertAudit.Template

/-- The rule with a single label and nothing else to check. -/
def Rule.labelledWith (r : Rule) (e : Entry) : Rule := { r with labels := [e], annotations := [] }

/-- The rule with a single annotation and nothing else to check. -/
def Rule.annotatedWith (r : Rule) (e : Entry) : Rule := { r with labels := [], annotations := [e] }

namespace Check

/-! ### One text -/

/-- The diagnostic is of this kind, stands at the entry and has the detail in its message. -/
structure Tells (e : Entry) (k : ProblemKind) (detail : String) (d : Diagnostic) : Prop where
  kind : d.kind = k
  anchor : d.anchor = e.lines
  excerpt : d.excerpt = e.excerpt
  message : d.message = k.message (some detail)
  reporter : d.reporter = reporter

/-- The names under which the sample value is read where that matters, each once. -/
def valueNames (s : Section) (reads : Reads) : List String :=
  match s with
  | .labels => (reads.values.map (·.name)).eraseDups
  | .annotations => []

/-- The reads of labels that a query removes, with what removes them; none without a query that
parses. -/
def removedReads (query : Option (Located String)) (reads : Reads) :
    List (String × Labels.Boundary) :=
  match query.bind fun q ↦ Labels.survivalOfQuery? q.value with
  | none => []
  | some survival => reads.labels.filterMap fun m ↦ (survival.removes m.name).map (m.name, ·)

/-- What there is to find in a text: that it does not parse and nothing else, or in this order the
names for the sample value and the reads of labels that the query removes. -/
inductive Finds (s : Section) (query : Option (Located String)) (e : Entry) (text : String) :
    Diagnostics → Prop
  | rejected {err : ParseError} {d : Diagnostic} : Reads.ofText text = .error err →
    Tells e .templateSyntax err.message d → Finds s query e text [d]
  | accepted {reads : Reads} {values labels : Diagnostics} : Reads.ofText text = .ok reads →
    List.Forall₂ (Tells e .valueInLabels) (valueNames s reads) values →
    List.Forall₂ (fun removed ↦ Tells e (kindOfRemoval removed.2) removed.1)
      (removedReads query reads) labels →
    Finds s query e text (values ++ labels)

/-- A problem says its kind, its entry and its detail. -/
theorem tells_problem (e : Entry) (kind : ProblemKind) (detail : String)
    (further : List LineRange) (details : List String) :
    Tells e kind detail (problem e kind detail further details) := ⟨rfl, rfl, rfl, rfl, rfl⟩

/-- Collecting the first reads goes on to collect the names that have not been seen. -/
theorem map_name_foldl_distinct (vs seen : List ValueRead) :
    (vs.foldl (fun seen v ↦ if seen.any (·.name = v.name) then seen else seen ++ [v]) seen).map
      (·.name) = seen.map (·.name) ++
        ((vs.map (·.name)).filter fun name ↦ !(seen.map (·.name)).contains name).eraseDups := by
  induction vs generalizing seen with
  | nil => simp
  | cons v vs ih =>
    have hany : seen.any (·.name = v.name) = (seen.map (·.name)).contains v.name := by
      rw [List.contains_eq_any_beq, List.any_map]
      exact congrArg (List.any seen) (funext fun w ↦ by simp [Bool.beq_eq_decide_eq, eq_comm])
    rw [List.foldl_cons, List.map_cons, ih]
    by_cases h : (seen.map (·.name)).contains v.name
    · rw [hany, if_pos h, List.filter_cons_of_neg (by simpa using h)]
    · rw [hany, if_neg h, List.filter_cons_of_pos (by simpa using h), List.eraseDups_cons,
        List.filter_filter, List.map_append, List.append_assoc, List.map_singleton,
        List.singleton_append]
      congr 3
      refine List.filter_congr fun name _ ↦ ?_
      rw [List.contains_append, List.contains_cons, List.contains_nil]
      simp [Bool.and_comm]

/-- The names under which the sample value is read are told once each. -/
theorem map_name_distinctValues (reads : Reads) :
    reads.distinctValues.map (·.name) = (reads.values.map (·.name)).eraseDups := by
  rw [Reads.distinctValues, map_name_foldl_distinct]
  simp

/-- What is found in a text is what there is to find in it. -/
theorem finds_template (s : Section) (query : Option (Located String)) (e : Entry)
    (text : String) : Finds s query e text (template s (queryLabels? query) e text) := by
  rw [template]
  cases hreads : Reads.ofText text with
  | error err => exact .rejected hreads (tells_problem _ _ _ _ _)
  | ok reads =>
    refine .accepted hreads ?_ ?_
    · cases s with
      | labels =>
        rw [valueNames, ← map_name_distinctValues, List.forall₂_map_left_iff, valueProblems,
          List.forall₂_map_right_iff]
        exact List.forall₂_same.mpr fun v _ ↦ tells_problem _ _ _ _ _
      | annotations => exact .nil
    · rw [removedReads, queryLabels?]
      cases query with
      | none => exact .nil
      | some q =>
        rw [Option.bind_some, Option.bind_some]
        cases hsurvival : Labels.survivalOfQuery? q.value with
        | none => exact .nil
        | some survival =>
          have hproblems : labelProblems e reads ⟨survival, q.lines⟩ =
              (reads.labels.filterMap fun m ↦ (survival.removes m.name).map (m.name, ·)).map
                fun removed ↦ problem e (kindOfRemoval removed.2) removed.1 [q.lines] [] := by
            rw [List.map_filterMap]
            refine congrArg (List.filterMap · reads.labels) (funext fun m ↦ ?_)
            rw [Option.map_map]
            rfl
          change List.Forall₂ _ _ (labelProblems e reads ⟨survival, q.lines⟩)
          rw [hproblems, List.forall₂_map_right_iff]
          exact List.forall₂_same.mpr fun removed _ ↦ tells_problem _ _ _ _ _

/-! ### One entry -/

/-- The kinds of problems that come from the query removing a label. -/
def IsOfLabel (k : ProblemKind) : Prop := k = .labelRemovedByQuery ∨ k = .labelNotPassedByAbsent

/-- Both boundaries give a problem of a label. -/
theorem isOfLabel_kindOfRemoval (b : Labels.Boundary) : IsOfLabel (kindOfRemoval b) := by
  cases b
  · exact .inl rfl
  · exact .inr rfl

/-- What is found in a text is a problem at the entry; the lines of the query are added to it
exactly if the query has removed a label. -/
theorem exists_problem_of_mem_template {s : Section} {q : Option QueryLabels} {e : Entry}
    {text : String} {d : Diagnostic} (h : d ∈ template s q e text) :
    (∃ kind detail details, ¬IsOfLabel kind ∧ d = problem e kind detail [] details) ∨
      ∃ query ∈ q, ∃ kind detail, IsOfLabel kind ∧ d = problem e kind detail [query.lines] [] := by
  rw [template] at h
  cases hreads : Reads.ofText text with
  | error err =>
    rw [hreads] at h
    exact .inl ⟨_, _, _, by simp [IsOfLabel], List.mem_singleton.mp h⟩
  | ok reads =>
    rw [hreads] at h
    rcases List.mem_append.mp h with h | h
    · cases s with
      | labels =>
        obtain ⟨v, -, rfl⟩ := List.mem_map.mp h
        exact .inl ⟨_, _, _, by simp [IsOfLabel], rfl⟩
      | annotations => exact absurd h List.not_mem_nil
    · cases q with
      | none => exact absurd h List.not_mem_nil
      | some query =>
        obtain ⟨m, -, hm⟩ := List.mem_filterMap.mp h
        obtain ⟨boundary, -, rfl⟩ := Option.map_eq_some_iff.mp hm
        exact .inr ⟨query, rfl, _, _, isOfLabel_kindOfRemoval boundary, rfl⟩

/-- What is found in a text stands at its entry. -/
theorem anchor_of_mem_template {s : Section} {q : Option QueryLabels} {e : Entry} {text : String}
    {d : Diagnostic} (h : d ∈ template s q e text) : d.anchor = e.lines := by
  rcases exists_problem_of_mem_template h with ⟨_, _, _, -, rfl⟩ | ⟨_, -, _, _, -, rfl⟩
  · rfl
  · rfl

/-- So does what is found in the key or the value of an entry. -/
theorem anchor_of_mem_entry {s : Section} {q : Option QueryLabels} {e : Entry} {d : Diagnostic}
    (h : d ∈ entry s q e) : d.anchor = e.lines := by
  obtain ⟨text, -, hd⟩ := List.mem_flatMap.mp h
  exact anchor_of_mem_template hd

/-- The diagnostics of one entry stand at the same lines, so they are in order. -/
theorem sortByLine_entry (s : Section) (q : Option QueryLabels) (e : Entry) :
    (entry s q e).sortByLine = entry s q e := by
  refine List.mergeSort_of_pairwise (List.pairwise_of_forall_mem_list fun a ha b hb ↦ ?_)
  rw [anchor_of_mem_entry ha, anchor_of_mem_entry hb]
  exact decide_eq_true (Nat.le_refl _)

variable {r : Rule}

/-- The diagnostics of an alert are those of its entries, put in order. -/
theorem rule_of_alerting (h : r.kind = .alerting) : rule r = Diagnostics.sortByLine
    (r.labels.flatMap (entry .labels (queryLabels? r.query)) ++
      r.annotations.flatMap (entry .annotations (queryLabels? r.query))) := by
  rw [rule, h]

/-- A single label of a rule is checked by itself. -/
theorem rule_labelledWith (h : r.kind = .alerting) (e : Entry) :
    rule (r.labelledWith e) = entry .labels (queryLabels? r.query) e := by
  rw [rule_of_alerting (r := r.labelledWith e) h]
  simpa [Rule.labelledWith] using sortByLine_entry .labels (queryLabels? r.query) e

/-- So is a single annotation. -/
theorem rule_annotatedWith (h : r.kind = .alerting) (e : Entry) :
    rule (r.annotatedWith e) = entry .annotations (queryLabels? r.query) e := by
  rw [rule_of_alerting (r := r.annotatedWith e) h]
  simpa [Rule.annotatedWith] using sortByLine_entry .annotations (queryLabels? r.query) e

/-- A label can be left out of a rule without a trace in the diagnostics of the other entries. -/
theorem interleaves_labelled (h : r.kind = .alerting) {before after : List Entry} {e : Entry}
    (hlabels : r.labels = before ++ e :: after) :
    Interleaves (rule { r with labels := before ++ after }) (rule (r.labelledWith e)) (rule r) := by
  let q := queryLabels? r.query
  have hinterleaves := interleaves_sortByLine (before.flatMap (entry .labels q)) (entry .labels q e)
    (after.flatMap (entry .labels q) ++ r.annotations.flatMap (entry .annotations q))
  rw [sortByLine_entry] at hinterleaves
  rw [rule_labelledWith h, rule_of_alerting h, hlabels,
    rule_of_alerting (r := { r with labels := before ++ after }) h]
  simpa [q, List.flatMap_append, List.append_assoc] using hinterleaves

/-- An annotation can be left out of a rule without a trace in the diagnostics of the other entries.
-/
theorem interleaves_annotated (h : r.kind = .alerting) {before after : List Entry} {e : Entry}
    (hannotations : r.annotations = before ++ e :: after) :
    Interleaves (rule { r with annotations := before ++ after }) (rule (r.annotatedWith e))
      (rule r) := by
  let q := queryLabels? r.query
  have hinterleaves := interleaves_sortByLine
    (r.labels.flatMap (entry .labels q) ++ before.flatMap (entry .annotations q))
    (entry .annotations q e) (after.flatMap (entry .annotations q))
  rw [sortByLine_entry] at hinterleaves
  rw [rule_annotatedWith h, rule_of_alerting h, hannotations,
    rule_of_alerting (r := { r with annotations := before ++ after }) h]
  simpa [q, List.flatMap_append, List.append_assoc] using hinterleaves

/-! ### All entries -/

/-- The diagnostics of a rule are those of its entries. -/
structure EntryWise (r : Rule) : Prop where
  sorted : StableSort (·.anchor.first)
    (r.labels.flatMap (fun e ↦ rule (r.labelledWith e)) ++
      r.annotations.flatMap fun e ↦ rule (r.annotatedWith e)) (rule r)
  /-- Labels have templates in their keys and in their values. -/
  label : ∀ e, ∃ ofKey ofValue, Finds .labels r.query e e.key.value ofKey ∧
    Finds .labels r.query e e.value.value ofValue ∧ rule (r.labelledWith e) = ofKey ++ ofValue
  annotation : ∀ e, Finds .annotations r.query e e.value.value (rule (r.annotatedWith e))
  /-- Whatever stands in the place of a label, the other entries have the same diagnostics. -/
  changedLabel : ∀ before e new after, r.labels = before ++ e :: after →
    Interleaves (rule { r with labels := before ++ after }) (rule (r.labelledWith e)) (rule r) ∧
    Interleaves (rule { r with labels := before ++ after }) (rule (r.labelledWith new))
      (rule { r with labels := before ++ new :: after })
  changedAnnotation : ∀ before e new after, r.annotations = before ++ e :: after →
    Interleaves (rule { r with annotations := before ++ after }) (rule (r.annotatedWith e))
      (rule r) ∧
    Interleaves (rule { r with annotations := before ++ after }) (rule (r.annotatedWith new))
      (rule { r with annotations := before ++ new :: after })

/-- Alerting rules are checked entry by entry, and recording rules are not checked. -/
theorem entryWise_rule (r : Rule) :
    (r.kind = .alerting → EntryWise r) ∧ (r.kind = .recording → rule r = []) := by
  refine ⟨fun h ↦ ?_, fun h ↦ by rw [rule, h]⟩
  refine ⟨?_, fun e ↦ ?_, fun e ↦ ?_, fun before e new after hlabels ↦ ?_,
    fun before e new after hannotations ↦ ?_⟩
  · have hlabels : (fun e ↦ rule (r.labelledWith e)) = entry .labels (queryLabels? r.query) :=
      funext (rule_labelledWith h)
    have hannotations : (fun e ↦ rule (r.annotatedWith e)) =
        entry .annotations (queryLabels? r.query) := funext (rule_annotatedWith h)
    rw [hlabels, hannotations, rule_of_alerting h]
    exact Diagnostics.stableSort_sortByLine _
  · refine ⟨_, _, finds_template .labels r.query e e.key.value,
      finds_template .labels r.query e e.value.value, ?_⟩
    rw [rule_labelledWith h, entry, templates, List.flatMap_cons, List.flatMap_singleton]
  · rw [rule_annotatedWith h, entry, templates, List.flatMap_singleton]
    exact finds_template .annotations r.query e e.value.value
  · exact ⟨interleaves_labelled h hlabels,
      interleaves_labelled (r := { r with labels := before ++ new :: after }) h rfl⟩
  · exact ⟨interleaves_annotated h hannotations,
      interleaves_annotated (r := { r with annotations := before ++ new :: after }) h rfl⟩

/-- An alert whose first label has a key that does not parse and a value that reads the sample. -/
def brokenLabel : Rule where
  kind := .alerting
  name := "HighLoad"
  lines := ⟨1, 6⟩
  query := some ⟨"sum(load) by (job)", ⟨2, 2⟩⟩
  labels := [⟨⟨"\x7b\x7b", ⟨4, 4⟩⟩, ⟨"\x7b\x7b $value \x7d\x7d", ⟨4, 4⟩⟩⟩]
  annotations := [⟨⟨"summary", ⟨6, 6⟩⟩, ⟨"\x7b\x7b $labels.host \x7d\x7d", ⟨6, 6⟩⟩⟩]

/-- The rule with the broken label is checked entry by entry. -/
theorem entryWise_brokenLabel : brokenLabel.kind = .alerting ∧ EntryWise brokenLabel :=
  ⟨rfl, (entryWise_rule brokenLabel).1 rfl⟩

end Check

end AlertAudit
