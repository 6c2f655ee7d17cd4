import AlertAudit.Proofs.Check.Entries
import AlertAudit.Proofs.RuleFile.Placement

/-!
The lines of diagnostics. What is found in an entry is reported at the lines of the entry, which
begin in its rule, and the rules of a file follow one another; so to sort the diagnostics of a whole
file changes nothing once those of each rule are sorted. The lines of a diagnostic are lines of its
rule, but an entry can reach beyond its rule if its section begins with a comment that is indented
with something besides spaces, since that comment is taken for a key.
-/

set_option autoImplicit false

namespace AlertAudit

/-- A line that is put among ascending lines keeps them ascending. -/
theorem Diagnostic.pairwise_insertLine {n : Nat} {ms : List Nat} (h : ms.Pairwise (· < ·)) :
    (insertLine n ms).Pairwise (· < ·) := by
  induction ms with
  | nil => exact List.pairwise_singleton _ _
  | cons m ms ih =>
    obtain ⟨hm, hms⟩ := List.pairwise_cons.mp h
    rw [insertLine]
    split
    · rename_i hlt
      refine List.pairwise_cons.mpr ⟨fun k hk ↦ ?_, h⟩
      rcases List.mem_cons.mp hk with rfl | hk
      · exact hlt
      · exact Nat.lt_trans hlt (hm k hk)
    · split
      · exact h
      · refine List.pairwise_cons.mpr ⟨fun k hk ↦ ?_, ih hms⟩
        rcases mem_insertLine.mp hk with rfl | hk
        · omega
        · exact hm k hk

/-- Lines that are sorted are ascending, each once. -/
theorem Diagnostic.pairwise_sortLines (ns : List Nat) : (sortLines ns).Pairwise (· < ·) := by
  induction ns with
  | nil => exact .nil
  | cons n ns ih => exact pairwise_insertLine ih

namespace Check

/-- The lines of a diagnostic at an entry: those of the entry and, where the query plays a part in
the problem, those of the query. -/
structure LinesAt (query : Option (Located String)) (e : Entry) (d : Diagnostic) : Prop where
  anchor : d.anchor = e.lines
  ascending : d.lines.Pairwise (· < ·)
  mem_iff : ∀ n, n ∈ d.lines ↔ n ∈ e.lines.lines ∨
    IsOfLabel d.kind ∧ ∃ q ∈ query, n ∈ q.lines.lines
  /-- Problems with removed labels presuppose a query. -/
  query : IsOfLabel d.kind → query.isSome

/-- A problem that does not come from the query has the lines of its entry. -/
theorem linesAt_problem {query : Option (Located String)} (e : Entry) {kind : ProblemKind}
    (detail : String) (details : List String) (hkind : ¬IsOfLabel kind) :
    LinesAt query e (problem e kind detail [] details) where
  anchor := rfl
  ascending := Diagnostic.pairwise_sortLines _
  mem_iff n := by simp [problem, Diagnostic.report, Diagnostic.mem_sortLines, hkind]
  query h := absurd h hkind

/-- A problem of a removed label has the lines of the query as well. -/
theorem linesAt_problem_query (e : Entry) {kind : ProblemKind} (detail : String)
    (q : Located String) (hkind : IsOfLabel kind) :
    LinesAt (some q) e (problem e kind detail [q.lines] []) where
  anchor := rfl
  ascending := Diagnostic.pairwise_sortLines _
  mem_iff n := by simp [problem, Diagnostic.report, Diagnostic.mem_sortLines, hkind]
  query _ := rfl

/-- What is found in a text has such lines. -/
theorem linesAt_of_mem_template {s : Section} {query : Option (Located String)} {e : Entry}
    {text : String} {d : Diagnostic} (h : d ∈ template s (queryLabels? query) e text) :
    LinesAt query e d := by
  rcases exists_problem_of_mem_template h with
    ⟨kind, detail, details, hkind, rfl⟩ | ⟨labels, hlabels, kind, detail, hkind, rfl⟩
  · exact linesAt_problem e detail details hkind
  · obtain ⟨q, rfl, hsurvival⟩ := Option.bind_eq_some_iff.mp hlabels
    obtain ⟨survival, -, rfl⟩ := Option.map_eq_some_iff.mp hsurvival
    exact linesAt_problem_query e detail q hkind

variable {r : Rule} {rules : List Rule} {d : Diagnostic} {source : String}

/-- Each diagnostic of a rule has the lines of one of its entries. -/
theorem linesAt_of_mem_rule (h : d ∈ rule r) :
    ∃ e ∈ r.labels ++ r.annotations, LinesAt r.query e d := by
  cases hkind : r.kind with
  | recording =>
    rw [rule, hkind] at h
    exact absurd h List.not_mem_nil
  | alerting =>
    rw [rule_of_alerting hkind, (Diagnostics.stableSort_sortByLine _).mem_iff] at h
    rcases List.mem_append.mp h with h | h
    · obtain ⟨e, he, hd⟩ := List.mem_flatMap.mp h
      obtain ⟨text, -, hd⟩ := List.mem_flatMap.mp hd
      exact ⟨e, List.mem_append_left _ he, linesAt_of_mem_template hd⟩
    · obtain ⟨e, he, hd⟩ := List.mem_flatMap.mp h
      obtain ⟨text, -, hd⟩ := List.mem_flatMap.mp hd
      exact ⟨e, List.mem_append_right _ he, linesAt_of_mem_template hd⟩

/-- The diagnostics of a rule are in the order of their lines. -/
theorem pairwise_rule (r : Rule) :
    (rule r).Pairwise fun a b ↦ a.anchor.first ≤ b.anchor.first := by
  cases hkind : r.kind with
  | recording =>
    rw [rule, hkind]
    exact .nil
  | alerting =>
    rw [rule_of_alerting hkind]
    exact (Diagnostics.stableSort_sortByLine _).ascending

/-- Each diagnostic of a rule begins in it, and ends in it if all comments are plain. -/
theorem beginsIn_of_mem_rule (hr : r.PlacedIn source) (hd : d ∈ rule r) :
    d.anchor.BeginsIn r.lines (Text.lines source).length ∧
      (PlainComments source → d.anchor.BeginsIn r.lines r.lines.last) := by
  obtain ⟨e, he, hlines⟩ := linesAt_of_mem_rule hd
  rw [hlines.anchor]
  exact hr.entry e he

/-- The diagnostics of rules that follow one another do so, too. -/
theorem pairwise_flatMap_rule (hrules : rules.Pairwise fun a b ↦ a.lines.last < b.lines.first)
    (hplaced : ∀ r ∈ rules, r.PlacedIn source) :
    (rules.flatMap rule).Pairwise fun a b ↦ a.anchor.first ≤ b.anchor.first := by
  refine List.pairwise_flatMap.mpr ⟨fun r _ ↦ pairwise_rule r, hrules.imp_of_mem ?_⟩
  intro a b ha hb hlt d hd d' hd'
  have hfirst := (beginsIn_of_mem_rule (hplaced a ha) hd).1.le_last
  have hfirst' := (beginsIn_of_mem_rule (hplaced b hb) hd').1.first_le
  omega

/-- To check a text is to check its rules one after the other: the rules take disjoint runs of
lines, and the entry of each diagnostic begins in the run of its rule. -/
theorem source_eq_flatMap (h : RuleFile.read source = .ok rules) :
    Check.source source = .ok (rules.flatMap rule) ∧
    rules.Pairwise (fun a b ↦ a.lines.last < b.lines.first) ∧
    ∀ r ∈ rules, r.lines.first ≤ r.lines.last ∧ ∀ d ∈ rule r,
      r.lines.first ≤ d.anchor.first ∧ d.anchor.first ≤ r.lines.last ∧
      (PlainComments source → d.anchor.last ≤ r.lines.last) := by
  have hrules := RuleFile.pairwise_read h
  have hplaced : ∀ r ∈ rules, r.PlacedIn source := fun r ↦ RuleFile.placedIn_of_mem_read h
  refine ⟨?_, hrules, fun r hr ↦ ⟨(hplaced r hr).proper, fun d hd ↦ ?_⟩⟩
  · have hsorted : Diagnostics.sortByLine (rules.flatMap rule) = rules.flatMap rule := by
      refine List.mergeSort_of_pairwise ((pairwise_flatMap_rule hrules hplaced).imp ?_)
      exact fun {a b} ↦ decide_eq_true
    rw [Check.source, h]
    exact congrArg Except.ok hsorted
  · obtain ⟨hbegins, hends⟩ := beginsIn_of_mem_rule (hplaced r hr) hd
    exact ⟨hbegins.first_le, hbegins.le_last, fun hplain ↦ (hends hplain).last_le⟩

/-- Two alerts that a query without labels goes with; the first one has problems in two labels. -/
def twoAlerts : String :=
  "- alert: A\n  expr: sum(up)\n  labels:\n    a: '\x7b\x7b $labels.x \x7d\x7d'\n" ++
    "    b: '\x7b\x7b'\n- alert: B\n  annotations:\n    c: '\x7b\x7b'\n"

/-- The first of the two alerts. -/
def alertA : Rule where
  kind := .alerting
  name := "A"
  lines := ⟨1, 5⟩
  query := some ⟨"sum(up)", ⟨2, 2⟩⟩
  labels := [⟨⟨"a", ⟨4, 4⟩⟩, ⟨"\x7b\x7b $labels.x \x7d\x7d", ⟨4, 4⟩⟩⟩,
    ⟨⟨"b", ⟨5, 5⟩⟩, ⟨"\x7b\x7b", ⟨5, 5⟩⟩⟩]
  annotations := []

/-- The second of the two alerts. -/
def alertB : Rule where
  kind := .alerting
  name := "B"
  lines := ⟨6, 8⟩
  query := none
  labels := []
  annotations := [⟨⟨"c", ⟨8, 8⟩⟩, ⟨"\x7b\x7b", ⟨8, 8⟩⟩⟩]

/-- The diagnostics of the two alerts come one after the other. -/
theorem source_twoAlerts : RuleFile.read twoAlerts = .ok [alertA, alertB] ∧
    Check.source twoAlerts = .ok (rule alertA ++ rule alertB) := by
  have hread : RuleFile.read twoAlerts = .ok [alertA, alertB] := by decide +kernel
  refine ⟨hread, ?_⟩
  have hsource := (source_eq_flatMap hread).1
  rwa [List.flatMap_cons, List.flatMap_singleton] at hsource

/-- An alert in a flow mapping whose labels have a comment that is indented with a tab, and another
alert behind it. -/
def tabbedComment : String :=
  " -\n  \x7b\n  alert: A,\n  labels:\n\t#:\n   \x7ba: '\x7b\x7b'\x7d\n  \x7d\n - alert: B\n"

/-- The first of the two alerts; the value of its label is located on lines of the second. -/
def alertTabbed : Rule where
  kind := .alerting
  name := "A"
  lines := ⟨1, 7⟩
  query := none
  labels := [⟨⟨"a", ⟨5, 5⟩⟩, ⟨"\x7b\x7b", ⟨6, 8⟩⟩⟩]
  annotations := []

/-- The label of the first alert is located on lines of the second. -/
theorem read_tabbedComment : RuleFile.read tabbedComment =
    .ok [alertTabbed, ⟨.alerting, "B", ⟨8, 8⟩, none, [], []⟩] := by decide +kernel

/-- The entries of a rule do not all end in it. -/
theorem not_forall_anchor_inside : ¬∀ source rules, RuleFile.read source = .ok rules →
    Check.source source = .ok (rules.flatMap rule) ∧
    rules.Pairwise (fun a b ↦ a.lines.last < b.lines.first) ∧
    ∀ r ∈ rules, ∀ d ∈ rule r,
      r.lines.first ≤ d.anchor.first ∧ d.anchor.last ≤ r.lines.last := by
  intro h
  obtain ⟨-, -, hinside⟩ := h tabbedComment _ read_tabbedComment
  have hend : ∃ d ∈ rule alertTabbed, alertTabbed.lines.last < d.anchor.last := by decide +kernel
  obtain ⟨d, hd, hlt⟩ := hend
  exact absurd (hinside alertTabbed List.mem_cons_self d hd).2 (Nat.not_le_of_lt hlt)

/-- The lines that are reported for a diagnostic of a rule. -/
structure ReportedLines (source : String) (r : Rule) (d : Diagnostic) : Prop where
  nonempty : d.lines ≠ []
  ascending : d.lines.Pairwise (· < ·)
  anchor : d.anchor.lines ⊆ d.lines
  query : IsOfLabel d.kind → ∃ q ∈ r.query, q.lines.lines ⊆ d.lines
  pos : 1 ≤ r.lines.first
  le_length : r.lines.last ≤ (Text.lines source).length
  within : ∀ n ∈ d.lines, r.lines.first ≤ n ∧ n ≤ (Text.lines source).length
  inside : PlainComments source → ∀ n ∈ d.lines, r.lines.contains n

/-- A diagnostic of a rule reports its lines in ascending order, none of them twice; the lines of
its entry are among them and, for a label that the query removes, those of the query. All of them
are lines of the text from the beginning of the rule on, and lines of the rule where only spaces
stand in front of comments. -/
theorem reportedLines_of_mem_rule (h : RuleFile.read source = .ok rules) (hr : r ∈ rules)
    (hd : d ∈ rule r) : ReportedLines source r d := by
  have hplaced := RuleFile.placedIn_of_mem_read h hr
  obtain ⟨hbegins, hends⟩ := beginsIn_of_mem_rule hplaced hd
  obtain ⟨e, he, hlines⟩ := linesAt_of_mem_rule hd
  have hanchor : d.anchor.lines ⊆ d.lines := fun n hn ↦
    (hlines.mem_iff n).mpr (.inl (hlines.anchor ▸ hn))
  have hmem : ∀ n ∈ d.lines, n ∈ d.anchor.lines ∨ n ∈ r.lines.lines := by
    intro n hn
    rcases (hlines.mem_iff n).mp hn with hn | ⟨-, q, hq, hn⟩
    · exact .inl (hlines.anchor ▸ hn)
    · have hquery := hplaced.query q hq
      rw [LineRange.mem_lines] at hn
      exact .inr (LineRange.mem_lines.mpr
        ⟨hquery.first_le.trans hn.1, hn.2.trans hquery.last_le⟩)
  refine ⟨?_, hlines.ascending, hanchor, fun hkind ↦ ?_, hplaced.pos, hplaced.last_le,
    fun n hn ↦ ?_, fun hplain n hn ↦ ?_⟩
  · exact List.ne_nil_of_mem (hanchor (LineRange.mem_lines.mpr ⟨Nat.le_refl _, hbegins.proper⟩))
  · obtain ⟨q, hq⟩ := Option.isSome_iff_exists.mp (hlines.query hkind)
    exact ⟨q, hq, fun n hn ↦ (hlines.mem_iff n).mpr (.inr ⟨hkind, q, hq, hn⟩)⟩
  · rcases hmem n hn with hn | hn
    · rw [LineRange.mem_lines] at hn
      exact ⟨hbegins.first_le.trans hn.1, hn.2.trans hbegins.last_le⟩
    · rw [LineRange.mem_lines] at hn
      exact ⟨hn.1, hn.2.trans hplaced.last_le⟩
  · simp only [LineRange.contains, Bool.and_eq_true, decide_eq_true_eq]
    rcases hmem n hn with hn | hn
    · rw [LineRange.mem_lines] at hn
      exact ⟨hbegins.first_le.trans hn.1, hn.2.trans (hends hplain).last_le⟩
    · exact LineRange.mem_lines.mp hn

/-- The read of the label that the query of the first alert removes. -/
def removedRead : Diagnostic :=
  problem ⟨⟨"a", ⟨4, 4⟩⟩, ⟨"\x7b\x7b $labels.x \x7d\x7d", ⟨4, 4⟩⟩⟩ .labelRemovedByQuery "x"
    [⟨2, 2⟩] []

/-- The removed label of the first alert is reported with the line of its query. -/
theorem reportedLines_removedRead : RuleFile.read twoAlerts = .ok [alertA, alertB] ∧
    alertA ∈ [alertA, alertB] ∧ removedRead ∈ rule alertA ∧ removedRead.lines = [2, 4] ∧
    ReportedLines twoAlerts alertA removedRead := by
  have hread : RuleFile.read twoAlerts = .ok [alertA, alertB] := by decide +kernel
  have hrule : removedRead ∈ rule alertA := by
    rw [rule_of_alerting rfl, (Diagnostics.stableSort_sortByLine _).mem_iff]
    decide +kernel
  exact ⟨hread, List.mem_cons_self, hrule, by decide +kernel,
    reportedLines_of_mem_rule hread List.mem_cons_self hrule⟩

/-- Not all lines of a diagnostic are lines of its rule. -/
theorem not_forall_lines_inside : ¬∀ source rules, RuleFile.read source = .ok rules →
    ∀ r ∈ rules, ∀ d ∈ rule r, ∀ n ∈ d.lines, r.lines.contains n = true := by
  intro h
  have hinside := h tabbedComment _ read_tabbedComment alertTabbed List.mem_cons_self
  have hbeyond : ∃ d ∈ rule alertTabbed, 8 ∈ d.lines := by decide +kernel
  obtain ⟨d, hd, hline⟩ := hbeyond
  exact absurd (hinside d hd 8 hline) (by decide)

end Check

end AlertAudit
