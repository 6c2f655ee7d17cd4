import AlertAudit.Proofs.RuleFile.CommentLines
import AlertAudit.Proofs.Yaml.Comments
import AlertAudit.RuleFile.Read
import Mathlib.Order.MinMax

/-!
Comments in a rule file. A comment on a line of its own changes neither the values of the document
nor, if it stands where the scan of the lines passes over it, the places of the rules and their
keys; so the rules that are read are the same ones, and only the lines below get the next numbers
(`read_commented`).
-/

set_option autoImplicit false

namespace AlertAudit

open AlertAudit.Locate AlertAudit.Shape AlertAudit.Text
open AlertAudit.Yaml (Printable beginsLine byteOrderMark startsContent)

/-! ### Rules further down -/

/-- The value, once a line has been put in behind line `gap`. -/
def Located.pushed {α : Type} (gap : Nat) (x : Located α) : Located α :=
  { x with lines := x.lines.pushed gap }

/-- The entry, once a line has been put in behind line `gap`. -/
def Entry.pushed (gap : Nat) (e : Entry) : Entry := ⟨e.key.pushed gap, e.value.pushed gap⟩

/-- The rule, once a line has been put in behind line `gap`. -/
def Rule.pushed (gap : Nat) (r : Rule) : Rule :=
  { r with
    lines := r.lines.pushed gap
    query := r.query.map (·.pushed gap)
    labels := r.labels.map (·.pushed gap)
    annotations := r.annotations.map (·.pushed gap) }

variable {gap : Nat}

/-- Two runs cover the same lines, further down. -/
theorem LineRange.pushed_cover (a b : LineRange) :
    (a.cover b).pushed gap = (a.pushed gap).cover (b.pushed gap) := by
  have hmono : Monotone (AlertAudit.pushed gap) := fun _ _ h ↦ pushed_le_pushed.mpr h
  rw [LineRange.pushed, LineRange.cover, hmono.map_min, hmono.map_max]
  rfl

/-- A line belongs to a run if it does further down. -/
theorem LineRange.contains_pushed (gap : Nat) (r : LineRange) (line : Nat) :
    (r.pushed gap).contains (AlertAudit.pushed gap line) = r.contains line := by
  simp only [LineRange.contains, LineRange.pushed, pushed_le_pushed]

/-- A key takes the same lines, further down. -/
theorem Locate.KeySpan.lines_pushed (k : KeySpan) : (k.pushed gap).lines = k.lines.pushed gap :=
  (LineRange.pushed_cover (LineRange.single k.line) k.value).symm

/-- The keys of a rule have the same names further down. -/
theorem Locate.RuleSpan.key?_pushed (r : RuleSpan) (name : String) :
    (r.pushed gap).key? name = (r.key? name).map (·.pushed gap) := by
  rw [RuleSpan.key?, RuleSpan.pushed, List.find?_map]
  rfl

namespace RuleFile

variable {ls ls' : List Line} {span : RuleSpan} {source source' : String}

/-- The entries of a section are the same ones, further down. -/
theorem entries_pushed (h : ∀ k ∈ span.keys,
      children ls' (k.pushed gap) = (children ls k).map (·.pushed gap))
    (name : String) (texts : List (String × Yaml.Node)) :
    entries ls' (span.pushed gap) name texts =
      (entries ls span name texts).map (·.pushed gap) := by
  have hspans : ((span.key? name).map (·.pushed gap)).elim [] (children ls') =
      ((span.key? name).elim [] (children ls)).map (·.pushed gap) := by
    cases hkey : span.key? name with
    | none => rfl
    | some k => exact h k (List.mem_of_find?_eq_some hkey)
  have hfallback :
      ((span.key? name).map (·.pushed gap)).elim (span.pushed gap).lines KeySpan.lines =
      ((span.key? name).elim span.lines KeySpan.lines).pushed gap := by
    cases span.key? name with
    | none => rfl
    | some k => exact k.lines_pushed
  simp only [entries, RuleSpan.key?_pushed, hspans, hfallback, List.length_map]
  generalize (span.key? name).elim [] (children ls) = spans
  split_ifs
  · rw [List.map_map, List.zipWith_map_right, List.zipWith_map_right, List.map_zipWith]
    rfl
  · rw [List.zipWith_map_right, List.zipWith_map_right, List.map_zipWith]
    have hfind (key : String) : (spans.map (·.pushed gap)).find? (·.name = key) =
        (spans.find? (·.name = key)).map (·.pushed gap) := by
      rw [List.find?_map]
      rfl
    simp only [hfind]
    congr
    funext text other
    cases spans.find? (·.name = other.1) <;> rfl

/-- So is the rule that has them. -/
theorem rule_pushed (h : ∀ k ∈ span.keys,
      children ls' (k.pushed gap) = (children ls k).map (·.pushed gap))
    (title : RuleKind × String) (f : RuleFields) :
    rule ls' title f (span.pushed gap) = (rule ls title f span).pushed gap := by
  have hquery : ((span.key? "expr").map (·.pushed gap)).elim (span.pushed gap).lines (·.value) =
      ((span.key? "expr").elim span.lines (·.value)).pushed gap := by
    cases span.key? "expr" <;> rfl
  simp only [rule, Rule.pushed, entries_pushed h, RuleSpan.key?_pushed, hquery, Option.map_map]
  rfl

/-- What is read of two texts with the same document, if the second one has its rules and keys
further down. -/
theorem read_pushed (hblank : isBlankText source'.toList = isBlankText source.toList)
    (hdocument : Yaml.Node.ofText? source' = Yaml.Node.ofText? source)
    (hrules : Locate.rules (lines source') = (Locate.rules (lines source)).map (·.pushed gap))
    (hchildren : ∀ span ∈ Locate.rules (lines source), ∀ k ∈ span.keys,
      children (lines source') (k.pushed gap) = (children (lines source) k).map (·.pushed gap)) :
    read source' = (read source).map (·.map (·.pushed gap)) := by
  have hzip (found : List ((RuleKind × String) × RuleFields)) :
      List.zipWith (fun f span ↦ rule (lines source') f.1 f.2 span) found
          ((Locate.rules (lines source)).map (·.pushed gap)) =
        (List.zipWith (fun f span ↦ rule (lines source) f.1 f.2 span) found
          (Locate.rules (lines source))).map (·.pushed gap) := by
    rw [List.zipWith_map_right, List.map_zipWith, ← List.map_uncurry_zip_eq_zipWith,
      ← List.map_uncurry_zip_eq_zipWith]
    refine List.map_congr_left fun x hx ↦ ?_
    exact rule_pushed (hchildren x.2 (List.of_mem_zip hx).2) x.1.1 x.1.2
  rw [read, read, hblank, hdocument]
  split
  · rfl
  cases Yaml.Node.ofText? source with
  | none => rfl
  | some document =>
    cases hfields : fields document with
    | error e => simp only [hfields]; rfl
    | ok fs =>
      simp only [hfields, hrules, List.length_map, bind, Except.bind, pure, Except.pure]
      split_ifs
      · exact congrArg Except.ok (hzip _)
      · rfl

/-! ### Lines -/

variable {above below : String} {c : Char} {cs text : List Char} {column indent : Nat}

/-- The lines of a text with one put in behind a line break. -/
theorem lines_inserted (habove : IsWhole above.toList) {line : List Char} (hline : Printable line)
    (below : String) :
    lines (above ++ String.ofList line ++ "\n" ++ below) =
      lines above ++ ⟨(lines above).length + 1, line⟩ ::
        linesFrom ((lines above).length + 2) below.toList := by
  have htext : (above ++ String.ofList line ++ "\n" ++ below).toList =
      above.toList ++ (line ++ '\n' :: below.toList) := by
    simp
  obtain ⟨d, ds, hcons⟩ : ∃ d ds, line ++ '\n' :: below.toList = d :: ds :=
    List.exists_cons_of_ne_nil (by simp)
  rw [lines, htext, linesFrom_append habove, hcons, linesFrom, ← hcons,
    firstLine_append hline, ← lines, Nat.add_comm 1]

/-- The first line of indented content. -/
theorem exists_firstLine_indented (hc : isBlank c = false) (column : Nat) (cs : List Char) :
    ∃ tail, (firstLine (indented column (c :: cs))).1 = indented column (c :: tail) := by
  have hspaces : ∀ d ∈ List.replicate column ' ', decide (d ≠ '\n') = true := by
    intro d hd
    rw [List.eq_of_mem_replicate hd]
    decide
  have hbreak : c ≠ '\n' := by rintro rfl; exact absurd hc (by decide)
  have htake : (indented column (c :: cs)).takeWhile (· ≠ '\n') =
      indented column (c :: cs.takeWhile (· ≠ '\n')) := by
    rw [indented, List.takeWhile_append_of_pos hspaces,
      List.takeWhile_cons_of_pos (by simpa using hbreak), indented]
  simp only [firstLine, htake]
  split
  · exact ⟨_, rfl⟩
  · split_ifs with hreturn
    · cases hline : cs.takeWhile (· ≠ '\n') with
      | nil =>
        rw [hline, indented, List.getLast?_concat] at hreturn
        obtain rfl := Option.some.inj hreturn
        exact absurd hc (by decide)
      | cons d ds =>
        exact ⟨(d :: ds).dropLast, by
          rw [indented, List.dropLast_append_of_ne_nil (by simp), List.dropLast_cons_cons,
            indented]⟩
    · exact ⟨_, rfl⟩

/-- The first line of indented content has its content at that column. -/
theorem exists_linesFrom_indented (hc : startsContent c) (number column : Nat)
    (cs : List Char) :
    ∃ next rest, linesFrom number (indented column (c :: cs)) = next :: rest ∧
      indentOf next.text = column ∧ contentColumn? next.text = some column := by
  obtain ⟨⟨hblank, hhash⟩, -⟩ : (isBlank c = false ∧ c ≠ '#') ∧ c ≠ byteOrderMark := by
    simpa [startsContent] using hc
  have hspace : c ≠ ' ' := by rintro rfl; exact absurd hblank (by decide)
  obtain ⟨tail, hfirst⟩ := exists_firstLine_indented hblank column cs
  obtain ⟨d, ds, hcons⟩ : ∃ d ds, indented column (c :: cs) = d :: ds :=
    List.exists_cons_of_ne_nil (by simp [indented])
  have hindent : indentOf (indented column (c :: tail)) = column :=
    indentOf_replicate hspace column tail
  refine ⟨⟨number, indented column (c :: tail)⟩, linesFrom (number + 1) (firstLine (d :: ds)).2,
    ?_, hindent, ?_⟩
  · rw [hcons, linesFrom, ← hcons, hfirst]
  · rw [contentColumn?, isBlankText_indented hblank, isComment_indented hblank, Bool.false_or,
      if_neg (by simpa using hhash), hindent]

/-! ### Comments -/

/-- Lines in front of the gap await the same values. -/
theorem isSettled_pushed {spans : List RuleSpan} {front : List Line}
    (hfront : ∀ l ∈ front, l.number ≤ gap) :
    isSettled (spans.map (·.pushed gap)) front = isSettled spans front := by
  rw [isSettled, isSettled]
  cases hlast : (front.filter (!isBlankText ·.text)).getLast? with
  | none => rfl
  | some l =>
    have hl : l ∈ front := List.mem_of_mem_filter (List.mem_of_getLast? hlast)
    have hnumber : AlertAudit.pushed gap l.number = l.number :=
      if_neg (Nat.not_lt.mpr (hfront l hl))
    have hcontains (r : RuleSpan) : (r.pushed gap).lines.contains l.number =
        r.lines.contains l.number := by
      have hpushed := r.lines.contains_pushed gap l.number
      rwa [hnumber] at hpushed
    simp [List.all_map, Function.comp_def, hcontains]

section Comment

variable (habove : IsWhole above.toList)
  (hsettled : isSettled (Locate.rules (lines (above ++ below))) (lines above))
  (htext : Printable text)

include habove hsettled htext in
/-- A comment on a line of its own only moves the rules and keys below it, if it does not stand
where a rule awaits a value or a dash its item, and is not deeper than the content below. -/
theorem rules_commented (hc : startsContent c) (hindent : indent ≤ column)
    (hbelow : below.toList = indented column (c :: cs)) :
    let commented := above ++ String.ofList (commentText indent text) ++ "\n" ++ below
    Locate.rules (lines commented) =
        (Locate.rules (lines (above ++ below))).map (·.pushed (lines above).length) ∧
      ∀ r ∈ Locate.rules (lines (above ++ below)), ∀ k ∈ r.keys,
        children (lines commented) (k.pushed (lines above).length) =
          (children (lines (above ++ below)) k).map (·.pushed (lines above).length) := by
  intro commented
  obtain ⟨next, rest, hrest, hcolumn, hnext⟩ :=
    exists_linesFrom_indented hc ((lines above).length + 2) column cs
  rw [← hbelow] at hrest
  rw [← hcolumn] at hindent hnext
  -- The text with a blank line in place of the comment.
  have hlines : lines (above ++ String.ofList [] ++ "\n" ++ below) =
      lines above ++ ⟨(lines above).length + 1, []⟩ :: next :: rest :=
    hrest ▸ lines_inserted habove (fun _ hd ↦ absurd hd List.not_mem_nil) below
  have hls := ascending_lines (above ++ String.ofList [] ++ "\n" ++ below)
  have hspread := (blankInserted_append (b := below) habove
    (show isBlankText (String.ofList []).toList by rw [String.toList_ofList]; rfl) (by simp)).spread
  rw [hlines] at hls hspread
  have hblank : isBlankText (Line.mk ((lines above).length + 1) []).text := rfl
  have hsettled' : Settled (Locate.rules
      (lines above ++ ⟨(lines above).length + 1, []⟩ :: next :: rest)) (lines above) := by
    rw [hspread.rules_eq]
    refine settled_of_isSettled ?_
    rwa [isSettled_pushed fun l hl ↦ (number_of_mem_lines hl).2]
  have hcommented : lines commented =
      lines above ++ ⟨(lines above).length + 1, commentText indent text⟩ :: next :: rest :=
    hrest ▸ lines_inserted habove (fun _ ↦ Yaml.isAscii_of_mem_commentText htext) below
  rw [hcommented]
  refine ⟨(rules_comment hblank hnext hindent hsettled' hls).trans hspread.rules_eq,
    fun r hr k hk ↦ ?_⟩
  rcases exists_line_of_keyOf hr (.key hk) with hinline | ⟨l, hl, hfirst⟩
  · simp [children, KeySpan.pushed, hinline]
  · have hpos := (number_of_mem_lines hl).1
    have hfirst' : (pushedLine (lines above).length l).number =
        (k.pushed (lines above).length).value.first := congrArg (AlertAudit.pushed _) hfirst
    have hvalue := ((ruleAt_of_mem_rules hr).key k hk).2
    have hsettledUpTo (below : List Line)
        (hbelow : pushedLine (lines above).length l :: below <:+ lines above) :
        SettledUpTo (k.pushed (lines above).length).value.last
          (pushedLine (lines above).length l :: below) := by
      have hr' : r.pushed (lines above).length ∈ Locate.rules
          (lines above ++ ⟨(lines above).length + 1, []⟩ :: next :: rest) := by
        rw [hspread.rules_eq]
        exact List.mem_map_of_mem hr
      refine hsettled'.settledUpTo hr' hbelow ((ascending_lines above).suffix hbelow) ?_ ?_
      · rw [hfirst']
        exact pushed_le_pushed.mpr hvalue.first_le
      · exact pushed_le_pushed.mpr hvalue.last_le
    exact (children_comment hblank hnext hindent hsettledUpTo hls (hspread.mem hl)
      (Nat.le_trans hpos (le_pushed _ _)) hfirst' (pushed_le_pushed.mpr hvalue.proper)
      (pushed_ne _ _)).trans (hspread.children_eq (ascending_lines _) hls hl hpos hfirst)

include habove hsettled htext in
/-- A comment changes no rule that is read, and only moves the lines below it. It stands in front of
a line that begins with a token of the YAML text and is not deeper than that line; the line above it
is no bare dash and no key of a rule whose value is still to come. -/
theorem read_commented {rules : List Rule} (hbegins : beginsLine above.toList below.toList)
    (hindent : indent ≤ indentOf below.toList) (hread : read (above ++ below) = .ok rules) :
    read (above ++ String.ofList (commentText indent text) ++ "\n" ++ below) =
      .ok (rules.map (·.pushed (lines above).length)) := by
  obtain ⟨c, cs, hbelow, hc, -⟩ := Yaml.exists_of_beginsLine hbegins
  obtain ⟨hrules, hchildren⟩ := rules_commented habove hsettled htext hc hindent hbelow
  have hcontent (front : String) : isBlankText (front ++ below).toList = false := by
    have hblank : isBlank c = false := by
      simp only [startsContent, Bool.and_eq_true, Bool.not_eq_true'] at hc
      exact hc.1.1
    refine Bool.eq_false_iff.mpr fun h ↦ Bool.false_ne_true (hblank.symm.trans ?_)
    exact isBlank_of_mem h (by rw [String.toList_append, hbelow]; simp [indented])
  have hdocument : Yaml.Node.ofText?
      (above ++ String.ofList (commentText indent text) ++ "\n" ++ below) =
        Yaml.Node.ofText? (above ++ below) := by
    cases htokens : Yaml.Token.ofText? (above ++ below) with
    | none =>
      rw [read, hcontent, if_neg Bool.false_ne_true, Yaml.Node.ofText?, htokens] at hread
      exact absurd hread (by simp)
    | some ts => rw [Yaml.Node.ofText?, Yaml.Node.ofText?, htokens,
        Yaml.ofText?_comment habove hbegins hindent htext htokens]
  rw [read_pushed ((hcontent _).trans (hcontent _).symm) hdocument hrules hchildren, hread]
  rfl

/-- A comment between the key of a list of rules and the first of them. -/
theorem read_commented_below_key :
    read ("groups:\n- name: g\n  rules:\n" ++ String.ofList (commentText 2 " note".toList) ++
      "\n" ++
        "  - alert: A\n    expr: up\n") =
      .ok [{ kind := .alerting
             name := "A"
             lines := ⟨5, 6⟩
             query := some ⟨"up", ⟨6, 6⟩⟩
             labels := []
             annotations := [] }] := by
  have hread : read ("groups:\n- name: g\n  rules:\n" ++ "  - alert: A\n    expr: up\n") =
      .ok [⟨.alerting, "A", ⟨4, 5⟩, some ⟨"up", ⟨5, 5⟩⟩, [], []⟩] := by decide +kernel
  exact (read_commented (.inr (by decide +kernel)) (by decide +kernel) (by decide +kernel)
    (by decide +kernel) (by decide +kernel) hread).trans (by decide +kernel)

end Comment

end RuleFile

end AlertAudit
