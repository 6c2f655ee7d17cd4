import AlertAudit.Proofs.Template.Insertion
import AlertAudit.Proofs.Template.ValueReads

/-!
Filters are transparent. A stage that calls a built-in function, put at the end of a pipeline, keeps
a template accepted. What it reads stays the same, where what comes behind the stage is moved by the
characters of the stage, and it calls one more function (`ActionIn.reads_filtered`).
-/

set_option autoImplicit false

namespace AlertAudit.Template

open AlertAudit.Text
open Reading (Gap Frame Carried Before After)

/-- A text that spells a well-scoped outline is accepted, and it reads what the outline does. -/
theorem ofText_of_spells {text : String} {is : List Item} (h : (Tokens.ofText text).error = none)
    (hspells : Spelling.Root (pieces (Tokens.ofText text).tokens) is)
    (hscoped : WellScoped (itemsVisits is prelude)) :
    Reads.ofText text = .ok (Reading.items is (.start text)).2.reads := by
  have haccepted : (Parse.ofText text).error = none :=
    (error_eq_none_iff_spells text).mpr ⟨h, is, hspells, hscoped⟩
  rw [Reads.ofText, haccepted, ← bareItems_of_spells hspells hscoped, Reading.items_bareItems]

namespace Reading

variable {g : Gap} {added : List Char} {call : Mention}

/-- Two readings start in front of the place where their texts differ. -/
theorem before_start {text text' : String} (h : text.toList = g.text [])
    (h' : text'.toList = g.text added) : Before g added (.start text) (.start text') := by
  have hstart (added : List Char) {text : String} (h : text.toList = g.text added) :
      Carried (g.ahead added) (.start (String.ofList g.front)) (.start text) := by
    refine ⟨String.toList_ofList, h.trans ?_, rfl, rfl, rfl⟩
    simp only [Gap.text, Gap.ahead, List.nil_append, List.append_assoc]
  exact ⟨_, hstart [] h, hstart added h', List.forall_mem_nil _, List.forall_mem_nil _,
    List.forall_mem_nil _⟩

/-- What two readings have recorded behind the place where their texts differ. -/
theorem After.exists_reads {s t : State} (h : After g added call s t) (hlines : '\n' ∉ added) :
    ∃ before after : Reads, s.reads = before ++ after ∧
      t.reads = before ++ { calls := [call] } ++ after.moved (utf8Length added) 0 ∧
        before.AllStart (· < utf8Length g.front) ∧ after.AllStart (utf8Length g.front ≤ ·) := by
  obtain ⟨s₀, before, hs, ht, hstart⟩ := h
  have hbytes : (g.behind added before).bytes = (g.behind [] before).bytes + utf8Length added := by
    simp only [Gap.behind, Frame.bytes, utf8Length_append, utf8Length_nil]
    omega
  have hline : (g.behind added before).lines = (g.behind [] before).lines + 0 := by
    simp only [Gap.behind, Frame.lines, List.count_append, List.count_eq_zero.mpr hlines,
      List.count_nil, Nat.add_zero]
  refine ⟨before, s₀.reads.moved (g.behind [] before).bytes (g.behind [] before).lines, hs.reads,
    ?_, hstart, ?_⟩
  · rw [Reads.moved_moved, ← hbytes, ← hline]
    exact ht.reads
  · have hall : s₀.reads.AllStart fun _ ↦ True := ⟨by simp, by simp, by simp⟩
    refine hall.moved (fun k _ ↦ ?_) _
    simp only [Gap.behind, Frame.bytes, utf8Length_append]
    omega

end Reading

namespace ActionIn

variable {text : String} (action : ActionIn text) {name : String}

theorem not_mem_stageOf (hname : Builtin.isDefined name) : '\n' ∉ stageOf name := by
  obtain ⟨c, cs, hchars, hc, hcs, -⟩ :=
    Scan.exists_of_isFunctionName (Scan.isFunctionName_of_isDefined hname)
  have hword : ∀ d ∈ name.toList, Scan.isWordChar d := by
    rw [hchars]
    exact List.forall_mem_cons.mpr ⟨Scan.isWordChar_of_isWordStart hc, hcs⟩
  rw [stageOf, List.mem_append, not_or]
  exact ⟨by decide, fun hmem ↦ absurd (hword _ hmem) (by decide)⟩

theorem utf8Length_stageOf (name : String) :
    utf8Length (stageOf name) = 3 + name.utf8ByteSize := by
  rw [stageOf, utf8Length_append, utf8Length_toList name]
  rfl

/-- The call of the function is on the line of the right delimiter. -/
theorem mentionIn_filtered (name : String) :
    Token.mentionIn (action.filtered name).toList ⟨.identifier, action.stop + 3, name⟩ =
      ⟨name, ⟨action.stop + 3, action.stop + 3 + name.utf8ByteSize⟩,
        lineAt text.toList action.stop⟩ := by
  have hline : lineAt text.toList action.stop = action.gap.front.count '\n' := by
    rw [action.toList_eq, Gap.text, List.append_nil, List.append_assoc]
    exact lineAt_utf8Length _ _
  have hbar : utf8Length (action.gap.front ++ " | ".toList) = action.stop + 3 :=
    utf8Length_append _ _
  have hcall : lineAt (action.filtered name).toList (action.stop + 3) =
      action.gap.front.count '\n' := by
    rw [filtered, String.toList_ofList, Gap.text, stageOf, ← hbar, ← List.append_assoc,
      List.append_assoc, List.append_assoc, lineAt_utf8Length, List.count_append]
    rfl
  rw [Token.mentionIn, hcall, hline]
  rfl

/-- With one more stage in the action, the outline gets one more command. -/
theorem exists_outline (h : (Parse.ofText text).error = none) (hpipeline : action.isPipeline)
    (hdeclares : action.declares = false) (hbar : action.endsWithBar = false)
    (hname : Builtin.isDefined name) :
    ∃ js, ItemsGain action.gap.InFront action.gap.InBack (action.gap.bytes [])
        (action.gap.bytes (stageOf name)) ⟨.identifier, action.stop + 3, name⟩
        (bareItems (Parse.ofText text).tree.items) js ∧
      Reads.ofText (action.filtered name) =
        .ok (Reading.items js (.start (action.filtered name))).2.reads := by
  obtain ⟨hany, -⟩ := (error_eq_none_iff_spells text).mp h
  obtain ⟨hspells, hscoped⟩ := spells_of_accepted h
  obtain ⟨act, hcall, hfront, hold, hnew⟩ :=
    action.exists_piped hany hpipeline hdeclares hbar hname
  have hpieces := (pieces_ofText (action.scans hany)).2
  rw [String.ofList_toList, hold] at hpieces
  obtain ⟨herror, hpieces'⟩ := pieces_ofText (action.scans_filtered hany hname)
  rw [hnew] at hpieces'
  obtain ⟨js, hjs, hgains⟩ := Spelling.template_gains (n := action.gap.bytes (stageOf name)) hspells
    hpieces hfront action.between_inBack
  rw [← hpieces'] at hjs
  rw [hcall] at hgains
  exact ⟨js, hgains, ofText_of_spells herror hjs (hgains.wellScoped _ hscoped)⟩

/-- A stage that calls a built-in function can be put in front of the right delimiter of a pipeline
that declares nothing and does not end with a bar. The template is accepted with it. It reads the
same labels and values as before, of which those behind the stage are moved by its bytes, and it
calls that function once more. -/
theorem reads_filtered (h : (Parse.ofText text).error = none) (hpipeline : action.isPipeline)
    (hdeclares : action.declares = false) (hbar : action.endsWithBar = false)
    (hname : Builtin.isDefined name) :
    ∃ before after : Reads, Reads.ofText text = .ok (before ++ after) ∧
      Reads.ofText (action.filtered name) = .ok (before ++
        { calls := [⟨name, ⟨action.stop + 3, action.stop + 3 + name.utf8ByteSize⟩,
          lineAt text.toList action.stop⟩] } ++ after.moved (3 + name.utf8ByteSize) 0) ∧
      before.AllStart (· < action.stop) ∧ after.AllStart (action.stop ≤ ·) := by
  obtain ⟨js, hgains, hread⟩ := action.exists_outline h hpipeline hdeclares hbar hname
  have htext : (action.filtered name).toList = action.gap.text (stageOf name) :=
    String.toList_ofList
  have hstart := Reading.before_start action.toList_eq htext
  have hbehind := Reading.crosses_items hgains hstart
  rw [Reading.items_bareItems, ← htext, action.mentionIn_filtered name] at hbehind
  obtain ⟨before, after, hfirst, hsecond, hbefore, hafter⟩ :=
    hbehind.exists_reads (not_mem_stageOf hname)
  rw [utf8Length_stageOf] at hsecond
  refine ⟨before, after, ?_, ?_, hbefore, hafter⟩
  · rw [Reads.ofText, h, ← hfirst]
  · rw [hread, hsecond]

end ActionIn

/-- The template `{{ if .Labels.a }}{{ $value -}}`, and on the next line `{{ end }}{{ .Labels.b }}`.
-/
def shownValue : String :=
  "\x7b\x7b if .Labels.a \x7d\x7d\x7b\x7b $value -\x7d\x7d\n" ++
    "\x7b\x7b end \x7d\x7d\x7b\x7b .Labels.b \x7d\x7d"

set_option maxRecDepth 100000 in
def valueAction : ActionIn shownValue where
  before := [⟨.leftDelim, ['{', '{']⟩, ⟨.whitespace, [' ']⟩, ⟨.keyword .ifWord, "if".toList⟩,
    ⟨.whitespace, [' ']⟩, ⟨.field, ".Labels".toList⟩, ⟨.field, ".a".toList⟩, ⟨.whitespace, [' ']⟩,
    ⟨.rightDelim, ['}', '}']⟩]
  opening := ['{', '{']
  inner := [⟨.whitespace, [' ']⟩, ⟨.variable, "$value".toList⟩]
  closing := " -\x7d\x7d".toList
  after := [⟨.text, ['\n']⟩, ⟨.leftDelim, ['{', '{']⟩, ⟨.whitespace, [' ']⟩,
    ⟨.keyword .endWord, "end".toList⟩, ⟨.whitespace, [' ']⟩, ⟨.rightDelim, ['}', '}']⟩,
    ⟨.leftDelim, ['{', '{']⟩, ⟨.whitespace, [' ']⟩, ⟨.field, ".Labels".toList⟩,
    ⟨.field, ".b".toList⟩, ⟨.whitespace, [' ']⟩, ⟨.rightDelim, ['}', '}']⟩]
  lexemes_eq := by decide +kernel
  inner_kind := by decide

set_option maxRecDepth 100000 in
/-- The value is shown through `humanize`, and the label behind it is read 11 bytes further on. -/
theorem reads_filtered_humanize : (Parse.ofText shownValue).error = none ∧
    valueAction.isPipeline ∧ valueAction.declares = false ∧ valueAction.endsWithBar = false ∧
    Builtin.isDefined "humanize" ∧ ∃ before after : Reads,
      before ++ after = { labels := [⟨"a", ⟨13, 15⟩, 0⟩, ⟨"b", ⟨51, 53⟩, 1⟩]
                          values := [⟨⟨"$value", ⟨21, 27⟩, 0⟩, ["$value"]⟩] } ∧
      Reads.ofText (valueAction.filtered "humanize") = .ok (before ++
        { calls := [⟨"humanize", ⟨30, 38⟩, 0⟩] } ++ after.moved 11 0) ∧
      before.AllStart (· < 27) ∧ after.AllStart (27 ≤ ·) := by
  have hread : Reads.ofText shownValue = .ok
      { labels := [⟨"a", ⟨13, 15⟩, 0⟩, ⟨"b", ⟨51, 53⟩, 1⟩]
        values := [⟨⟨"$value", ⟨21, 27⟩, 0⟩, ["$value"]⟩] } := by decide +kernel
  have hpipeline : valueAction.isPipeline := by decide
  have hdeclares : valueAction.declares = false := by decide
  have hbar : valueAction.endsWithBar = false := by decide
  have hname : Builtin.isDefined "humanize" := by decide
  have hstop : valueAction.stop = 27 := by decide
  have hline : lineAt shownValue.toList 27 = 0 := by decide +kernel
  have hsize : "humanize".utf8ByteSize = 8 := by decide
  have herror := (ofText_eq_ok hread).1
  obtain ⟨before, after, hr, hr', hbefore, hafter⟩ :=
    valueAction.reads_filtered herror hpipeline hdeclares hbar hname
  rw [hstop, hline, hsize] at hr'
  rw [hstop] at hbefore hafter
  exact ⟨herror, hpipeline, hdeclares, hbar, hname, before, after,
    Except.ok.inj (hr.symm.trans hread), hr', hbefore, hafter⟩

end AlertAudit.Template
