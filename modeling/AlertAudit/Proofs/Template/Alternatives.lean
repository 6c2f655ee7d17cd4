import AlertAudit.Proofs.Template.Blocks
import AlertAudit.Proofs.Template.Regions
import AlertAudit.Proofs.Template.Surroundings

/-!
Else branches do not depend on the list in front of them, unless they use what it binds. In its text
an else branch reads what it reads alone, from the scope and the dot with which the list is entered
(`Parts.exists_reads`). Without the list the text is still accepted, and the else branch reads the
same there (`BlockIn.reads_otherwise`).
-/

set_option autoImplicit false

namespace AlertAudit.Template

open AlertAudit.Text
open Scan (Scans charsOf)

namespace Reading

/-- What an else branch reads that is a text of its own. -/
def alone (chars : List Char) (o : Otherwise) (s : State) : Reads :=
  (otherwise o { text := chars, scope := s.scope, dot := s.dot }).2.reads

/-- In a longer text an else branch reads what it reads alone. -/
theorem reads_alone (front chars back : List Char) {o : Otherwise}
    (hfits : ∀ s ∈ o.stretches, s.Fits chars) {t : State} (ht : t.text = front ++ chars ++ back) :
    (otherwise (o.moved (utf8Length front)) t).2.reads =
      t.reads ++ (alone chars o t).moved (utf8Length front) (front.count '\n') := by
  let frame : Frame := ⟨front, chars, back, t.reads⟩
  have hstart : Carried frame { text := chars, scope := t.scope, dot := t.dot } t :=
    ⟨rfl, ht, rfl, rfl, (Reads.append_nil _).symm⟩
  exact (carries_otherwise o hfits hstart).2.reads

/-- The else branch reads the same with the bindings of the list and without them. -/
def Unaffected (kind : Control) (d : Denotation) (is : List Item) (o : Otherwise) (s : State) :
    Prop :=
  let u := (listOf kind d (.items is) s).2
  u.dot = s.dot ∧ (otherwise o u).2.reads = (otherwise o { u with scope := s.scope }).2.reads

theorem unaffected_nil (kind : Control) (d : Denotation) (o : Otherwise) (s : State) :
    Unaffected kind d [] o s := by
  cases kind <;> exact ⟨rfl, rfl⟩

theorem unaffected_of_avoids {is : List Item} {o : Otherwise} {s : State} (kind : Control)
    (d : Denotation) (h : o.avoids (itemsOrigins .list is (outsideOrigins s.scope))) :
    Unaffected kind d is o s := by
  have hlist : Advances (outsideOrigins s.scope) _ (body (.items is)) := advances_items is
  obtain ⟨hscope, hdot⟩ := hlist.listOf kind d (without_outsideOrigins s.scope)
  refine ⟨hdot, ?_⟩
  have hbeside : Beside _ (listOf kind d (.items is) s).2
      { (listOf kind d (.items is) s).2 with scope := s.scope } := ⟨rfl, rfl, rfl, hscope⟩
  exact (parallel_otherwise o h hbeside).2.reads.symm

end Reading

/-! ### Scopes without the list -/

section Scopes

open Reading

variable {vars : List String} {s : State} {is : List Item}

/-- What the list did not declare is in scope without it. -/
theorem spared_list (h : Covers vars [] s.scope) (is : List Item) :
    Spared [] (itemsVarsAfter is vars) (itemsOrigins .list is (outsideOrigins s.scope)) vars where
  known n hn := by
    obtain ⟨hscope, -⟩ := advances_items is (without_outsideOrigins s.scope)
    rw [hscope.names]
    exact ((follows_items is h).covers n).mp hn |>.symm
  pending _ hn := absurd hn List.not_mem_nil
  outer n hn := by
    obtain ⟨pushed, hmarks, hpushed⟩ := grown_items .list (outsideOrigins s.scope) is
    rw [hmarks] at hn
    rcases List.mem_append.mp hn with hn | hn
    · exact absurd (hpushed _ hn) Bool.false_ne_true
    · have hname : n ∈ (marks (outsideOrigins s.scope)).map Prod.fst := List.mem_map_of_mem hn
      rw [map_fst_marks, (without_outsideOrigins s.scope).names] at hname
      exact (h n).mpr (.inl hname)

/-- Without the list of a block whose else branch avoids what the list bound, the outline is still
well-scoped. -/
theorem wellScoped_emptied {c : ListContext} {o : Otherwise} {n m : Nat}
    (hcovers : Covers (c.varsAt vars) [] s.scope)
    (h : WellScoped (itemsVisits ((c.moved n).fill (.items is) (o.moved m)) vars))
    (havoids : (o.moved m).avoids (itemsOrigins .list is (outsideOrigins s.scope))) (m' : Nat) :
    WellScoped (itemsVisits (c.fill (.items []) (o.moved m')) vars) := by
  obtain ⟨R, hR⟩ := c.exists_wellScoped_fill vars
  obtain ⟨hc, -, hbehind⟩ := (hR n _ _).mp h
  rw [← c.moved_zero]
  refine (hR 0 _ _).mpr ⟨hc, wellScoped_nil, ?_⟩
  have hscoped := spared_otherwise _ (spared_list hcovers is) havoids hbehind
  rw [Otherwise.visits_moved, wellScoped_map_moved] at hscoped ⊢
  exact hscoped

end Scopes

/-! ### Reads in the parts of a text -/

section Parts

open Reading

variable {l : Bool} {k : Control} {c : ListContext} {is : List Item} {o : Otherwise}
  {a b e z : List Lexeme}

theorem fits_of_scans {chars : List Char} {ls : List Lexeme} (h : Scans chars ls) :
    Between (Span.Fits chars) (piecesOf ls) := by
  rw [← h.charsOf_eq]
  exact between_fits_place ls

/-- Behind the list of the block `c`, when the text is read. -/
def behindList (text : String) (c : ListContext) (is : List Item) : State :=
  (listOf c.kind (c.reach (.start text)).1 (.items is) (c.reach (.start text)).2).2

/-- The list of a block is entered with the scope and the dot to which the text in front of it leads
alone. -/
theorem Parts.carried_front (h : Parts l k c is o a b e z) {text : String}
    (htext : text.toList = charsOf (a ++ b ++ e ++ z)) :
    Carried ⟨[], charsOf a, charsOf (b ++ e ++ z), {}⟩
      (c.reach (.start (String.ofList (charsOf a)))).2 (c.reach (.start text)).2 := by
  have hstart : Carried ⟨[], charsOf a, charsOf (b ++ e ++ z), {}⟩
      (.start (String.ofList (charsOf a))) (.start text) := by
    refine ⟨String.toList_ofList, ?_, rfl, rfl, rfl⟩
    change text.toList = [] ++ charsOf a ++ charsOf (b ++ e ++ z)
    rw [htext, List.nil_append, ← Scan.charsOf_append, List.append_assoc, List.append_assoc,
      List.append_assoc]
  exact (Spelling.carries_reach rfl h.spells_context (fits_of_scans h.front.1) hstart).2

/-- What is read up to the end of the list starts in front of the else branch. -/
theorem Parts.allStart_behindList (h : Parts l k c is o a b e z) (text : String) :
    (behindList text c is).text = text.toList ∧
      (behindList text c is).reads.AllStart (· < utf8Length (charsOf (a ++ b))) := by
  have hlist : Gathers (itemsOperands is) (body (.items is)) := gathers_items is
  have hgathers : Gathers (c.operandsBefore ++ itemsOperands is)
      (c.reach >>= fun d ↦ listOf c.kind d (.items is)) :=
    ((gathers_listReach c).mono (List.subset_append_left _ _)).bind fun d ↦
      (hlist.mono (List.subset_append_right _ _)).listOf c.kind d
  obtain ⟨htext, r, hr, hfrom⟩ := hgathers (.start text)
  refine ⟨htext, ?_⟩
  obtain rfl : (behindList text c is).reads = r := hr
  have hwithin := (Spelling.within_inTemplate h.spells_context).1.append
    (Spelling.within_items h.spells_list)
  refine (hfrom.allStart hwithin).mono ?_
  rintro _ ⟨p, hp, rfl⟩
  rw [Scan.charsOf_append, utf8Length_append]
  rcases List.mem_append.mp hp with hp | hp
  · have hstart := start_lt_of_mem_piecesOf h.front.1 hp
    omega
  · obtain ⟨q, hq, rfl⟩ := List.mem_map.mp hp
    have hstart := start_lt_of_mem_piecesOf h.list hq
    change q.token.start + utf8Length (charsOf a) < _
    omega

/-- What is read in the text of a block: in front of the else branch, there, and behind it. -/
theorem Parts.exists_reads (h : Parts l k c is o a b e z) {text : String}
    (htext : text.toList = charsOf (a ++ b ++ e ++ z))
    (hlist : Unaffected c.kind (c.reach (.start text)).1 is
      (o.moved (utf8Length (charsOf (a ++ b)))) (c.reach (.start text)).2) :
    ∃ before after,
      (items (c.fill (.items is) (o.moved (utf8Length (charsOf (a ++ b))))) (.start text)).2.reads =
        before ++ (alone (charsOf e) o (c.reach (.start (String.ofList (charsOf a)))).2).moved
          (utf8Length (charsOf (a ++ b))) ((charsOf (a ++ b)).count '\n') ++ after ∧
      before.AllStart (· < utf8Length (charsOf (a ++ b))) ∧
      after.AllStart (utf8Length (charsOf (a ++ b ++ e)) ≤ ·) := by
  obtain ⟨hbehind, hbefore⟩ := h.allStart_behindList text
  obtain ⟨hdot, hsame⟩ := hlist
  have hfront := h.carried_front htext
  obtain ⟨-, r, hr, hfrom⟩ := later_listFill (.items is)
    (o.moved (utf8Length (charsOf (a ++ b)))) c (.start text)
  have halone := reads_alone (charsOf (a ++ b)) (charsOf e) (charsOf z)
    (t := { behindList text c is with scope := (c.reach (.start text)).2.scope })
    (Spelling.stretches_tail h.spells_tail (fits_of_scans h.tail.1)) (by
      change (behindList text c is).text = _
      rw [hbehind, htext, ← Scan.charsOf_append, ← Scan.charsOf_append])
  have hstate : alone (charsOf e) o
      { behindList text c is with scope := (c.reach (.start text)).2.scope } =
        alone (charsOf e) o (c.reach (.start (String.ofList (charsOf a)))).2 := by
    change (otherwise o ⟨charsOf e, {}, (c.reach (.start text)).2.scope,
      (behindList text c is).dot⟩).2.reads = _
    rw [show (behindList text c is).dot = _ from hdot, hfront.scope, hfront.dot]
    rfl
  refine ⟨(behindList text c is).reads, r, ?_, hbefore, ?_⟩
  · rw [hr, ← hstate, ← halone]
    exact congrArg (· ++ r) hsame
  · refine (hfrom.allStart (Spelling.within_inTemplate h.spells_context).2).mono ?_
    rintro _ ⟨p, hp, rfl⟩
    obtain ⟨q, -, rfl⟩ := List.mem_map.mp hp
    exact Nat.le_add_left _ _

/-- A mention in an else branch starts in its text. -/
theorem Parts.allStart_alone (h : Parts l k c is o a b e z) (s : State) :
    (alone (charsOf e) o s).AllStart (· < utf8Length (charsOf e)) := by
  obtain ⟨-, r, hr, hfrom⟩ := gathers_otherwise o
    { text := charsOf e, scope := s.scope, dot := s.dot }
  obtain rfl : alone (charsOf e) o s = r := hr
  refine (hfrom.allStart (Spelling.within_tail h.spells_tail)).mono ?_
  rintro _ ⟨p, hp, rfl⟩
  exact start_lt_of_mem_piecesOf h.tail.1 hp

/-- The parts of a text are accepted together if their outline is well-scoped. -/
theorem Parts.accepted (h : Parts l k c is o a b e z) (hscoped : WellScoped (itemsVisits
    (c.fill (.items is) (o.moved (utf8Length (charsOf (a ++ b))))) prelude)) :
    (Parse.ofText (String.ofList (charsOf (a ++ b ++ e ++ z)))).error = none ∧
      bareItems (Parse.ofText (String.ofList (charsOf (a ++ b ++ e ++ z)))).tree.items =
        c.fill (.items is) (o.moved (utf8Length (charsOf (a ++ b)))) := by
  obtain ⟨herror, hpieces⟩ := pieces_ofText h.whole
  have hspells := h.spells
  rw [← hpieces] at hspells
  exact ⟨(error_eq_none_iff_spells _).mpr ⟨herror, _, hspells, hscoped⟩,
    bareItems_of_spells hspells hscoped⟩

/-- In its text an else branch reads what it reads alone, behind the text in front of the list. -/
theorem Parts.reads (h : Parts l k c is o a b e z) {text : String}
    (htext : text.toList = charsOf (a ++ b ++ e ++ z)) (hscoped : WellScoped (itemsVisits
      (c.fill (.items is) (o.moved (utf8Length (charsOf (a ++ b))))) prelude))
    (hlist : Unaffected c.kind (c.reach (.start text)).1 is
      (o.moved (utf8Length (charsOf (a ++ b)))) (c.reach (.start text)).2) :
    ∃ r, Reads.ofText text = .ok r ∧
      r.startingIn ⟨utf8Length (charsOf (a ++ b)), utf8Length (charsOf (a ++ b ++ e))⟩ =
        (alone (charsOf e) o (c.reach (.start (String.ofList (charsOf a)))).2).moved
          (utf8Length (charsOf (a ++ b))) ((charsOf (a ++ b)).count '\n') := by
  obtain ⟨haccepted, houtline⟩ := h.accepted hscoped
  rw [← htext, String.ofList_toList] at haccepted houtline
  obtain ⟨before, after, hreads, hbefore, hafter⟩ := h.exists_reads htext hlist
  rw [← houtline, items_bareItems] at hreads
  refine ⟨_, by rw [Reads.ofText, haccepted], ?_⟩
  rw [hreads]
  refine Reads.startingIn_of_middle hbefore ((h.allStart_alone _).moved (fun n hn ↦ ?_) _) hafter
  rw [Scan.charsOf_append (a ++ b), utf8Length_append]
  change utf8Length (charsOf (a ++ b)) ≤ n + _ ∧ n + _ < _ + _
  omega

end Parts

/-- The else branch of the block reads no variable that the list declared, or that was last bound by
an assignment in the list, and assigns to none that the list declared. -/
def BlockIn.Avoids {text : String} (block : BlockIn text) : Prop :=
  block.otherwise.avoids (itemsOrigins .list block.items
    (Reading.outsideOrigins (block.context.reach (.start text)).2.scope))

/-- An else branch that avoids what the list in front of it bound reads the same without the list:
the text is still accepted, and what is read in the else branch is moved by the bytes and the line
breaks of the list. -/
theorem BlockIn.reads_otherwise {text : String} (h : (Parse.ofText text).error = none)
    (block : BlockIn text) (havoids : block.Avoids) : ∃ r r', Reads.ofText text = .ok r ∧
      Reads.ofText block.emptied = .ok r' ∧ r.startingIn block.tailSpan =
        (r'.startingIn block.emptiedSpan).moved (utf8Length block.listText)
          (block.listText.count '\n') := by
  obtain ⟨hany, -⟩ := (error_eq_none_iff_spells text).mp h
  have hscoped := (spells_of_accepted h).2
  obtain ⟨a, b, e, z, o, htext, hparts, ho, hfront, htail⟩ := block.exists_parts hany
  obtain ⟨hlistSpan, htailSpan⟩ := BlockIn.spans_of_parts hparts hfront htail
  obtain ⟨hlistText, hemptied⟩ := BlockIn.texts_of_parts htext hlistSpan
  obtain ⟨c₀, hc, hrest⟩ := hparts.emptied
  rw [block.outline_eq, ho] at hscoped
  have hlist := Reading.unaffected_of_avoids block.context.kind
    (block.context.reach (.start text)).1 havoids
  rw [ho] at hlist
  obtain ⟨r, hr, hregion⟩ := hparts.reads htext hscoped hlist
  -- without the list
  have hscoped' : WellScoped (itemsVisits
      (c₀.fill (.items []) (o.moved (utf8Length (charsOf (a ++ []))))) prelude) := by
    rw [BlockIn.Avoids, ho, hc, ListContext.reach_moved] at havoids
    rw [hc] at hscoped
    have hcovers := Reading.covers_listReach c₀ (Reading.covers_start text)
    exact wellScoped_emptied hcovers hscoped havoids _
  have hemptied' : block.emptied.toList = charsOf (a ++ [] ++ e ++ z) := by
    rw [hemptied, String.toList_ofList, List.append_nil]
  obtain ⟨r', hr', hregion'⟩ := hrest.reads hemptied' hscoped' (Reading.unaffected_nil _ _ _ _)
  refine ⟨r, r', hr, hr', ?_⟩
  have hspan : block.emptiedSpan =
      ⟨utf8Length (charsOf (a ++ [])), utf8Length (charsOf (a ++ [] ++ e))⟩ := by
    rw [BlockIn.emptiedSpan, htailSpan, hlistText]
    simp only [Scan.charsOf_append, utf8Length_append, List.append_nil, Span.mk.injEq]
    omega
  rw [htailSpan, hspan, hregion, hregion', Reads.moved_moved, hlistText, hc,
    ListContext.reach_moved, Scan.charsOf_append a b, utf8Length_append, List.count_append,
    List.append_nil]

/-! ### A list that assigns to a variable -/

namespace AssignedInList

open Spelling Grammar

/-- A piece with white space behind it. -/
def spaced (kind : TokenKind) (start : Nat) (text : String) : Piece := ⟨⟨kind, start, text⟩, true⟩

/-- A piece without white space behind it. -/
def tight (kind : TokenKind) (start : Nat) (text : String) : Piece := ⟨⟨kind, start, text⟩, false⟩

def action (start : Nat) (ps : List Piece) (stop : Nat) : List Piece :=
  spaced .leftDelim start "\x7b\x7b" :: ps ++ [tight .rightDelim stop "\x7d\x7d"]

def operandOf (p : Piece) (fs : List Piece) : Template.Operand :=
  .mk (termOf p.token) (extentOf (p :: fs)) (fieldsOf (p :: fs))

def shows (p : Piece) (fs : List Piece) : Template.Item :=
  .action nowhere (some (.mk none [[operandOf p fs]]))

def binds (v mark p : Piece) : Template.Item :=
  .action nowhere (some (.mk (some ⟨[v.token], mark.kind = .assign⟩) [[operandOf p []]]))

theorem item_binds (v mark p : Piece) {c : Parser.OperandClass} (hv : v.kind = .variable)
    (hmark : mark.kind = .declare ∨ mark.kind = .assign) (hp : Atom [p.text] p c) (hc : c ≠ .nil)
    (inLoop : Bool) (start stop : Nat) :
    Spelling.Item inLoop (action start [v, mark, p] stop) [binds v mark p] := by
  have hoperand : Spelling.Command Parser.maxDepth [p] c [operandOf p []] :=
    .last (.atom hp .nil (absurd rfl))
  exact .action rfl (.mk (.one hv hmark) hoperand hc .nil) rfl

theorem header_operand {ps : List Piece} {c : Parser.OperandClass} {spaced : Bool}
    {o : Template.Operand} (h : Spelling.Operand Parser.maxDepth ps c spaced o) (hc : c ≠ .nil)
    (inRange : Bool) : Header inRange ps (.mk none [[o]]) := by
  have hheader : Header inRange ([] ++ ps ++ []) _ := .mk .none (.last h) hc .nil
  rwa [List.nil_append, List.append_nil] at hheader

theorem item_shows (p : Piece) {c : Parser.OperandClass} (hp : Atom [p.text] p c) (hc : c ≠ .nil)
    (inLoop : Bool) (start stop : Nat) :
    Spelling.Item inLoop (action start [p] stop) [shows p []] := by
  have hoperand : Spelling.Operand Parser.maxDepth [p] c p.spaced (operandOf p []) :=
    .atom hp .nil (absurd rfl)
  exact .action rfl (header_operand hoperand hc false) rfl

def front : List Piece :=
  action 0 [spaced .variable 3 "$x", spaced .declare 6 ":=", spaced .variable 9 "$value"] 16 ++
    action 18 [spaced (.keyword .ifWord) 21 "if", tight .field 24 ".Labels",
      spaced .field 31 ".a"] 34

def list : List Piece :=
  tight .text 36 "é\n" ::
    action 39 [spaced .variable 42 "$x", spaced .assign 45 "=", spaced .number 47 "1"] 49

def context : ListContext :=
  .mk [binds (spaced .variable 3 "$x") (spaced .declare 6 ":=") (spaced .variable 9 "$value")]
    (.here .ifBlock (some (.mk none
      [[operandOf (tight .field 24 ".Labels") [spaced .field 31 ".a"]]]))) []

def items : List Template.Item :=
  [binds (spaced .variable 42 "$x") (spaced .assign 45 "=") (spaced .number 47 "1")]

theorem spells_context : InTemplate false .ifBlock front [] context := by
  have hfirst := item_binds (spaced .variable 3 "$x") (spaced .declare 6 ":=")
    (spaced .variable 9 "$value") rfl (.inl rfl) (.inScope rfl List.mem_cons_self) (by decide)
    false 0 16
  have hfields : Fields false [spaced .field 31 ".a"] true := .cons rfl .nil
  have hoperand : Spelling.Operand Parser.maxDepth
      [tight .field 24 ".Labels", spaced .field 31 ".a"]
      .executable true (operandOf (tight .field 24 ".Labels") [spaced .field 31 ".a"]) :=
    .atom (.field rfl) hfields fun _ ↦ rfl
  have hopens : Opens Control.ifBlock.word
      [spaced .leftDelim 18 "\x7b\x7b", spaced (.keyword .ifWord) 21 "if"] := ⟨_, _, rfl, rfl, rfl⟩
  have hblock : InGuarded false .ifBlock false .ifBlock
      ([_, _] ++ [tight .rightDelim 34 "\x7d\x7d"])
      [] _ := .here (header_operand hoperand (by decide) _) rfl
  exact .item (.item hfirst .nil) (.guarded hopens hblock) .nil

theorem spells_list : Spelling.Items (false || Control.ifBlock = .rangeBlock) list items := by
  have hassign := item_binds (spaced .variable 42 "$x") (spaced .assign 45 "=")
    (spaced .number 47 "1") rfl (.inr rfl) (.number rfl) (by decide) false 39 49
  exact .cons (.text rfl) (.cons hassign .nil)

/-- The text `{{ $x := $value }}{{ if .Labels.a }}é`, and on the next line `{{ $x = 1 }}`. -/
def textToList : String :=
  "\x7b\x7b $x := $value \x7d\x7d\x7b\x7b if .Labels.a \x7d\x7dé\n\x7b\x7b $x = 1 \x7d\x7d"

/-- The block whose else branch is `{{ else }}{{ $x }}`. -/
def shownText : String :=
  textToList ++ "\x7b\x7b else \x7d\x7d\x7b\x7b $x \x7d\x7d\x7b\x7b end \x7d\x7d"

/-- The branch with its words and the end of the block. -/
def shownTail : List Piece :=
  action 51 [spaced (.keyword .elseWord) 54 "else"] 59 ++
    (action 61 [spaced .variable 64 "$x"] 67 ++ []) ++
      action 69 [spaced (.keyword .endWord) 72 "end"] 76

theorem pieces_shown :
    pieces (Tokens.ofText shownText).tokens = front ++ (list ++ shownTail) ++ [] := by
  decide +kernel

theorem spells_shownTail : Spelling.Tail false context.kind shownTail
    (.body (.items [shows (spaced .variable 64 "$x") []])) := by
  have hshown := item_shows (spaced .variable 64 "$x") (.inScope rfl List.mem_cons_self)
    (by decide) false 61 67
  exact .otherwise ⟨_, _, _, rfl, rfl, rfl, rfl⟩ (.cons hshown .nil) ⟨_, _, _, rfl, rfl, rfl, rfl⟩

def shown : BlockIn shownText where
  inLoop := false
  context := context
  items := items
  otherwise := .body (.items [shows (spaced .variable 64 "$x") []])
  front := front
  list := list
  tail := shownTail
  back := []
  outline_eq := by
    have hspells := template_fill spells_context spells_list spells_shownTail
    refine bareItems_of_spells (pieces_shown ▸ hspells) ?_
    rw [WellScoped]
    decide +kernel
  pieces_eq := pieces_shown
  spells_context := spells_context
  spells_list := spells_list
  spells_tail := spells_shownTail

def emptiedText : String :=
  "\x7b\x7b $x := $value \x7d\x7d\x7b\x7b if .Labels.a \x7d\x7d" ++
    "\x7b\x7b else \x7d\x7d\x7b\x7b $x \x7d\x7d\x7b\x7b end \x7d\x7d"

set_option maxRecDepth 100000 in
/-- Where the list declares nothing but assigns to a variable from in front of the block, what is
read in the else branch can depend on the list. -/
theorem not_forall_reads_otherwise : ¬∀ (text : String) (block : BlockIn text),
    (Parse.ofText text).error = none → (∀ decl ∈ itemsDecls block.items, decl.isAssign) →
      ∃ r r', Reads.ofText text = .ok r ∧ Reads.ofText block.emptied = .ok r' ∧
        r.startingIn block.tailSpan = (r'.startingIn block.emptiedSpan).moved
          (utf8Length block.listText) (block.listText.count '\n') := by
  intro h
  have hread : Reads.ofText shownText = .ok { labels := [⟨"a", ⟨31, 33⟩, 0⟩] } := by decide +kernel
  have hassigns : ∀ decl ∈ itemsDecls shown.items, decl.isAssign := by decide
  obtain ⟨r, r', hr, hr', hregion⟩ := h shownText shown (ofText_eq_ok hread).1 hassigns
  have hemptied : shown.emptied = emptiedText := by decide +kernel
  have hspan : shown.emptiedSpan = ⟨36, 63⟩ := by decide +kernel
  have hreadEmptied : Reads.ofText emptiedText = .ok
      { labels := [⟨"a", ⟨31, 33⟩, 0⟩]
        values := [⟨⟨"$x", ⟨49, 51⟩, 0⟩, ["$x", "$value"]⟩] } := by decide +kernel
  rw [hemptied] at hr'
  obtain rfl := Except.ok.inj (hread.symm.trans hr)
  obtain rfl := Except.ok.inj (hreadEmptied.symm.trans hr')
  rw [hspan] at hregion
  exact absurd (congrArg Reads.values hregion) (List.cons_ne_nil _ _).symm

/-- The block whose else branch is `{{ else }}{{ $x = $value }}{{ $x }}`. -/
def reboundText : String :=
  textToList ++ "\x7b\x7b else \x7d\x7d\x7b\x7b $x = $value \x7d\x7d" ++
    "\x7b\x7b $x \x7d\x7d\x7b\x7b end \x7d\x7d"

/-- The branch with its words and the end of the block. -/
def reboundTail : List Piece :=
  action 51 [spaced (.keyword .elseWord) 54 "else"] 59 ++
    (action 61 [spaced .variable 64 "$x", spaced .assign 67 "=", spaced .variable 69 "$value"] 76 ++
      (action 78 [spaced .variable 81 "$x"] 84 ++ [])) ++
        action 86 [spaced (.keyword .endWord) 89 "end"] 93

theorem pieces_rebound :
    pieces (Tokens.ofText reboundText).tokens = front ++ (list ++ reboundTail) ++ [] := by
  decide +kernel

theorem spells_reboundTail : Spelling.Tail false context.kind reboundTail
    (.body (.items [binds (spaced .variable 64 "$x") (spaced .assign 67 "=")
      (spaced .variable 69 "$value"), shows (spaced .variable 81 "$x") []])) := by
  have hbound := item_binds (spaced .variable 64 "$x") (spaced .assign 67 "=")
    (spaced .variable 69 "$value") rfl (.inr rfl) (.inScope rfl List.mem_cons_self) (by decide)
    false 61 76
  have hshown := item_shows (spaced .variable 81 "$x") (.inScope rfl List.mem_cons_self)
    (by decide) false 78 84
  exact .otherwise ⟨_, _, _, rfl, rfl, rfl, rfl⟩ (.cons hbound (.cons hshown .nil))
    ⟨_, _, _, rfl, rfl, rfl, rfl⟩

def rebound : BlockIn reboundText where
  inLoop := false
  context := context
  items := items
  otherwise := .body (.items [binds (spaced .variable 64 "$x") (spaced .assign 67 "=")
    (spaced .variable 69 "$value"), shows (spaced .variable 81 "$x") []])
  front := front
  list := list
  tail := reboundTail
  back := []
  outline_eq := by
    have hspells := template_fill spells_context spells_list spells_reboundTail
    refine bareItems_of_spells (pieces_rebound ▸ hspells) ?_
    rw [WellScoped]
    decide +kernel
  pieces_eq := pieces_rebound
  spells_context := spells_context
  spells_list := spells_list
  spells_tail := spells_reboundTail

set_option maxRecDepth 100000 in
/-- An else branch that assigns to the variable first reads the same without the list. -/
theorem reads_otherwise_rebound : (Parse.ofText reboundText).error = none ∧ rebound.Avoids ∧
    ∃ r', Reads.ofText rebound.emptied = .ok r' ∧
      (r'.startingIn ⟨36, 80⟩).moved 15 1 =
        { values := [⟨⟨"$x", ⟨81, 83⟩, 1⟩, ["$x", "$value"]⟩] } := by
  have hread : Reads.ofText reboundText = .ok
      { labels := [⟨"a", ⟨31, 33⟩, 0⟩]
        values := [⟨⟨"$x", ⟨81, 83⟩, 1⟩, ["$x", "$value"]⟩] } := by decide +kernel
  have hlist : rebound.listText = "é\n\x7b\x7b $x = 1 \x7d\x7d".toList := by decide +kernel
  have hspan : rebound.emptiedSpan = ⟨36, 80⟩ := by decide +kernel
  have havoids : rebound.Avoids := by
    rw [BlockIn.Avoids]
    decide +kernel
  have herror := (ofText_eq_ok hread).1
  obtain ⟨r, r', hr, hr', hregion⟩ := rebound.reads_otherwise herror havoids
  obtain rfl := Except.ok.inj (hread.symm.trans hr)
  refine ⟨herror, havoids, r', hr', ?_⟩
  rw [hspan, hlist] at hregion
  exact hregion.symm

end AssignedInList

end AlertAudit.Template
