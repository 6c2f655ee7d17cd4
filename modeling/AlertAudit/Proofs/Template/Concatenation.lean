import AlertAudit.Proofs.Template.Carried
import AlertAudit.Proofs.Template.Declarations
import AlertAudit.Proofs.Template.Outlines
import AlertAudit.Proofs.Template.Seam
import AlertAudit.Proofs.Template.TokenStream
import AlertAudit.Proofs.Template.Visits.Items

/-!
Templates one after the other. The pieces of two templates are those of the first and, moved, those
of the second, but for text where they meet (`Meets`); text leaves nothing in the outline, so the
whole spells the outline of the first and the moved one of the second (`spells_append`). If the
first one declares nothing, it leaves the scopes as it finds them. So two accepted templates make an
accepted one, which reads what the first reads and then what the second reads (`reads_append`).
-/

set_option autoImplicit false

namespace AlertAudit.Template

open AlertAudit.Text

/-! ### Pieces -/

theorem place_append (start : Nat) (ls ms : List Lexeme) : Token.place start (ls ++ ms) =
    Token.place start ls ++ Token.place (start + utf8Length (Scan.charsOf ls)) ms := by
  induction ls generalizing start with
  | nil => rfl
  | cons l ls ih =>
    rw [List.cons_append, Token.place, Token.place, ih, stop_place, Scan.charsOf_cons,
      utf8Length_append, Nat.add_assoc]
    rfl

/-- Where no white space follows, pieces go on without knowing of what comes in front of them. -/
theorem pieces_append {ts us : List Token} (h : ∀ u ∈ us.head?, u.isTrivia = false) :
    pieces (ts ++ us) = pieces ts ++ pieces us := by
  induction ts with
  | nil => rfl
  | cons t ts ih =>
    have hspaced : (ts ++ us).head?.any (·.isTrivia) = ts.head?.any (·.isTrivia) := by
      cases ts with
      | nil =>
        cases us with
        | nil => rfl
        | cons u us => exact h u rfl
      | cons => rfl
    rw [List.cons_append, pieces, pieces, ih, hspaced]
    split <;> rfl

theorem pieces_cons {t : Token} (h : t.isTrivia = false) (ts : List Token) :
    pieces (t :: ts) = ⟨t, ts.head?.any (·.isTrivia)⟩ :: pieces ts := by
  rw [pieces, h]
  rfl

/-- The pieces of two templates one after the other: the second ones are moved, and text where they
meet becomes one. -/
inductive Meets (n : Nat) : List Piece → List Piece → List Piece → Prop
  | apart (ps qs : List Piece) : Meets n ps qs (ps ++ qs.map (·.moved n))
  | merged (ps qs : List Piece) {x y z : Piece} : x.kind = .text → y.kind = .text →
    z.kind = .text → Meets n (ps ++ [x]) (y :: qs) (ps ++ z :: qs.map (·.moved n))

/-- Lexemes that are joined are pieces that meet. -/
theorem meets_of_joined {ls ms ns : List Lexeme} (h : Scan.Joined ls ms ns)
    (hhead : ∀ l ∈ ms.head?, l.kind ≠ .whitespace) :
    Meets (utf8Length (Scan.charsOf ls)) (pieces (Token.place 0 ls)) (pieces (Token.place 0 ms))
      (pieces (Token.place 0 ns)) := by
  cases h with
  | apart ls ms =>
    have hfirst : ∀ u ∈ (Token.place (0 + utf8Length (Scan.charsOf ls)) ms).head?,
        u.isTrivia = false := by
      cases ms with
      | nil => exact fun _ hu ↦ absurd hu nofun
      | cons m ms =>
        intro u hu
        obtain rfl := Option.some.inj hu
        exact decide_eq_false (hhead m rfl)
    rw [place_append, pieces_append hfirst, place_moved, pieces_moved]
    exact .apart _ _
  | merged ls ms xs ys =>
    have hbehind : Token.stop ⟨.text, 0 + utf8Length (Scan.charsOf ls), String.ofList (xs ++ ys)⟩ =
        Token.stop ⟨.text, 0, String.ofList ys⟩ +
          utf8Length (Scan.charsOf (ls ++ [⟨.text, xs⟩])) := by
      rw [stop_place, stop_place, Scan.charsOf_append, utf8Length_append, utf8Length_append,
        Scan.charsOf_cons, utf8Length_append]
      change _ = 0 + utf8Length ys + (utf8Length (Scan.charsOf ls) + (utf8Length xs + 0))
      omega
    rw [place_append, place_append, pieces_append, pieces_append, Token.place, Token.place,
      Token.place, Token.place, pieces_cons rfl, pieces_cons rfl, pieces_cons rfl, hbehind,
      place_moved, pieces_moved]
    · exact .merged _ _ rfl rfl rfl
    all_goals
      intro u hu
      obtain rfl := Option.some.inj hu
      rfl

/-! ### Outlines -/

def StartsAction (ps : List Piece) : Prop := ∃ p r, ps = p :: r ∧ p.kind = .leftDelim

def EndsAction (ps : List Piece) : Prop := ∃ r p, ps = r ++ [p] ∧ p.kind = .rightDelim

theorem StartsAction.append {ps : List Piece} (h : StartsAction ps) (qs : List Piece) :
    StartsAction (ps ++ qs) := by
  obtain ⟨p, r, rfl, hp⟩ := h
  exact ⟨p, r ++ qs, rfl, hp⟩

theorem EndsAction.behind {ps : List Piece} (h : EndsAction ps) (front : List Piece) :
    EndsAction (front ++ ps) := by
  obtain ⟨r, p, rfl, hp⟩ := h
  exact ⟨front ++ r, p, by rw [List.append_assoc], hp⟩

theorem endsAction_singleton {p : Piece} (hp : p.kind = .rightDelim) : EndsAction [p] :=
  ⟨[], p, rfl, hp⟩

def StartsClosed (ps : List Piece) : Prop := ∃ p r, ps = p :: r ∧ p.kind ≠ .text

def EndsClosed (ps : List Piece) : Prop := ∃ r p, ps = r ++ [p] ∧ p.kind ≠ .text

theorem StartsAction.closed {ps : List Piece} (h : StartsAction ps) : StartsClosed ps := by
  obtain ⟨p, r, rfl, hp⟩ := h
  exact ⟨p, r, rfl, hp ▸ by decide⟩

theorem EndsAction.closed {ps : List Piece} (h : EndsAction ps) : EndsClosed ps := by
  obtain ⟨r, p, rfl, hp⟩ := h
  exact ⟨r, p, rfl, hp ▸ by decide⟩

namespace Spelling

open Grammar (Opens Marks)

theorem startsAction_opens {word : Keyword} {ps : List Piece} (h : Opens word ps) :
    StartsAction ps := by
  obtain ⟨left, w, rfl, hleft, -⟩ := h
  exact ⟨left, [w], rfl, hleft⟩

theorem startsAction_marks {word : Keyword} {ps : List Piece} (h : Marks word ps) :
    StartsAction ps := by
  obtain ⟨left, w, right, rfl, hleft, -, -⟩ := h
  exact ⟨left, [w, right], rfl, hleft⟩

theorem endsAction_marks {word : Keyword} {ps : List Piece} (h : Marks word ps) :
    EndsAction ps := by
  obtain ⟨left, w, right, rfl, -, -, hright⟩ := h
  exact (endsAction_singleton hright).behind [left, w]

mutual

theorem endsAction_guarded {inLoop : Bool} {kind : Control} {ps : List Piece}
    {i : Template.Item} : Guarded inLoop kind ps i → EndsAction ps
  | .mk _ _ _ htail => (endsAction_tail htail).behind _

theorem endsAction_tail {inLoop : Bool} {kind : Control} {ps : List Piece}
    {o : Template.Otherwise} : Tail inLoop kind ps o → EndsAction ps
  | .close hmarks => endsAction_marks hmarks
  | .otherwise _ _ hclose => (endsAction_marks hclose).behind _
  | .chained (w := w) _ _ _ hguarded => ((endsAction_guarded hguarded).behind [w]).behind _

end

/-- An item is text, or has no text at its ends. -/
theorem item_ends {inLoop : Bool} {ps : List Piece} {is : List Template.Item}
    (h : Item inLoop ps is) :
    (∃ p : Piece, ps = [p] ∧ p.kind = .text ∧ is = []) ∨ StartsClosed ps ∧ EndsClosed ps := by
  cases h with
  | text hkind => exact .inl ⟨_, rfl, hkind, rfl⟩
  | @comment _ p hkind =>
    have hp : p.kind ≠ .text := hkind ▸ by decide
    exact .inr ⟨⟨p, [], rfl, hp⟩, ⟨[], p, rfl, hp⟩⟩
  | action hleft _ hright =>
    exact .inr ⟨StartsAction.closed ⟨_, _, rfl, hleft⟩,
      ((endsAction_singleton hright).behind _).closed⟩
  | guarded hopens hguarded =>
    exact .inr ⟨((startsAction_opens hopens).append _).closed,
      ((endsAction_guarded hguarded).behind _).closed⟩
  | block hopens _ _ _ _ hmarks =>
    exact .inr ⟨((((startsAction_opens hopens).append _).append _).append _).closed,
      ((endsAction_marks hmarks).behind _).closed⟩
  | call hopens _ hright =>
    exact .inr ⟨((startsAction_opens hopens).append _).closed,
      (((endsAction_singleton hright).behind [_]).behind _).closed⟩
  | callWith hopens _ _ hright =>
    exact .inr ⟨(((startsAction_opens hopens).append _).append _).closed,
      ((endsAction_singleton hright).behind _).closed⟩
  | breaks hmarks | continues hmarks =>
    exact .inr ⟨(startsAction_marks hmarks).closed, (endsAction_marks hmarks).closed⟩

theorem definition_ends {ps : List Piece} {i : Template.Item} (h : Definition ps i) :
    StartsClosed ps ∧ EndsClosed ps := by
  cases h with
  | mk hopens _ _ _ hclose =>
    exact ⟨(((startsAction_opens hopens).append _).append _).closed,
      ((endsAction_marks hclose).behind _).closed⟩

theorem template_append {ps qs : List Piece} {is js : List Template.Item} (h : Root ps is)
    (h' : Root qs js) : Root (ps ++ qs) (is ++ js) := by
  induction h with
  | nil => exact h'
  | definition hdefinition _ ih =>
    rw [List.append_assoc]
    exact .definition hdefinition ih
  | item hitem _ ih =>
    rw [List.append_assoc, List.append_assoc]
    exact .item hitem ih

/-- Text at the start of a template leaves nothing in the outline. -/
theorem template_of_text_cons {y : Piece} {qs : List Piece} {js : List Template.Item}
    (hy : y.kind = .text) (h : Root (y :: qs) js) : Root qs js := by
  have hnot {ps rs : List Piece} (hstart : StartsClosed ps) (hps : ps ++ rs = y :: qs) : False := by
    obtain ⟨p, r, rfl, hp⟩ := hstart
    exact hp ((List.cons.inj hps).1 ▸ hy)
  generalize hall : y :: qs = all at h
  cases h with
  | nil => exact absurd hall nofun
  | definition hdefinition _ => exact (hnot (definition_ends hdefinition).1 hall.symm).elim
  | item hitem hrest =>
    rcases item_ends hitem with ⟨p, rfl, -, rfl⟩ | ⟨hstart, -⟩
    · rwa [(List.cons.inj hall).2]
    · exact (hnot hstart hall.symm).elim

/-- Text at the end of a template leaves nothing in the outline. -/
theorem template_of_append_text {x : Piece} {ps : List Piece} {is : List Template.Item}
    (hx : x.kind = .text) (h : Root (ps ++ [x]) is) : Root ps is := by
  have hnot {ps qs : List Piece} (hend : EndsClosed qs) (hps : qs = ps ++ [x]) : False := by
    obtain ⟨r, p, rfl, hp⟩ := hend
    obtain ⟨-, hlast⟩ := List.append_inj' hps rfl
    exact hp ((List.cons.inj hlast).1 ▸ hx)
  generalize hall : ps ++ [x] = all at h
  induction h generalizing ps with
  | nil => exact absurd hall (by simp)
  | @definition first rest i is hdefinition hrest ih =>
    rcases List.eq_nil_or_concat' rest with rfl | ⟨rest, z, rfl⟩
    · rw [List.append_nil] at hall
      exact (hnot (definition_ends hdefinition).2 hall.symm).elim
    · rw [← List.append_assoc] at hall
      obtain ⟨rfl, hz⟩ := List.append_inj' hall rfl
      exact .definition hdefinition (ih (congrArg _ hz))
  | @item first rest is js hitem hrest ih =>
    rcases List.eq_nil_or_concat' rest with rfl | ⟨rest, z, rfl⟩
    · rw [List.append_nil] at hall
      rcases item_ends hitem with ⟨p, rfl, -, rfl⟩ | ⟨-, hend⟩
      · have hlone : ps ++ [x] = [] ++ [p] := hall
        obtain ⟨rfl, -⟩ := List.append_inj' hlone rfl
        exact hrest
      · exact (hnot hend hall.symm).elim
    · rw [← List.append_assoc] at hall
      obtain ⟨rfl, hz⟩ := List.append_inj' hall rfl
      exact .item hitem (ih (congrArg _ hz))

/-- Templates that meet spell the outline of the first one and the moved one of the second one. -/
theorem template_of_meets {n : Nat} {ps qs rs : List Piece} {is js : List Template.Item}
    (h : Meets n ps qs rs) (hfirst : Root ps is) (hsecond : Root qs js) :
    Root rs (is ++ itemsMoved n js) := by
  cases h with
  | apart => exact template_append hfirst (template_moved hsecond)
  | merged ps qs hx hy hz =>
    have hrest := template_moved (n := n) (template_of_text_cons hy hsecond)
    exact template_append (template_of_append_text hx hfirst) (.item (.text hz) hrest)

end Spelling

/-! ### Texts -/

theorem tokens_error_eq_none_iff (text : String) :
    (Tokens.ofText text).error = none ↔ (Scan.scanText text.toList).outcome = .ok () := by
  rw [error_ofText]
  cases (Scan.scanText text.toList).outcome <;> simp [Scan.failure]

/-- Two templates one after the other spell the outline of the first one and the moved one of the
second one. -/
theorem spells_append {a b : String} {is js : List Item} (ha : (Tokens.ofText a).error = none)
    (hseam : ¬Scan.Delimits a.toList b.toList)
    (hfirst : Spelling.Root (pieces (Tokens.ofText a).tokens) is)
    (hsecond : Spelling.Root (pieces (Tokens.ofText b).tokens) js) :
    (Tokens.ofText (a ++ b)).error = (Tokens.ofText b).error ∧
      Spelling.Root (pieces (Tokens.ofText (a ++ b)).tokens)
        (is ++ itemsMoved a.utf8ByteSize js) := by
  obtain ⟨houtcome, hjoined⟩ := Scan.scanText_append ((tokens_error_eq_none_iff a).mp ha) hseam
  rw [← String.toList_append] at houtcome hjoined
  have hmeets := meets_of_joined hjoined (stream_scanText b.toList).kind_head?_ne_whitespace
  rw [Scan.charsOf_scanText, utf8Length_toList] at hmeets
  exact ⟨by rw [Tokens.ofText, houtcome]; rfl, Spelling.template_of_meets hmeets hfirst hsecond⟩

/-- An outline stays well-scoped behind one that declares nothing. -/
theorem wellScoped_append_moved {is js : List Item} {vars : List String} (n : Nat)
    (his : WellScoped (itemsVisits is vars)) (hdecls : itemsVarsAfter is vars = vars)
    (hjs : WellScoped (itemsVisits js vars)) :
    WellScoped (itemsVisits (is ++ itemsMoved n js) vars) := by
  rw [itemsVisits_append, hdecls, itemsVisits_moved, wellScoped_append, wellScoped_map_moved]
  exact ⟨his, hjs⟩

namespace Reading

theorem items_append (is js : List Item) (s : State) :
    items (is ++ js) s = items js (items is s).2 := by
  induction is generalizing s with
  | nil => rfl
  | cons i is ih =>
    rw [List.cons_append, items, items, bind_apply, bind_apply]
    exact ih _

/-- The items of a template that declares nothing, and then those of a second one behind it. -/
theorem reads_items_append {a b : String} {is js : List Item}
    (hstays : Path.Stays (items is)) (his : ∀ s ∈ itemsStretches is, s.Fits a.toList)
    (hjs : ∀ s ∈ itemsStretches js, s.Fits b.toList) :
    (items (is ++ itemsMoved a.utf8ByteSize js) (.start (a ++ b))).2.reads =
      (items is (.start a)).2.reads ++
        (items js (.start b)).2.reads.moved a.utf8ByteSize (a.toList.count '\n') := by
  let first : Frame := ⟨[], a.toList, b.toList, {}⟩
  let second : Frame := ⟨a.toList, b.toList, [], (items is (.start a)).2.reads⟩
  have hstart : Carried first (.start a) (.start (a ++ b)) :=
    ⟨rfl, String.toList_append, rfl, rfl, rfl⟩
  have hfirst := (carries_items is his hstart).2
  have hbytes : first.bytes = 0 := rfl
  rw [hbytes, itemsMoved_zero] at hfirst
  obtain ⟨hscope, hdot⟩ := hstays (.start a)
  have hbehind : Carried second (.start b) (items is (.start (a ++ b))).2 := by
    refine ⟨rfl, ?_, hfirst.scope.trans hscope, hfirst.dot.trans hdot, ?_⟩
    · rw [hfirst.target]
      exact (List.append_nil _).symm
    · exact hfirst.reads.trans ((Reads.moved_zero _).trans (Reads.append_nil _).symm)
  have hsecond := (carries_items js hjs hbehind).2.reads
  rw [items_append, ← utf8Length_toList]
  exact hsecond

end Reading

/-- Two accepted templates, one after the other, are accepted, if the first one declares nothing and
no left delimiter comes about where they meet. What they read and call is what the first one reads
and calls, followed by what the second one does, which is moved by the bytes and the line breaks of
the first one. -/
theorem reads_append {a b : String} (ha : (Parse.ofText a).error = none)
    (hb : (Parse.ofText b).error = none) (hdecls : itemsDecls (Parse.ofText a).tree.items = [])
    (hseam : ¬Scan.Delimits a.toList b.toList) :
    (Parse.ofText (a ++ b)).error = none ∧ ∃ r s, Reads.ofText a = .ok r ∧ Reads.ofText b = .ok s ∧
      Reads.ofText (a ++ b) = .ok (r ++ s.moved a.utf8ByteSize (a.toList.count '\n')) := by
  obtain ⟨hfirst, hfirstScoped⟩ := spells_of_accepted ha
  obtain ⟨hsecond, hsecondScoped⟩ := spells_of_accepted hb
  obtain ⟨hanyA, -⟩ := (error_eq_none_iff_spells a).mp ha
  obtain ⟨hanyB, -⟩ := (error_eq_none_iff_spells b).mp hb
  obtain ⟨herror, hspells⟩ := spells_append hanyA hseam hfirst hsecond
  have hvars : itemsVarsAfter (bareItems (Parse.ofText a).tree.items) prelude = prelude := by
    rw [itemsVarsAfter_bare, itemsVarsAfter_of_decls _ _ hdecls]
  have hscoped := wellScoped_append_moved a.utf8ByteSize hfirstScoped hvars hsecondScoped
  have haccepted : (Parse.ofText (a ++ b)).error = none :=
    (error_eq_none_iff_spells _).mpr ⟨herror.trans hanyB, _, hspells, hscoped⟩
  refine ⟨haccepted, _, _, by rw [Reads.ofText, ha], by rw [Reads.ofText, hb], ?_⟩
  have hstays : Path.Stays (Reading.items (bareItems (Parse.ofText a).tree.items)) := by
    rw [Reading.items_bareItems]
    exact Reading.stays_items _ hdecls
  have hreads := Reading.reads_items_append hstays (fits_stretches hfirst) (fits_stretches hsecond)
  rw [← bareItems_of_spells hspells hscoped, Reading.items_bareItems, Reading.items_bareItems,
    Reading.items_bareItems] at hreads
  rw [Reads.ofText, haccepted]
  exact congrArg Except.ok hreads

/-- The template `{{ with .Labels.job }}{{ . }}{{ end }} é:` and the line break behind it. -/
def firstLine : String :=
  "\x7b\x7b with .Labels.job \x7d\x7d\x7b\x7b . \x7d\x7d\x7b\x7b end \x7d\x7d é:\n"

/-- The template `up {{ $v := .Value }}{{ humanize $v }}`. -/
def secondLine : String := "up \x7b\x7b $v := .Value \x7d\x7d\x7b\x7b humanize $v \x7d\x7d"

set_option maxRecDepth 100000 in
/-- The text of two lines becomes one where they meet. -/
theorem reads_append_lines : (Parse.ofText firstLine).error = none ∧
    (Parse.ofText secondLine).error = none ∧
    itemsDecls (Parse.ofText firstLine).tree.items = [] ∧
    ¬Scan.Delimits firstLine.toList secondLine.toList ∧
    (Parse.ofText (firstLine ++ secondLine)).error = none ∧
    Reads.ofText (firstLine ++ secondLine) = .ok
      { labels := [⟨"job", ⟨15, 19⟩, 0⟩]
        values := [⟨⟨"$v", ⟨76, 78⟩, 1⟩, ["$v", ".Value"]⟩]
        calls := [⟨"humanize", ⟨67, 75⟩, 1⟩] } := by
  have hdecls : itemsDecls (Parse.ofText firstLine).tree.items = [] := by decide +kernel
  have hlast : firstLine.toList.getLast? = some '\n' := by decide +kernel
  have hseam : ¬Scan.Delimits firstLine.toList secondLine.toList := fun h ↦
    absurd (hlast.symm.trans h.1) (by decide)
  have hread : Reads.ofText firstLine = .ok { labels := [⟨"job", ⟨15, 19⟩, 0⟩] } := by
    decide +kernel
  have hreads : Reads.ofText secondLine = .ok
      { values := [⟨⟨"$v", ⟨33, 35⟩, 0⟩, ["$v", ".Value"]⟩]
        calls := [⟨"humanize", ⟨24, 32⟩, 0⟩] } := by decide +kernel
  have hfirst := (ofText_eq_ok hread).1
  have hsecond := (ofText_eq_ok hreads).1
  have hbytes : firstLine.utf8ByteSize = 43 := by
    rw [← utf8Length_toList]
    decide +kernel
  have hlines : firstLine.toList.count '\n' = 1 := by decide +kernel
  obtain ⟨haccepted, r, s, hr, hs, hboth⟩ := reads_append hfirst hsecond hdecls hseam
  obtain rfl := Except.ok.inj (hread.symm.trans hr)
  obtain rfl := Except.ok.inj (hreads.symm.trans hs)
  rw [hbytes, hlines] at hboth
  exact ⟨hfirst, hsecond, hdecls, hseam, haccepted, hboth⟩

end AlertAudit.Template
