import AlertAudit.Proofs.Template.Paths
import AlertAudit.Proofs.Template.ValueReads
import Mathlib.Data.List.Forall2

/-!
Reads of the sample value on paths. A reading goes through all of a template once; on its way it
knows of a variable what any path knows that also lets the text count which it leaves out. So each
variable that holds the sample value where a path uses it is recorded as a read.
-/

set_option autoImplicit false

namespace AlertAudit.Template.Path

open AlertAudit.Text

/-! ### What a reading knows of a path -/

/-- What is held agrees with what a reading takes it for. -/
def Holding.Fits : Holding → Denotation → Prop
  | .alert, d => d = .alert
  | .value, d => d.isValue = true
  | .other, _ => True

/-- The variables of a path are those of a reading, by name and in the same order. -/
abbrev ScopeFits (vs : Scope) (scope : List (String × Denotation)) : Prop :=
  List.Forall₂ (fun v d ↦ v.1 = d.1 ∧ v.2.Fits d.2) vs scope

/-- The place of a path agrees with the place of a reading. -/
structure State.Fits (u : State) (s : Reading.State) : Prop where
  scope : ScopeFits u.scope s.scope
  dot : u.dot.Fits s.dot

/-- A read of the sample value at the span has been recorded. -/
def ReadAt (span : Span) (s : Reading.State) : Prop := ∃ v ∈ s.reads.values, v.span = span

/-- A read that has been recorded stays recorded. -/
theorem ReadAt.keptIn {span : Span} {s t : Reading.State} (h : ReadAt span s) (hst : s.KeptIn t) :
    ReadAt span t := by
  obtain ⟨v, hv, hspan⟩ := h
  exact ⟨v, hst.values.subset hv, hspan⟩

/-- While a path goes from `u` to `v`, a reading goes from `s` to `t` and records the uses. -/
structure Mirrors (u v : State) (s t : Reading.State) : Prop where
  fits : v.Fits t
  kept : s.KeptIn t
  uses : ∀ span ∈ v.uses, span ∈ u.uses ∨ ReadAt span t

/-- A path that waits is mirrored by a reading that waits. -/
theorem Mirrors.refl {u : State} {s : Reading.State} (h : u.Fits s) : Mirrors u u s s :=
  ⟨h, .refl s, fun _ ↦ .inl⟩

/-- Mirrored parts of a path follow one another. -/
theorem Mirrors.trans {u v w : State} {s t r : Reading.State} (huv : Mirrors u v s t)
    (hvw : Mirrors v w t r) : Mirrors u w s r where
  fits := hvw.fits
  kept := huv.kept.trans hvw.kept
  uses span hspan := by
    rcases hvw.uses span hspan with hspan | hread
    · exact (huv.uses span hspan).imp_right (·.keptIn hvw.kept)
    · exact .inr hread

/-- A step that neither uses variables nor records reads. -/
theorem Mirrors.of_eq {u v : State} {s t : Reading.State} (hfits : v.Fits t)
    (huses : v.uses = u.uses) (htext : t.text = s.text) (hreads : t.reads = s.reads) :
    Mirrors u v s t :=
  ⟨hfits, .of_reads htext hreads, fun _ hspan ↦ .inl (huses ▸ hspan)⟩

/-! ### Variables -/

section Scope

variable {vs ws : Scope} {scope : List (String × Denotation)} {h : Holding} {d : Denotation}

/-- What a path knows of a variable is what the reading takes it for. -/
theorem fits_lookup (hscope : ScopeFits vs scope) (name : String) :
    (lookup name vs).Fits ((scope.lookup name).getD .unknown) := by
  rw [lookup]
  induction hscope with
  | nil => trivial
  | @cons v e vs scope hhead _ ih =>
    obtain ⟨n, held⟩ := v
    obtain ⟨m, known⟩ := e
    obtain ⟨rfl, hfits⟩ := hhead
    by_cases hname : name = n
    · subst hname
      simpa [List.lookup_cons] using hfits
    · have hbeq : (name == n) = false := by simpa using hname
      simpa [List.lookup_cons, hbeq] using ih

/-- To assign a variable on a path is to rebind the same variable in a reading. -/
theorem scopeFits_assign? (hscope : ScopeFits vs scope) (hd : h.Fits d) (name : String) :
    Option.Rel ScopeFits (assign? name h vs) (Reading.rebind? name d scope) := by
  induction hscope with
  | nil => exact .none
  | @cons v e vs scope hhead htail ih =>
    obtain ⟨n, held⟩ := v
    obtain ⟨m, known⟩ := e
    obtain ⟨rfl, hfits⟩ := hhead
    rw [assign?, Reading.rebind?]
    by_cases hname : n = name
    · rw [if_pos hname, if_pos hname]
      exact .some (.cons ⟨rfl, hd⟩ htail)
    · rw [if_neg hname, if_neg hname]
      generalize assign? name h vs = assigned, Reading.rebind? name d scope = rebound at ih ⊢
      cases ih with
      | none => exact .none
      | some hrest => exact .some (.cons ⟨rfl, hfits⟩ hrest)

/-- A variable may forget what it holds. -/
theorem scopeFits_forget_one (hscope : ScopeFits vs scope) (name : String) :
    ScopeFits ((assign? name .other vs).getD vs) scope := by
  induction hscope with
  | nil => exact .nil
  | @cons v e vs scope hhead htail ih =>
    obtain ⟨n, held⟩ := v
    rw [assign?]
    by_cases hname : n = name
    · rw [if_pos hname]
      exact .cons ⟨hhead.1, trivial⟩ htail
    · rw [if_neg hname]
      cases hassign : assign? name .other vs with
      | none => exact .cons hhead htail
      | some ws =>
        rw [hassign] at ih
        exact .cons hhead ih

/-- Variables may forget what they hold. -/
theorem scopeFits_forget (hscope : ScopeFits vs scope) (names : List Token) :
    ScopeFits (forget names vs) scope := by
  rw [forget]
  induction names generalizing vs with
  | nil => exact hscope
  | cons name names ih => exact ih (scopeFits_forget_one hscope name.text)

/-- Variables that are declared are the same on the path and in the reading, and hold nothing that
is known. -/
theorem scopeFits_declare (hscope : ScopeFits vs scope) (names : List Token) :
    ScopeFits (declare names vs)
      ((names.map fun v ↦ (v.text, Denotation.unknown)).reverse ++ scope) := by
  rw [declare]
  refine List.rel_append ?_ hscope
  refine List.rel_reverse ?_
  induction names with
  | nil => exact .nil
  | cons name names ih => exact .cons ⟨rfl, trivial⟩ ih

/-- Where two paths meet, what they agree on is what the reading knows. -/
theorem scopeFits_agreeing (hscope : ScopeFits vs scope) (ws : Scope) :
    ScopeFits (agreeing vs ws) scope := by
  induction hscope generalizing ws with
  | nil => exact .nil
  | @cons v e vs scope hhead _ ih =>
    obtain ⟨n, held⟩ := v
    rw [agreeing]
    refine .cons ⟨hhead.1, ?_⟩ (ih ws.tail)
    dsimp only
    split
    · exact hhead.2
    · trivial

end Scope

/-! ### Steps that bind nothing -/

/-- The step leaves the variables and the dot as they are. -/
def Stays {α : Type} (step : Reading α) : Prop := ∀ s : Reading.State,
  (step s).2.scope = s.scope ∧ (step s).2.dot = s.dot

section Stays

variable {α β : Type}

theorem stays_pure (a : α) : Stays (pure a : Reading α) := fun _ ↦ ⟨rfl, rfl⟩

/-- Two steps that bind nothing do so one after the other. -/
theorem stays_bind {step : Reading α} {f : α → Reading β} (hstep : Stays step)
    (hf : ∀ a, Stays (f a)) : Stays (step >>= f) := fun s ↦
  ⟨(hf _ _).1.trans (hstep s).1, (hf _ _).2.trans (hstep s).2⟩

/-- A choice binds nothing if neither of its sides does. -/
theorem stays_ite {c : Prop} [Decidable c] {step next : Reading α} (hstep : Stays step)
    (hnext : Stays next) : Stays (if c then step else next) := by
  split
  · exact hstep
  · exact hnext

/-- A field binds nothing. -/
theorem stays_applyField (span : Span) (base : Denotation) (field : Token) :
    Stays (Reading.applyField span base field) := by
  cases base with
  | alert => exact stays_ite (stays_pure _) (stays_ite (fun _ ↦ ⟨rfl, rfl⟩) (stays_pure _))
  | labels => exact fun _ ↦ ⟨rfl, rfl⟩
  | value chain => exact stays_pure _
  | unknown => exact stays_pure _

/-- The end of an operand binds nothing. -/
theorem stays_finishOperand (term : Term) (span : Span) (fields : List Token)
    (base : Denotation) : Stays (Reading.finishOperand term span fields base) := by
  have hfields : Stays (Reading.applyFields span base fields) := by
    induction fields generalizing base with
    | nil => exact stays_pure _
    | cons f fs ih => exact stays_bind (stays_applyField span base f) ih
  refine stays_bind hfields fun d ↦ ?_
  cases d with
  | value chain => exact stays_ite (fun _ ↦ ⟨rfl, rfl⟩) (stays_pure _)
  | alert => exact stays_pure _
  | labels => exact stays_pure _
  | unknown => exact stays_pure _

/-- The start of an operand binds nothing. -/
theorem stays_termResult (term : Term) : Stays (Reading.termResult term) := by
  cases term with
  | dot | field | literal token | paren body => exact fun _ ↦ ⟨rfl, rfl⟩
  | «variable» name =>
    cases name with
    | none => exact stays_pure _
    | some name =>
      have hlookup : Stays (Reading.lookup name.text) := fun _ ↦ ⟨rfl, rfl⟩
      refine stays_bind hlookup fun d ↦ ?_
      cases d <;> exact stays_pure _
  | function name => cases name <;> exact fun _ ↦ ⟨rfl, rfl⟩

/-- An operand of one token binds nothing. -/
theorem stays_simpleOperand (term : Term) (span : Span) (fields : List Token) :
    Stays (Reading.simpleOperand term span fields) := by
  refine stays_bind (stays_termResult term) fun base ↦ ?_
  cases base with
  | none => exact stays_pure _
  | some base => exact stays_finishOperand term span fields base

/-- The result of a command binds nothing. -/
theorem stays_commandResult (operands : List Operand) (values : List Denotation) :
    Stays (Reading.commandResult operands values) := by
  unfold Reading.commandResult
  split
  · exact fun _ ↦ ⟨rfl, rfl⟩
  · exact stays_pure _
  · exact stays_pure _

/-- A path can wait while a reading binds nothing. -/
theorem Mirrors.of_stays {step : Reading α} (hstays : Stays step) (hkeeps : Reading.Keeps step)
    {u : State} {s : Reading.State} (h : u.Fits s) : Mirrors u u s (step s).2 where
  fits := ⟨(hstays s).1 ▸ h.scope, (hstays s).2 ▸ h.dot⟩
  kept := hkeeps s
  uses _ := .inl

end Stays

/-! ### Pipelines -/

/-- Fields of something else lead to something else. -/
theorem follow_other (fields : List Token) : follow .other fields = .other := by
  cases fields <;> rfl

/-- What the fields lead to is what the reading takes it for. -/
theorem fits_follow {h : Holding} {d : Denotation} (hd : h.Fits d) (span : Span)
    (fields : List Token) (s : Reading.State) :
    (follow h fields).Fits (Reading.applyFields span d fields s).1 := by
  cases h with
  | other =>
    rw [follow_other]
    trivial
  | value =>
    cases fields with
    | nil => exact hd
    | cons field fields => trivial
  | alert =>
    obtain rfl : d = .alert := hd
    cases fields with
    | nil => rfl
    | cons field fields =>
      rw [follow]
      by_cases hvalue : Reading.fieldName field = "Value"
      · rw [if_pos hvalue]
        cases fields with
        | nil =>
          have hfield : (Reading.applyField span .alert field s).1.isValue = true := by
            rw [Reading.applyField, if_neg (by rw [hvalue]; decide), if_pos hvalue]
            rfl
          exact hfield
        | cons next fields => trivial
      · rw [if_neg hvalue, follow_other]
        trivial

/-- What a reading takes a variable for, whatever name it has for the sample value. -/
theorem exists_termResult_variable (name : Token) (s : Reading.State) : ∃ base,
    Reading.termResult (.variable (some name)) s = (some base, s) ∧
      ∀ h : Holding, h.Fits ((s.scope.lookup name.text).getD .unknown) → h.Fits base := by
  have hlookup : Reading.lookup name.text s = ((s.scope.lookup name.text).getD .unknown, s) := rfl
  rw [Reading.termResult, Reading.bind_apply, hlookup]
  dsimp only
  cases (s.scope.lookup name.text).getD .unknown with
  | alert => exact ⟨.alert, rfl, fun _ ↦ id⟩
  | labels => exact ⟨.labels, rfl, fun _ ↦ id⟩
  | unknown => exact ⟨.unknown, rfl, fun _ ↦ id⟩
  | value chain =>
    refine ⟨.value (name.text :: chain), rfl, fun h hd ↦ ?_⟩
    cases h with
    | alert => exact absurd hd (by simp [Holding.Fits])
    | value | other => trivial

/-- A direct operand that stands for the sample value is recorded at its place. -/
theorem readAt_finishOperand {term : Term} (hdirect : Reading.isDirect term = true) (span : Span)
    {base : Denotation} (hvalue : base.isValue = true) (s : Reading.State) :
    ReadAt span (Reading.finishOperand term span [] base s).2 := by
  cases base with
  | alert | labels | unknown => exact absurd hvalue Bool.false_ne_true
  | value chain =>
    have hfields : Reading.applyFields span (.value chain) [] s = (.value chain, s) := rfl
    rw [Reading.finishOperand, Reading.bind_apply, hfields]
    dsimp only
    rw [if_pos hdirect]
    exact ⟨_, List.mem_append_right _ (List.mem_singleton_self _), rfl⟩

/-- A variable that holds the sample value on a path is recorded where it is used. -/
theorem mirrors_variable (counts : Bool) (name : Token) (span : Span) (fields : List Token)
    {u : State} {s : Reading.State} (h : u.Fits s) :
    let result := operand .cautious counts (.mk (.variable (some name)) span fields) u
    let read := Reading.operand (.mk (.variable (some name)) span fields) s
    Mirrors u result.2 s read.2 ∧ result.1.Fits read.1 := by
  intro result read
  obtain ⟨base, hterm, hbase⟩ := exists_termResult_variable name s
  have hfits : (lookup name.text u.scope).Fits base := hbase _ (fits_lookup h.scope name.text)
  have hread : read = Reading.finishOperand (.variable (some name)) span fields base s := by
    change Reading.operand _ s = _
    rw [Reading.operand_eq (by simp), Reading.simpleOperand, Reading.bind_apply, hterm]
  have hstep := Mirrors.of_stays (stays_finishOperand (.variable (some name)) span fields base)
    (Reading.keeps_finishOperand _ _ _ _) h
  rw [← hread] at hstep
  refine ⟨?_, ?_⟩
  · have hresult : result.2 = if counts && fields.isEmpty && lookup name.text u.scope = .value then
        { u with uses := u.uses ++ [span] } else u := rfl
    rw [hresult]
    by_cases huse : (counts && fields.isEmpty && lookup name.text u.scope = .value) = true
    · rw [if_pos huse]
      simp only [Bool.and_eq_true, List.isEmpty_iff, decide_eq_true_eq] at huse
      obtain ⟨⟨-, rfl⟩, hholds⟩ := huse
      rw [hholds] at hfits
      refine ⟨⟨hstep.fits.scope, hstep.fits.dot⟩, hstep.kept, fun place hplace ↦ ?_⟩
      rcases List.mem_append.mp hplace with hplace | hplace
      · exact .inl hplace
      · rw [List.mem_singleton.mp hplace]
        rw [hread]
        exact .inr (readAt_finishOperand rfl span hfits s)
    · rw [if_neg huse]
      exact hstep
  · rw [hread, Reading.finishOperand_apply]
    exact fits_follow hfits span fields s

/-- A command holds the sample value where the reading takes it for that. -/
theorem fits_commandResult {hs : List Holding} {ds : List Denotation}
    (hfits : List.Forall₂ Holding.Fits hs ds) (os : List Operand) (s : Reading.State) :
    (single hs).Fits (Reading.commandResult os ds s).1 := by
  cases hfits with
  | nil => trivial
  | @cons h d _ _ hd htail =>
    cases htail with
    | cons _ _ => trivial
    | nil =>
      have hindex : Reading.indexedLabel? os [d] = none := by
        unfold Reading.indexedLabel?
        split
        · rename_i heq
          exact absurd heq (by simp)
        · rfl
      unfold Reading.commandResult
      rw [hindex]
      exact hd

/-- So does a pipeline. -/
theorem fits_pipelineResult {hs : List Holding} {ds : List Denotation}
    (hfits : List.Forall₂ Holding.Fits hs ds) :
    (single hs).Fits (Reading.pipelineResult ds) := by
  cases hfits with
  | nil => trivial
  | cons hd htail =>
    cases htail with
    | nil => exact hd
    | cons _ _ => trivial

/-- The elements of a loop are variables of which nothing is known. -/
theorem scopeFits_bindElements {vs : Scope} {scope : List (String × Denotation)}
    (hscope : ScopeFits vs scope) (decl : Decl) : ScopeFits (bindElements .cautious decl vs)
      ((decl.names.map fun v ↦ (v.text, Denotation.unknown)).reverse ++ scope) := by
  rw [bindElements]
  split
  · exact scopeFits_declare (scopeFits_forget hscope decl.names) decl.names
  · exact scopeFits_declare hscope decl.names

/-- What a declaration binds on a path, it binds in a reading. -/
theorem fits_bind {u : State} {s : Reading.State} {h : Holding} {d : Denotation} (hu : u.Fits s)
    (hd : h.Fits d) (decl : Decl) (inRange : Bool) (valuesBefore : Nat) (uses : List Span) :
    State.Fits { u with scope := bind .cautious decl inRange h u.scope, uses }
      (Reading.bind decl inRange valuesBefore d s).2 := by
  have helements := scopeFits_bindElements hu.scope decl
  cases inRange with
  | true => exact ⟨helements, hu.dot⟩
  | false =>
    obtain ⟨names, isAssign⟩ := decl
    rcases names with _ | ⟨name, _ | ⟨second, rest⟩⟩
    · exact ⟨helements, hu.dot⟩
    · refine ⟨?_, hu.dot⟩
      have hdeclared : ScopeFits ((name.text, h) :: u.scope) ((name.text, d) :: s.scope) :=
        .cons ⟨rfl, hd⟩ hu.scope
      have hassign := scopeFits_assign? hu.scope hd name.text
      cases isAssign with
      | false => exact hdeclared
      | true =>
        change ScopeFits ((assign? name.text h u.scope).getD _)
          ((Reading.rebind? name.text d s.scope).getD _)
        generalize assign? name.text h u.scope = assigned,
          Reading.rebind? name.text d s.scope = rebound at hassign ⊢
        cases hassign with
        | none => exact hdeclared
        | some hrest => exact hrest
    · exact ⟨helements, hu.dot⟩

mutual

/-- Where a path goes through an operand, or passes by it, a reading goes along. -/
theorem mirrors_operand (counts : Bool) : ∀ (o : Operand) {u : State} {s : Reading.State},
    u.Fits s → Mirrors u (operand .cautious counts o u).2 s (Reading.operand o s).2 ∧
      (operand .cautious counts o u).1.Fits (Reading.operand o s).1
  | .mk (.paren none) span fields, u, s, h => by
    rw [Reading.operand]
    exact ⟨.of_stays (stays_finishOperand _ _ _ _) (Reading.keeps_finishOperand _ _ _ _) h, trivial⟩
  | .mk (.paren (some p)) span fields, u, s, h => by
    obtain ⟨hbody, -⟩ := mirrors_pipeline counts p false h
    rw [operand, Reading.operand, Reading.bind_apply]
    exact ⟨hbody.trans (.of_stays (stays_finishOperand _ _ _ _)
      (Reading.keeps_finishOperand _ _ _ _) hbody.fits), trivial⟩
  | .mk (.variable (some name)) span fields, u, s, h => mirrors_variable counts name span fields h
  | .mk .dot span fields, u, s, h | .mk .field span fields, u, s, h => by
    rw [Reading.operand_eq (by simp)]
    refine ⟨.of_stays (stays_simpleOperand _ _ _) (Reading.keeps_simpleOperand _ _ _) h, ?_⟩
    change (follow u.dot fields).Fits (Reading.finishOperand _ span fields s.dot s).1
    rw [Reading.finishOperand_apply]
    exact fits_follow h.dot span fields s
  | .mk (.variable none) span fields, u, s, h | .mk (.function _) span fields, u, s, h
  | .mk (.literal _) span fields, u, s, h => by
    rw [Reading.operand_eq (by simp)]
    exact ⟨.of_stays (stays_simpleOperand _ _ _) (Reading.keeps_simpleOperand _ _ _) h, trivial⟩

/-- Operands are read as a path goes through them. -/
theorem mirrors_operands (counts : Bool) : ∀ (os : List Operand) {u : State} {s : Reading.State},
    u.Fits s → Mirrors u (operands .cautious counts os u).2 s (Reading.operands os s).2 ∧
      List.Forall₂ Holding.Fits (operands .cautious counts os u).1 (Reading.operands os s).1
  | [], u, s, h => ⟨.refl h, .nil⟩
  | o :: os, u, s, h => by
    obtain ⟨hfirst, hhead⟩ := mirrors_operand counts o h
    obtain ⟨hrest, htail⟩ := mirrors_operands counts os hfirst.fits
    exact ⟨hfirst.trans hrest, .cons hhead htail⟩

/-- So are commands. -/
theorem mirrors_commands (counts : Bool) : ∀ (cs : List (List Operand)) {u : State}
    {s : Reading.State}, u.Fits s →
    Mirrors u (commands .cautious counts cs u).2 s (Reading.commands cs s).2 ∧
      List.Forall₂ Holding.Fits (commands .cautious counts cs u).1 (Reading.commands cs s).1
  | [], u, s, h => ⟨.refl h, .nil⟩
  | c :: cs, u, s, h => by
    obtain ⟨hfirst, hhead⟩ := mirrors_operands counts c h
    have hcommand := hfirst.trans (.of_stays (stays_commandResult c (Reading.operands c s).1)
      (Reading.keeps_commandResult _ _) hfirst.fits)
    obtain ⟨hrest, htail⟩ := mirrors_commands counts cs hcommand.fits
    exact ⟨hcommand.trans hrest, .cons (fits_commandResult hhead c _) htail⟩

/-- So is a pipeline, which holds what the reading takes it for. -/
theorem mirrors_pipeline (counts : Bool) : ∀ (p : Pipeline) (inRange : Bool) {u : State}
    {s : Reading.State}, u.Fits s →
    Mirrors u (pipeline .cautious counts p inRange u).2 s (Reading.pipeline p inRange s).2 ∧
      (pipeline .cautious counts p inRange u).1.Fits (Reading.pipeline p inRange s).1
  | .mk decl cs, inRange, u, s, h => by
    obtain ⟨hcommands, hresults⟩ := mirrors_commands counts cs h
    have hresult := fits_pipelineResult hresults
    have hkeeps := Reading.keeps_pipeline (.mk decl cs) inRange s
    cases decl with
    | none => exact ⟨hcommands, hresult⟩
    | some decl =>
      refine ⟨⟨fits_bind hcommands.fits ?_ decl inRange _ u.uses, hkeeps, fun _ ↦ .inl⟩, hresult⟩
      cases counts with
      | true => exact hresult
      | false => trivial

end

/-- So is the pipeline of an action, if it has one. -/
theorem mirrors_pipelineOf (counts : Bool) (p : Option Pipeline) (inRange : Bool) {u : State}
    {s : Reading.State} (h : u.Fits s) :
    Mirrors u (pipelineOf .cautious counts p inRange u).2 s (Reading.pipelineOf p inRange s).2 ∧
      (pipelineOf .cautious counts p inRange u).1.Fits (Reading.pipelineOf p inRange s).1 := by
  cases p with
  | none => exact ⟨.refl h, trivial⟩
  | some p => exact mirrors_pipeline counts p inRange h

/-! ### Blocks -/

/-- A list is read with another dot and left with the dot from before. -/
theorem mirrors_withDot {b : Body} {v x : State} {t : Reading.State} {h : Holding} {d : Denotation}
    (hv : v.Fits t) (hd : h.Fits d) (hbody : State.Fits { v with dot := h } { t with dot := d } →
      Mirrors { v with dot := h } x { t with dot := d } (Reading.body b { t with dot := d }).2) :
    Mirrors v { x with dot := v.dot } t (Reading.withDot d (Reading.body b) t).2 := by
  have hinner : State.Fits { v with dot := h } { t with dot := d } := ⟨hv.scope, hd⟩
  have hlist := hbody hinner
  have hexit : State.Fits { x with dot := v.dot }
      { (Reading.body b { t with dot := d }).2 with dot := t.dot } := ⟨hlist.fits.scope, hv.dot⟩
  have henter : Mirrors v { v with dot := h } t { t with dot := d } := .of_eq hinner rfl rfl rfl
  exact henter.trans (hlist.trans (.of_eq hexit rfl rfl rfl))

/-- A list that is gone along with is gone along with as part of its block. -/
theorem mirrors_header {kind : Control} {p : Option Pipeline} {b : Body} {u v x : State}
    {h : Holding} {s : Reading.State}
    (hfits : h.Fits (Reading.pipelineOf p (kind = .rangeBlock) s).1)
    (hheader : Mirrors u v s (Reading.pipelineOf p (kind = .rangeBlock) s).2)
    (hbody : ∀ {t : Reading.State}, (v.enter kind h).Fits t →
      Mirrors (v.enter kind h) x t (Reading.body b t).2) :
    Mirrors u (x.exit kind v) s (Reading.header kind p b s).2 := by
  refine hheader.trans ?_
  rw [Reading.header, Reading.bind_apply]
  cases kind with
  | ifBlock => exact hbody hheader.fits
  | withBlock => exact mirrors_withDot hheader.fits hfits hbody
  | rangeBlock => exact mirrors_withDot (h := .other) hheader.fits trivial hbody

/-- Behind a block, a path and a reading are back at as many variables as in front of it. -/
theorem mirrors_leave {u w : State} {s : Reading.State} {step : Reading Unit} (h : u.Fits s)
    (hw : Mirrors u w s (step s).2) :
    Mirrors u (u.leave w) s (Reading.keepingScope step s).2 := by
  refine hw.trans (.of_eq ⟨?_, hw.fits.dot⟩ rfl rfl rfl)
  have hlength := hw.fits.scope.length_eq
  have hbefore := h.scope.length_eq
  change ScopeFits (w.scope.drop (w.scope.length - u.scope.length))
    ((step s).2.scope.drop ((step s).2.scope.length - s.scope.length))
  rw [hlength, hbefore]
  exact List.forall₂_drop _ hw.fits.scope

/-- A path does not go through a template of its own. -/
theorem mirrors_isolated {u : State} {s : Reading.State} {step : Reading Unit}
    (hkeeps : Reading.Keeps step) (h : u.Fits s) :
    Mirrors u u s (Reading.isolated step s).2 :=
  ⟨⟨h.scope, h.dot⟩, Reading.keeps_isolated hkeeps s, fun _ ↦ .inl⟩

/-- A reading goes through the list of a loop once, and that is enough for all rounds. -/
theorem mirrors_rounds {kind : Control} {names : List Token} {round : State → State → Prop}
    {entry x : State} {s t : Reading.State}
    (hround : ∀ {u v}, u.Fits s → round u v → Mirrors u v s t) (hentry : entry.Fits s)
    (h : Rounds .cautious kind names round entry x) : Mirrors entry x s t := by
  induction h with
  | first hfirst => exact hround hentry hfirst
  | @again u _ _ _ hagain ih =>
    have hrestart : (entry.restart .cautious names u).Fits s :=
      ⟨scopeFits_agreeing hentry.scope _, hentry.dot⟩
    have hnext := hround hrestart hagain
    refine ⟨hnext.fits, hnext.kept, fun span hspan ↦ ?_⟩
    rcases hnext.uses span hspan with hspan | hread
    · exact ih.uses span hspan
    · exact .inr hread

mutual

/-- A reading goes along where a path passes by. -/
theorem mirrors_skipItem : ∀ (i : Item) {u : State} {s : Reading.State}, u.Fits s →
    Mirrors u (skipItem i u) s (Reading.item i s).2
  | .action _ p, u, s, h => by
    rw [skipItem, Reading.item]
    exact (mirrors_pipelineOf false p false h).1
  | .control kind _ p b o, u, s, h => by
    obtain ⟨hheader, hfits⟩ := mirrors_pipelineOf false p (kind = .rangeBlock) h
    rw [skipItem, Reading.item_control]
    refine mirrors_leave h ?_
    have hlist := mirrors_header hfits hheader fun hinner ↦ mirrors_skipBody b hinner
    exact hlist.trans (mirrors_skipOtherwise o hlist.fits)
  | .define _ _ b, u, s, h => by
    rw [skipItem, Reading.item]
    exact mirrors_isolated (Reading.keeps_body b) h
  | .block _ _ p b, u, s, h => by
    rw [skipItem, Reading.item]
    have hpipeline := (mirrors_pipelineOf false p false h).1
    exact hpipeline.trans (mirrors_isolated (Reading.keeps_body b) hpipeline.fits)
  | .call _ _ p, u, s, h => by
    rw [skipItem, Reading.item]
    exact (mirrors_pipelineOf false p false h).1

/-- A path that goes past the list of a block may forget what is bound in it. -/
theorem mirrors_skipBody : ∀ (b : Body) {u : State} {s : Reading.State}, u.Fits s →
    Mirrors u (skipBody b u) s (Reading.body b s).2
  | .missing, _, _, h => .refl h
  | .items is, _, _, h => mirrors_skipItems is h

/-- So may a path that goes past some items. -/
theorem mirrors_skipItems : ∀ (is : List Item) {u : State} {s : Reading.State}, u.Fits s →
    Mirrors u (skipItems is u) s (Reading.items is s).2
  | [], _, _, h => .refl h
  | i :: is, _, _, h =>
    have hfirst := mirrors_skipItem i h
    hfirst.trans (mirrors_skipItems is hfirst.fits)

/-- So may a path that goes past an else branch. -/
theorem mirrors_skipOtherwise : ∀ (o : Otherwise) {u : State} {s : Reading.State}, u.Fits s →
    Mirrors u (skipOtherwise o u) s (Reading.otherwise o s).2
  | .none, _, _, h => .refl h
  | .nested i, _, _, h => mirrors_skipItem i h
  | .body b, _, _, h => mirrors_skipBody b h

end

/-! ### Paths -/

mutual

/-- Whichever way a path takes through an item, a reading goes along. -/
theorem mirrors_item : ∀ (i : Item) {u v : State} {s : Reading.State}, u.Fits s →
    item .cautious i u v → Mirrors u v s (Reading.item i s).2
  | .action _ p, u, v, s, h, hpath => by
    rw [item] at hpath
    rw [hpath, Reading.item]
    exact (mirrors_pipelineOf true p false h).1
  | .control kind _ p b o, u, v, s, h, hpath => by
    obtain ⟨hheader, hfits⟩ := mirrors_pipelineOf true p (kind = .rangeBlock) h
    rw [item] at hpath
    obtain ⟨w, rfl, hpath⟩ := hpath
    rw [Reading.item_control]
    refine mirrors_leave h ?_
    have hbeyond := mirrors_header hfits hheader fun hinner ↦ mirrors_skipBody b hinner
    rcases hpath with ⟨x, hrounds, rfl⟩ | hotherwise | ⟨-, rfl⟩
    · have hlist := mirrors_header (x := x) hfits hheader fun hinner ↦
        mirrors_rounds (fun h hround ↦ mirrors_body b h hround) hinner hrounds
      exact hlist.trans (mirrors_skipOtherwise o hlist.fits)
    · exact hbeyond.trans (mirrors_otherwise o hbeyond.fits hotherwise)
    · exact hbeyond.trans (mirrors_skipOtherwise o hbeyond.fits)
  | .define _ _ b, u, v, s, h, hpath => by
    rw [item] at hpath
    rw [hpath, Reading.item]
    exact mirrors_isolated (Reading.keeps_body b) h
  | .block _ _ p b, u, v, s, h, hpath => by
    rw [item] at hpath
    rw [hpath, Reading.item]
    have hpipeline := (mirrors_pipelineOf true p false h).1
    exact hpipeline.trans (mirrors_isolated (Reading.keeps_body b) hpipeline.fits)
  | .call _ _ p, u, v, s, h, hpath => by
    rw [item] at hpath
    rw [hpath, Reading.item]
    exact (mirrors_pipelineOf true p false h).1

/-- A path through the list of a block is mirrored. -/
theorem mirrors_body : ∀ (b : Body) {u v : State} {s : Reading.State}, u.Fits s →
    body .cautious b u v → Mirrors u v s (Reading.body b s).2
  | .missing, _, _, _, h, hpath => by
    rw [body] at hpath
    subst hpath
    exact .refl h
  | .items is, _, _, _, h, hpath => by
    rw [body] at hpath
    exact mirrors_items is h hpath

/-- A path through some items is mirrored. -/
theorem mirrors_items : ∀ (is : List Item) {u v : State} {s : Reading.State}, u.Fits s →
    items .cautious is u v → Mirrors u v s (Reading.items is s).2
  | [], _, _, _, h, hpath => by
    rw [items] at hpath
    subst hpath
    exact .refl h
  | i :: is, _, _, _, h, hpath => by
    rw [items] at hpath
    obtain ⟨w, hitem, hrest⟩ := hpath
    have hfirst := mirrors_item i h hitem
    exact hfirst.trans (mirrors_items is hfirst.fits hrest)

/-- A path through what follows a list is mirrored. -/
theorem mirrors_otherwise : ∀ (o : Otherwise) {u v : State} {s : Reading.State}, u.Fits s →
    otherwise .cautious o u v → Mirrors u v s (Reading.otherwise o s).2
  | .none, _, _, _, h, hpath => by
    rw [otherwise] at hpath
    subst hpath
    exact .refl h
  | .nested i, _, _, _, h, hpath => by
    rw [otherwise] at hpath
    exact mirrors_item i h hpath
  | .body b, _, _, _, h, hpath => by
    rw [otherwise] at hpath
    exact mirrors_body b h hpath

end

/-- In front of a template a path and a reading know the same. -/
theorem fits_start (text : String) : State.start.Fits (.start text) where
  scope := .cons ⟨rfl, rfl⟩ (.cons ⟨rfl, trivial⟩ (.cons ⟨rfl, trivial⟩ (.cons ⟨rfl, trivial⟩
    (.cons ⟨rfl, rfl⟩ .nil))))
  dot := rfl

/-- Each variable that holds the sample value where a path uses it has been read there, if what the
path leaves out counts. -/
theorem exists_read_of_use {text : String} {reads : Reads} {u : State}
    (hreads : Reads.ofText text = .ok reads)
    (hpath : items .cautious (Parse.ofText text).tree.items .start u) :
    ∀ span ∈ u.uses, ∃ v ∈ reads.values, v.span = span := by
  obtain ⟨-, rfl⟩ := ofText_eq_ok hreads
  intro span hspan
  have hmirrors := mirrors_items _ (fits_start text) hpath
  rcases hmirrors.uses span hspan with hspan | hread
  · exact absurd hspan List.not_mem_nil
  · exact hread

/-- The template `{{ $x := .Value }}{{ range .Labels }}{{ if . }}{{ $x }}{{ end }}{{ end }}`. -/
def shownInLoop : String :=
  "\x7b\x7b $x := .Value \x7d\x7d\x7b\x7b range .Labels \x7d\x7d\x7b\x7b if . \x7d\x7d" ++
    "\x7b\x7b $x \x7d\x7d\x7b\x7b end \x7d\x7d\x7b\x7b end \x7d\x7d"

def loopItems : List Item :=
  [.control .ifBlock ⟨37, 64⟩ (some (.mk none [[.mk .dot ⟨43, 44⟩ []]]))
    (.items [.action ⟨47, 55⟩
      (some (.mk none [[.mk (.variable (some ⟨.variable, 50, "$x"⟩)) ⟨50, 52⟩ []]]))])
    .none]

/-- In the loop, with these uses so far. -/
def State.inLoop (uses : List Span) : State where
  scope := ("$x", .value) :: State.start.scope
  dot := .other
  uses := uses

set_option maxRecDepth 100000 in
/-- The first round goes by the list of the `if`, and the second one through it. -/
theorem exists_read_of_use_second_round : ∃ reads u, Reads.ofText shownInLoop = .ok reads ∧
    items .cautious (Parse.ofText shownInLoop).tree.items .start u ∧ u.uses = [⟨50, 52⟩] ∧
    ∀ span ∈ u.uses, ∃ v ∈ reads.values, v.span = span := by
  have htokens : (Tokens.ofText shownInLoop).tokens = tokensOfWords (
      actionWords [(.variable, "$x"), blank, (.declare, ":="), blank, (.field, ".Value")] ++
      actionWords [(.keyword .rangeWord, "range"), blank, (.field, ".Labels")] ++
      actionWords [(.keyword .ifWord, "if"), blank, (.dot, ".")] ++
      actionWords [(.variable, "$x")] ++ actionWords [(.keyword .endWord, "end")] ++
      actionWords [(.keyword .endWord, "end")]) := by decide +kernel
  have hscan : (Tokens.ofText shownInLoop).error = none := by decide +kernel
  have hitems : (Parse.ofText shownInLoop).tree.items =
      [.action ⟨0, 18⟩ (some (.mk (some ⟨[⟨.variable, 3, "$x"⟩], false⟩)
        [[.mk .field ⟨9, 15⟩ [⟨.field, 9, ".Value"⟩]]])),
      .control .rangeBlock ⟨18, 73⟩
        (some (.mk none [[.mk .field ⟨27, 34⟩ [⟨.field, 27, ".Labels"⟩]]]))
        (.items loopItems) .none] := by
    simp only [Parse.ofText, htokens, hscan]
    with_unfolding_all rfl
  have hreads : Reads.ofText shownInLoop = .ok
      { values := [⟨⟨"$x", ⟨50, 52⟩, 0⟩, ["$x", ".Value"]⟩] } := by decide +kernel
  have hby : body .cautious (.items loopItems) (.inLoop []) (.inLoop []) := by
    rw [body, loopItems, items]
    refine ⟨_, ?_, by rw [items]⟩
    rw [item]
    exact ⟨_, rfl, .inr (.inl (by rw [otherwise]))⟩
  have hshown : body .cautious (.items [.action ⟨47, 55⟩
      (some (.mk none [[.mk (.variable (some ⟨.variable, 50, "$x"⟩)) ⟨50, 52⟩ []]]))])
      (.inLoop []) (.inLoop [⟨50, 52⟩]) := by
    rw [body, items]
    refine ⟨_, ?_, by rw [items]⟩
    rw [item]
    rfl
  have hthrough : body .cautious (.items loopItems) (.inLoop []) (.inLoop [⟨50, 52⟩]) := by
    rw [body, loopItems, items]
    refine ⟨_, ?_, by rw [items]⟩
    rw [item]
    exact ⟨.inLoop [⟨50, 52⟩], rfl, .inl ⟨_, .first hshown, rfl⟩⟩
  have hpath : items .cautious (Parse.ofText shownInLoop).tree.items .start
      ⟨("$x", .value) :: State.start.scope, .alert, [⟨50, 52⟩]⟩ := by
    rw [hitems, items]
    refine ⟨⟨("$x", .value) :: State.start.scope, .alert, []⟩, by rw [item]; rfl, ?_⟩
    rw [items]
    refine ⟨_, ?_, by rw [items]⟩
    rw [item]
    exact ⟨_, rfl, .inl ⟨_, .again rfl (.first hby) hthrough, rfl⟩⟩
  exact ⟨_, _, hreads, hpath, rfl, exists_read_of_use hreads hpath⟩

/-- The template `{{ $x := $value }}{{ if .Labels.a }}{{ $x = 1 }}{{ end }}{{ $x }}`. -/
def assignedInBranch : String :=
  "\x7b\x7b $x := $value \x7d\x7d\x7b\x7b if .Labels.a \x7d\x7d\x7b\x7b $x = 1 \x7d\x7d" ++
    "\x7b\x7b end \x7d\x7d\x7b\x7b $x \x7d\x7d"

set_option maxRecDepth 100000 in
/-- If only what a path meets counts, a variable can hold the sample value without a read: an
assignment in a branch that is not taken makes a reading lose it. -/
theorem not_forall_read_of_use : ¬∀ (text : String) (reads : Reads) (u : State),
    Reads.ofText text = .ok reads →
    items .pathOnly (Parse.ofText text).tree.items .start u →
    ∀ span ∈ u.uses, ∃ v ∈ reads.values, v.span = span := by
  have htokens : (Tokens.ofText assignedInBranch).tokens = tokensOfWords (
      actionWords [(.variable, "$x"), blank, (.declare, ":="), blank, (.variable, "$value")] ++
      actionWords [(.keyword .ifWord, "if"), blank, (.field, ".Labels"), (.field, ".a")] ++
      actionWords [(.variable, "$x"), blank, (.assign, "="), blank, (.number, "1")] ++
      actionWords [(.keyword .endWord, "end")] ++ actionWords [(.variable, "$x")]) := by
    decide +kernel
  have hscan : (Tokens.ofText assignedInBranch).error = none := by decide +kernel
  have hitems : (Parse.ofText assignedInBranch).tree.items =
      [.action ⟨0, 18⟩ (some (.mk (some ⟨[⟨.variable, 3, "$x"⟩], false⟩)
        [[.mk (.variable (some ⟨.variable, 9, "$value"⟩)) ⟨9, 15⟩ []]])),
      .control .ifBlock ⟨18, 57⟩
        (some (.mk none [[.mk .field ⟨24, 33⟩ [⟨.field, 24, ".Labels"⟩, ⟨.field, 31, ".a"⟩]]]))
        (.items [.action ⟨36, 48⟩ (some (.mk (some ⟨[⟨.variable, 39, "$x"⟩], true⟩)
          [[.mk (.literal (some ⟨.number, 44, "1"⟩)) ⟨44, 45⟩ []]]))]) .none,
      .action ⟨57, 65⟩
        (some (.mk none [[.mk (.variable (some ⟨.variable, 60, "$x"⟩)) ⟨60, 62⟩ []]]))] := by
    simp only [Parse.ofText, htokens, hscan]
    with_unfolding_all rfl
  have hreads : Reads.ofText assignedInBranch = .ok { labels := [⟨"a", ⟨31, 33⟩, 0⟩] } := by
    decide +kernel
  have hpath : items .pathOnly (Parse.ofText assignedInBranch).tree.items .start
      ⟨("$x", .value) :: State.start.scope, .alert, [⟨60, 62⟩]⟩ := by
    rw [hitems, items]
    refine ⟨⟨("$x", .value) :: State.start.scope, .alert, []⟩, by rw [item]; rfl, ?_⟩
    rw [items]
    refine ⟨⟨("$x", .value) :: State.start.scope, .alert, []⟩, ?_, ?_⟩
    · rw [item]
      exact ⟨_, rfl, .inr (.inl (by rw [otherwise]))⟩
    · rw [items]
      exact ⟨_, by rw [item], by rw [items]; rfl⟩
  intro h
  obtain ⟨v, hv, -⟩ := h _ _ _ hreads hpath ⟨60, 62⟩ (List.mem_singleton_self _)
  exact absurd hv List.not_mem_nil

end AlertAudit.Template.Path
