import AlertAudit.Proofs.Template.Positions
import AlertAudit.Proofs.Template.Units

/-!
What a template reads in a stretch of its text. A mention belongs to the stretch in which it starts,
and it starts where a piece of its operand does (`Reads.From.allStart`). So of what is recorded for
a row of phrases, a stretch has what is recorded for the phrases in it
(`Reads.startingIn_of_middle`).
-/

set_option autoImplicit false

namespace AlertAudit.Template

open AlertAudit.Text

def Mention.StartsIn (s : Span) (m : Mention) : Prop :=
  s.start ≤ m.span.start ∧ m.span.start < s.stop

instance (s : Span) (m : Mention) : Decidable (m.StartsIn s) :=
  inferInstanceAs (Decidable (_ ∧ _))

namespace Reads

/-- What is read in a stretch of the text. -/
def startingIn (s : Span) (r : Reads) : Reads :=
  ⟨r.labels.filter (·.StartsIn s), r.values.filter (·.StartsIn s), r.calls.filter (·.StartsIn s)⟩

/-- The places where mentions start satisfy `P`. -/
structure AllStart (P : Nat → Prop) (r : Reads) : Prop where
  labels : ∀ m ∈ r.labels, P m.span.start
  values : ∀ v ∈ r.values, P v.span.start
  calls : ∀ m ∈ r.calls, P m.span.start

section Starts

variable {P Q : Nat → Prop} {r t : Reads} {s : Span}

theorem AllStart.mono (h : r.AllStart P) (hPQ : ∀ k, P k → Q k) : r.AllStart Q where
  labels m hm := hPQ _ (h.labels m hm)
  values v hv := hPQ _ (h.values v hv)
  calls m hm := hPQ _ (h.calls m hm)

theorem AllStart.append (hr : r.AllStart P) (ht : t.AllStart P) : (r ++ t).AllStart P where
  labels := List.forall_mem_append.mpr ⟨hr.labels, ht.labels⟩
  values := List.forall_mem_append.mpr ⟨hr.values, ht.values⟩
  calls := List.forall_mem_append.mpr ⟨hr.calls, ht.calls⟩

theorem AllStart.moved {n : Nat} (h : r.AllStart P) (hPQ : ∀ k, P k → Q (k + n)) (lines : Nat) :
    (r.moved n lines).AllStart Q where
  labels := List.forall_mem_map.mpr fun m hm ↦ hPQ _ (h.labels m hm)
  values := List.forall_mem_map.mpr fun v hv ↦ hPQ _ (h.values v hv)
  calls := List.forall_mem_map.mpr fun m hm ↦ hPQ _ (h.calls m hm)

theorem startingIn_append (s : Span) (r t : Reads) :
    (r ++ t).startingIn s = r.startingIn s ++ t.startingIn s := by
  simp only [startingIn, append_eq, List.filter_append]

theorem startingIn_of_inside (h : r.AllStart fun k ↦ s.start ≤ k ∧ k < s.stop) :
    r.startingIn s = r := by
  rw [startingIn, List.filter_eq_self.mpr, List.filter_eq_self.mpr, List.filter_eq_self.mpr]
  · exact fun m hm ↦ decide_eq_true (h.calls m hm)
  · exact fun v hv ↦ decide_eq_true (h.values v hv)
  · exact fun m hm ↦ decide_eq_true (h.labels m hm)

theorem startingIn_of_outside (h : r.AllStart fun k ↦ ¬(s.start ≤ k ∧ k < s.stop)) :
    r.startingIn s = {} := by
  rw [startingIn, List.filter_eq_nil_iff.mpr, List.filter_eq_nil_iff.mpr,
    List.filter_eq_nil_iff.mpr]
  · exact fun m hm ↦ mt of_decide_eq_true (h.calls m hm)
  · exact fun v hv ↦ mt of_decide_eq_true (h.values v hv)
  · exact fun m hm ↦ mt of_decide_eq_true (h.labels m hm)

/-- Between what is read in front of a stretch and behind it is what is read in it. -/
theorem startingIn_of_middle {before middle after : Reads} (hbefore : before.AllStart (· < s.start))
    (hmiddle : middle.AllStart fun k ↦ s.start ≤ k ∧ k < s.stop)
    (hafter : after.AllStart (s.stop ≤ ·)) : (before ++ middle ++ after).startingIn s = middle := by
  have hfront := hbefore.mono (Q := fun k ↦ ¬(s.start ≤ k ∧ k < s.stop)) (by omega)
  have hback := hafter.mono (Q := fun k ↦ ¬(s.start ≤ k ∧ k < s.stop)) (by omega)
  rw [startingIn_append, startingIn_append, startingIn_of_outside hfront,
    startingIn_of_inside hmiddle, startingIn_of_outside hback, append_nil]
  rfl

end Starts

end Reads

/-! ### Mentions and pieces -/

/-- An operand starts where one of its pieces does. -/
theorem IsWithin.exists_start {ps : List Piece} {term : Term} {span : Span}
    {fields : List Token} (h : IsWithin ps (.mk term span fields)) :
    ∃ p ∈ ps, p.token.start = span.start := by
  obtain ⟨depth, mid, c, spaced, hmid, hspells⟩ := h
  cases hspells with
  | atom _ _ _ => exact ⟨_, hmid.mem List.mem_cons_self, rfl⟩
  | paren _ _ _ _ => exact ⟨_, hmid.mem List.mem_cons_self, rfl⟩

/-- What is recorded for operands starts where some of their pieces do. -/
theorem Reads.From.allStart {text : List Char} {os : List Operand} {ps : List Piece} {r : Reads}
    (h : r.From text os) (hos : AllWithin ps os) :
    r.AllStart fun k ↦ ∃ p ∈ ps, p.token.start = k where
  labels m hm := by
    obtain ⟨-, ⟨term, span, fields, hmem, f, hf, -, hspan⟩ | ⟨key, fields, hmem, -⟩⟩ :=
        h.labels m hm
    · obtain ⟨p, hp, rfl⟩ := List.mem_map.mp ((hos _ hmem).mem_fieldsOf hf).1
      exact ⟨p, hp, congrArg Span.start hspan.symm⟩
    · exact (hos _ hmem).exists_start
  values v hv := by
    obtain ⟨-, term, fields, -, hmem⟩ := h.values v hv
    exact (hos _ hmem).exists_start
  calls m hm := by
    obtain ⟨name, span, fields, hmem, rfl⟩ := h.calls m hm
    obtain ⟨p, fs, spaced, c, hpart, -, -, -, hterm, -⟩ := (hos _ hmem).exists_pieces fun _ ↦ nofun
    obtain rfl := eq_of_termOf_function hterm.symm
    exact ⟨p, hpart.mem List.mem_cons_self, rfl⟩

/-- No lexeme of a text that is scanned to its end is empty. -/
theorem Scan.Scans.chars_ne_nil {cs : List Char} {ls : List Lexeme} (h : Scan.Scans cs ls) :
    ∀ l ∈ ls, l.chars ≠ [] := by
  intro l hl hnil
  obtain ⟨rfl, houtcome⟩ := Scan.scans_iff.mp h
  have herror := Scan.filled_scanText cs l hl hnil
  have hsome := (stream_scanText cs).isSome_iff.mpr ⟨l, hl, herror⟩
  rw [houtcome] at hsome
  exact Bool.false_ne_true hsome

/-- A piece of some lexemes starts among their characters. -/
theorem start_lt_of_mem_place {ls : List Lexeme} (h : ∀ l ∈ ls, l.chars ≠ []) {p : Piece}
    (hp : p ∈ pieces (Token.place 0 ls)) : p.token.start < utf8Length (Scan.charsOf ls) := by
  obtain ⟨front, l, back, rfl, hplace⟩ := exists_of_mem_place (mem_of_mem_pieces hp)
  obtain ⟨c, chars, hchars⟩ := List.exists_cons_of_ne_nil (h l (by simp))
  have hpos := c.utf8Size_pos
  rw [hplace, Scan.charsOf_append, Scan.charsOf_cons, hchars, utf8Length_append,
    List.cons_append, utf8Length_cons]
  change 0 + utf8Length (Scan.charsOf front) < _
  omega

/-- A piece of a text starts in it. -/
theorem start_lt_of_mem_piecesOf {cs : List Char} {ls : List Lexeme} (h : Scan.Scans cs ls)
    {p : Piece} (hp : p ∈ piecesOf ls) : p.token.start < utf8Length cs := by
  rw [← h.charsOf_eq]
  exact start_lt_of_mem_place h.chars_ne_nil hp

end AlertAudit.Template
