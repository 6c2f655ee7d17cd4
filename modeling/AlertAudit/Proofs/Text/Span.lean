import AlertAudit.Text.Span
import Mathlib.Data.String.Basic

/-!
Stretches of a text inside a longer text. A stretch that begins between two characters of the text
and ends in it (`Span.Fits`) covers the same characters if text is put in front and behind, at a
place moved by the bytes in front (`Span.slice_moved`), and is on a line moved by the line breaks in
front (`lineAt_moved`). A stretch that also ends between two characters `Covers` those in it.
-/

set_option autoImplicit false

namespace AlertAudit.Text

/-! ### Lengths -/

@[simp]
theorem utf8Length_nil : utf8Length [] = 0 := rfl

@[simp]
theorem utf8Length_cons (c : Char) (cs : List Char) :
    utf8Length (c :: cs) = c.utf8Size + utf8Length cs := rfl

@[simp]
theorem utf8Length_append (cs ds : List Char) :
    utf8Length (cs ++ ds) = utf8Length cs + utf8Length ds := by
  induction cs with
  | nil => rw [List.nil_append, utf8Length_nil, Nat.zero_add]
  | cons c cs ih => rw [List.cons_append, utf8Length_cons, utf8Length_cons, ih, Nat.add_assoc]

/-- Only the empty text takes no bytes. -/
theorem utf8Length_eq_zero_iff {cs : List Char} : utf8Length cs = 0 ↔ cs = [] := by
  cases cs with
  | nil => simp
  | cons c cs =>
    have hpos := c.utf8Size_pos
    simp only [utf8Length_cons, reduceCtorEq, iff_false]
    omega

/-- The bytes of a string are those of its characters. -/
theorem utf8ByteSize_ofList (cs : List Char) :
    (String.ofList cs).utf8ByteSize = utf8Length cs := by
  rw [String.utf8ByteSize_ofList]
  induction cs with
  | nil => rfl
  | cons c cs ih => rw [String.utf8Len_cons, ih, utf8Length_cons, Nat.add_comm]

theorem utf8Length_toList (s : String) : utf8Length s.toList = s.utf8ByteSize := by
  rw [← utf8ByteSize_ofList, String.ofList_toList]

/-! ### Bytes of a longer text -/

section Append

variable (front back cs : List Char) {n : Nat}

theorem takeBytes_nil (n : Nat) : takeBytes n [] = [] := by
  cases n <;> rfl

theorem takeBytes_cons {c : Char} (h : 0 < n) :
    takeBytes n (c :: cs) = c :: takeBytes (n - c.utf8Size) cs := by
  obtain ⟨m, rfl⟩ := Nat.exists_eq_add_of_lt h
  rfl

theorem dropBytes_cons {c : Char} (h : 0 < n) :
    dropBytes n (c :: cs) = dropBytes (n - c.utf8Size) cs := by
  obtain ⟨m, rfl⟩ := Nat.exists_eq_add_of_lt h
  rfl

/-- To take bytes behind a text is to take them from what follows it. -/
theorem takeBytes_append_left (n : Nat) :
    takeBytes (n + utf8Length front) (front ++ cs) = front ++ takeBytes n cs := by
  induction front with
  | nil => rfl
  | cons c front ih =>
    have hpos := c.utf8Size_pos
    rw [List.cons_append, utf8Length_cons, takeBytes_cons _ (by omega), List.cons_append, ← ih]
    congr 2
    omega

/-- So it is with bytes that are left out. -/
theorem dropBytes_append_left (n : Nat) :
    dropBytes (n + utf8Length front) (front ++ cs) = dropBytes n cs := by
  induction front with
  | nil => rfl
  | cons c front ih =>
    have hpos := c.utf8Size_pos
    rw [List.cons_append, utf8Length_cons, dropBytes_cons _ (by omega), ← ih]
    congr 1
    omega

/-- Bytes within a text are taken from it, whatever follows. -/
theorem takeBytes_append_right (h : n ≤ utf8Length cs) :
    takeBytes n (cs ++ back) = takeBytes n cs := by
  induction cs generalizing n with
  | nil =>
    obtain rfl := Nat.le_zero.mp h
    rw [takeBytes_nil, takeBytes]
  | cons c cs ih =>
    rcases Nat.eq_zero_or_pos n with rfl | hn
    · rw [takeBytes, takeBytes]
    · rw [utf8Length_cons] at h
      rw [List.cons_append, takeBytes_cons _ hn, takeBytes_cons _ hn, ih (by omega)]

end Append

/-! ### Stretches -/

namespace Span

/-- The stretch with `n` bytes put in front of the text. -/
def moved (n : Nat) (s : Span) : Span := ⟨s.start + n, s.stop + n⟩

/-- The stretch begins between two characters of a text, and the text does not end in it. -/
structure Fits (text : List Char) (s : Span) : Prop where
  begins : ∃ before after, text = before ++ after ∧ s.start = utf8Length before
  ends : s.stop ≤ utf8Length text

/-- A stretch that fits begins in the text. -/
theorem Fits.start_le {text : List Char} {s : Span} (h : s.Fits text) :
    s.start ≤ utf8Length text := by
  obtain ⟨before, after, rfl, hstart⟩ := h.begins
  rw [hstart, utf8Length_append]
  exact Nat.le_add_right _ _

/-- A stretch covers the same characters in a longer text. -/
theorem slice_moved {text : List Char} {s : Span} (h : s.Fits text) (front back : List Char) :
    (s.moved (utf8Length front)).slice (front ++ text ++ back) = s.slice text := by
  obtain ⟨⟨before, after, rfl, hstart⟩, hends⟩ := h
  rw [utf8Length_append] at hends
  have hafter (tail : List Char) : dropBytes (utf8Length before) (before ++ tail) = tail := by
    have hdrop := dropBytes_append_left before tail 0
    rwa [Nat.zero_add, dropBytes] at hdrop
  have hlength : s.stop + utf8Length front - (s.start + utf8Length front) = s.stop - s.start := by
    omega
  rw [slice, slice, moved, hlength, hstart, List.append_assoc, List.append_assoc,
    dropBytes_append_left, hafter, hafter, takeBytes_append_right]
  omega

end Span

/-- A place in a text is as many lines further down in a longer one as there are line breaks in
front. -/
theorem lineAt_moved {text : List Char} {offset : Nat} (h : offset ≤ utf8Length text)
    (front back : List Char) : lineAt (front ++ text ++ back) (offset + utf8Length front) =
      lineAt text offset + front.count '\n' := by
  rw [lineAt, lineAt, List.append_assoc, takeBytes_append_left, takeBytes_append_right _ _ h,
    List.count_append, Nat.add_comm]

/-! ### What a stretch covers -/

namespace Span

/-- The stretch begins and ends between characters of the text, and these are between them. -/
def Covers (text : List Char) (s : Span) (chars : List Char) : Prop :=
  ∃ before after, text = before ++ chars ++ after ∧
    s = ⟨utf8Length before, utf8Length (before ++ chars)⟩

end Span

/-- Two ways to begin a text that take as many bytes are the same. -/
theorem eq_of_utf8Length_eq {before before' after after' : List Char}
    (h : before ++ after = before' ++ after') (hlength : utf8Length before = utf8Length before') :
    before = before' ∧ after = after' := by
  induction before generalizing before' with
  | nil =>
    cases before' with
    | nil => exact ⟨rfl, h⟩
    | cons c before' =>
      have hpos := c.utf8Size_pos
      rw [utf8Length_nil, utf8Length_cons] at hlength
      omega
  | cons c before ih =>
    cases before' with
    | nil =>
      have hpos := c.utf8Size_pos
      rw [utf8Length_nil, utf8Length_cons] at hlength
      omega
    | cons d before' =>
      obtain ⟨rfl, hrest⟩ := List.cons.inj h
      obtain ⟨rfl, rfl⟩ := ih hrest (Nat.add_left_cancel hlength)
      exact ⟨rfl, rfl⟩

/-- Adjacent stretches are one stretch. -/
theorem Span.Covers.append {text chars chars' : List Char} {s s' : Span}
    (h : s.Covers text chars) (h' : s'.Covers text chars') (hnext : s'.start = s.stop) :
    Span.Covers text ⟨s.start, s'.stop⟩ (chars ++ chars') := by
  obtain ⟨before, after, htext, rfl⟩ := h
  obtain ⟨before', after', htext', rfl⟩ := h'
  have hsame : before' ++ (chars' ++ after') = (before ++ chars) ++ after := by
    rw [← List.append_assoc, ← htext', htext]
  obtain ⟨rfl, rfl⟩ := eq_of_utf8Length_eq hsame hnext
  refine ⟨before, after', by rw [htext', List.append_assoc before], ?_⟩
  rw [List.append_assoc]

/-- The number of line breaks in front of a place is its line. -/
theorem lineAt_utf8Length (before after : List Char) :
    lineAt (before ++ after) (utf8Length before) = before.count '\n' := by
  have htake := takeBytes_append_left before after 0
  rw [Nat.zero_add, takeBytes, List.append_nil] at htake
  rw [lineAt, htake]

/-- What a stretch covers are the characters in it. -/
theorem Span.Covers.slice_eq {text chars : List Char} {s : Span} (h : s.Covers text chars) :
    s.slice text = chars := by
  obtain ⟨before, after, rfl, rfl⟩ := h
  have hdrop := dropBytes_append_left before (chars ++ after) 0
  have htake := takeBytes_append_left chars after 0
  rw [Nat.zero_add] at hdrop htake
  rw [Span.slice, utf8Length_append, Nat.add_sub_cancel_left, List.append_assoc, hdrop, dropBytes,
    htake, takeBytes, List.append_nil]

end AlertAudit.Text
