import AlertAudit.Proofs.Text.Span

/-!
Texts as bytes. A text can be cut at a byte where a character starts and at no other
(`splitBytes?_eq_some_iff`). The bytes of a character that takes more than one are none of those
that stand for a character by themselves, so to look for such a character by its byte finds a place
where a text can be cut (`byteOf_mem_utf8EncodeChar_iff`).
-/

set_option autoImplicit false

namespace AlertAudit.Text

/-! ### Cuts -/

/-- The text in front of byte `offset` and the text from there on, if a character starts or the text
ends there. -/
def splitBytes? : Nat → List Char → Option (List Char × List Char)
  | 0, cs => some ([], cs)
  | _ + 1, [] => none
  | offset + 1, c :: cs =>
    if c.utf8Size ≤ offset + 1 then
      (splitBytes? (offset + 1 - c.utf8Size) cs).map fun (front, back) ↦ (c :: front, back)
    else none

/-- A text can be cut between two parts of it. -/
theorem splitBytes?_append (front back : List Char) :
    splitBytes? (utf8Length front) (front ++ back) = some (front, back) := by
  induction front with
  | nil => rw [utf8Length_nil, List.nil_append, splitBytes?]
  | cons c front ih =>
    obtain ⟨n, hn⟩ := Nat.exists_eq_add_of_lt c.utf8Size_pos
    have hlength : utf8Length (c :: front) = n + utf8Length front + 1 := by
      rw [utf8Length_cons]
      omega
    rw [List.cons_append, hlength, splitBytes?, if_pos (by omega)]
    have hrest : n + utf8Length front + 1 - c.utf8Size = utf8Length front := by omega
    rw [hrest, ih]
    rfl

/-- A text can be cut at a byte if and only if it is two texts, the first as long. -/
theorem splitBytes?_eq_some_iff {offset : Nat} {cs front back : List Char} :
    splitBytes? offset cs = some (front, back) ↔
      cs = front ++ back ∧ offset = utf8Length front := by
  constructor
  · intro h
    fun_induction splitBytes? offset cs generalizing front back with
    | case1 cs =>
      obtain ⟨rfl, rfl⟩ := Prod.mk.inj (Option.some.inj h)
      exact ⟨rfl, rfl⟩
    | case2 => cases h
    | case3 offset c cs hsize ih =>
      obtain ⟨⟨front', back'⟩, hsplit, heq⟩ := Option.map_eq_some_iff.mp h
      obtain ⟨rfl, rfl⟩ := Prod.mk.inj heq
      obtain ⟨rfl, hlength⟩ := ih hsplit
      refine ⟨rfl, ?_⟩
      rw [utf8Length_cons]
      omega
    | case4 => cases h
  · rintro ⟨rfl, rfl⟩
    exact splitBytes?_append front back

/-! ### Bytes -/

def bytesOf (cs : List Char) : List UInt8 := cs.flatMap String.utf8EncodeChar

/-- The byte of a character that takes one. -/
def byteOf (c : Char) : UInt8 := UInt8.ofNat c.toNat

theorem bytesOf_nil : bytesOf [] = [] := rfl

theorem bytesOf_append (cs ds : List Char) : bytesOf (cs ++ ds) = bytesOf cs ++ bytesOf ds :=
  List.flatMap_append

theorem bytesOf_cons (c : Char) (cs : List Char) :
    bytesOf (c :: cs) = String.utf8EncodeChar c ++ bytesOf cs := List.flatMap_cons

/-- A text has as many bytes as its characters take. -/
theorem length_bytesOf (cs : List Char) : (bytesOf cs).length = utf8Length cs := by
  induction cs with
  | nil => rfl
  | cons c cs ih =>
    rw [bytesOf_cons, List.length_append, String.length_utf8EncodeChar, ih, utf8Length_cons]

section Encoding

variable {a c : Char} {b : UInt8}

/-- A character below 128 takes one byte. -/
theorem utf8EncodeChar_of_lt (h : c.toNat < 128) : String.utf8EncodeChar c = [byteOf c] :=
  if_pos (Nat.le_of_lt_succ h)

/-- The bytes of a longer character are none of those that characters of one byte have. -/
theorem le_of_mem_utf8EncodeChar (h : 128 ≤ c.toNat) (hb : b ∈ String.utf8EncodeChar c) :
    128 ≤ b.toNat := by
  have hlong : ¬c.val.toNat ≤ 127 := Nat.not_le_of_lt h
  simp only [String.utf8EncodeChar, if_neg hlong] at hb
  split at hb
  · simp only [List.mem_cons, List.not_mem_nil, or_false] at hb
    rcases hb with rfl | rfl <;> simp only [UInt8.toNat_ofNat'] <;> omega
  · split at hb
    · simp only [List.mem_cons, List.not_mem_nil, or_false] at hb
      rcases hb with rfl | rfl | rfl <;> simp only [UInt8.toNat_ofNat'] <;> omega
    · simp only [List.mem_cons, List.not_mem_nil, or_false] at hb
      rcases hb with rfl | rfl | rfl | rfl <;> simp only [UInt8.toNat_ofNat'] <;> omega

/-- The byte of such a character is its number. -/
theorem toNat_byteOf (h : c.toNat < 128) : (byteOf c).toNat = c.toNat := by
  rw [byteOf, UInt8.toNat_ofNat']
  omega

/-- The byte of a short character is a byte of that character alone. -/
theorem byteOf_mem_utf8EncodeChar_iff (ha : a.toNat < 128) :
    byteOf a ∈ String.utf8EncodeChar c ↔ c = a := by
  by_cases hc : c.toNat < 128
  · rw [utf8EncodeChar_of_lt hc, List.mem_singleton]
    refine ⟨fun h ↦ ?_, fun h ↦ h ▸ rfl⟩
    have htoNat := congrArg UInt8.toNat h
    rw [toNat_byteOf ha, toNat_byteOf hc] at htoNat
    exact Char.toNat_inj.mp htoNat.symm
  · constructor
    · intro h
      have hle := le_of_mem_utf8EncodeChar (Nat.le_of_not_lt hc) h
      rw [toNat_byteOf ha] at hle
      exact absurd hle (Nat.not_le_of_lt ha)
    · rintro rfl
      exact absurd ha hc

/-- A character has a first byte, and further ones only if it is a longer one. -/
theorem exists_utf8EncodeChar (c : Char) : ∃ b bs, String.utf8EncodeChar c = b :: bs ∧
    ∀ a : Char, a.toNat < 128 → byteOf a ∉ bs := by
  have hne : String.utf8EncodeChar c ≠ [] := by
    rw [← List.length_pos_iff, String.length_utf8EncodeChar]
    exact c.utf8Size_pos
  obtain ⟨b, bs, hcons⟩ := List.exists_cons_of_ne_nil hne
  refine ⟨b, bs, hcons, fun a ha hmem ↦ ?_⟩
  have hc : c = a := (byteOf_mem_utf8EncodeChar_iff ha).mp (hcons ▸ List.mem_cons_of_mem b hmem)
  rw [hc, utf8EncodeChar_of_lt ha] at hcons
  rw [← (List.cons.inj hcons).2] at hmem
  exact absurd hmem List.not_mem_nil

/-- Whether a text begins with a short character is seen at its first byte. -/
theorem head?_bytesOf_iff (ha : a.toNat < 128) {cs : List Char} :
    (bytesOf cs).head? = some (byteOf a) ↔ cs.head? = some a := by
  cases cs with
  | nil => simp [bytesOf]
  | cons c cs =>
    obtain ⟨b, bs, hcons, hbs⟩ := exists_utf8EncodeChar c
    have hmem := @byteOf_mem_utf8EncodeChar_iff a c ha
    rw [hcons, List.mem_cons, or_iff_left (hbs a ha)] at hmem
    rw [bytesOf_cons, hcons, List.cons_append, List.head?_cons, List.head?_cons, Option.some_inj,
      Option.some_inj, ← hmem, eq_comm]

end Encoding

end AlertAudit.Text
