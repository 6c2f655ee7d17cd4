/-!
Finite sets of labels. A set is the strictly ascending list of its members, so two sets with the
same members are equal (`LabelSet.ext`), and every operation is known by what it does to
membership.
-/

set_option autoImplicit false

namespace AlertAudit.Labels

/-- A finite set of labels. -/
structure LabelSet where
  toList : List String
  ascending : toList.Pairwise (· < ·)
  deriving DecidableEq

def insertAscending (l : String) : List String → List String
  | [] => [l]
  | m :: ms => if l < m then l :: m :: ms else if m < l then m :: insertAscending l ms else m :: ms

/-- A label that is inserted comes to the others. -/
theorem mem_insertAscending {l x : String} {ms : List String} :
    x ∈ insertAscending l ms ↔ x = l ∨ x ∈ ms := by
  induction ms with
  | nil => simp [insertAscending]
  | cons m ms ih =>
    unfold insertAscending
    split
    · simp
    · split
      · simp only [List.mem_cons, ih]
        constructor
        · rintro (h | h | h) <;> simp [h]
        · rintro (h | h | h) <;> simp [h]
      · rename_i h₁ h₂
        have : l = m := String.le_antisymm (String.not_lt.1 h₂) (String.not_lt.1 h₁)
        simp [this]

/-- The labels stay in ascending order. -/
theorem pairwise_insertAscending {l : String} {ms : List String} (h : ms.Pairwise (· < ·)) :
    (insertAscending l ms).Pairwise (· < ·) := by
  induction ms with
  | nil => simp [insertAscending]
  | cons m ms ih =>
    obtain ⟨hm, hms⟩ := List.pairwise_cons.1 h
    unfold insertAscending
    split
    · rename_i hlm
      refine List.pairwise_cons.2 ⟨fun x hx ↦ ?_, h⟩
      rcases List.mem_cons.1 hx with rfl | hx
      · exact hlm
      · exact String.lt_trans hlm (hm x hx)
    · split
      · rename_i hml
        refine List.pairwise_cons.2 ⟨fun x hx ↦ ?_, ih hms⟩
        rcases mem_insertAscending.1 hx with rfl | hx
        · exact hml
        · exact hm x hx
      · exact h

/-- An ascending list is told by its members. -/
theorem eq_of_mem_iff {ls ms : List String} (hl : ls.Pairwise (· < ·)) (hm : ms.Pairwise (· < ·))
    (h : ∀ l, l ∈ ls ↔ l ∈ ms) : ls = ms := by
  induction ls generalizing ms with
  | nil => exact (List.eq_nil_iff_forall_not_mem.2 fun l hmem ↦
      List.not_mem_nil ((h l).2 hmem)).symm
  | cons l ls ih =>
    cases ms with
    | nil => exact absurd ((h l).1 List.mem_cons_self) List.not_mem_nil
    | cons m ms =>
      obtain ⟨hlt, hls⟩ := List.pairwise_cons.1 hl
      obtain ⟨hmt, hms⟩ := List.pairwise_cons.1 hm
      have hhead : l = m := by
        rcases List.mem_cons.1 ((h l).1 List.mem_cons_self) with heq | hmem
        · exact heq
        · rcases List.mem_cons.1 ((h m).2 List.mem_cons_self) with heq | hmem'
          · exact heq.symm
          · exact absurd (hmt l hmem) (String.lt_asymm (hlt m hmem'))
      subst hhead
      have htail : ∀ x, x ∈ ls ↔ x ∈ ms := by
        intro x
        have hx := h x
        rw [List.mem_cons, List.mem_cons] at hx
        constructor
        · intro hmem
          exact (hx.1 (.inr hmem)).resolve_left fun heq ↦ String.lt_irrefl _ (heq ▸ hlt x hmem)
        · intro hmem
          exact (hx.2 (.inr hmem)).resolve_left fun heq ↦ String.lt_irrefl _ (heq ▸ hmt x hmem)
      rw [ih hls hms htail]

namespace LabelSet

instance : Membership String LabelSet := ⟨fun s l ↦ l ∈ s.toList⟩

instance (l : String) (s : LabelSet) : Decidable (l ∈ s) :=
  inferInstanceAs (Decidable (l ∈ s.toList))

theorem mem_def {l : String} {s : LabelSet} : l ∈ s ↔ l ∈ s.toList := Iff.rfl

/-- Sets with the same members are equal. -/
@[ext] theorem ext {s t : LabelSet} (h : ∀ l, l ∈ s ↔ l ∈ t) : s = t := by
  obtain ⟨ls, hls⟩ := s
  obtain ⟨ms, hms⟩ := t
  obtain rfl : ls = ms := eq_of_mem_iff hls hms h
  rfl

def empty : LabelSet := ⟨[], .nil⟩

instance : EmptyCollection LabelSet := ⟨empty⟩

instance : Inhabited LabelSet := ⟨empty⟩

def insert (l : String) (s : LabelSet) : LabelSet :=
  ⟨insertAscending l s.toList, pairwise_insertAscending s.ascending⟩

def filter (p : String → Bool) (s : LabelSet) : LabelSet :=
  ⟨s.toList.filter p, s.ascending.filter p⟩

def erase (l : String) (s : LabelSet) : LabelSet := s.filter (· ≠ l)

def inter (s t : LabelSet) : LabelSet := s.filter (· ∈ t)

def diff (s t : LabelSet) : LabelSet := s.filter (· ∉ t)

def union (s t : LabelSet) : LabelSet := s.toList.foldr insert t

def ofList (ls : List String) : LabelSet := ls.foldr insert empty

@[simp] theorem not_mem_empty {l : String} : l ∉ (∅ : LabelSet) :=
  fun h ↦ absurd (mem_def.1 h) List.not_mem_nil

@[simp] theorem mem_insert {l m : String} {s : LabelSet} : l ∈ s.insert m ↔ l = m ∨ l ∈ s :=
  mem_insertAscending

@[simp] theorem mem_filter {l : String} {p : String → Bool} {s : LabelSet} :
    l ∈ s.filter p ↔ l ∈ s ∧ p l :=
  List.mem_filter

@[simp] theorem mem_erase {l m : String} {s : LabelSet} : l ∈ s.erase m ↔ l ∈ s ∧ l ≠ m := by
  simp [erase]

@[simp] theorem mem_inter {l : String} {s t : LabelSet} : l ∈ s.inter t ↔ l ∈ s ∧ l ∈ t := by
  simp [inter]

@[simp] theorem mem_diff {l : String} {s t : LabelSet} : l ∈ s.diff t ↔ l ∈ s ∧ l ∉ t := by
  simp [diff]

theorem mem_foldr_insert {l : String} {ls : List String} {s : LabelSet} :
    l ∈ ls.foldr insert s ↔ l ∈ ls ∨ l ∈ s := by
  induction ls with
  | nil => simp
  | cons m ms ih => simp [ih, or_assoc]

@[simp] theorem mem_union {l : String} {s t : LabelSet} : l ∈ s.union t ↔ l ∈ s ∨ l ∈ t :=
  mem_foldr_insert

@[simp] theorem mem_ofList {l : String} {ls : List String} : l ∈ ofList ls ↔ l ∈ ls :=
  mem_foldr_insert.trans (or_iff_left not_mem_empty)

end LabelSet

end AlertAudit.Labels
