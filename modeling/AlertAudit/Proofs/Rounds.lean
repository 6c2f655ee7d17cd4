import Mathlib.Logic.Basic

/-!
Loops, as rounds that follow one another until one of them leaves the loop. Nothing bounds the
number of rounds, so a loop need not come to anything; it comes to something if every round that
does not leave it makes something smaller (`repeats_iff`).
-/

set_option autoImplicit false

namespace AlertAudit

variable {σ α : Type} {round : σ → σ ⊕ α}

/-- From `s`, rounds lead to one that leaves the loop with `a`. -/
inductive Repeats (round : σ → σ ⊕ α) : σ → α → Prop
  | last {s : σ} {a : α} : round s = .inr a → Repeats round s a
  | more {s t : σ} {a : α} : round s = .inl t → Repeats round t a → Repeats round s a

/-- A round after which the loop goes on makes something smaller. -/
def Shrinks (round : σ → σ ⊕ α) (size : σ → Nat) : Prop :=
  ∀ s t, round s = .inl t → size t < size s

theorem Shrinks.exists_repeats {size : σ → Nat} (h : Shrinks round size) (s : σ) :
    ∃ a, Repeats round s a := by
  induction hsize : size s using Nat.strongRecOn generalizing s with
  | ind n ih =>
    cases hround : round s with
    | inl t =>
      obtain ⟨a, ha⟩ := ih (size t) (hsize ▸ h s t hround) t rfl
      exact ⟨a, .more hround ha⟩
    | inr a => exact ⟨a, .last hround⟩

/-- What every round keeps, and a round that leaves the loop returns, is what the loop comes to. -/
theorem Repeats.eq {f : σ → α} (hlast : ∀ s a, round s = .inr a → f s = a)
    (hmore : ∀ s t, round s = .inl t → f s = f t) {s : σ} {a : α} (h : Repeats round s a) :
    a = f s := by
  induction h with
  | last hround => exact (hlast _ _ hround).symm
  | more hround _ ih => exact ih.trans (hmore _ _ hround).symm

theorem repeats_iff {size : σ → Nat} {f : σ → α} (hshrinks : Shrinks round size)
    (hlast : ∀ s a, round s = .inr a → f s = a) (hmore : ∀ s t, round s = .inl t → f s = f t)
    {s : σ} {a : α} : Repeats round s a ↔ a = f s := by
  refine ⟨Repeats.eq hlast hmore, ?_⟩
  rintro rfl
  obtain ⟨a, ha⟩ := hshrinks.exists_repeats s
  exact ha.eq hlast hmore ▸ ha

end AlertAudit
