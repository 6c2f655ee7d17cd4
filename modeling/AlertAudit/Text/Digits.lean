/-!
Characters written by number: digits in a base of at most sixteen, a fixed count of them, and the
character of a code point.
-/

set_option autoImplicit false

namespace AlertAudit.Text

/-- The value of a digit in a base of at most sixteen. -/
def digit? (base : Nat) (c : Char) : Option Nat :=
  let value : Option Nat :=
    if '0' ≤ c ∧ c ≤ '9' then some (c.toNat - '0'.toNat)
    else if 'a' ≤ c ∧ c ≤ 'f' then some (c.toNat - 'a'.toNat + 10)
    else if 'A' ≤ c ∧ c ≤ 'F' then some (c.toNat - 'A'.toNat + 10)
    else none
  value.filter (· < base)

/-- Reads exactly `count` digits in the given base, continuing a number read so far. -/
def number? (base : Nat) : Nat → Nat → List Char → Option (Nat × List Char)
  | 0, value, cs => some (value, cs)
  | count + 1, value, c :: cs => do number? base count (value * base + (← digit? base c)) cs
  | _ + 1, _, [] => none

/-- The character of a code point; surrogates and numbers beyond the last plane have none. -/
def char? (n : Nat) : Option Char :=
  if n.isValidChar then some (Char.ofNat n) else none

theorem length_of_number? {base : Nat} :
    ∀ {count value : Nat} {cs : List Char} {n : Nat} {rest : List Char},
      number? base count value cs = some (n, rest) → rest.length ≤ cs.length
  | 0, _, _, _, _, h => by
    simp only [number?, Option.some.injEq, Prod.mk.injEq] at h
    exact h.2 ▸ Nat.le_refl _
  | count + 1, value, c :: cs, n, rest, h => by
    simp only [number?, Option.bind_eq_bind, Option.bind_eq_some_iff] at h
    obtain ⟨d, _, hd⟩ := h
    have := length_of_number? hd
    simp only [List.length_cons]
    omega
  | _ + 1, _, [], _, _, h => by simp [number?] at h

end AlertAudit.Text
