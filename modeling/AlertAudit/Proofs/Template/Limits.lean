import AlertAudit.Proofs.Template.Agreement

/-!
The limit on nested parentheses. The parser of a pipeline in parentheses is bounded by how many more
of them may be opened; `counted` asks the count of the open ones instead. The two agree wherever as
many are open as leave room for the others (`agreeAt_counted`), so they are the same.
-/

set_option autoImplicit false

namespace AlertAudit.Template.Parser

variable {α : Type}

/-- A pipeline in parentheses, unless as many are open as the limit allows. `fuel` only bounds the
recursion. -/
def counted : Nat → Parser Unit
  | 0 => fail .tooDeep
  | fuel + 1 => do
    if maxDepth ≤ (← get).depth then fail .tooDeep
    else inParens (pipeline (counted fuel) .parenthesized .parenClose)

/-- The two parsers do the same wherever `depth` parentheses are open. -/
def AgreeAt (depth : Nat) (p q : Parser α) : Prop := ∀ s : State, s.depth = depth → p s = q s

theorem stable_depth (depth : Nat) : Stable (·.depth = depth) :=
  ⟨fun _ _ hgrows hs ↦ hgrows.depth.trans hs, fun _ hs ↦ hs⟩

section AgreeAt

variable {depth : Nat} {p q : Parser α}

theorem agreeAt_inParens (h : AgreeAt (depth + 1) p q) (hp : Grows p) :
    AgreeAt depth (inParens p) (inParens q) := by
  intro s hs
  have hinner := h { s with depth := s.depth + 1 } (congrArg (· + 1) hs)
  have hdepth := (hp { s with depth := s.depth + 1 }).depth
  rw [inParens_apply hdepth, inParens_apply (hinner ▸ hdepth), hinner]

theorem agreeAt_pipeline {inner inner' : Parser Unit} (hgrows : Grows inner)
    (h : AgreeAt depth inner inner') (context : Context) (close : TokenKind) :
    AgreeAt depth (pipeline inner context close) (pipeline inner' context close) :=
  agreeOn_pipeline (stable_depth depth) hgrows (fun t ht ↦ h t ht.1) context close

end AgreeAt

/-- The bound on the recursion is the limit on the count: where `n` more parentheses may be opened,
a parser that asks the count does what the bounded one does. -/
theorem agreeAt_counted {depth : Nat} : ∀ {n fuel : Nat}, depth + n = maxDepth → n ≤ fuel →
    AgreeAt depth (parenthesized n) (counted fuel)
  | 0, 0, _, _ => fun _ _ ↦ rfl
  | 0, fuel + 1, hdepth, _ => by
    intro s hs
    have hfull : maxDepth ≤ s.depth := by omega
    rw [counted, bind_apply, get_apply, if_pos hfull, parenthesized]
  | n + 1, fuel + 1, hdepth, hfuel => by
    intro s hs
    have hinner : AgreeAt (depth + 1) (parenthesized n) (counted fuel) :=
      agreeAt_counted (by omega) (by omega)
    have hgrows := grows_parenthesized n
    have hpipeline := agreeAt_pipeline hgrows hinner .parenthesized .parenClose
    have hroom : ¬maxDepth ≤ s.depth := by omega
    rw [counted, bind_apply, get_apply, if_neg hroom, parenthesized]
    exact agreeAt_inParens hpipeline (grows_pipeline hgrows _ _) s hs

/-- The pipelines of actions stand in no parentheses, and may hold as many of them as the limit
allows. -/
theorem agreeAt_actionPipeline (context : Context) :
    AgreeAt 0 (actionPipeline context) (pipeline (counted maxDepth) context .rightDelim) :=
  agreeAt_pipeline (grows_parenthesized maxDepth)
    (agreeAt_counted (Nat.zero_add maxDepth) (Nat.le_refl maxDepth)) context .rightDelim

end AlertAudit.Template.Parser
