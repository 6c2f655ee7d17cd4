import AlertAudit.Proofs.Template.Progress.Recursion
import AlertAudit.Proofs.Template.Progress.Scanner

/-!
To scan and to parse a text comes to an end. A round of a loop of the scanner after which the loop
goes on leaves a shorter text; a round of a loop of the parser takes a token, records an error or
leaves the loop; and what calls itself again, by way of parentheses, lists and blocks, does so with
fewer tokens in front. So the loops without a bound on their rounds, and the recursion without a
bound on its depth, come to exactly what the scanner and the parser give (`progress_ofText`).
-/

set_option autoImplicit false

namespace AlertAudit.Template

namespace Scan

/-- How the loops of the scanner go through a text. -/
structure Runs (text : String) : Prop where
  text_shrinks : ∀ c d, textRound c = .inl d → d.rest.length < c.rest.length
  action_shrinks : ∀ c d, actionRound c = .inl d → d.rest.length < c.rest.length
  /-- So does the round that reads the right delimiter. -/
  action_closes : ∀ c r rest, actionRound c = .inr r → r.outcome = .ok rest →
    rest.length < c.rest.length
  action : ∀ c r, Repeats actionRound c r ↔ r = c.followedBy (scanAction c.depth c.rest)
  text : ∀ r, Repeats textRound ⟨[], 0, text.toList⟩ r ↔ r = scanText text.toList

theorem runs (text : String) : Runs text where
  text_shrinks := shrinks_textRound
  action_shrinks := shrinks_actionRound
  action_closes := fun _ _ _ ↦ length_lt_of_actionRound_last
  action := fun _ _ ↦ repeats_actionRound
  text := fun _ ↦ repeats_textRound

end Scan

namespace Parser

/-- The loops in pipelines with `inner` in their parentheses. -/
structure PipelineLoops (inner : Parser Unit) : Prop where
  command_eq : command inner = node .command (iterate (commandRound inner) none)
  command : Halts (commandRound inner)
  declaration_eq : ∀ context, declarationBody context = do
    let _ ← iterate (declarationRound context) 0
  declaration : ∀ context, Halts (declarationRound context)
  pipeline : ∀ context close, Halts (pipelineStep inner context close)

theorem Grows.pipelineLoops {inner : Parser Unit} (h : Grows inner) : PipelineLoops inner where
  command_eq := by
    have hround : commandStep inner = commandRound inner := funext (commandStep_eq inner)
    rw [Parser.command_eq, hround]
  command := halts_commandRound h
  declaration_eq := declarationBody_eq
  declaration := halts_declarationRound
  pipeline := halts_pipelineStep h

/-- The loops over items with `bodies` in their blocks. -/
structure ItemLoops (bodies : Bodies) : Prop where
  list_eq : list bodies = node .list (iterate (fun _ ↦ listStep bodies) .stopped)
  list : Halts fun _ ↦ listStep bodies
  root_eq : root bodies = node .root do
    iterate (fun _ ↦ rootStep bodies) ()
    takeRest
  root : Halts fun _ ↦ rootStep bodies

theorem Bodies.Grow.itemLoops {bodies : Bodies} (h : bodies.Grow) : ItemLoops bodies where
  list_eq := Parser.list_eq bodies
  list := halts_listStep h
  root_eq := rfl
  root := halts_rootStep h

/-- How the parsers that call one another do so: what an outer one does where there are `n` tokens
in front is decided by what the inner ones do with fewer. So there is just one way to parse what
stands in parentheses, and what stands in lists and blocks. -/
structure Descends : Prop where
  parens : ∀ (inner inner' : Parser Unit) (n : Nat), Grows inner →
    AgreeOn (fun s ↦ s.place.ahead.length < n) inner inner' →
      AgreeOn (fun s ↦ s.place.ahead.length ≤ n) (outerParens inner) (outerParens inner')
  eq_parens : ∀ inner : Parser Unit, inner = outerParens inner ↔ inner = counted maxDepth
  bodies : ∀ (bodies bodies' : Bodies) (n : Nat), bodies.Grow → bodies.AgreeTo n bodies' →
    bodies.outer.AgreeTo (n + 1) bodies'.outer
  eq_bodies : ∀ bodies : Bodies, bodies = bodies.outer ↔ bodies = blocks

theorem descends : Descends where
  parens := fun _ _ _ hinner h ↦ agreeOn_outerParens hinner h
  eq_parens := fun _ ↦ eq_outerParens_iff
  bodies := fun _ _ _ hbodies h ↦ h.outer hbodies
  eq_bodies := fun _ ↦ eq_outer_iff

end Parser

/-- The loops of the scanner get further in the text with every round, and those of the parser take
a token or record an error in every round that does not leave them; what the parser does inside of
parentheses and blocks it does behind a token that it has taken. Without any bound on rounds and
depth, this comes to the tokens and to the tree of each text. -/
theorem progress_ofText (text : String) : Scan.Runs text ∧
    (∀ inner, Parser.Grows inner → Parser.PipelineLoops inner) ∧
    (∀ bodies : Parser.Bodies, bodies.Grow → Parser.ItemLoops bodies) ∧
    Parser.Descends ∧ Parser.Grows (Parser.counted Parser.maxDepth) ∧ Parser.blocks.Grow ∧
    (∀ context, Parser.AgreeAt 0 (Parser.actionPipeline context)
      (Parser.pipeline (Parser.counted Parser.maxDepth) context .rightDelim)) ∧
    Parse.ofText text = ⟨(Parser.root Parser.blocks (.start text)).2.built.headD (.node .root []),
      (Parser.root Parser.blocks (.start text)).2.error⟩ := by
  refine ⟨Scan.runs text, fun _ ↦ Parser.Grows.pipelineLoops, fun _ ↦ Parser.Bodies.Grow.itemLoops,
    Parser.descends, Parser.grows_counted _, Parser.grow_blocks, Parser.agreeAt_actionPipeline, ?_⟩
  rw [Parser.root_blocks]
  rfl

/-- A block with parentheses in it, and white space in front of a trim marker. -/
def trimmedBlock : String :=
  "\x7b\x7bif .A\x7d\x7d\x7b\x7b (len \"ä\")  -\x7d\x7d b\x7b\x7bend\x7d\x7d"

/-- The scanner comes to an end without an error, and so do the loops of the parser that go one
parenthesis and one block deep. -/
theorem progress_ofText_trimmedBlock :
    (∃ r, Repeats Scan.textRound ⟨[], 0, trimmedBlock.toList⟩ r ∧ r.outcome = .ok ()) ∧
    (Parser.Grows (Parser.parenthesized 1) ∧ Parser.PipelineLoops (Parser.parenthesized 1)) ∧
    (Parser.bodiesTo 1).Grow ∧ Parser.ItemLoops (Parser.bodiesTo 1) := by
  obtain ⟨hscan, hpipeline, hitem, -⟩ := progress_ofText trimmedBlock
  have hparens := Parser.grows_parenthesized 1
  have hbodies := Parser.grow_bodiesTo 1
  refine ⟨⟨_, (hscan.text _).mpr rfl, ?_⟩, ⟨hparens, hpipeline _ hparens⟩, hbodies, hitem _ hbodies⟩
  decide +kernel

end AlertAudit.Template
