import Mustache.Render.Walk

/-! Rendering templates that include one another and call lambdas. -/
namespace Mustache

open Data

variable {ν τ : Type}

/-- What renderers may do in ways of their own: which templates there are and how it is noted that
one is asked for, how a template comes to be indented, which inclusions close a cycle, given what is
open, how the lambda of a section is called, and what the tree of a template is and how it is
walked. -/
structure Renderer (ν τ : Type) where
  template? : Text → Option Template
  note : Text → Run ν Unit
  indented : Text → Text → Template → Run ν Template
  closes : List (Text × ν) → Text × ν → Bool
  call : ν → Lambda → Text → Run ν Text
  tree : Template → τ
  walk : Beyond ν → Stack ν → τ → Run ν Text

namespace Renderer

/-- A template as a tag includes it, which is indented if the tag is. -/
def fitted (r : Renderer ν τ) (name indent : Text) (t : Template) : Run ν Template :=
  if indent = [] then pure t else r.indented name indent t

/-- Renders a template by name, unless that closes a cycle. -/
def inclusion (r : Renderer ν τ) (render : List (Text × ν) → Stack ν → τ → Run ν Text)
    (opened : List (Text × ν)) (name indent : Text) (s : Stack ν) : Run ν Text := do
  r.note name
  match r.template? name with
  | none => pure []
  | some t =>
    if r.closes opened (name, s.top) then
      Run.fail (.partialCycle (((name, s.top) :: opened).reverse.map Prod.fst))
    else do
      render ((name, s.top) :: opened) s (r.tree (← r.fitted name indent t))

section

variable {r : Renderer ν τ} {render : List (Text × ν) → Stack ν → τ → Run ν Text}
  {opened : List (Text × ν)} {name indent : Text} {s : Stack ν}

theorem inclusion_of_none (ht : r.template? name = none) :
    r.inclusion render opened name indent s = (do r.note name; pure []) := by
  rw [inclusion, ht]

theorem inclusion_of_some {t : Template} (ht : r.template? name = some t) :
    r.inclusion render opened name indent s = (do
      r.note name
      if r.closes opened (name, s.top) then
        Run.fail (.partialCycle (((name, s.top) :: opened).reverse.map Prod.fst))
      else do
        render ((name, s.top) :: opened) s (r.tree (← r.fitted name indent t))) := by
  rw [inclusion, ht]

end

/-- What a renderer leaves to renders that go one level less deep: compiling the answers of lambdas,
and including templates. -/
def below (r : Renderer ν τ) (render : List (Text × ν) → Stack ν → τ → Run ν Text)
    (opened : List (Text × ν)) : Beyond ν where
  call := r.call
  expand d text s := do
    let parts ← Run.compiled (Part.ofSource d text)
    render opened s (r.tree ⟨text, parts⟩)
  inclusion := r.inclusion render opened

/-- Renders a tree, with templates and lambda answers at most so deep in one another. The inclusions
that are open are given with the frames they are open on, the innermost first. -/
def render (r : Renderer ν τ) : Nat → List (Text × ν) → Stack ν → τ → Run ν Text
  | 0, _, _, _ => throw .tooDeep
  | depth + 1, opened, s, tree => r.walk (r.below (r.render depth) opened) s tree

end Renderer

variable [DecidableEq ν]

/-- The renderer of a setting. Whoever includes a template again on the frame that it is open on
would do so forever. -/
def Setting.renderer (env : Setting ν) : Renderer ν (List Part) where
  template? := env.template?
  note := Run.note env.store?
  indented := Run.indented
  closes opened key := decide (key ∈ opened)
  call := Run.call env
  tree := Template.parts
  walk := walk env

/-- Renders parts, with templates and lambda answers at most so deep in one another. -/
def renderParts (env : Setting ν) : Nat → List (Text × ν) → Stack ν → List Part → Run ν Text :=
  env.renderer.render

/-- What a render leaves to renders that go one level less deep. -/
def Beyond.below (env : Setting ν) (depth : Nat) (opened : List (Text × ν)) : Beyond ν :=
  env.renderer.below (renderParts env depth) opened

theorem renderParts_succ (env : Setting ν) (depth : Nat) (opened : List (Text × ν)) (s : Stack ν)
    (parts : List Part) :
    renderParts env (depth + 1) opened s parts = walk env (.below env depth opened) s parts := rfl

/-- What a render comes to: its text or why there is none, and what it did, in order. -/
structure Report (ν : Type) where
  result : Except Stop Text
  calls : List (Call ν)
  lookups : List Text

/-- What a run comes to from the start. -/
def Report.ofRun (m : Run ν Text) : Report ν :=
  let outcome := m.run.run .start
  ⟨outcome.1, outcome.2.calls.reverse, outcome.2.lookups.reverse⟩

/-- Renders a template against a node. -/
def Template.render (t : Template) (env : Setting ν) (depth : Nat) (root : ν) : Report ν :=
  .ofRun (renderParts env depth [] (Stack.ofRoot root) t.parts)

end Mustache
