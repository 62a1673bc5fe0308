import Mustache.Render.Section
import Mustache.Render.Escape
import Mustache.Render.Run

/-! Walking the parts of one template against a context stack. -/
namespace Mustache

open Data

/-- What a walk leaves to others: calling the lambda of a section over its source, rendering the
answer with the delimiters of the section, and rendering the template that an inclusion names. -/
structure Beyond (ν : Type) where
  call : ν → Lambda → Text → Run ν Text
  expand : Delimiters → Text → Stack ν → Run ν Text
  inclusion : Text → Text → Stack ν → Run ν Text

variable {ν : Type} [DecidableEq ν]

/-- The text of a value tag before it is escaped. -/
def interpolate (env : Setting ν) (s : Stack ν) (path : Text) : Run ν Text :=
  match s.resolve? env.context path with
  | none => pure []
  | some node =>
    match env.context.lambda? node with
    | some l => Run.call env node l []
    | none => pure (env.context.value node)

mutual

def walkPart (env : Setting ν) (beyond : Beyond ν) (s : Stack ν) : Part → Run ν Text
  | .literal text => pure text
  | .value path escaped => do
    let text ← interpolate env s path
    pure (if escaped then escape text else text)
  | .block false path source d children =>
    match s.occurrence env.context path with
    | .call node l => do beyond.expand d (← beyond.call node l source) s
    | .under contexts => List.flatten <$> contexts.mapM fun s => walk env beyond s children
  | .block true path _ _ children =>
    if s.nothingAt env.context path then walk env beyond s children else pure []
  | .inclusion name indent => beyond.inclusion name indent s
  | .switch _ => pure []

/-- The text of parts, one after the other. -/
def walk (env : Setting ν) (beyond : Beyond ν) (s : Stack ν) : List Part → Run ν Text
  | [] => pure []
  | part :: parts => do
    let text ← walkPart env beyond s part
    let rest ← walk env beyond s parts
    pure (text ++ rest)

end

/-- Parts that follow one another are rendered one after the other. -/
theorem walk_append (env : Setting ν) (beyond : Beyond ν) (s : Stack ν) (parts more : List Part) :
    walk env beyond s (parts ++ more) =
      (do let text ← walk env beyond s parts
          let rest ← walk env beyond s more
          pure (text ++ rest)) := by
  induction parts with
  | nil => simp [walk]
  | cons part parts ih =>
    simp only [List.cons_append, walk, ih, bind_assoc, pure_bind, List.append_assoc]

end Mustache
