import Mustache.Proofs.Ends

/-! What parts mean over data without lambdas: a text for each stack. -/
namespace Mustache

open Data

variable {ν α β : Type}

namespace Part

mutual

def textPart (C : Context ν) (s : Stack ν) : Part → Text
  | .literal text => text
  | .value path escaped =>
    let text := ((s.resolve? C path).map C.value).getD []
    if escaped then escape text else text
  | .block false path _ _ children =>
    match s.occurrence C path with
    | .call _ _ => []
    | .under contexts => (contexts.map fun s => text C s children).flatten
  | .block true path _ _ children => if s.nothingAt C path then text C s children else []
  | .inclusion _ _ | .switch _ => []

/-- The text of parts over data without lambdas, with nothing for inclusions. -/
def text (C : Context ν) (s : Stack ν) : List Part → Text
  | [] => []
  | part :: parts => textPart C s part ++ text C s parts

end

lemma text_append (C : Context ν) (s : Stack ν) (ps qs : List Part) :
    text C s (ps ++ qs) = text C s ps ++ text C s qs := by
  induction ps with
  | nil => rfl
  | cons p ps ih => rw [List.cons_append, text, text, ih, List.append_assoc]

end Part

namespace Run

/-- A computation keeps what holds of its progress, and gives one value if it gives any. -/
def Gives (I : Progress ν → Prop) (m : Run ν α) (a : α) : Prop :=
  Ends I m fun x => ∀ b, x = .ok b → b = a

namespace Gives

variable {I : Progress ν → Prop}

lemma pure (a : α) : Gives I (pure a) a :=
  Ends.pure fun _ h => (Except.ok.inj h).symm

lemma throw (e : Stop) (a : α) : Gives I (throw e) a :=
  Ends.throw fun _ h => by cases h

lemma bind {m : Run ν α} {f : α → Run ν β} {a : α} {b : β} (hm : Gives I m a)
    (hf : Gives I (f a) b) : Gives I (m >>= f) b := by
  apply Ends.bind hm
  · intro a' ha
    obtain rfl := ha a' rfl
    exact hf
  · intro e _ b h
    cases h

lemma map {m : Run ν α} {a : α} (hm : Gives I m a) (f : α → β) : Gives I (f <$> m) (f a) := by
  rw [map_eq_pure_bind]
  exact hm.bind (pure (f a))

lemma mapM {f : β → Run ν α} {g : β → α} {xs : List β} (h : ∀ x ∈ xs, Gives I (f x) (g x)) :
    Gives I (xs.mapM f) (xs.map g) := by
  induction xs with
  | nil => exact pure []
  | cons x xs ih =>
    rw [List.mapM_cons]
    refine (h x List.mem_cons_self).bind ?_
    exact (ih fun y hy => h y (List.mem_cons_of_mem x hy)).bind (pure (g x :: xs.map g))

end Gives
end Run

variable [DecidableEq ν] {env : Setting ν} {root : ν} {I : Progress ν → Prop} {beyond : Beyond ν}
  {s : Stack ν}

lemma interpolate_gives (hf : env.context.LambdaFree root) (hs : s.Within env.context root)
    (path : Text) :
    Run.Gives I (interpolate env s path)
      (((s.resolve? env.context path).map env.context.value).getD []) := by
  unfold interpolate
  cases hn : s.resolve? env.context path with
  | none => exact .pure []
  | some node =>
    simp only [hf node (hs.resolve? hn)]
    exact .pure _

/-- A value tag gives its text. -/
theorem walkPart_value_gives (hf : env.context.LambdaFree root) (hs : s.Within env.context root)
    (path : Text) (escaped : Bool) :
    Run.Gives I (walkPart env beyond s (.value path escaped))
      (Part.textPart env.context s (.value path escaped)) := by
  rw [walkPart]
  exact (interpolate_gives hf hs path).bind (.pure _)

/-- A block gives its text if its children give theirs. -/
theorem walkPart_block_gives (hf : env.context.LambdaFree root) (hs : s.Within env.context root)
    {children children' : List Part}
    (h : ∀ c : Stack ν, c.Within env.context root →
      Run.Gives I (walk env beyond c children) (Part.text env.context c children'))
    (inverted : Bool) (path source : Text) (d : Delimiters) :
    Run.Gives I (walkPart env beyond s (.block inverted path source d children))
      (Part.textPart env.context s (.block inverted path source d children')) := by
  cases inverted with
  | false =>
    obtain ⟨contexts, hc, hw⟩ := hs.occurrence hf path
    simp only [walkPart, Part.textPart, hc]
    exact (Run.Gives.mapM fun c hm => h c (hw c hm)).map List.flatten
  | true =>
    simp only [walkPart, Part.textPart]
    split
    · exact h s hs
    · exact .pure []

end Mustache
