import Mustache.Proofs.Reach
import Mustache.Render

/-! Carried answers: values of one kind that are written as values of another. A document whose
answers are carried over has the same places, and renders to the same. -/
namespace Mustache

open Data

variable {α β ν : Type}

/-- What goes through a list one by one is a map. -/
theorem eq_map_of_cons {f : α → β} {g : List α → List β} (hnil : g [] = [])
    (hcons : ∀ x xs, g (x :: xs) = f x :: g xs) (xs : List α) : g xs = xs.map f := by
  induction xs with
  | nil => exact hnil
  | cons x xs ih => rw [hcons, List.map_cons, ih]

namespace Data.Context

/-- Data that answers the same, but calls nothing a boolean that is falsy. -/
def settled (C : Context ν) : Context ν :=
  { C with isBool := fun node => C.isBool node && !C.falsy node }

/-- What a value is written as answers as the value does. Whether it is a boolean is asked only
where it is not falsy. -/
structure Carries (C : Context α) (D : Context β) (write : α → β) (v : α) : Prop where
  child? (name : Text) : D.child? (write v) name = (C.child? v name).map write
  children? : D.children? (write v) = (C.children? v).map (List.map write)
  value : D.value (write v) = C.value v
  falsy : D.falsy (write v) = C.falsy v
  isBool : C.falsy v = false → D.isBool (write v) = C.isBool v
  lambda? : D.lambda? (write v) = C.lambda? v

variable {C : Context α} {D : Context β} {write : α → β} {root : α}

lemma Carries.step? {v : α} (h : Carries C D write v) (step : Step) :
    D.step? (write v) step = (C.step? v step).map write := by
  cases step with
  | member name => exact h.child? name
  | item index =>
    rw [Context.step?, Context.step?, h.children?]
    cases C.children? v <;> simp

lemma Reaches.step {node child : α} {step : Step} (hn : C.Reaches root node)
    (h : C.step? node step = some child) : C.Reaches root child := by
  cases step with
  | member name => exact hn.member h
  | item index =>
    obtain ⟨items, hi, hx⟩ := Option.bind_eq_some_iff.mp h
    exact hn.item hi (List.mem_of_getElem? hx)

lemma Reaches.follow? {node found : α} {steps : List Step} (hn : C.Reaches root node)
    (h : C.follow? node steps = some found) : C.Reaches root found := by
  induction steps generalizing node with
  | nil =>
    obtain rfl := Option.some.inj h
    exact hn
  | cons step steps ih =>
    obtain ⟨child, hc, hrest⟩ := Option.bind_eq_some_iff.mp h
    exact ih (hn.step hc) hrest

/-- The same steps lead to what is written for the same node. -/
theorem follow?_of_carries (h : ∀ v, C.Reaches root v → Carries C D write v) {node : α}
    (hn : C.Reaches root node) (steps : List Step) :
    D.follow? (write node) steps = (C.follow? node steps).map write := by
  induction steps generalizing node with
  | nil => rfl
  | cons step steps ih =>
    change (D.step? (write node) step).bind (D.follow? · steps) =
      ((C.step? node step).bind (C.follow? · steps)).map write
    rw [(h node hn).step?]
    cases hs : C.step? node step with
    | none => rfl
    | some child => exact ih (hn.step hs)

/-- The documents are one and the same: their places answer alike. -/
theorem settled_located_of_carries (h : ∀ v, C.Reaches root v → Carries C D write v) :
    (D.located (write root)).settled = (C.located root).settled := by
  have hfollow := follow?_of_carries h .root
  have hcarries {place : Location} {v : α} (hv : C.follow? root place = some v) :=
    h v (Reaches.root.follow? hv)
  simp only [settled, located, hfollow, mk.injEq]
  refine ⟨funext fun place => funext fun name => ?_, funext fun place => ?_,
    funext fun place => ?_, funext fun place => ?_, funext fun place => ?_,
    funext fun place => ?_⟩
  all_goals
    cases hv : C.follow? root place with
    | none => rfl
    | some v => ?_
  · simp only [Option.map_some, Option.bind_some, (hcarries hv).child?, Option.map_map]
    rfl
  · simp only [Option.map_some, Option.bind_some, (hcarries hv).children?, Option.map_map,
      Function.comp_def, List.length_map]
  · exact (hcarries hv).value
  · exact (hcarries hv).falsy
  · have hf := (hcarries hv).falsy
    have hb := (hcarries hv).isBool
    simp only [Option.map_some, Option.any_some, hf]
    cases hv' : C.falsy v with
    | true => simp
    | false => rw [hb hv']
  · exact (hcarries hv).lambda?

end Data.Context

namespace Stack

lemma occurrence_settled (C : Context ν) (s : Stack ν) (path : Text) :
    s.occurrence C.settled path = s.occurrence C path := by
  have hn : s.resolve? C.settled path = s.resolve? C path := rfl
  rw [occurrence, occurrence, hn]
  cases s.resolve? C path with
  | none => rfl
  | some node => by_cases hf : C.falsy node = true <;> simp [Context.settled, hf]

end Stack

variable [DecidableEq ν]

mutual

lemma walkPart_settled (env : Setting ν) (beyond : Beyond ν) (s : Stack ν) : (part : Part) →
    walkPart { env with context := env.context.settled } beyond s part = walkPart env beyond s part
  | .literal _ | .value _ _ | .inclusion _ _ | .switch _ => rfl
  | .block false path source d children => by
    rw [walkPart, walkPart, Stack.occurrence_settled]
    split
    · rfl
    · simp only [walk_settled env beyond _ children]
  | .block true path source d children => by
    rw [walkPart, walkPart, walk_settled env beyond s children]
    rfl

lemma walk_settled (env : Setting ν) (beyond : Beyond ν) (s : Stack ν) : (parts : List Part) →
    walk { env with context := env.context.settled } beyond s parts = walk env beyond s parts
  | [] => rfl
  | part :: parts => by
    rw [walk, walk, walkPart_settled env beyond s part, walk_settled env beyond s parts]

end

/-- Whether a falsy node is a boolean is never asked. -/
theorem renderParts_settled (env : Setting ν) (depth : Nat) :
    renderParts { env with context := env.context.settled } depth = renderParts env depth := by
  induction depth with
  | zero => rfl
  | succ depth ih =>
    funext opened s parts
    rw [renderParts_succ, renderParts_succ, walk_settled, Beyond.below, ih]
    rfl

/-- Renders a template against a document that nothing was rendered against before. -/
def Template.renderOn (t : Template) (store? : Option Store) (depth : Nat) (d : Document) :
    Report Location :=
  t.render ⟨d.context, store?, []⟩ depth d.root

/-- Renders against a value and against what it is written as are the same, if the answers are
carried over. -/
theorem Template.renderOn_of_carries {C : Context α} {D : Context β} {write : α → β} {root : α}
    (h : ∀ v, C.Reaches root v → Context.Carries C D write v) (t : Template)
    (store? : Option Store) (depth : Nat) :
    t.renderOn store? depth (.ofValue D (write root)) =
      t.renderOn store? depth (.ofValue C root) := by
  have hd := renderParts_settled ⟨D.located (write root), store?, []⟩ depth
  have hc := renderParts_settled ⟨C.located root, store?, []⟩ depth
  rw [Context.settled_located_of_carries h] at hd
  simp only [renderOn, render, Document.ofValue, ← hd, ← hc]

end Mustache
