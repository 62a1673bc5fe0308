import Mustache.Render.Stack

/-! Sections: how often a block is rendered, and against which stacks. -/
namespace Mustache

open Data

/-- What becomes of a section: its text is handed to a lambda, or its parts are rendered once for
each of some stacks. -/
inductive Occurrence (ν : Type) where
  | call (node : ν) (lambda : Lambda)
  | under (contexts : List (Stack ν))

variable {ν : Type}

/-- A section over a list is rendered for each item, over another node once, and not at all where
nothing is found or the node is falsy. Items and nodes go on the stack; a boolean does not. -/
def Stack.occurrence (C : Context ν) (s : Stack ν) (path : Text) : Occurrence ν :=
  match s.resolve? C path with
  | none => .under []
  | some node =>
    match C.lambda? node with
    | some lambda => .call node lambda
    | none =>
      match C.children? node with
      | some items => .under (items.map s.push)
      | none =>
        if C.falsy node then .under []
        else if C.isBool node then .under [s]
        else .under [s.push node]

/-- Whether an inverted section is rendered: over what is not found, an empty list, and what is
falsy without being a list. A lambda never counts as nothing. -/
def Stack.nothingAt (C : Context ν) (s : Stack ν) (path : Text) : Bool :=
  match s.resolve? C path with
  | none => true
  | some node =>
    if (C.lambda? node).isSome then false
    else match C.children? node with
      | some items => items.isEmpty
      | none => C.falsy node

/-- Over a path that leads to no lambda, an inverted section is rendered just when the section is
not. -/
theorem Stack.nothingAt_of_occurrence_under {C : Context ν} {s : Stack ν} {path : Text}
    {contexts : List (Stack ν)} (h : s.occurrence C path = .under contexts) :
    s.nothingAt C path = contexts.isEmpty := by
  unfold occurrence at h
  unfold nothingAt
  cases hn : s.resolve? C path with
  | none =>
    obtain rfl := by simpa [hn] using h
    rfl
  | some node =>
    cases hl : C.lambda? node with
    | some l => simp [hn, hl] at h
    | none =>
      cases hi : C.children? node with
      | some items =>
        obtain rfl := by simpa [hn, hl, hi] using h
        simp [hl, hi]
      | none =>
        cases hf : C.falsy node <;> cases hb : C.isBool node <;>
          obtain rfl := by simpa [hn, hl, hi, hf, hb] using h
        all_goals simp [hl, hi, hf]

theorem Stack.nothingAt_of_occurrence_call {C : Context ν} {s : Stack ν} {path : Text} {node : ν}
    {l : Lambda} (h : s.occurrence C path = .call node l) : s.nothingAt C path = false := by
  unfold occurrence at h
  unfold nothingAt
  cases hn : s.resolve? C path with
  | none => simp [hn] at h
  | some node =>
    cases hl : C.lambda? node with
    | some l => simp [hl]
    | none =>
      cases hi : C.children? node with
      | some items => simp [hn, hl, hi] at h
      | none => cases hf : C.falsy node <;> cases hb : C.isBool node <;> simp_all

end Mustache
