import Mathlib.Data.Set.Finite.Basic
import Mustache.Render.Section

/-! The nodes that data consists of: what can be reached from its root, and that rendering never
puts anything else in context. -/
namespace Mustache

open Data

variable {ν : Type} {C : Context ν} {root : ν}

namespace Data.Context

/-- The nodes that are reached from a root by members and items. -/
inductive Reaches (C : Context ν) (root : ν) : ν → Prop
  | root : Reaches C root root
  | member {node child : ν} {name : Text} (hn : Reaches C root node)
      (hc : C.child? node name = some child) : Reaches C root child
  | item {node item : ν} {items : List ν} (hn : Reaches C root node)
      (hi : C.children? node = some items) (hm : item ∈ items) : Reaches C root item

lemma Reaches.members {node found : ν} {names : List Text} (hn : C.Reaches root node)
    (h : names.foldlM C.child? node = some found) : C.Reaches root found := by
  induction names generalizing node with
  | nil =>
    obtain rfl := Option.some.inj h
    exact hn
  | cons name names ih =>
    obtain ⟨child, hc, hrest⟩ := Option.bind_eq_some_iff.mp h
    exact ih (.member hn hc) hrest

/-- What a section puts on the stack over a node that is no lambda, one entry for each time that
it is rendered. -/
def pushes (C : Context ν) (node : ν) : List (Option ν) :=
  match C.children? node with
  | some items => items.map some
  | none => if C.falsy node then [] else if C.isBool node then [none] else [some node]

lemma Reaches.of_mem_pushes {node pushed : ν} (hn : C.Reaches root node)
    (h : some pushed ∈ C.pushes node) : C.Reaches root pushed := by
  unfold pushes at h
  split at h
  · rename_i items hi
    obtain ⟨item, hm, he⟩ := List.mem_map.mp h
    obtain rfl := Option.some.inj he
    exact .item hn hi hm
  · split at h
    · simp at h
    · split at h
      · simp at h
      · obtain rfl := Option.some.inj (List.mem_singleton.mp h)
        exact hn

/-- Data without lambdas. -/
def LambdaFree (C : Context ν) (root : ν) : Prop :=
  ∀ node, C.Reaches root node → C.lambda? node = none

/-- Data with finitely many nodes. -/
def FinitelyMany (C : Context ν) (root : ν) : Prop :=
  {node | C.Reaches root node}.Finite

end Data.Context

namespace Stack

/-- A stack of nodes of the data. -/
def Within (C : Context ν) (root : ν) (s : Stack ν) : Prop :=
  ∀ node ∈ s.frames, C.Reaches root node

lemma within_ofRoot (C : Context ν) (root : ν) : (ofRoot root).Within C root := by
  intro node hn
  obtain rfl := List.mem_singleton.mp hn
  exact .root

lemma Within.push {s : Stack ν} (hs : s.Within C root) {node : ν} (hn : C.Reaches root node) :
    (s.push node).Within C root := by
  intro n h
  rcases List.mem_cons.mp h with rfl | h
  · exact hn
  · exact hs n h

lemma Within.top {s : Stack ν} (hs : s.Within C root) : C.Reaches root s.top :=
  hs _ List.mem_cons_self

lemma Within.lookup? {s : Stack ν} (hs : s.Within C root) {name : Text} {node : ν}
    (h : s.lookup? C name = some node) : C.Reaches root node := by
  obtain ⟨frame, hf, hc⟩ := List.exists_of_findSome?_eq_some h
  exact .member (hs frame hf) hc

/-- A path leads to nodes of the data only. -/
theorem Within.resolve? {s : Stack ν} (hs : s.Within C root) {path : Text} {node : ν}
    (h : s.resolve? C path = some node) : C.Reaches root node := by
  unfold Stack.resolve? at h
  split at h
  · obtain rfl := Option.some.inj h
    exact hs.top
  · split at h
    · simp at h
    · rename_i first rest _
      obtain ⟨found, hf, hrest⟩ := Option.bind_eq_some_iff.mp h
      exact (hs.lookup? hf).members hrest

/-- A stack with a node on top, or as it is. -/
def enter (s : Stack ν) : Option ν → Stack ν
  | none => s
  | some node => s.push node

lemma Within.enter {s : Stack ν} (hs : s.Within C root) {pushed? : Option ν}
    (hn : ∀ node, pushed? = some node → C.Reaches root node) : (s.enter pushed?).Within C root := by
  cases pushed? with
  | none => exact hs
  | some node => exact hs.push (hn node rfl)

lemma occurrence_of_resolve?_eq_none {s : Stack ν} {path : Text}
    (h : s.resolve? C path = none) : s.occurrence C path = .under [] := by
  rw [occurrence, h]

lemma occurrence_of_resolve?_eq_some {s : Stack ν} {path : Text} {node : ν}
    (h : s.resolve? C path = some node) (hl : C.lambda? node = none) :
    s.occurrence C path = .under ((C.pushes node).map s.enter) := by
  simp only [occurrence, h, hl, Context.pushes]
  cases C.children? node with
  | some items => simp [Stack.enter, Function.comp_def]
  | none => cases C.falsy node <;> cases C.isBool node <;> rfl

/-- A section that is rendered under stacks found nothing, or a node that is no lambda. -/
theorem exists_of_occurrence_eq_under {s : Stack ν} {path : Text} {contexts : List (Stack ν)}
    (h : s.occurrence C path = .under contexts) :
    s.resolve? C path = none ∧ contexts = [] ∨
      ∃ node, s.resolve? C path = some node ∧ C.lambda? node = none ∧
        contexts = (C.pushes node).map s.enter := by
  cases hn : s.resolve? C path with
  | none =>
    rw [occurrence_of_resolve?_eq_none hn] at h
    exact .inl ⟨rfl, (Occurrence.under.inj h).symm⟩
  | some node =>
    cases hl : C.lambda? node with
    | some l => simp [occurrence, hn, hl] at h
    | none =>
      rw [occurrence_of_resolve?_eq_some hn hl] at h
      exact .inr ⟨node, rfl, hl, (Occurrence.under.inj h).symm⟩

/-- Without lambdas a section is rendered against stacks of the data, and nothing is called. -/
theorem Within.occurrence {s : Stack ν} (hs : s.Within C root) (hf : C.LambdaFree root)
    (path : Text) :
    ∃ contexts, s.occurrence C path = .under contexts ∧ ∀ c ∈ contexts, c.Within C root := by
  cases hn : s.resolve? C path with
  | none => exact ⟨[], occurrence_of_resolve?_eq_none hn, by simp⟩
  | some node =>
    have hr := hs.resolve? hn
    refine ⟨_, occurrence_of_resolve?_eq_some hn (hf node hr), fun c hc => ?_⟩
    obtain ⟨pushed?, hm, rfl⟩ := List.mem_map.mp hc
    apply hs.enter
    rintro pushed rfl
    exact hr.of_mem_pushes hm

end Stack
end Mustache
