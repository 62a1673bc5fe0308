import Mustache.Proofs.Ends

/-! Paths of openings: which templates a render opens inside one another. How a render ends, with
or without looking at what is open, is said by its paths. -/
namespace Mustache

open Data

variable {ν : Type}

/-- A template as its source compiles. -/
def Template.Compiled (t : Template) : Prop :=
  compile t.source = .ok t

instance (t : Template) : Decidable t.Compiled :=
  inferInstanceAs (Decidable (_ = _))

def Store.Compiled (s : Store) : Prop :=
  ∀ entry ∈ s.entries, entry.2.Compiled

/-- A template that is opened, and the stack it is opened on. -/
structure Opening (ν : Type) where
  name : Text
  template : Template
  stack : Stack ν
  deriving DecidableEq

/-- What tells openings apart while they are open: the name and the frame on top. -/
def Opening.key (o : Opening ν) : Text × ν := (o.name, o.stack.top)

namespace Setting

def Compiled (env : Setting ν) : Prop :=
  ∀ store, env.store? = some store → store.Compiled

lemma Compiled.template {env : Setting ν} (h : env.Compiled) {name : Text} {t : Template}
    (ht : env.template? name = some t) : t.Compiled := by
  obtain ⟨store, hs, ht⟩ := Option.bind_eq_some_iff.mp ht
  obtain ⟨l₁, l₂, he, -⟩ := List.lookup_eq_some_iff.mp ht
  exact h store hs (name, t) (by simp [he])

/-- What a walk over parts opens. -/
def openings (env : Setting ν) (s : Stack ν) (parts : List Part) : List (Opening ν) :=
  (visits env.context s parts).filterMap fun v =>
    (env.template? v.name).map fun t => ⟨v.name, t, v.stack⟩

/-- Openings each inside the one before, the first of them from some parts. -/
def IsPath (env : Setting ν) (s : Stack ν) (parts : List Part) : List (Opening ν) → Prop
  | [] => True
  | o :: os => o ∈ env.openings s parts ∧ IsPath env o.stack o.template.parts os

lemma mem_openings_iff {env : Setting ν} {s : Stack ν} {parts : List Part} {o : Opening ν} :
    o ∈ env.openings s parts ↔ ∃ v ∈ visits env.context s parts, v.name = o.name ∧
      v.stack = o.stack ∧ env.template? o.name = some o.template := by
  obtain ⟨name, t, stack⟩ := o
  simp only [openings, List.mem_filterMap, Option.map_eq_some_iff, Opening.mk.injEq]
  constructor
  · rintro ⟨v, hv, u, hu, rfl, rfl, rfl⟩
    exact ⟨v, hv, rfl, rfl, hu⟩
  · rintro ⟨v, hv, rfl, rfl, ht⟩
    exact ⟨v, hv, t, ht, rfl, rfl, rfl⟩

/-- What is opened on a path are the templates that the setting has. -/
theorem IsPath.template? {env : Setting ν} {s : Stack ν} {parts : List Part}
    {os : List (Opening ν)} (h : env.IsPath s parts os) :
    ∀ o ∈ os, env.template? o.name = some o.template := by
  induction os generalizing s parts with
  | nil => simp
  | cons o os ih =>
    obtain ⟨v, -, -, -, ht⟩ := mem_openings_iff.mp h.1
    intro o' ho'
    rcases List.mem_cons.mp ho' with rfl | ho'
    · exact ht
    · exact ih h.2 o' ho'

lemma isPath_append_cons {env : Setting ν} {s : Stack ν} {parts : List Part}
    {os qs : List (Opening ν)}
    {o : Opening ν} :
    env.IsPath s parts (os ++ o :: qs) ↔
      env.IsPath s parts (os ++ [o]) ∧ env.IsPath o.stack o.template.parts qs := by
  induction os generalizing s parts with
  | nil => simp [IsPath]
  | cons p os ih => simp [IsPath, ih, and_assoc]

lemma IsPath.take {env : Setting ν} {s : Stack ν} {parts : List Part} {os : List (Opening ν)}
    (h : env.IsPath s parts os) (n : Nat) : env.IsPath s parts (os.take n) := by
  induction os generalizing s parts n with
  | nil => simpa using h
  | cons o os ih =>
    cases n with
    | zero => trivial
    | succ n => exact ⟨h.1, ih h.2 n⟩

lemma openings_congr {env : Setting ν} {s : Stack ν} {ps qs : List Part}
    (h : (visits env.context s ps).map Visit.key = (visits env.context s qs).map Visit.key) :
    env.openings s ps = env.openings s qs := by
  have hf := congrArg (List.filterMap fun k : Text × Stack ν =>
    (env.template? k.1).map fun t => Opening.mk k.1 t k.2) h
  rwa [List.filterMap_map, List.filterMap_map] at hf

lemma isPath_congr {env : Setting ν} {s : Stack ν} {ps qs : List Part}
    (h : (visits env.context s ps).map Visit.key = (visits env.context s qs).map Visit.key)
    (os : List (Opening ν)) : env.IsPath s ps os ↔ env.IsPath s qs os := by
  cases os with
  | nil => exact Iff.rfl
  | cons o os => rw [IsPath, IsPath, openings_congr h]

end Setting
end Mustache
