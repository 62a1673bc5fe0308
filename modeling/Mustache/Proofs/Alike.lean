import Mathlib.Data.Fintype.List
import Mathlib.Data.Set.Finite.Range
import Mustache.Proofs.Path

/-! Stacks that answer alike. What they hold below the top frame may differ, as long as every name
leads to the same node; then walks against them go the same ways. -/
namespace Mustache

open Data

variable {ν : Type} {C : Context ν} {root : ν}

namespace Stack

/-- Stacks with the same frame on top on which every name leads to the same node. -/
structure Alike (C : Context ν) (s s' : Stack ν) : Prop where
  top : s.top = s'.top
  lookup : ∀ name, s.lookup? C name = s'.lookup? C name

lemma lookup?_push (C : Context ν) (s : Stack ν) (node : ν) (name : Text) :
    (s.push node).lookup? C name = (C.child? node name).or (s.lookup? C name) := by
  unfold lookup?
  rw [frames_push, List.findSome?_cons]
  cases C.child? node name <;> rfl

lemma Alike.push {s s' : Stack ν} (h : Alike C s s') (node : ν) :
    Alike C (s.push node) (s'.push node) :=
  ⟨rfl, fun name => by rw [lookup?_push, lookup?_push, h.lookup]⟩

lemma Alike.enter {s s' : Stack ν} (h : Alike C s s') (pushed? : Option ν) :
    Alike C (s.enter pushed?) (s'.enter pushed?) := by
  cases pushed? with
  | none => exact h
  | some node => exact h.push node

lemma Alike.resolve? {s s' : Stack ν} (h : Alike C s s') (path : Text) :
    s.resolve? C path = s'.resolve? C path := by
  unfold Stack.resolve?
  rw [h.top]
  split
  · rfl
  · split
    · rfl
    · rw [h.lookup]

lemma Alike.nothingAt {s s' : Stack ν} (h : Alike C s s') (path : Text) :
    s.nothingAt C path = s'.nothingAt C path := by
  unfold Stack.nothingAt
  rw [h.resolve?]

/-- A section over alike stacks is rendered against alike stacks. -/
theorem Alike.occurrence {s s' : Stack ν} (h : Alike C s s') {path : Text}
    {contexts : List (Stack ν)} (hc : s.occurrence C path = .under contexts) :
    ∃ contexts', s'.occurrence C path = .under contexts' ∧
      ∀ c ∈ contexts, ∃ c' ∈ contexts', Alike C c c' := by
  rcases exists_of_occurrence_eq_under hc with ⟨hn, rfl⟩ | ⟨node, hn, hl, rfl⟩
  · rw [h.resolve?] at hn
    exact ⟨[], occurrence_of_resolve?_eq_none hn, by simp⟩
  · rw [h.resolve?] at hn
    refine ⟨_, occurrence_of_resolve?_eq_some hn hl, fun c hc => ?_⟩
    obtain ⟨pushed?, hm, rfl⟩ := List.mem_map.mp hc
    exact ⟨s'.enter pushed?, List.mem_map_of_mem hm, h.enter pushed?⟩

end Stack

mutual

lemma exists_visitsPart_of_alike {s s' : Stack ν} (h : Stack.Alike C s s') {v : Visit ν} :
    (part : Part) → v ∈ visitsPart C s part →
    ∃ v' ∈ visitsPart C s' part, v'.name = v.name ∧ Stack.Alike C v.stack v'.stack
  | .block false path source d children, hv => by
    simp only [visitsPart] at hv ⊢
    split at hv
    · simp at hv
    · rename_i contexts hc
      obtain ⟨c, hm, hv⟩ := List.mem_flatMap.mp hv
      obtain ⟨contexts', hc', hall⟩ := h.occurrence hc
      obtain ⟨c', hm', ha⟩ := hall c hm
      obtain ⟨v', hv', hname, hstack⟩ := exists_visits_of_alike ha children hv
      rw [hc']
      exact ⟨v', List.mem_flatMap.mpr ⟨c', hm', hv'⟩, hname, hstack⟩
  | .block true path source d children, hv => by
    simp only [visitsPart] at hv ⊢
    rw [← h.nothingAt]
    split at hv
    · rename_i hn
      rw [if_pos hn]
      exact exists_visits_of_alike h children hv
    · simp at hv
  | .inclusion name indent, hv => by
    obtain rfl := by simpa [visitsPart] using hv
    exact ⟨⟨name, indent, s'⟩, by simp [visitsPart], rfl, h⟩
  | .literal _, hv | .value _ _, hv | .switch _, hv => by simp [visitsPart] at hv

/-- Walks against alike stacks come by the same inclusions, on alike stacks. -/
theorem exists_visits_of_alike {s s' : Stack ν} (h : Stack.Alike C s s') {v : Visit ν} :
    (parts : List Part) → v ∈ visits C s parts →
    ∃ v' ∈ visits C s' parts, v'.name = v.name ∧ Stack.Alike C v.stack v'.stack
  | [], hv => by simp [visits] at hv
  | part :: parts, hv => by
    rcases List.mem_append.mp hv with hv | hv
    · obtain ⟨v', hv', hname, hstack⟩ := exists_visitsPart_of_alike h part hv
      exact ⟨v', List.mem_append_left _ hv', hname, hstack⟩
    · obtain ⟨v', hv', hname, hstack⟩ := exists_visits_of_alike h parts hv
      exact ⟨v', List.mem_append_right _ hv', hname, hstack⟩

end

/-- From alike stacks there are paths of the same lengths. -/
theorem Setting.IsPath.exists_of_alike {env : Setting ν} {s s' : Stack ν} {parts : List Part}
    {os : List (Opening ν)} (hp : env.IsPath s parts os) (h : Stack.Alike env.context s s') :
    ∃ os', env.IsPath s' parts os' ∧ os'.length = os.length := by
  induction os generalizing s s' parts with
  | nil => exact ⟨[], trivial, rfl⟩
  | cons o os ih =>
    obtain ⟨v, hv, hname, hstack, ht⟩ := Setting.mem_openings_iff.mp hp.1
    obtain ⟨v', hv', hname', ha⟩ := exists_visits_of_alike h parts hv
    obtain ⟨os', hos', hlength⟩ := ih hp.2 (hstack ▸ ha)
    exact ⟨⟨o.name, o.template, v'.stack⟩ :: os',
      ⟨Setting.mem_openings_iff.mpr ⟨v', hv', hname'.trans hname, rfl, ht⟩, hos'⟩,
      congrArg Nat.succ hlength⟩

/-- The frames of a stack that are not covered by the same frame further up. -/
def Stack.recent [DecidableEq ν] : List ν → List ν
  | [] => []
  | f :: fs => f :: (recent fs).filter (· != f)

namespace Stack

variable [DecidableEq ν]

lemma recent_nodup (fs : List ν) : (recent fs).Nodup := by
  induction fs with
  | nil => exact .nil
  | cons f fs ih => exact List.nodup_cons.mpr ⟨by simp, ih.filter _⟩

lemma mem_of_mem_recent {fs : List ν} {f : ν} (h : f ∈ recent fs) : f ∈ fs := by
  induction fs with
  | nil => exact h
  | cons g fs ih =>
    rcases List.mem_cons.mp h with rfl | h
    · exact List.mem_cons_self
    · exact List.mem_cons_of_mem _ (ih (List.mem_filter.mp h).1)

lemma findSome?_filter_ne {β : Type} (g : ν → Option β) {f : ν} (hf : g f = none) (fs : List ν) :
    (fs.filter (· != f)).findSome? g = fs.findSome? g := by
  induction fs with
  | nil => rfl
  | cons a fs ih =>
    by_cases ha : a = f
    · rw [List.filter_cons_of_neg (by simpa using ha), ih, List.findSome?_cons, ha, hf]
    · rw [List.filter_cons_of_pos (by simpa using ha), List.findSome?_cons, List.findSome?_cons, ih]

/-- The frames that are covered are never asked. -/
theorem findSome?_recent {β : Type} (g : ν → Option β) (fs : List ν) :
    (recent fs).findSome? g = fs.findSome? g := by
  induction fs with
  | nil => rfl
  | cons f fs ih =>
    rw [recent, List.findSome?_cons, List.findSome?_cons]
    cases hg : g f with
    | some b => rfl
    | none => exact (findSome?_filter_ne g hg _).trans ih

lemma alike_of_recent {s s' : Stack ν} (h : recent s.frames = recent s'.frames) :
    Alike C s s' := by
  constructor
  · exact (List.cons.inj h).1
  · intro name
    rw [lookup?, lookup?, ← findSome?_recent, h, findSome?_recent]

/-- Over finite data there are finitely many stacks that are not alike. -/
theorem recent_finite (hn : C.FinitelyMany root) :
    {fs | ∃ s : Stack ν, s.Within C root ∧ fs = recent s.frames}.Finite := by
  have := Set.Finite.fintype hn
  refine (Set.finite_range fun l : {l : List {node | C.Reaches root node} // l.Nodup} =>
    l.1.map Subtype.val).subset ?_
  rintro _ ⟨s, hs, rfl⟩
  have hmem : ∀ node ∈ recent s.frames, node ∈ {node | C.Reaches root node} :=
    fun node h => hs node (mem_of_mem_recent h)
  have hnodup := recent_nodup s.frames
  lift recent s.frames to List {node | C.Reaches root node} using hmem with l hl
  exact ⟨⟨l, List.Nodup.of_map _ hnodup⟩, rfl⟩

end Stack
end Mustache
