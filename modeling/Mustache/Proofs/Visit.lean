import Mustache.Proofs.Indentation
import Mustache.Proofs.Reach

/-! Visits: the inclusions that a walk over parts comes by. Which templates are asked for, and
against which stacks, depends on the outline of the parts only. -/
namespace Mustache

open Data

variable {ν : Type} {C : Context ν} {root : ν}

/-- An inclusion that a walk comes by, with the stack there. -/
structure Visit (ν : Type) where
  name : Text
  indent : Text
  stack : Stack ν

namespace Visit

/-- A visit without its indent. -/
def key (v : Visit ν) : Text × Stack ν := (v.name, v.stack)

end Visit

mutual

/-- The inclusions that a walk over a part comes by, in order. -/
def visitsPart (C : Context ν) (s : Stack ν) : Part → List (Visit ν)
  | .block false path _ _ children =>
    match s.occurrence C path with
    | .call _ _ => []
    | .under contexts => contexts.flatMap fun s => visits C s children
  | .block true path _ _ children => if s.nothingAt C path then visits C s children else []
  | .inclusion name indent => [⟨name, indent, s⟩]
  | .literal _ | .value _ _ | .switch _ => []

/-- The inclusions that a walk over parts comes by, in order. -/
def visits (C : Context ν) (s : Stack ν) : List Part → List (Visit ν)
  | [] => []
  | part :: parts => visitsPart C s part ++ visits C s parts

end

mutual

lemma mem_inclusions_of_visitsPart {s : Stack ν} {v : Visit ν} : (part : Part) →
    v ∈ visitsPart C s part → (v.name, v.indent) ∈ Part.inclusions [part]
  | .block false path source d children, h => by
    simp only [visitsPart] at h
    split at h
    · simp at h
    · obtain ⟨s', -, hv⟩ := List.mem_flatMap.mp h
      simpa using .inl (mem_inclusions_of_visits children hv)
  | .block true path source d children, h => by
    simp only [visitsPart] at h
    split at h
    · simpa using .inl (mem_inclusions_of_visits children h)
    · simp at h
  | .inclusion name indent, h => by
    obtain rfl := by simpa [visitsPart] using h
    simp [Part.inclusions, Part.collect, Part.collectPart]
  | .literal _, h | .value _ _, h | .switch _, h => by simp [visitsPart] at h

/-- Only inclusions of the parts are met. -/
theorem mem_inclusions_of_visits {s : Stack ν} {v : Visit ν} : (parts : List Part) →
    v ∈ visits C s parts → (v.name, v.indent) ∈ Part.inclusions parts
  | [], h => by simp [visits] at h
  | part :: parts, h => by
    rw [← List.singleton_append, Part.inclusions_append, List.mem_append]
    rcases List.mem_append.mp h with h | h
    · exact .inl (mem_inclusions_of_visitsPart part h)
    · exact .inr (mem_inclusions_of_visits parts h)

end

mutual

lemma within_of_visitsPart (hf : C.LambdaFree root) {s : Stack ν} (hs : s.Within C root)
    {v : Visit ν} : (part : Part) → v ∈ visitsPart C s part → v.stack.Within C root
  | .block false path source d children, h => by
    obtain ⟨contexts, hc, hw⟩ := hs.occurrence hf path
    simp only [visitsPart, hc] at h
    obtain ⟨s', hs', hv⟩ := List.mem_flatMap.mp h
    exact within_of_visits hf (hw s' hs') children hv
  | .block true path source d children, h => by
    simp only [visitsPart] at h
    split at h
    · exact within_of_visits hf hs children h
    · simp at h
  | .inclusion name indent, h => by
    obtain rfl := by simpa [visitsPart] using h
    exact hs
  | .literal _, h | .value _ _, h | .switch _, h => by simp [visitsPart] at h

/-- They are met on stacks of the data. -/
theorem within_of_visits (hf : C.LambdaFree root) {s : Stack ν} (hs : s.Within C root)
    {v : Visit ν} : (parts : List Part) → v ∈ visits C s parts → v.stack.Within C root
  | [], h => by simp [visits] at h
  | part :: parts, h => by
    rcases List.mem_append.mp h with h | h
    · exact within_of_visitsPart hf hs part h
    · exact within_of_visits hf hs parts h

end

lemma visits_append (C : Context ν) (s : Stack ν) (ps qs : List Part) :
    visits C s (ps ++ qs) = visits C s ps ++ visits C s qs := by
  induction ps with
  | nil => rfl
  | cons p ps ih => simp [visits, ih]

mutual

lemma visitsPart_outline (f : Text → Text) (s : Stack ν) : (part : Part) →
    (visits C s (Part.outlinePart f part)).map Visit.key = (visitsPart C s part).map Visit.key
  | .block false path source d children => by
    simp only [Part.outlinePart, visits, visitsPart, List.append_nil]
    split
    · rfl
    · rename_i contexts _
      rw [List.map_flatMap, List.map_flatMap]
      congr 1
      exact funext fun s' => visits_outline f s' children
  | .block true path source d children => by
    simp only [Part.outlinePart, visits, visitsPart, List.append_nil]
    split
    · exact visits_outline f s children
    · rfl
  | .inclusion name indent => rfl
  | .literal _ | .value _ _ | .switch _ => rfl

/-- Parts with the same outline ask for the same templates on the same stacks. -/
theorem visits_outline (f : Text → Text) (s : Stack ν) : (parts : List Part) →
    (visits C s (Part.outline f parts)).map Visit.key = (visits C s parts).map Visit.key
  | [] => rfl
  | part :: parts => by
    rw [Part.outline, visits_append, List.map_append, visitsPart_outline f s part,
      visits_outline f s parts, visits, List.map_append]

end

end Mustache
