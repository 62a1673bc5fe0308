import Mustache.Proofs.Agree
import Mustache.Proofs.Path

/-! Inclusions: a template is asked for, indented and rendered. Indenting never fails, and what is
kept of it for the next time is what indenting would give again. -/
namespace Mustache

open Data Text

variable {ν : Type}

lemma Site.blank_indent (x : Site) : Blank x.indent := by
  rw [Site.indent_eq]
  split
  · rename_i h
    exact h.2.1
  · exact blank_nil

/-- Inclusions are indented by blanks only. -/
theorem Part.blank_of_mem_inclusions {d : Delimiters} (hd : d.Valid) {source : Text}
    {parts : List Part} (h : ofSource d source = .ok parts) {i : Text × Text}
    (hi : i ∈ inclusions parts) : Blank i.2 := by
  rw [inclusions_ofSource hd h] at hi
  obtain ⟨x, -, hx⟩ := List.mem_filterMap.mp hi
  unfold Site.inclusion? at hx
  split at hx
  · obtain rfl := Option.some.inj hx
    exact x.blank_indent
  · simp at hx

namespace Template

lemma Compiled.ofSource {t : Template} (h : t.Compiled) :
    Part.ofSource .braces t.source = .ok t.parts :=
  (compile_eq_ok_iff.mp h).2

lemma Compiled.blank {t : Template} (h : t.Compiled) {i : Text × Text}
    (hi : i ∈ Part.inclusions t.parts) : Blank i.2 :=
  Part.blank_of_mem_inclusions Delimiters.braces_valid h.ofSource hi

/-- An indented template compiles to parts with the same outline. -/
theorem Compiled.outline_indented {t u : Template} (h : t.Compiled) {indent : Text}
    (hi : Blank indent) (hu : t.indented indent = .ok u) :
    Part.outline id u.parts = Part.outline (indentAfter indent) t.parts := by
  obtain ⟨parts, hp, ho, -⟩ :=
    Part.exists_ofSource_indentLines hi Delimiters.braces_valid h.ofSource
  obtain ⟨-, hparts⟩ := compile_eq_ok_iff.mp hu
  obtain rfl := Except.ok.inj (hp.symm.trans hparts)
  exact ho

lemma Compiled.indented {t u : Template} {indent : Text} (hu : t.indented indent = .ok u) :
    u.Compiled := by
  rw [Compiled, compile_source hu]
  exact hu

/-- An indented template asks for the same templates as before. -/
theorem Compiled.exists_indented {t : Template} (h : t.Compiled) {indent : Text}
    (hi : Blank indent) (C : Context ν) :
    ∃ u, t.indented indent = .ok u ∧ u.Compiled ∧ ∀ s : Stack ν,
      (visits C s u.parts).map Visit.key = (visits C s t.parts).map Visit.key := by
  obtain ⟨parts, hp, ho, -⟩ :=
    Part.exists_ofSource_indentLines hi Delimiters.braces_valid h.ofSource
  have hu : t.indented indent = .ok ⟨indentLines indent t.source, parts⟩ :=
    compile_eq_ok_iff.mpr ⟨rfl, hp⟩
  refine ⟨_, hu, hu, fun s => ?_⟩
  rw [← visits_outline id s parts, ho, visits_outline]

end Template

namespace Setting

/-- What a run keeps for the next time is what indenting gives. -/
def Kept (env : Setting ν) (p : Progress ν) : Prop :=
  p.Kept env.template?

lemma kept_start (env : Setting ν) : env.Kept .start :=
  Progress.kept_start

end Setting

namespace Run

variable {env : Setting ν}

lemma note_ends (name : Text) : Ends env.Kept (note env.store? name) fun x => x = .ok () := by
  intro p hp
  rw [run_note]
  refine ⟨rfl, ?_⟩
  split <;> exact hp

/-- A template of the store is indented, be it now or earlier in the run. -/
theorem indented_ends {name indent : Text} {t u : Template} (ht : env.template? name = some t)
    (hu : t.indented indent = .ok u) :
    Ends env.Kept (indented name indent t) fun x => x = .ok u := by
  intro p hp
  have hrun := run_indented ht indent hp
  rw [hu] at hrun
  exact hrun

/-- A template that is included is compiled, and asks for the same templates indented or not. -/
theorem fitted_ends {τ : Type} {r : Renderer ν τ} (hr : r.indented = indented)
    (hc : env.Compiled) {name indent : Text} (hi : Blank indent) {t : Template}
    (ht : env.template? name = some t) :
    Ends env.Kept (r.fitted name indent t) fun x => ∃ u : Template, x = .ok u ∧ u.Compiled ∧
      ∀ s : Stack ν, (visits env.context s u.parts).map Visit.key =
        (visits env.context s t.parts).map Visit.key := by
  rw [Renderer.fitted, hr]
  split
  · exact .pure ⟨t, rfl, hc.template ht, fun _ => rfl⟩
  · obtain ⟨u, hu, hcu, hv⟩ := (hc.template ht).exists_indented hi env.context
    exact (indented_ends ht hu).mono fun x hx => ⟨u, hx, hcu, hv⟩

end Run

variable [DecidableEq ν]

/-- The renderer of a setting with another way to tell which inclusions close a cycle. -/
def Setting.closingBy (env : Setting ν) (closes : List (Text × ν) → Text × ν → Bool) :
    Renderer ν (List Part) :=
  { env.renderer with closes }

variable {env : Setting ν} {closes : List (Text × ν) → Text × ν → Bool}

/-- An inclusion ends at once when its template is not found or closes a cycle, and otherwise as the
template renders. -/
theorem Run.inclusion_ends (hc : env.Compiled) {name indent : Text} (hi : Blank indent)
    {s : Stack ν} {render : List (Text × ν) → Stack ν → List Part → Run ν Text}
    {opened : List (Text × ν)} {P : Except Stop Text → Prop}
    (hnone : env.template? name = none → P (.ok []))
    (hcloses : ∀ t, env.template? name = some t → closes opened (name, s.top) = true →
      P (.error (.error (.partialCycle (((name, s.top) :: opened).reverse.map Prod.fst)))))
    (hrender : ∀ t, env.template? name = some t → closes opened (name, s.top) = false →
      ∀ u : Template, u.Compiled → (∀ s : Stack ν, (visits env.context s u.parts).map Visit.key =
        (visits env.context s t.parts).map Visit.key) →
      Ends env.Kept (render ((name, s.top) :: opened) s u.parts) P) :
    Ends env.Kept ((env.closingBy closes).inclusion render opened name indent s) P := by
  cases ht : env.template? name with
  | none =>
    rw [Renderer.inclusion_of_none ht]
    exact (note_ends name).bind (fun _ _ => .pure (hnone ht)) (by simp)
  | some t =>
    rw [Renderer.inclusion_of_some ht]
    refine (note_ends name).bind (fun _ _ => ?_) (by simp)
    split
    · rename_i ho
      exact .throw (hcloses t ht ho)
    · rename_i ho
      refine (fitted_ends rfl hc hi ht).bind (fun v hv => ?_) (by simp)
      obtain ⟨u, hvu, hcu, hkeys⟩ := hv
      obtain rfl := Except.ok.inj hvu
      exact hrender t ht (eq_false_of_ne_true ho) v hcu hkeys

end Mustache
