import Mustache.Proofs.Ends
import Mustache.Proofs.Related

/-! Agreement: renders that come to the same from different progress. What is kept of indented
templates never shows, as long as it is what indenting gives. -/
namespace Mustache

open Data

variable {ν α β : Type}

/-- What is kept of indented templates is what indenting the templates of those names gives. -/
def Progress.Kept (template? : Text → Option Template) (p : Progress ν) : Prop :=
  ∀ name indent u, ((name, indent), u) ∈ p.indented →
    ∃ t, template? name = some t ∧ t.indented indent = .ok u

namespace Progress

variable {template? : Text → Option Template}

lemma kept_start : (start : Progress ν).Kept template? := by
  intro name indent u h
  simp [start] at h

lemma Kept.cons {p : Progress ν} (hp : p.Kept template?) {name indent : Text} {t u : Template}
    (ht : template? name = some t) (hu : t.indented indent = .ok u) :
    { p with indented := ((name, indent), u) :: p.indented }.Kept template? := by
  intro name' indent' u' h
  rcases List.mem_cons.mp h with h | h
  · obtain ⟨⟨rfl, rfl⟩, rfl⟩ := by simpa using h
    exact ⟨t, ht, hu⟩
  · exact hp name' indent' u' h

end Progress

namespace Run

lemma run_compiled (x : Except SyntaxError α) (p : Progress ν) :
    (compiled x).run.run p = (x.mapError fun e => .error (.badSyntax e), p) := by
  cases x <;> rfl

lemma run_note (store? : Option α) (name : Text) (p : Progress ν) :
    (note store? name).run.run p =
      (.ok (), if store?.isSome then { p with lookups := name :: p.lookups } else p) := by
  cases store? <;> rfl

lemma run_get (p : Progress ν) : (get : Run ν (Progress ν)).run.run p = (.ok p, p) := rfl

lemma run_set (p q : Progress ν) : (set q : Run ν PUnit).run.run p = (.ok ⟨⟩, q) := rfl

lemma run_call [DecidableEq ν] (env : Setting ν) (node : ν) (l : Lambda) (text : Text)
    (p : Progress ν) :
    (call env node l text).run.run p =
      ((l.answer (heard node (env.earlier ++ p.calls.reverse)) (l.argument text)).mapError
          fun message => .error (.lambdaFailed message),
        { p with calls := ⟨node, l.label,
            if l.takesText then some text else none⟩ :: p.calls }) := by
  unfold call
  simp only [run_bind, run_get, run_set]
  cases l.answer (heard node (env.earlier ++ p.calls.reverse)) (l.argument text) with
  | ok t => rfl
  | error message => rfl

lemma run_indented_of_kept {name indent : Text} {t u : Template} {p : Progress ν}
    (hl : p.indented.lookup (name, indent) = some u) :
    (indented name indent t).run.run p = (.ok u, p) := by
  unfold indented
  simp only [run_bind, run_get, hl]
  rfl

lemma run_indented_of_not_kept {name indent : Text} {t : Template} {p : Progress ν}
    (hl : p.indented.lookup (name, indent) = none) :
    (indented name indent t).run.run p =
      ((t.indented indent).mapError fun e => .error (.badSyntax e),
        ((t.indented indent).toOption.elim p fun u =>
          { p with indented := ((name, indent), u) :: p.indented })) := by
  unfold indented
  simp only [run_bind, run_get, hl, run_compiled]
  cases t.indented indent with
  | ok u => rfl
  | error e => rfl

/-- Indenting only adds to what is kept. -/
theorem run_indented_eq (name indent : Text) (t : Template) (p : Progress ν) :
    ∃ kept, ((indented name indent t).run.run p).2 = { p with indented := kept } := by
  cases hl : p.indented.lookup (name, indent) with
  | some u => exact ⟨p.indented, by rw [run_indented_of_kept hl]⟩
  | none =>
    rw [run_indented_of_not_kept hl]
    cases t.indented indent with
    | ok u => exact ⟨_, rfl⟩
    | error e => exact ⟨p.indented, rfl⟩

/-- A template is indented anew, or it was indented before, or it is indented and kept. -/
theorem indented_cases {template? : Text → Option Template} {name indent : Text} {t : Template}
    (ht : template? name = some t) {p : Progress ν} (hp : p.Kept template?) :
    (indented name indent t).run.run p = (compiled (t.indented indent)).run.run p ∨
      ∃ u, t.indented indent = .ok u ∧ (indented name indent t).run.run p =
        (.ok u, { p with indented := ((name, indent), u) :: p.indented }) := by
  cases hl : p.indented.lookup (name, indent) with
  | some u =>
    obtain ⟨l₁, l₂, hentries, -⟩ := List.lookup_eq_some_iff.mp hl
    obtain ⟨t', ht', hu⟩ := hp name indent u (by simp [hentries])
    obtain rfl := Option.some.inj (ht.symm.trans ht')
    left
    rw [run_indented_of_kept hl, hu]
    rfl
  | none =>
    rw [run_indented_of_not_kept hl, run_compiled]
    cases hu : t.indented indent with
    | ok u => exact .inr ⟨u, rfl, rfl⟩
    | error e => exact .inl rfl

/-- Whether or not it was done before, indenting comes to the same, and keeps what is right. -/
theorem run_indented {template? : Text → Option Template} {name : Text} {t : Template}
    (ht : template? name = some t) (indent : Text) {p : Progress ν} (hp : p.Kept template?) :
    ((indented name indent t).run.run p).1 =
        (t.indented indent).mapError (fun e => .error (.badSyntax e)) ∧
      ((indented name indent t).run.run p).2.Kept template? := by
  rcases indented_cases ht hp with hrun | ⟨u, hu, hrun⟩
  · rw [hrun, run_compiled]
    exact ⟨rfl, hp⟩
  · rw [hrun, hu]
    exact ⟨rfl, hp.cons ht hu⟩

variable {I : Progress ν → Progress ν → Prop}

/-- Two computations come to the same from progress that is related, and leave related progress. -/
def Agree (I : Progress ν → Progress ν → Prop) (m m' : Run ν α) : Prop :=
  ∀ p q, I p q → (m.run.run p).1 = (m'.run.run q).1 ∧ I (m.run.run p).2 (m'.run.run q).2

lemma Agree.bind {m m' : Run ν α} {f f' : α → Run ν β} (hm : Agree I m m')
    (hf : ∀ a, Agree I (f a) (f' a)) : Agree I (m >>= f) (m' >>= f') := by
  intro p q hpq
  obtain ⟨hout, hrest⟩ := hm p q hpq
  rw [run_bind, run_bind]
  rcases hr : m.run.run p with ⟨e | a, p'⟩ <;> rcases hr' : m'.run.run q with ⟨e' | a', q'⟩ <;>
    simp only [hr, hr', reduceCtorEq, Except.error.injEq, Except.ok.injEq] at hout hrest
  · subst hout
    exact ⟨rfl, hrest⟩
  · subst hout
    exact hf a p' q' hrest

/-- Agreement is kept by doing one thing after the other. -/
def Agree.relation (I : Progress ν → Progress ν → Prop) : Relation ν :=
  ⟨Agree I, fun _ _ _ h => ⟨rfl, h⟩, fun _ _ _ h => ⟨rfl, h⟩, Agree.bind⟩

end Run

/-- Computations that agree come to the same report if they keep calls and lookups the same. -/
theorem Report.ofRun_eq_of_agree {I : Progress ν → Progress ν → Prop} {m m' : Run ν Text}
    (h : Run.Agree I m m') (hstart : I .start .start)
    (hsame : ∀ p q, I p q → p.calls = q.calls ∧ p.lookups = q.lookups) : ofRun m = ofRun m' := by
  obtain ⟨hresult, hrest⟩ := h .start .start hstart
  obtain ⟨hcalls, hlookups⟩ := hsame _ _ hrest
  simp only [ofRun, hresult, hcalls, hlookups]

variable [DecidableEq ν] {env : Setting ν} {root : ν}

/-- Without lambdas, what a render comes to does not depend on what was done before. -/
theorem renderParts_agree (hf : env.context.LambdaFree root) (depth : Nat)
    (opened : List (Text × ν)) {s : Stack ν} (hs : s.Within env.context root) (parts : List Part) :
    let template? := Run.answer? (env.store?.map Store.get?)
    Run.Agree (fun p q => p.Kept template? ∧ q.Kept template?)
      (renderParts env depth opened s parts) (renderParts env depth opened s parts) := by
  intro template?
  rw [← renderBy_indented]
  refine renderBy_related (R := Run.Agree.relation _) (P := Stack.Within env.context root)
    ⟨?_, ?_⟩ ?_ ?_ depth opened hs parts
  · intro s path contexts hs ho
    obtain ⟨contexts', ho', hwithin⟩ := hs.occurrence hf path
    obtain rfl := Occurrence.under.inj (ho.symm.trans ho')
    exact hwithin
  · intro s path node l text hs hn hl
    rw [hf node (hs.resolve? hn)] at hl
    simp at hl
  · intro name p q h
    rw [Run.run_note, Run.run_note]
    refine ⟨rfl, ?_⟩
    split <;> exact h
  · intro name indent t ht p q h
    obtain ⟨hp, hp'⟩ := Run.run_indented ht indent h.1
    obtain ⟨hq, hq'⟩ := Run.run_indented ht indent h.2
    exact ⟨hp.trans hq.symm, hp', hq'⟩

end Mustache
