import Mustache.Proofs.Visit
import Mustache.Render

/-! How computations of the renderer end. A walk over data without lambdas ends as the inclusions
end that it comes by, taken in order. -/
namespace Mustache

open Data

variable {ν α β : Type}

/-- How an outcome stops short, if it does. -/
def stop? : Except Stop α → Option Stop
  | .ok _ => none
  | .error e => some e

/-- How things taken in order stop short, given how each of them does: none of them does, or one
does. -/
def each (Q : β → Option Stop → Prop) (vs : List β) : Option Stop → Prop
  | none => ∀ v ∈ vs, Q v none
  | some e => ∃ v ∈ vs, Q v (some e)

lemma each_append_left {Q : β → Option Stop → Prop} {vs ws : List β} {e : Stop}
    (h : each Q vs (some e)) : each Q (vs ++ ws) (some e) := by
  obtain ⟨v, hv, hq⟩ := h
  exact ⟨v, List.mem_append_left ws hv, hq⟩

lemma each_append {Q : β → Option Stop → Prop} {vs ws : List β} (hv : each Q vs none)
    {r : Option Stop} (hw : each Q ws r) : each Q (vs ++ ws) r := by
  cases r with
  | none =>
    intro v h
    rcases List.mem_append.mp h with h | h
    · exact hv v h
    · exact hw v h
  | some e =>
    obtain ⟨w, hw, hq⟩ := hw
    exact ⟨w, List.mem_append_right vs hw, hq⟩

namespace Run

/-- A computation keeps what holds of its progress, and its outcome is as it should be. -/
def Ends (I : Progress ν → Prop) (m : Run ν α) (Q : Except Stop α → Prop) : Prop :=
  ∀ p, I p → Q (m.run.run p).1 ∧ I (m.run.run p).2

namespace Ends

variable {I : Progress ν → Prop} {Q : Except Stop α → Prop}

lemma pure {a : α} (h : Q (.ok a)) : Ends I (pure a) Q :=
  fun _ hp => ⟨h, hp⟩

lemma throw {e : Stop} (h : Q (.error e)) : Ends I (throw e) Q :=
  fun _ hp => ⟨h, hp⟩

lemma mono {Q' : Except Stop α → Prop} {m : Run ν α} (h : Ends I m Q) (hq : ∀ x, Q x → Q' x) :
    Ends I m Q' :=
  fun p hp => ⟨hq _ (h p hp).1, (h p hp).2⟩

lemma bind {R : Except Stop β → Prop} {m : Run ν α} {f : α → Run ν β} (hm : Ends I m Q)
    (hok : ∀ a, Q (.ok a) → Ends I (f a) R) (herr : ∀ e, Q (.error e) → R (.error e)) :
    Ends I (m >>= f) R := by
  intro p hp
  obtain ⟨hq, hi⟩ := hm p hp
  rw [run_bind]
  rcases hr : m.run.run p with ⟨e | a, q⟩
  · rw [hr] at hq hi
    exact ⟨herr e hq, hi⟩
  · rw [hr] at hq hi
    exact hok a hq q hi

lemma map {R : Except Stop β → Prop} {m : Run ν α} {f : α → β} (hm : Ends I m Q)
    (hok : ∀ a, Q (.ok a) → R (.ok (f a))) (herr : ∀ e, Q (.error e) → R (.error e)) :
    Ends I (f <$> m) R := by
  rw [map_eq_pure_bind]
  exact hm.bind (fun a ha => .pure (hok a ha)) herr

/-- Computations one after the other stop short as the first of them that does. -/
theorem mapM {γ : Type} {P : γ → Option Stop → Prop} {vs : β → List γ} {f : β → Run ν α}
    {xs : List β} (h : ∀ x ∈ xs, Ends I (f x) fun r => each P (vs x) (stop? r)) :
    Ends I (xs.mapM f) fun r => each P (xs.flatMap vs) (stop? r) := by
  induction xs with
  | nil =>
    apply Ends.pure
    simp [stop?, each]
  | cons x xs ih =>
    rw [List.mapM_cons, List.flatMap_cons]
    refine (h x (by simp)).bind (fun a ha => ?_) fun e he => each_append_left he
    refine (ih fun y hy => h y (by simp [hy])).bind (fun as has => ?_) fun e he => ?_
    · exact .pure (each_append ha has)
    · exact each_append ha he

end Ends
end Run

variable [DecidableEq ν] {root : ν} {env : Setting ν} {I : Progress ν → Prop}
  {Q : Visit ν → Option Stop → Prop} {beyond : Beyond ν}

/-- Without lambdas a value is just written. -/
theorem interpolate_of_lambdaFree (hf : env.context.LambdaFree root) {s : Stack ν}
    (hs : s.Within env.context root) (path : Text) :
    ∃ text, interpolate env s path = pure text := by
  unfold interpolate
  cases hn : s.resolve? env.context path with
  | none => exact ⟨[], rfl⟩
  | some node =>
    simp only [hf node (hs.resolve? hn)]
    exact ⟨_, rfl⟩

mutual

lemma walkPart_ends (hf : env.context.LambdaFree root) {s : Stack ν}
    (hs : s.Within env.context root) : (part : Part) →
    (∀ v ∈ visitsPart env.context s part, Run.Ends I (beyond.inclusion v.name v.indent v.stack)
      fun x => Q v (stop? x)) →
    Run.Ends I (walkPart env beyond s part) fun x =>
      each Q (visitsPart env.context s part) (stop? x)
  | .literal text, _ => .pure (by simp [stop?, each, visitsPart])
  | .value path escaped, _ => by
    obtain ⟨text, ht⟩ := interpolate_of_lambdaFree hf hs path
    rw [walkPart, ht, pure_bind]
    exact .pure (by simp [stop?, each, visitsPart])
  | .block false path source d children, h => by
    obtain ⟨contexts, hc, hw⟩ := hs.occurrence hf path
    simp only [visitsPart, walkPart, hc] at h ⊢
    refine .map (.mapM fun c hm => ?_) (fun _ => id) fun _ => id
    exact walk_ends hf (hw c hm) children fun v hv => h v (List.mem_flatMap.mpr ⟨c, hm, hv⟩)
  | .block true path source d children, h => by
    simp only [visitsPart, walkPart] at h ⊢
    split at h
    · rename_i hn
      rw [if_pos hn, if_pos hn]
      exact walk_ends hf hs children h
    · rename_i hn
      rw [if_neg hn, if_neg hn]
      exact .pure (by simp [stop?, each])
  | .inclusion name indent, h => by
    refine (h ⟨name, indent, s⟩ (by simp [visitsPart])).mono fun x hx => ?_
    cases x <;> simpa [visitsPart, each, stop?] using hx
  | .switch d, _ => .pure (by simp [stop?, each, visitsPart])

/-- A walk ends as the inclusions end that it comes by. -/
theorem walk_ends (hf : env.context.LambdaFree root) {s : Stack ν}
    (hs : s.Within env.context root) : (parts : List Part) →
    (∀ v ∈ visits env.context s parts, Run.Ends I (beyond.inclusion v.name v.indent v.stack)
      fun x => Q v (stop? x)) →
    Run.Ends I (walk env beyond s parts) fun x => each Q (visits env.context s parts) (stop? x)
  | [], _ => .pure (by simp [stop?, each, visits])
  | part :: parts, h => by
    rw [walk, visits]
    refine (walkPart_ends hf hs part fun v hv => h v ?_).bind (fun text ht => ?_)
      fun e he => each_append_left he
    · exact List.mem_append_left _ hv
    refine (walk_ends hf hs parts fun v hv => h v ?_).bind (fun rest hr => ?_) fun e he => ?_
    · exact List.mem_append_right _ hv
    · exact .pure (each_append ht hr)
    · exact each_append ht he

end

end Mustache
