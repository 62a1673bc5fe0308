import Mustache.Proofs.Cache

/-! Mirrored computations: two runs of the renderer that end alike, with values that are related,
for as long as a guard lets the first one go on. -/
namespace Mustache

open Data

variable {ν α β γ δ : Type}

namespace Run

/-- Outcomes that stop for the same reason, or that are values in relation. -/
def Outcomes (R : α → β → Prop) : Except Stop α → Except Stop β → Prop
  | .ok a, .ok b => R a b
  | .error e, .error e' => e = e'
  | _, _ => False

/-- From related progress a guard stops, or else a computation does what the guard does, and another
one comes to a related outcome. -/
def Mirrors (stop : Stop) (I : Progress ν → Progress ν → Prop) (R : α → β → Prop)
    (guard m : Run ν α) (m' : Run ν β) : Prop :=
  ∀ p q, I p q → (guard.run.run p).1 = .error stop ∨
    m.run.run p = guard.run.run p ∧ Outcomes R (m.run.run p).1 (m'.run.run q).1 ∧
      I (m.run.run p).2 (m'.run.run q).2

namespace Mirrors

variable {stop : Stop} {I : Progress ν → Progress ν → Prop} {R : α → β → Prop}
  {guard m : Run ν α} {m' : Run ν β}

/-- Where the guard stops, nothing is asked of the computations. -/
theorem stopped : Mirrors stop I R (throw stop) m m' :=
  fun _ _ _ => .inl rfl

lemma pure {a : α} {b : β} (h : R a b) : Mirrors stop I R (pure a) (pure a) (pure b) :=
  fun _ _ hpq => .inr ⟨rfl, h, hpq⟩

lemma throw (e : Stop) : Mirrors stop I R (throw e) (throw e) (throw e) :=
  fun _ _ hpq => .inr ⟨rfl, rfl, hpq⟩

lemma of_agree {m m' : Run ν α} (h : Agree I m m') : Mirrors stop I (· = ·) m m m' := by
  intro p q hpq
  obtain ⟨hout, hrest⟩ := h p q hpq
  refine .inr ⟨rfl, ?_, hrest⟩
  rw [← hout]
  cases (m.run.run p).1 <;> rfl

lemma bind {S : γ → δ → Prop} {guard' f : α → Run ν γ} {f' : β → Run ν δ}
    (hm : Mirrors stop I R guard m m')
    (hf : ∀ a b, R a b → Mirrors stop I S (guard' a) (f a) (f' b)) :
    Mirrors stop I S (guard >>= guard') (m >>= f) (m' >>= f') := by
  intro p q hpq
  rw [run_bind, run_bind, run_bind]
  rcases hm p q hpq with hstop | ⟨hsame, hout, hrest⟩
  -- a guard that stops early stops the whole
  · left
    rcases hg : guard.run.run p with ⟨e | a, p'⟩
    · rw [hg] at hstop
      exact congrArg Except.error (Except.error.inj hstop)
    · simp [hg] at hstop
  · rw [← hsame]
    rcases hr : m.run.run p with ⟨e | a, p'⟩ <;> rcases hr' : m'.run.run q with ⟨e' | b, q'⟩ <;>
      rw [hr, hr'] at hout hrest
    · exact .inr ⟨rfl, hout, hrest⟩
    · exact hout.elim
    · exact hout.elim
    · exact hf a b hout p' q' hrest

lemma map {S : γ → δ → Prop} {f : α → γ} {f' : β → δ} (hm : Mirrors stop I R guard m m')
    (hf : ∀ a b, R a b → S (f a) (f' b)) :
    Mirrors stop I S (f <$> guard) (f <$> m) (f' <$> m') := by
  rw [map_eq_pure_bind, map_eq_pure_bind, map_eq_pure_bind]
  exact hm.bind fun a b hab => pure (hf a b hab)

lemma mapM {guard f : γ → Run ν α} {f' : γ → Run ν β} {xs : List γ}
    (h : ∀ x ∈ xs, Mirrors stop I R (guard x) (f x) (f' x)) :
    Mirrors stop I (List.Forall₂ R) (xs.mapM guard) (xs.mapM f) (xs.mapM f') := by
  induction xs with
  | nil => exact pure .nil
  | cons x xs ih =>
    rw [List.mapM_cons, List.mapM_cons, List.mapM_cons]
    refine (h x List.mem_cons_self).bind fun a b hab => ?_
    refine (ih fun y hy => h y (List.mem_cons_of_mem x hy)).bind fun as bs habs => ?_
    exact pure (.cons hab habs)

end Mirrors
end Run
end Mustache
