import Mustache.Proofs.Ends
import Mustache.Proofs.Related

/-! Depth: a render that is not stopped for being too deep does the same however much deeper it
might go. -/
namespace Mustache

open Data

variable {ν α β : Type}

namespace Run

/-- One computation does what another one does, unless that stops too deep. -/
def Extends (m' m : Run ν α) : Prop :=
  ∀ p, (m.run.run p).1 ≠ .error .tooDeep → m'.run.run p = m.run.run p

namespace Extends

lemma refl (m : Run ν α) : Extends m m :=
  fun _ _ => rfl

lemma bind {m m' : Run ν α} {f f' : α → Run ν β} (hm : Extends m' m)
    (hf : ∀ a, Extends (f' a) (f a)) : Extends (m' >>= f') (m >>= f) := by
  intro p hp
  rw [run_bind] at hp
  rw [run_bind, run_bind]
  rcases hr : m.run.run p with ⟨e | a, q⟩
  · rw [hr] at hp
    have he : e ≠ .tooDeep := fun he => hp (by rw [he])
    rw [hm p (by simpa [hr] using he), hr]
  · rw [hr] at hp
    rw [hm p (by simp [hr]), hr]
    exact hf a q hp

/-- Doing one thing after the other extends what it did before. -/
def relation (ν : Type) : Relation ν :=
  ⟨fun m' m => Extends m' m, fun a => refl (pure a), fun e => refl (throw e), bind⟩

end Extends
end Run

variable [DecidableEq ν] {env : Setting ν}

/-- One more level changes nothing. -/
theorem renderParts_succ_extends (depth : Nat) (opened : List (Text × ν)) (s : Stack ν)
    (parts : List Part) :
    Run.Extends (renderParts env (depth + 1) opened s parts)
      (renderParts env depth opened s parts) := by
  let R := Run.Extends.relation ν
  have henv : env.Keeps R fun _ => True :=
    ⟨fun _ _ _ _ _ _ _ => trivial, fun _ _ _ _ _ _ _ _ => Run.Extends.refl _⟩
  induction depth generalizing opened s parts with
  | zero =>
    intro p hp
    exact absurd rfl hp
  | succ depth ih =>
    have hbelow : Beyond.Paired R env env (fun _ => True) (fun _ => True) (fun _ => True)
        (fun _ => True) (.below env (depth + 1) opened) (.below env depth opened) :=
      { henv.pairs with
        calls := ⟨rfl, rfl⟩
        expand := fun _ _ s _ _ _ _ _ _ _ => .bind (.refl _) fun parts => ih opened s parts
        inclusion := fun _ _ s _ _ =>
          Renderer.inclusion_related (R := R) rfl rfl (.refl _) fun _ _ =>
            .bind (.refl _) fun u => ih _ s u.parts }
    rw [renderParts_succ, renderParts_succ]
    exact hbelow.walk trivial parts Part.admitted_true

/-- A render that ends otherwise than too deep ends the same at any greater depth. -/
theorem Template.render_of_le {t : Template} {depth depth' : Nat} {root : ν}
    (h : depth ≤ depth') (hn : (t.render env depth root).result ≠ .error .tooDeep) :
    t.render env depth' root = t.render env depth root := by
  induction h with
  | refl => rfl
  | @step n h ih =>
    have hs := @renderParts_succ_extends ν _ env n [] (Stack.ofRoot root) t.parts .start
      (by rw [← ih] at hn; exact hn)
    rw [← ih, render, Report.ofRun, hs]
    rfl

end Mustache
