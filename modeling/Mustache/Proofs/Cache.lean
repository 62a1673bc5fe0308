import Mathlib.Logic.Relation
import Mustache.Data.Json
import Mustache.Proofs.Agree

/-! The cache of indented templates does not show: a render that keeps what it has indented and one
that indents a template each time do the same. -/
namespace Mustache

open Data

variable {ν α β : Type} {template? : Text → Option Template}

namespace Progress

/-- A relation between progress of two runs that have called the same lambdas, which calling one
more keeps. -/
structure Calls (I : Progress ν → Progress ν → Prop) : Prop where
  calls {p q : Progress ν} (h : I p q) : p.calls = q.calls
  call {p q : Progress ν} (h : I p q) (c : Call ν) :
    I { p with calls := c :: p.calls } { q with calls := c :: q.calls }

/-- Such a relation that asking for one more template keeps as well. -/
structure Tracks (I : Progress ν → Progress ν → Prop) : Prop extends Calls I where
  lookup {p q : Progress ν} (h : I p q) (name : Text) :
    I { p with lookups := name :: p.lookups } { q with lookups := name :: q.lookups }

/-- Progress of two runs that did the same, of which the first keeps indented templates. -/
structure Twin (template? : Text → Option Template) (p q : Progress ν) : Prop where
  calls : p.calls = q.calls
  lookups : p.lookups = q.lookups
  kept : p.Kept template?

lemma twin_tracks : Tracks (Twin (ν := ν) template?) where
  calls h := h.calls
  call h c := ⟨congrArg (c :: ·) h.calls, h.lookups, h.kept⟩
  lookup h name := ⟨h.calls, congrArg (name :: ·) h.lookups, h.kept⟩

lemma same_tracks : Tracks fun p q : Progress ν => p = q ∧ p.Kept template? where
  calls h := congrArg _ h.1
  call h c := ⟨congrArg (fun p : Progress ν => { p with calls := c :: p.calls }) h.1, h.2⟩
  lookup h name :=
    ⟨congrArg (fun p : Progress ν => { p with lookups := name :: p.lookups }) h.1, h.2⟩

/-- The least that a run can do: call a lambda, ask for a template, or keep one. -/
inductive Change : Progress ν → Progress ν → Prop
  | call {p : Progress ν} (c : Call ν) : Change p { p with calls := c :: p.calls }
  | lookup {p : Progress ν} (name : Text) : Change p { p with lookups := name :: p.lookups }
  | keep {p : Progress ν} (key : Text × Text) (u : Template) :
    Change p { p with indented := (key, u) :: p.indented }

/-- One progress comes from another by changes, and something holds after each of them. -/
def Through (P : Progress ν → Prop) : Progress ν → Progress ν → Prop :=
  Relation.ReflTransGen fun p q => Change p q ∧ P q

lemma Through.of_start {P : Progress ν → Prop} {p q : Progress ν} (h : Through P p q) (hp : P p) :
    P q := by
  cases h with
  | refl => exact hp
  | tail _ hq => exact hq.2

end Progress

namespace Run

open Progress

/-- Indents a template, whether or not that was done before. -/
def recompiled : Indenter ν :=
  fun _ indent t => compiled (t.indented indent)

lemma keeps_of_calls [DecidableEq ν] {I : Progress ν → Progress ν → Prop} (h : Calls I)
    (env : Setting ν) : env.Keeps (Agree.relation I) fun _ => True where
  stays _ _ _ _ _ _ _ := trivial
  call s path node l text _ _ _ := by
    intro p q hpq
    rw [run_call, run_call]
    exact ⟨by rw [h.calls hpq], h.call hpq _⟩

lemma note_of_tracks {I : Progress ν → Progress ν → Prop} (h : Tracks I) (store? : Option α)
    (name : Text) : Agree I (note store? name) (note store? name) := by
  intro p q hpq
  rw [run_note, run_note]
  refine ⟨rfl, ?_⟩
  split
  · exact h.lookup hpq name
  · exact hpq

/-- What was kept is what indenting gives again. -/
theorem twin_indented {name indent : Text} {t : Template} (ht : template? name = some t) :
    Agree (Twin template?)
      (indented name indent t : Run ν Template) (recompiled name indent t) := by
  intro p q h
  rw [recompiled, run_compiled]
  rcases indented_cases ht h.kept with hrun | ⟨u, hu, hrun⟩
  · rw [hrun, run_compiled]
    exact ⟨rfl, h⟩
  · rw [hrun, hu]
    exact ⟨rfl, h.calls, h.lookups, h.kept.cons ht hu⟩

/-- A computation only makes changes after which what is kept is right. -/
def Chained (template? : Text → Option Template) (m : Run ν α) : Prop :=
  ∀ p, p.Kept template? → Through (Kept template?) p (m.run.run p).2

lemma Chained.bind {m : Run ν α} {f : α → Run ν β} (hm : Chained template? m)
    (hf : ∀ a, Chained template? (f a)) : Chained template? (m >>= f) := by
  intro p hp
  have hfirst := hm p hp
  rw [run_bind]
  rcases hr : m.run.run p with ⟨e | a, q⟩ <;> rw [hr] at hfirst
  · exact hfirst
  · exact hfirst.trans (hf a q (hfirst.of_start hp))

/-- Making such changes is kept by doing one thing after the other. -/
def Chained.relation (template? : Text → Option Template) : Relation ν :=
  ⟨fun m _ => Chained template? m, fun _ _ _ => .refl, fun _ _ _ => .refl, Chained.bind⟩

lemma chained_keeps [DecidableEq ν] (env : Setting ν) :
    env.Keeps (Chained.relation template?) fun _ => True where
  stays _ _ _ _ _ _ _ := trivial
  call s path node l text _ _ _ := by
    intro p hp
    rw [run_call]
    exact .single ⟨.call _, hp⟩

lemma chained_note (store? : Option (Text → Option Template)) (name : Text) :
    Chained template? (note store? name : Run ν Unit) := by
  intro p hp
  rw [run_note]
  split
  · exact .single ⟨.lookup name, hp⟩
  · exact .refl

lemma chained_indented {name indent : Text} {t : Template} (ht : template? name = some t) :
    Chained template? (indented name indent t : Run ν Template) := by
  intro p hp
  rcases indented_cases ht hp with hrun | ⟨u, hu, hrun⟩
  · rw [hrun, run_compiled]
    exact .refl
  · rw [hrun]
    exact .single ⟨.keep _ u, hp.cons ht hu⟩

end Run

variable [DecidableEq ν] (env : Setting ν) (store? : Option (Text → Option Template))

/-- A render that keeps indented templates does what one does that indents them anew. -/
theorem renderBy_twin (depth : Nat) (opened : List (Text × ν)) (s : Stack ν) (parts : List Part) :
    Run.Agree (Progress.Twin (Run.answer? store?))
      (renderBy env store? Run.indented depth opened s parts)
      (renderBy env store? Run.recompiled depth opened s parts) :=
  renderBy_related (R := Run.Agree.relation _) (Run.keeps_of_calls Progress.twin_tracks.toCalls env)
    (Run.note_of_tracks Progress.twin_tracks store?) (fun _ _ _ ht => Run.twin_indented ht) depth
    opened trivial parts

/-- How an indenter would do when what is kept is wrong does not matter. -/
theorem renderBy_congr {indenter : Indenter ν}
    (h : ∀ name indent t p, Run.answer? store? name = some t → p.Kept (Run.answer? store?) →
      (indenter name indent t).run.run p = (Run.indented name indent t).run.run p)
    (depth : Nat) (opened : List (Text × ν)) (s : Stack ν) (parts : List Part) :
    Run.Agree (fun p q => p = q ∧ p.Kept (Run.answer? store?))
      (renderBy env store? indenter depth opened s parts)
      (renderBy env store? Run.indented depth opened s parts) := by
  refine renderBy_related (R := Run.Agree.relation _)
    (Run.keeps_of_calls Progress.same_tracks.toCalls env)
    (Run.note_of_tracks Progress.same_tracks store?)
    (fun name indent t ht => ?_) depth opened trivial parts
  intro p q hpq
  obtain ⟨rfl, hp⟩ := hpq
  rw [h name indent t p ht hp]
  exact ⟨rfl, rfl, (Run.run_indented ht indent hp).2⟩

/-- At every point of a render what is kept is right. -/
theorem renderBy_chained (depth : Nat) (opened : List (Text × ν)) (s : Stack ν)
    (parts : List Part) :
    Run.Chained (Run.answer? store?) (renderBy env store? Run.indented depth opened s parts) :=
  @renderBy_related ν _ (Run.Chained.relation _) env (fun _ => True) store? Run.indented
    Run.indented (Run.chained_keeps env) (Run.chained_note store?)
    (fun _ _ _ ht => Run.chained_indented ht) depth
    opened s trivial parts

/-- Renders a template with any store that answers by the name alone, and any way to indent. -/
def Template.renderBy (t : Template) (env : Setting ν)
    (store? : Option (Text → Option Template)) (indenter : Indenter ν) (depth : Nat) (root : ν) :
    Report ν :=
  .ofRun (Mustache.renderBy env store? indenter depth [] (Stack.ofRoot root) t.parts)

/-- A render comes to what it would if it indented a template whenever it is included. -/
theorem Template.render_eq_recompiled (t : Template) (depth : Nat) (root : ν) :
    t.render env depth root =
      t.renderBy env (env.store?.map Store.get?) Run.recompiled depth root := by
  rw [render, ← renderBy_indented]
  exact Report.ofRun_eq_of_agree
    (renderBy_twin env (env.store?.map Store.get?) depth [] (Stack.ofRoot root) t.parts)
    ⟨rfl, rfl, Progress.kept_start⟩ fun p q h => ⟨h.calls, h.lookups⟩

/-- Keeping indented templates does not show: the text or the error, the calls of lambdas and the
templates that are asked for are those of a render that indents a template whenever it is
included. On the way from the start to the end of a render every template that is kept is what its
name stands for, indented; so it is wherever one is looked for, and an indenter that does otherwise
only when something else is kept makes no difference. -/
theorem Template.renderBy_indented_eq (t : Template) (depth : Nat) (root : ν) :
    t.renderBy env store? Run.indented depth root =
        t.renderBy env store? Run.recompiled depth root ∧
      Progress.Through (Progress.Kept (Run.answer? store?)) .start
        ((Mustache.renderBy env store? Run.indented depth [] (Stack.ofRoot root)
          t.parts).run.run .start).2 ∧
      (∀ indenter : Indenter ν,
        (∀ name indent t p, Run.answer? store? name = some t →
          p.Kept (Run.answer? store?) →
          (indenter name indent t).run.run p = (Run.indented name indent t).run.run p) →
        t.renderBy env store? indenter depth root = t.renderBy env store? Run.indented depth root) ∧
      t.render env depth root =
        t.renderBy env (env.store?.map Store.get?) Run.indented depth root := by
  refine ⟨?_, ?_, ?_, ?_⟩
  · exact Report.ofRun_eq_of_agree (renderBy_twin env store? depth [] (Stack.ofRoot root) t.parts)
      ⟨rfl, rfl, Progress.kept_start⟩ fun p q h => ⟨h.calls, h.lookups⟩
  · exact renderBy_chained env store? depth [] (Stack.ofRoot root) t.parts .start
      Progress.kept_start
  · intro indenter h
    refine Report.ofRun_eq_of_agree
      (renderBy_congr env store? h depth [] (Stack.ofRoot root) t.parts)
      ⟨rfl, Progress.kept_start⟩ ?_
    rintro p q ⟨rfl, -⟩
    exact ⟨rfl, rfl⟩
  · rw [renderBy, renderBy_indented]
    rfl

/-- A template that is included twice with the same indent is indented once. -/
example :
    let t : Template :=
      ⟨[' ', '{', '{', '>', 'p', '}', '}', '\n', ' ', '{', '{', '>', 'p', '}', '}', '\n'],
        [.inclusion ['p'] [' '], .inclusion ['p'] [' ']]⟩
    let p : Template := ⟨['a', '\n'], [.literal ['a', '\n']]⟩
    let d := Document.ofValue Json.context .null
    let env : Setting Location := ⟨d.context, some (Store.empty.insert ['p'] p), []⟩
    let outcome := (renderParts env 2 [] (Stack.ofRoot d.root) t.parts).run.run .start
    Template.compile t.source = .ok t ∧ outcome.1 = .ok [' ', 'a', '\n', ' ', 'a', '\n'] ∧
      outcome.2.lookups = [['p'], ['p']] ∧
      outcome.2.indented =
        [((['p'], [' ']), ⟨[' ', 'a', '\n'], [.literal [' ', 'a', '\n']]⟩)] := by
  decide +kernel

end Mustache
