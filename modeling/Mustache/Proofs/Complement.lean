import Mathlib.Logic.Basic
import Mustache.Data.Table
import Mustache.Proofs.Account
import Mustache.Proofs.Concatenation

/-! Sections and inverted sections over the same path complement each other, however the answers of
the data fit together. -/
namespace Mustache

open Data

variable {ν : Type}

namespace Data.Context

/-- How often a section over a node that is rendered at all is rendered: for each item of a list,
and once for anything else. -/
def times (C : Context ν) (node : ν) : Nat :=
  (C.children? node).elim 1 List.length

lemma pushes_eq_nil_or_length_eq (C : Context ν) (node : ν) :
    C.pushes node = [] ∨ (C.pushes node).length = C.times node := by
  unfold pushes times
  cases C.children? node with
  | some items => simp
  | none => cases C.falsy node <;> cases C.isBool node <;> simp

end Data.Context

namespace Stack

/-- A section that is rendered at all is rendered as often as its node says. -/
theorem exists_times_of_occurrence {C : Context ν} {s : Stack ν} {path : Text}
    {contexts : List (Stack ν)} (h : s.occurrence C path = .under contexts)
    (hne : contexts ≠ []) :
    ∃ node, s.resolve? C path = some node ∧ contexts.length = C.times node := by
  rcases exists_of_occurrence_eq_under h with ⟨-, hnil⟩ | ⟨node, hn, -, rfl⟩
  · exact absurd hnil hne
  · rcases C.pushes_eq_nil_or_length_eq node with hnil | htimes
    · simp [hnil] at hne
    · exact ⟨node, hn, by rw [List.length_map, htimes]⟩

end Stack

namespace Run

/-- A computation that just gives a value tells it. -/
theorem pure_injective {α : Type} : Function.Injective (pure : α → Run ν α) := by
  intro a b h
  have hrun := congrArg (fun m : Run ν α => (m.run.run .start).1) h
  exact Except.ok.inj hrun

end Run

variable [DecidableEq ν] {env : Setting ν} {s : Stack ν} {path : Text}

lemma renderParts_singleton (depth : Nat) (opened : List (Text × ν)) (s : Stack ν) (part : Part) :
    renderParts env (depth + 1) opened s [part] =
      walkPart env (.below env depth opened) s part := by
  rw [renderParts_succ]
  simp [walk]

lemma walk_singleton_literal (beyond : Beyond ν) (s : Stack ν) (text : Text) :
    walk env beyond s [.literal text] = pure text := by
  simp [walk, walkPart]

/-- Over a literal a section that calls nothing is that literal, as often as it is rendered. -/
theorem walkPart_section_literal {contexts : List (Stack ν)}
    (h : s.occurrence env.context path = .under contexts) (beyond : Beyond ν) (source text : Text)
    (d : Delimiters) :
    walkPart env beyond s (.block false path source d [.literal text]) =
      pure (List.replicate contexts.length text).flatten := by
  simp only [walkPart, h, walk_singleton_literal, List.mapM_pure, map_pure, List.map_const']

lemma walkPart_inverted_literal (beyond : Beyond ν) (source text : Text) (d : Delimiters) :
    walkPart env beyond s (.block true path source d [.literal text]) =
      pure (if s.nothingAt env.context path then text else []) := by
  simp only [walkPart, walk_singleton_literal]
  split <;> rfl

/-- Over a path that leads to a lambda, a section calls it once and renders the answer, and an
inverted section does nothing. Over any other path just one of the two renders a text, and the
section does so once or for each item. -/
theorem block_complement (env : Setting ν) (depth : Nat) (opened : List (Text × ν)) (s : Stack ν)
    (path source : Text) (d : Delimiters) {text : Text} (ht : text ≠ []) :
    let rendered (inverted : Bool) : Run ν Text :=
      renderParts env (depth + 1) opened s [.block inverted path source d [.literal text]]
    (∃ node l, s.resolve? env.context path = some node ∧ env.context.lambda? node = some l ∧
      rendered true = pure [] ∧
      rendered false = (do
        let answer ← Run.call env node l source
        (Beyond.below env depth opened).expand d answer s) ∧
      ∀ p, ((Run.call env node l source).run.run p).2.calls =
        ⟨node, l.label, if l.takesText then some source else none⟩ :: p.calls) ∨
    (∀ node, s.resolve? env.context path = some node → env.context.lambda? node = none) ∧
      Xor (rendered true = pure text ∧ rendered false = pure [])
        (rendered true = pure [] ∧ ∃ node, s.resolve? env.context path = some node ∧
          1 ≤ env.context.times node ∧
          rendered false = pure (List.replicate (env.context.times node) text).flatten) := by
  intro rendered
  have hinverted : rendered true = pure (if s.nothingAt env.context path then text else []) :=
    (renderParts_singleton depth opened s _).trans (walkPart_inverted_literal _ source text d)
  have hsection : rendered false =
      walkPart env (.below env depth opened) s (.block false path source d [.literal text]) :=
    renderParts_singleton depth opened s _
  cases ho : s.occurrence env.context path with
  | call node l =>
    obtain ⟨hn, hl⟩ := Stack.of_occurrence_eq_call ho
    rw [Stack.nothingAt_of_occurrence_call ho] at hinverted
    refine .inl ⟨node, l, hn, hl, hinverted, ?_, fun p => ?_⟩
    · simp only [hsection, walkPart, ho]
      rfl
    · rw [Run.run_call]
  | under contexts =>
    rw [walkPart_section_literal ho] at hsection
    rw [Stack.nothingAt_of_occurrence_under ho] at hinverted
    have hne : (pure text : Run ν Text) ≠ pure [] := fun h => ht (Run.pure_injective h)
    refine .inr ⟨fun node hn => ?_, ?_⟩
    · rcases Stack.exists_of_occurrence_eq_under ho with ⟨hnone, -⟩ | ⟨node', hn', hl, -⟩
      · simp [hnone] at hn
      · obtain rfl := Option.some.inj (hn.symm.trans hn')
        exact hl
    · cases contexts with
      | nil => exact .inl ⟨⟨hinverted, hsection⟩, fun h => hne (hinverted.symm.trans h.1)⟩
      | cons c contexts =>
        obtain ⟨node, hn, htimes⟩ := Stack.exists_times_of_occurrence ho
          (List.cons_ne_nil c contexts)
        refine .inr ⟨⟨hinverted, node, hn, ?_, ?_⟩, fun h => hne (h.1.symm.trans hinverted)⟩
        · rw [← htimes]
          exact Nat.le_add_left 1 contexts.length
        · rw [← htimes]
          exact hsection

/-- A list of two items that claims to be falsy renders the section twice all the same. -/
theorem block_complement_falsyList :
    let node (members : List (Text × Nat)) (items? : Option (List Nat)) : Table.Node :=
      ⟨members, items?, [], true, true, none, false⟩
    let table : Table := ⟨[node [(['x'], 1)] none, node [] (some [0, 0])]⟩
    let env : Setting Location := ⟨table.context, none, []⟩
    let rendered (inverted : Bool) : Run Location Text :=
      renderParts env 1 [] (Stack.ofRoot (Table.location 0))
        [.block inverted ['x'] ['L'] .braces [.literal ['L']]]
    (['L'] : Text) ≠ [] ∧ env.context.falsy (Table.location 1) = true ∧
      rendered true = pure [] ∧ rendered false = pure ['L', 'L'] := by
  intro node table env rendered
  have hne : (['L'] : Text) ≠ [] := by decide
  have hresolve : (Stack.ofRoot (Table.location 0)).resolve? env.context ['x'] =
      some (Table.location 1) := by
    decide
  rcases block_complement env 0 [] (Stack.ofRoot (Table.location 0)) ['x'] ['L'] .braces hne with
    ⟨place, l, hn, hl, -⟩ | ⟨-, ⟨⟨-, hnothing⟩, -⟩ | ⟨⟨hinverted, place, hn, -, hsection⟩, -⟩⟩
  · obtain rfl := Option.some.inj (hresolve.symm.trans hn)
    simp [env, table, node, Table.context] at hl
  · have hrun : ((rendered false).run.run .start).1 = .ok ['L', 'L'] := by decide +kernel
    have hempty : rendered false = pure [] := hnothing
    rw [hempty] at hrun
    cases hrun
  · obtain rfl := Option.some.inj (hresolve.symm.trans hn)
    exact ⟨hne, rfl, hinverted, hsection⟩

end Mustache
