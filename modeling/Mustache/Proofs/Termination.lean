import Mathlib.Data.Set.Card
import Mustache.Proofs.Depth
import Mustache.Proofs.Ending
import Mustache.Proofs.FiniteData

/-! Termination: over finite data without lambdas every render ends, with text or with a cycle.
What is open grows, and there are only so many names and nodes. -/
namespace Mustache

open Data Text

variable {ν : Type} {env : Setting ν} {root : ν}

namespace Setting

/-- The names that a setting has templates for. -/
def names (env : Setting ν) : List Text :=
  env.store?.elim [] Store.names

lemma mem_names_of_template? {name : Text} {t : Template} (h : env.template? name = some t) :
    name ∈ env.names := by
  obtain ⟨store, hs, ht⟩ := Option.bind_eq_some_iff.mp h
  rw [names, hs]
  exact (store.get?_isSome_iff name).mp (by simp [ht])

/-- Templates are opened on stacks of the data. -/
theorem IsPath.within (hf : env.context.LambdaFree root) {s : Stack ν}
    (hs : s.Within env.context root) {parts : List Part} {os : List (Opening ν)}
    (h : env.IsPath s parts os) : ∀ o ∈ os, o.stack.Within env.context root := by
  induction os generalizing s parts with
  | nil => simp
  | cons o os ih =>
    obtain ⟨v, hv, -, hstack, -⟩ := mem_openings_iff.mp h.1
    have hw : o.stack.Within env.context root := hstack ▸ within_of_visits hf hs parts hv
    intro o' ho'
    rcases List.mem_cons.mp ho' with rfl | ho'
    · exact hw
    · exact ih hw h.2 o' ho'

/-- Openings that do not repeat are no more than names and nodes allow. -/
theorem IsPath.length_le (hf : env.context.LambdaFree root)
    (hn : env.context.FinitelyMany root) {s : Stack ν} (hs : s.Within env.context root)
    {parts : List Part} {os : List (Opening ν)} (h : env.IsPath s parts os) (hos : Fresh [] os) :
    os.length ≤ env.names.length * {node | env.context.Reaches root node}.ncard := by
  classical
  have hsub : (os.map Opening.key).toFinset ⊆ env.names.toFinset ×ˢ Set.Finite.toFinset hn := by
    intro key hk
    obtain ⟨o, ho, rfl⟩ := List.mem_map.mp (List.mem_toFinset.mp hk)
    have hname := mem_names_of_template? (h.template? o ho)
    exact Finset.mk_mem_product (List.mem_toFinset.mpr hname)
      ((Set.Finite.mem_toFinset hn).mpr (h.within hf hs o ho).top)
  calc os.length = (os.map Opening.key).toFinset.card := by
        rw [List.toFinset_card_of_nodup hos.2, List.length_map]
    _ ≤ (env.names.toFinset ×ˢ Set.Finite.toFinset hn).card := Finset.card_le_card hsub
    _ = env.names.toFinset.card * {node | env.context.Reaches root node}.ncard := by
        rw [Finset.card_product, Set.ncard_eq_toFinset_card _ hn]
    _ ≤ _ := Nat.mul_le_mul_right _ env.names.toFinset_card_le

lemma isPath_eq_nil (h : env.store? = none) {s : Stack ν} {parts : List Part}
    {os : List (Opening ν)} (hp : env.IsPath s parts os) : os = [] := by
  cases os with
  | nil => rfl
  | cons o os =>
    obtain ⟨v, -, -, -, ht⟩ := mem_openings_iff.mp hp.1
    simp [template?, h] at ht

end Setting

namespace Template

variable [DecidableEq ν] {t : Template}

/-- How a render stops short is said by its paths. -/
theorem render_stops (ht : t.Compiled) (hc : env.Compiled) (hf : env.context.LambdaFree root)
    (depth : Nat) :
    env.Stops (Fresh []) depth (Stack.ofRoot root) t.parts
      (stop? (t.render env depth root).result) :=
  (renderParts_ends hc hf depth [] (Stack.within_ofRoot _ root) (fun _ => ht.blank) .start
    env.kept_start).1

/-- A path that is as long as the depth would open more than there is. -/
theorem render_ne_tooDeep (ht : t.Compiled) (hc : env.Compiled) (hf : env.context.LambdaFree root)
    (hn : env.context.FinitelyMany root) {depth : Nat}
    (h : env.names.length * {node | env.context.Reaches root node}.ncard < depth) :
    (t.render env depth root).result ≠ .error .tooDeep := by
  intro hr
  have hstops := render_stops ht hc hf depth
  rw [hr] at hstops
  obtain ⟨os, hp, hlength, hfresh⟩ := hstops
  have := hp.length_le hf hn (Stack.within_ofRoot _ root) hfresh
  omega

/-- Over finite data without lambdas every render ends: from some depth on it comes to one report,
which is text or a cycle, and always text where there is no store. -/
theorem exists_render_eq (ht : t.Compiled) (hc : env.Compiled) (hf : env.context.LambdaFree root)
    (hn : env.context.FinitelyMany root) :
    ∃ report : Report ν,
      (∀ depth, env.names.length * {node | env.context.Reaches root node}.ncard < depth →
        t.render env depth root = report) ∧
      ((∃ text, report.result = .ok text) ∨
        ∃ chain, report.result = .error (.error (.partialCycle chain))) ∧
      (env.store? = none → ∃ text, report.result = .ok text) := by
  set bound := env.names.length * {node | env.context.Reaches root node}.ncard
  have hdeep := render_ne_tooDeep ht hc hf hn (Nat.lt_succ_self bound)
  have hstops := render_stops ht hc hf (bound + 1)
  have hend := hstops.text_or_cycle hdeep
  refine ⟨t.render env (bound + 1) root, fun depth h => render_of_le h hdeep, hend, fun hnone => ?_⟩
  rcases hend with h | ⟨chain, h⟩
  · exact h
  · rw [h] at hstops
    obtain ⟨os, hp, hnot⟩ := hstops
    obtain rfl := Setting.isPath_eq_nil hnone hp
    exact absurd (fresh_nil []) hnot

/-- A template that includes itself with an indent, so that each time there are more blanks in
front. -/
theorem exists_render_eq_growing :
    let t : Template := ⟨[' ', '{', '{', '>', 'p', '}', '}', '\n'], [.inclusion ['p'] [' ']]⟩
    let document := Document.ofValue Json.context (.object [])
    let env : Setting Location := ⟨document.context, some (Store.empty.insert ['p'] t), []⟩
    t.Compiled ∧ env.Compiled ∧ env.context.LambdaFree document.root ∧
      env.context.FinitelyMany document.root ∧
      ∃ report : Report Location,
        (∀ depth, env.names.length * {node | env.context.Reaches document.root node}.ncard < depth →
          t.render env depth document.root = report) ∧
        report.result = .error (.error (.partialCycle [['p'], ['p']])) := by
  intro t document env
  have ht : t.Compiled := by decide +kernel
  have hc : env.Compiled := by
    intro store hs entry he
    obtain rfl := Option.some.inj hs
    obtain rfl := List.mem_singleton.mp he
    exact ht
  obtain ⟨hn, hf⟩ := Json.finitelyMany (.object [])
  obtain ⟨report, hreport, -, -⟩ := exists_render_eq ht hc hf hn
  refine ⟨ht, hc, hf, hn, report, hreport, ?_⟩
  have hcycle : (t.render env 2 document.root).result =
      .error (.error (.partialCycle [['p'], ['p']])) := by
    decide +kernel
  have hdeep : (t.render env 2 document.root).result ≠ .error .tooDeep := by
    rw [hcycle]
    simp
  rw [← hreport (_ + 2) (Nat.lt_add_of_pos_right Nat.two_pos)]
  exact (congrArg Report.result (render_of_le (Nat.le_add_left 2 _) hdeep)).trans hcycle

end Template
end Mustache
