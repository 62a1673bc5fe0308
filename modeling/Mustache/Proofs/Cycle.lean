import Mustache.Proofs.Alike
import Mustache.Proofs.Termination

/-! Cycles. What is reported as a cycle is a template that is opened again on the same frame; what
never ends without the report is a template that is opened again on a stack that answers alike. The
second is more than the first. -/
namespace Mustache

open Data

variable {ν : Type} {env : Setting ν} {root : ν}

/-- Two places in a list that are related, if not all pairs are unrelated. -/
theorem exists_split_of_not_pairwise {α : Type} {R : α → α → Prop} {l : List α}
    (h : ¬ l.Pairwise fun a b => ¬ R a b) :
    ∃ before a between b after, l = before ++ a :: (between ++ b :: after) ∧ R a b := by
  induction l with
  | nil => exact absurd .nil h
  | cons a l ih =>
    rw [List.pairwise_cons, not_and_or] at h
    rcases h with h | h
    · obtain ⟨b, hb, hr⟩ : ∃ b ∈ l, R a b := by simpa using h
      obtain ⟨between, after, rfl⟩ := List.append_of_mem hb
      exact ⟨[], a, between, b, after, rfl, hr⟩
    · obtain ⟨before, c, between, b, after, rfl, hr⟩ := ih h
      exact ⟨a :: before, c, between, b, after, rfl, hr⟩

namespace Setting

/-- Some path opens a template again, on a stack that is so related to the one that it is open
on. -/
def Reopens (env : Setting ν) (R : Stack ν → Stack ν → Prop) (s : Stack ν) (parts : List Part) :
    Prop :=
  ∃ before o between o', env.IsPath s parts (before ++ o :: (between ++ [o'])) ∧
    o.name = o'.name ∧ R o.stack o'.stack

/-- On a path that opens no template again, openings differ pairwise. -/
theorem IsPath.pairwise {R : Stack ν → Stack ν → Prop} {s : Stack ν} {parts : List Part}
    {os : List (Opening ν)} (hp : env.IsPath s parts os) (h : ¬ env.Reopens R s parts) :
    os.Pairwise fun o o' => ¬ (o.name = o'.name ∧ R o.stack o'.stack) := by
  by_contra hn
  obtain ⟨before, o, between, o', after, rfl, hr⟩ := exists_split_of_not_pairwise hn
  refine h ⟨before, o, between, o', ?_, hr⟩
  have hl : before ++ o :: (between ++ o' :: after) = (before ++ o :: between) ++ o' :: after := by
    simp
  rw [hl] at hp
  simpa using (isPath_append_cons.mp hp).1

/-- A template that is opened again on a stack that answers alike is opened again and again. -/
theorem Reopens.exists_isPath {s : Stack ν} {parts : List Part}
    (h : env.Reopens (Stack.Alike env.context) s parts) (n : Nat) :
    ∃ os, env.IsPath s parts os ∧ os.length = n := by
  obtain ⟨before, o, between, o', hp, hname, ha⟩ := h
  obtain ⟨hfirst, hagain⟩ := isPath_append_cons.mp hp
  have ht : o'.template = o.template := by
    have ho := hp.template? o (by simp)
    have ho' := hp.template? o' (by simp)
    exact Option.some.inj (ho'.symm.trans (hname ▸ ho))
  -- every time around, the same path goes on from an alike stack
  have hlong (n : Nat) : ∃ os, env.IsPath o.stack o.template.parts os ∧ n ≤ os.length := by
    induction n with
    | zero => exact ⟨[], trivial, Nat.zero_le _⟩
    | succ n ih =>
      obtain ⟨os, hos, hlength⟩ := ih
      obtain ⟨os', hos', hlength'⟩ := hos.exists_of_alike ha
      refine ⟨between ++ o' :: os', isPath_append_cons.mpr ⟨hagain, ht ▸ hos'⟩, ?_⟩
      simp only [List.length_append, List.length_cons]
      omega
  obtain ⟨os, hos, hlength⟩ := hlong n
  refine ⟨(before ++ o :: os).take n, (isPath_append_cons.mpr ⟨hfirst, hos⟩).take n, ?_⟩
  rw [List.length_take, List.length_append, List.length_cons]
  omega

variable [DecidableEq ν]

/-- Over finite data, paths on which no template is opened again on a stack that answers alike are
bounded in length. -/
theorem exists_length_le (hf : env.context.LambdaFree root) (hn : env.context.FinitelyMany root)
    {s : Stack ν} (hs : s.Within env.context root) {parts : List Part}
    (h : ¬ env.Reopens (Stack.Alike env.context) s parts) :
    ∃ bound, ∀ os, env.IsPath s parts os → os.length ≤ bound := by
  let key (o : Opening ν) : Text × List ν := (o.name, Stack.recent o.stack.frames)
  have hkeys := (env.names.toFinset.finite_toSet).prod (Stack.recent_finite hn)
  refine ⟨hkeys.toFinset.card, fun os hp => ?_⟩
  have hnodup : (os.map key).Nodup := by
    refine List.pairwise_map.mpr ((hp.pairwise h).imp fun hne he => hne ?_)
    obtain ⟨hname, hrecent⟩ := Prod.mk.inj he
    exact ⟨hname, Stack.alike_of_recent hrecent⟩
  have hsub : (os.map key).toFinset ⊆ hkeys.toFinset := by
    intro k hk
    obtain ⟨o, ho, rfl⟩ := List.mem_map.mp (List.mem_toFinset.mp hk)
    have hname := mem_names_of_template? (hp.template? o ho)
    refine (Set.Finite.mem_toFinset hkeys).mpr ⟨List.mem_toFinset.mpr hname, ?_⟩
    exact ⟨o.stack, hp.within hf hs o ho, rfl⟩
  calc os.length = (os.map key).toFinset.card := by
        rw [List.toFinset_card_of_nodup hnodup, List.length_map]
    _ ≤ hkeys.toFinset.card := Finset.card_le_card hsub

end Setting

namespace Template

variable [DecidableEq ν] {t : Template}

/-- Renders a template against a node without looking at what is open. -/
def renderUnchecked (t : Template) (env : Setting ν) (depth : Nat) (root : ν) : Report ν :=
  .ofRun (Mustache.renderUnchecked env depth (Stack.ofRoot root) t.parts)

lemma renderUnchecked_stops (ht : t.Compiled) (hc : env.Compiled)
    (hf : env.context.LambdaFree root) (depth : Nat) :
    env.Stops (fun _ => True) depth (Stack.ofRoot root) t.parts
      (stop? (t.renderUnchecked env depth root).result) :=
  (renderUnchecked_ends hc hf depth (Stack.within_ofRoot _ root) (fun _ => ht.blank) .start
    env.kept_start).1

/-- Without the look a render stops at a depth just when a path goes that deep. -/
theorem renderUnchecked_eq_tooDeep_iff (ht : t.Compiled) (hc : env.Compiled)
    (hf : env.context.LambdaFree root) (depth : Nat) :
    (t.renderUnchecked env depth root).result = .error .tooDeep ↔
      ∃ os, env.IsPath (Stack.ofRoot root) t.parts os ∧ os.length = depth := by
  have hstops := renderUnchecked_stops ht hc hf depth
  constructor
  · intro h
    rw [h] at hstops
    obtain ⟨os, hp, hlength, -⟩ := hstops
    exact ⟨os, hp, hlength⟩
  · rintro ⟨os, hp, hlength⟩
    by_contra hne
    rcases hstops.text_or_cycle hne with ⟨text, h⟩ | ⟨chain, h⟩
    · rw [h] at hstops
      have := (hstops os hp).1
      omega
    · rw [h] at hstops
      obtain ⟨os', -, hnot⟩ := hstops
      exact hnot trivial

/-- A cycle that is reported is a template that is opened again on the same frame. -/
theorem reopens_of_partialCycle (ht : t.Compiled) (hc : env.Compiled)
    (hf : env.context.LambdaFree root) {depth : Nat} {chain : List Text}
    (h : (t.render env depth root).result = .error (.error (.partialCycle chain))) :
    env.Reopens (fun s s' => s.top = s'.top) (Stack.ofRoot root) t.parts := by
  have hstops := render_stops ht hc hf depth
  rw [h] at hstops
  obtain ⟨os, hp, hnot⟩ := hstops
  by_contra hr
  refine hnot ⟨by simp, List.pairwise_map.mpr ((hp.pairwise hr).imp fun hne he => hne ?_)⟩
  exact Prod.mk.inj he

/-- Over finite data such a template is reported. -/
theorem exists_partialCycle_of_reopens (ht : t.Compiled) (hc : env.Compiled)
    (hf : env.context.LambdaFree root) (hn : env.context.FinitelyMany root)
    (h : env.Reopens (fun s s' => s.top = s'.top) (Stack.ofRoot root) t.parts) :
    ∃ depth chain, (t.render env depth root).result = .error (.error (.partialCycle chain)) := by
  obtain ⟨before, o, between, o', hp, hname, htop⟩ := h
  have hdeep := render_ne_tooDeep ht hc hf hn (Nat.lt_succ_self _)
  have hstops := render_stops ht hc hf
    (env.names.length * {node | env.context.Reaches root node}.ncard + 1)
  rcases hstops.text_or_cycle hdeep with ⟨text, h⟩ | ⟨chain, h⟩
  · rw [h] at hstops
    have hnodup := (hstops _ hp).2.2
    have hkey : o.key = o'.key := Prod.ext hname htop
    rw [List.map_append, List.map_cons, List.map_append, List.map_singleton, hkey] at hnodup
    have hright := (List.nodup_append.mp hnodup).2.1
    simp at hright
  · exact ⟨_, chain, h⟩

/-- What is reported as a cycle is a template that is opened again on the same frame. What never
ends unless it is reported is a template that is opened again on a stack with the same frame on top
on which every name leads to the same node. Over finite data neither is anything less. -/
theorem partialCycle_and_endless_iff (ht : t.Compiled) (hc : env.Compiled)
    (hf : env.context.LambdaFree root) :
    (∀ depth chain, (t.render env depth root).result = .error (.error (.partialCycle chain)) →
        env.Reopens (fun s s' => s.top = s'.top) (Stack.ofRoot root) t.parts) ∧
      (env.Reopens (Stack.Alike env.context) (Stack.ofRoot root) t.parts →
        ∀ depth, (t.renderUnchecked env depth root).result = .error .tooDeep) ∧
      (env.context.FinitelyMany root →
        ((∃ depth chain,
            (t.render env depth root).result = .error (.error (.partialCycle chain))) ↔
          env.Reopens (fun s s' => s.top = s'.top) (Stack.ofRoot root) t.parts) ∧
        ((∀ depth, (t.renderUnchecked env depth root).result = .error .tooDeep) ↔
          env.Reopens (Stack.Alike env.context) (Stack.ofRoot root) t.parts)) := by
  have hendless (h : env.Reopens (Stack.Alike env.context) (Stack.ofRoot root) t.parts)
      (depth : Nat) : (t.renderUnchecked env depth root).result = .error .tooDeep :=
    (renderUnchecked_eq_tooDeep_iff ht hc hf depth).mpr (h.exists_isPath depth)
  refine ⟨fun _ _ h => reopens_of_partialCycle ht hc hf h, hendless,
    fun hn => ⟨⟨?_, ?_⟩, ?_, hendless⟩⟩
  · rintro ⟨depth, chain, h⟩
    exact reopens_of_partialCycle ht hc hf h
  · exact exists_partialCycle_of_reopens ht hc hf hn
  · intro h
    by_contra hr
    obtain ⟨bound, hbound⟩ :=
      Setting.exists_length_le hf hn (Stack.within_ofRoot env.context root) hr
    obtain ⟨os, hp, hlength⟩ := (renderUnchecked_eq_tooDeep_iff ht hc hf (bound + 1)).mp (h _)
    have := hbound os hp
    omega

/-- A template that includes itself: it is reported, and would not end. -/
theorem partialCycle_and_endless_self :
    let t : Template := ⟨['{', '{', '>', 'p', '}', '}'], [.inclusion ['p'] []]⟩
    let document := Document.ofValue Json.context (.object [])
    let env : Setting Location := ⟨document.context, some (Store.empty.insert ['p'] t), []⟩
    t.Compiled ∧ env.Compiled ∧ env.context.LambdaFree document.root ∧
      env.context.FinitelyMany document.root ∧
      (∀ depth, (t.renderUnchecked env depth document.root).result = .error .tooDeep) ∧
      ∃ depth chain,
        (t.render env depth document.root).result = .error (.error (.partialCycle chain)) := by
  intro t document env
  have ht : t.Compiled := by decide +kernel
  have hc : env.Compiled := by
    intro store hs entry he
    obtain rfl := Option.some.inj hs
    obtain rfl := List.mem_singleton.mp he
    exact ht
  obtain ⟨hn, hf⟩ := Json.finitelyMany (.object [])
  let o : Opening Location := ⟨['p'], t, Stack.ofRoot document.root⟩
  have ho : o ∈ env.openings (Stack.ofRoot document.root) t.parts := by decide +kernel
  have hp : env.IsPath (Stack.ofRoot document.root) t.parts [o, o] := ⟨ho, ho, trivial⟩
  obtain ⟨-, hendless, hfinite⟩ := partialCycle_and_endless_iff ht hc hf
  exact ⟨ht, hc, hf, hn, hendless ⟨[], o, [], o, hp, rfl, rfl, fun _ => rfl⟩,
    (hfinite hn).1.mpr ⟨[], o, [], o, hp, rfl, rfl⟩⟩

/-- The first frame comes back on top, but a name leads somewhere else by then: a cycle is reported
of a render that would have ended. -/
theorem partialCycle_of_ending :
    let again : Text := ['{', '{', '>', 'p', '}', '}']
    let inF : Text := ['{', '{', '#', 'f', '}', '}'] ++ again ++ ['{', '{', '/', 'f', '}', '}']
    let inG : Text := ['{', '{', '#', 'g', '}', '}'] ++ inF ++ ['{', '{', '/', 'g', '}', '}']
    let t : Template := ⟨inF, [.block false ['f'] again .braces [.inclusion ['p'] []]]⟩
    let p : Template := ⟨['-', '{', '{', '^', 's', '}', '}'] ++ inG ++
      ['{', '{', '/', 's', '}', '}'],
      [.literal ['-'], .block true ['s'] inG .braces [.block false ['g'] inF .braces t.parts]]⟩
    let document := Document.ofValue Json.context
      (.object [(['f'], .object []), (['g'], .object [(['s'], .bool true)])])
    let env : Setting Location := ⟨document.context, some (Store.empty.insert ['p'] p), []⟩
    t.Compiled ∧ env.Compiled ∧ env.context.LambdaFree document.root ∧
      (t.render env 3 document.root).result = .error (.error (.partialCycle [['p'], ['p']])) ∧
      (t.renderUnchecked env 3 document.root).result = .ok ['-', '-'] := by
  intro again inF inG t p document env
  have hc : env.Compiled := by
    intro store hs entry he
    obtain rfl := Option.some.inj hs
    obtain rfl := List.mem_singleton.mp he
    change p.Compiled
    decide +kernel
  exact ⟨by decide +kernel, hc, (Json.finitelyMany _).2, by decide +kernel, by decide +kernel⟩

end Template
end Mustache
