import Mustache.Proofs.Chain

/-! Reported cycles. The chain that a cycle is told by names a path of openings: none of them is
open already, but for the last one. -/
namespace Mustache

open Data Text

variable {ν : Type} {env : Setting ν} {opened : List (Text × ν)} {s : Stack ν} {parts : List Part}
  {chain : List Text}

namespace Setting

/-- A chain names what is open and, behind it, the openings of a path. The last of these is open
again, the others are not. -/
def Recurs (env : Setting ν) (opened : List (Text × ν)) (s : Stack ν) (parts : List Part)
    (chain : List Text) : Prop :=
  ∃ os o, env.IsPath s parts (os ++ [o]) ∧ Fresh opened os ∧
    o.key ∈ opened ++ os.map Opening.key ∧
    chain = opened.reverse.map Prod.fst ++ (os ++ [o]).map Opening.name

/-- What is open already and opened once more is the whole path. -/
theorem recurs_of_mem {o : Opening ν} (ho : o ∈ env.openings s parts) (hk : o.key ∈ opened) :
    env.Recurs opened s parts ((o.key :: opened).reverse.map Prod.fst) := by
  refine ⟨[], o, ⟨ho, trivial⟩, fresh_nil opened, List.mem_append_left _ hk, ?_⟩
  rw [List.reverse_cons, List.map_append]
  rfl

/-- An opening that was not open before goes in front of a path. -/
theorem Recurs.cons {o : Opening ν} (ho : o ∈ env.openings s parts) (hk : o.key ∉ opened)
    (h : env.Recurs (o.key :: opened) o.stack o.template.parts chain) :
    env.Recurs opened s parts chain := by
  obtain ⟨os, o', hp, hfresh, hk', rfl⟩ := h
  refine ⟨o :: os, o', ⟨ho, hp⟩, fresh_cons_iff.mpr ⟨hk, hfresh⟩, ?_, ?_⟩
  · exact List.perm_middle.mem_iff.mpr hk'
  · rw [List.reverse_cons, List.map_append, List.append_assoc]
    rfl

lemma recurs_congr {ps qs : List Part}
    (h : (visits env.context s ps).map Visit.key = (visits env.context s qs).map Visit.key) :
    env.Recurs opened s ps chain ↔ env.Recurs opened s qs chain := by
  simp only [Recurs, isPath_congr h]

end Setting

variable [DecidableEq ν] {root : ν}

/-- Wherever a render comes to a cycle, its chain names a path that recurs: each inclusion that is
entered adds its opening to what is open, and takes it away again. -/
theorem renderParts_recurs (hc : env.Compiled) (hf : env.context.LambdaFree root) (depth : Nat)
    (opened : List (Text × ν)) {s : Stack ν} (hs : s.Within env.context root) {parts : List Part}
    (hi : ∀ i ∈ Part.inclusions parts, Blank i.2) :
    Run.Ends env.Kept (renderParts env depth opened s parts) fun x =>
      ∀ chain, stop? x = some (.error (.partialCycle chain)) →
        env.Recurs opened s parts chain := by
  induction depth generalizing opened s parts with
  | zero => exact .throw (by simp [stop?])
  | succ depth ih =>
    rw [renderParts_succ]
    let Q (_ : Visit ν) (r : Option Stop) : Prop :=
      ∀ chain, r = some (.error (.partialCycle chain)) → env.Recurs opened s parts chain
    refine (walk_ends (Q := Q) hf hs parts fun v hv => ?_).mono fun x hx chain he => ?_
    · have hopening {t : Template} (ht : env.template? v.name = some t) :
          (⟨v.name, t, v.stack⟩ : Opening ν) ∈ env.openings s parts :=
        Setting.mem_openings_iff.mpr ⟨v, hv, rfl, rfl, ht⟩
      apply Run.inclusion_ends hc (hi _ (mem_inclusions_of_visits parts hv))
      · intro _ chain he
        simp [stop?] at he
      · rintro t ht ho _ ⟨⟩
        exact Setting.recurs_of_mem (hopening ht) (of_decide_eq_true ho)
      · intro t ht ho u hu hkeys
        refine (ih _ (within_of_visits hf hs parts hv) fun i => hu.blank).mono
          fun x hx chain he => ?_
        exact .cons (hopening ht) (of_decide_eq_false ho)
          ((Setting.recurs_congr (hkeys _)).mp (hx chain he))
    · rw [he] at hx
      obtain ⟨v, -, hq⟩ := hx
      exact hq chain rfl

namespace Template

variable {t : Template}

/-- The chain of a cycle is a chain of inclusions that comes back to a name, and it is no longer
than names and nodes allow. -/
theorem chain_of_partialCycle (ht : t.Compiled) (hc : env.Compiled)
    (hf : env.context.LambdaFree root) (hn : env.context.FinitelyMany root) {depth : Nat}
    (h : (t.render env depth root).result = .error (.error (.partialCycle chain))) :
    ∃ store, env.store? = some store ∧ 2 ≤ chain.length ∧ (∀ name ∈ chain, name ∈ store.names) ∧
      (∃ before last, chain = before ++ [last] ∧ last ∈ before) ∧ store.Chain t.parts chain ∧
      chain.length ≤ store.size * {node | env.context.Reaches root node}.ncard + 1 := by
  have hroot := Stack.within_ofRoot env.context root
  have hrecurs := (renderParts_recurs hc hf depth [] hroot (fun _ => ht.blank) .start
    env.kept_start).1 chain
  obtain ⟨os, o, hp, hfresh, hk, rfl⟩ := hrecurs (congrArg stop? h)
  cases hs : env.store? with
  | none => simpa using Setting.isPath_eq_nil hs hp
  | some store =>
    have hchain := hp.chain hs
    have hmem : o.name ∈ os.map Opening.name := by
      obtain ⟨o', ho', hkey⟩ := List.mem_map.mp hk
      exact List.mem_map.mpr ⟨o', ho', congrArg Prod.fst hkey⟩
    have hpath : env.IsPath (Stack.ofRoot root) t.parts os := by simpa using hp.take os.length
    have hlength := hpath.length_le hf hn hroot hfresh
    have hpos : 0 < os.length := by simpa using List.length_pos_of_mem hmem
    rw [Setting.names, hs, Option.elim_some, Store.length_names] at hlength
    refine ⟨store, rfl, ?_, hchain.mem_names, ⟨os.map Opening.name, o.name, ?_, hmem⟩, hchain, ?_⟩
    · simp only [List.length_map, List.length_append, List.length_singleton]
      omega
    · simp
    · simpa using hlength

/-- Two templates that include each other, the second one under a flag that is set. -/
theorem chain_of_partialCycle_mutual :
    let again : Text := ['{', '{', '>', 'a', '}', '}']
    let t : Template := ⟨again, [.inclusion ['a'] []]⟩
    let a : Template := ⟨['{', '{', '>', 'b', '}', '}'], [.inclusion ['b'] []]⟩
    let b : Template :=
      ⟨['{', '{', '#', 'f', '}', '}'] ++ again ++ ['{', '{', '/', 'f', '}', '}'],
        [.block false ['f'] again .braces t.parts]⟩
    let store := (Store.empty.insert ['a'] a).insert ['b'] b
    let document := Document.ofValue Json.context (.object [(['f'], .bool true)])
    let env : Setting Location := ⟨document.context, some store, []⟩
    let chain : List Text := [['a'], ['b'], ['a']]
    t.Compiled ∧ env.Compiled ∧ env.context.LambdaFree document.root ∧
      env.context.FinitelyMany document.root ∧
      (t.render env 3 document.root).result = .error (.error (.partialCycle chain)) ∧
      store.Chain t.parts chain ∧
      chain.length ≤ store.size * {node | env.context.Reaches document.root node}.ncard + 1 := by
  intro again t a b store document env chain
  have ht : t.Compiled := by decide +kernel
  have hc : env.Compiled := by
    rintro _ ⟨⟩ entry he
    have hall : ∀ e ∈ store.entries, e.2.Compiled := by decide +kernel
    exact hall entry he
  obtain ⟨hn, hf⟩ := Json.finitelyMany (.object [(['f'], .bool true)])
  have hr : (t.render env 3 document.root).result = .error (.error (.partialCycle chain)) := by
    decide +kernel
  obtain ⟨_, ⟨⟩, -, -, -, hchain, hlength⟩ := chain_of_partialCycle ht hc hf hn hr
  exact ⟨ht, hc, hf, hn, hr, hchain, hlength⟩

end Template
end Mustache
