import Mustache.Proofs.Cache
import Mustache.Proofs.Carried
import Mustache.Proofs.Chain
import Mustache.Proofs.FiniteData

/-! Hidden members: data that is rendered as if it had no members of some name. Where no template
asks for that name, it makes no difference. -/
namespace Mustache

open Data Text

variable {ν α : Type}

/-- The names of the members that a path asks for. -/
def Tag.memberNames (path : Text) : List Text :=
  if path = ['.'] then [] else Tag.segments path

namespace Part

/-- The names of the members that the variables and sections of parts ask for. -/
def memberNames (parts : List Part) : List Text :=
  (paths parts).flatMap Tag.memberNames

mutual

lemma paths_outlinePart (f : Text → Text) : (part : Part) →
    paths (outlinePart f part) = paths [part]
  | .block _ path _ _ children => by
    rw [outlinePart, paths_block_cons, paths_block_cons, paths_outline f children]
  | .literal _ | .value _ _ | .inclusion _ _ | .switch _ => rfl

/-- Parts with the same outline name the same paths. -/
theorem paths_outline (f : Text → Text) : (parts : List Part) →
    paths (outline f parts) = paths parts
  | [] => rfl
  | part :: parts => by
    rw [outline, paths_append, paths_outlinePart f part, paths_outline f parts, ← paths_append,
      List.singleton_append]

end
end Part

/-- An indented template names the same paths as before. -/
theorem Template.Compiled.paths_indented {t u : Template} (ht : t.Compiled) {indent : Text}
    (hi : Blank indent) (hu : t.indented indent = .ok u) :
    Part.paths u.parts = Part.paths t.parts := by
  rw [← Part.paths_outline id u.parts, ht.outline_indented hi hu, Part.paths_outline]

lemma findSome?_congr {β : Type} {f g : α → Option β} {xs : List α} (h : ∀ x ∈ xs, f x = g x) :
    xs.findSome? f = xs.findSome? g := by
  induction xs with
  | nil => rfl
  | cons x xs ih =>
    rw [List.forall_mem_cons] at h
    rw [List.findSome?_cons, List.findSome?_cons, h.1, ih h.2]

/-- A path leads to the same node if the nodes on the way have the same members of the names that it
asks for. -/
theorem Stack.resolve?_congr {C D : Context ν} {P : ν → Prop} {s : Stack ν} {path : Text}
    (hs : ∀ frame ∈ s.frames, P frame)
    (hchild : ∀ node name child, P node → C.child? node name = some child → P child)
    (h : ∀ node, P node → ∀ name ∈ Tag.memberNames path, D.child? node name = C.child? node name) :
    s.resolve? D path = s.resolve? C path := by
  unfold Stack.resolve? Tag.memberNames at *
  split
  · rfl
  · rename_i hpath
    rw [if_neg hpath] at h
    cases hsegments : Tag.segments path with
    | nil => rfl
    | cons first rest =>
      rw [hsegments] at h
      have hlookup : s.lookup? D first = s.lookup? C first :=
        findSome?_congr fun frame hf => h frame (hs frame hf) first List.mem_cons_self
      have hrest {node : ν} (hn : P node) (names : List Text)
          (hsub : ∀ name ∈ names, name ∈ first :: rest) :
          names.foldlM D.child? node = names.foldlM C.child? node := by
        induction names generalizing node with
        | nil => rfl
        | cons name names ih =>
          rw [List.foldlM_cons, List.foldlM_cons, h node hn name (hsub name List.mem_cons_self)]
          cases hc : C.child? node name with
          | none => rfl
          | some child =>
            exact ih (hchild node name child hn hc) fun n hm =>
              hsub n (List.mem_cons_of_mem name hm)
      simp only [hlookup]
      cases hfound : s.lookup? C first with
      | none => rfl
      | some node =>
        obtain ⟨frame, hframe, hc⟩ := List.exists_of_findSome?_eq_some hfound
        exact hrest (hchild frame first node (hs frame hframe) hc) rest fun n hm =>
          List.mem_cons_of_mem first hm

/-- A path leads to the same node if all nodes of the data have the same members of the names that
it asks for. -/
theorem Stack.Within.resolve?_congr {C D : Context ν} {root : ν} {s : Stack ν}
    (hs : s.Within C root) {path : Text} (h : ∀ node, C.Reaches root node →
      ∀ name ∈ Tag.memberNames path, D.child? node name = C.child? node name) :
    s.resolve? D path = s.resolve? C path :=
  Stack.resolve?_congr hs (fun _ _ _ => .member) h

namespace Data.Context

/-- Data without its members of a name. -/
def lacking (C : Context ν) (name : Text) : Context ν :=
  { C with child? := fun node other => if other = name then none else C.child? node other }

variable {C : Context α} {root : α} {name : Text}

lemma child?_lacking_of_ne {other : Text} (h : other ≠ name) (node : α) :
    (C.lacking name).child? node other = C.child? node other :=
  if_neg h

lemma step?_of_lacking {node child : α} {step : Step}
    (h : (C.lacking name).step? node step = some child) : C.step? node step = some child := by
  cases step with
  | member other =>
    by_cases ho : other = name
    · have hnone : (C.lacking name).child? node other = none := if_pos ho
      rw [Context.step?, hnone] at h
      cases h
    · rwa [Context.step?, child?_lacking_of_ne ho] at h
  | item index => exact h

/-- What is reached without members of a name is reached with them. -/
theorem follow?_of_lacking {node found : α} {steps : List Step}
    (h : (C.lacking name).follow? node steps = some found) : C.follow? node steps = some found := by
  induction steps generalizing node with
  | nil => exact h
  | cons step steps ih =>
    obtain ⟨child, hc, hrest⟩ := Option.bind_eq_some_iff.mp h
    exact Option.bind_eq_some_iff.mpr ⟨child, step?_of_lacking hc, ih hrest⟩

lemma Reaches.of_lacking {node : α} (h : (C.lacking name).Reaches root node) :
    C.Reaches root node := by
  induction h with
  | root => exact .root
  | @member node child other hn hc ih =>
    have hstep : (C.lacking name).step? node (.member other) = some child := hc
    exact ih.step (step?_of_lacking hstep)
  | item hn hi hm ih => exact ih.item hi hm

lemma LambdaFree.lacking (h : C.LambdaFree root) : (C.lacking name).LambdaFree root :=
  fun node hn => h node hn.of_lacking

end Data.Context

section Render

variable [DecidableEq ν]

/-- Settings without lambdas are paired for equality if they answer alike where walks come by. -/
theorem Setting.pairs_equality {env env' : Setting ν} {root : ν} {sees : Text → Prop}
    (hf : env.context.LambdaFree root)
    (hchild : ∀ node, env.context.Reaches root node → ∀ path, sees path →
      ∀ name ∈ Tag.memberNames path,
        env'.context.child? node name = env.context.child? node name)
    (hnode : ∀ node, env.context.Reaches root node →
      env'.context.children? node = env.context.children? node ∧
      env'.context.value node = env.context.value node ∧
      env'.context.falsy node = env.context.falsy node ∧
      env'.context.isBool node = env.context.isBool node ∧
      env'.context.lambda? node = env.context.lambda? node) :
    env.Pairs (Run.equality ν) env' (Stack.Within env.context root) sees where
  resolve? s path hs hp := hs.resolve?_congr fun node hn => hchild node hn path hp
  node s path node hs hn := by
    have hr := hs.resolve? hn
    obtain ⟨hchildren, hvalue, hfalsy, hbool, hlambda⟩ := hnode node hr
    refine ⟨hchildren, hvalue, hfalsy, hbool, fun h => hlambda.trans h, fun l hl => ?_⟩
    rw [hf node hr] at hl
    cases hl
  stays s path contexts hs ho := by
    obtain ⟨contexts', ho', hw⟩ := hs.occurrence hf path
    obtain rfl := Occurrence.under.inj (ho.symm.trans ho')
    exact hw

/-- A compiled template that is included is compiled, and names the same paths indented or not. -/
theorem fitted_recompiled (env : Setting ν) (store? : Option (Text → Option Template))
    {t : Template} (ht : t.Compiled) (name : Text) {indent : Text} (hi : Blank indent) :
    ∃ u : Template, (env.rendererBy store? Run.recompiled).fitted name indent t = pure u ∧
      u.Compiled ∧ Part.paths u.parts = Part.paths t.parts := by
  by_cases hempty : indent = []
  · exact ⟨t, if_pos hempty, ht, rfl⟩
  · obtain ⟨parts, hparts, -⟩ :=
      Part.exists_ofSource_indentLines hi Delimiters.braces_valid ht.ofSource
    have hu : t.indented indent = .ok ⟨indentLines indent t.source, parts⟩ :=
      Template.compile_eq_ok_iff.mpr ⟨rfl, hparts⟩
    have hindented : (Run.recompiled name indent t : Run ν Template) =
        pure ⟨indentLines indent t.source, parts⟩ := by
      rw [Run.recompiled, hu, Run.compiled]
    exact ⟨_, (if_neg hempty).trans hindented, .indented hu, ht.paths_indented hi hu⟩

/-- An inclusion renders the same if compiled templates do that name only what is seen. -/
theorem inclusion_recompiled_congr {env env' : Setting ν}
    {store? : Option (Text → Option Template)} {sees : Text → Prop}
    (hstore : ∀ name t, Run.answer? store? name = some t →
      t.Compiled ∧ ∀ path ∈ Part.paths t.parts, sees path)
    {render render' : List (Text × ν) → Stack ν → List Part → Run ν Text} {s : Stack ν}
    (hrender : ∀ opened (u : Template), u.Compiled → (∀ path ∈ Part.paths u.parts, sees path) →
      render opened s u.parts = render' opened s u.parts)
    (opened : List (Text × ν)) (name : Text) {indent : Text} (hi : Blank indent) :
    (env.rendererBy store? Run.recompiled).inclusion render opened name indent s =
      (env'.rendererBy store? Run.recompiled).inclusion render' opened name indent s := by
  refine Renderer.inclusion_related (R := Run.equality ν) rfl rfl rfl fun t ht => ?_
  obtain ⟨hcompiled, hpaths⟩ := hstore name t ht
  obtain ⟨u, hu, hcu, hpu⟩ := fitted_recompiled env store? hcompiled name hi
  rw [hu, pure_bind, pure_bind]
  exact hrender _ u hcu (hpu ▸ hpaths)

/-- Renders over settings that are paired for equality are the same, if all that the templates name
is seen. -/
theorem renderBy_eq_of_pairs {env env' : Setting ν} {root : ν} {sees : Text → Prop}
    (h : env.Pairs (Run.equality ν) env' (Stack.Within env.context root) sees)
    (hf : env.context.LambdaFree root) {store? : Option (Text → Option Template)}
    (hstore : ∀ name t, Run.answer? store? name = some t →
      t.Compiled ∧ ∀ path ∈ Part.paths t.parts, sees path)
    (depth : Nat) (opened : List (Text × ν)) {s : Stack ν} (hs : s.Within env.context root)
    {parts : List Part} (ha : Part.Admitted sees (fun _ => True) (fun i => Blank i.2) parts) :
    renderBy env store? Run.recompiled depth opened s parts =
      renderBy env' store? Run.recompiled depth opened s parts := by
  induction depth generalizing opened s parts with
  | zero => rfl
  | succ depth ih =>
    have hbeyond : Beyond.Paired (Run.equality ν) env env' (Stack.Within env.context root) sees
        (fun _ => True) (fun i => Blank i.2)
        ((env.rendererBy store? Run.recompiled).below
          (renderBy env store? Run.recompiled depth) opened)
        ((env'.rendererBy store? Run.recompiled).below
          (renderBy env' store? Run.recompiled depth) opened) :=
      { h with
        calls := ⟨rfl, rfl⟩
        expand := fun d text s path node l hs _ hn hl => by
          rw [hf node (hs.resolve? hn)] at hl
          cases hl
        inclusion := fun name indent s hs hi =>
          inclusion_recompiled_congr hstore
            (fun opened u hu hp => ih opened hs ⟨hp, fun _ _ => trivial, fun i hi => hu.blank hi⟩)
            opened name hi }
    exact hbeyond.walk hs parts ha

end Render

/-- Whether a variable or a section of a template asks for members of a name. -/
def Template.AsksFor (t : Template) (name : Text) : Prop :=
  name ∈ Part.memberNames t.parts

instance (t : Template) (name : Text) : Decidable (t.AsksFor name) :=
  inferInstanceAs (Decidable (_ ∈ _))

lemma Template.not_mem_of_not_asksFor {t : Template} {name : Text} (h : ¬ t.AsksFor name) :
    ∀ path ∈ Part.paths t.parts, name ∉ Tag.memberNames path :=
  fun path hp hm => h (List.mem_flatMap.mpr ⟨path, hp, hm⟩)

/-- A document without members of a name is paired with the whole one for paths that do not ask for
them: the places that are reached in it are places of the whole one, and hold the same. -/
theorem Setting.pairs_lacking {C : Context α} {root : α} (hf : C.LambdaFree root) (name : Text)
    (store? : Option Store) (earlier : List (Call Location)) :
    Setting.Pairs (Run.equality Location) ⟨(C.lacking name).located root, store?, earlier⟩
      ⟨C.located root, store?, earlier⟩ (Stack.Within ((C.lacking name).located root) [])
      fun path => name ∉ Tag.memberNames path := by
  have hplace {place : Location} (hp : ((C.lacking name).located root).Reaches [] place) :
      ∃ node, (C.lacking name).follow? root place = some node ∧
        C.follow? root place = some node := by
    obtain ⟨node, hnode, -⟩ := Context.exists_follow?_of_reaches hp
    exact ⟨node, hnode, Context.follow?_of_lacking hnode⟩
  refine Setting.pairs_equality hf.lacking.located (fun place hp path hpath other hother => ?_)
    fun place hp => ?_
  · obtain ⟨node, hlacking, hnode⟩ := hplace hp
    have hne : other ≠ name := fun h => hpath (h ▸ hother)
    simp only [Context.located, hlacking, hnode, Option.bind_some, Context.child?_lacking_of_ne hne]
  · obtain ⟨node, hlacking, hnode⟩ := hplace hp
    simp only [Context.located, hlacking, hnode]
    exact ⟨rfl, rfl, rfl, rfl, rfl⟩

/-- Members of a name that nothing asks for may be missing from a document. -/
theorem Template.renderOn_lacking {C : Context α} {root : α} (hf : C.LambdaFree root)
    {t : Template} (ht : t.Compiled) {store? : Option Store}
    (hs : ∀ store ∈ store?, store.Compiled) {name : Text} (hn : ¬ t.AsksFor name)
    (hns : ∀ store ∈ store?, ∀ entry ∈ store.entries, ¬ entry.2.AsksFor name) (depth : Nat) :
    t.renderOn store? depth (.ofValue (C.lacking name) root) =
      t.renderOn store? depth (.ofValue C root) := by
  have hstore (other : Text) (u : Template)
      (hu : Run.answer? (store?.map Store.get?) other = some u) :
      u.Compiled ∧ ∀ path ∈ Part.paths u.parts, name ∉ Tag.memberNames path := by
    cases store? with
    | none => simp [Run.answer?] at hu
    | some store =>
      have hmem := Store.mem_entries_of_get? hu
      exact ⟨hs store rfl _ hmem, not_mem_of_not_asksFor (hns store rfl _ hmem)⟩
  have hrun := renderBy_eq_of_pairs (Setting.pairs_lacking hf name store? []) hf.lacking.located
    hstore depth [] (Stack.within_ofRoot _ [])
    ⟨not_mem_of_not_asksFor hn, fun _ _ => trivial, fun i hi => ht.blank hi⟩
  simp only [renderOn, Document.ofValue, render_eq_recompiled, renderBy, hrun]

end Mustache
