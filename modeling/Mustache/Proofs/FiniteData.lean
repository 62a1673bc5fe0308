import Mathlib.Data.Set.Finite.Lattice
import Mustache.Data.Json
import Mustache.Data.Table
import Mustache.Data.Value
import Mustache.Data.Yaml
import Mustache.Proofs.Reach

/-! Finite data: documents of each kind have finitely many nodes, and those that cannot hold
lambdas have none. -/
namespace Mustache.Data

variable {α : Type}

namespace Context

/-- Data that gets smaller with every step, and whose nodes have finitely many members each. -/
structure Sized (C : Context α) (size : α → Nat) : Prop where
  member_lt {node child : α} {name : Text} :
    C.child? node name = some child → size child < size node
  item_lt {node item : α} {items : List α} :
    C.children? node = some items → item ∈ items → size item < size node
  members_finite (node : α) : {name | (C.child? node name).isSome}.Finite

lemma Sized.step_lt {C : Context α} {size : α → Nat} (w : C.Sized size) {node child : α}
    {step : Step} (h : C.step? node step = some child) : size child < size node := by
  cases step with
  | member name => exact w.member_lt h
  | item index =>
    obtain ⟨items, hi, hx⟩ := Option.bind_eq_some_iff.mp h
    exact w.item_lt hi (List.mem_of_getElem? hx)

lemma Sized.steps_finite {C : Context α} {size : α → Nat} (w : C.Sized size) (node : α) :
    {step | (C.step? node step).isSome}.Finite := by
  have hitems : {index | (C.step? node (.item index)).isSome}.Finite := by
    apply (Set.finite_lt_nat ((C.children? node).elim 0 List.length)).subset
    intro index h
    cases hc : C.children? node with
    | none => simp [step?, hc] at h
    | some items => simpa [step?, hc] using h
  apply ((w.members_finite node).image Step.member |>.union (hitems.image Step.item)).subset
  rintro (name | index) h
  · exact .inl ⟨name, h, rfl⟩
  · exact .inr ⟨index, h, rfl⟩

/-- Such data has finitely many places. -/
theorem Sized.places_finite {C : Context α} {size : α → Nat} (w : C.Sized size) (node : α) :
    {place | (C.follow? node place).isSome}.Finite := by
  induction hn : size node using Nat.strong_induction_on generalizing node with
  | _ n ih =>
    have hbelow : (⋃ step ∈ {step | (C.step? node step).isSome}, (step :: ·) ''
        {place | ((C.step? node step).bind (C.follow? · place)).isSome}).Finite := by
      refine (w.steps_finite node).biUnion fun step hs => Set.Finite.image _ ?_
      obtain ⟨child, hc⟩ := Option.isSome_iff_exists.mp hs
      simpa [hc] using ih _ (hn ▸ w.step_lt hc) child rfl
    apply ((Set.finite_singleton []).union hbelow).subset
    rintro (_ | ⟨step, place⟩) h
    · exact .inl rfl
    · have hstep : ((C.step? node step).bind (C.follow? · place)).isSome := by
        simpa [follow?] using h
      refine .inr (Set.mem_biUnion ?_ ⟨place, hstep, rfl⟩)
      cases hs : C.step? node step with
      | none => simp [hs] at hstep
      | some child => simp [hs]

lemma follow?_append_singleton (C : Context α) (node : α) (steps : List Step) (step : Step) :
    C.follow? node (steps ++ [step]) = (C.follow? node steps).bind (C.step? · step) := by
  rw [follow?_append]
  congr 1
  funext n
  simp [follow?]

/-- The places that are reached in a document are those of nodes that are reached. -/
theorem exists_follow?_of_reaches {C : Context α} {root : α} {place : Location}
    (h : (C.located root).Reaches [] place) :
    ∃ node, C.follow? root place = some node ∧ C.Reaches root node := by
  induction h with
  | root => exact ⟨root, rfl, .root⟩
  | @member place _ name _ hc ih =>
    obtain ⟨node, hf, hr⟩ := ih
    obtain ⟨child, ho, rfl⟩ := Option.map_eq_some_iff.mp hc
    rw [hf] at ho
    refine ⟨child, ?_, .member hr ho⟩
    rw [follow?_append_singleton, hf]
    exact ho
  | @item place _ places _ hi hm ih =>
    obtain ⟨node, hf, hr⟩ := ih
    obtain ⟨items, ho, rfl⟩ := Option.map_eq_some_iff.mp hi
    obtain ⟨index, hlt, rfl⟩ := List.mem_map.mp hm
    rw [hf] at ho
    have hlt : index < items.length := List.mem_range.mp hlt
    refine ⟨items[index], ?_, .item hr ho (List.getElem_mem hlt)⟩
    have hchildren : C.children? node = some items := ho
    rw [follow?_append_singleton, hf, Option.bind_some, step?, hchildren, Option.bind_some,
      List.getElem?_eq_getElem hlt]

lemma Sized.finitelyMany {C : Context α} {size : α → Nat} (w : C.Sized size) (root : α) :
    (C.located root).FinitelyMany [] := by
  apply (w.places_finite root).subset
  intro place h
  obtain ⟨node, hf, -⟩ := exists_follow?_of_reaches h
  simp [hf]

/-- A document has no lambdas if the value has none. -/
theorem LambdaFree.located {C : Context α} {root : α} (h : C.LambdaFree root) :
    (C.located root).LambdaFree [] := by
  intro place hp
  obtain ⟨node, hf, hr⟩ := exists_follow?_of_reaches hp
  simp [Context.located, hf, h node hr]

end Context

namespace Entries

lemma finite_last? {β : Type} (entries : List (Text × β)) :
    {name | (last? name entries).isSome}.Finite := by
  apply (entries.map Prod.fst).finite_toSet.subset
  intro name h
  obtain ⟨b, hb⟩ := Option.isSome_iff_exists.mp h
  exact List.mem_map.mpr ⟨(name, b), mem_of_last? hb, rfl⟩

lemma sizeOf_lt_of_mem {κ β : Type} [SizeOf κ] [SizeOf β] {key : κ} {b : β}
    {entries : List (κ × β)} (h : (key, b) ∈ entries) : sizeOf b < sizeOf entries := by
  have := List.sizeOf_lt_of_mem h
  rw [Prod.mk.sizeOf_spec] at this
  omega

end Entries

namespace Json

lemma child?_lt {name : Text} {v child : Json} (h : v.child? name = some child) :
    sizeOf child < sizeOf v := by
  unfold child? at h
  split at h
  · have := Entries.sizeOf_lt_of_mem (Entries.mem_of_last? h)
    rw [object.sizeOf_spec]
    omega
  · simp at h

lemma items?_lt {v item : Json} {items : List Json} (h : v.items? = some items)
    (hi : item ∈ items) : sizeOf item < sizeOf v := by
  unfold items? at h
  split at h
  · obtain rfl := Option.some.inj h
    have := List.sizeOf_lt_of_mem hi
    simp only [list.sizeOf_spec]
    omega
  · simp at h

lemma sized : context.Sized sizeOf where
  member_lt := child?_lt
  item_lt := items?_lt
  members_finite node := by
    cases node with
    | object members => exact Entries.finite_last? members
    | _ => simp [context, child?]

/-- A JSON document has finitely many nodes, and no lambdas. -/
theorem finitelyMany (root : Json) :
    (Document.ofValue context root).context.FinitelyMany [] ∧
      (Document.ofValue context root).context.LambdaFree [] :=
  ⟨sized.finitelyMany root, Context.LambdaFree.located fun _ _ => rfl⟩

end Json

namespace Yaml

lemma mem_of_mem_members {entries : List (Yaml × Yaml)} {name : Text} {v : Yaml}
    (h : (name, v) ∈ members entries) : (text name, v) ∈ entries := by
  induction entries with
  | nil => simp [members] at h
  | cons e rest ih =>
    unfold members at h
    split at h
    · simp at h
    · rename_i heq
      obtain ⟨rfl, rfl⟩ := List.cons.inj heq
      rcases List.mem_cons.mp h with h | h
      · obtain ⟨rfl, rfl⟩ := Prod.mk.inj h
        exact List.mem_cons_self
      · exact List.mem_cons_of_mem _ (ih h)
    · rename_i heq
      obtain ⟨rfl, rfl⟩ := List.cons.inj heq
      exact List.mem_cons_of_mem _ (ih h)

lemma child?_lt {name : Text} {v child : Yaml} (h : v.child? name = some child) :
    sizeOf child < sizeOf v := by
  fun_induction child? name v with
  | case1 entries =>
    have := Entries.sizeOf_lt_of_mem (mem_of_mem_members (Entries.mem_of_last? h))
    rw [mapping.sizeOf_spec]
    omega
  | case2 tag v ih =>
    have := ih h
    simp only [tagged.sizeOf_spec]
    omega
  | case3 => simp at h

lemma items?_lt {v item : Yaml} {items : List Yaml} (h : v.items? = some items)
    (hi : item ∈ items) : sizeOf item < sizeOf v := by
  fun_induction items? v with
  | case1 xs =>
    obtain rfl := Option.some.inj h
    have := List.sizeOf_lt_of_mem hi
    simp only [list.sizeOf_spec]
    omega
  | case2 tag v ih =>
    have := ih h
    simp only [tagged.sizeOf_spec]
    omega
  | case3 => simp at h

lemma members_finite (v : Yaml) : {name | (v.child? name).isSome}.Finite := by
  fun_induction items? v with
  | case1 => simp [child?]
  | case2 tag v ih => simpa [child?] using ih
  | case3 v =>
    cases v with
    | mapping entries => exact Entries.finite_last? (members entries)
    | tagged tag v => simp_all
    | _ => simp [child?]

lemma sized : context.Sized sizeOf where
  member_lt := child?_lt
  item_lt := items?_lt
  members_finite := members_finite

/-- A YAML document has finitely many nodes, and no lambdas. -/
theorem finitelyMany (root : Yaml) :
    (Document.ofValue context root).context.FinitelyMany [] ∧
      (Document.ofValue context root).context.LambdaFree [] :=
  ⟨sized.finitelyMany root, Context.LambdaFree.located fun _ _ => rfl⟩

end Yaml

namespace Value

lemma child?_lt {name : Text} {v child : Value} (h : v.child? name = some child) :
    sizeOf child < sizeOf v := by
  unfold child? at h
  split at h
  · have := Entries.sizeOf_lt_of_mem (Entries.mem_of_last? h)
    rw [mapping.sizeOf_spec]
    omega
  · simp at h

lemma items?_lt {v item : Value} {items : List Value} (h : v.items? = some items)
    (hi : item ∈ items) : sizeOf item < sizeOf v := by
  unfold items? at h
  split at h
  · obtain rfl := Option.some.inj h
    have := List.sizeOf_lt_of_mem hi
    simp only [list.sizeOf_spec]
    omega
  · simp at h

lemma sized : context.Sized sizeOf where
  member_lt := child?_lt
  item_lt := items?_lt
  members_finite node := by
    cases node with
    | mapping members => exact Entries.finite_last? members
    | _ => simp [context, child?]

/-- A value in memory has finitely many nodes, and no lambdas if nothing in it is callable. -/
theorem finitelyMany (root : Value) :
    (Document.ofValue context root).context.FinitelyMany [] ∧
      (context.LambdaFree root → (Document.ofValue context root).context.LambdaFree []) :=
  ⟨sized.finitelyMany root, Context.LambdaFree.located⟩

end Value

namespace Table

/-- The numbers that a node names others by. -/
def Node.numbers (n : Node) : List Nat :=
  n.members.map Prod.snd ++ n.items?.getD []

lemma mem_of_node? {t : Table} {place : Location} {n : Node} (h : t.node? place = some n) :
    n ∈ t.nodes := by
  unfold node? at h
  split at h
  · exact List.mem_of_getElem? h
  · simp at h

lemma location_mem {t : Table} {place : Location} {n : Node} {number : Nat}
    (h : t.node? place = some n) (hn : number ∈ n.numbers) :
    location number ∈ (t.nodes.flatMap Node.numbers).map location :=
  List.mem_map_of_mem (List.mem_flatMap.mpr ⟨n, mem_of_node? h, hn⟩)

/-- A table has finitely many nodes, wherever it is entered. -/
theorem finitelyMany (t : Table) (root : Location) : t.context.FinitelyMany root := by
  apply (root :: (t.nodes.flatMap Node.numbers).map location).finite_toSet.subset
  intro place h
  cases h with
  | root => exact List.mem_cons_self
  | @member place _ name _ hc =>
    obtain ⟨n, hn, hm⟩ := Option.bind_eq_some_iff.mp hc
    obtain ⟨number, hl, rfl⟩ := Option.map_eq_some_iff.mp hm
    obtain ⟨l₁, l₂, he, -⟩ := List.lookup_eq_some_iff.mp hl
    refine List.mem_cons_of_mem _ (location_mem hn (List.mem_append_left _ ?_))
    exact List.mem_map.mpr ⟨(name, number), by simp [he], rfl⟩
  | @item place _ places _ hi hm =>
    obtain ⟨n, hn, hi⟩ := Option.bind_eq_some_iff.mp hi
    obtain ⟨items, hl, rfl⟩ := Option.map_eq_some_iff.mp hi
    obtain ⟨number, hnum, rfl⟩ := List.mem_map.mp hm
    refine List.mem_cons_of_mem _ (location_mem hn (List.mem_append_right _ ?_))
    simpa [hl] using hnum

end Table
end Mustache.Data
