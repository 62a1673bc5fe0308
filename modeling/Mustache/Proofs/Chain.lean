import Mathlib.Data.List.Perm.Subperm
import Mathlib.Logic.Relation
import Mustache.Proofs.Termination

/-! Chains of inclusions: names whose templates include one another. Where no name leads back to
itself, chains are no longer than the store, and no render over data without lambdas fails. -/
namespace Mustache

open Data Text

namespace Part

/-- The names that parts include. -/
def names (parts : List Part) : List Text :=
  (inclusions parts).map Prod.fst

lemma names_append (ps qs : List Part) : names (ps ++ qs) = names ps ++ names qs := by
  rw [names, inclusions_append, List.map_append, names, names]

mutual

lemma names_outlinePart (f : Text → Text) : (part : Part) →
    names (outlinePart f part) = names [part]
  | .block _ _ _ _ children => by
    rw [outlinePart, names, inclusions_block_cons, List.map_append, names, inclusions_block_cons,
      List.map_append]
    exact congrArg (· ++ _) (names_outline f children)
  | .literal _ | .value _ _ | .inclusion _ _ | .switch _ => rfl

/-- Parts with the same outline include the same names. -/
theorem names_outline (f : Text → Text) : (parts : List Part) →
    names (outline f parts) = names parts
  | [] => rfl
  | part :: parts => by
    rw [outline, names_append, names_outlinePart f part, names_outline f parts, ← names_append,
      List.singleton_append]

end
end Part

/-- An indented template includes the same names as before. -/
theorem Template.Compiled.names_indented {t u : Template} (ht : t.Compiled) {indent : Text}
    (hi : Blank indent) (hu : t.indented indent = .ok u) :
    Part.names u.parts = Part.names t.parts := by
  rw [← Part.names_outline id u.parts, ht.outline_indented hi hu, Part.names_outline]

namespace Store

variable {store : Store} {parts : List Part} {x y : Text} {t : Template}

lemma mem_entries_of_get? (ht : store.get? x = some t) : (x, t) ∈ store.entries := by
  obtain ⟨l₁, l₂, he, -⟩ := List.lookup_eq_some_iff.mp ht
  rw [he]
  exact List.mem_append_right l₁ List.mem_cons_self

lemma Compiled.template (h : store.Compiled) (ht : store.get? x = some t) : t.Compiled :=
  h (x, t) (mem_entries_of_get? ht)

/-- The template of one name includes another name. -/
def Includes (store : Store) (x y : Text) : Prop :=
  ∃ t, store.get? x = some t ∧ y ∈ Part.names t.parts

/-- No name that is reached from some parts leads back to itself. -/
def AcyclicFrom (store : Store) (parts : List Part) : Prop :=
  ∀ x ∈ Part.names parts, ∀ y, Relation.ReflTransGen store.Includes x y →
    ¬ Relation.TransGen store.Includes y y

lemma AcyclicFrom.template (h : store.AcyclicFrom parts) (hx : x ∈ Part.names parts)
    (ht : store.get? x = some t) : store.AcyclicFrom t.parts := by
  intro y hy z hz
  exact h x hx z (.head ⟨t, ht, hy⟩ hz)

/-- If every inclusion leads to something less, no name leads back to itself. -/
theorem acyclicFrom_of_lt (rank : Text → Nat)
    (h : ∀ x y, store.Includes x y → rank y < rank x) : store.AcyclicFrom parts := by
  intro x _ y _ hy
  have hlt : ∀ {a b}, Relation.TransGen store.Includes a b → rank b < rank a := by
    intro a b hab
    induction hab with
    | single hab => exact h _ _ hab
    | tail _ hbc ih => exact (h _ _ hbc).trans ih
  exact lt_irrefl _ (hlt hy)

/-- Names each of which is included by the template of the one before, and the first of them by
some parts. -/
def Chain (store : Store) : List Part → List Text → Prop
  | _, [] => True
  | parts, x :: xs => x ∈ Part.names parts ∧ ∃ t, store.get? x = some t ∧ Chain store t.parts xs

lemma chain_congr {ps qs : List Part} (h : Part.names ps = Part.names qs) (xs : List Text) :
    store.Chain ps xs ↔ store.Chain qs xs := by
  cases xs with
  | nil => exact Iff.rfl
  | cons x xs => rw [Chain, Chain, h]

namespace Chain

variable {xs : List Text}

lemma mem_names (h : store.Chain parts xs) : ∀ x ∈ xs, x ∈ store.names := by
  induction xs generalizing parts with
  | nil => simp
  | cons x xs ih =>
    obtain ⟨-, t, ht, hrest⟩ := h
    rw [List.forall_mem_cons]
    exact ⟨(store.get?_isSome_iff x).mp (by simp [ht]), ih hrest⟩

lemma reaches (h : store.Chain parts xs) :
    ∀ y ∈ xs, ∃ x ∈ Part.names parts, Relation.ReflTransGen store.Includes x y := by
  induction xs generalizing parts with
  | nil => simp
  | cons x xs ih =>
    obtain ⟨hx, t, ht, hrest⟩ := h
    rw [List.forall_mem_cons]
    refine ⟨⟨x, hx, .refl⟩, fun y hy => ?_⟩
    obtain ⟨z, hz, hzy⟩ := ih hrest y hy
    exact ⟨x, hx, .head ⟨t, ht, hz⟩ hzy⟩

lemma nodup (h : store.Chain parts xs) (ha : store.AcyclicFrom parts) : xs.Nodup := by
  induction xs generalizing parts with
  | nil => exact .nil
  | cons x xs ih =>
    obtain ⟨hx, t, ht, hrest⟩ := h
    refine List.nodup_cons.mpr ⟨fun hmem => ?_, ih hrest (ha.template hx ht)⟩
    -- a name that comes back further down is reached from its own template
    obtain ⟨z, hz, hzx⟩ := hrest.reaches x hmem
    exact ha x hx x .refl (.head' ⟨t, ht, hz⟩ hzx)

/-- A chain that does not come back to a name holds each name of the store at most once. -/
theorem length_le (h : store.Chain parts xs) (ha : store.AcyclicFrom parts) :
    xs.length ≤ store.size := by
  rw [← store.length_names]
  exact ((h.nodup ha).subperm h.mem_names).length_le

end Chain
end Store

variable {ν : Type}

namespace Setting

lemma IsPath.chain {env : Setting ν} {store : Store} (hs : env.store? = some store)
    {s : Stack ν} {parts : List Part} {os : List (Opening ν)} (h : env.IsPath s parts os) :
    store.Chain parts (os.map Opening.name) := by
  induction os generalizing s parts with
  | nil => trivial
  | cons o os ih =>
    obtain ⟨v, hv, hname, -, ht⟩ := mem_openings_iff.mp h.1
    rw [Setting.template?, hs] at ht
    have hmem := List.mem_map_of_mem (f := Prod.fst) (mem_inclusions_of_visits parts hv)
    exact ⟨hname ▸ hmem, o.template, ht, ih h.2⟩

/-- What stops short is told by a path that is too long or that is not let pass. -/
theorem Stops.exists_text {env : Setting ν} {passes : List (Opening ν) → Prop} {depth : Nat}
    {s : Stack ν} {parts : List Part} {x : Except Stop Text}
    (h : env.Stops passes depth s parts (stop? x))
    (hp : ∀ os, env.IsPath s parts os → os.length < depth ∧ passes os) : ∃ text, x = .ok text := by
  have hdeep : x ≠ .error .tooDeep := by
    rintro rfl
    obtain ⟨os, hos, hlength, -⟩ := h
    exact absurd hlength (hp os hos).1.ne
  rcases h.text_or_cycle hdeep with ht | ⟨chain, rfl⟩
  · exact ht
  · obtain ⟨os, hos, hnot⟩ := h
    exact absurd (hp os hos).2 hnot

end Setting

lemma fresh_of_nodup_names {os : List (Opening ν)} (h : (os.map Opening.name).Nodup) :
    Fresh [] os := by
  refine ⟨by simp, .of_map Prod.fst ?_⟩
  rwa [List.map_map]

/-- Where no name leads back to itself, no render fails. -/
theorem Template.exists_text_of_acyclic [DecidableEq ν] {t : Template} (ht : t.Compiled)
    {store : Store} (hs : store.Compiled) (ha : store.AcyclicFrom t.parts) {C : Context ν}
    {root : ν} (hf : C.LambdaFree root) (earlier : List (Call ν)) {depth : Nat}
    (hd : store.size < depth) :
    ∃ text, (t.render ⟨C, some store, earlier⟩ depth root).result = .ok text := by
  have hc : Setting.Compiled ⟨C, some store, earlier⟩ := by
    rintro _ ⟨⟩
    exact hs
  apply (render_stops ht hc hf depth).exists_text
  intro os hos
  have hchain := hos.chain rfl
  have hlength := hchain.length_le ha
  rw [List.length_map] at hlength
  exact ⟨hlength.trans_lt hd, fresh_of_nodup_names (hchain.nodup ha)⟩

end Mustache
