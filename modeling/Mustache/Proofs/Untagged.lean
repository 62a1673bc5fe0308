import Mustache.Proofs.Carried
import Mustache.Proofs.FiniteData

/-! Tags of YAML documents. A tag is looked through wherever a template looks, unless it stands over
`true`: a boolean without a tag is never a context of its own, and one with a tag is. -/
namespace Mustache.Data

namespace Entries

lemma last?_map {κ α β : Type} [DecidableEq κ] (f : α → β) (key : κ) (entries : List (κ × α)) :
    last? key (entries.map fun (k, a) => (k, f a)) = (last? key entries).map f := by
  induction entries with
  | nil => rfl
  | cons e rest ih =>
    obtain ⟨k, a⟩ := e
    rw [List.map_cons, last?, last?, ih]
    cases last? key rest with
    | some b => rfl
    | none => by_cases hk : k = key <;> simp [hk]

end Entries

namespace Yaml

mutual

/-- A document without tags, other than a blank one over each value that keeps one. Keys are left as
they are. -/
def untag (keeps : Yaml → Bool) : Yaml → Yaml
  | list items => list (untagItems keeps items)
  | mapping entries => mapping (untagEntries keeps entries)
  | tagged _ v => if keeps (v.untag keeps) then tagged [] (v.untag keeps) else v.untag keeps
  | v => v

def untagItems (keeps : Yaml → Bool) : List Yaml → List Yaml
  | [] => []
  | v :: vs => v.untag keeps :: untagItems keeps vs

def untagEntries (keeps : Yaml → Bool) : List (Yaml × Yaml) → List (Yaml × Yaml)
  | [] => []
  | (k, v) :: rest => (k, v.untag keeps) :: untagEntries keeps rest

end

/-- A document without any tags on its values. -/
def untagged : Yaml → Yaml :=
  untag fun _ => false

/-- A document without tags on its values, other than a blank one over each tagged `true`. -/
def untaggedButTrue : Yaml → Yaml :=
  untag fun
    | bool b => b
    | _ => false

/-- Whether a value is `true`, whatever tags it has. -/
def isTrue : Yaml → Bool
  | bool b => b
  | tagged _ v => v.isTrue
  | _ => false

variable {keeps : Yaml → Bool}

lemma members_untagEntries (entries : List (Yaml × Yaml)) :
    members (untagEntries keeps entries) =
      (members entries).map fun (name, v) => (name, v.untag keeps) := by
  induction entries with
  | nil => rfl
  | cons e rest ih =>
    obtain ⟨k, v⟩ := e
    cases k <;> simp [untagEntries, members, ih]

lemma child?_untag (name : Text) (v : Yaml) :
    (v.untag keeps).child? name = (v.child? name).map (untag keeps) := by
  fun_induction child? name v with
  | case1 entries => rw [untag, child?, members_untagEntries, Entries.last?_map]
  | case2 tag v ih =>
    rw [untag]
    split
    · exact ih
    · exact ih
  | case3 v =>
    cases v <;> simp_all [untag, child?]

lemma items?_untag (v : Yaml) :
    (v.untag keeps).items? = v.items?.map (List.map (untag keeps)) := by
  fun_induction items? v with
  | case1 items => exact congrArg some (eq_map_of_cons rfl (fun _ _ => rfl) items)
  | case2 tag v ih =>
    rw [untag]
    split
    · exact ih
    · exact ih
  | case3 v => cases v <;> simp_all [untag, items?]

lemma value_untag (v : Yaml) : (v.untag keeps).value = v.value := by
  fun_induction value v with
  | case4 tag v ih =>
    rw [untag]
    split
    · exact ih
    · exact ih
  | case5 v => cases v <;> simp_all [untag, value]
  | _ => rfl

lemma falsy_untag (v : Yaml) : (v.untag keeps).falsy = v.falsy := by
  fun_induction falsy v with
  | case3 tag v ih =>
    rw [untag]
    split
    · exact ih
    · exact ih
  | case4 v => cases v <;> simp_all [untag, falsy]
  | _ => rfl

lemma isTrue_untag (v : Yaml) : (v.untag keeps).isTrue = v.isTrue := by
  fun_induction isTrue v with
  | case2 tag v ih =>
    rw [untag]
    split
    · exact ih
    · exact ih
  | case3 v => cases v <;> simp_all [untag, isTrue]
  | _ => rfl

/-- A value that is not falsy is as much a boolean as before, if a tag over `true` is kept. -/
theorem isBool_untag {v : Yaml} (hf : v.falsy = false)
    (h : ∀ tag w, v = tagged tag w → w.isTrue = true → keeps (bool true) = true) :
    (v.untag keeps).isBool = v.isBool := by
  cases v with
  | tagged tag w =>
    rw [untag]
    split
    · rfl
    · rename_i hk
      cases hw : w.untag keeps with
      | bool b =>
        have hb : b = true := by
          have hfalsy : (bool b).falsy = false := hw ▸ (falsy_untag w).trans hf
          cases b
          · simp [falsy] at hfalsy
          · rfl
        have htrue : w.isTrue = true := calc
          w.isTrue = (w.untag keeps).isTrue := (isTrue_untag w).symm
          _ = true := by rw [hw, hb]; rfl
        rw [hw, hb] at hk
        exact absurd (h tag w rfl htrue) hk
      | _ => rfl
  | _ => rfl

lemma carries_untag {v : Yaml}
    (h : ∀ tag w, v = tagged tag w → w.isTrue = true → keeps (bool true) = true) :
    Context.Carries context context (untag keeps) v where
  child? name := child?_untag name v
  children? := items?_untag v
  value := value_untag v
  falsy := falsy_untag v
  isBool hf := isBool_untag hf h
  lambda? := rfl

/-- Tags make no difference to a render, other than those over `true`, and there only that there is
one. -/
theorem renderOn_untag (t : Template) (store? : Option Store) (depth : Nat) (v : Yaml) :
    ((∀ tag w, context.Reaches v (.tagged tag w) → w.isTrue = false) →
      t.renderOn store? depth (.ofValue context v.untagged) =
        t.renderOn store? depth (.ofValue context v)) ∧
      t.renderOn store? depth (.ofValue context v.untaggedButTrue) =
        t.renderOn store? depth (.ofValue context v) := by
  constructor
  · intro h
    apply Template.renderOn_of_carries
    intro w hw
    apply carries_untag
    rintro tag u rfl hu
    rw [h tag u hw] at hu
    simp at hu
  · apply Template.renderOn_of_carries
    intro w hw
    apply carries_untag
    intro tag u hu htrue
    rfl

/-- A list with tags at every level, none of them over `true`. -/
theorem renderOn_untag_nested :
    let item : Yaml := .tagged ['!', 'i'] (.tagged ['!', 'j'] (.bool false))
    let v : Yaml := .tagged ['!', 'd'] (.tagged ['!', 'e'] (.list [item]))
    let t : Template :=
      ⟨['{', '{', '#', '.', '}', '}', '{', '{', '.', '}', '}', '{', '{', '/', '.', '}', '}'],
        [.block false ['.'] ['{', '{', '.', '}', '}'] .braces [.value ['.'] true]]⟩
    (∀ tag w, context.Reaches v (.tagged tag w) → w.isTrue = false) ∧
      v.untagged = .list [.bool false] ∧
      t.renderOn none 1 (.ofValue context v.untagged) =
        t.renderOn none 1 (.ofValue context v) ∧
      (t.renderOn none 1 (.ofValue context v)).result = .ok ['f', 'a', 'l', 's', 'e'] := by
  intro item v t
  have hv : ∀ w, context.Reaches v w → w = v ∨ w = item := by
    intro w hw
    induction hw with
    | root => exact .inl rfl
    | member hn hc ih => rcases ih with rfl | rfl <;> simp [v, item, context, child?] at hc
    | item hn hi hm ih =>
      rcases ih with rfl | rfl
      · obtain rfl := Option.some.inj hi
        exact .inr (List.mem_singleton.mp hm)
      · simp [item, context, items?] at hi
  have h : ∀ tag w, context.Reaches v (.tagged tag w) → w.isTrue = false := by
    intro tag w hw
    rcases hv _ hw with h | h <;> obtain ⟨-, rfl⟩ := by simpa [v, item] using h
    · rfl
    · rfl
  exact ⟨h, rfl, (renderOn_untag t none 1 v).1 h, by decide +kernel⟩

/-- A tag over `true` shows: the boolean becomes the context of its section. -/
theorem renderOn_untagged_ne :
    let v : Yaml := .mapping [(.text ['b'], .tagged ['!', 't'] (.bool true))]
    let t : Template :=
      ⟨['{', '{', '#', 'b', '}', '}', '{', '{', '.', '}', '}', '{', '{', '/', 'b', '}', '}'],
        [.block false ['b'] ['{', '{', '.', '}', '}'] .braces [.value ['.'] true]]⟩
    Template.compile t.source = .ok t ∧ v.untagged = .mapping [(.text ['b'], .bool true)] ∧
      (t.renderOn none 1 (.ofValue context v)).result = .ok ['t', 'r', 'u', 'e'] ∧
      (t.renderOn none 1 (.ofValue context v.untagged)).result = .ok [] := by
  intro v t
  exact ⟨by decide +kernel, rfl, by decide +kernel, by decide +kernel⟩

end Yaml
end Mustache.Data
