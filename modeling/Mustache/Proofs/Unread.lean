import Mustache.Proofs.Hidden
import Mustache.Proofs.Untagged

/-! Unread members. A document of any kind renders as it does without its members of a name that no
template asks for, however many mappings have such members and whatever these hold. -/
namespace Mustache.Data

namespace Entries

variable {κ α β : Type} [DecidableEq κ]

/-- Entries of a key are dropped, and the values of others are mapped. -/
def mapWithout (dropped : κ) (f : α → β) (entries : List (κ × α)) : List (κ × β) :=
  (entries.filter (·.1 ≠ dropped)).map fun (k, a) => (k, f a)

lemma last?_filter_ne (key dropped : κ) (entries : List (κ × α)) :
    last? key (entries.filter (·.1 ≠ dropped)) =
      if key = dropped then none else last? key entries := by
  induction entries with
  | nil => simp [last?]
  | cons e rest ih =>
    obtain ⟨k, a⟩ := e
    by_cases hk : k = dropped
    · rw [List.filter_cons_of_neg (by simpa using hk), ih]
      by_cases hd : key = dropped
      · rw [if_pos hd, if_pos hd]
      · have hne : k ≠ key := fun h => hd (h ▸ hk)
        rw [if_neg hd, if_neg hd, last?, if_neg hne]
        cases last? key rest <;> rfl
    · rw [List.filter_cons_of_pos (by simpa using hk), last?, ih]
      by_cases hd : key = dropped
      · have hne : k ≠ key := fun h => hk (h.trans hd)
        rw [if_pos hd, if_pos hd, if_neg hne]
      · rw [if_neg hd, if_neg hd, last?]

lemma last?_mapWithout (key dropped : κ) (f : α → β) (entries : List (κ × α)) :
    last? key (mapWithout dropped f entries) =
      (if key = dropped then none else last? key entries).map f := by
  rw [mapWithout, last?_map, last?_filter_ne]

/-- What goes through entries one by one and drops those of a key comes to that. -/
theorem eq_mapWithout_of_cons {dropped : κ} {f : α → β} {g : List (κ × α) → List (κ × β)}
    (hnil : g [] = [])
    (hcons : ∀ k a rest, g ((k, a) :: rest) = if k = dropped then g rest else (k, f a) :: g rest)
    (entries : List (κ × α)) : g entries = mapWithout dropped f entries := by
  induction entries with
  | nil => exact hnil
  | cons e rest ih =>
    obtain ⟨k, a⟩ := e
    by_cases hk : k = dropped <;> simp [hcons, mapWithout, hk, ih]

lemma last?_of_cons {dropped : κ} {f : α → β} {g : List (κ × α) → List (κ × β)} (hnil : g [] = [])
    (hcons : ∀ k a rest, g ((k, a) :: rest) = if k = dropped then g rest else (k, f a) :: g rest)
    (key : κ) (entries : List (κ × α)) :
    last? key (g entries) = (if key = dropped then none else last? key entries).map f := by
  rw [eq_mapWithout_of_cons hnil hcons, last?_mapWithout]

end Entries

namespace Json

mutual

/-- A document without its members of a name. -/
def without (name : Text) : Json → Json
  | list items => list (itemsWithout name items)
  | object members => object (membersWithout name members)
  | v => v

def itemsWithout (name : Text) : List Json → List Json
  | [] => []
  | v :: vs => v.without name :: itemsWithout name vs

def membersWithout (name : Text) : List (Text × Json) → List (Text × Json)
  | [] => []
  | (k, v) :: rest =>
    if k = name then membersWithout name rest
    else (k, v.without name) :: membersWithout name rest

end

lemma carries_without (name : Text) (v : Json) :
    Context.Carries (context.lacking name) context (without name) v where
  child? other := by
    cases v with
    | object members =>
      exact Entries.last?_of_cons (g := membersWithout name) rfl (fun _ _ _ => rfl) other members
    | _ => simp [context, Context.lacking, without, child?]
  children? := by
    cases v with
    | list items => exact congrArg some (eq_map_of_cons rfl (fun _ _ => rfl) items)
    | _ => rfl
  value := by cases v <;> rfl
  falsy := by cases v <;> rfl
  isBool _ := by cases v <;> rfl
  lambda? := rfl

end Json

namespace Value

mutual

/-- A value without its members of a name. -/
def without (name : Text) : Value → Value
  | list items => list (itemsWithout name items)
  | mapping members => mapping (membersWithout name members)
  | v => v

def itemsWithout (name : Text) : List Value → List Value
  | [] => []
  | v :: vs => v.without name :: itemsWithout name vs

def membersWithout (name : Text) : List (Text × Value) → List (Text × Value)
  | [] => []
  | (k, v) :: rest =>
    if k = name then membersWithout name rest
    else (k, v.without name) :: membersWithout name rest

end

lemma carries_without (name : Text) (v : Value) :
    Context.Carries (context.lacking name) context (without name) v where
  child? other := by
    cases v with
    | mapping members =>
      exact Entries.last?_of_cons (g := membersWithout name) rfl (fun _ _ _ => rfl) other members
    | _ => simp [context, Context.lacking, without, child?]
  children? := by
    cases v with
    | list items => exact congrArg some (eq_map_of_cons rfl (fun _ _ => rfl) items)
    | _ => rfl
  value := by cases v <;> rfl
  falsy := by cases v <;> rfl
  isBool _ := by cases v <;> rfl
  lambda? := by cases v <;> rfl

end Value

namespace Yaml

mutual

/-- A document without its members of a name. A member has an untagged text for its key; keys that
are documents themselves lose such members as well. -/
def without (name : Text) : Yaml → Yaml
  | list items => list (itemsWithout name items)
  | mapping entries => mapping (entriesWithout name entries)
  | tagged tag v => tagged tag (v.without name)
  | v => v

def itemsWithout (name : Text) : List Yaml → List Yaml
  | [] => []
  | v :: vs => v.without name :: itemsWithout name vs

def entriesWithout (name : Text) : List (Yaml × Yaml) → List (Yaml × Yaml)
  | [] => []
  | (text k, v) :: rest =>
    if k = name then entriesWithout name rest
    else (text k, v.without name) :: entriesWithout name rest
  | (k, v) :: rest => (k.without name, v.without name) :: entriesWithout name rest

end

lemma members_entriesWithout (name : Text) (entries : List (Yaml × Yaml)) :
    members (entriesWithout name entries) =
      Entries.mapWithout name (without name) (members entries) := by
  induction entries with
  | nil => rfl
  | cons e rest ih =>
    obtain ⟨k, v⟩ := e
    cases k with
    | text k =>
      by_cases hk : k = name <;> simp [entriesWithout, members, Entries.mapWithout, hk, ih]
    | _ => simp [entriesWithout, without, members, ih]

lemma child?_without (name other : Text) (v : Yaml) :
    (v.without name).child? other =
      (if other = name then none else v.child? other).map (without name) := by
  fun_induction child? other v with
  | case1 entries => rw [without, child?, members_entriesWithout, Entries.last?_mapWithout]
  | case2 tag v ih =>
    rw [without, child?]
    exact ih
  | case3 v => cases v <;> simp_all [without, child?]

lemma items?_without (name : Text) (v : Yaml) :
    (v.without name).items? = v.items?.map (List.map (without name)) := by
  fun_induction items? v with
  | case1 items => exact congrArg some (eq_map_of_cons rfl (fun _ _ => rfl) items)
  | case2 tag v ih =>
    rw [without, items?]
    exact ih
  | case3 v => cases v <;> simp_all [without, items?]

lemma value_without (name : Text) (v : Yaml) : (v.without name).value = v.value := by
  fun_induction value v with
  | case4 tag v ih =>
    rw [without, value]
    exact ih
  | case5 v => cases v <;> simp_all [without, value]
  | _ => rfl

lemma falsy_without (name : Text) (v : Yaml) : (v.without name).falsy = v.falsy := by
  fun_induction falsy v with
  | case3 tag v ih =>
    rw [without, falsy]
    exact ih
  | case4 v => cases v <;> simp_all [without, falsy]
  | _ => rfl

lemma carries_without (name : Text) (v : Yaml) :
    Context.Carries (context.lacking name) context (without name) v where
  child? other := child?_without name other v
  children? := items?_without name v
  value := value_without name v
  falsy := falsy_without name v
  isBool _ := by cases v <;> rfl
  lambda? := rfl

end Yaml
end Mustache.Data

namespace Mustache

open Data

/-- Values render the same if they are written the same without members of a name that nothing asks
for. -/
theorem Template.renderOn_eq_of_write_eq {t : Template} (ht : t.Compiled) {store? : Option Store}
    (hs : ∀ store ∈ store?, store.Compiled) {name : Text} (hn : ¬ t.AsksFor name)
    (hns : ∀ store ∈ store?, ∀ entry ∈ store.entries, ¬ entry.2.AsksFor name) (depth : Nat)
    {α : Type} {C : Context α} {write : α → α}
    (hwrite : ∀ v, Context.Carries (C.lacking name) C write v) {v w : α} (hv : C.LambdaFree v)
    (hw : C.LambdaFree w) (h : write v = write w) :
    t.renderOn store? depth (.ofValue C v) = t.renderOn store? depth (.ofValue C w) := by
  have hwritten {u : α} (hu : C.LambdaFree u) :
      t.renderOn store? depth (.ofValue C (write u)) = t.renderOn store? depth (.ofValue C u) :=
    calc
      _ = t.renderOn store? depth (.ofValue (C.lacking name) u) :=
        renderOn_of_carries (fun v _ => hwrite v) t store? depth
      _ = _ := renderOn_lacking hu ht hs hn hns depth
  rw [← hwritten hv, h, hwritten hw]

/-- Rendering sees only the members that templates ask for. Documents of any kind that are the same
without their members of some name render the same, if the template and those of the store do not
ask for that name. -/
theorem Template.renderOn_eq_of_without_eq {t : Template} (ht : t.Compiled) {store? : Option Store}
    (hs : ∀ store ∈ store?, store.Compiled) {name : Text} (hn : ¬ t.AsksFor name)
    (hns : ∀ store ∈ store?, ∀ entry ∈ store.entries, ¬ entry.2.AsksFor name) (depth : Nat) :
    (∀ v w : Json, v.without name = w.without name →
      t.renderOn store? depth (.ofValue Json.context v) =
        t.renderOn store? depth (.ofValue Json.context w)) ∧
    (∀ v w : Yaml, v.without name = w.without name →
      t.renderOn store? depth (.ofValue Yaml.context v) =
        t.renderOn store? depth (.ofValue Yaml.context w)) ∧
    ∀ v w : Value, Value.context.LambdaFree v → Value.context.LambdaFree w →
      v.without name = w.without name →
      t.renderOn store? depth (.ofValue Value.context v) =
        t.renderOn store? depth (.ofValue Value.context w) := by
  refine ⟨fun v w h => ?_, fun v w h => ?_, fun v w hv hw h => ?_⟩
  · exact renderOn_eq_of_write_eq ht hs hn hns depth (Json.carries_without name) (fun _ _ => rfl)
      (fun _ _ => rfl) h
  · exact renderOn_eq_of_write_eq ht hs hn hns depth (Yaml.carries_without name) (fun _ _ => rfl)
      (fun _ _ => rfl) h
  · exact renderOn_eq_of_write_eq ht hs hn hns depth (Value.carries_without name) hv hw h

/-- Data gains a member at its root and one below, and both documents have a template included under
an item. -/
theorem Template.renderOn_eq_of_without_eq_included :
    let p : Template := ⟨['{', '{', 'b', '}', '}'], [.value ['b'] true]⟩
    let source : Text := ['{', '{', '>', 'p', '}', '}']
    let t : Template :=
      ⟨['{', '{', '#', 'a', '}', '}'] ++ source ++ ['{', '{', '/', 'a', '}', '}'],
        [.block false ['a'] source .braces [.inclusion ['p'] []]]⟩
    let v : Json := .object [(['a'], .list [.object [(['b'], .text ['<'])]])]
    let w : Json := .object [(['k'], .object [(['a'], .null)]),
      (['a'], .list [.object [(['b'], .text ['<']), (['k'], .bool false)]])]
    let store := Store.empty.insert ['p'] p
    t.Compiled ∧ store.Compiled ∧ v.without ['k'] = w.without ['k'] ∧
      t.renderOn (some store) 2 (.ofValue Json.context v) =
        t.renderOn (some store) 2 (.ofValue Json.context w) ∧
      (t.renderOn (some store) 2 (.ofValue Json.context w)).result = .ok ['&', 'l', 't', ';'] := by
  intro p source t v w store
  have ht : t.Compiled := by decide +kernel
  have hentry : ∀ entry ∈ store.entries, entry.2 = p := by simp [store, Store.insert, Store.empty]
  have hs : store.Compiled := by
    intro entry he
    rw [hentry entry he]
    decide +kernel
  have hvw : v.without ['k'] = w.without ['k'] := by rfl
  refine ⟨ht, hs, hvw, ?_, by decide +kernel⟩
  refine (renderOn_eq_of_without_eq ht ?_ (by decide) ?_ 2).1 v w hvw
  · rintro _ ⟨⟩
    exact hs
  · rintro _ ⟨⟩ entry he
    rw [hentry entry he]
    decide

end Mustache
