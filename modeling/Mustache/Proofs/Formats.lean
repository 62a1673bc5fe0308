import Mustache.Proofs.Untagged

/-! One document in several formats. What all formats can write, JSON, YAML and values in memory
write differently, and yet render the same. -/
namespace Mustache.Data

/-- A document of the kinds that data formats have in common. Of several members of one name the
last one counts. -/
inductive Plain where
  | null
  | bool (b : Bool)
  | text (t : Text)
  | integer (n : Int)
  | list (items : List Plain)
  | mapping (members : List (Text × Plain))

namespace Plain

def child? (name : Text) : Plain → Option Plain
  | mapping members => Entries.last? name members
  | _ => none

def items? : Plain → Option (List Plain)
  | list items => some items
  | _ => none

def value : Plain → Text
  | text t => t
  | integer n => Decimal.intToText n
  | bool b => (toString b).toList
  | _ => []

def falsy : Plain → Bool
  | null | bool false => true
  | _ => false

def isBool : Plain → Bool
  | bool _ => true
  | _ => false

/-- What a document answers, whatever format it is written in. -/
def context : Context Plain where
  child? v name := v.child? name
  children? := items?
  value := value
  falsy := falsy
  isBool := isBool
  lambda? _ := none

/-- How each kind of value is written in a format. -/
structure Format (α : Type) where
  null : α
  bool : Bool → α
  text : Text → α
  integer : Int → α
  list : List α → α
  mapping : List (Text × α) → α

variable {α : Type}

mutual

/-- A document in a format. -/
def write (F : Format α) : Plain → α
  | null => F.null
  | bool b => F.bool b
  | text t => F.text t
  | integer n => F.integer n
  | list items => F.list (writeItems F items)
  | mapping members => F.mapping (writeMembers F members)

def writeItems (F : Format α) : List Plain → List α
  | [] => []
  | v :: vs => write F v :: writeItems F vs

def writeMembers (F : Format α) : List (Text × Plain) → List (Text × α)
  | [] => []
  | (name, v) :: rest => (name, write F v) :: writeMembers F rest

end

def json : Format Json :=
  ⟨.null, .bool, .text, fun n => .number (.integer n), .list, .object⟩

/-- Mappings have texts for keys, and nothing is tagged. -/
def yaml : Format Yaml :=
  ⟨.null, .bool, .text, fun n => .number (.integer n), .list,
    fun members => .mapping (members.map fun (name, v) => (.text name, v))⟩

/-- Values in memory have binary numbers only, so that an integer is written as the nearest one. -/
def inMemory : Format Value :=
  ⟨.null, .bool, .text, fun n => .number (Decimal.Binary.round (n < 0) n.natAbs 1), .list, .mapping⟩

variable (F : Format α)

lemma writeMembers_eq_map (members : List (Text × Plain)) :
    writeMembers F members = members.map fun (name, v) => (name, write F v) :=
  eq_map_of_cons rfl (fun _ _ => rfl) members

lemma last?_writeMembers (name : Text) (members : List (Text × Plain)) :
    Entries.last? name (writeMembers F members) = (Entries.last? name members).map (write F) := by
  rw [writeMembers_eq_map, Entries.last?_map]

lemma members_text (members : List (Text × Yaml)) :
    Yaml.members (members.map fun (name, v) => (.text name, v)) = members := by
  induction members with
  | nil => rfl
  | cons m rest ih =>
    obtain ⟨name, v⟩ := m
    rw [List.map_cons, Yaml.members, ih]

lemma carries_json (v : Plain) : context.Carries Json.context (write json) v where
  child? name := by
    cases v with
    | mapping members => exact last?_writeMembers json name members
    | _ => rfl
  children? := by
    cases v with
    | list items => exact congrArg some (eq_map_of_cons rfl (fun _ _ => rfl) items)
    | _ => rfl
  value := by cases v <;> rfl
  falsy := by
    cases v with
    | bool b => cases b <;> rfl
    | _ => rfl
  isBool _ := by cases v <;> rfl
  lambda? := rfl

lemma carries_yaml (v : Plain) : context.Carries Yaml.context (write yaml) v where
  child? name := by
    cases v with
    | mapping members =>
      change Entries.last? name (Yaml.members _) = _
      rw [members_text]
      exact last?_writeMembers yaml name members
    | _ => rfl
  children? := by
    cases v with
    | list items => exact congrArg some (eq_map_of_cons rfl (fun _ _ => rfl) items)
    | _ => rfl
  value := by cases v <;> rfl
  falsy := by
    cases v with
    | bool b => cases b <;> rfl
    | _ => rfl
  isBool _ := by cases v <;> rfl
  lambda? := rfl

lemma carries_inMemory {v : Plain} (h : ∀ n, v ≠ .integer n) :
    context.Carries Value.context (write inMemory) v where
  child? name := by
    cases v with
    | mapping members => exact last?_writeMembers inMemory name members
    | _ => rfl
  children? := by
    cases v with
    | list items => exact congrArg some (eq_map_of_cons rfl (fun _ _ => rfl) items)
    | _ => rfl
  value := by
    cases v with
    | integer n => exact absurd rfl (h n)
    | _ => rfl
  falsy := by
    cases v with
    | bool b => cases b <;> rfl
    | _ => rfl
  isBool _ := by cases v <;> rfl
  lambda? := by cases v <;> rfl

/-- A document renders the same from JSON and from YAML, and from memory if it has no integers. -/
theorem renderOn_write (t : Template) (store? : Option Store) (depth : Nat) (d : Plain) :
    t.renderOn store? depth (.ofValue Yaml.context (d.write yaml)) =
        t.renderOn store? depth (.ofValue Json.context (d.write json)) ∧
      ((∀ n, ¬ context.Reaches d (.integer n)) →
        t.renderOn store? depth (.ofValue Value.context (d.write inMemory)) =
          t.renderOn store? depth (.ofValue Json.context (d.write json))) := by
  have hjson : t.renderOn store? depth (.ofValue Json.context (d.write json)) =
      t.renderOn store? depth (.ofValue context d) :=
    Template.renderOn_of_carries (fun v _ => carries_json v) t store? depth
  constructor
  · rw [hjson]
    exact Template.renderOn_of_carries (fun v _ => carries_yaml v) t store? depth
  · intro h
    rw [hjson]
    apply Template.renderOn_of_carries
    intro v hv
    apply carries_inMemory
    rintro n rfl
    exact h n hv

/-- A mapping that includes a template again and again on an item of its own. -/
theorem renderOn_write_cycle :
    let item : Plain := .mapping [(['x'], .bool true)]
    let d : Plain := .mapping [(['a'], .list [item])]
    let again : Text := ['{', '{', '>', 'p', '}', '}']
    let p : Template := ⟨again, [.inclusion ['p'] []]⟩
    let t : Template := ⟨['{', '{', '#', 'a', '}', '}'] ++ again ++ ['{', '{', '/', 'a', '}', '}'],
      [.block false ['a'] again .braces p.parts]⟩
    let store : Store := Store.empty.insert ['p'] p
    (∀ n, ¬ context.Reaches d (.integer n)) ∧
      t.renderOn (some store) 3 (.ofValue Value.context (d.write inMemory)) =
        t.renderOn (some store) 3 (.ofValue Json.context (d.write json)) ∧
      (t.renderOn (some store) 3 (.ofValue Json.context (d.write json))).result =
        .error (.error (.partialCycle [['p'], ['p']])) := by
  intro item d again p t store
  have hd : ∀ v, context.Reaches d v → v = d ∨ v = .list [item] ∨ v = item ∨ v = .bool true := by
    intro v hv
    induction hv with
    | root => exact .inl rfl
    | member hn hc ih =>
      rcases ih with rfl | rfl | rfl | rfl
      · obtain ⟨-, rfl⟩ := by simpa [d, context, child?, Entries.last?] using hc
        exact .inr (.inl rfl)
      · simp [context, child?] at hc
      · obtain ⟨-, rfl⟩ := by simpa [item, context, child?, Entries.last?] using hc
        exact .inr (.inr (.inr rfl))
      · simp [context, child?] at hc
    | item hn hi hm ih =>
      rcases ih with rfl | rfl | rfl | rfl
      · simp [d, context, items?] at hi
      · obtain rfl := Option.some.inj hi
        exact .inr (.inr (.inl (List.mem_singleton.mp hm)))
      · simp [item, context, items?] at hi
      · simp [context, items?] at hi
  have h : ∀ n, ¬ context.Reaches d (.integer n) := by
    intro n hn
    rcases hd _ hn with h | h | h | h <;> simp [d, item] at h
  exact ⟨h, (renderOn_write t (some store) 3 d).2 h, by decide +kernel⟩

end Plain
end Mustache.Data
