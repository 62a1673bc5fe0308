import Mustache.Template

/-! Stores: the templates that inclusions name. -/
namespace Mustache

/-- Templates by name, each name at most once, the latest first. -/
structure Store where
  entries : List (Text × Template)
  names_nodup : (entries.map Prod.fst).Nodup
  deriving DecidableEq, Repr

namespace Store

def empty : Store := ⟨[], .nil⟩

def get? (s : Store) (name : Text) : Option Template :=
  s.entries.lookup name

def size (s : Store) : Nat :=
  s.entries.length

def isEmpty (s : Store) : Bool :=
  s.entries.isEmpty

/-- The names that have a template. -/
def names (s : Store) : List Text :=
  s.entries.map Prod.fst

theorem nodup_insert (s : Store) (name : Text) (t : Template) :
    (((name, t) :: s.entries.filter (·.1 != name)).map Prod.fst).Nodup := by
  rw [List.map_cons, List.nodup_cons]
  constructor
  · simp
  · exact (List.filter_sublist.map Prod.fst).nodup s.names_nodup

/-- Puts a template under a name, in place of the one that may be there. -/
def insert (s : Store) (name : Text) (t : Template) : Store :=
  ⟨(name, t) :: s.entries.filter (·.1 != name), s.nodup_insert name t⟩

/-- Compiles a source and puts it under a name. -/
def load (s : Store) (name source : Text) : Except SyntaxError Store :=
  (Template.compile source).map (s.insert name)

/-- Compiles sources in order, up to the first that is no template. -/
def ofSources (sources : List (Text × Text)) : Except SyntaxError Store :=
  sources.foldlM (fun s (name, source) => s.load name source) empty

@[simp] theorem get?_empty (name : Text) : empty.get? name = none := rfl

@[simp] theorem get?_insert_self (s : Store) (name : Text) (t : Template) :
    (s.insert name t).get? name = some t := by
  simp [insert, get?]

theorem get?_insert_of_ne (s : Store) {name other : Text} (t : Template) (h : other ≠ name) :
    (s.insert name t).get? other = s.get? other := by
  have hn : (other == name) = false := beq_eq_false_iff_ne.mpr h
  simp only [insert, get?, List.lookup_cons, hn]
  induction s.entries with
  | nil => rfl
  | cons e rest ih =>
    obtain ⟨k, u⟩ := e
    by_cases hk : k = name
    · have ho : (other == k) = false := by simp [hk, h]
      simp [hk, List.lookup_cons, hn, ih]
    · simp [hk, List.lookup_cons, ih]

@[simp] theorem length_names (s : Store) : s.names.length = s.size := by
  simp [names, size]

theorem get?_isSome_iff (s : Store) (name : Text) : (s.get? name).isSome ↔ name ∈ s.names := by
  simp only [get?, names]
  induction s.entries with
  | nil => simp
  | cons e rest ih =>
    obtain ⟨k, t⟩ := e
    by_cases hk : name = k
    · simp [hk]
    · simp [List.lookup_cons, beq_eq_false_iff_ne.mpr hk, hk, ih]

end Store
end Mustache
