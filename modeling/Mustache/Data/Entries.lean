import Mustache.Text

/-! Entries of mappings: of several entries with one key the last one counts. -/
namespace Mustache.Data.Entries

variable {κ α : Type} [DecidableEq κ]

/-- The value of the last entry with a key. -/
def last? (key : κ) : List (κ × α) → Option α
  | [] => none
  | (k, a) :: rest =>
    match last? key rest with
    | some b => some b
    | none => if k = key then some a else none

theorem mem_of_last? {key : κ} {entries : List (κ × α)} {a : α}
    (h : last? key entries = some a) : (key, a) ∈ entries := by
  induction entries with
  | nil => simp [last?] at h
  | cons e rest ih => grind [last?]

end Mustache.Data.Entries
