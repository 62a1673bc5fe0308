import Mustache.Tag

/-! Parts: what a template is compiled to. -/
namespace Mustache

/-- One piece of a compiled template. A block is a section or an inverted section: it keeps the
source between its tags and the delimiters in force at its opening tag. An inclusion keeps the
blanks in front of a tag that stands alone. -/
inductive Part where
  | literal (text : Text)
  | value (path : Text) (escaped : Bool)
  | block (inverted : Bool) (path source : Text) (delimiters : Delimiters) (children : List Part)
  | inclusion (name indent : Text)
  | switch (delimiters : Delimiters)
  deriving Repr

namespace Part

mutual

/-- Whether two parts are the same. -/
def same : Part → Part → Bool
  | literal t, literal t' => t == t'
  | value p e, value p' e' => p == p' && e == e'
  | block i p s d cs, block i' p' s' d' cs' =>
    i == i' && p == p' && s == s' && d == d' && sameAll cs cs'
  | inclusion n i, inclusion n' i' => n == n' && i == i'
  | switch d, switch d' => d == d'
  | _, _ => false

def sameAll : List Part → List Part → Bool
  | [], [] => true
  | p :: ps, q :: qs => same p q && sameAll ps qs
  | _, _ => false

end

mutual

theorem same_iff : (p q : Part) → same p q = true ↔ p = q
  | literal _, q => by cases q <;> simp [same]
  | value _ _, q => by cases q <;> simp [same]
  | block _ _ _ _ cs, q => by cases q <;> simp [same, and_assoc, sameAll_iff cs]
  | inclusion _ _, q => by cases q <;> simp [same]
  | switch _, q => by cases q <;> simp [same]

theorem sameAll_iff : (ps qs : List Part) → sameAll ps qs = true ↔ ps = qs
  | [], qs => by cases qs <;> simp [sameAll]
  | p :: ps, qs => by cases qs <;> simp [sameAll, same_iff p, sameAll_iff ps]

end

instance : DecidableEq Part := fun p q => decidable_of_iff _ (same_iff p q)

end Part
end Mustache
