import Mustache.Tag

/-! The tokens of a source: stretches of plain text and tags, in order and without gaps. -/
namespace Mustache

/-- A stretch of a source: plain text, or a tag with its delimiters. -/
structure Token where
  start : Position
  raw : Text
  tag? : Option Tag
  deriving DecidableEq, Repr

namespace Token

/-- The first token of a text and what follows it. -/
structure Reading where
  raw : Text
  tag? : Option Tag
  rest : Text
  deriving DecidableEq, Repr

/-- What ends a tag: one that begins with a brace or with `=` repeats it before the delimiter. -/
def terminator (d : Delimiters) : Text → Text
  | '{' :: _ => '}' :: d.closing
  | '=' :: _ => '=' :: d.closing
  | _ => d.closing

/-- Reads a tag from what follows its opening delimiter. -/
def readTag (d : Delimiters) (s : Text) : Except TagFault Reading :=
  if s = [] then .error .missingClose
  else match Text.breakOn (terminator d s) s with
    | none => .error .missingClose
    | some (inside, rest) =>
      match Tag.ofText (Text.trim inside) with
      | .error fault => .error fault
      | .ok tag => .ok ⟨d.opening ++ inside ++ terminator d s, some tag, rest⟩

/-- Reads a tag where the opening delimiter stands, and plain text up to it elsewhere. -/
def read (d : Delimiters) (s : Text) : Except TagFault Reading :=
  match Text.dropPrefix? d.opening s with
  | some inside => readTag d inside
  | none => .ok ⟨Text.before d.opening s, none, s.drop (Text.before d.opening s).length⟩

theorem eq_append_of_readTag {d : Delimiters} {s : Text} {r : Reading}
    (h : readTag d s = .ok r) : d.opening ++ s = r.raw ++ r.rest := by
  unfold readTag at h
  split at h
  · simp at h
  · split at h
    · simp at h
    · rename_i hb
      split at h
      · simp at h
      · obtain rfl := by simpa using h
        simpa using Text.eq_append_of_breakOn hb

theorem before_append_drop (pattern s : Text) :
    Text.before pattern s ++ s.drop (Text.before pattern s).length = s := by
  unfold Text.before
  split
  · rename_i b a h
    rw [Text.eq_append_of_breakOn h]
    simp
  · simp

/-- Nothing is lost between a token and the rest. -/
theorem eq_append_of_read {d : Delimiters} {s : Text} {r : Reading}
    (h : read d s = .ok r) : s = r.raw ++ r.rest := by
  unfold read at h
  split at h
  · rename_i hp
    rw [Text.dropPrefix?_eq_some_iff.mp hp]
    exact eq_append_of_readTag h
  · obtain rfl := by simpa using h
    exact (before_append_drop _ _).symm

theorem readTag_raw_ne_nil {d : Delimiters} {s : Text} {r : Reading}
    (h : readTag d s = .ok r) : r.raw ≠ [] := by
  unfold readTag at h
  split at h
  · simp at h
  · split at h
    · simp at h
    · rename_i inside rest hb
      split at h
      · simp at h
      · rename_i tag ht
        obtain rfl := by simpa using h
        intro hn
        obtain ⟨-, hi, -⟩ := by simpa using hn
        simp [hi, Text.trim, Text.dropEndWhile, Tag.ofText] at ht

/-- Every token takes something. -/
theorem read_raw_ne_nil {d : Delimiters} {s : Text} {r : Reading} (hs : s ≠ [])
    (h : read d s = .ok r) : r.raw ≠ [] := by
  unfold read at h
  split at h
  · exact readTag_raw_ne_nil h
  · rename_i hp
    obtain rfl := by simpa using h
    cases s with
    | nil => exact absurd rfl hs
    | cons c s =>
      cases hb : Text.breakOn d.opening s with
      | none => simp [Text.before, Text.breakOn, hp, hb]
      | some ba => simp [Text.before, Text.breakOn, hp, hb]

theorem read_rest_length_lt {d : Delimiters} {s : Text} {r : Reading} (hs : s ≠ [])
    (h : read d s = .ok r) : r.rest.length < s.length := by
  have hr := List.length_pos_iff.mpr (read_raw_ne_nil hs h)
  have hl := congrArg List.length (eq_append_of_read h)
  rw [List.length_append] at hl
  omega

end Token

/-- The tokens of a source up to its end or to the first tag that cannot be read. -/
structure Tokens where
  tokens : List Token
  fault? : Option (Position × TagFault)
  deriving DecidableEq, Repr

namespace Tokens

/-- The tokens of a text that stands at a position, each read with the delimiters then in force. -/
def scan (d : Delimiters) (p : Position) (s : Text) : Tokens :=
  if _ : s = [] then ⟨[], none⟩
  else match _ : Token.read d s with
    | .error fault => ⟨[], some (p, fault)⟩
    | .ok r =>
      let after := scan (r.tag?.elim d (Tag.delimitersAfter d)) (p.advance r.raw) r.rest
      ⟨⟨p, r.raw, r.tag?⟩ :: after.tokens, after.fault?⟩
termination_by s.length
decreasing_by exact Token.read_rest_length_lt (by assumption) (by assumption)

def ofText (d : Delimiters) (s : Text) : Tokens :=
  scan d .start s

@[simp] theorem scan_nil (d : Delimiters) (p : Position) : scan d p [] = ⟨[], none⟩ := by
  rw [scan]
  simp

end Tokens
end Mustache
