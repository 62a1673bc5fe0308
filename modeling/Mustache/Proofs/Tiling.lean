import Mustache.Proofs.Printed
import Mustache.Proofs.Reads
import Mustache.Proofs.Slice

/-! Tilings: the tokens of a source take it from its start, one behind the other. Behind any of them
reading goes on from where they end, with the delimiters that they leave. -/
namespace Mustache

open Text

namespace Token

variable {d : Delimiters} {s raw rest : Text}

/-- The source that tokens take. -/
def sourceOf (ts : List Token) : Text :=
  (ts.map Token.raw).flatten

@[simp] lemma sourceOf_nil : sourceOf [] = [] := rfl

@[simp] lemma sourceOf_cons (t : Token) (ts : List Token) :
    sourceOf (t :: ts) = t.raw ++ sourceOf ts := rfl

@[simp] lemma sourceOf_append (ts us : List Token) :
    sourceOf (ts ++ us) = sourceOf ts ++ sourceOf us := by
  simp [sourceOf]

/-- Only where the opening delimiter stands a tag is read. -/
theorem exists_readTag_of_read {tag : Tag} (h : read d s = .ok ⟨raw, some tag, rest⟩) :
    ∃ inside, s = d.opening ++ inside ∧ readTag d inside = .ok ⟨raw, some tag, rest⟩ := by
  unfold read at h
  split at h
  · rename_i inside hp
    exact ⟨inside, dropPrefix?_eq_some_iff.mp hp, h⟩
  · simp at h

/-- Only where the opening delimiter stands reading can fail. -/
theorem exists_readTag_of_read_error {fault : TagFault} (h : read d s = .error fault) :
    ∃ inside, s = d.opening ++ inside ∧ readTag d inside = .error fault := by
  unfold read at h
  split at h
  · rename_i inside hp
    exact ⟨inside, dropPrefix?_eq_some_iff.mp hp, h⟩
  · simp at h

/-- Plain text holds no opening delimiter, and ends where one stands or where the source ends. -/
theorem of_read_text (hd : d.Valid) (h : read d s = .ok ⟨raw, none, rest⟩) :
    breakOn d.opening raw = none ∧ (rest = [] ∨ ∃ inside, rest = d.opening ++ inside) := by
  unfold read at h
  split at h
  · obtain ⟨inside, rest', tag, -, -, hr⟩ := readTag_eq_ok_iff.mp h
    simp at hr
  · obtain ⟨hraw, -, hrest⟩ := Reading.mk.inj (Except.ok.inj h)
    cases hb : breakOn d.opening s with
    | none =>
      have hs : raw = s := by rw [← hraw, before, hb]
      refine ⟨hs ▸ hb, .inl ?_⟩
      rw [← hrest, hraw, hs, List.drop_length]
    | some cut =>
      obtain ⟨text, inside⟩ := cut
      have htext : raw = text := by rw [← hraw, before, hb]
      refine ⟨htext ▸ breakOn_before_eq_none hd.opening.1 hb, .inr ⟨inside, ?_⟩⟩
      rw [← hrest, hraw, htext, eq_append_of_breakOn hb, List.append_assoc, List.drop_left]

end Token

namespace Text

/-- A search fails where the pattern stands nowhere. -/
theorem breakOn_eq_none_iff {pattern s : Text} : breakOn pattern s = none ↔ ¬ pattern <:+: s := by
  constructor
  · rintro h ⟨before, after, rfl⟩
    rw [List.append_assoc] at h
    exact breakOn_ne_none pattern before after h
  · intro h
    refine Option.eq_none_iff_forall_ne_some.mpr fun (before, after) hb => h ?_
    exact ⟨before, after, (eq_append_of_breakOn hb).symm⟩

end Text

/-- Stretches that follow one another from a place to another one, none of them empty. -/
def Tiles : Nat → List (Nat × Nat) → Nat → Prop
  | start, [], stop => start = stop
  | start, (first, last) :: spans, stop => first = start ∧ first < last ∧ Tiles last spans stop

namespace Tokens

variable {d : Delimiters} {p : Position} {s : Text} {before after : List Token} {t : Token}

lemma scan_of_read_error {fault : TagFault} (hs : s ≠ []) (hr : Token.read d s = .error fault) :
    scan d p s = ⟨[], some (p, fault)⟩ := by
  rw [scan]
  simp only [hs, ↓reduceDIte]
  split <;> simp_all

/-- The first token of a source, and what is read of the rest. -/
theorem exists_of_scan_eq_cons (h : (scan d p s).tokens = t :: after) :
    ∃ r, Token.read d s = .ok r ∧ t = ⟨p, r.raw, r.tag?⟩ ∧
      scan (r.tag?.elim d (Tag.delimitersAfter d)) (p.advance r.raw) r.rest =
        ⟨after, (scan d p s).fault?⟩ := by
  by_cases hs : s = []
  · simp [hs] at h
  · cases hr : Token.read d s with
    | error fault => simp [scan_of_read_error hs hr] at h
    | ok r =>
      rw [scan_of_read hs hr] at h ⊢
      obtain ⟨rfl, rfl⟩ := List.cons.inj h
      exact ⟨r, rfl, rfl, rfl⟩

/-- Behind some tokens the rest of the source is read, with the delimiters that they leave. -/
theorem exists_of_scan_eq_append (h : (scan d p s).tokens = before ++ after) :
    ∃ rest, s = Token.sourceOf before ++ rest ∧
      scan (d.after (before.filterMap Token.tag?)) (p.advance (Token.sourceOf before)) rest =
        ⟨after, (scan d p s).fault?⟩ := by
  induction before generalizing d p s with
  | nil =>
    refine ⟨s, rfl, ?_⟩
    rw [← show (scan d p s).tokens = after from h]
    rfl
  | cons x before ih =>
    obtain ⟨r, hr, rfl, hscan⟩ := exists_of_scan_eq_cons h
    obtain ⟨rest, hrest, hafter⟩ := ih (congrArg Tokens.tokens hscan)
    have hs := Token.eq_append_of_read hr
    refine ⟨rest, by rw [hs, hrest]; simp, ?_⟩
    rw [hscan] at hafter
    cases htag : r.tag? with
    | none => simpa [htag] using hafter
    | some tag => simpa [htag] using hafter

/-- Every token is read where those before it end, with the delimiters that they leave. -/
theorem exists_read_of_scan (h : (scan d p s).tokens = before ++ t :: after) :
    ∃ rest, s = Token.sourceOf before ++ (t.raw ++ rest) ∧
      t.start = p.advance (Token.sourceOf before) ∧
      Token.read (d.after (before.filterMap Token.tag?)) (t.raw ++ rest) =
        .ok ⟨t.raw, t.tag?, rest⟩ := by
  obtain ⟨rest, rfl, hscan⟩ := exists_of_scan_eq_append h
  obtain ⟨r, hr, rfl, -⟩ := exists_of_scan_eq_cons (congrArg Tokens.tokens hscan)
  have hrest := Token.eq_append_of_read hr
  exact ⟨r.rest, by rw [hrest], rfl, hrest ▸ hr⟩

/-- A source is read to its end, or up to an opening delimiter behind which no tag can be read. -/
theorem fault?_scan (d : Delimiters) (p : Position) (s : Text) :
    let ts := (scan d p s).tokens
    let e := d.after (ts.filterMap Token.tag?)
    (scan d p s).fault? = none ∧ s = Token.sourceOf ts ∨
      ∃ inside fault, s = Token.sourceOf ts ++ (e.opening ++ inside) ∧
        Token.readTag e inside = .error fault ∧
        (scan d p s).fault? = some (p.advance (Token.sourceOf ts), fault) := by
  intro ts e
  have hts : (scan d p s).tokens = ts ++ [] := (List.append_nil ts).symm
  obtain ⟨rest, hs, hscan⟩ := exists_of_scan_eq_append hts
  rw [scan] at hscan
  split at hscan
  · rename_i hrest
    left
    exact ⟨(congrArg Tokens.fault? hscan).symm, by simpa [hrest] using hs⟩
  · split at hscan
    · rename_i fault hr
      obtain ⟨inside, rfl, hinside⟩ := Token.exists_readTag_of_read_error hr
      exact .inr ⟨inside, fault, hs, hinside, (congrArg Tokens.fault? hscan).symm⟩
    · simp at hscan

/-- Where the reading of a source stops, in bytes. -/
def stop (ts : Tokens) (length : Nat) : Nat :=
  ts.fault?.elim length fun (p, _) => p.offset

lemma tiles_scan (d : Delimiters) (p : Position) (s : Text) :
    Tiles p.offset ((scan d p s).tokens.map Token.span)
      ((scan d p s).stop (p.offset + utf8Length s)) := by
  fun_induction scan d p s with
  | case1 d p => simp [Tiles, stop]
  | case2 d p s hs fault hr => simp [Tiles, stop]
  | case3 d p s hs r hr after ih =>
    have hraw := utf8Length_pos (Token.read_raw_ne_nil hs hr)
    have hlength := congrArg utf8Length (Token.eq_append_of_read hr)
    rw [utf8Length_append] at hlength
    rw [Position.advance_offset, Nat.add_assoc, ← hlength] at ih
    exact ⟨rfl, Nat.lt_add_of_pos_right hraw, ih⟩

/-- Every token takes a byte, and so does the tag at fault. -/
theorem length_scan_le (d : Delimiters) (p : Position) (s : Text) :
    (scan d p s).tokens.length + (scan d p s).fault?.toList.length ≤ utf8Length s := by
  fun_induction scan d p s with
  | case1 d p => simp
  | case2 d p s hs fault hr => simpa using Nat.succ_le_of_lt (utf8Length_pos hs)
  | case3 d p s hs r hr after ih =>
    have hraw := utf8Length_pos (Token.read_raw_ne_nil hs hr)
    have hlength := congrArg utf8Length (Token.eq_append_of_read hr)
    rw [utf8Length_append] at hlength
    have hafter : after.tokens.length + after.fault?.toList.length ≤ utf8Length r.rest := ih
    change after.tokens.length + 1 + after.fault?.toList.length ≤ _
    omega

/-- Reading leaves valid delimiters behind every token. -/
theorem valid_after_of_scan (hd : d.Valid) (h : (scan d p s).tokens = before ++ after) :
    (d.after (before.filterMap Token.tag?)).Valid := by
  induction before generalizing d p s with
  | nil => exact hd
  | cons x before ih =>
    obtain ⟨⟨raw, tag?, rest⟩, hr, rfl, hscan⟩ := exists_of_scan_eq_cons h
    have htail := congrArg Tokens.tokens hscan
    cases tag? with
    | none => simpa using ih hd htail
    | some tag =>
      obtain ⟨inside, -, ht⟩ := Token.exists_readTag_of_read hr
      simpa using ih (Token.valid_of_readTag ht hd) htail

/-- Behind plain text stands a tag, or nothing. -/
theorem tag?_isSome_of_scan (hd : d.Valid) {u : Token} (ht : t.tag? = none)
    (h : (scan d p s).tokens = before ++ t :: u :: after) : u.tag?.isSome := by
  obtain ⟨rest, hs, -, hread⟩ := exists_read_of_scan h
  rw [ht] at hread
  have htail : (scan d p s).tokens = (before ++ [t]) ++ u :: after := by simp [h]
  obtain ⟨rest', hs', hscan⟩ := exists_of_scan_eq_append htail
  obtain rfl : rest = rest' := by simpa using hs.symm.trans hs'
  have htags : (before ++ [t]).filterMap Token.tag? = before.filterMap Token.tag? := by simp [ht]
  rw [htags] at hscan
  rcases (Token.of_read_text (valid_after_of_scan hd h) hread).2 with rfl | ⟨inside, rfl⟩
  · simp at hscan
  · obtain ⟨r, hr, rfl, -⟩ := exists_of_scan_eq_cons (congrArg Tokens.tokens hscan)
    rw [Token.read_opening] at hr
    obtain ⟨_, _, tag, -, -, rfl⟩ := Token.readTag_eq_ok_iff.mp hr
    rfl

end Tokens
end Mustache
