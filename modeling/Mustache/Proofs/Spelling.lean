import Mathlib.Data.List.Chain
import Mustache.Proofs.Indent
import Mustache.Proofs.Reads

/-! Spelling: an escaped value tag written as the tag of the same value unescaped, and that this is
read as what it says. -/
namespace Mustache

open Text Layout

/-- A token with the tag of an escaped value written anew. -/
def Token.respelt (f : Text → Text) (t : Token) : Text :=
  match t.tag? with
  | some (.value path true) => f path
  | _ => t.raw

/-- A source with the tag of every escaped value written anew. -/
def Text.respelt (f : Text → Text) (source : Text) : Text :=
  ((Tokens.ofText .braces source).tokens.map (Token.respelt f)).flatten

/-- The tag of an unescaped value, straight from its path. -/
def Tag.unescapingTight (path : Text) : Text :=
  ['{', '{', '&'] ++ path ++ ['}', '}']

/-- What keeps a path that ends with a brace apart from the delimiter, which would otherwise begin
with that brace. -/
def Tag.gap (path : Text) : Text :=
  if path.getLast? = some '}' then [' '] else []

/-- The tag of an unescaped value. -/
def Tag.unescaping (path : Text) : Text :=
  ['{', '{', '&'] ++ (path ++ gap path) ++ ['}', '}']

namespace Text

/-- Two characters that do not end a tag. -/
def Loose (a b : Char) : Prop := ¬ (a = '}' ∧ b = '}')

lemma isChain_loose_of_breakOn {s : Text} (h : breakOn ['}', '}'] s = none) :
    s.IsChain Loose := by
  induction s with
  | nil => exact .nil
  | cons c s ih =>
    have hnone := dropPrefix?_eq_none_of_breakOn_eq_none h
    rw [breakOn_cons, hnone, Option.map_eq_none_iff] at h
    refine List.isChain_cons.mpr ⟨?_, ih h⟩
    rintro b hb ⟨rfl, rfl⟩
    obtain ⟨t, rfl⟩ := List.head?_eq_some_iff.mp hb
    simp [dropPrefix?] at hnone

/-- A closing delimiter is found behind a text that has none and does not run into it. -/
theorem breakOn_of_isChain_loose {s : Text} (h : (s ++ ['}']).IsChain Loose) (rest : Text) :
    breakOn ['}', '}'] (s ++ '}' :: '}' :: rest) = some (s, rest) := by
  induction s with
  | nil => exact breakOn_append_self ['}', '}'] rest
  | cons c s ih =>
    obtain ⟨hc, hs⟩ := List.isChain_cons.mp h
    have hnone : dropPrefix? ['}', '}'] (c :: (s ++ '}' :: '}' :: rest)) = none := by
      cases s with
      | nil =>
        have hcb : '}' ≠ c := fun he => hc '}' rfl ⟨he.symm, rfl⟩
        simp [dropPrefix?, hcb]
      | cons b s =>
        have hcb : '}' = c → '}' ≠ b := fun he he' => hc b rfl ⟨he.symm, he'.symm⟩
        simpa [dropPrefix?] using hcb
    rw [List.cons_append, breakOn_cons, hnone, ih hs]
    rfl

/-- A pattern is found in the same place whatever follows it. -/
theorem breakOn_congr_after {pattern s before after : Text}
    (h : breakOn pattern s = some (before, after)) (more : Text) :
    breakOn pattern (before ++ pattern ++ more) = some (before, more) := by
  rw [eq_append_of_breakOn h] at h
  exact breakOn_append (breakOn_of_append h : _ = some (before, [])) more

lemma trim_infix (s : Text) : trim s <:+: s :=
  (List.rdropWhile_prefix isSpace _).isInfix.trans (List.dropWhile_suffix isSpace).isInfix

/-- Trimming takes the white space from both ends, and nothing else. -/
theorem trim_spaced {u s t : Text} (hu : ∀ c ∈ u, isSpace c = true)
    (hhead : ∀ c ∈ s.head?, isSpace c = false) (hlast : ∀ c ∈ s.getLast?, isSpace c = false)
    (ht : ∀ c ∈ t, isSpace c = true) : trim (u ++ s ++ t) = s := by
  rw [trim, List.append_assoc, List.dropWhile_append_of_pos hu]
  cases s with
  | nil =>
    rw [List.nil_append, List.dropWhile_eq_nil_iff.mpr ht]
    rfl
  | cons c s =>
    have hc : ¬ isSpace c = true := by simp [hhead c rfl]
    rw [List.cons_append, List.dropWhile_cons_of_neg hc, ← List.cons_append,
      dropEndWhile_append _ _ ht]
    obtain ⟨v, a, hv⟩ := (List.eq_nil_or_concat (c :: s)).resolve_left (List.cons_ne_nil c s)
    rw [List.concat_eq_append] at hv
    have ha : ¬ isSpace a = true := by simp [hlast a (by simp [hv])]
    rw [hv, dropEndWhile_append_singleton _ _ ha]

lemma trim_cons {c : Char} (hc : isSpace c = false) (s : Text) : ∃ t, trim (c :: s) = c :: t := by
  have hneg : ¬ isSpace c = true := by simp [hc]
  rw [trim, List.dropWhile_cons_of_neg hneg]
  obtain ⟨u, hu⟩ := List.rdropWhile_prefix isSpace (c :: s)
  change dropEndWhile isSpace (c :: s) ++ u = c :: s at hu
  cases hd : dropEndWhile isSpace (c :: s) with
  | nil =>
    have hall := (List.rdropWhile_eq_nil_iff (p := isSpace)).mp hd
    exact absurd (hall c List.mem_cons_self) hneg
  | cons a t =>
    rw [hd] at hu
    obtain ⟨rfl, -⟩ := List.cons.inj hu
    exact ⟨t, rfl⟩

lemma ne_of_head?_trim_ne {a c : Char} (ha : isSpace a = false) {s : Text}
    (h : (trim (c :: s)).head? ≠ some a) : c ≠ a := by
  rintro rfl
  obtain ⟨t, ht⟩ := trim_cons ha s
  exact h (by rw [ht]; rfl)

end Text

namespace Tag

/-- A name is let through as it is, and has no white space. -/
theorem of_checkName_eq_ok {s name : Text} (h : checkName s = .ok name) :
    s = name ∧ s ≠ [] ∧ ∀ c ∈ s, isSpace c = false := by
  unfold checkName at h
  split at h
  · rename_i hs
    obtain rfl := Except.ok.inj h
    subst hs
    refine ⟨rfl, List.cons_ne_nil _ _, fun c hc => ?_⟩
    obtain rfl := List.mem_singleton.mp hc
    decide
  · split at h
    · simp at h
    · split at h
      · simp at h
      · rename_i hne hn
        obtain rfl := Except.ok.inj h
        simp only [Bool.or_eq_true, not_or, List.any_eq_true, not_exists, not_and] at hn
        exact ⟨rfl, hne, fun c hc => by simpa using hn.2 c hc⟩

lemma named?_ne_escaped {c : Char} {tag : Text → Tag} (h : named? c = some tag)
    (name path : Text) : tag name ≠ value path true := by
  unfold named? at h
  split at h <;> simp at h <;> subst h <;> simp

/-- An escaped value is a name and nothing else, and does not begin like another tag. -/
theorem ofText_eq_escaped {s path : Text} (h : ofText s = .ok (value path true)) :
    checkName s = .ok path ∧
      ∀ c, s.head? = some c → c ∉ ['#', '^', '/', '>', '!', '=', '&', '{'] := by
  cases s with
  | nil => simp [ofText] at h
  | cons c s =>
    rw [ofText_cons] at h
    split at h
    · simp at h
    · rename_i hcomment
      split at h
      · simp [map_eq_ok_iff] at h
      · rename_i hswitch
        cases hn : named? c with
        | some tag =>
          simp only [hn, map_eq_ok_iff] at h
          obtain ⟨name, -, hname⟩ := h
          exact absurd hname (named?_ne_escaped hn name path)
        | none =>
          simp only [hn, map_eq_ok_iff] at h
          obtain ⟨name, hname, hpath⟩ := h
          obtain ⟨rfl, -⟩ := by simpa using hpath
          refine ⟨hname, ?_⟩
          rintro _ ⟨⟩
          unfold named? at hn
          split at hn <;> simp_all

end Tag

/-- A path that stands in the tag of an escaped value under the first delimiters. -/
structure Tag.IsPath (path : Text) : Prop where
  name : Tag.checkName path = .ok path
  loose : path.IsChain Loose

namespace Tag

lemma isSpace_gap (path : Text) : ∀ c ∈ gap path, isSpace c = true := by
  have hspace : isSpace ' ' = true := by decide
  unfold gap
  split <;> simp [hspace]

lemma IsPath.isChain_loose {path : Text} (h : IsPath path) :
    ('&' :: (path ++ gap path) ++ ['}']).IsChain Loose := by
  have hend : (gap path ++ ['}']).IsChain Loose := by
    unfold gap
    split <;> simp [Loose]
  have hjoint : ∀ a ∈ path.getLast?, ∀ b ∈ (gap path ++ ['}']).head?, Loose a b := by
    rintro a ha b hb ⟨rfl, rfl⟩
    have hlast : path.getLast? = some '}' := ha
    simp [gap, hlast] at hb
  rw [List.cons_append, List.append_assoc]
  refine List.isChain_cons.mpr ⟨?_, h.loose.append hend hjoint⟩
  rintro b - ⟨hb, -⟩
  simp at hb

lemma IsPath.ofText_eq {path : Text} (h : IsPath path) :
    ofText (trim ('&' :: (path ++ gap path))) = .ok (value path false) := by
  obtain ⟨-, hne, hspace⟩ := of_checkName_eq_ok h.name
  have hall : ∀ c ∈ '&' :: path, isSpace c = false := List.forall_mem_cons.mpr ⟨by decide, hspace⟩
  have htrim := trim_spaced (u := []) (by simp) (fun c hc => hall c (List.mem_of_mem_head? hc))
    (fun c hc => hall c (List.mem_of_mem_getLast? hc)) (isSpace_gap path)
  rw [← List.cons_append]
  rw [List.nil_append] at htrim
  rw [htrim]
  obtain ⟨c, u, rfl⟩ := List.exists_cons_of_ne_nil hne
  have hc : ¬ isSpace c = true := by simp [hspace c List.mem_cons_self]
  change (value · false) <$> checkName ((c :: u).dropWhile isSpace) = _
  rw [List.dropWhile_cons_of_neg hc, h.name]
  rfl

end Tag

namespace Token

/-- Only a brace or an equals sign puts something in front of the delimiter that ends a tag. -/
theorem terminator_of_head?_trim (d : Delimiters) {inside : Text} (hne : inside ≠ [])
    (hbrace : (trim inside).head? ≠ some '{') (hequals : (trim inside).head? ≠ some '=')
    (more : Text) : terminator d (inside ++ more) = d.closing := by
  obtain ⟨c, inside, rfl⟩ := List.exists_cons_of_ne_nil hne
  have hc := ne_of_head?_trim_ne (by decide) hbrace
  have hc' := ne_of_head?_trim_ne (by decide) hequals
  rw [List.cons_append]
  unfold terminator
  split
  · rename_i h
    exact absurd (List.cons.inj h).1 hc
  · rename_i h
    exact absurd (List.cons.inj h).1 hc'
  · rfl

lemma isPath_of_readTag {s raw rest path : Text}
    (h : readTag .braces s = .ok ⟨raw, some (.value path true), rest⟩) : Tag.IsPath path := by
  obtain ⟨inside, rest', tag, hb, ht, hr⟩ := readTag_eq_ok_iff.mp h
  obtain ⟨-, htag, -⟩ := Reading.mk.inj hr
  obtain rfl := Option.some.inj htag
  obtain ⟨hname, hmark⟩ := Tag.ofText_eq_escaped ht
  obtain ⟨htrim, -, -⟩ := Tag.of_checkName_eq_ok hname
  have hterminator : terminator .braces s = ['}', '}'] := by
    rw [Text.eq_append_of_breakOn hb, List.append_assoc]
    exact terminator_of_head?_trim .braces (inside_ne_nil ht) (fun h => hmark _ h (by decide))
      (fun h => hmark _ h (by decide)) _
  rw [hterminator] at hb
  rw [htrim] at hname
  refine ⟨hname, ?_⟩
  have hchain := isChain_loose_of_breakOn (breakOn_before_eq_none (by simp) hb)
  exact hchain.infix (htrim ▸ trim_infix _)

/-- The tag of an unescaped value is read as such. -/
theorem readTag_unescaping {path : Text} (h : Tag.IsPath path) (rest : Text) :
    ∃ inside, Tag.unescaping path = Delimiters.braces.opening ++ inside ∧
      readTag .braces (inside ++ rest) =
        .ok ⟨Tag.unescaping path, some (.value path false), rest⟩ := by
  refine ⟨'&' :: (path ++ Tag.gap path) ++ ['}', '}'], rfl, readTag_eq_ok_iff.mpr ?_⟩
  refine ⟨'&' :: (path ++ Tag.gap path), rest, .value path false, ?_, h.ofText_eq, ?_⟩
  · rw [List.append_assoc]
    exact breakOn_of_isChain_loose h.isChain_loose rest
  · rfl

end Token

end Mustache
