import Mathlib.Data.List.Basic
import Mustache.Text

/-! First occurrences: where a search for a pattern succeeds, and that it does not depend on
characters that no occurrence can begin with. -/
namespace Mustache.Text

@[simp] lemma dropPrefix?_append_self (pattern s : Text) :
    dropPrefix? pattern (pattern ++ s) = some s :=
  dropPrefix?_eq_some_iff.mpr rfl

lemma breakOn_cons (pattern : Text) (c : Char) (s : Text) :
    breakOn pattern (c :: s) = match dropPrefix? pattern (c :: s) with
      | some rest => some ([], rest)
      | none => (breakOn pattern s).map fun (before, after) => (c :: before, after) :=
  rfl

lemma breakOn_of_dropPrefix? {pattern s rest : Text} (h : dropPrefix? pattern s = some rest) :
    breakOn pattern s = some ([], rest) := by
  cases s with
  | nil =>
    obtain ⟨rfl, rfl⟩ := by simpa using dropPrefix?_eq_some_iff.mp h
    rfl
  | cons c s => rw [breakOn_cons, h]

@[simp] lemma breakOn_append_self (pattern s : Text) :
    breakOn pattern (pattern ++ s) = some ([], s) :=
  breakOn_of_dropPrefix? (dropPrefix?_append_self pattern s)

/-- Where the search goes past the first character, it stands nowhere at the start. -/
theorem dropPrefix?_eq_none_of_breakOn {pattern s after : Text} {c : Char} {before : Text}
    (h : breakOn pattern s = some (c :: before, after)) : dropPrefix? pattern s = none := by
  cases hp : dropPrefix? pattern s with
  | none => rfl
  | some rest =>
    rw [breakOn_of_dropPrefix? hp] at h
    simp at h

lemma dropPrefix?_eq_none_of_breakOn_eq_none {pattern s : Text} (h : breakOn pattern s = none) :
    dropPrefix? pattern s = none := by
  cases hp : dropPrefix? pattern s with
  | none => rfl
  | some rest =>
    rw [breakOn_of_dropPrefix? hp] at h
    simp at h

/-- In front of a text, characters that the pattern does not begin with move nothing. -/
theorem breakOn_append_of_ne_head {pattern u : Text} (s : Text)
    (hp : pattern ≠ []) (hu : ∀ c ∈ u, pattern.head? ≠ some c) :
    breakOn pattern (u ++ s) = (breakOn pattern s).map fun (b, a) => (u ++ b, a) := by
  induction u with
  | nil => simp
  | cons c u ih =>
    have hc : dropPrefix? pattern (c :: (u ++ s)) = none := by
      cases pattern with
      | nil => exact absurd rfl hp
      | cons p pattern =>
        have hpc : p ≠ c := by simpa using hu c (by simp)
        simp [dropPrefix?, hpc]
    rw [List.cons_append, breakOn_cons, hc, ih fun c' h => hu c' (by simp [h])]
    simp [Option.map_map, Function.comp_def]

/-- A text that a pattern stands in is searched with success. -/
theorem breakOn_ne_none (pattern before after : Text) :
    breakOn pattern (before ++ (pattern ++ after)) ≠ none := by
  induction before with
  | nil => simp
  | cons c before ih =>
    rw [List.cons_append, breakOn_cons]
    split
    · simp
    · simpa using ih

/-- What is found in a text is found in it as well when more text follows. -/
theorem breakOn_append {pattern s before after : Text}
    (h : breakOn pattern s = some (before, after)) (more : Text) :
    breakOn pattern (s ++ more) = some (before, after ++ more) := by
  have hs := eq_append_of_breakOn h
  induction before generalizing s with
  | nil =>
    apply breakOn_of_dropPrefix?
    rw [hs]
    exact dropPrefix?_eq_some_iff.mpr (by simp)
  | cons c before ih =>
    have hnone := dropPrefix?_eq_none_of_breakOn h
    obtain ⟨t, rfl⟩ : ∃ t, s = c :: t := ⟨_, hs⟩
    rw [breakOn_cons, hnone] at h
    have ht : breakOn pattern t = some (before, after) := by simpa using h
    have heq := eq_append_of_breakOn ht
    -- the pattern is no longer than what it stands in, so that it cannot reach into more text
    have hmore : dropPrefix? pattern (c :: (t ++ more)) = none := by
      refine Option.eq_none_iff_forall_ne_some.mpr fun rest hrest => ?_
      have hp : pattern <+: c :: t := by
        have hlong : pattern <+: (c :: t) ++ more :=
          ⟨rest, (dropPrefix?_eq_some_iff.mp hrest).symm⟩
        refine List.prefix_of_prefix_length_le hlong (List.prefix_append _ more) ?_
        rw [heq]
        simp only [List.length_cons, List.length_append]
        omega
      obtain ⟨rest', hrest'⟩ := hp
      simp [dropPrefix?_eq_some_iff.mpr hrest'.symm] at hnone
    rw [List.cons_append, breakOn_cons, hmore, ih ht heq]
    rfl

/-- What is found in a text in front of a certain rest is found without that rest. -/
theorem breakOn_of_append {pattern s before after more : Text}
    (h : breakOn pattern (s ++ more) = some (before, after ++ more)) :
    breakOn pattern s = some (before, after) := by
  have hs : s = before ++ (pattern ++ after) := by
    have := eq_append_of_breakOn h
    rw [← List.append_assoc] at this
    simpa using List.append_cancel_right this
  obtain ⟨⟨before', after'⟩, hcut⟩ :=
    Option.ne_none_iff_exists'.mp (hs ▸ breakOn_ne_none pattern before after)
  rw [breakOn_append hcut more] at h
  obtain ⟨rfl, hafter⟩ := by simpa using h
  rw [hcut, hafter]

/-- In front of the first place where a pattern stands, it stands nowhere. -/
theorem breakOn_before_eq_none {pattern s before after : Text} (hp : pattern ≠ [])
    (h : breakOn pattern s = some (before, after)) : breakOn pattern before = none := by
  refine Option.eq_none_iff_forall_ne_some.mpr fun (b, a) hcut => ?_
  have hmore := breakOn_append hcut (pattern ++ after)
  rw [← List.append_assoc, ← eq_append_of_breakOn h, h] at hmore
  obtain ⟨rfl, -⟩ := by simpa using hmore
  have hlength := congrArg List.length (eq_append_of_breakOn hcut)
  have hpos := List.length_pos_iff.mpr hp
  simp only [List.length_append] at hlength
  omega

/-- Where a pattern stands nowhere, it stands nowhere in front either. -/
theorem breakOn_eq_none_of_append {pattern s t : Text} (h : breakOn pattern (s ++ t) = none) :
    breakOn pattern s = none := by
  refine Option.eq_none_iff_forall_ne_some.mpr fun (b, a) hcut => ?_
  rw [breakOn_append hcut t] at h
  simp at h

/-- What is found behind a text is found without that text. -/
theorem breakOn_of_append_left {pattern u s v rest : Text}
    (h : breakOn pattern (u ++ s) = some (u ++ v, rest)) : breakOn pattern s = some (v, rest) := by
  induction u with
  | nil => exact h
  | cons c u ih =>
    have hnone := dropPrefix?_eq_none_of_breakOn h
    rw [List.cons_append, breakOn_cons, ← List.cons_append, hnone] at h
    exact ih (by simpa using h)

/-- A pattern does not reach over a character that it does not have. -/
theorem isPrefix_of_append_cons {pattern s t : Text} {a : Char} (ha : a ∉ pattern)
    (h : pattern <+: s ++ a :: t) : pattern <+: s := by
  by_contra hs
  have hlength : (s ++ [a]).length ≤ pattern.length := by
    rw [List.length_append, List.length_singleton, Nat.succ_le_iff]
    by_contra hle
    exact hs (List.prefix_of_prefix_length_le h (List.prefix_append s _) (Nat.le_of_not_lt hle))
  have hreach : s ++ [a] <+: pattern :=
    List.prefix_of_prefix_length_le (by simp) h hlength
  exact ha (hreach.mem (by simp))

/-- A search goes on behind a character that the pattern does not have. -/
theorem breakOn_append_of_notMem {pattern s : Text} {a : Char} (ha : a ∉ pattern)
    (h : breakOn pattern s = none) (t : Text) :
    breakOn pattern (s ++ a :: t) =
      (breakOn pattern t).map fun (b, r) => (s ++ a :: b, r) := by
  induction s with
  | nil =>
    have hp : pattern ≠ [] := by
      rintro rfl
      simp [breakOn] at h
    have hhead : ∀ c ∈ [a], pattern.head? ≠ some c := by
      intro c hc hm
      obtain rfl := List.mem_singleton.mp hc
      exact ha (List.mem_of_mem_head? hm)
    simpa using breakOn_append_of_ne_head t hp hhead
  | cons c s ih =>
    have hnone := dropPrefix?_eq_none_of_breakOn_eq_none h
    have hrest : breakOn pattern s = none := by
      rw [breakOn_cons, hnone] at h
      simpa using h
    have hmore : dropPrefix? pattern (c :: (s ++ a :: t)) = none := by
      refine Option.eq_none_iff_forall_ne_some.mpr fun rest hr => ?_
      obtain ⟨rest', hrest'⟩ : pattern <+: c :: s :=
        isPrefix_of_append_cons ha ⟨rest, (dropPrefix?_eq_some_iff.mp hr).symm⟩
      simp [dropPrefix?_eq_some_iff.mpr hrest'.symm] at hnone
    rw [List.cons_append, breakOn_cons, hmore, ih hrest]
    simp [Option.map_map, Function.comp_def]

/-- Characters that a pattern does not have can be put anywhere in front of where it is found. -/
theorem breakOn_insert {pattern u s v t rest : Text} (hp : pattern ≠ [])
    (ht : ∀ c ∈ t, c ∉ pattern) (h : breakOn pattern (u ++ s) = some (u ++ v, rest)) :
    breakOn pattern (u ++ (t ++ s)) = some (u ++ (t ++ v), rest) := by
  cases t with
  | nil => exact h
  | cons a t =>
    obtain ⟨ha, ht⟩ := List.forall_mem_cons.mp ht
    have hu := breakOn_eq_none_of_append (breakOn_before_eq_none hp h)
    have hhead : ∀ c ∈ t, pattern.head? ≠ some c :=
      fun c hc hm => ht c hc (List.mem_of_mem_head? hm)
    rw [List.cons_append, breakOn_append_of_notMem ha hu, breakOn_append_of_ne_head s hp hhead,
      breakOn_of_append_left h]
    rfl

end Mustache.Text
