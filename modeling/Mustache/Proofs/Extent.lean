import Mathlib.Data.List.Basic
import Mustache.Text

/-! Extents of a text: what is left of it when some of them are taken out. -/
namespace Mustache

/-- A stretch of a text, by the places where it starts and stops. -/
structure Extent where
  start : Nat
  stop : Nat
  deriving DecidableEq, Repr

namespace Extent

/-- Whether a place lies in an extent. -/
def holds (r : Extent) (i : Nat) : Bool :=
  decide (r.start ≤ i) && decide (i < r.stop)

/-- Pieces of text that are kept and that go by turns, as one text. -/
def join (pieces : List (Text × Text)) : Text :=
  pieces.flatMap fun (kept, gone) => kept ++ gone

/-- The extents of the pieces that go, in a text that stands at a place. -/
def gaps (n : Nat) : List (Text × Text) → List Extent
  | [] => []
  | (kept, gone) :: pieces =>
    let start := n + kept.length
    ⟨start, start + gone.length⟩ :: gaps (start + gone.length) pieces

lemma le_start_of_mem_gaps {n : Nat} {pieces : List (Text × Text)} {r : Extent}
    (h : r ∈ gaps n pieces) : n ≤ r.start := by
  induction pieces generalizing n with
  | nil => simp [gaps] at h
  | cons piece pieces ih =>
    rcases List.mem_cons.mp h with rfl | h
    · exact Nat.le_add_right n _
    · have := ih h
      omega

/-- Pieces that go follow one another. -/
theorem gaps_pairwise (n : Nat) (pieces : List (Text × Text)) :
    (gaps n pieces).Pairwise fun r r' => r.stop ≤ r'.start := by
  induction pieces generalizing n with
  | nil => exact .nil
  | cons piece pieces ih => exact .cons (fun r hr => le_start_of_mem_gaps hr) (ih _)

end Extent

namespace Text

/-- What is left of a text that stands at a place when extents are taken out. -/
def withoutFrom (n : Nat) (rs : List Extent) (s : Text) : Text :=
  ((s.zipIdx n).filter fun (_, i) => !rs.any (·.holds i)).map Prod.fst

/-- What is left of a text when extents are taken out. -/
def without (rs : List Extent) (s : Text) : Text :=
  withoutFrom 0 rs s

lemma withoutFrom_append (n : Nat) (rs : List Extent) (s t : Text) :
    withoutFrom n rs (s ++ t) = withoutFrom n rs s ++ withoutFrom (n + s.length) rs t := by
  simp [withoutFrom, List.zipIdx_append]

/-- Extents that start behind a text leave all of it. -/
theorem withoutFrom_eq_self {n : Nat} {rs : List Extent} {s : Text}
    (h : ∀ r ∈ rs, n + s.length ≤ r.start) : withoutFrom n rs s = s := by
  rw [withoutFrom, List.filter_eq_self.mpr, List.zipIdx_map_fst]
  intro (c, i) hi
  have hlt := List.snd_lt_add_of_mem_zipIdx hi
  simp only [Bool.not_eq_true', List.any_eq_false, Extent.holds, Bool.and_eq_true,
    decide_eq_true_eq]
  intro r hr hin
  have := h r hr
  omega

/-- An extent that a text lies in leaves nothing of it. -/
theorem withoutFrom_eq_nil {n : Nat} {rs : List Extent} {s : Text} {r : Extent} (hr : r ∈ rs)
    (h₁ : r.start ≤ n) (h₂ : n + s.length ≤ r.stop) : withoutFrom n rs s = [] := by
  rw [withoutFrom, List.map_eq_nil_iff, List.filter_eq_nil_iff]
  intro (c, i) hi
  have hle := List.le_snd_of_mem_zipIdx hi
  have hlt := List.snd_lt_add_of_mem_zipIdx hi
  simp only [Bool.not_eq_true', Bool.not_eq_false, List.any_eq_true, Extent.holds,
    Bool.and_eq_true, decide_eq_true_eq]
  exact ⟨r, hr, by omega, by omega⟩

/-- An extent that stops in front of a text takes nothing of it. -/
theorem withoutFrom_cons_of_le {n : Nat} {r : Extent} (rs : List Extent) (s : Text)
    (h : r.stop ≤ n) : withoutFrom n (r :: rs) s = withoutFrom n rs s := by
  have hr : ∀ x ∈ s.zipIdx n, r.holds x.2 = false := by
    intro (c, i) hi
    have hle := List.le_snd_of_mem_zipIdx hi
    simp only [Extent.holds, Bool.and_eq_false_iff, decide_eq_false_iff_not]
    exact .inr (by omega)
  rw [withoutFrom, withoutFrom]
  congr 1
  apply List.filter_congr
  intro x hx
  simp [hr x hx]

/-- Taking out the pieces that go leaves those that are kept. -/
theorem withoutFrom_gaps (n : Nat) (pieces : List (Text × Text)) (last : Text) :
    withoutFrom n (Extent.gaps n pieces) (Extent.join pieces ++ last) =
      (pieces.map Prod.fst).flatten ++ last := by
  induction pieces generalizing n with
  | nil => exact withoutFrom_eq_self (by simp [Extent.gaps])
  | cons piece pieces ih =>
    obtain ⟨kept, gone⟩ := piece
    have hkept : withoutFrom n (Extent.gaps n ((kept, gone) :: pieces)) kept = kept := by
      apply withoutFrom_eq_self
      intro r hr
      rcases List.mem_cons.mp hr with rfl | hr
      · exact Nat.le_refl _
      · have := Extent.le_start_of_mem_gaps hr
        omega
    have hgone : withoutFrom (n + kept.length) (Extent.gaps n ((kept, gone) :: pieces)) gone = [] :=
      withoutFrom_eq_nil List.mem_cons_self (Nat.le_refl _) (Nat.le_refl _)
    have hjoin : Extent.join ((kept, gone) :: pieces) ++ last =
        kept ++ (gone ++ (Extent.join pieces ++ last)) := by
      simp [Extent.join]
    calc withoutFrom n (Extent.gaps n ((kept, gone) :: pieces))
          (Extent.join ((kept, gone) :: pieces) ++ last)
        = kept ++ withoutFrom (n + kept.length + gone.length)
            (Extent.gaps n ((kept, gone) :: pieces)) (Extent.join pieces ++ last) := by
          rw [hjoin, withoutFrom_append, withoutFrom_append, hkept, hgone, List.nil_append]
      _ = kept ++ ((pieces.map Prod.fst).flatten ++ last) := by
          exact congrArg _ ((withoutFrom_cons_of_le _ _ (Nat.le_refl _)).trans (ih _))
      _ = _ := by simp

end Text
end Mustache
