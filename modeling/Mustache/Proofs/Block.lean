import Mathlib.Data.List.Forall2
import Mustache.Proofs.Collect
import Mustache.Proofs.Reads
import Mustache.Proofs.Site

/-! Blocks and the tags that they come from: the blocks of a part tree, at any depth, belong to the
opening tags of its source one by one, each with the delimiters in force there. -/
namespace Mustache

/-- A section or an inverted section. -/
structure Block where
  inverted : Bool
  path : Text
  source : Text
  delimiters : Delimiters
  children : List Part
  deriving DecidableEq, Repr

/-- A block as a part. -/
def Block.part (b : Block) : Part :=
  .block b.inverted b.path b.source b.delimiters b.children

/-- Whether a tag opens a block. -/
def Tag.isOpening : Tag → Bool
  | .opening _ _ => true
  | _ => false

namespace Part

/-- The blocks of a part tree at any depth, in the order of their opening tags. -/
def blocks : List Part → List Block :=
  collect fun
    | .block inverted path source d children => [⟨inverted, path, source, d, children⟩]
    | _ => []

@[simp] lemma blocks_append (ps qs : List Part) : blocks (ps ++ qs) = blocks ps ++ blocks qs :=
  collect_append _ ps qs

@[simp] lemma blocks_block_cons (inverted : Bool) (path source : Text) (d : Delimiters)
    (children ps : List Part) :
    blocks (.block inverted path source d children :: ps) =
      ⟨inverted, path, source, d, children⟩ :: (blocks children ++ blocks ps) :=
  rfl

end Part

lemma Segment.sites_map_tag (before : Text) (xs : List Segment) (last : Text) :
    (sites before xs last).map Site.tag = xs.map Segment.tag := by
  induction xs generalizing before with
  | nil => rfl
  | cons x xs ih => rw [sites, List.map_cons, ih, List.map_cons]

namespace Placed

open Mustache.Part

@[simp] lemma blocks_literal (s : Text) : blocks (literal s) = [] := by
  unfold literal
  split <;> rfl

lemma blocks_of_own? {x : Placed} {own : List Part} (h : x.own? = some own) :
    blocks own = [] := by
  unfold own? at h
  split at h <;> simp at h <;> subst h <;> rfl

lemma isOpening_of_own? {x : Placed} {own : List Part} (h : x.own? = some own) :
    x.tag.isOpening = false := by
  unfold own? at h
  split at h <;> simp_all [Tag.isOpening]

lemma map_toSegment_map_tag (xs : List Placed) :
    (xs.map toSegment).map Segment.tag = xs.map (·.tag) :=
  List.map_map

/-- Segments that nest leave the delimiters that their tags set. -/
theorem Nests.after_eq {d d' : Delimiters} {xs : List Placed} {parts : List Part}
    (h : Nests d xs parts d') : d.after (xs.map (·.tag)) = d' := by
  induction h with
  | nil => rfl
  | leaf _ _ ih => exact ih
  | block hx hy _ _ ih₁ ih₂ => simp [hx, hy, Tag.delimitersAfter, ih₁, ih₂]

/-- A placed segment among others. -/
structure Spot where
  before : List Placed
  here : Placed
  behind : List Placed

namespace Spot

/-- A spot with more segments behind it. -/
def extend (more : List Placed) (s : Spot) : Spot :=
  ⟨s.before, s.here, s.behind ++ more⟩

/-- Whether the tag of a spot opens a block. -/
def opens (s : Spot) : Bool := s.here.tag.isOpening

/-- A block comes from the opening tag at a spot: its body lies between that and a closing tag. -/
structure Encloses (d : Delimiters) (b : Block) (s : Spot) : Prop where
  opening : s.here.tag = .opening b.inverted b.path
  delimiters : b.delimiters = d.after (s.before.map (·.tag))
  body : ∃ inner y rest children d', s.behind = inner ++ y :: rest ∧ y.tag = .closing b.path ∧
    b.source = Segment.sourceOf (inner.map toSegment) y.text ∧
    Nests b.delimiters inner children d' ∧ b.children = children ++ literal y.kept

lemma Encloses.extend {d : Delimiters} {b : Block} {s : Spot} (h : Encloses d b s)
    (more : List Placed) : Encloses d b (s.extend more) := by
  obtain ⟨inner, y, rest, children, d', hs, hy⟩ := h.body
  refine ⟨h.opening, h.delimiters, inner, y, rest ++ more, children, d', ?_, hy⟩
  rw [Spot.extend, hs, List.append_assoc, List.cons_append]

end Spot

/-- The spots of segments that follow others. -/
def spots (before : List Placed) : List Placed → List Spot
  | [] => []
  | x :: xs => ⟨before, x, xs⟩ :: spots (before ++ [x]) xs

lemma spots_append (before xs ys : List Placed) :
    spots before (xs ++ ys) =
      (spots before xs).map (Spot.extend ys) ++ spots (before ++ xs) ys := by
  induction xs generalizing before with
  | nil => simp [spots]
  | cons x xs ih => simp [spots, ih, Spot.extend]

lemma eq_append_of_mem_spots {before xs : List Placed} {s : Spot} (h : s ∈ spots before xs) :
    before ++ xs = s.before ++ s.here :: s.behind := by
  induction xs generalizing before with
  | nil => simp [spots] at h
  | cons x xs ih =>
    rcases List.mem_cons.mp h with rfl | h
    · rfl
    · simpa using ih h

/-- The blocks that segments nest to come from their opening tags, one by one. -/
theorem Nests.forall₂_encloses {d d₀ d' : Delimiters} {xs : List Placed} {parts : List Part}
    (h : Nests d xs parts d') {before : List Placed} (hd : d = d₀.after (before.map (·.tag))) :
    List.Forall₂ (Spot.Encloses d₀) (blocks parts) ((spots before xs).filter Spot.opens) := by
  induction h generalizing before with
  | nil => exact .nil
  | @leaf d d' x xs own parts hx hr ih =>
    have hopens : Spot.opens ⟨before, x, xs⟩ = false := isOpening_of_own? hx
    rw [spots, List.filter_cons_of_neg (ne_true_of_eq_false hopens)]
    simpa [blocks_of_own? hx] using @ih (before ++ [x]) (by simp [hd])
  | @block d d₁ d₂ x y inner xs inverted path children parts hx hy hi hr ih₁ ih₂ =>
    let b : Block := ⟨inverted, path, Segment.sourceOf (inner.map toSegment) y.text, d,
      children ++ literal y.kept⟩
    have hopens : Spot.opens ⟨before, x, inner ++ y :: xs⟩ = true := by
      simp [Spot.opens, hx, Tag.isOpening]
    have hcloses : Spot.opens ⟨before ++ [x] ++ inner, y, xs⟩ = false := by
      simp [Spot.opens, hy, Tag.isOpening]
    have hfirst : Spot.Encloses d₀ b ⟨before, x, inner ++ y :: xs⟩ :=
      ⟨hx, hd, inner, y, xs, children, d₁, rfl, hy, rfl, hi, rfl⟩
    have hinner := @ih₁ (before ++ [x]) (by simp [hd, hx, Tag.delimitersAfter])
    have hrest := @ih₂ (before ++ [x] ++ inner ++ [y]) (by
      simp [← hd, hx, hy, Tag.delimitersAfter, hi.after_eq])
    have hinner' : List.Forall₂ (Spot.Encloses d₀) (blocks children)
        (((spots (before ++ [x]) inner).map (Spot.extend (y :: xs))).filter Spot.opens) := by
      rw [List.filter_map, List.forall₂_map_right_iff]
      exact hinner.imp fun b s hs => hs.extend _
    rw [spots, List.filter_cons_of_pos hopens, spots_append, List.filter_append, spots,
      List.filter_cons_of_neg (ne_true_of_eq_false hcloses)]
    simpa using List.Forall₂.cons hfirst (List.rel_append hinner' hrest)

end Placed
end Mustache
