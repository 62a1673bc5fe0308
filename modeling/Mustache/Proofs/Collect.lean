import Mustache.Proofs.Nests

/-! Part trees in the order of the source: their texts and their inclusions, read off the segments
that nest to them. -/
namespace Mustache

namespace Part

variable {α : Type}

mutual

/-- What a part gives, and behind it what its children give. -/
def collectPart (f : Part → List α) : Part → List α
  | .literal text => f (.literal text)
  | .value path escaped => f (.value path escaped)
  | .block inverted path source d children =>
    f (.block inverted path source d children) ++ collect f children
  | .inclusion name indent => f (.inclusion name indent)
  | .switch d => f (.switch d)

/-- What parts give, in the order of the source. -/
def collect (f : Part → List α) : List Part → List α
  | [] => []
  | part :: parts => collectPart f part ++ collect f parts

end

lemma collect_append (f : Part → List α) (ps qs : List Part) :
    collect f (ps ++ qs) = collect f ps ++ collect f qs := by
  induction ps with
  | nil => rfl
  | cons p ps ih => simp [collect, ih]

lemma forall_mem_collect_cons {f : Part → List α} {P : α → Prop} {part : Part}
    {parts : List Part} :
    (∀ x ∈ collect f (part :: parts), P x) ↔
      (∀ x ∈ collect f [part], P x) ∧ ∀ x ∈ collect f parts, P x := by
  rw [← List.singleton_append, collect_append, List.forall_mem_append]

/-- The plain texts of a part tree. -/
def literals : List Part → List Text :=
  collect fun
    | .literal text => [text]
    | _ => []

/-- The inclusions of a part tree, each a name and an indent. -/
def inclusions : List Part → List (Text × Text) :=
  collect fun
    | .inclusion name indent => [(name, indent)]
    | _ => []

/-- The paths that variables and sections of a part tree name. -/
def paths : List Part → List Text :=
  collect fun
    | .value path _ | .block _ path _ _ _ => [path]
    | _ => []

/-- The delimiters that the sources of the sections of a part tree are read with. -/
def delimiters : List Part → List Delimiters :=
  collect fun
    | .block _ _ _ d _ => [d]
    | _ => []

/-- Parts that only name paths, delimiters and inclusions of some sort. -/
structure Admitted (sees : Text → Prop) (reads : Delimiters → Prop) (asks : Text × Text → Prop)
    (parts : List Part) : Prop where
  paths : ∀ path ∈ paths parts, sees path
  delimiters : ∀ d ∈ delimiters parts, reads d
  inclusions : ∀ i ∈ inclusions parts, asks i

@[simp] lemma literals_append (ps qs : List Part) :
    literals (ps ++ qs) = literals ps ++ literals qs :=
  collect_append _ ps qs

@[simp] lemma inclusions_append (ps qs : List Part) :
    inclusions (ps ++ qs) = inclusions ps ++ inclusions qs :=
  collect_append _ ps qs

@[simp] lemma paths_append (ps qs : List Part) : paths (ps ++ qs) = paths ps ++ paths qs :=
  collect_append _ ps qs

@[simp] lemma literals_block_cons (inverted : Bool) (path source : Text) (d : Delimiters)
    (children ps : List Part) :
    literals (.block inverted path source d children :: ps) = literals children ++ literals ps :=
  rfl

@[simp] lemma inclusions_block_cons (inverted : Bool) (path source : Text) (d : Delimiters)
    (children ps : List Part) :
    inclusions (.block inverted path source d children :: ps) =
      inclusions children ++ inclusions ps :=
  rfl

@[simp] lemma paths_block_cons (inverted : Bool) (path source : Text) (d : Delimiters)
    (children ps : List Part) :
    paths (.block inverted path source d children :: ps) = path :: paths children ++ paths ps :=
  rfl

section Admitted

variable {sees : Text → Prop} {reads : Delimiters → Prop} {asks : Text × Text → Prop} {part : Part}
  {parts children : List Part} {path name indent source : Text} {escaped inverted : Bool}
  {d : Delimiters}

lemma admitted_true :
    Admitted (fun _ => True) (fun _ => True) (fun _ => True) parts :=
  ⟨fun _ _ => trivial, fun _ _ => trivial, fun _ _ => trivial⟩

lemma admitted_of_eq_nil (hp : Part.paths parts = []) (hd : Part.delimiters parts = [])
    (hi : Part.inclusions parts = []) : Admitted sees reads asks parts :=
  ⟨by simp [hp], by simp [hd], by simp [hi]⟩

lemma admitted_cons :
    Admitted sees reads asks (part :: parts) ↔
      Admitted sees reads asks [part] ∧ Admitted sees reads asks parts := by
  constructor
  · rintro ⟨hp, hd, hi⟩
    obtain ⟨hp, hp'⟩ := forall_mem_collect_cons.mp hp
    obtain ⟨hd, hd'⟩ := forall_mem_collect_cons.mp hd
    obtain ⟨hi, hi'⟩ := forall_mem_collect_cons.mp hi
    exact ⟨⟨hp, hd, hi⟩, hp', hd', hi'⟩
  · rintro ⟨⟨hp, hd, hi⟩, hp', hd', hi'⟩
    exact ⟨forall_mem_collect_cons.mpr ⟨hp, hp'⟩, forall_mem_collect_cons.mpr ⟨hd, hd'⟩,
      forall_mem_collect_cons.mpr ⟨hi, hi'⟩⟩

lemma admitted_value : Admitted sees reads asks [.value path escaped] ↔ sees path :=
  ⟨fun h => h.paths path (by simp [Part.paths, collect, collectPart]), fun h =>
    ⟨by simpa [Part.paths, collect, collectPart] using h,
      by simp [Part.delimiters, collect, collectPart],
      by simp [Part.inclusions, collect, collectPart]⟩⟩

lemma admitted_inclusion :
    Admitted sees reads asks [.inclusion name indent] ↔ asks (name, indent) :=
  ⟨fun h => h.inclusions (name, indent) (by simp [Part.inclusions, collect, collectPart]), fun h =>
    ⟨by simp [Part.paths, collect, collectPart], by simp [Part.delimiters, collect, collectPart],
      by simpa [Part.inclusions, collect, collectPart] using h⟩⟩

lemma admitted_block :
    Admitted sees reads asks [.block inverted path source d children] ↔
      sees path ∧ reads d ∧ Admitted sees reads asks children := by
  have hpaths : Part.paths [.block inverted path source d children] =
      path :: Part.paths children := List.append_nil _
  have hdelimiters : Part.delimiters [.block inverted path source d children] =
      d :: Part.delimiters children := List.append_nil _
  have hinclusions : Part.inclusions [.block inverted path source d children] =
      Part.inclusions children := List.append_nil _
  constructor
  · rintro ⟨hp, hd, hi⟩
    rw [hpaths, List.forall_mem_cons] at hp
    rw [hdelimiters, List.forall_mem_cons] at hd
    exact ⟨hp.1, hd.1, hp.2, hd.2, hinclusions ▸ hi⟩
  · rintro ⟨hpath, hd, hp, hds, hi⟩
    refine ⟨?_, ?_, hinclusions ▸ hi⟩
    · rw [hpaths, List.forall_mem_cons]
      exact ⟨hpath, hp⟩
    · rw [hdelimiters, List.forall_mem_cons]
      exact ⟨hd, hds⟩

end Admitted
end Part

/-- The inclusion that a tag asks for, given the blanks in front of it if it stands alone. -/
def Tag.inclusion? (alone? : Option Text) : Tag → Option (Text × Text)
  | .inclusion name => some (name, alone?.getD [])
  | _ => none

namespace Placed

open Mustache.Part

/-- The tag of a segment, and the blanks in front of it if it stands alone. -/
def mark (x : Placed) : Tag × Option Text := (x.tag, x.alone?)

def inclusion? (x : Placed) : Option (Text × Text) := x.tag.inclusion? x.alone?

@[simp] lemma literals_literal (s : Text) :
    literals (literal s) = [s].filter (· ≠ []) := by
  unfold literal
  split
  · simp_all [literals, collect]
  · simp_all [literals, collect, collectPart]

@[simp] lemma inclusions_literal (s : Text) : inclusions (literal s) = [] := by
  unfold literal
  split <;> rfl

lemma literals_of_own? {x : Placed} {own : List Part} (h : x.own? = some own) :
    literals own = [] := by
  unfold own? at h
  split at h <;> simp at h <;> subst h <;> rfl

lemma inclusions_of_own? {x : Placed} {own : List Part} (h : x.own? = some own) :
    inclusions own = x.inclusion?.toList := by
  unfold own? at h
  unfold inclusion? Tag.inclusion?
  split at h <;> simp_all <;> subst h <;> rfl

/-- The plain texts of the parts are what is kept of the text of the segments. -/
theorem Nests.literals_eq {d d' : Delimiters} {xs : List Placed} {parts : List Part}
    (h : Nests d xs parts d') : literals parts = (xs.map kept).filter (· ≠ []) := by
  induction h with
  | nil => rfl
  | @leaf d d' x xs own parts hx hr ih =>
    rw [literals_append, literals_append, literals_of_own? hx, ih, literals_literal,
      List.append_nil, ← List.filter_append]
    rfl
  | @block d d₁ d₂ x y inner xs inverted path children parts hx hy hi hr ih₁ ih₂ =>
    rw [literals_append, literals_block_cons, literals_append, ih₁, ih₂, literals_literal,
      literals_literal, ← List.filter_append, ← List.filter_append, ← List.filter_append]
    simp

/-- The inclusions of the parts are those of the tags, in their order. -/
theorem Nests.inclusions_eq {d d' : Delimiters} {xs : List Placed} {parts : List Part}
    (h : Nests d xs parts d') : inclusions parts = xs.filterMap inclusion? := by
  induction h with
  | nil => rfl
  | @leaf d d' x xs own parts hx hr ih =>
    rw [inclusions_append, inclusions_append, inclusions_of_own? hx, ih, inclusions_literal]
    cases hi : x.inclusion? <;> simp [hi]
  | @block d d₁ d₂ x y inner xs inverted path children parts hx hy hi hr ih₁ ih₂ =>
    have hxn : x.inclusion? = none := by simp [inclusion?, Tag.inclusion?, hx]
    have hyn : y.inclusion? = none := by simp [inclusion?, Tag.inclusion?, hy]
    simp [ih₁, ih₂, hxn, hyn]

end Placed
end Mustache
