import Mustache.Proofs.Inclusion

/-! How a render over data without lambdas ends, said by the paths of its openings: with a cycle
when one of them opens a template again, too deep when one of them is too long, with text
otherwise. -/
namespace Mustache

open Data Text

variable {ν : Type}

/-- Openings of which none is open already and no two are the same, up to the frames below the
top. -/
def Fresh (opened : List (Text × ν)) (os : List (Opening ν)) : Prop :=
  (∀ o ∈ os, o.key ∉ opened) ∧ (os.map Opening.key).Nodup

lemma fresh_nil (opened : List (Text × ν)) : Fresh opened [] :=
  ⟨by simp, .nil⟩

lemma fresh_cons_iff {opened : List (Text × ν)} {o : Opening ν} {os : List (Opening ν)} :
    Fresh opened (o :: os) ↔ o.key ∉ opened ∧ Fresh (o.key :: opened) os := by
  rw [Fresh, Fresh, List.forall_mem_cons, List.map_cons, List.nodup_cons, List.mem_map]
  simp only [List.mem_cons, not_or]
  constructor
  · rintro ⟨⟨ho, hos⟩, hn, hd⟩
    exact ⟨ho, fun o' h => ⟨fun he => hn ⟨o', h, he⟩, hos o' h⟩, hd⟩
  · rintro ⟨ho, hos, hd⟩
    exact ⟨⟨ho, fun o' h => (hos o' h).2⟩, fun ⟨o', h, he⟩ => (hos o' h).1 he, hd⟩

/-- Openings of which none closes a cycle with what is open in front of it. -/
def Passes (closes : List (Text × ν) → Text × ν → Bool) : List (Text × ν) → List (Opening ν) → Prop
  | _, [] => True
  | opened, o :: os => closes opened o.key = false ∧ Passes closes (o.key :: opened) os

lemma passes_iff_fresh [DecidableEq ν] {opened : List (Text × ν)} {os : List (Opening ν)} :
    Passes (fun opened key => decide (key ∈ opened)) opened os ↔ Fresh opened os := by
  induction os generalizing opened with
  | nil => exact iff_of_true trivial (fresh_nil opened)
  | cons o os ih => rw [Passes, ih, fresh_cons_iff, decide_eq_false_iff_not]

lemma passes_of_never (opened : List (Text × ν)) (os : List (Opening ν)) :
    Passes (fun _ _ => false) opened os := by
  induction os generalizing opened with
  | nil => trivial
  | cons o os ih => exact ⟨rfl, ih _⟩

namespace Setting

/-- How a render can stop short, if some paths of openings are let pass: never, if all paths are
let pass and none is too long; otherwise because of such a path. -/
def Stops (env : Setting ν) (passes : List (Opening ν) → Prop) (depth : Nat) (s : Stack ν)
    (parts : List Part) : Option Stop → Prop
  | none => ∀ os, env.IsPath s parts os → os.length < depth ∧ passes os
  | some (.error (.partialCycle _)) => ∃ os, env.IsPath s parts os ∧ ¬ passes os
  | some .tooDeep => ∃ os, env.IsPath s parts os ∧ os.length = depth ∧ passes os
  | some _ => False

lemma stops_congr {env : Setting ν} {passes : List (Opening ν) → Prop} {depth : Nat}
    {s : Stack ν} {ps qs : List Part}
    (h : (visits env.context s ps).map Visit.key = (visits env.context s qs).map Visit.key)
    (r : Option Stop) : env.Stops passes depth s ps r ↔ env.Stops passes depth s qs r := by
  have hp := isPath_congr h
  unfold Stops
  split <;> simp [hp]

/-- What stops no deeper than it may comes to text or to a cycle. -/
theorem Stops.text_or_cycle {env : Setting ν} {passes : List (Opening ν) → Prop} {depth : Nat}
    {s : Stack ν} {parts : List Part} {x : Except Stop Text}
    (h : env.Stops passes depth s parts (stop? x)) (hx : x ≠ .error .tooDeep) :
    (∃ text, x = .ok text) ∨ ∃ chain, x = .error (.error (.partialCycle chain)) := by
  cases x with
  | ok text => exact .inl ⟨text, rfl⟩
  | error e =>
    cases e with
    | tooDeep => exact absurd rfl hx
    | error e =>
      cases e with
      | partialCycle chain => exact .inr ⟨chain, rfl⟩
      | badSyntax e => exact h.elim
      | lambdaFailed m => exact h.elim

/-- How an inclusion can stop short, given which openings pass, and which paths behind them. -/
def StopsAt (env : Setting ν) (passes : Opening ν → Prop)
    (after : Opening ν → List (Opening ν) → Prop) (depth : Nat) (v : Visit ν) :
    Option Stop → Prop
  | none => ∀ t, env.template? v.name = some t →
      passes ⟨v.name, t, v.stack⟩ ∧
        env.Stops (after ⟨v.name, t, v.stack⟩) depth v.stack t.parts none
  | some e => ∃ t, env.template? v.name = some t ∧
      (¬ passes ⟨v.name, t, v.stack⟩ ∧ (∃ chain, e = .error (.partialCycle chain)) ∨
        passes ⟨v.name, t, v.stack⟩ ∧
          env.Stops (after ⟨v.name, t, v.stack⟩) depth v.stack t.parts (some e))

/-- Parts stop short as the inclusions do that a walk over them comes by, one level further up. -/
theorem stops_of_each {env : Setting ν} {passes : List (Opening ν) → Prop}
    {first : Opening ν → Prop} {after : Opening ν → List (Opening ν) → Prop} (hnil : passes [])
    (hcons : ∀ o os, passes (o :: os) ↔ first o ∧ after o os) {depth : Nat} {s : Stack ν}
    {parts : List Part} {r : Option Stop}
    (h : each (env.StopsAt first after depth) (visits env.context s parts) r) :
    env.Stops passes (depth + 1) s parts r := by
  cases r with
  | none =>
    rintro (_ | ⟨o, os⟩) hp
    · exact ⟨Nat.succ_pos depth, hnil⟩
    · obtain ⟨ho, hos⟩ := hp
      obtain ⟨v, hv, hname, hstack, ht⟩ := mem_openings_iff.mp ho
      obtain ⟨name, t, stack⟩ := o
      obtain rfl := hname
      obtain rfl := hstack
      obtain ⟨hfirst, hrest⟩ := h v hv t ht
      obtain ⟨hlength, hafter⟩ := hrest os hos
      exact ⟨Nat.succ_lt_succ hlength, (hcons _ _).mpr ⟨hfirst, hafter⟩⟩
  | some e =>
    obtain ⟨v, hv, t, ht, h⟩ := h
    let o : Opening ν := ⟨v.name, t, v.stack⟩
    have ho : o ∈ env.openings s parts := mem_openings_iff.mpr ⟨v, hv, rfl, rfl, ht⟩
    rcases h with ⟨hnot, chain, rfl⟩ | ⟨hfirst, h⟩
    · exact ⟨[o], ⟨ho, trivial⟩, fun hp => hnot ((hcons _ _).mp hp).1⟩
    · cases e with
      | tooDeep =>
        obtain ⟨os, hos, hlength, hafter⟩ := h
        exact ⟨o :: os, ⟨ho, hos⟩, congrArg _ hlength, (hcons _ _).mpr ⟨hfirst, hafter⟩⟩
      | error e =>
        cases e with
        | partialCycle chain =>
          obtain ⟨os, hos, hnot⟩ := h
          exact ⟨o :: os, ⟨ho, hos⟩, fun hp => hnot ((hcons _ _).mp hp).2⟩
        | badSyntax e => exact h.elim
        | lambdaFailed m => exact h.elim

end Setting

variable [DecidableEq ν] {env : Setting ν} {root : ν}

/-- An inclusion stops short as its template does, if that may be opened. -/
theorem inclusion_stops (hc : env.Compiled) {v : Visit ν} (hi : Blank v.indent)
    {closes : List (Text × ν) → Text × ν → Bool}
    {render : List (Text × ν) → Stack ν → List Part → Run ν Text} {opened : List (Text × ν)}
    {after : Opening ν → List (Opening ν) → Prop} {depth : Nat}
    (hrender : ∀ t (u : Template), u.Compiled →
      Run.Ends env.Kept (render ((v.name, v.stack.top) :: opened) v.stack u.parts) fun x =>
        env.Stops (after ⟨v.name, t, v.stack⟩) depth v.stack u.parts (stop? x)) :
    Run.Ends env.Kept ((env.closingBy closes).inclusion render opened v.name v.indent v.stack)
      fun x => env.StopsAt (fun o => closes opened o.key = false) after depth v (stop? x) := by
  apply Run.inclusion_ends hc hi
  · intro hnone t ht
    simp [hnone] at ht
  · intro t ht ho
    exact ⟨t, ht, .inl ⟨ne_false_of_eq_true ho, _, rfl⟩⟩
  · intro t ht ho u hu hkeys
    apply (hrender t u hu).mono
    intro x hx
    rw [Setting.stops_congr (hkeys _)] at hx
    cases x with
    | ok text =>
      intro t' ht'
      obtain rfl := Option.some.inj (ht.symm.trans ht')
      exact ⟨ho, hx⟩
    | error e => exact ⟨t, ht, .inr ⟨ho, hx⟩⟩

/-- However cycles are told, rendering ends with text, with a cycle or too deep, as its paths
tell. -/
theorem closingBy_ends (hc : env.Compiled) (hf : env.context.LambdaFree root)
    (closes : List (Text × ν) → Text × ν → Bool) (depth : Nat) (opened : List (Text × ν))
    {s : Stack ν} (hs : s.Within env.context root) {parts : List Part}
    (hi : ∀ i ∈ Part.inclusions parts, Blank i.2) :
    Run.Ends env.Kept ((env.closingBy closes).render depth opened s parts) fun x =>
      env.Stops (Passes closes opened) depth s parts (stop? x) := by
  induction depth generalizing opened s parts with
  | zero => exact .throw ⟨[], trivial, rfl, trivial⟩
  | succ depth ih =>
    refine (walk_ends hf hs parts fun v hv => ?_).mono fun x hx =>
      Setting.stops_of_each trivial (fun _ _ => Iff.rfl) hx
    refine inclusion_stops hc (hi _ (mem_inclusions_of_visits parts hv)) ?_
    exact fun t u hu => ih _ (within_of_visits hf hs parts hv) fun i => hu.blank

/-- Rendering ends with a cycle where something is opened again. -/
theorem renderParts_ends (hc : env.Compiled) (hf : env.context.LambdaFree root) (depth : Nat)
    (opened : List (Text × ν)) {s : Stack ν} (hs : s.Within env.context root) {parts : List Part}
    (hi : ∀ i ∈ Part.inclusions parts, Blank i.2) :
    Run.Ends env.Kept (renderParts env depth opened s parts) fun x =>
      env.Stops (Fresh opened) depth s parts (stop? x) := by
  rw [show Fresh opened = Passes _ opened from funext fun os => propext passes_iff_fresh.symm]
  exact closingBy_ends hc hf _ depth opened hs hi

/-- Renders parts as before, but does not look at what is open: every template that is found is
rendered. -/
def renderUnchecked (env : Setting ν) (depth : Nat) (s : Stack ν) (parts : List Part) :
    Run ν Text :=
  (env.closingBy fun _ _ => false).render depth [] s parts

/-- Rendering without that look ends with text or too deep. -/
theorem renderUnchecked_ends (hc : env.Compiled) (hf : env.context.LambdaFree root) (depth : Nat)
    {s : Stack ν} (hs : s.Within env.context root) {parts : List Part}
    (hi : ∀ i ∈ Part.inclusions parts, Blank i.2) :
    Run.Ends env.Kept (renderUnchecked env depth s parts) fun x =>
      env.Stops (fun _ => True) depth s parts (stop? x) := by
  rw [show (fun _ => True) = Passes (fun _ _ => false) ([] : List (Text × ν)) from
    funext fun os => propext (iff_of_true trivial (passes_of_never [] os))]
  exact closingBy_ends hc hf _ depth [] hs hi

end Mustache
