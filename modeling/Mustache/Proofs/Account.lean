import Mustache.Proofs.Agree
import Mustache.Proofs.Reach

/-! The account of a render: all parts that it comes by, each with the stack it is rendered against,
in the order in which they are begun. The lambdas that are called can be read off it. -/
namespace Mustache

open Data

variable {ν α β : Type}

/-- A part that is rendered against a stack. -/
structure Rendered (ν : Type) where
  part : Part
  stack : Stack ν

/-- The call of the lambda that a path leads to, if it leads to one, over some text. -/
def Stack.callAt (C : Context ν) (s : Stack ν) (path text : Text) : List (Call ν) :=
  match s.resolve? C path with
  | none => []
  | some node =>
    match C.lambda? node with
    | none => []
    | some l => [⟨node, l.label, if l.takesText then some text else none⟩]

/-- The calls that a part makes of its own: a value over a lambda calls it with no text, a section
over one calls it with its source, and nothing else calls any. -/
def Rendered.calls (C : Context ν) (r : Rendered ν) : List (Call ν) :=
  match r.part with
  | .value path _ => r.stack.callAt C path []
  | .block false path source _ _ => r.stack.callAt C path source
  | _ => []

/-- The parts that a computation renders, given the progress it starts from. -/
abbrev Account (ν : Type) := Progress ν → List (Rendered ν)

namespace Account

def nothing : Account ν := fun _ => []

def single (r : Rendered ν) : Account ν := fun _ => [r]

/-- The account of a computation that goes on after another one, if that gives a result. -/
def andThen (x : Account ν) (m : Run ν α) (y : α → Account ν) : Account ν := fun p =>
  x p ++
    match m.run.run p with
    | (.ok a, q) => y a q
    | (.error _, _) => []

/-- The account of one computation for each entry of a list. -/
def each (f : β → Run ν α) (y : β → Account ν) : List β → Account ν
  | [] => nothing
  | x :: xs => (y x).andThen (f x) fun _ => each f y xs

end Account

/-- What is rendered by what a walk leaves to others. -/
structure Beyond.Accounts (ν : Type) where
  expand : Delimiters → Text → Stack ν → Account ν
  inclusion : Text → Text → Stack ν → Account ν

section Walk

variable [DecidableEq ν]

mutual

/-- The parts that are rendered by rendering one part: itself, and then its children as often as it
renders them, the parts of the answer of a lambda, or the parts of the template that it names. -/
def renderedPart (env : Setting ν) (beyond : Beyond ν) (others : Beyond.Accounts ν) (s : Stack ν) :
    Part → Account ν
  | .literal text => .single ⟨.literal text, s⟩
  | .value path escaped => .single ⟨.value path escaped, s⟩
  | .block false path source d children =>
    let own : Rendered ν := ⟨.block false path source d children, s⟩
    match s.occurrence env.context path with
    | .call node l =>
      (Account.single own).andThen (beyond.call node l source) fun text => others.expand d text s
    | .under contexts => (Account.single own).andThen (pure ()) fun _ =>
      .each (fun s => walk env beyond s children) (fun s => rendered env beyond others s children)
        contexts
  | .block true path source d children =>
    (Account.single ⟨.block true path source d children, s⟩).andThen (pure ()) fun _ =>
      if s.nothingAt env.context path then rendered env beyond others s children else .nothing
  | .inclusion name indent =>
    (Account.single ⟨.inclusion name indent, s⟩).andThen (pure ()) fun _ =>
      others.inclusion name indent s
  | .switch d => .single ⟨.switch d, s⟩

def rendered (env : Setting ν) (beyond : Beyond ν) (others : Beyond.Accounts ν) (s : Stack ν) :
    List Part → Account ν
  | [] => .nothing
  | part :: parts =>
    (renderedPart env beyond others s part).andThen (walkPart env beyond s part) fun _ =>
      rendered env beyond others s parts

end

/-- The parts that are rendered by an inclusion. -/
def renderedWith (env : Setting ν)
    (renderedParts : List (Text × ν) → Stack ν → List Part → Account ν)
    (opened : List (Text × ν)) (name indent : Text) (s : Stack ν) : Account ν :=
  Account.nothing.andThen (Run.note env.store? name) fun _ =>
    match env.template? name with
    | none => .nothing
    | some t =>
      if env.renderer.closes opened (name, s.top) then .nothing
      else Account.nothing.andThen (env.renderer.fitted name indent t) fun u =>
        renderedParts ((name, s.top) :: opened) s u.parts

/-- The parts that are rendered by a render. -/
def renderedParts (env : Setting ν) : Nat → List (Text × ν) → Stack ν → List Part → Account ν
  | 0, _, _, _ => .nothing
  | depth + 1, opened, s, parts =>
    rendered env (.below env depth opened)
      { expand := fun d text s =>
          Account.nothing.andThen (Run.compiled (Part.ofSource d text)) fun parts =>
            renderedParts env depth opened s parts
        inclusion := renderedWith env (renderedParts env depth) opened }
      s parts

end Walk

/-- The calls of a computation are those that the parts on its account make of their own. -/
def Account.Tells (C : Context ν) (m : Run ν α) (x : Account ν) : Prop :=
  ∀ p, (m.run.run p).2.calls = ((x p).flatMap (Rendered.calls C)).reverse ++ p.calls

namespace Account.Tells

variable {C : Context ν} {m : Run ν α} {f : α → Run ν β} {x : Account ν} {y : α → Account ν}

lemma pure (a : α) : Tells C (pure a) nothing :=
  fun _ => rfl

lemma throw (e : Stop) : Tells C (throw e : Run ν α) nothing :=
  fun _ => rfl

/-- A part that makes no calls of its own may be added. -/
theorem of_calls_eq_nil (h : Tells C m nothing) {r : Rendered ν} (hr : r.calls C = []) :
    Tells C m (single r) := by
  intro p
  rw [h p]
  simp [single, nothing, hr]

lemma bind (hm : Tells C m x) (hf : ∀ a, Tells C (f a) (y a)) :
    Tells C (m >>= f) (x.andThen m y) := by
  intro p
  have hfirst := hm p
  rw [run_bind, andThen]
  rcases hq : m.run.run p with ⟨e | a, q⟩ <;> rw [hq] at hfirst
  · simpa using hfirst
  · change ((f a).run.run q).2.calls = _
    rw [hf a q, hfirst, List.flatMap_append, List.reverse_append, List.append_assoc]

lemma map (g : α → β) (hm : Tells C m x) : Tells C (g <$> m) x := by
  intro p
  rw [map_eq_pure_bind, ← hm p, run_bind]
  rcases m.run.run p with ⟨e | a, q⟩ <;> rfl

lemma mapM {γ : Type} {f : γ → Run ν α} {y : γ → Account ν} {xs : List γ}
    (h : ∀ x ∈ xs, Tells C (f x) (y x)) : Tells C (xs.mapM f) (each f y xs) := by
  induction xs with
  | nil => exact pure []
  | cons x xs ih =>
    rw [List.mapM_cons]
    refine (h x List.mem_cons_self).bind fun a => ?_
    have hrest := (ih fun y hy => h y (List.mem_cons_of_mem x hy)).map (a :: ·)
    rwa [map_eq_pure_bind] at hrest

/-- Something that makes no calls may be done first. -/
theorem bind_nothing (hm : ∀ p, (m.run.run p).2.calls = p.calls) (hf : ∀ a, Tells C (f a) (y a)) :
    Tells C (m >>= f) (nothing.andThen m y) :=
  bind (fun p => hm p) hf

/-- So may a part that makes no calls of its own be rendered first. -/
theorem single_andThen {r : Rendered ν} (hr : r.calls C = []) (h : Tells C m x) :
    Tells C m ((single r).andThen (Pure.pure ()) fun _ => x) := by
  intro p
  rw [h p]
  change _ = ((r :: x p).flatMap (Rendered.calls C)).reverse ++ p.calls
  rw [List.flatMap_cons, hr, List.nil_append]

end Account.Tells

section Render

variable [DecidableEq ν] {env : Setting ν} {C : Context ν}

/-- A lambda that a path leads to is called once. -/
theorem tells_call {s : Stack ν} {path : Text} {node : ν} {l : Lambda}
    (hn : s.resolve? env.context path = some node) (hl : env.context.lambda? node = some l)
    (text : Text) {r : Rendered ν} (hr : r.calls env.context = s.callAt env.context path text) :
    Account.Tells env.context (Run.call env node l text) (.single r) := by
  intro p
  rw [Run.run_call]
  simp [Account.single, hr, Stack.callAt, hn, hl]

lemma tells_interpolate (s : Stack ν) (path : Text) (escaped : Bool) :
    Account.Tells env.context (interpolate env s path) (.single ⟨.value path escaped, s⟩) := by
  unfold interpolate
  cases hn : s.resolve? env.context path with
  | none => exact .of_calls_eq_nil (.pure []) (by simp [Rendered.calls, Stack.callAt, hn])
  | some node =>
    cases hl : env.context.lambda? node with
    | none =>
      simp only [hl]
      exact .of_calls_eq_nil (.pure _) (by simp [Rendered.calls, Stack.callAt, hn, hl])
    | some l =>
      simp only [hl]
      exact tells_call hn hl [] rfl

/-- What a walk leaves to others makes the calls that are on its account. -/
structure Beyond.Tells (env : Setting ν) (beyond : Beyond ν) (others : Beyond.Accounts ν) :
    Prop where
  call : beyond.call = Run.call env
  expand (d : Delimiters) (text : Text) (s : Stack ν) :
    Account.Tells env.context (beyond.expand d text s) (others.expand d text s)
  inclusion (name indent : Text) (s : Stack ν) :
    Account.Tells env.context (beyond.inclusion name indent s) (others.inclusion name indent s)

variable {beyond : Beyond ν} {others : Beyond.Accounts ν}

mutual

lemma walkPart_tells (h : beyond.Tells env others) (s : Stack ν) : (part : Part) →
    Account.Tells env.context (walkPart env beyond s part) (renderedPart env beyond others s part)
  | .literal text => .of_calls_eq_nil (.pure text) rfl
  | .value path escaped => by
    rw [walkPart, renderedPart, bind_pure_comp]
    exact (tells_interpolate s path escaped).map _
  | .block false path source d children => by
    rw [walkPart, renderedPart]
    cases ho : s.occurrence env.context path with
    | call node l =>
      obtain ⟨hn, hl⟩ := Stack.of_occurrence_eq_call ho
      rw [h.call]
      exact (tells_call hn hl source rfl).bind fun text => h.expand d text s
    | under contexts =>
      refine .single_andThen ?_ (.map _ (.mapM fun c _ => walk_tells h c children))
      rcases Stack.exists_of_occurrence_eq_under ho with ⟨hn, -⟩ | ⟨node, hn, hl, -⟩
      · simp [Rendered.calls, Stack.callAt, hn]
      · simp [Rendered.calls, Stack.callAt, hn, hl]
  | .block true path source d children => by
    rw [walkPart, renderedPart]
    refine .single_andThen rfl ?_
    split
    · exact walk_tells h s children
    · exact .pure []
  | .inclusion name indent => by
    rw [walkPart, renderedPart]
    exact .single_andThen rfl (h.inclusion name indent s)
  | .switch d => .of_calls_eq_nil (.pure []) rfl

/-- The calls of a walk are on its account if those of what it leaves to others are. -/
theorem walk_tells (h : beyond.Tells env others) (s : Stack ν) : (parts : List Part) →
    Account.Tells env.context (walk env beyond s parts) (rendered env beyond others s parts)
  | [] => .pure []
  | part :: parts => by
    rw [walk, rendered]
    refine (walkPart_tells h s part).bind fun text => ?_
    rw [bind_pure_comp]
    exact (walk_tells h s parts).map _

end

lemma inclusion_tells {render : List (Text × ν) → Stack ν → List Part → Run ν Text}
    {account : List (Text × ν) → Stack ν → List Part → Account ν}
    (h : ∀ opened s parts, Account.Tells C (render opened s parts) (account opened s parts))
    (opened : List (Text × ν)) (name indent : Text) (s : Stack ν) :
    Account.Tells C (env.renderer.inclusion render opened name indent s)
      (renderedWith env account opened name indent s) := by
  unfold Renderer.inclusion renderedWith
  refine .bind_nothing (fun p => ?_) fun _ => ?_
  · change ((Run.note env.store? name).run.run p).2.calls = p.calls
    rw [Run.run_note]
    split <;> rfl
  · rw [show env.renderer.template? = env.template? from rfl]
    cases env.template? name with
    | none => exact .pure []
    | some t =>
      dsimp only
      split
      · exact .throw _
      · refine .bind_nothing (fun p => ?_) fun u => h _ s u.parts
        unfold Renderer.fitted
        split
        · rfl
        · obtain ⟨kept, hkept⟩ := Run.run_indented_eq name indent t p
          change ((Run.indented name indent t).run.run p).2.calls = p.calls
          rw [hkept]

lemma renderParts_tells (depth : Nat) (opened : List (Text × ν)) (s : Stack ν)
    (parts : List Part) :
    Account.Tells env.context (renderParts env depth opened s parts)
      (renderedParts env depth opened s parts) := by
  induction depth generalizing opened s parts with
  | zero => exact .throw _
  | succ depth ih =>
    rw [renderParts_succ, renderedParts]
    refine walk_tells ⟨rfl, fun d text s => ?_, inclusion_tells ih opened⟩ s parts
    refine .bind_nothing (fun p => ?_) fun parts => ih opened s parts
    rw [Run.run_compiled]

/-- The parts that the render of a template comes by, in the order in which they are begun. -/
def Template.rendered (t : Template) (env : Setting ν) (depth : Nat) (root : ν) :
    List (Rendered ν) :=
  renderedParts env depth [] (Stack.ofRoot root) t.parts .start

/-- The calls of a render are those that the parts it comes by make of their own, in their order. -/
theorem Template.calls_render (t : Template) (env : Setting ν) (depth : Nat) (root : ν) :
    (t.render env depth root).calls =
      (t.rendered env depth root).flatMap (Rendered.calls env.context) := by
  have h := @renderParts_tells ν _ env depth [] (Stack.ofRoot root) t.parts .start
  rw [show (Progress.start : Progress ν).calls = [] from rfl, List.append_nil] at h
  exact (congrArg List.reverse h).trans (List.reverse_reverse _)

end Render

end Mustache
