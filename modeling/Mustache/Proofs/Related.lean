import Mustache.Proofs.Collect
import Mustache.Render

/-! Related computations: renders of the same parts, over one setting or over two that are paired,
are related if what they leave to others is, whatever the relation is that doing one thing after the
other keeps. -/
namespace Mustache

open Data

variable {ν : Type}

namespace Run

/-- A relation between computations that doing one thing after the other keeps. -/
structure Relation (ν : Type) where
  Rel : {α : Type} → Run ν α → Run ν α → Prop
  pure {α : Type} (a : α) : Rel (pure a) (pure a)
  throw {α : Type} (e : Stop) : Rel (throw e : Run ν α) (throw e)
  bind {α β : Type} {m m' : Run ν α} {f f' : α → Run ν β} (hm : Rel m m')
    (hf : ∀ a, Rel (f a) (f' a)) : Rel (m >>= f) (m' >>= f')

namespace Relation

variable (R : Relation ν) {α β : Type}

lemma map {m m' : Run ν α} (f : α → β) (hm : R.Rel m m') : R.Rel (f <$> m) (f <$> m') := by
  rw [map_eq_pure_bind, map_eq_pure_bind]
  exact R.bind hm fun a => R.pure (f a)

lemma mapM {f f' : β → Run ν α} {xs : List β} (hf : ∀ x ∈ xs, R.Rel (f x) (f' x)) :
    R.Rel (xs.mapM f) (xs.mapM f') := by
  induction xs with
  | nil => exact R.pure []
  | cons x xs ih =>
    rw [List.mapM_cons, List.mapM_cons]
    refine R.bind (hf x List.mem_cons_self) fun a => ?_
    exact R.bind (ih fun y hy => hf y (List.mem_cons_of_mem x hy)) fun as => R.pure (a :: as)

lemma compiled (x : Except SyntaxError α) : R.Rel (Run.compiled x) (Run.compiled x) := by
  cases x with
  | ok a => exact R.pure a
  | error e => exact R.throw _

end Relation

/-- Computations that are the same. -/
def equality (ν : Type) : Relation ν where
  Rel := Eq
  pure _ := rfl
  throw _ := rfl
  bind hm hf := by rw [hm, funext hf]

/-- What a store answers for a name, if there is a store. -/
def answer? (store? : Option (Text → Option Template)) (name : Text) : Option Template :=
  store?.bind fun get? => get? name

lemma answer?_map_get? (env : Setting ν) :
    answer? (env.store?.map Store.get?) = env.template? := by
  funext name
  unfold answer? Setting.template?
  cases env.store? <;> rfl

end Run

/-- How a renderer comes by an indented template, given its name. -/
abbrev Indenter (ν : Type) := Text → Text → Template → Run ν Template

lemma Stack.of_occurrence_eq_call {C : Context ν} {s : Stack ν} {path : Text} {node : ν}
    {l : Lambda} (h : s.occurrence C path = .call node l) :
    s.resolve? C path = some node ∧ C.lambda? node = some l := by
  unfold occurrence at h
  split at h
  · simp at h
  · rename_i found hn
    split at h
    · rename_i l' hl
      obtain ⟨rfl, rfl⟩ := Occurrence.call.inj h
      exact ⟨hn, hl⟩
    · split at h
      · simp at h
      · split at h
        · simp at h
        · split at h <;> simp at h

namespace Renderer

variable {R : Run.Relation ν} {τ τ' : Type} {r : Renderer ν τ} {r' : Renderer ν τ'}

/-- Inclusions are related if they find the same templates and close the same cycles, and if what is
rendered of a template is related. -/
theorem inclusion_related (htemplate : r'.template? = r.template?) (hcloses : r'.closes = r.closes)
    {render : List (Text × ν) → Stack ν → τ → Run ν Text}
    {render' : List (Text × ν) → Stack ν → τ' → Run ν Text} {opened : List (Text × ν)}
    {name indent : Text} {s : Stack ν} (hnote : R.Rel (r.note name) (r'.note name))
    (hrender : ∀ t, r.template? name = some t →
      R.Rel (do render ((name, s.top) :: opened) s (r.tree (← r.fitted name indent t)))
        (do render' ((name, s.top) :: opened) s (r'.tree (← r'.fitted name indent t)))) :
    R.Rel (r.inclusion render opened name indent s)
      (r'.inclusion render' opened name indent s) := by
  cases ht : r.template? name with
  | none =>
    rw [inclusion_of_none ht, inclusion_of_none (htemplate ▸ ht)]
    exact R.bind hnote fun _ => R.pure []
  | some t =>
    rw [inclusion_of_some ht, inclusion_of_some (htemplate ▸ ht), hcloses]
    refine R.bind hnote fun _ => ?_
    split
    · exact R.throw _
    · exact hrender t ht

lemma fitted_related {name indent : Text} {t : Template}
    (h : R.Rel (r.indented name indent t) (r'.indented name indent t)) :
    R.Rel (r.fitted name indent t) (r'.fitted name indent t) := by
  rw [fitted, fitted]
  split
  · exact R.pure t
  · exact h

end Renderer

variable [DecidableEq ν]

/-- Two settings answer alike about a node, and calls of a lambda that is there are related. -/
structure Setting.PairsAt (R : Run.Relation ν) (env env' : Setting ν) (node : ν) : Prop where
  children? : env'.context.children? node = env.context.children? node
  value : env'.context.value node = env.context.value node
  falsy : env'.context.falsy node = env.context.falsy node
  isBool : env'.context.isBool node = env.context.isBool node
  plain (h : env.context.lambda? node = none) : env'.context.lambda? node = none
  call (l : Lambda) (h : env.context.lambda? node = some l) :
    ∃ l', env'.context.lambda? node = some l' ∧
      ∀ text, R.Rel (Run.call env node l text) (Run.call env' node l' text)

/-- Two settings are paired on stacks that walks stay on: paths that are seen lead to the same
nodes, about which the settings answer alike. -/
structure Setting.Pairs (R : Run.Relation ν) (env env' : Setting ν) (P : Stack ν → Prop)
    (sees : Text → Prop) : Prop where
  resolve? (s : Stack ν) (path : Text) (hs : P s) (hp : sees path) :
    s.resolve? env'.context path = s.resolve? env.context path
  node (s : Stack ν) (path : Text) (node : ν) (hs : P s)
    (hn : s.resolve? env.context path = some node) : env.PairsAt R env' node
  stays (s : Stack ν) (path : Text) (contexts : List (Stack ν)) (hs : P s)
    (ho : s.occurrence env.context path = .under contexts) : ∀ c ∈ contexts, P c

namespace Setting.Pairs

variable {R : Run.Relation ν} {env env' : Setting ν} {P : Stack ν → Prop} {sees : Text → Prop}

lemma interpolate (h : env.Pairs R env' P sees) {s : Stack ν} {path : Text} (hs : P s)
    (hp : sees path) :
    R.Rel (Mustache.interpolate env s path) (Mustache.interpolate env' s path) := by
  unfold Mustache.interpolate
  rw [h.resolve? s path hs hp]
  cases hn : s.resolve? env.context path with
  | none => exact R.pure []
  | some node =>
    have hnode := h.node s path node hs hn
    cases hl : env.context.lambda? node with
    | none =>
      simp only [hl, hnode.plain hl, hnode.value]
      exact R.pure _
    | some l =>
      obtain ⟨l', hl', hcall⟩ := hnode.call l hl
      simp only [hl, hl']
      exact hcall []

lemma occurrence_under (h : env.Pairs R env' P sees) {s : Stack ν} {path : Text} (hs : P s)
    (hp : sees path) {contexts : List (Stack ν)}
    (ho : s.occurrence env.context path = .under contexts) :
    s.occurrence env'.context path = .under contexts := by
  rw [← ho, Stack.occurrence, Stack.occurrence, h.resolve? s path hs hp]
  cases hn : s.resolve? env.context path with
  | none => rfl
  | some node =>
    have hnode := h.node s path node hs hn
    cases hl : env.context.lambda? node with
    | none => simp only [hl, hnode.plain hl, hnode.children?, hnode.falsy, hnode.isBool]
    | some l => simp [Stack.occurrence, hn, hl] at ho

lemma occurrence_call (h : env.Pairs R env' P sees) {s : Stack ν} {path : Text} (hs : P s)
    (hp : sees path) {node : ν} {l : Lambda} (ho : s.occurrence env.context path = .call node l) :
    ∃ l', s.occurrence env'.context path = .call node l' ∧
      ∀ text, R.Rel (Run.call env node l text) (Run.call env' node l' text) := by
  obtain ⟨hn, hl⟩ := Stack.of_occurrence_eq_call ho
  obtain ⟨l', hl', hcall⟩ := (h.node s path node hs hn).call l hl
  refine ⟨l', ?_, hcall⟩
  simp only [Stack.occurrence, h.resolve? s path hs hp, hn, hl']

/-- Inverted sections are rendered over the same paths. -/
theorem nothingAt (h : env.Pairs R env' P sees) {s : Stack ν} {path : Text} (hs : P s)
    (hp : sees path) : s.nothingAt env'.context path = s.nothingAt env.context path := by
  cases ho : s.occurrence env.context path with
  | under contexts =>
    rw [Stack.nothingAt_of_occurrence_under ho,
      Stack.nothingAt_of_occurrence_under (h.occurrence_under hs hp ho)]
  | call node l =>
    obtain ⟨l', ho', -⟩ := h.occurrence_call hs hp ho
    rw [Stack.nothingAt_of_occurrence_call ho, Stack.nothingAt_of_occurrence_call ho']

end Setting.Pairs

/-- What two walks over paired settings leave to others is related as well. -/
structure Beyond.Paired (R : Run.Relation ν) (env env' : Setting ν) (P : Stack ν → Prop)
    (sees : Text → Prop) (reads : Delimiters → Prop) (asks : Text × Text → Prop)
    (beyond beyond' : Beyond ν) : Prop extends env.Pairs R env' P sees where
  calls : beyond.call = Run.call env ∧ beyond'.call = Run.call env'
  expand (d : Delimiters) (text : Text) (s : Stack ν) (path : Text) (node : ν) (l : Lambda)
    (hs : P s) (hd : reads d) (hn : s.resolve? env.context path = some node)
    (hl : env.context.lambda? node = some l) :
    R.Rel (beyond.expand d text s) (beyond'.expand d text s)
  inclusion (name indent : Text) (s : Stack ν) (hs : P s) (ha : asks (name, indent)) :
    R.Rel (beyond.inclusion name indent s) (beyond'.inclusion name indent s)

namespace Beyond.Paired

variable {R : Run.Relation ν} {env env' : Setting ν} {P : Stack ν → Prop} {sees : Text → Prop}
  {reads : Delimiters → Prop} {asks : Text × Text → Prop} {beyond beyond' : Beyond ν}

mutual

lemma walkPart (h : Paired R env env' P sees reads asks beyond beyond') {s : Stack ν} (hs : P s) :
    (part : Part) → Part.Admitted sees reads asks [part] →
      R.Rel (Mustache.walkPart env beyond s part) (Mustache.walkPart env' beyond' s part)
  | .literal text, _ => R.pure text
  | .value path escaped, ha => by
    rw [Mustache.walkPart, Mustache.walkPart]
    exact R.bind (h.interpolate hs (Part.admitted_value.mp ha)) fun text => R.pure _
  | .block false path source d children, ha => by
    obtain ⟨hp, hd, hchildren⟩ := Part.admitted_block.mp ha
    rw [Mustache.walkPart, Mustache.walkPart]
    cases ho : s.occurrence env.context path with
    | call node l =>
      obtain ⟨hn, hl⟩ := Stack.of_occurrence_eq_call ho
      obtain ⟨l', ho', hcall⟩ := h.occurrence_call hs hp ho
      rw [ho', h.calls.1, h.calls.2]
      exact R.bind (hcall source) fun text => h.expand d text s path node l hs hd hn hl
    | under contexts =>
      rw [h.occurrence_under hs hp ho]
      exact R.map _ (R.mapM fun c hc => walk h (h.stays s path contexts hs ho c hc) children
        hchildren)
  | .block true path source d children, ha => by
    obtain ⟨hp, -, hchildren⟩ := Part.admitted_block.mp ha
    rw [Mustache.walkPart, Mustache.walkPart, h.nothingAt hs hp]
    split
    · exact walk h hs children hchildren
    · exact R.pure []
  | .inclusion name indent, ha => h.inclusion name indent s hs (Part.admitted_inclusion.mp ha)
  | .switch _, _ => R.pure []

/-- Walks over the same parts are related if what they leave to others is. -/
theorem walk (h : Paired R env env' P sees reads asks beyond beyond') {s : Stack ν} (hs : P s) :
    (parts : List Part) → Part.Admitted sees reads asks parts →
      R.Rel (Mustache.walk env beyond s parts) (Mustache.walk env' beyond' s parts)
  | [], _ => R.pure []
  | part :: parts, ha => by
    obtain ⟨hpart, hparts⟩ := Part.admitted_cons.mp ha
    rw [Mustache.walk, Mustache.walk]
    exact R.bind (walkPart h hs part hpart) fun text =>
      R.bind (walk h hs parts hparts) fun rest => R.pure (text ++ rest)

end

end Beyond.Paired

/-- Computations over data are related to themselves on stacks that walks stay on: sections are
rendered under such stacks again, and lambdas that are found there may be called. -/
structure Setting.Keeps (R : Run.Relation ν) (env : Setting ν) (P : Stack ν → Prop) : Prop where
  stays (s : Stack ν) (path : Text) (contexts : List (Stack ν)) (hs : P s)
    (ho : s.occurrence env.context path = .under contexts) : ∀ c ∈ contexts, P c
  call (s : Stack ν) (path : Text) (node : ν) (l : Lambda) (text : Text) (hs : P s)
    (hn : s.resolve? env.context path = some node) (hl : env.context.lambda? node = some l) :
    R.Rel (Run.call env node l text) (Run.call env node l text)

/-- Then the setting is paired with itself. -/
theorem Setting.Keeps.pairs {R : Run.Relation ν} {env : Setting ν} {P : Stack ν → Prop}
    (h : env.Keeps R P) : env.Pairs R env P fun _ => True where
  resolve? _ _ _ _ := rfl
  node s path node hs hn := ⟨rfl, rfl, rfl, rfl, id, fun l hl =>
    ⟨l, hl, fun text => h.call s path node l text hs hn hl⟩⟩
  stays := h.stays

namespace Renderer

variable {R : Run.Relation ν}

/-- Two renderers of part trees over paired settings. They find the same templates and close the
same cycles; how they note names and come by indented templates is related. -/
structure Paired (R : Run.Relation ν) (env env' : Setting ν) (P : Stack ν → Prop)
    (r r' : Renderer ν (List Part)) : Prop extends env.Pairs R env' P fun _ => True where
  template? : r'.template? = r.template?
  closes : r'.closes = r.closes
  note (name : Text) : R.Rel (r.note name) (r'.note name)
  indented (name indent : Text) (t : Template) (ht : r.template? name = some t) :
    R.Rel (r.indented name indent t) (r'.indented name indent t)
  calls : r.call = Run.call env ∧ r'.call = Run.call env'
  tree : r.tree = Template.parts ∧ r'.tree = Template.parts
  walk : r.walk = Mustache.walk env ∧ r'.walk = Mustache.walk env'

/-- Renders of the same parts by paired renderers are related. -/
theorem Paired.render {env env' : Setting ν} {P : Stack ν → Prop} {r r' : Renderer ν (List Part)}
    (h : r.Paired R env env' P r') (depth : Nat) (opened : List (Text × ν)) {s : Stack ν} (hs : P s)
    (parts : List Part) :
    R.Rel (r.render depth opened s parts) (r'.render depth opened s parts) := by
  induction depth generalizing opened s parts with
  | zero => exact R.throw _
  | succ depth ih =>
    have hbelow : Beyond.Paired R env env' P (fun _ => True) (fun _ => True) (fun _ => True)
        (r.below (r.render depth) opened) (r'.below (r'.render depth) opened) :=
      { h.toPairs with
        calls := h.calls
        expand := fun d text s _ _ _ hs _ _ _ => by
          rw [below, below, h.tree.1, h.tree.2]
          exact R.bind (R.compiled _) fun parts => ih opened hs parts
        inclusion := fun name indent s hs _ => by
          refine inclusion_related h.template? h.closes (h.note name) fun t ht => ?_
          rw [h.tree.1, h.tree.2]
          exact R.bind (fitted_related (h.indented name indent t ht)) fun u => ih _ hs u.parts }
    rw [Renderer.render, Renderer.render, h.walk.1, h.walk.2]
    exact hbelow.walk hs parts Part.admitted_true

end Renderer

/-- A renderer over any store that answers by the name alone, with any way to indent. -/
def Setting.rendererBy (env : Setting ν) (store? : Option (Text → Option Template))
    (indenter : Indenter ν) : Renderer ν (List Part) :=
  { env.renderer with
    template? := Run.answer? store?
    note := Run.note store?
    indented := indenter }

/-- Renders parts with any such store and any way to indent. -/
def renderBy (env : Setting ν) (store? : Option (Text → Option Template)) (indenter : Indenter ν) :
    Nat → List (Text × ν) → Stack ν → List Part → Run ν Text :=
  (env.rendererBy store? indenter).render

/-- The renderer is the one over its own store that keeps what it has indented. -/
theorem renderBy_indented (env : Setting ν) :
    renderBy env (env.store?.map Store.get?) Run.indented = renderParts env := by
  have hnote : Run.note (ν := ν) (env.store?.map Store.get?) = Run.note env.store? := by
    funext name
    rw [Run.note, Run.note, Option.isSome_map]
  rw [renderBy, Setting.rendererBy, Run.answer?_map_get?, hnote]
  rfl

variable {R : Run.Relation ν} {env env' : Setting ν} {P : Stack ν → Prop}
  {store? : Option (Text → Option Template)} {indenter indenter' : Indenter ν}

/-- Renders of the same parts over paired settings are related if the ways that they indent
templates are. -/
theorem renderBy_paired (henv : env.Pairs R env' P fun _ => True)
    (hnote : ∀ name, R.Rel (Run.note store? name) (Run.note store? name))
    (hindent : ∀ name indent t, Run.answer? store? name = some t →
      R.Rel (indenter name indent t) (indenter' name indent t)) (depth : Nat)
    (opened : List (Text × ν)) {s : Stack ν} (hs : P s) (parts : List Part) :
    R.Rel (renderBy env store? indenter depth opened s parts)
      (renderBy env' store? indenter' depth opened s parts) := by
  have hpaired : Renderer.Paired R env env' P (env.rendererBy store? indenter)
      (env'.rendererBy store? indenter') :=
    { henv with
      template? := rfl
      closes := rfl
      note := hnote
      indented := hindent
      calls := ⟨rfl, rfl⟩
      tree := ⟨rfl, rfl⟩
      walk := ⟨rfl, rfl⟩ }
  exact hpaired.render depth opened hs parts

/-- Renders of the same parts are related if the ways that they indent templates are. -/
theorem renderBy_related (henv : env.Keeps R P)
    (hnote : ∀ name, R.Rel (Run.note store? name) (Run.note store? name))
    (hindent : ∀ name indent t, Run.answer? store? name = some t →
      R.Rel (indenter name indent t) (indenter' name indent t)) (depth : Nat)
    (opened : List (Text × ν)) {s : Stack ν} (hs : P s) (parts : List Part) :
    R.Rel (renderBy env store? indenter depth opened s parts)
      (renderBy env store? indenter' depth opened s parts) :=
  renderBy_paired henv.pairs hnote hindent depth opened hs parts

end Mustache
