import Mustache.Data.Json
import Mustache.Proofs.Escapes
import Mustache.Proofs.Mirror

/-! Markup: a template that escapes its values renders to what it would be without escaping them,
escaped as a whole. Data can put no markup into it. -/
namespace Mustache

open Data Text

/-- One store has the templates of the other one with their values unescaped. -/
def Store.Unescapes (store store' : Store) : Prop :=
  List.Forall₂ (fun e e' => e'.1 = e.1 ∧ e.2.Unescapes e'.2) store.entries store'.entries

/-- A store of templates that let no markup through. -/
def Store.Escapes (store : Store) : Prop :=
  ∀ e ∈ store.entries, e.2.Escapes

namespace Store

lemma Escapes.exists_unescapes {store : Store} (h : store.Escapes) :
    ∃ store', store.Unescapes store' := by
  have hall (t : Template) : ∃ t', t.Escapes → t.Unescapes t' := by
    by_cases ht : t.Escapes
    · obtain ⟨t', hu⟩ := ht.exists_unescapes
      exact ⟨t', fun _ => hu⟩
    · exact ⟨t, fun h => absurd h ht⟩
  choose f hf using hall
  have hnames : (store.entries.map fun e => (e.1, f e.2)).map Prod.fst = store.names := by
    rw [List.map_map]
    rfl
  refine ⟨⟨store.entries.map fun e => (e.1, f e.2), hnames ▸ store.names_nodup⟩, ?_⟩
  exact List.forall₂_map_right_iff.mpr (List.forall₂_same.mpr fun e he => ⟨rfl, hf e.2 (h e he)⟩)

lemma Unescapes.eq {store u v : Store} (hu : store.Unescapes u) (hv : store.Unescapes v) :
    u = v := by
  have hunique : Relator.RightUnique fun e e' : Text × Template =>
      e'.1 = e.1 ∧ e.2.Unescapes e'.2 :=
    fun _ _ _ h h' => Prod.ext (h.1.trans h'.1.symm) (Except.ok.inj (h.2.symm.trans h'.2))
  have hentries : u.entries = v.entries := List.right_unique_forall₂' hunique hu hv
  cases u
  cases v
  cases hentries
  rfl

/-- A name has its template among both entries, or among neither. -/
theorem lookup_unescapes {es es' : List (Text × Template)}
    (h : List.Forall₂ (fun e e' => e'.1 = e.1 ∧ e.2.Unescapes e'.2) es es')
    (hs : ∀ e ∈ es, e.2.Escapes) (name : Text) :
    Option.Rel (fun t t' => t.Escapes ∧ t.Unescapes t') (es.lookup name) (es'.lookup name) := by
  induction h with
  | nil => exact .none
  | @cons e e' es es' he _ ih =>
    obtain ⟨k, t⟩ := e
    obtain ⟨k', t'⟩ := e'
    obtain ⟨rfl, hu⟩ := he
    obtain ⟨hfirst, hrest⟩ := List.forall_mem_cons.mp hs
    cases hk : name == k' <;> simp only [List.lookup_cons, hk]
    · exact ih hrest
    · exact .some ⟨hfirst, hu⟩

end Store

variable {ν : Type}

/-- A setting with another store. -/
def Setting.withStore (env : Setting ν) (store? : Option Store) : Setting ν :=
  { env with store? }

/-- The other store, if there is one, has the templates of the setting with their values unescaped,
and these let no markup through. -/
structure Setting.Unescapes (env : Setting ν) (store? : Option Store) : Prop where
  stores : Option.Rel Store.Unescapes env.store? store?
  escapes (store : Store) (hs : env.store? = some store) : store.Escapes

lemma Setting.Unescapes.template? {env : Setting ν} {store? : Option Store}
    (h : env.Unescapes store?) (name : Text) :
    Option.Rel (fun t t' => t.Escapes ∧ t.Unescapes t') (env.template? name)
      ((env.withStore store?).template? name) := by
  obtain ⟨C, own?, earlier⟩ := env
  obtain ⟨hstores, hescapes⟩ := h
  cases hstores with
  | none => exact .none
  | some hu => exact Store.lookup_unescapes hu (hescapes _ rfl) name

namespace Progress

/-- Progress of two runs that did the same, each with what it has indented of its own templates. -/
structure Mirrored (template? template?' : Text → Option Template) (p q : Progress ν) : Prop where
  calls : p.calls = q.calls
  lookups : p.lookups = q.lookups
  kept : p.Kept template?
  kept' : q.Kept template?'

lemma mirrored_tracks (template? template?' : Text → Option Template) :
    Tracks fun p q : Progress ν => Mirrored template? template?' p q where
  calls h := h.calls
  call h c := ⟨congrArg (c :: ·) h.calls, h.lookups, h.kept, h.kept'⟩
  lookup h name := ⟨h.calls, congrArg (name :: ·) h.lookups, h.kept, h.kept'⟩

end Progress

namespace Run

variable {stop : Stop} {env : Setting ν} {store? : Option Store}

/-- A run that is mirrored by a run over the other store, with the text that this gives escaped. -/
def Escapes (stop : Stop) (env : Setting ν) (store? : Option Store) (guard m m' : Run ν Text) :
    Prop :=
  Mirrors stop (Progress.Mirrored env.template? (env.withStore store?).template?)
    (fun text text' => text = escape text') guard m m'

lemma Escapes.append {guard m m' guards ms ms' : Run ν Text}
    (h : Escapes stop env store? guard m m') (hs : Escapes stop env store? guards ms ms') :
    Escapes stop env store?
      (do let text ← guard
          let rest ← guards
          pure (text ++ rest))
      (do let text ← m
          let rest ← ms
          pure (text ++ rest))
      (do let text ← m'
          let rest ← ms'
          pure (text ++ rest)) := by
  refine h.bind fun text text' ht => hs.bind fun rest rest' hr => .pure ?_
  rw [ht, hr, escape_append]

lemma Outcomes.eq_map_escape {x y : Except Stop Text}
    (h : Outcomes (fun text text' => text = escape text') x y) : x = y.map escape := by
  rcases x with e | text <;> rcases y with e' | text'
  · exact congrArg Except.error h
  · exact h.elim
  · exact h.elim
  · exact congrArg Except.ok h

lemma flatten_eq_escape {texts texts' : List Text}
    (h : List.Forall₂ (fun text text' => text = escape text') texts texts') :
    texts.flatten = escape texts'.flatten := by
  induction h with
  | nil => rfl
  | cons ht _ ih => rw [List.flatten_cons, List.flatten_cons, escape_append, ht, ih]

/-- Asking for a template is mirrored by asking the other store. -/
theorem note_mirrors (h : env.Unescapes store?) (name : Text) :
    Mirrors stop (Progress.Mirrored env.template? (env.withStore store?).template?) (· = ·)
      (note env.store? name : Run ν Unit) (note env.store? name)
      (note (env.withStore store?).store? name) := by
  have hsome : (env.withStore store?).store?.isSome = env.store?.isSome := by
    obtain ⟨C, own?, earlier⟩ := env
    obtain ⟨hstores, -⟩ := h
    cases hstores <;> rfl
  have hnote : (note (env.withStore store?).store? name : Run ν Unit) = note env.store? name := by
    rw [note, note, hsome]
  rw [hnote]
  exact .of_agree (note_of_tracks (Progress.mirrored_tracks _ _) env.store? name)

lemma run_indented_of_ok {template? : Text → Option Template} {name indent : Text}
    {t u : Template} (ht : template? name = some t) (hu : t.indented indent = .ok u)
    {p : Progress ν} (hp : p.Kept template?) :
    ∃ q, (indented name indent t).run.run p = (.ok u, q) ∧ q.calls = p.calls ∧
      q.lookups = p.lookups ∧ q.Kept template? := by
  rcases indented_cases ht hp with hrun | ⟨v, hv, hrun⟩
  · rw [hu, run_compiled] at hrun
    exact ⟨p, hrun, rfl, rfl, hp⟩
  · obtain rfl := Except.ok.inj (hu.symm.trans hv)
    exact ⟨_, hrun, rfl, rfl, hp.cons ht hu⟩

lemma indented_mirrors {template? template?' : Text → Option Template} {name indent : Text}
    {t t' u u' : Template} (ht : template? name = some t) (ht' : template?' name = some t')
    (hu : t.indented indent = .ok u) (hu' : t'.indented indent = .ok u') :
    Mirrors stop (Progress.Mirrored template? template?') (fun v v' => v = u ∧ v' = u')
      (indented name indent t : Run ν Template) (indented name indent t)
      (indented name indent t') := by
  intro p q h
  obtain ⟨p', hp, hcalls, hlookups, hkept⟩ := run_indented_of_ok ht hu h.kept
  obtain ⟨q', hq, hcalls', hlookups', hkept'⟩ := run_indented_of_ok ht' hu' h.kept'
  rw [hp, hq]
  refine .inr ⟨rfl, ⟨rfl, rfl⟩, ?_, ?_, hkept, hkept'⟩
  · rw [hcalls, hcalls', h.calls]
  · rw [hlookups, hlookups', h.lookups]

end Run

variable [DecidableEq ν]

/-- The renderer of a setting that stops in the way it is told where it would call the lambda of a
section. -/
def Setting.rendererUntil (env : Setting ν) (stop : Stop) : Renderer ν (List Part) :=
  { env.renderer with call := fun _ _ _ => throw stop }

/-- Renders parts up to the first section over a lambda, and stops there in the way it is told. -/
def renderUntil (stop : Stop) (env : Setting ν) :
    Nat → List (Text × ν) → Stack ν → List Part → Run ν Text :=
  (env.rendererUntil stop).render

/-- No section that a render comes by is over a lambda: it does not stop at such a section, if the
stop is one that it could not come to otherwise. -/
def Template.CallsNoSection (t : Template) (env : Setting ν) (depth : Nat) (root : ν) : Prop :=
  ∃ stop, ((renderUntil stop env depth [] (Stack.ofRoot root) t.parts).run.run .start).1 ≠
    .error stop

section

variable {stop : Stop} {env : Setting ν} {store? : Option Store}

lemma interpolate_mirrors (s : Stack ν) (path : Text) :
    Run.Mirrors stop (Progress.Mirrored env.template? (env.withStore store?).template?) (· = ·)
      (interpolate env s path) (interpolate env s path)
      (interpolate (env.withStore store?) s path) := by
  have hkeeps := Run.keeps_of_calls
    (Progress.mirrored_tracks env.template? (env.withStore store?).template?).toCalls env
  change Run.Mirrors _ _ _ _ _ (interpolate env s path)
  apply Run.Mirrors.of_agree
  unfold interpolate
  cases hn : s.resolve? env.context path with
  | none => exact (Run.Agree.relation _).pure []
  | some node =>
    simp only
    cases hl : env.context.lambda? node with
    | none => exact (Run.Agree.relation _).pure _
    | some l => exact hkeeps.call s path node l [] trivial hn hl

/-- A walk over escaped parts that stops at lambdas is mirrored by one over unescaped parts if what
they leave to others is. -/
theorem walk_escapes {guard beyond beyond' : Beyond ν}
    (hstop : ∀ node l text, guard.call node l text = throw stop)
    (hinclusion : ∀ name indent s, Blank indent → Run.Escapes stop env store?
      (guard.inclusion name indent s) (beyond.inclusion name indent s)
      (beyond'.inclusion name indent s))
    {ps qs : List Part} (h : Part.Unescapes ps qs) (hi : ∀ i ∈ Part.inclusions ps, Blank i.2)
    (s : Stack ν) :
    Run.Escapes stop env store? (walk env guard s ps) (walk env beyond s ps)
      (walk (env.withStore store?) beyond' s qs) := by
  have hcontext : (env.withStore store?).context = env.context := rfl
  induction h generalizing s with
  | nil => exact .pure rfl
  | literal ht _ ih => exact .append (.pure (escape_of_unmarked ht).symm) (ih hi s)
  | value path _ ih =>
    refine .append ((interpolate_mirrors s path).bind fun text text' ht => ?_) (ih hi s)
    exact .pure (congrArg escape ht)
  | block inverted path source source' d d' _ _ ihc ih =>
    rw [Part.inclusions_block_cons, List.forall_mem_append] at hi
    refine .append ?_ (ih hi.2 s)
    cases inverted with
    | false =>
      rw [walkPart, walkPart, walkPart, hcontext]
      cases s.occurrence env.context path with
      | call node l =>
        simp only [hstop]
        exact .stopped
      | under contexts =>
        exact .map (.mapM fun c _ => ihc hi.1 c) fun _ _ => Run.flatten_eq_escape
    | true =>
      rw [walkPart, walkPart, walkPart, hcontext]
      split
      · exact ihc hi.1 s
      · exact .pure rfl
  | inclusion name indent _ ih =>
    obtain ⟨hfirst, hrest⟩ := List.forall_mem_cons.mp hi
    exact .append (hinclusion name indent s hfirst) (ih hrest s)

/-- A template is included as one that is escaped, and is mirrored by one that is not. -/
theorem fitted_mirrors {name indent : Text} {t t' : Template} (ht : env.template? name = some t)
    (ht' : (env.withStore store?).template? name = some t') (hescapes : t.Escapes)
    (hunescapes : t.Unescapes t') (hi : Blank indent) :
    ∃ u u' : Template, u.Compiled ∧ Part.Unescapes u.parts u'.parts ∧
      Run.Mirrors stop (Progress.Mirrored env.template? (env.withStore store?).template?)
        (fun v v' => v = u ∧ v' = u') ((env.rendererUntil stop).fitted name indent t)
        (env.renderer.fitted name indent t)
        ((env.withStore store?).renderer.fitted name indent t') := by
  unfold Renderer.fitted
  split
  -- without an indent both are rendered as they are stored, otherwise both are indented first
  · exact ⟨t, t', hescapes.compiled, hunescapes.parts hescapes, .pure ⟨rfl, rfl⟩⟩
  · obtain ⟨u, u', hu, hu', hcu, hparts⟩ := hunescapes.exists_indented hescapes hi
    exact ⟨u, u', hcu, hparts, Run.indented_mirrors ht ht' hu hu'⟩

/-- An inclusion is mirrored if what it renders is. -/
theorem inclusion_escapes (h : env.Unescapes store?)
    {guard render render' : List (Text × ν) → Stack ν → List Part → Run ν Text}
    (hrender : ∀ opened s ps qs, Part.Unescapes ps qs → (∀ i ∈ Part.inclusions ps, Blank i.2) →
      Run.Escapes stop env store? (guard opened s ps) (render opened s ps) (render' opened s qs))
    (opened : List (Text × ν)) (name : Text) {indent : Text} (hi : Blank indent) (s : Stack ν) :
    Run.Escapes stop env store?
      ((env.rendererUntil stop).inclusion guard opened name indent s)
      (env.renderer.inclusion render opened name indent s)
      ((env.withStore store?).renderer.inclusion render' opened name indent s) := by
  have htemplate := h.template? name
  cases ht : env.template? name <;> cases ht' : (env.withStore store?).template? name <;>
    rw [ht, ht'] at htemplate <;> cases htemplate
  case none.none =>
    rw [Renderer.inclusion_of_none ht, Renderer.inclusion_of_none ht,
      Renderer.inclusion_of_none ht']
    exact (Run.note_mirrors h name).bind fun _ _ _ => .pure rfl
  case some.some t t' hu =>
    obtain ⟨hescapes, hunescapes⟩ := hu
    have hcloses : (env.rendererUntil stop).closes = env.renderer.closes := rfl
    have hcloses' : (env.withStore store?).renderer.closes = env.renderer.closes := rfl
    rw [Renderer.inclusion_of_some ht, Renderer.inclusion_of_some ht,
      Renderer.inclusion_of_some ht', hcloses, hcloses']
    refine (Run.note_mirrors h name).bind fun _ _ _ => ?_
    obtain ⟨u, u', hcu, hparts, hfitted⟩ := fitted_mirrors ht ht' hescapes hunescapes hi
    split
    · exact .throw _
    · refine hfitted.bind ?_
      rintro _ _ ⟨rfl, rfl⟩
      exact hrender _ s _ _ hparts fun _ => hcu.blank

/-- Rendering escaped parts is mirrored by rendering unescaped ones. -/
theorem renderParts_escapes (h : env.Unescapes store?) (depth : Nat) (opened : List (Text × ν))
    (s : Stack ν) {ps qs : List Part} (hp : Part.Unescapes ps qs)
    (hi : ∀ i ∈ Part.inclusions ps, Blank i.2) :
    Run.Escapes stop env store? (renderUntil stop env depth opened s ps)
      (renderParts env depth opened s ps)
      (renderParts (env.withStore store?) depth opened s qs) := by
  induction depth generalizing opened s ps qs with
  | zero => exact .throw _
  | succ depth ih =>
    refine walk_escapes (fun _ _ _ => rfl) (fun name indent s hi => ?_) hp hi s
    exact inclusion_escapes h (fun opened s ps qs hp hi => ih opened s hp hi) opened name hi s

end

namespace Template

/-- Such a template does all that it does with its values unescaped, and its text is the text that
comes of that, escaped. -/
theorem Unescapes.render_eq {t t' : Template} (h : t.Unescapes t') (ht : t.Escapes)
    {env : Setting ν} {store? : Option Store} (henv : env.Unescapes store?) {depth : Nat} {root : ν}
    (hc : t.CallsNoSection env depth root) :
    t.render env depth root =
      let report := t'.render (env.withStore store?) depth root
      { report with result := report.result.map escape } := by
  obtain ⟨stop, hstop⟩ := hc
  have hparts : Run.Escapes stop env store?
      (renderUntil stop env depth [] (Stack.ofRoot root) t.parts)
      (renderParts env depth [] (Stack.ofRoot root) t.parts)
      (renderParts (env.withStore store?) depth [] (Stack.ofRoot root) t'.parts) :=
    renderParts_escapes henv depth [] (Stack.ofRoot root) (h.parts ht) fun _ => ht.compiled.blank
  have hstart : Progress.Mirrored env.template? (env.withStore store?).template?
      (.start : Progress ν) .start :=
    ⟨rfl, rfl, Progress.kept_start, Progress.kept_start⟩
  obtain ⟨-, hout, hrest⟩ := (hparts .start .start hstart).resolve_left hstop
  have hcalls := congrArg List.reverse hrest.calls
  have hlookups := congrArg List.reverse hrest.lookups
  exact congr (congr (congrArg Report.mk hout.eq_map_escape) hcalls) hlookups

/-- Data cannot put markup into a text through escaped values. The text of a template that lets none
through is what it would be with its values unescaped, escaped as a whole, and whatever else there
is to a render is the same. Escaped texts differ if the texts do, and have no markup in them but the
ampersands that entities begin with. -/
theorem exists_render_eq_map_escape {t : Template} {store? : Option Store} (ht : t.Escapes)
    (hs : ∀ store, store? = some store → store.Escapes) :
    (∃ t' store?', t.Unescapes t' ∧ Option.Rel Store.Unescapes store? store?' ∧
      ∀ {ν : Type} [DecidableEq ν] (C : Context ν) (earlier : List (Call ν)) (depth : Nat)
        (root : ν),
        t.CallsNoSection ⟨C, store?, earlier⟩ depth root →
          t.render ⟨C, store?, earlier⟩ depth root =
            let report := t'.render ⟨C, store?', earlier⟩ depth root
            { report with result := report.result.map escape }) ∧
      Function.Injective escape ∧
      ∀ s, (∀ c ∈ escape s, c ≠ '<' ∧ c ≠ '>' ∧ c ≠ '"') ∧
        ∀ before after, escape s = before ++ '&' :: after →
          ∃ e ∈ entities, e <+: '&' :: after := by
  refine ⟨?_, escape_injective, fun s => ⟨fun c hc => ?_, fun _ _ => exists_entity_of_escape_eq⟩⟩
  · obtain ⟨t', hu⟩ := ht.exists_unescapes
    have hstores : ∃ store?', Option.Rel Store.Unescapes store? store?' := by
      cases store? with
      | none => exact ⟨none, .none⟩
      | some store =>
        obtain ⟨store', hstore⟩ := (hs store rfl).exists_unescapes
        exact ⟨some store', .some hstore⟩
    obtain ⟨store?', hstores⟩ := hstores
    refine ⟨t', store?', hu, hstores, fun C earlier depth root hc => ?_⟩
    exact hu.render_eq ht ⟨hstores, hs⟩ hc
  · refine ⟨?_, ?_, ?_⟩ <;> rintro rfl <;> exact notMem_escape (by decide) (by decide) s hc

/-- A list of texts that are markup, each written by an indented inclusion. -/
theorem exists_render_eq_map_escape_indented :
    let t : Template :=
      ⟨['{', '{', '#', 'a', '}', '}', '\n', ' ', '{', '{', '>', 'p', '}', '}', '\n',
          '{', '{', '/', 'a', '}', '}'],
        [.block false ['a'] ['\n', ' ', '{', '{', '>', 'p', '}', '}', '\n'] .braces
          [.inclusion ['p'] [' ']]]⟩
    let p : Template := ⟨['{', '{', '.', '}', '}'], [.value ['.'] true]⟩
    let p' : Template := ⟨['{', '{', '&', '.', '}', '}'], [.value ['.'] false]⟩
    let store := Store.empty.insert ['p'] p
    let store' := Store.empty.insert ['p'] p'
    let d := Document.ofValue Json.context (.object [(['a'], .list [.text ['<'], .text ['&']])])
    t.Escapes ∧ store.Escapes ∧ t.CallsNoSection ⟨d.context, some store, []⟩ 2 d.root ∧
      t.Unescapes t ∧ store.Unescapes store' ∧
      (t.render ⟨d.context, some store', []⟩ 2 d.root).result = .ok [' ', '<', ' ', '&'] ∧
      (t.render ⟨d.context, some store, []⟩ 2 d.root).result =
        .ok (escape [' ', '<', ' ', '&']) := by
  intro t p p' store store' d
  have ht : t.Escapes := by decide +kernel
  have hp : p.Escapes := by decide +kernel
  have hs : store.Escapes := by
    intro e he
    obtain rfl := List.mem_singleton.mp he
    exact hp
  have hc : t.CallsNoSection ⟨d.context, some store, []⟩ 2 d.root :=
    ⟨.tooDeep, by decide +kernel⟩
  have hu : t.Unescapes t := by
    have hcompile : compile (t.source.respelt Tag.unescaping) = .ok t := by decide +kernel
    exact hcompile
  have hup : p.Unescapes p' := by
    have hcompile : compile (p.source.respelt Tag.unescaping) = .ok p' := by decide +kernel
    exact hcompile
  have hus : store.Unescapes store' := .cons ⟨rfl, hup⟩ .nil
  have hrender : (t.render ⟨d.context, some store', []⟩ 2 d.root).result =
      .ok [' ', '<', ' ', '&'] := by
    decide +kernel
  refine ⟨ht, hs, hc, hu, hus, hrender, ?_⟩
  obtain ⟨⟨t', store?', ht', hs', h⟩, -, -⟩ := exists_render_eq_map_escape ht fun _ h =>
    Option.some.inj h ▸ hs
  obtain rfl : t = t' := Except.ok.inj (hu.symm.trans ht')
  obtain rfl : some store' = store?' := by
    cases hs' with
    | some hus' => exact congrArg some (hus.eq hus')
  rw [h d.context [] 2 d.root hc]
  exact congrArg (Except.map escape) hrender

/-- A path that ends with a brace loses it where nothing keeps it apart from the delimiter. -/
theorem render_unescapingTight_ne :
    let t : Template := ⟨['{', '{', 'a', '}', ' ', '}', '}'], [.value ['a', '}'] true]⟩
    let t' : Template :=
      ⟨['{', '{', '&', 'a', '}', '}', '}'], [.value ['a'] false, .literal ['}']]⟩
    let d := Document.ofValue Json.context (.object [(['a', '}'], .text ['<', 'b', '>'])])
    let env : Setting Location := ⟨d.context, none, []⟩
    t.Escapes ∧ compile (t.source.respelt Tag.unescapingTight) = .ok t' ∧
      t.CallsNoSection env 1 d.root ∧
      (t.render env 1 d.root).result = .ok (escape ['<', 'b', '>']) ∧
      (t'.render env 1 d.root).result = .ok ['}'] ∧
      (t.render env 1 d.root).result ≠ (t'.render env 1 d.root).result.map escape := by
  intro t t' d env
  have ht : t.Escapes := by decide +kernel
  exact ⟨ht, by decide +kernel, ⟨.tooDeep, by decide +kernel⟩, by decide +kernel,
    by decide +kernel, by decide +kernel⟩

end Template
end Mustache
