import Mustache.Data.Value
import Mustache.Proofs.Chain
import Mustache.Proofs.Meaning

/-! Inlining: the parts of templates put in place of the inclusions that name them. Rendering them
without a store is rendering with the store. -/
namespace Mustache

open Data Text

/-- A template as it is taken by an inclusion with an indent. -/
def Template.indentedBy (t : Template) (indent : Text) : Except SyntaxError Template :=
  if indent = [] then .ok t else t.indented indent

namespace Template

lemma Compiled.exists_indentedBy {t : Template} (ht : t.Compiled) {indent : Text}
    (hi : Blank indent) :
    ∃ u, t.indentedBy indent = .ok u ∧ u.Compiled ∧ Part.names u.parts = Part.names t.parts := by
  unfold indentedBy
  split
  · exact ⟨t, rfl, ht, rfl⟩
  · obtain ⟨parts, hp, -, -⟩ :=
      Part.exists_ofSource_indentLines hi Delimiters.braces_valid ht.ofSource
    have hu : t.indented indent = .ok ⟨indentLines indent t.source, parts⟩ :=
      compile_eq_ok_iff.mpr ⟨rfl, hp⟩
    exact ⟨_, hu, hu, ht.names_indented hi hu⟩

end Template

/-- Some parts become others when every inclusion is replaced by the parts of the template that it
names, inclusions in these being replaced as well, and by nothing when there is no such template. -/
inductive Inlines (template? : Text → Option Template) : List Part → List Part → Prop
  | nil : Inlines template? [] []
  | literal {ps qs : List Part} (text : Text) (h : Inlines template? ps qs) :
    Inlines template? (.literal text :: ps) (.literal text :: qs)
  | value {ps qs : List Part} (path : Text) (escaped : Bool) (h : Inlines template? ps qs) :
    Inlines template? (.value path escaped :: ps) (.value path escaped :: qs)
  | block {ps qs children children' : List Part} (inverted : Bool) (path source : Text)
    (d : Delimiters) (hc : Inlines template? children children') (h : Inlines template? ps qs) :
    Inlines template? (.block inverted path source d children :: ps)
      (.block inverted path source d children' :: qs)
  | missing {ps qs : List Part} {name indent : Text} (ht : template? name = none)
    (h : Inlines template? ps qs) : Inlines template? (.inclusion name indent :: ps) qs
  | found {ps qs inner : List Part} {name indent : Text} {t u : Template}
    (ht : template? name = some t) (hu : t.indentedBy indent = .ok u)
    (hi : Inlines template? u.parts inner) (h : Inlines template? ps qs) :
    Inlines template? (.inclusion name indent :: ps) (inner ++ qs)
  | switch {ps qs : List Part} (d : Delimiters) (h : Inlines template? ps qs) :
    Inlines template? (.switch d :: ps) (.switch d :: qs)

namespace Inlines

variable {template? : Text → Option Template} {ps qs rs : List Part}

lemma eq (h : Inlines template? ps qs) (h' : Inlines template? ps rs) : qs = rs := by
  induction h generalizing rs with
  | nil =>
    cases h'
    rfl
  | literal text _ ih =>
    cases h' with
    | literal _ h' => rw [ih h']
  | value path escaped _ ih =>
    cases h' with
    | value _ _ h' => rw [ih h']
  | block inverted path source d _ _ ihc ih =>
    cases h' with
    | block _ _ _ _ hc' h' => rw [ihc hc', ih h']
  | missing ht _ ih =>
    cases h' with
    | missing _ h' => exact ih h'
    | found ht' => simp [ht] at ht'
  | found ht hu _ _ ihi ih =>
    cases h' with
    | missing ht' => simp [ht] at ht'
    | found ht' hu' hi' h' =>
      obtain rfl := Option.some.inj (ht.symm.trans ht')
      obtain rfl := Except.ok.inj (hu.symm.trans hu')
      rw [ihi hi', ih h']
  | switch d _ ih =>
    cases h' with
    | switch _ h' => rw [ih h']

lemma append {ps' qs' : List Part} (h : Inlines template? ps qs)
    (h' : Inlines template? ps' qs') : Inlines template? (ps ++ ps') (qs ++ qs') := by
  induction h with
  | nil => exact h'
  | literal text _ ih => exact .literal text ih
  | value path escaped _ ih => exact .value path escaped ih
  | block inverted path source d hc _ _ ih => exact .block inverted path source d hc ih
  | missing ht _ ih => exact .missing ht ih
  | found ht hu hi _ _ ih =>
    rw [List.append_assoc]
    exact .found ht hu hi ih
  | switch d _ ih => exact .switch d ih

/-- No inclusions are left. -/
theorem inclusions_eq_nil (h : Inlines template? ps qs) : Part.inclusions qs = [] := by
  induction h with
  | nil => rfl
  | literal _ _ ih | value _ _ _ ih | missing _ _ ih | switch _ _ ih => exact ih
  | block _ _ _ _ _ _ ihc ih => rw [Part.inclusions_block_cons, ihc, ih, List.append_nil]
  | found _ _ _ _ ihi ih => rw [Part.inclusions_append, ihi, ih, List.append_nil]

/-- What is inlined stays as it is, whatever templates there are. -/
theorem again (h : Inlines template? ps qs) (other? : Text → Option Template) :
    Inlines other? qs qs := by
  induction h with
  | nil => exact .nil
  | literal text _ ih => exact .literal text ih
  | value path escaped _ ih => exact .value path escaped ih
  | block inverted path source d _ _ ihc ih => exact .block inverted path source d ihc ih
  | missing _ _ ih => exact ih
  | found _ _ _ _ ihi ih => exact ihi.append ih
  | switch d _ ih => exact .switch d ih

end Inlines

/-- Parts can be inlined if the templates can that they include. -/
theorem exists_inlines_of_inclusions {template? : Text → Option Template} :
    (parts : List Part) → (∀ i ∈ Part.inclusions parts, ∀ t, template? i.1 = some t →
      ∃ u inner, t.indentedBy i.2 = .ok u ∧ Inlines template? u.parts inner) →
    ∃ qs, Inlines template? parts qs
  | [], _ => ⟨[], .nil⟩
  | .literal text :: parts, h => by
    obtain ⟨qs, hq⟩ := exists_inlines_of_inclusions parts h
    exact ⟨_, .literal text hq⟩
  | .value path escaped :: parts, h => by
    obtain ⟨qs, hq⟩ := exists_inlines_of_inclusions parts h
    exact ⟨_, .value path escaped hq⟩
  | .block inverted path source d children :: parts, h => by
    rw [Part.inclusions_block_cons, List.forall_mem_append] at h
    obtain ⟨cs, hc⟩ := exists_inlines_of_inclusions children h.1
    obtain ⟨qs, hq⟩ := exists_inlines_of_inclusions parts h.2
    exact ⟨_, .block inverted path source d hc hq⟩
  | .inclusion name indent :: parts, h => by
    obtain ⟨hfirst, hrest⟩ := List.forall_mem_cons.mp h
    obtain ⟨qs, hq⟩ := exists_inlines_of_inclusions parts hrest
    cases ht : template? name with
    | none => exact ⟨_, .missing ht hq⟩
    | some t =>
      obtain ⟨u, inner, hu, hi⟩ := hfirst t ht
      exact ⟨_, .found ht hu hi hq⟩
  | .switch d :: parts, h => by
    obtain ⟨qs, hq⟩ := exists_inlines_of_inclusions parts h
    exact ⟨_, .switch d hq⟩

/-- Where chains of inclusions are bounded, parts can be inlined. -/
theorem Store.exists_inlines {store : Store} (hs : store.Compiled) {bound : Nat}
    {parts : List Part} (hi : ∀ i ∈ Part.inclusions parts, Blank i.2)
    (hb : ∀ xs, store.Chain parts xs → xs.length ≤ bound) :
    ∃ qs, Inlines store.get? parts qs := by
  induction bound generalizing parts with
  | zero =>
    apply exists_inlines_of_inclusions
    intro i hmem t ht
    have := hb [i.1] ⟨List.mem_map_of_mem hmem, t, ht, trivial⟩
    simp at this
  | succ bound ih =>
    apply exists_inlines_of_inclusions
    intro i hmem t ht
    have hname : i.1 ∈ Part.names parts := List.mem_map_of_mem hmem
    obtain ⟨u, hu, hcu, hn⟩ := (hs.template ht).exists_indentedBy (hi i hmem)
    -- indented or not, a template includes the same names, so that its chains are one name shorter
    obtain ⟨inner, hinner⟩ := ih (fun _ => hcu.blank) fun xs hxs => by
      rw [chain_congr hn] at hxs
      exact Nat.le_of_succ_le_succ (hb (i.1 :: xs) ⟨hname, t, ht, hxs⟩)
    exact ⟨u, inner, hu, hinner⟩

variable {ν : Type} [DecidableEq ν] {env : Setting ν} {root : ν}

section

variable {render : List (Text × ν) → Stack ν → List Part → Run ν Text} {opened : List (Text × ν)}
  {name indent : Text} {s : Stack ν}

lemma inclusion_gives_nil (ht : env.template? name = none) :
    Run.Gives env.Kept (env.renderer.inclusion render opened name indent s) [] := by
  rw [Renderer.inclusion_of_none ht]
  exact (Run.note_ends name).bind (fun _ _ => Run.Gives.pure []) (by simp)

lemma fitted_ends_of_indentedBy {t u : Template} (ht : env.template? name = some t)
    (hu : t.indentedBy indent = .ok u) :
    Run.Ends env.Kept (env.renderer.fitted name indent t) fun x => x = .ok u := by
  unfold Template.indentedBy at hu
  unfold Renderer.fitted
  split at hu
  · rename_i hi
    rw [if_pos hi]
    exact .pure (congrArg Except.ok (Except.ok.inj hu))
  · rename_i hi
    rw [if_neg hi]
    exact Run.indented_ends ht hu

/-- An inclusion that is not turned away gives what the parts of its template give. -/
theorem inclusion_gives {t u : Template} (ht : env.template? name = some t)
    (hu : t.indentedBy indent = .ok u) {text : Text}
    (h : Run.Gives env.Kept (render ((name, s.top) :: opened) s u.parts) text) :
    Run.Gives env.Kept (env.renderer.inclusion render opened name indent s) text := by
  rw [Renderer.inclusion_of_some ht]
  refine (Run.note_ends name).bind (fun _ _ => ?_) (by simp)
  split
  · exact Run.Gives.throw _ text
  · refine (fitted_ends_of_indentedBy ht hu).bind (fun v hv => ?_) (by simp)
    obtain rfl := Except.ok.inj hv
    exact h

end

/-- What parts give is the text of what they become when inclusions are inlined. -/
theorem Inlines.renderParts_gives (hf : env.context.LambdaFree root) {ps qs : List Part}
    (h : Inlines env.template? ps qs) (depth : Nat) (opened : List (Text × ν)) {s : Stack ν}
    (hs : s.Within env.context root) :
    Run.Gives env.Kept (renderParts env (depth + 1) opened s ps) (Part.text env.context s qs) := by
  induction h generalizing depth opened s with
  | nil => exact .pure []
  | literal text _ ih => exact (Run.Gives.pure text).bind ((ih depth opened hs).bind (.pure _))
  | value path escaped _ ih =>
    exact (walkPart_value_gives hf hs path escaped).bind ((ih depth opened hs).bind (.pure _))
  | block inverted path source d _ _ ihc ih =>
    refine (walkPart_block_gives hf hs (fun c hc => ihc depth opened hc)
      inverted path source d).bind ?_
    exact (ih depth opened hs).bind (.pure _)
  | missing ht _ ih => exact (inclusion_gives_nil ht).bind ((ih depth opened hs).bind (.pure _))
  | found ht hu _ _ ihi ih =>
    rw [Part.text_append]
    refine (inclusion_gives ht hu ?_).bind ((ih depth opened hs).bind (.pure _))
    cases depth with
    | zero => exact .throw _ _
    | succ depth => exact ihi depth _ hs
  | switch d _ ih => exact (Run.Gives.pure []).bind ((ih depth opened hs).bind (.pure _))

namespace Template

/-- A template that includes nothing is rendered without a store. -/
theorem exists_text_of_inclusions_eq_nil {t : Template} (ht : Part.inclusions t.parts = [])
    {C : Context ν} (hf : C.LambdaFree root) (earlier : List (Call ν)) {depth : Nat}
    (hd : 0 < depth) : ∃ text, (t.render ⟨C, none, earlier⟩ depth root).result = .ok text := by
  let env : Setting ν := ⟨C, none, earlier⟩
  have hstops : env.Stops (Fresh []) depth (Stack.ofRoot root) t.parts
      (stop? (t.render env depth root).result) :=
    (renderParts_ends (by rintro _ ⟨⟩) hf depth [] (Stack.within_ofRoot C root)
      (by simp [ht]) .start
      env.kept_start).1
  apply hstops.exists_text
  intro os hos
  obtain rfl := Setting.isPath_eq_nil rfl hos
  exact ⟨hd, fresh_nil []⟩

/-- Inclusions are inlined: where no name leads back to itself, the parts of a template become the
same parts however their inclusions are replaced, and over data without lambdas the template is
rendered with the store, which never fails, to the text that these parts have without a store. -/
theorem render_eq_inlined {t : Template} (ht : t.Compiled) {store : Store} (hs : store.Compiled)
    (ha : store.AcyclicFrom t.parts) :
    ∃ parts, (∀ ps, Inlines store.get? t.parts ps ↔ ps = parts) ∧
      ∀ {ν : Type} [DecidableEq ν] (C : Context ν) (root : ν) (earlier : List (Call ν)),
        C.LambdaFree root →
        ∃ text,
          (∀ depth, store.size < depth →
            (t.render ⟨C, some store, earlier⟩ depth root).result = .ok text) ∧
          ∀ depth, 0 < depth →
            ((⟨t.source, parts⟩ : Template).render ⟨C, none, earlier⟩ depth root).result =
              .ok text := by
  obtain ⟨parts, hp⟩ := store.exists_inlines hs (fun _ => ht.blank) fun xs h => h.length_le ha
  refine ⟨parts, fun ps => ⟨fun h => h.eq hp, fun h => h ▸ hp⟩, ?_⟩
  intro ν _ C root earlier hf
  refine ⟨Part.text C (Stack.ofRoot root) parts, fun depth hd => ?_, fun depth hd => ?_⟩
  · obtain ⟨depth, rfl⟩ := Nat.exists_eq_add_one_of_ne_zero (Nat.ne_zero_of_lt hd)
    obtain ⟨text, htext⟩ := exists_text_of_acyclic ht hs ha hf earlier hd
    let env : Setting ν := ⟨C, some store, earlier⟩
    have hinlines : Inlines env.template? t.parts parts := hp
    have hgives := (hinlines.renderParts_gives hf depth [] (Stack.within_ofRoot C root) .start
      env.kept_start).1
    rw [htext, hgives text htext]
  · obtain ⟨depth, rfl⟩ := Nat.exists_eq_add_one_of_ne_zero (Nat.ne_zero_of_lt hd)
    let u : Template := ⟨t.source, parts⟩
    have hu : Part.inclusions u.parts = [] := hp.inclusions_eq_nil
    obtain ⟨text, htext⟩ := exists_text_of_inclusions_eq_nil hu hf earlier hd
    let env : Setting ν := ⟨C, none, earlier⟩
    have hinlines : Inlines env.template? u.parts parts := hp.again env.template?
    have hgives := (hinlines.renderParts_gives hf depth [] (Stack.within_ofRoot C root) .start
      env.kept_start).1
    rw [htext, hgives text htext]

/-- A template within a template, each indented by a blank of its own. -/
theorem render_eq_inlined_indented :
    let including (name : Text) : Text := [' ', '{', '{', '>'] ++ name ++ ['}', '}', '\n']
    let t : Template := ⟨including ['p'], [.inclusion ['p'] [' ']]⟩
    let p : Template :=
      ⟨['a', '\n'] ++ including ['q'], [.literal ['a', '\n'], .inclusion ['q'] [' ']]⟩
    let q : Template := ⟨['b'], [.literal ['b']]⟩
    let store := (Store.empty.insert ['p'] p).insert ['q'] q
    let d := Document.ofValue Json.context .null
    t.Compiled ∧ store.Compiled ∧ store.AcyclicFrom t.parts ∧ d.context.LambdaFree d.root ∧
      (∀ ps, Inlines store.get? t.parts ps ↔
        ps = [.literal [' ', 'a', '\n'], .literal [' ', ' ', 'b']]) ∧
      ∀ depth, 2 < depth → (t.render ⟨d.context, some store, []⟩ depth d.root).result =
        .ok [' ', 'a', '\n', ' ', ' ', 'b'] := by
  intro including t p q store d
  have ht : t.Compiled := by decide +kernel
  have hs : store.Compiled := by
    have hp : p.Compiled := by decide +kernel
    have hq : q.Compiled := by decide +kernel
    intro entry he
    rcases List.mem_pair.mp he with rfl | rfl
    · exact hq
    · exact hp
  have ha : store.AcyclicFrom t.parts := by
    apply Store.acyclicFrom_of_lt fun x => if x = ['p'] then 1 else 0
    rintro x y ⟨u, hu, hy⟩
    rcases List.mem_pair.mp (Store.mem_entries_of_get? hu) with h | h
    · obtain ⟨rfl, rfl⟩ := Prod.mk.inj h
      simp [q, Part.names, Part.inclusions, Part.collect, Part.collectPart] at hy
    · obtain ⟨rfl, rfl⟩ := Prod.mk.inj h
      obtain rfl : y = ['q'] := List.mem_singleton.mp hy
      decide
  have hf : d.context.LambdaFree d.root := (Json.finitelyMany .null).2
  have hp : p.indentedBy [' '] = .ok ⟨[' ', 'a', '\n', ' '] ++ including ['q'],
      [.literal [' ', 'a', '\n'], .inclusion ['q'] [' ', ' ']]⟩ := by
    decide +kernel
  have hq : q.indentedBy [' ', ' '] = .ok ⟨[' ', ' ', 'b'], [.literal [' ', ' ', 'b']]⟩ := by
    decide +kernel
  have hinlines : Inlines store.get? t.parts
      [.literal [' ', 'a', '\n'], .literal [' ', ' ', 'b']] := by
    have hgetp : store.get? ['p'] = some p := by decide
    have hgetq : store.get? ['q'] = some q := by decide
    exact .found hgetp hp (.literal _ (.found hgetq hq (.literal _ .nil) .nil)) .nil
  obtain ⟨parts, hparts, h⟩ := render_eq_inlined ht hs ha
  obtain rfl := (hparts _).mp hinlines
  refine ⟨ht, hs, ha, hf, hparts, ?_⟩
  obtain ⟨text, hrender, hinlined⟩ := h d.context d.root [] hf
  have htext : text = [' ', 'a', '\n', ' ', ' ', 'b'] := by
    have hone := (hinlined 1 Nat.one_pos).symm.trans (by decide +kernel :
      _ = .ok [' ', 'a', '\n', ' ', ' ', 'b'])
    exact Except.ok.inj hone
  intro depth hd
  rw [hrender depth hd, htext]

end Template
end Mustache
