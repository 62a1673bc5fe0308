import Mustache.Proofs.Formed
import Mustache.Proofs.Hidden

/-! Guarded renders: a render that looks at every part tree before it walks it, and does something
else where a tree is not well formed, is the render that does not look. No member is asked for
without a name. -/
namespace Mustache

open Data Text

variable {ν α β : Type}

/-- Data with other answers where a member without a name is asked for. -/
def Data.Context.nameless (C : Context ν) (empty : ν → Option ν) : Context ν :=
  { C with child? := fun node name => if name = [] then empty node else C.child? node name }

def Setting.nameless (env : Setting ν) (empty : ν → Option ν) : Setting ν :=
  { env with context := env.context.nameless empty }

namespace Tag.IsName

variable {path : Text}

lemma nil_notMem_memberNames (h : IsName path) : [] ∉ memberNames path := by
  unfold memberNames
  split
  · exact List.not_mem_nil
  · rename_i hdot
    obtain ⟨hsegments, -⟩ := h.resolve_left hdot
    exact fun hmem => hsegments [] hmem rfl

/-- A name that a tag can have leads to the same node, whatever is answered for members without a
name. -/
theorem resolve?_nameless (h : IsName path) (C : Context ν) (empty : ν → Option ν) (s : Stack ν) :
    s.resolve? (C.nameless empty) path = s.resolve? C path := by
  apply Stack.resolve?_congr (P := fun _ => True) (fun _ _ => trivial) fun _ _ _ _ _ => trivial
  intro node _ name hname
  have hne : name ≠ [] := fun hnil => h.nil_notMem_memberNames (hnil ▸ hname)
  exact if_neg hne

end Tag.IsName

namespace Run

variable {I : Progress ν → Prop}

/-- What follows need only agree on the outcomes that a computation can have. -/
theorem Agree.bind_of_ends {m : Run ν α} {Q : Except Stop α → Prop} {f f' : α → Run ν β}
    (hm : Ends I m Q) (hf : ∀ a, Q (.ok a) → Agree (fun p q => p = q ∧ I p) (f a) (f' a)) :
    Agree (fun p q => p = q ∧ I p) (m >>= f) (m >>= f') := by
  rintro p _ ⟨rfl, hp⟩
  obtain ⟨hq, hi⟩ := hm p hp
  rw [run_bind, run_bind]
  rcases hr : m.run.run p with ⟨e | a, q⟩ <;> rw [hr] at hq hi
  · exact ⟨rfl, rfl, hi⟩
  · exact hf a hq q q ⟨rfl, hi⟩

lemma compiled_ends (x : Except SyntaxError α) :
    Ends I (compiled x) fun r => ∀ a, r = .ok a → x = .ok a := by
  intro p hp
  rw [run_compiled]
  exact ⟨fun a ha => mapError_eq_ok_iff.mp ha, hp⟩

/-- However a template comes to be included, it is compiled. -/
theorem fitted_compiled [DecidableEq ν] {env : Setting ν} (hc : env.Compiled) {name : Text}
    {t : Template} (ht : env.template? name = some t) (indent : Text) :
    Ends env.Kept (env.renderer.fitted name indent t) fun x => ∀ u, x = .ok u → u.Compiled := by
  rw [Renderer.fitted]
  split
  · refine .pure fun u hu => ?_
    obtain rfl := Except.ok.inj hu
    exact hc.template ht
  · intro p hp
    obtain ⟨hresult, hkept⟩ := run_indented ht indent hp
    refine ⟨fun u hu => ?_, hkept⟩
    exact .indented (mapError_eq_ok_iff.mp (hresult.symm.trans hu))

end Run

variable [DecidableEq ν]

/-- The renderer of a setting for trees that are looked at together with their texts: one that is
not well formed is left to something else. The answer of a lambda is the text of a tree like the
source of a template. -/
def Setting.formedRenderer (env : Setting ν) (other : Stack ν → Template → Run ν Text) :
    Renderer ν Template :=
  { env.renderer with
    tree := id
    walk := fun beyond s t => if t.Formed then walk env beyond s t.parts else other s t }

/-- Renders a tree with its text, if that is well formed, and what it asks for likewise. -/
def renderFormed (env : Setting ν) (other : Stack ν → Template → Run ν Text) :
    Nat → List (Text × ν) → Stack ν → Template → Run ν Text :=
  (env.formedRenderer other).render

/-- Settings that differ in what is answered for members without a name are paired for the names
that tags can have. -/
theorem Setting.pairs_nameless (env : Setting ν) (empty : ν → Option ν) :
    env.Pairs (Run.Agree.relation fun p q => p = q ∧ env.Kept p) (env.nameless empty)
      (fun _ => True) Tag.IsName where
  resolve? s _ _ hpath := hpath.resolve?_nameless env.context empty s
  node s path node hs hn := ⟨rfl, rfl, rfl, rfl, id, fun l hl =>
    ⟨l, hl, fun text =>
      (Run.keeps_of_calls Progress.same_tracks.toCalls env).call s path node l text hs hn hl⟩⟩
  stays _ _ _ _ _ _ _ := trivial

variable {env : Setting ν}

lemma inclusion_formed_agree (hc : env.Compiled) (empty : ν → Option ν)
    {other : Stack ν → Template → Run ν Text}
    {render : List (Text × ν) → Stack ν → List Part → Run ν Text}
    {render' : List (Text × ν) → Stack ν → Template → Run ν Text}
    (h : ∀ opened s (t : Template), t.Compiled →
      Run.Agree (fun p q => p = q ∧ env.Kept p) (render opened s t.parts) (render' opened s t))
    (opened : List (Text × ν)) (name indent : Text) (s : Stack ν) :
    Run.Agree (fun p q => p = q ∧ env.Kept p)
      (env.renderer.inclusion render opened name indent s)
      (((env.nameless empty).formedRenderer other).inclusion render' opened name indent s) := by
  apply Renderer.inclusion_related (R := Run.Agree.relation fun p q => p = q ∧ env.Kept p)
  · rfl
  · rfl
  · exact Run.note_of_tracks Progress.same_tracks env.store? name
  · intro t ht
    exact .bind_of_ends (Run.fitted_compiled hc ht indent) fun u hu => h _ s u (hu u rfl)

/-- A render that looks at its trees does what one does that does not. -/
theorem renderFormed_agree (hc : env.Compiled) (empty : ν → Option ν)
    (other : Stack ν → Template → Run ν Text) (depth : Nat) (opened : List (Text × ν))
    (s : Stack ν) {t : Template} (ht : t.Formed) :
    Run.Agree (fun p q => p = q ∧ env.Kept p) (renderParts env depth opened s t.parts)
      (renderFormed (env.nameless empty) other depth opened s t) := by
  let R := Run.Agree.relation fun p q => p = q ∧ env.Kept p
  induction depth generalizing opened s t with
  | zero => exact R.throw _
  | succ depth ih =>
    have hbelow : Beyond.Paired R env (env.nameless empty) (fun _ => True) Tag.IsName
        Delimiters.Valid (fun _ => True) (.below env depth opened)
        (((env.nameless empty).formedRenderer other).below
          (renderFormed (env.nameless empty) other depth) opened) :=
      { env.pairs_nameless empty with
        calls := ⟨rfl, rfl⟩
        expand := fun d text s _ _ _ _ hd _ _ =>
          .bind_of_ends (Run.compiled_ends _) fun parts hparts =>
            ih opened s (t := ⟨text, parts⟩) (Part.formed_of_ofSource hd (hparts parts rfl))
        inclusion := fun name indent s _ _ =>
          inclusion_formed_agree hc empty (fun opened s t ht => ih opened s ht.formed) opened name
            indent s }
    have hguard : renderFormed (env.nameless empty) other (depth + 1) opened s t =
        walk (env.nameless empty) (((env.nameless empty).formedRenderer other).below
          (renderFormed (env.nameless empty) other depth) opened) s t.parts := if_pos ht
    rw [renderParts_succ, hguard]
    exact hbelow.walk trivial t.parts (Part.Formed.admitted ht)

namespace Template

/-- Renders a template against a node, and does something else where a tree is not well formed. -/
def renderFormed (t : Template) (env : Setting ν) (other : Stack ν → Template → Run ν Text)
    (depth : Nat) (root : ν) : Report ν :=
  .ofRun (Mustache.renderFormed env other depth [] (Stack.ofRoot root) t)

/-- Every part tree that a render walks is well formed. A compiled template is, and so is it
indented and whatever compiles with the delimiters of a section; a render that looks at each tree
before it walks it, with the text that the tree was compiled from, is the same as one that does not,
whatever is done with a tree that is not well formed, and whatever is answered where a member
without a name is asked for. -/
theorem Compiled.renderFormed_eq {t : Template} (ht : t.Compiled) :
    t.Formed ∧ (∀ indent u, t.indented indent = .ok u → u.Formed) ∧
      (∀ d text parts, d.Valid → Part.ofSource d text = .ok parts → Part.Formed text parts) ∧
      ∀ {ν : Type} [DecidableEq ν] (env : Setting ν), env.Compiled → ∀ (empty : ν → Option ν) other
        depth root, t.renderFormed (env.nameless empty) other depth root =
          t.render env depth root := by
  refine ⟨ht.formed, fun indent u hu => (Compiled.indented hu).formed,
    fun d text parts hd h => Part.formed_of_ofSource hd h, ?_⟩
  intro ν _ env hc empty other depth root
  refine (Report.ofRun_eq_of_agree (renderFormed_agree hc empty other depth [] (Stack.ofRoot root)
    ht.formed) ⟨rfl, env.kept_start⟩ ?_).symm
  rintro p q ⟨rfl, -⟩
  exact ⟨rfl, rfl⟩

/-- A template that is included on a line of its own, and a lambda that answers with the source of
its section twice. -/
theorem Compiled.renderFormed_eq_doubled :
    let l : Lambda := ⟨['l'], true, fun _ text => .ok (text ++ text)⟩
    let t : Template := ⟨[' ', '{', '{', '>', 'p', '}', '}', '\n', '{', '{', '#', 'f', '}', '}', '{',
      '{', 'a', '}', '}', '{', '{', '/', 'f', '}', '}'], [.inclusion ['p'] [' '],
        .block false ['f'] ['{', '{', 'a', '}', '}'] .braces [.value ['a'] true]]⟩
    let p : Template := ⟨['{', '{', 'a', '}', '}'], [.value ['a'] true]⟩
    let env : Setting Location := ⟨Value.context.located (.mapping [(['f'], .callable l),
      (['a'], .text ['b'])]), some (Store.empty.insert ['p'] p), []⟩
    let report := t.renderFormed (env.nameless fun _ => some []) (fun _ _ => throw .tooDeep) 3 []
    t.Compiled ∧ t.Formed ∧ env.Compiled ∧ report.result = .ok [' ', 'b', 'b', 'b'] ∧
      report.lookups = [['p']] := by
  intro l t p env report
  have ht : t.Compiled := by decide +kernel
  have hc : env.Compiled := by
    rintro _ ⟨⟩ entry he
    obtain rfl := List.mem_singleton.mp he
    have hp : p.Compiled := by decide +kernel
    exact hp
  obtain ⟨hformed, -, -, hrender⟩ := ht.renderFormed_eq
  have hreport := hrender env hc (fun _ => some []) (fun _ _ => throw .tooDeep) 3 []
  have hresult : (t.render env 3 []).result = .ok [' ', 'b', 'b', 'b'] := by decide +kernel
  have hlookups : (t.render env 3 []).lookups = [['p']] := by decide +kernel
  exact ⟨ht, hformed, hc, (congrArg Report.result hreport).trans hresult,
    (congrArg Report.lookups hreport).trans hlookups⟩

end Template
end Mustache
