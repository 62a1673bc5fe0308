import Mustache.Proofs.Agree
import Mustache.Proofs.Block
import Mustache.Proofs.Depth
import Mustache.Proofs.Seam

/-! Templates one after the other. Behind whole lines a source compiles to the parts that it has on
its own, and fails as it does on its own, further down. -/
namespace Mustache

open Data

/-- The delimiters in force behind a source. -/
def Delimiters.behind (d : Delimiters) (source : Text) : Delimiters :=
  d.after ((Site.ofSource d source).map Site.tag)

/-- Parts and others behind them, with the plain texts where they meet made one. -/
def Part.Joins (ps qs rs : List Part) : Prop :=
  ∃ before x y behind, ps = before ++ Placed.literal x ∧ qs = Placed.literal y ++ behind ∧
    rs = before ++ Placed.literal (x ++ y) ++ behind

lemma Segment.Cuts.behind_eq {d : Delimiters} {source last : Text} {xs : List Segment}
    (h : Cuts d source xs last) : d.behind source = d.after (xs.map Segment.tag) := by
  rw [Delimiters.behind, h.ofSource_eq, sites_map_tag]

/-- Segments that nest, and others that nest behind them, nest to both their parts. -/
theorem Segment.Cuts.exists_nests {d d₀ d₁ d₂ : Delimiters} (hd : d.Valid) {s last last' : Text}
    {xs ys : List Segment} {ps qs : List Part} (hx : Cuts d s xs last) (hs : s.WholeLines)
    (hps : Placed.Nests d₀ (placed xs last) ps d₁) (hqs : Placed.Nests d₁ (placed ys last') qs d₂) :
    let zs := xs ++ Segment.prefixed last ys
    let last'' := prefixedLast last last' ys
    ∃ rs, Placed.Nests d₀ (placed zs last'') rs d₂ ∧
      Part.Joins (ps ++ Placed.literal (keptLast xs last))
        (qs ++ Placed.literal (keptLast ys last'))
        (rs ++ Placed.literal (keptLast zs last'')) := by
  intro zs last''
  obtain ⟨hlast, hempty⟩ := hx.wholeLines_last hd hs
  let lone := Placed.afterLast false (placed xs last)
  have hlone : last = [] → lone = false := by
    intro h
    simp only [lone, hempty h]
    rfl
  have hplaced : placed zs last'' =
      placed xs last ++ Placed.prefixed last (place (some []) lone ys last') :=
    placed_append_prefixed hd hx hs ys last'
  rw [keptLast, keptLast, keptLast, hplaced, Placed.afterLast_append]
  cases ys with
  | nil =>
    cases hqs with
    | nil =>
      refine ⟨ps, by simpa [place, Placed.prefixed] using hps, ps, _, last', [], rfl, ?_, ?_⟩
      · rw [List.append_nil]
        rfl
      · rw [List.append_nil]
        exact congrArg (fun s => ps ++ Placed.literal s)
          (Layout.keep_append hlast lone false last' hlone)
  | cons y ys =>
    let alone? := Layout.standsAlone? (Layout.Lead.advance (some []) y.text) y.tag
      (sourceOf ys last')
    let y₁ : Placed := ⟨y, false, alone?⟩
    let y₂ : Placed := ⟨⟨last ++ y.text, y.raw, y.tag⟩, lone, alone?⟩
    have hkept : y₂.kept = Layout.keep lone false last ++ y₁.kept :=
      Layout.keep_append hlast lone alone?.isSome y.text hlone
    obtain ⟨behind, rfl, hn⟩ := hqs.exists_cons_of_eq (y := y₂) rfl rfl
    refine ⟨_, hps.append hn, ps, _, y₁.kept, _, rfl, List.append_assoc .., ?_⟩
    rw [hkept]
    simp only [List.append_assoc]
    rfl

namespace Tokens

lemma tags_append (ts us : List Token) (fault? : Option (Position × TagFault)) :
    tags ⟨ts ++ us, fault?⟩ = tags ⟨ts, none⟩ ++ tags ⟨us, fault?⟩ :=
  List.filterMap_append

/-- Balanced tags in front of others do not change what is wrong with these. -/
theorem error?_of_balanced {ts us : Tokens} {first : List (Position × Tag)} (hb : Balanced first)
    (ht : us.tags = first ++ ts.tags) (hf : us.fault? = ts.fault?) : us.error? = ts.error? := by
  rw [error?, error?, ht, hf, List.foldlM_append, hb.foldlM_openedAfter]
  rfl

end Tokens

namespace Part

variable {d : Delimiters} {a b : Text}

/-- Behind whole lines that compile, a source that compiles compiles to its own parts. -/
theorem exists_ofSource_append (hd : d.Valid) (ha : a.WholeLines) {ps qs : List Part}
    (hps : ofSource d a = .ok ps) (hqs : ofSource (d.behind a) b = .ok qs) :
    ∃ rs, ofSource d (a ++ b) = .ok rs ∧ Joins ps qs rs := by
  obtain ⟨xs, last, pa, d₁, hx, hna, rfl⟩ := (ofSource_eq_ok_iff hd).mp hps
  have hd₁ : d.after (xs.map Segment.tag) = d₁ := by
    rw [← hna.after_eq, ← Placed.map_toSegment_map_tag, Segment.placed,
      Segment.place_map_toSegment]
  obtain ⟨hreads, hnone⟩ := Segment.cuts_iff_reads.mp hx
  have hvalid := hreads.valid hd
  rw [hx.behind_eq] at hqs
  obtain ⟨ys, last', pb, d₂, hy, hnb, rfl⟩ := (ofSource_eq_ok_iff hvalid).mp hqs
  obtain ⟨hlast, -⟩ := hx.wholeLines_last hd ha
  have hsearch := hlast.breakOn_append hvalid.opening.newline_notMem hnone b
  have hcut := (hreads.append b).trans_cuts (hy.prefixed_of_breakOn hsearch)
  obtain ⟨rs, hrs, hjoins⟩ := hx.exists_nests hd ha hna (hd₁ ▸ hnb)
  exact ⟨_, (ofSource_eq_ok_iff hd).mpr ⟨_, _, rs, d₂, hcut, hrs, rfl⟩, hjoins⟩

/-- Behind whole lines that compile, what is wrong with a source is what is wrong with it on its
own, further down. -/
theorem error?_append (hd : d.Valid) (ha : a.WholeLines) {ps : List Part}
    (hps : ofSource d a = .ok ps) :
    (Tokens.ofText d (a ++ b)).error? =
      (Tokens.ofText (d.behind a) b).error?.map (SyntaxError.behind a) := by
  obtain ⟨xs, last, -, -, hx, -, -⟩ := (ofSource_eq_ok_iff hd).mp hps
  obtain ⟨hreads, hnone⟩ := Segment.cuts_iff_reads.mp hx
  obtain ⟨hlast, -⟩ := hx.wholeLines_last hd ha
  have hplace : (Position.start.advance (Segment.sourceOf xs [])).advance last =
      Position.start.behind a := by
    rw [← Position.advance_append, ← Segment.sourceOf_eq_append, hx.sourceOf_eq,
      Position.advance_start_eq_behind ha]
  have hfirst : Balanced (Tokens.tags ⟨Segment.tokens .start xs [], none⟩) := by
    have hbalanced := (Tokens.error?_eq_none_iff.mp (exists_ofSource_eq_ok_iff.mp ⟨ps, hps⟩)).2
    have htags : (Tokens.ofText d a).tags = Tokens.tags ⟨Segment.tokens .start xs [], none⟩ := by
      rw [Tokens.ofText, hreads.scan_eq, Tokens.scan_of_cuts (.last hnone)]
      refine (Tokens.tags_append _ _ _).trans ?_
      rw [Segment.tokens, Tokens.tags_textToken, List.append_nil]
    rwa [htags] at hbalanced
  obtain ⟨htags, hfault⟩ := Tokens.scan_append_wholeLines (hreads.valid hd) hlast hnone
    (Position.start.advance (Segment.sourceOf xs [])) b
  rw [hplace, Tokens.scan_behind] at htags hfault
  rw [hx.behind_eq, ← Tokens.error?_behind]
  refine Tokens.error?_of_balanced hfirst ?_ ?_
  · rw [Tokens.ofText, (hreads.append b).scan_eq, Tokens.ofText, ← htags]
    exact Tokens.tags_append _ _ _
  · rw [Tokens.ofText, (hreads.append b).scan_eq, Tokens.ofText, ← hfault]

end Part

section

variable {ν : Type} [DecidableEq ν] {env : Setting ν} {ps qs rs : List Part}

lemma walk_literal (beyond : Beyond ν) (s : Stack ν) (text : Text) :
    walk env beyond s (Placed.literal text) = pure text := by
  unfold Placed.literal
  split
  · rename_i h
    rw [h]
    rfl
  · simp [walk, walkPart]

/-- Parts that are joined are rendered one after the other. -/
theorem Part.Joins.walk_eq (h : Joins ps qs rs) (beyond : Beyond ν) (s : Stack ν) :
    walk env beyond s rs = (do
      let text ← walk env beyond s ps
      let rest ← walk env beyond s qs
      pure (text ++ rest)) := by
  obtain ⟨before, x, y, behind, rfl, rfl, rfl⟩ := h
  simp only [walk_append, walk_literal, bind_assoc, pure_bind, List.append_assoc]

lemma Part.Joins.renderParts_eq (h : Joins ps qs rs) (depth : Nat) (opened : List (Text × ν))
    (s : Stack ν) :
    renderParts env (depth + 1) opened s rs = (do
      let text ← renderParts env (depth + 1) opened s ps
      let rest ← renderParts env (depth + 1) opened s qs
      pure (text ++ rest)) := by
  rw [renderParts_succ, renderParts_succ, renderParts_succ]
  exact h.walk_eq _ s

lemma Template.render_result (t : Template) (depth : Nat) (root : ν) :
    (t.render env depth root).result =
      ((renderParts env depth [] (Stack.ofRoot root) t.parts).run.run .start).1 :=
  rfl

/-- Without lambdas, templates that are joined render to their texts one after the other. -/
theorem Part.Joins.render_result {t u v : Template} (h : Joins t.parts u.parts v.parts) {root : ν}
    (hf : env.context.LambdaFree root) {depth : Nat} {x y : Text}
    (hx : (t.render env depth root).result = .ok x)
    (hy : (u.render env depth root).result = .ok y) :
    (v.render env depth root).result = .ok (x ++ y) := by
  cases depth with
  | zero =>
    have hdeep : (t.render env 0 root).result = .error .tooDeep := rfl
    rw [hdeep] at hx
    simp at hx
  | succ depth =>
    have hwithin := Stack.within_ofRoot env.context root
    have hfirst := renderParts_agree hf (depth + 1) [] hwithin t.parts .start .start
      ⟨Progress.kept_start, Progress.kept_start⟩
    rw [Template.render_result] at hx hy ⊢
    rw [h.renderParts_eq, run_bind]
    rcases hr : (renderParts env (depth + 1) [] (Stack.ofRoot root) t.parts).run.run .start with
      ⟨e | text, p⟩ <;> rw [hr] at hx hfirst
    · simp at hx
    · obtain rfl := Except.ok.inj hx
      -- what the first template has kept does not show in the second
      have hsecond := (renderParts_agree hf (depth + 1) [] hwithin u.parts p .start
        ⟨hfirst.2.1, Progress.kept_start⟩).1
      rw [hy] at hsecond
      simp only
      rw [run_bind]
      rcases hr' : (renderParts env (depth + 1) [] (Stack.ofRoot root) u.parts).run.run p with
        ⟨e | rest, q⟩ <;> rw [hr'] at hsecond
      · simp at hsecond
      · obtain rfl := Except.ok.inj hsecond
        rfl

end

/-- Templates are put together at the ends of lines. Behind whole lines that compile, a source
compiles to the parts that it has on its own with the delimiters in force there, and without lambdas
renders to what it renders to on its own; and what it is refused for, it is refused for further
down. -/
theorem Part.ofSource_append {d : Delimiters} (hd : d.Valid) {a : Text} (ha : a.WholeLines)
    {ps : List Part} (hps : ofSource d a = .ok ps) (b : Text) :
    (∀ qs, ofSource (d.behind a) b = .ok qs → ∃ rs, ofSource d (a ++ b) = .ok rs ∧
      Joins ps qs rs ∧
      ∀ (ν : Type) [DecidableEq ν] (env : Setting ν) (root : ν), env.context.LambdaFree root →
        ∀ n m x y, ((⟨a, ps⟩ : Template).render env n root).result = .ok x →
          ((⟨b, qs⟩ : Template).render env m root).result = .ok y → ∀ k, n ≤ k → m ≤ k →
            ((⟨a ++ b, rs⟩ : Template).render env k root).result = .ok (x ++ y)) ∧
    ∀ e, ofSource (d.behind a) b = .error e → ofSource d (a ++ b) = .error (e.behind a) := by
  constructor
  · intro qs hqs
    obtain ⟨rs, hrs, hjoins⟩ := exists_ofSource_append hd ha hps hqs
    refine ⟨rs, hrs, hjoins, fun ν _ env root hf n m x y hx hy k hn hm => ?_⟩
    have hxk : (⟨a, ps⟩ : Template).render env k root = (⟨a, ps⟩ : Template).render env n root :=
      Template.render_of_le hn (by simp [hx])
    have hyk : (⟨b, qs⟩ : Template).render env k root = (⟨b, qs⟩ : Template).render env m root :=
      Template.render_of_le hm (by simp [hy])
    rw [← hxk] at hx
    rw [← hyk] at hy
    exact hjoins.render_result (v := ⟨a ++ b, rs⟩) hf hx hy
  · intro e he
    rw [ofSource_eq_error_iff] at he ⊢
    rw [error?_append hd ha hps, he]
    rfl

/-- A source that switches delimiters and ends its last line, and two sources that may follow it. -/
theorem Part.ofSource_append_switched :
    let a : Text := ['{', '{', '=', '<', ' ', '>', '=', '}', '}', 'a', '\n']
    let b : Text := ['b', '<', 'x', '>']
    let d : Delimiters := ⟨['<'], ['>']⟩
    let env : Setting Unit := ⟨⟨fun _ _ => some (), fun _ => none, fun _ => ['v'], fun _ => false,
      fun _ => false, fun _ => none⟩, none, []⟩
    ofSource .braces a = .ok [.switch d, .literal ['a', '\n']] ∧ a.WholeLines ∧
      (∃ rs, ofSource .braces (a ++ b) = .ok rs ∧
        Joins [.switch d, .literal ['a', '\n']] [.literal ['b'], .value ['x'] true] rs ∧
        ((⟨a ++ b, rs⟩ : Template).render env 1 ()).result = .ok ['a', '\n', 'b', 'v']) ∧
      ofSource .braces (a ++ ['<']) = .error (.malformedTag ⟨11, 2, 1⟩ .missingClose) := by
  intro a b d env
  have h : ofSource .braces a = .ok [.switch d, .literal ['a', '\n']] := by decide +kernel
  have ha : a.WholeLines := .inr ⟨a.dropLast, rfl⟩
  have hd : Delimiters.braces.behind a = d := by decide +kernel
  have hb : ofSource (Delimiters.braces.behind a) b = .ok [.literal ['b'], .value ['x'] true] := by
    rw [hd]
    decide +kernel
  have he : ofSource (Delimiters.braces.behind a) ['<'] =
      .error (.malformedTag .start .missingClose) := by
    rw [hd]
    decide +kernel
  obtain ⟨rs, hrs, hjoins, hrender⟩ := (ofSource_append Delimiters.braces_valid ha h b).1 _ hb
  refine ⟨h, ha, ⟨rs, hrs, hjoins, ?_⟩, (ofSource_append Delimiters.braces_valid ha h _).2 _ he⟩
  exact hrender Unit env () (fun _ _ => rfl) 1 1 _ _ rfl rfl 1 (Nat.le_refl 1) (Nat.le_refl 1)

end Mustache
