import Mustache.Data.Value
import Mustache.Proofs.Account

/-! Lambdas that fail from some call on. A render does the same up to that call and stops there. -/
namespace Mustache

open Data

variable {ν α β : Type}

/-- A lambda that fails on every call after the first few. -/
def Data.Lambda.failingAfter (l : Lambda) (calls : Nat) (message : Text) : Lambda :=
  { l with
    answer := fun earlier text =>
      if calls ≤ earlier.length then .error message else l.answer earlier text }

/-- The same data, where the lambda at a node fails on every call after the first few. -/
def Data.Context.failingAt [DecidableEq ν] (C : Context ν) (node : ν) (calls : Nat)
    (message : Text) : Context ν :=
  { C with
    lambda? := fun n =>
      if n = node then (C.lambda? n).map (·.failingAfter calls message) else C.lambda? n }

namespace Run

variable [DecidableEq ν]

/-- How often the lambda at a node was called. -/
def callsOf (node : ν) (calls : List (Call ν)) : Nat :=
  (heard node calls).length

lemma callsOf_append (node : ν) (calls more : List (Call ν)) :
    callsOf node (calls ++ more) = callsOf node calls + callsOf node more := by
  simp [callsOf, heard]

lemma callsOf_reverse (node : ν) (calls : List (Call ν)) :
    callsOf node calls.reverse = callsOf node calls := by
  simp [callsOf, heard]

lemma callsOf_cons (node : ν) (call : Call ν) (calls : List (Call ν)) :
    callsOf node (call :: calls) = callsOf node calls + if call.node = node then 1 else 0 := by
  by_cases h : call.node = node <;> simp [callsOf, heard, h]

end Run

/-- The same setting, where the lambda at a node fails on every call after the first few of a
render. The calls of earlier renders do not count. -/
def Setting.failingAt [DecidableEq ν] (env : Setting ν) (node : ν) (calls : Nat) (message : Text) :
    Setting ν :=
  { env with
    context := env.context.failingAt node (Run.callsOf node env.earlier + calls) message }

namespace Progress

/-- Calls and questions to the store are only added to. -/
structure Grows (p q : Progress ν) : Prop where
  calls : p.calls <:+ q.calls
  lookups : p.lookups <:+ q.lookups

lemma Grows.refl (p : Progress ν) : p.Grows p :=
  ⟨List.suffix_refl _, List.suffix_refl _⟩

lemma Grows.trans {p q r : Progress ν} (h : p.Grows q) (h' : q.Grows r) : p.Grows r :=
  ⟨h.calls.trans h'.calls, h.lookups.trans h'.lookups⟩

variable [DecidableEq ν]

lemma Grows.callsOf_le {p q : Progress ν} (h : p.Grows q) (node : ν) :
    Run.callsOf node p.calls ≤ Run.callsOf node q.calls := by
  obtain ⟨more, hmore⟩ := h.calls
  rw [← hmore, Run.callsOf_append]
  exact Nat.le_add_left _ _

/-- One progress is where another one was when it came to a call: the last call of a node that was
made after the first few. -/
structure CutAt (node : ν) (calls : Nat) (q' q : Progress ν) : Prop where
  calls : ∃ after call before, q.calls = after ++ call :: before ∧ call.node = node ∧
    Run.callsOf node before = calls ∧ q'.calls = call :: before
  lookups : q'.lookups <:+ q.lookups

lemma CutAt.grows {node : ν} {calls : Nat} {q' q r : Progress ν} (h : q'.CutAt node calls q)
    (hr : q.Grows r) : q'.CutAt node calls r := by
  obtain ⟨after, call, before, hq, hcall, hbefore, hq'⟩ := h.calls
  obtain ⟨more, hmore⟩ := hr.calls
  refine ⟨⟨more ++ after, call, before, ?_, hcall, hbefore, hq'⟩, h.lookups.trans hr.lookups⟩
  rw [← hmore, hq, List.append_assoc]

end Progress

namespace Run

variable [DecidableEq ν] {node : ν} {calls : Nat} {message : Text}

/-- A computation does what another one does as long as a node is called at most so often. At the
next call of that node it fails. -/
structure FailsAfter (node : ν) (calls : Nat) (message : Text) (m m' : Run ν α) : Prop where
  grows (p : Progress ν) : p.Grows (m.run.run p).2
  same (p : Progress ν) (h : callsOf node (m.run.run p).2.calls ≤ calls) :
    m'.run.run p = m.run.run p
  fails (p : Progress ν) (hp : callsOf node p.calls ≤ calls)
    (h : calls < callsOf node (m.run.run p).2.calls) :
    (m'.run.run p).1 = .error (.error (.lambdaFailed message)) ∧
      (m'.run.run p).2.CutAt node calls (m.run.run p).2

namespace FailsAfter

/-- A computation without calls does not fail. -/
theorem of_calls_eq {m : Run ν α} (hgrows : ∀ p : Progress ν, p.Grows (m.run.run p).2)
    (h : ∀ p, (m.run.run p).2.calls = p.calls) : FailsAfter node calls message m m where
  grows := hgrows
  same _ _ := rfl
  fails p hp hcalls := by
    rw [h p] at hcalls
    exact absurd hp (by omega)

lemma pure (a : α) : FailsAfter node calls message (pure a) (pure a) :=
  of_calls_eq .refl fun _ => rfl

lemma throw (e : Stop) :
    FailsAfter node calls message (throw e : Run ν α) (throw e) :=
  of_calls_eq .refl fun _ => rfl

lemma bind {m m' : Run ν α} {f f' : α → Run ν β} (hm : FailsAfter node calls message m m')
    (hf : ∀ a, FailsAfter node calls message (f a) (f' a)) :
    FailsAfter node calls message (m >>= f) (m' >>= f') := by
  have hrun (p : Progress ν) := run_bind m f p
  have hgrows (p : Progress ν) : (m.run.run p).2.Grows ((m >>= f).run.run p).2 := by
    rw [hrun p]
    rcases m.run.run p with ⟨e | a, q⟩
    · exact .refl q
    · exact (hf a).grows q
  refine ⟨fun p => (hm.grows p).trans (hgrows p), fun p h => ?_, fun p hp h => ?_⟩
  · have hsame := hm.same p (((hgrows p).callsOf_le node).trans h)
    rw [hrun p] at h ⊢
    rw [run_bind, hsame]
    rcases hq : m.run.run p with ⟨e | a, q⟩
    · rfl
    · rw [hq] at h
      exact (hf a).same q h
  · by_cases hfirst : callsOf node (m.run.run p).2.calls ≤ calls
    · have hsame := hm.same p hfirst
      rw [hrun p] at h ⊢
      rw [run_bind, hsame]
      rcases hq : m.run.run p with ⟨e | a, q⟩
      · rw [hq] at h hfirst
        exact absurd hfirst (by simpa using h)
      · rw [hq] at h hfirst
        exact (hf a).fails q hfirst h
    · -- the call that fails is one of the first computation
      obtain ⟨hfail, hcut⟩ := hm.fails p hp (by omega)
      have hcut' := hcut.grows (hgrows p)
      rw [run_bind]
      rcases hq : m'.run.run p with ⟨e | a, q⟩
      · rw [hq] at hfail hcut'
        exact ⟨congrArg _ (Except.error.inj hfail), hcut'⟩
      · rw [hq] at hfail
        cases hfail

/-- Doing one thing after the other fails where the first of them does that fails. -/
def relation (node : ν) (calls : Nat) (message : Text) : Relation ν :=
  ⟨FailsAfter node calls message, pure, throw, bind⟩

lemma note (store? : Option α) (name : Text) :
    FailsAfter node calls message (note store? name) (note store? name) := by
  refine of_calls_eq (fun p => ?_) fun p => ?_ <;> rw [run_note]
  · split
    · exact ⟨List.suffix_refl _, List.suffix_cons name _⟩
    · exact .refl p
  · split <;> rfl

lemma indented (name indent : Text) (t : Template) :
    FailsAfter node calls message (indented name indent t) (indented name indent t) := by
  refine of_calls_eq (fun p => ?_) fun p => ?_ <;>
    obtain ⟨kept, hkept⟩ := run_indented_eq name indent t p <;> rw [hkept]
  exact ⟨List.suffix_refl _, List.suffix_refl _⟩

lemma call_grows (env : Setting ν) (n : ν) (l : Lambda) (text : Text) (p : Progress ν) :
    p.Grows ((call env n l text).run.run p).2 := by
  rw [run_call]
  exact ⟨List.suffix_cons _ _, List.suffix_refl _⟩

/-- Calls of other nodes do the same. -/
theorem call_of_ne (env : Setting ν) {n : ν} (hn : n ≠ node) (l : Lambda) (text : Text) :
    FailsAfter node calls message (call env n l text)
      (call (env.failingAt node calls message) n l text) where
  grows := call_grows env n l text
  same _ _ := rfl
  fails p hp h := by
    rw [run_call, callsOf_cons, if_neg hn] at h
    exact absurd hp (Nat.not_le.mpr h)

/-- Calls of the node fail after the first few. -/
theorem call_self (env : Setting ν) (l : Lambda) (text : Text) :
    FailsAfter node calls message (call env node l text)
      (call (env.failingAt node calls message) node
        (l.failingAfter (callsOf node env.earlier + calls) message) text) := by
  have hcount (p : Progress ν) :
      callsOf node ((call env node l text).run.run p).2.calls = callsOf node p.calls + 1 := by
    rw [run_call, callsOf_cons, if_pos rfl]
  have hearlier (p : Progress ν) : (heard node (env.earlier ++ p.calls.reverse)).length =
      callsOf node env.earlier + callsOf node p.calls := by
    rw [← callsOf_reverse node p.calls, ← callsOf_append]
    rfl
  refine ⟨call_grows env node l text, fun p h => ?_, fun p hp h => ?_⟩
  · rw [hcount] at h
    have hn : ¬ callsOf node env.earlier + calls ≤
        (heard node (env.earlier ++ p.calls.reverse)).length := by
      rw [hearlier]
      omega
    rw [run_call, run_call]
    simp only [Lambda.failingAfter, Setting.failingAt, if_neg hn]
    rfl
  · rw [hcount] at h
    have hp' : callsOf node p.calls = calls := by omega
    have hn : callsOf node env.earlier + calls ≤
        (heard node (env.earlier ++ p.calls.reverse)).length := by
      rw [hearlier]
      omega
    rw [run_call, run_call]
    refine ⟨?_, ⟨[], _, p.calls, rfl, rfl, hp', rfl⟩, List.suffix_refl _⟩
    simp only [Lambda.failingAfter, Setting.failingAt, if_pos hn]
    rfl

end FailsAfter
end Run

variable [DecidableEq ν]

lemma Setting.pairs_failingAt (env : Setting ν) (node : ν) (calls : Nat) (message : Text) :
    env.Pairs (Run.FailsAfter.relation node calls message) (env.failingAt node calls message)
      (fun _ => True) fun _ => True where
  resolve? _ _ _ _ := rfl
  stays _ _ _ _ _ _ _ := trivial
  node s path n _ _ := by
    refine ⟨rfl, rfl, rfl, rfl, fun h => ?_, fun l h => ?_⟩
    · simp [failingAt, Context.failingAt, h]
    · by_cases hn : n = node
      · subst hn
        exact ⟨_, by simp [failingAt, Context.failingAt, h], Run.FailsAfter.call_self env l⟩
      · exact ⟨l, by simp [failingAt, Context.failingAt, h, hn], Run.FailsAfter.call_of_ne env hn l⟩

lemma renderParts_failingAt (env : Setting ν) (node : ν) (calls : Nat) (message : Text)
    (depth : Nat) (opened : List (Text × ν)) (s : Stack ν) (parts : List Part) :
    Run.FailsAfter node calls message (renderParts env depth opened s parts)
      (renderParts (env.failingAt node calls message) depth opened s parts) := by
  rw [← renderBy_indented, ← renderBy_indented]
  exact renderBy_paired (R := Run.FailsAfter.relation node calls message)
    (env.pairs_failingAt node calls message) (Run.FailsAfter.note _)
    (fun name indent t _ => Run.FailsAfter.indented name indent t) depth opened trivial parts

/-- A lambda that fails after a few of its calls stops a render at its next call and nowhere else. A
render that calls it no more often than that is the same; one that calls it more often fails with
its message, having done what it would have done up to that call. And whatever a render calls is
called by the values and sections that it renders over lambdas, once by each: nothing else calls a
lambda. -/
theorem Template.render_failingAt (t : Template) (env : Setting ν) (depth : Nat) (root node : ν)
    (calls : Nat) (message : Text) :
    let r := t.render env depth root
    let r' := t.render (env.failingAt node calls message) depth root
    (Run.callsOf node r.calls ≤ calls → r' = r) ∧
    (calls < Run.callsOf node r.calls →
      r'.result = .error (.error (.lambdaFailed message)) ∧
      (∃ before call after, r.calls = before ++ call :: after ∧ call.node = node ∧
        Run.callsOf node before = calls ∧ r'.calls = before ++ [call]) ∧
      r'.lookups <+: r.lookups) ∧
    r.calls = (t.rendered env depth root).flatMap (Rendered.calls env.context) := by
  intro r r'
  have h := renderParts_failingAt env node calls message depth [] (Stack.ofRoot root) t.parts
  have hcalls : Run.callsOf node r.calls = Run.callsOf node
      ((renderParts env depth [] (Stack.ofRoot root) t.parts).run.run .start).2.calls :=
    Run.callsOf_reverse node _
  rw [hcalls]
  refine ⟨fun hle => ?_, fun hlt => ?_, t.calls_render env depth root⟩
  · have hsame := h.same .start hle
    simp only [r', r, render, Report.ofRun, hsame]
  · obtain ⟨hresult, ⟨after, call, before, hr, hcall, hbefore, hr'⟩, hlookups⟩ :=
      h.fails .start (Nat.zero_le _) hlt
    refine ⟨hresult, ⟨before.reverse, call, after.reverse, ?_, hcall, ?_, ?_⟩, ?_⟩
    · exact (congrArg List.reverse hr).trans (by simp)
    · rw [Run.callsOf_reverse]
      exact hbefore
    · exact (congrArg List.reverse hr').trans (by simp)
    · exact List.reverse_prefix.mpr hlookups

/-- A value, a section and a value over one lambda, which fails after one call. -/
theorem Template.render_failingAt_section :
    let l : Lambda := ⟨['l'], true, fun _ text => .ok ('<' :: text)⟩
    let t : Template := ⟨[], [.value ['f'] false, .block false ['f'] ['x'] .braces [.literal ['x']],
      .value ['f'] false]⟩
    let env : Setting Location :=
      ⟨Value.context.located (.mapping [(['f'], .callable l)]), none, []⟩
    let r := t.render env 2 []
    let r' := t.render (env.failingAt [.member ['f']] 1 ['m']) 2 []
    r.result = .ok ['<', '<', 'x', '<'] ∧
      r'.result = .error (.error (.lambdaFailed ['m'])) ∧
      r'.calls.map Call.argument? = [some [], some ['x']] := by
  intro l t env r r'
  obtain ⟨-, hfails, -⟩ := t.render_failingAt env 2 [] [.member ['f']] 1 ['m']
  obtain ⟨hresult, -, -⟩ := hfails (by decide +kernel)
  exact ⟨by decide +kernel, hresult, by decide +kernel⟩

end Mustache
