import Mustache.Proofs.Loading
import Mustache.Proofs.Strictness

/-! All or nothing: a command that fails leaves all files as they were and shows nothing, and
whether it is strict makes no difference other than that a missing template counts as a failure. -/
namespace Mustache.Command

open Data

section Stages

variable {m : Type → Type} [Monad m]

/-- What a command has before it writes, whether or not it is strict: its templates, the text, and
the names of the templates that were asked for, in order. -/
structure Draft where
  store : Store
  text : Text
  lookups : List Text

/-- The render of data that was read. -/
def draft (i : Invocation) (t : Template) (source : Source) (store : Store) :
    Except Failure Draft :=
  let report := t.render ⟨source.document.context, some store, []⟩
    (store.size * source.size + 2) source.document.root
  match report.result with
  | .error stop => .error (.template i.template stop)
  | .ok text => .ok ⟨store, text, report.lookups⟩

/-- All that a command does before it writes. -/
def Readers.prepare (readers : Readers) (files : FileAccess m) (i : Invocation) :
    ExceptT Failure m Draft := do
  let t ← compileFile files i.template
  let source ← readers.loadData files i.data
  let store ← loadStore files i
  ofExcept (draft i t source store)

/-- The template that a command misses, if it is strict. -/
def missed? (i : Invocation) (d : Draft) : Option Text :=
  if i.strict then missing? d.store d.lookups else none

/-- A command fails on a draft that misses a template, and delivers the text otherwise. -/
def conclude (files : FileAccess m) (i : Invocation) (d : Draft) : ExceptT Failure m Text :=
  match missed? i d with
  | some name => throw (.missingPartial name)
  | none => deliver files i d.text

/-- A command prepares a draft and concludes it. -/
theorem render_eq [LawfulMonad m] (readers : Readers) (files : FileAccess m) (i : Invocation) :
    readers.render files i = readers.prepare files i >>= conclude files i := by
  unfold Readers.render Readers.prepare
  rw [bind_assoc]
  refine bind_congr fun t => ?_
  rw [bind_assoc]
  refine bind_congr fun source => ?_
  rw [bind_assoc]
  refine bind_congr fun store => ?_
  unfold renderSource draft
  dsimp only
  obtain ⟨stop | text, calls, lookups⟩ :=
    t.render ⟨source.document.context, some store, []⟩ (store.size * source.size + 2)
      source.document.root
  · simp [ofExcept]
  · refine Eq.trans ?_ (pure_bind _ _).symm
    unfold conclude missed?
    dsimp only
    cases (if i.strict = true then missing? store lookups else none) <;> rfl

end Stages

section Orderly

variable {σ : Type} {files : FileAccess (StateM σ)} (h : files.Orderly)
include h

/-- No file changes before the write. -/
theorem prepare_quiet (readers : Readers) (i : Invocation) : Quiet (readers.prepare files i) := by
  refine (compileFile_quiet h i.template).bind fun t => ?_
  refine (loadData_quiet h readers i.data).bind fun source => ?_
  refine (loadStore_quiet h i).bind fun store => ?_
  cases draft i t source store with
  | ok d => exact .pure d
  | error failure => exact .throw _

/-- The store of a draft has just the names that the directory has templates for. -/
theorem get?_isSome_of_prepare {readers : Readers} {i : Invocation} {s : σ} {d : Draft}
    (hd : ((readers.prepare files i).run.run s).1 = .ok d) (name : Text) :
    (d.store.get? name).isSome ↔ i.Has files s name := by
  obtain ⟨t, -, hd⟩ := (compileFile_quiet h i.template).exists_of_run_bind_eq_ok hd
  obtain ⟨source, -, hd⟩ := (loadData_quiet h readers i.data).exists_of_run_bind_eq_ok hd
  obtain ⟨store, hstore, hd⟩ := (loadStore_quiet h i).exists_of_run_bind_eq_ok hd
  have hstore' : d.store = store := by
    unfold draft at hd
    dsimp only at hd
    split at hd
    · cases hd
    · obtain rfl := Except.ok.inj hd
      rfl
  rw [hstore']
  exact get?_isSome_of_loadStore h hstore name

/-- An action that leaves everything as it is when it fails is all that can fail of a delivery. -/
theorem deliver_of_error {i : Invocation} {text : Text} {s : σ} {failure : Failure}
    (hfail : ((deliver files i text).run.run s).1 = .error failure) :
    ((deliver files i text).run.run s).2 = s := by
  have hlast (path shown : Text) {action : StateM σ (Except FileFault Unit)}
      (haction : ∀ fault, (action.run s).1 = .error fault → (action.run s).2 = s)
      (hfail : ((do onFile path action; pure shown : ExceptT Failure (StateM σ) Text).run.run
        s).1 = .error failure) :
      ((do onFile path action; pure shown : ExceptT Failure (StateM σ) Text).run.run s).2 = s := by
    rw [run_bind, run_onFile] at hfail ⊢
    rcases ha : action.run s with ⟨fault | ⟨⟩, s'⟩
    · rw [ha] at haction
      exact haction fault rfl
    · rw [ha] at hfail
      cases hfail
  unfold deliver at hfail ⊢
  cases ho : i.output? with
  | none =>
    rw [ho] at hfail
    exact hlast _ _ (h.print text s) hfail
  | some path =>
    rw [ho] at hfail
    exact hlast _ _ (h.write path _ s) hfail

end Orderly

/-- How a command ends that was asked to render. -/
def Outcome.ofResult : Except Failure Text → Outcome
  | .ok text => ⟨0, String.ofList text, ""⟩
  | .error failure => ⟨1, "", "error: " ++ failure.message ++ "\n"⟩

section Run

variable {σ : Type} {files : FileAccess (StateM σ)} {readers : Readers} {arguments : List Text}
  {i : Invocation} {s s' : σ}

lemma run_render (h : readers.request arguments = .ok (.render i)) (s : σ) :
    (readers.run files arguments).run s =
      (Outcome.ofResult ((readers.render files i).run.run s).1,
        ((readers.render files i).run.run s).2) := by
  unfold Readers.run
  rw [h]
  dsimp only
  rw [StateT.run_bind]
  rcases (readers.render files i).run.run s with ⟨failure | text, s'⟩ <;> rfl

lemma run_prepared {d : Draft} (h : (readers.prepare files i).run.run s = (.ok d, s')) :
    (readers.render files i).run.run s = (conclude files i d).run.run s' := by
  rw [render_eq, run_bind, h]

lemma run_unprepared {failure : Failure}
    (h : (readers.prepare files i).run.run s = (.error failure, s')) :
    (readers.render files i).run.run s = (.error failure, s') := by
  rw [render_eq, run_bind, h]

/-- A command that fails to render leaves the files as they were. -/
theorem render_of_error (h : files.Orderly) {failure : Failure}
    (hfail : ((readers.render files i).run.run s).1 = .error failure) :
    ((readers.render files i).run.run s).2 = s := by
  have hquiet := prepare_quiet h readers i s
  rcases hp : (readers.prepare files i).run.run s with ⟨e | d, s'⟩ <;> obtain rfl : s' = s := by
    rw [hp] at hquiet
    exact hquiet
  · rw [run_unprepared hp]
  · rw [run_prepared hp] at hfail ⊢
    unfold conclude at hfail ⊢
    cases hm : missed? i d with
    | some name => rfl
    | none =>
      rw [hm] at hfail
      exact deliver_of_error h hfail

/-- Whether or not it can be shown, an announcement is no failure. -/
theorem code_announce (files : FileAccess (StateM σ)) (text : String) (s : σ) :
    ((announce files text).run s).1.code = 0 := by
  unfold announce
  rw [run_bind_state]
  cases ((files.print text.toList).run s).1 <;> rfl

/-- A command that ends with a code other than 0 leaves all files as they were and shows nothing on
its output. -/
theorem run_of_code_ne_zero (h : files.Orderly)
    (hcode : ((readers.run files arguments).run s).1.code ≠ 0) :
    ((readers.run files arguments).run s).2 = s ∧
      ((readers.run files arguments).run s).1.stdout = "" := by
  cases hr : readers.request arguments with
  | error fault =>
    rw [Readers.run, hr]
    exact ⟨rfl, rfl⟩
  | ok request =>
    cases request with
    | version =>
      rw [Readers.run, hr] at hcode
      exact absurd (code_announce files _ s) hcode
    | help =>
      rw [Readers.run, hr] at hcode
      exact absurd (code_announce files _ s) hcode
    | render i =>
      rw [run_render hr] at hcode ⊢
      cases hfail : ((readers.render files i).run.run s).1 with
      | error failure => exact ⟨render_of_error h hfail, rfl⟩
      | ok text =>
        rw [hfail] at hcode
        exact absurd rfl hcode

end Run

lemma missing?_eq_none_iff {store : Store} {lookups : List Text} :
    missing? store lookups = none ↔ ∀ name ∈ lookups, (store.get? name).isSome := by
  simp [missing?, Option.isSome_iff_ne_none]

lemma missing?_eq_some {store : Store} {before after : List Text} {name : Text}
    (hbefore : ∀ n ∈ before, (store.get? n).isSome) (hname : store.get? name = none) :
    missing? store (before ++ name :: after) = some name := by
  rw [missing?, List.find?_append]
  change (missing? store before).or _ = _
  rw [missing?_eq_none_iff.mpr hbefore]
  simp [hname]

/-- A command that ends with a code other than 0 leaves all files as they were and shows nothing on
its output. And a strict command differs from one that is not strict just in this: after the same
failures before the write, it fails on the first name of those asked for, in order, that the store
does not have, which has the names that the directory has templates for; if the store has all of
them there is no difference. So it is however arguments and data are read, and the command itself
becomes strict by a flag in front of its arguments. -/
theorem run_all_or_nothing {σ : Type} {files : FileAccess (StateM σ)} (h : files.Orderly) (s : σ) :
    (∀ (readers : Readers) arguments, ((readers.run files arguments).run s).1.code ≠ 0 →
      ((readers.run files arguments).run s).2 = s ∧
        ((readers.run files arguments).run s).1.stdout = "") ∧
    (∀ (readers : Readers) arguments strictArguments i,
      readers.request arguments = .ok (.render i) → i.strict = false →
      readers.request strictArguments = .ok (.render i.strictly) →
      (∀ failure, ((readers.prepare files i).run.run s).1 = .error failure →
        (readers.run files arguments).run s = (.ofResult (.error failure), s) ∧
        (readers.run files strictArguments).run s = (.ofResult (.error failure), s)) ∧
      ∀ d, ((readers.prepare files i).run.run s).1 = .ok d →
        (∀ name, (d.store.get? name).isSome ↔ i.Has files s name) ∧
        (readers.run files arguments).run s =
          (.ofResult ((deliver files i d.text).run.run s).1,
            ((deliver files i d.text).run.run s).2) ∧
        ((∀ name ∈ d.lookups, (d.store.get? name).isSome) →
          (readers.run files strictArguments).run s = (readers.run files arguments).run s) ∧
        ∀ before name after, d.lookups = before ++ name :: after →
          (∀ n ∈ before, (d.store.get? n).isSome) → d.store.get? name = none →
          (readers.run files strictArguments).run s =
            (.ofResult (.error (.missingPartial name)), s)) ∧
    ∀ arguments i, Readers.standard.request arguments = .ok (.render i) → i.strict = false →
      Readers.standard.request ("--strict-partials".toList :: arguments) =
        .ok (.render i.strictly) := by
  refine ⟨fun readers arguments => run_of_code_ne_zero h, ?_,
    fun arguments i hi hlenient => Arguments.ofArguments_strictly hi hlenient⟩
  intro readers arguments strictArguments i hi hlenient hs
  refine ⟨fun failure hfail => ?_, fun d hd => ⟨get?_isSome_of_prepare h hd, ?_⟩⟩
  · have hp : (readers.prepare files i).run.run s = (.error failure, s) :=
      Prod.ext hfail (prepare_quiet h readers i s)
    rw [run_render hi, run_render hs, run_unprepared hp, run_unprepared (i := i.strictly) hp]
    exact ⟨rfl, rfl⟩
  · have hp : (readers.prepare files i).run.run s = (.ok d, s) :=
      Prod.ext hd (prepare_quiet h readers i s)
    have hdeliver : conclude files i d = deliver files i d.text := by
      simp [conclude, missed?, hlenient]
    rw [run_render hi, run_render hs, run_prepared hp, run_prepared (i := i.strictly) hp, hdeliver]
    refine ⟨rfl, fun hall => ?_, fun before name after hsplit hbefore hname => ?_⟩
    · have hnone : missed? i.strictly d = none := missing?_eq_none_iff.mpr hall
      rw [conclude, hnone]
      rfl
    · have hsome : missed? i.strictly d = some name :=
        (congrArg _ hsplit).trans (missing?_eq_some hbefore hname)
      rw [conclude, hsome]
      rfl

/-- A tree with data, a template that asks for two others, and a directory that has the first of
them. -/
def FileTree.unmet : FileTree :=
  let inclusion (name : Char) : List Char := ['\x7b', '\x7b', '>', name, '\x7d', '\x7d']
  ((((ofHome ["h".toList]).put ["t".toList, "h".toList]
    (.file (String.ofList (inclusion 'q' ++ inclusion 'p')).toUTF8)).put
    ["d.json".toList, "h".toList] (.file "1".toUTF8)).put
    ["ps".toList, "h".toList] .directory).put
    ["q.mustache".toList, "ps".toList, "h".toList] (.file "Q".toUTF8)

/-- Whether a draft asks for two templates, of which its store has the first. -/
def Draft.meets (d : Draft) (name missed : Text) : Bool :=
  d.lookups = [name, missed] && (d.store.get? name).isSome && d.store.get? missed = none

/-- A directory that has only the first of two templates that are asked for. -/
theorem run_all_or_nothing_unmet :
    let arguments := ["t".toList, "d.json".toList, "-p".toList, "ps".toList]
    FileTree.access.Orderly ∧
    ((run FileTree.access arguments).run .unmet).1 = .ofResult (.ok ['Q']) ∧
    (run FileTree.access ("--strict-partials".toList :: arguments)).run .unmet =
      (.ofResult (.error (.missingPartial ['p'])), .unmet) := by
  intro arguments
  let i : Invocation := ⟨"t".toList, "d.json".toList, none, some "ps".toList, false⟩
  refine ⟨FileTree.access_orderly, by decide +kernel, ?_⟩
  obtain ⟨-, hboth, hstrict⟩ := run_all_or_nothing FileTree.access_orderly .unmet
  have hi : Readers.standard.request arguments = .ok (.render i) := by decide
  obtain ⟨d, hd, hmeets⟩ : ∃ d,
      ((Readers.standard.prepare FileTree.access i).run.run .unmet).1 = .ok d ∧
      d.meets ['q'] ['p'] = true := by
    have hmeets : (match ((Readers.standard.prepare FileTree.access i).run.run .unmet).1 with
      | .ok d => d.meets ['q'] ['p']
      | .error _ => false) = true := by decide +kernel
    split at hmeets
    · rename_i d hd
      exact ⟨d, hd, hmeets⟩
    · simp at hmeets
  simp only [Draft.meets, Bool.and_eq_true, decide_eq_true_eq] at hmeets
  obtain ⟨⟨hlookups, hfirst⟩, hmissing⟩ := hmeets
  obtain ⟨-, -, -, hmissed⟩ := (hboth _ _ _ _ hi rfl (hstrict _ _ hi rfl)).2 d hd
  exact hmissed [['q']] ['p'] [] hlookups (by simpa using hfirst) hmissing

end Mustache.Command
