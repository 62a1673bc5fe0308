import Mustache.Command.Run
import Mustache.Proofs.Cache

/-! Recording: a render over a store that records the names that it cannot resolve does all that one
does over the store itself, and records those of the names asked for that the store does not have. A
strict command is such a render. -/
namespace Mustache

open Data

variable {ν : Type}

namespace Run

/-- Records that a store is asked for a template that it does not have. -/
def noteMissing (env : Setting ν) (name : Text) : Run ν Unit :=
  if (env.template? name).isNone then note env.store? name else pure ()

end Run

namespace Progress

/-- Progress of two runs that did the same, of which the first has the names on record that are
missing. -/
structure Records (missing : Text → Bool) (p q : Progress ν) : Prop where
  calls : p.calls = q.calls
  lookups : p.lookups = q.lookups.filter missing
  indented : p.indented = q.indented

lemma records_calls (missing : Text → Bool) :
    Calls (Records (ν := ν) missing) where
  calls h := h.calls
  call h c := ⟨congrArg (c :: ·) h.calls, h.lookups, h.indented⟩

end Progress

namespace Run

variable {env : Setting ν} {missing : Text → Bool}

/-- A name is on record just if it is missing. -/
theorem records_note (hmissing : ∀ name, missing name = (env.template? name).isNone)
    (name : Text) :
    Agree (Progress.Records missing) (noteMissing env name) (note env.store? name) := by
  intro p q h
  rw [noteMissing, ← hmissing]
  split
  · rename_i hname
    rw [run_note, run_note]
    split
    · exact ⟨rfl, h.calls, by simp [hname, h.lookups], h.indented⟩
    · exact ⟨rfl, h⟩
  · rename_i hname
    rw [run_note]
    split
    · exact ⟨rfl, h.calls, h.lookups.trans (List.filter_cons_of_neg hname).symm, h.indented⟩
    · exact ⟨rfl, h⟩

lemma records_indented (name indent : Text) (t : Template) :
    Agree (Progress.Records (ν := ν) missing) (indented name indent t)
      (indented name indent t) := by
  intro p q h
  cases hl : q.indented.lookup (name, indent) with
  | some u =>
    rw [run_indented_of_kept hl, run_indented_of_kept (h.indented ▸ hl)]
    exact ⟨rfl, h⟩
  | none =>
    rw [run_indented_of_not_kept hl, run_indented_of_not_kept (h.indented ▸ hl)]
    cases t.indented indent with
    | ok u => exact ⟨rfl, h.calls, h.lookups, congrArg (_ :: ·) h.indented⟩
    | error e => exact ⟨rfl, h⟩

end Run

variable [DecidableEq ν]

/-- The renderer of a setting over a store that records the names that it cannot resolve. -/
def Setting.recorder (env : Setting ν) : Renderer ν (List Part) :=
  { env.renderer with note := Run.noteMissing env }

/-- Renders a template over such a store. The lookups of the report are what it records. -/
def Template.record (t : Template) (env : Setting ν) (depth : Nat) (root : ν) : Report ν :=
  .ofRun (env.recorder.render depth [] (Stack.ofRoot root) t.parts)

/-- Recording changes nothing of a render, and what is recorded are the names asked for that the
store does not have, in order. -/
theorem Template.record_eq (t : Template) (env : Setting ν) (depth : Nat) (root : ν) :
    t.record env depth root =
      let report := t.render env depth root
      { report with lookups := report.lookups.filter fun name => (env.template? name).isNone } := by
  let missing (name : Text) : Bool := (env.template? name).isNone
  let R := Run.Agree.relation (Progress.Records (ν := ν) missing)
  have hpaired : env.recorder.Paired R env env (fun _ => True) env.renderer :=
    { (Run.keeps_of_calls (Progress.records_calls missing) env).pairs with
      template? := rfl
      closes := rfl
      note := Run.records_note fun _ => rfl
      indented := fun name indent t _ => Run.records_indented name indent t
      calls := ⟨rfl, rfl⟩
      tree := ⟨rfl, rfl⟩
      walk := ⟨rfl, rfl⟩ }
  obtain ⟨hresult, hrest⟩ := hpaired.render depth [] (s := Stack.ofRoot root) trivial t.parts
    .start .start ⟨rfl, rfl, rfl⟩
  have hlookups := (congrArg List.reverse hrest.lookups).trans List.filter_reverse.symm
  exact congr (congr (congrArg Report.mk hresult) (congrArg List.reverse hrest.calls)) hlookups

namespace Command

/-- A strict command renders over a store that records the names that it cannot resolve, and fails
on the first of them. -/
theorem renderSource_eq_of_strict {i : Invocation} (h : i.strict = true) (t : Template)
    (source : Source) (store : Store) :
    renderSource i t source store =
      let setting := ⟨source.document.context, some store, []⟩
      let report := t.record setting (store.size * source.size + 2) source.document.root
      match report.result with
      | .error stop => .error (.template i.template stop)
      | .ok text =>
        match report.lookups.head? with
        | some name => .error (.missingPartial name)
        | none => .ok text := by
  have hfirst (lookups : List Text) : missing? store lookups =
      (lookups.filter fun name => (store.get? name).isNone).head? := List.head?_filter.symm
  simp only [renderSource, Template.record_eq, h, if_true, hfirst]
  rfl

end Command
end Mustache
