import Mustache.Command.Run
import Mustache.Proofs.Outcome

/-! Loading: what a command reads before it renders. No file changes by that, and the names that
have a template then are those of the files in the directory of templates. -/
namespace Mustache.Command

/-- A means to reach files where nothing but a write that succeeds changes them. A text that cannot
be shown leaves everything as it is. -/
structure FileAccess.Orderly {σ : Type} (files : FileAccess (StateM σ)) : Prop where
  read (path : Text) (s : σ) : ((files.read path).run s).2 = s
  list (path : Text) (s : σ) : ((files.list path).run s).2 = s
  write (path : Text) (content : ByteArray) (s : σ) (fault : FileFault)
    (h : ((files.write path content).run s).1 = .error fault) :
    ((files.write path content).run s).2 = s
  print (text : Text) (s : σ) (fault : FileFault)
    (h : ((files.print text).run s).1 = .error fault) : ((files.print text).run s).2 = s

namespace FileTree

lemma run_write (path : Text) (content : ByteArray) (t : FileTree) :
    (access.write path content).run t =
      match t.write path content with
      | .ok t' => (.ok (), t')
      | .error fault => (.error fault, t) := by
  change StateT.run (match t.write path content with
    | .ok t => do set t; return .ok ()
    | .error fault => return .error fault : StateM FileTree (Except FileFault Unit)) t = _
  cases t.write path content <;> rfl

lemma access_orderly : access.Orderly where
  read _ _ := rfl
  list _ _ := rfl
  write path content t fault h := by
    rw [run_write] at h ⊢
    cases hw : t.write path content with
    | ok t' => simp [hw] at h
    | error fault => rfl
  print _ _ _ h := by cases h

end FileTree

variable {σ α β : Type}

/-- A computation that changes no file. -/
def Quiet (x : ExceptT Failure (StateM σ) α) : Prop :=
  ∀ s, (x.run.run s).2 = s

namespace Quiet

lemma pure (a : α) : Quiet (pure a : ExceptT Failure (StateM σ) α) :=
  fun _ => rfl

lemma throw (f : Failure) : Quiet (throw f : ExceptT Failure (StateM σ) α) :=
  fun _ => rfl

lemma bind {x : ExceptT Failure (StateM σ) α} {f : α → ExceptT Failure (StateM σ) β}
    (hx : Quiet x) (hf : ∀ a, Quiet (f a)) : Quiet (x >>= f) := by
  intro s
  have h := hx s
  rw [run_bind]
  rcases hr : x.run.run s with ⟨e | a, s'⟩ <;> rw [hr] at h
  · exact h
  · exact (hf a s').trans h

lemma foldlM {f : β → α → ExceptT Failure (StateM σ) β} (h : ∀ b a, Quiet (f b a)) (b : β)
    (xs : List α) : Quiet (xs.foldlM f b) := by
  induction xs generalizing b with
  | nil => exact pure b
  | cons a xs ih =>
    rw [List.foldlM_cons]
    exact (h b a).bind ih

/-- What follows goes on from the same files. -/
theorem run_bind {x : ExceptT Failure (StateM σ) α} (hx : Quiet x)
    (f : α → ExceptT Failure (StateM σ) β) (s : σ) :
    (x >>= f).run.run s =
      match (x.run.run s).1 with
      | .ok a => (f a).run.run s
      | .error e => (.error e, s) := by
  have h := hx s
  rw [Mustache.run_bind]
  rcases hr : x.run.run s with ⟨e | a, s'⟩ <;> rw [hr] at h <;> obtain rfl := h <;> rfl

lemma exists_of_run_bind_eq_ok {x : ExceptT Failure (StateM σ) α} (hx : Quiet x)
    {f : α → ExceptT Failure (StateM σ) β} {s : σ} {b : β}
    (h : ((x >>= f).run.run s).1 = .ok b) :
    ∃ a, (x.run.run s).1 = .ok a ∧ ((f a).run.run s).1 = .ok b := by
  rw [hx.run_bind] at h
  cases hr : (x.run.run s).1 with
  | error e =>
    rw [hr] at h
    cases h
  | ok a =>
    rw [hr] at h
    exact ⟨a, rfl, h⟩

end Quiet

section Orderly

variable {files : FileAccess (StateM σ)}

lemma run_bind_state (x : StateM σ α) (f : α → StateM σ β) (s : σ) :
    (x >>= f).run s = (f (x.run s).1).run (x.run s).2 :=
  rfl

lemma run_readText (path : Text) (s : σ) :
    ((files.readText path).run s).2 = ((files.read path).run s).2 := by
  unfold FileAccess.readText
  rw [run_bind_state]
  rcases (files.read path).run s with ⟨fault | bytes, s'⟩
  · rfl
  · dsimp only
    cases String.fromUTF8? bytes <;> rfl

lemma run_onFile (path : Text) (action : StateM σ (Except FileFault α)) (s : σ) :
    (onFile path action).run.run s =
      ((action.run s).1.mapError (.file path), (action.run s).2) := by
  unfold onFile
  rw [run_bind, show (liftM action : ExceptT Failure (StateM σ) _).run.run s =
    (.ok (action.run s).1, (action.run s).2) from rfl]
  rcases action.run s with ⟨fault | a, s'⟩ <;> rfl

lemma onFile_quiet (path : Text) {action : StateM σ (Except FileFault α)}
    (h : ∀ s, (action.run s).2 = s) : Quiet (onFile path action) := by
  intro s
  rw [run_onFile]
  exact h s

variable (h : files.Orderly)
include h

lemma readText_quiet (path : Text) : Quiet (onFile path (files.readText path)) :=
  onFile_quiet path fun s => (run_readText path s).trans (h.read path s)

lemma compileFile_quiet (path : Text) : Quiet (compileFile files path) := by
  refine (readText_quiet h path).bind fun text => ?_
  cases Template.compile text with
  | ok t => exact .pure t
  | error e => exact .throw _

lemma loadData_quiet (readers : Readers) (path : Text) :
    Quiet (readers.loadData files path) := by
  unfold Readers.loadData
  cases Format.ofPath? path with
  | none => exact .throw _
  | some format =>
    refine (readText_quiet h path).bind fun text => ?_
    cases readers.source text format with
    | ok source => exact .pure source
    | error failure => exact .throw _

lemma loadPartial_quiet (directory : Text) (store : Store) (name : Text) :
    Quiet (loadPartial files directory store name) := by
  unfold loadPartial
  split
  · split
    · exact (compileFile_quiet h _).bind fun t => .pure _
    · exact .pure store
  · exact .pure store

lemma loadStore_quiet (i : Invocation) : Quiet (loadStore files i) := by
  unfold loadStore
  cases i.partials? with
  | none => exact .pure _
  | some directory =>
    exact (onFile_quiet directory (h.list directory)).bind fun listed =>
      .foldlM (loadPartial_quiet h directory) _ listed

/-- The file of a name is a template, which goes under a certain name into the store. -/
def Path.IsPartial (file name : Text) : Prop :=
  splitName file = (name, some "mustache".toList)

/-- A file adds the name that it is a template of, and no other. -/
theorem get?_isSome_of_loadPartial {directory file : Text} {store store' : Store} {s : σ}
    (hload : ((loadPartial files directory store file).run.run s).1 = .ok store') (name : Text) :
    (store'.get? name).isSome ↔ (store.get? name).isSome ∨ Path.IsPartial file name := by
  unfold loadPartial at hload
  unfold Path.IsPartial
  split at hload
  · rename_i stem extension hsplit
    rw [hsplit]
    split at hload
    · rename_i hextension
      obtain ⟨t, -, ht⟩ := (compileFile_quiet h _).exists_of_run_bind_eq_ok hload
      obtain rfl := Except.ok.inj ht
      by_cases hname : name = stem
      · simp [hname, hextension]
      · rw [Store.get?_insert_of_ne store t hname]
        simp [Ne.symm hname]
    · rename_i hextension
      obtain rfl := Except.ok.inj hload
      refine (or_iff_left fun hpartial => ?_).symm
      exact hextension (Option.some.inj (congrArg Prod.snd hpartial))
  · rename_i hsplit
    obtain rfl := Except.ok.inj hload
    refine (or_iff_left fun hpartial => ?_).symm
    exact hsplit name _ hpartial

lemma get?_isSome_of_foldlM {directory : Text} {listed : List Text} {store store' : Store} {s : σ}
    (hload : ((listed.foldlM (loadPartial files directory) store).run.run s).1 = .ok store')
    (name : Text) :
    (store'.get? name).isSome ↔
      (store.get? name).isSome ∨ ∃ file ∈ listed, Path.IsPartial file name := by
  induction listed generalizing store with
  | nil =>
    obtain rfl := Except.ok.inj hload
    simp
  | cons file listed ih =>
    rw [List.foldlM_cons] at hload
    obtain ⟨next, hnext, hrest⟩ :=
      (loadPartial_quiet h directory store file).exists_of_run_bind_eq_ok hload
    rw [ih hrest, get?_isSome_of_loadPartial h hnext, List.exists_mem_cons_iff, or_assoc]

/-- A name has a template when a file of the directory is listed that is the template of that
name. -/
def Invocation.Has (i : Invocation) (files : FileAccess (StateM σ)) (s : σ) (name : Text) : Prop :=
  ∃ directory listed, i.partials? = some directory ∧
    ((files.list directory).run s).1 = .ok listed ∧ ∃ file ∈ listed, Path.IsPartial file name

/-- The names of the store that is loaded are those that the directory has templates for. -/
theorem get?_isSome_of_loadStore {i : Invocation} {store : Store} {s : σ}
    (hload : ((loadStore files i).run.run s).1 = .ok store) (name : Text) :
    (store.get? name).isSome ↔ i.Has files s name := by
  unfold loadStore at hload
  unfold Invocation.Has
  cases hp : i.partials? with
  | none =>
    rw [hp] at hload
    obtain rfl := Except.ok.inj hload
    simp
  | some directory =>
    rw [hp] at hload
    obtain ⟨listed, hlisted, hrest⟩ :=
      (onFile_quiet directory (h.list directory)).exists_of_run_bind_eq_ok hload
    rw [run_onFile] at hlisted
    rw [get?_isSome_of_foldlM h hrest]
    simp [mapError_eq_ok_iff.mp hlisted]

end Orderly
end Mustache.Command
