import Mustache.Proofs.Outcome
import Mustache.Template

/-! Balance: which tags open and close sections as they should. Main statement: a source compiles
exactly when all its tags can be read and are balanced, otherwise it is known what is reported, and
of the tags none is lost or moved. -/
namespace Mustache

/-- The tags among tokens, each with its start. -/
def Tokens.tags (ts : Tokens) : List (Position × Tag) :=
  ts.tokens.filterMap fun t => t.tag?.map (t.start, ·)

/-- A tag that neither opens nor closes a section. -/
def Tag.isLeaf : Tag → Bool
  | .opening _ _ | .closing _ => false
  | _ => true

/-- Tags of which every section that is opened is closed by its own name, the innermost first. -/
inductive Balanced : List (Position × Tag) → Prop
  | nil : Balanced []
  | leaf {p : Position} {tag : Tag} {ts : List (Position × Tag)} (h : tag.isLeaf = true)
      (hr : Balanced ts) : Balanced ((p, tag) :: ts)
  | block {p q : Position} {inverted : Bool} {name : Text} {inner ts : List (Position × Tag)}
      (hi : Balanced inner) (hr : Balanced ts) :
      Balanced ((p, .opening inverted name) :: (inner ++ (q, .closing name) :: ts))

/-- Tags that leave some sections open, each with its start and its name, the innermost first. -/
inductive LeavesOpen : List (Position × Tag) → List (Position × Text) → Prop
  | balanced {ts : List (Position × Tag)} (h : Balanced ts) : LeavesOpen ts []
  | opening {before inner : List (Position × Tag)} {p : Position} {inverted : Bool} {name : Text}
      {opened : List (Position × Text)} (hb : LeavesOpen before opened) (hi : Balanced inner) :
      LeavesOpen (before ++ (p, .opening inverted name) :: inner) ((p, name) :: opened)

lemma Balanced.append {ts us : List (Position × Tag)} (ht : Balanced ts) (hu : Balanced us) :
    Balanced (ts ++ us) := by
  induction ht with
  | nil => exact hu
  | leaf h _ ih => exact .leaf h ih
  | block hi _ _ ih =>
    rw [List.cons_append, List.append_assoc, List.cons_append]
    exact .block hi ih

lemma LeavesOpen.append {ts us : List (Position × Tag)} {opened : List (Position × Text)}
    (ht : LeavesOpen ts opened) (hu : Balanced us) : LeavesOpen (ts ++ us) opened := by
  cases ht with
  | balanced h => exact .balanced (h.append hu)
  | opening hb hi =>
    rw [List.append_assoc, List.cons_append]
    exact .opening hb (hi.append hu)

lemma leavesOpen_nil_iff {ts : List (Position × Tag)} : LeavesOpen ts [] ↔ Balanced ts := by
  constructor
  · intro h
    cases h with
    | balanced h => exact h
  · exact .balanced

/-- The sections that are open behind a tag, given those that are open in front of it. -/
def Tag.openedAfter (opened : List (Position × Text)) :
    Position × Tag → Except SyntaxError (List (Position × Text))
  | (p, .opening _ name) => .ok ((p, name) :: opened)
  | (p, .closing name) =>
    if opened.head?.map Prod.snd = some name then .ok opened.tail
    else .error (.unbalancedSection name p)
  | _ => .ok opened

lemma Tag.openedAfter_of_isLeaf {tag : Tag} (h : tag.isLeaf = true)
    (opened : List (Position × Text)) (p : Position) :
    openedAfter opened (p, tag) = .ok opened := by
  cases tag <;> simp_all [isLeaf, openedAfter]

/-- Balanced tags leave open what was open in front of them. -/
theorem Balanced.foldlM_openedAfter {ts : List (Position × Tag)} (h : Balanced ts)
    (opened : List (Position × Text)) : ts.foldlM Tag.openedAfter opened = .ok opened := by
  induction h generalizing opened with
  | nil => rfl
  | leaf h _ ih => rw [List.foldlM_cons, Tag.openedAfter_of_isLeaf h, ok_bind, ih]
  | @block p q inverted name inner ts _ _ ih₁ ih₂ =>
    rw [List.foldlM_cons, Tag.openedAfter, ok_bind, List.foldlM_append, ih₁, ok_bind,
      List.foldlM_cons]
    simpa [Tag.openedAfter] using ih₂ opened

lemma LeavesOpen.foldlM_openedAfter {ts : List (Position × Tag)}
    {opened : List (Position × Text)} (h : LeavesOpen ts opened) :
    ts.foldlM Tag.openedAfter [] = .ok opened := by
  induction h with
  | balanced h => exact h.foldlM_openedAfter []
  | opening _ hi ih =>
    rw [List.foldlM_append, ih, ok_bind, List.foldlM_cons]
    exact hi.foldlM_openedAfter _

/-- One more tag. -/
theorem LeavesOpen.step {ts : List (Position × Tag)} {opened opened' : List (Position × Text)}
    {t : Position × Tag} (h : LeavesOpen ts opened) (ht : Tag.openedAfter opened t = .ok opened') :
    LeavesOpen (ts ++ [t]) opened' := by
  obtain ⟨p, tag⟩ := t
  cases hl : tag.isLeaf with
  | true =>
    rw [Tag.openedAfter_of_isLeaf hl] at ht
    obtain rfl := Except.ok.inj ht
    exact h.append (.leaf hl .nil)
  | false =>
    cases tag with
    | opening inverted name =>
      obtain rfl := Except.ok.inj ht
      exact .opening h .nil
    | closing name =>
      simp only [Tag.openedAfter] at ht
      split at ht
      · rename_i hname
        obtain rfl := Except.ok.inj ht
        cases h with
        | balanced => simp at hname
        | opening hb hi =>
          obtain rfl := by simpa using hname
          rw [List.append_assoc, List.cons_append]
          exact hb.append (.block hi .nil)
      · simp at ht
    | _ => simp [Tag.isLeaf] at hl

/-- Tags in order leave sections open, or there is a first one that closes none of them. -/
theorem LeavesOpen.run {ts us : List (Position × Tag)} {opened : List (Position × Text)}
    (h : LeavesOpen ts opened) :
    match us.foldlM Tag.openedAfter opened with
    | .ok opened' => LeavesOpen (ts ++ us) opened'
    | .error e => ∃ before after p name opened', us = before ++ (p, .closing name) :: after ∧
        LeavesOpen (ts ++ before) opened' ∧ opened'.head?.map Prod.snd ≠ some name ∧
        e = .unbalancedSection name p := by
  induction us generalizing ts opened with
  | nil => simpa using h
  | cons u us ih =>
    rw [List.foldlM_cons]
    cases hu : Tag.openedAfter opened u with
    | ok opened' =>
      have := ih (h.step hu)
      rw [ok_bind]
      split
      · simp_all
      · rename_i e he
        rw [he] at this
        obtain ⟨before, after, p, name, opened'', rfl, hb, hname, rfl⟩ := this
        exact ⟨u :: before, after, p, name, opened'', rfl, by simpa using hb, hname, rfl⟩
    | error e =>
      obtain ⟨p, tag⟩ := u
      cases tag with
      | closing name =>
        simp only [Tag.openedAfter] at hu
        split at hu
        · simp at hu
        · rename_i hname
          obtain rfl := Except.error.inj hu
          exact ⟨[], us, p, name, opened, rfl, by simpa using h, hname, rfl⟩
      | _ => simp [Tag.openedAfter] at hu

lemma foldlM_openedAfter_eq_ok_iff {ts : List (Position × Tag)}
    {opened : List (Position × Text)} :
    ts.foldlM Tag.openedAfter [] = .ok opened ↔ LeavesOpen ts opened := by
  constructor
  · intro h
    have := @LeavesOpen.run [] ts [] (.balanced .nil)
    simpa [h] using this
  · exact LeavesOpen.foldlM_openedAfter

/-- A tag that closes none of the sections that are open is reported, and the first one is. -/
theorem foldlM_openedAfter_eq_error_iff {ts : List (Position × Tag)} {e : SyntaxError} :
    ts.foldlM Tag.openedAfter [] = .error e ↔
      ∃ before after p name opened, ts = before ++ (p, .closing name) :: after ∧
        LeavesOpen before opened ∧ opened.head?.map Prod.snd ≠ some name ∧
        e = .unbalancedSection name p := by
  constructor
  · intro h
    have := @LeavesOpen.run [] ts [] (.balanced .nil)
    simpa [h] using this
  · rintro ⟨before, after, p, name, opened, rfl, hb, hname, rfl⟩
    rw [List.foldlM_append, hb.foldlM_openedAfter, ok_bind, List.foldlM_cons, Tag.openedAfter,
      if_neg hname]
    rfl

/-- The tag of an item, with its start. -/
def Item.tag? : Item → Option (Position × Tag)
  | .text _ _ => none
  | .tag start _ t _ => some (start, t)

/-- The layout keeps every tag in its place. -/
theorem Layout.place_filterMap_tag? (lead : Lead) (afterLone : Bool) (source : Text)
    (ts : List Token) :
    (place lead afterLone source ts).filterMap Item.tag? =
      ts.filterMap fun t => t.tag?.map (t.start, ·) := by
  induction ts generalizing lead afterLone source with
  | nil => rfl
  | cons t ts ih =>
    obtain ⟨start, raw, _ | tag⟩ := t <;> simp [place, List.filterMap_cons, Item.tag?, ih]

namespace Part

mutual

/-- The tags that a part is made of, without comments. -/
def tagsPart : Part → List Tag
  | .literal _ => []
  | .value path escaped => [.value path escaped]
  | .block inverted path _ _ children =>
    .opening inverted path :: (tags children ++ [.closing path])
  | .inclusion name _ => [.inclusion name]
  | .switch d => [.switch d]

/-- The tags that parts are made of, in the order of the source and without comments. -/
def tags : List Part → List Tag
  | [] => []
  | part :: parts => tagsPart part ++ tags parts

end

@[simp] lemma tags_nil : tags [] = [] := rfl

@[simp] lemma tags_cons (part : Part) (parts : List Part) :
    tags (part :: parts) = tagsPart part ++ tags parts := rfl

@[simp] lemma tags_append (ps qs : List Part) : tags (ps ++ qs) = tags ps ++ tags qs := by
  induction ps with
  | nil => rfl
  | cons p ps ih => simp [ih]

end Part

namespace Nesting

/-- The sections that are open, each with its start and its name, the innermost first. -/
def opened (n : Nesting) : List (Position × Text) :=
  n.blocks.map fun b => (b.start, b.path)

/-- The tags in front of the innermost level, given the blocks that are open. -/
def outerTags : List OpenBlock → List Tag
  | [] => []
  | b :: blocks => outerTags blocks ++ (Part.tags b.parts.reverse ++ [.opening b.inverted b.path])

/-- The tags so far, without comments. -/
def tags (n : Nesting) : List Tag :=
  outerTags n.blocks ++ Part.tags n.parts.reverse

/-- What an item does to the sections that are open is what its tag does. -/
theorem step_opened (n : Nesting) (item : Item) :
    opened <$> n.step item = item.tag?.elim (.ok n.opened) (Tag.openedAfter n.opened) := by
  cases item with
  | text raw kept =>
    by_cases hk : kept = [] <;> simp [step, hk, Item.tag?, opened, skip, add]
  | tag start raw tag alone? =>
    cases tag with
    | closing name =>
      cases hb : n.blocks with
      | nil => simp [step, leave, hb, Item.tag?, Tag.openedAfter, opened]
      | cons b blocks =>
        by_cases hn : b.path = name <;>
          simp [step, leave, hb, hn, Item.tag?, Tag.openedAfter, opened]
    | _ => simp [step, Item.tag?, Tag.openedAfter, opened, add, skip, enter]

/-- An item adds its tag, unless that is a comment. -/
theorem step_tags {n m : Nesting} {item : Item} (h : n.step item = .ok m) :
    m.tags = n.tags ++ (item.tag?.toList.map Prod.snd).filter (· ≠ .comment) := by
  cases item with
  | text raw kept =>
    obtain rfl := Except.ok.inj h
    by_cases hk : kept = [] <;> simp [hk, Item.tag?, tags, skip, add, Part.tagsPart]
  | tag start raw tag alone? =>
    cases tag with
    | closing name =>
      simp only [step, leave] at h
      split at h
      · simp at h
      · rename_i b blocks hb
        split at h
        · rename_i hn
          obtain rfl := Except.ok.inj h
          simp [Item.tag?, tags, outerTags, hb, hn, Part.tagsPart]
        · simp at h
    | _ =>
      obtain rfl := Except.ok.inj h
      simp [Item.tag?, tags, outerTags, skip, add, enter, Part.tagsPart]

/-- A whole run of nesting opens and closes sections as its tags do. -/
theorem foldlM_step_opened (n : Nesting) (items : List Item) :
    opened <$> items.foldlM step n =
      (items.filterMap Item.tag?).foldlM Tag.openedAfter n.opened := by
  induction items generalizing n with
  | nil => rfl
  | cons item items ih =>
    have hstep := step_opened n item
    rw [List.foldlM_cons, map_bind]
    cases hs : n.step item with
    | error e =>
      rw [hs] at hstep
      cases ht : item.tag? with
      | none => simp [ht] at hstep
      | some t =>
        have he : Tag.openedAfter n.opened t = .error e := by simpa [ht] using hstep.symm
        rw [List.filterMap_cons_some ht, List.foldlM_cons, he]
        rfl
    | ok m =>
      rw [hs] at hstep
      rw [ok_bind, ih m]
      cases ht : item.tag? with
      | none =>
        have hm : m.opened = n.opened := by simpa [ht] using hstep
        rw [List.filterMap_cons_none ht, hm]
      | some t =>
        have hm : Tag.openedAfter n.opened t = .ok m.opened := by simpa [ht] using hstep.symm
        rw [List.filterMap_cons_some ht, List.foldlM_cons, hm, ok_bind]

lemma foldlM_step_tags {n m : Nesting} {items : List Item} (h : items.foldlM step n = .ok m) :
    m.tags = n.tags ++ ((items.filterMap Item.tag?).map Prod.snd).filter (· ≠ .comment) := by
  induction items generalizing n with
  | nil =>
    obtain rfl := Except.ok.inj h
    simp
  | cons item items ih =>
    rw [List.foldlM_cons] at h
    obtain ⟨n', hs, hrest⟩ := bind_eq_ok_iff.mp h
    rw [ih hrest, step_tags hs]
    cases ht : item.tag? with
    | none => simp [List.filterMap_cons_none ht]
    | some t => simp [List.filterMap_cons_some ht, ← List.filter_append]

end Nesting

/-- What is wrong with tokens, if anything is: a tag that cannot be read; then the first tag that
closes no section; then the innermost section that is left open. -/
def Tokens.error? (ts : Tokens) : Option SyntaxError :=
  match ts.fault? with
  | some (p, fault) => some (.malformedTag p fault)
  | none =>
    match ts.tags.foldlM Tag.openedAfter [] with
    | .error e => some e
    | .ok [] => none
    | .ok ((p, name) :: _) => some (.unclosedSection name p)

namespace Tokens

/-- What is wrong with tokens that can all be read is what is wrong with their nesting. -/
theorem error?_eq_some_iff {ts : Tokens} {e : SyntaxError} :
    ts.error? = some e ↔ (∃ p fault, ts.fault? = some (p, fault) ∧ e = .malformedTag p fault) ∨
      ts.fault? = none ∧ (ts.tags.foldlM Tag.openedAfter [] = .error e ∨
        ∃ p name outer, LeavesOpen ts.tags ((p, name) :: outer) ∧ e = .unclosedSection name p) := by
  simp only [← foldlM_openedAfter_eq_ok_iff]
  cases hf : ts.fault? with
  | some fault =>
    obtain ⟨p, fault⟩ := fault
    simp [error?, hf, @eq_comm _ e]
  | none =>
    rcases hr : ts.tags.foldlM Tag.openedAfter [] with e' | _ | ⟨⟨p, name⟩, outer⟩ <;>
      simp [error?, hf, hr, @eq_comm _ e]

lemma error?_eq_none_iff {ts : Tokens} :
    ts.error? = none ↔ ts.fault? = none ∧ Balanced ts.tags := by
  rw [← leavesOpen_nil_iff, ← foldlM_openedAfter_eq_ok_iff]
  cases hf : ts.fault? with
  | some fault => simp [error?, hf]
  | none =>
    rcases hr : ts.tags.foldlM Tag.openedAfter [] with e' | _ | ⟨⟨p, name⟩, outer⟩ <;>
      simp [error?, hf, hr]

end Tokens

namespace Part

/-- Tokens that can all be read nest as their tags tell. -/
theorem ofSource_eq_bind {d : Delimiters} {source : Text}
    (h : (Tokens.ofText d source).fault? = none) :
    ofSource d source =
      (Layout.ofTokens source (Tokens.ofText d source).tokens).foldlM Nesting.step
        (Nesting.start d) >>= Nesting.finish := by
  unfold ofSource
  split
  · rename_i ht
    rw [ht, Nesting.ofItems]
  · simp_all

lemma ofTokens_filterMap_tag? (source : Text) (ts : Tokens) :
    (Layout.ofTokens source ts.tokens).filterMap Item.tag? = ts.tags :=
  Layout.place_filterMap_tag? _ _ _ _

/-- What is reported of a source is what is wrong with its tokens. -/
theorem ofSource_eq_error_iff {d : Delimiters} {source : Text} {e : SyntaxError} :
    ofSource d source = .error e ↔ (Tokens.ofText d source).error? = some e := by
  cases hf : (Tokens.ofText d source).fault? with
  | some fault =>
    obtain ⟨p, fault⟩ := fault
    unfold ofSource
    split <;> simp_all [Tokens.error?]
  | none =>
    have hopened := Nesting.foldlM_step_opened (Nesting.start d)
      (Layout.ofTokens source (Tokens.ofText d source).tokens)
    rw [ofTokens_filterMap_tag?, show (Nesting.start d).opened = [] from rfl] at hopened
    rw [ofSource_eq_bind hf, Tokens.error?, hf, ← hopened]
    cases (Layout.ofTokens source (Tokens.ofText d source).tokens).foldlM Nesting.step
        (Nesting.start d) with
    | error e' => simp
    | ok n => cases hb : n.blocks <;> simp [Nesting.finish, Nesting.opened, hb]

lemma exists_ofSource_eq_ok_iff {d : Delimiters} {source : Text} :
    (∃ parts, ofSource d source = .ok parts) ↔ (Tokens.ofText d source).error? = none := by
  rw [Option.eq_none_iff_forall_ne_some]
  simp only [ne_eq, ← ofSource_eq_error_iff]
  cases ofSource d source <;> simp

/-- No tag of a source is lost or moved. -/
theorem tags_ofSource {d : Delimiters} {source : Text} {parts : List Part}
    (h : ofSource d source = .ok parts) :
    tags parts = ((Tokens.ofText d source).tags.map Prod.snd).filter (· ≠ .comment) := by
  have hf : (Tokens.ofText d source).fault? = none := by
    unfold ofSource at h
    split at h
    · simp_all
    · simp at h
  rw [ofSource_eq_bind hf] at h
  obtain ⟨n, hn, hfinish⟩ := bind_eq_ok_iff.mp h
  have htags := Nesting.foldlM_step_tags hn
  rw [ofTokens_filterMap_tag?] at htags
  unfold Nesting.finish at hfinish
  split at hfinish
  · rename_i hb
    obtain rfl := Except.ok.inj hfinish
    simpa [Nesting.tags, Nesting.outerTags, Nesting.start, hb] using htags
  · simp at hfinish

/-- A source is compiled or refused by its tokens alone. A tag that cannot be read comes first, then
the first closing tag for which no section is open or the innermost one has another name, then the
innermost section that is left open. Otherwise the tags are balanced, and the parts are made of
them, one after the other, without the comments. -/
theorem ofSource_eq_iff_balanced (d : Delimiters) (source : Text) :
    let tokens := Tokens.ofText d source
    (∀ p fault, ofSource d source = .error (.malformedTag p fault) ↔
        tokens.fault? = some (p, fault)) ∧
      (∀ name p, ofSource d source = .error (.unbalancedSection name p) ↔
        tokens.fault? = none ∧ ∃ before after opened,
          tokens.tags = before ++ (p, .closing name) :: after ∧ LeavesOpen before opened ∧
            opened.head?.map Prod.snd ≠ some name) ∧
      (∀ name p, ofSource d source = .error (.unclosedSection name p) ↔
        tokens.fault? = none ∧ ∃ outer, LeavesOpen tokens.tags ((p, name) :: outer)) ∧
      ((∃ parts, ofSource d source = .ok parts) ↔
        tokens.fault? = none ∧ Balanced tokens.tags) ∧
      ∀ parts, ofSource d source = .ok parts →
        tags parts = (tokens.tags.map Prod.snd).filter (· ≠ .comment) := by
  intro tokens
  refine ⟨fun p fault => ?_, fun name p => ?_, fun name p => ?_, ?_, fun parts => tags_ofSource⟩
  · rw [ofSource_eq_error_iff, Tokens.error?_eq_some_iff, foldlM_openedAfter_eq_error_iff]
    simp [tokens, eq_comm]
  · rw [ofSource_eq_error_iff, Tokens.error?_eq_some_iff, foldlM_openedAfter_eq_error_iff]
    simp [tokens, eq_comm]
  · rw [ofSource_eq_error_iff, Tokens.error?_eq_some_iff, foldlM_openedAfter_eq_error_iff]
    simp [tokens, eq_comm]
  · rw [exists_ofSource_eq_ok_iff, Tokens.error?_eq_none_iff]

/-- A section over a comment and a value. -/
theorem ofSource_eq_iff_balanced_section :
    let source : Text := ['{', '{', '#', 'a', '}', '}', '{', '{', '!', '}', '}', '{', '{', 'x', '}',
      '}', '{', '{', '/', 'a', '}', '}']
    (Tokens.ofText .braces source).fault? = none ∧ Balanced (Tokens.ofText .braces source).tags ∧
      ((Tokens.ofText .braces source).tags.map Prod.snd).filter (· ≠ .comment) =
        [.opening false ['a'], .value ['x'] true, .closing ['a']] := by
  intro source
  let body : Text := (source.drop 6).take 10
  have h : ofSource .braces source =
      .ok [.block false ['a'] body .braces [.value ['x'] true]] := by
    decide +kernel
  obtain ⟨-, -, -, hiff, htags⟩ := ofSource_eq_iff_balanced .braces source
  obtain ⟨hfault, hbalanced⟩ := hiff.mp ⟨_, h⟩
  exact ⟨hfault, hbalanced, (htags _ h).symm⟩

end Part
end Mustache
