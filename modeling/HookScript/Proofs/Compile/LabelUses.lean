/-
Uses of labels.

A statement uses a label where a builtin instruction takes one, if the name there does not stand for
something else: a name of the registry, an argument of the hook or a variable.  Which names are used
where can be told from the statements alone.  The compiler enters a name in a list when it is used
before anything else is known about it.  Names on that list may have been declared since, but those
that never are stand there in the order of their first uses.

* `Registry.Uses` — a statement uses a label in one of its arguments;
* `Registry.FirstUse` — the first use of a label among the labels of some kind;
* `Drafting.forwardUses_of_emit` — what an operation adds to the list;
* `Draft.Recalls` — what the list says of the statements so far, which every statement preserves
  (`Draft.Recalls.step`);
* `Draft.recalls_of_compileAll` — hence it is true of all drafts.
-/
import HookScript.Proofs.Compile.Closing
import HookScript.Proofs.Compile.Lockstep
import HookScript.Proofs.Compile.References
import HookScript.Proofs.Control.Validity

namespace HookScript

/-! ### Uses -/

namespace Registry

/-- Behind the statements `done` the name stands for something else than a label. -/
inductive Taken (r : Registry) (arguments : List HookArgument)
    (done : List (Except SyntaxError Statement)) (name : String) : Prop where
  | standing {m : Meaning} (found : r.globals.find? name = some m) : Taken r arguments done name
  | argument {a : HookArgument} (mem : a ∈ arguments) (named : a.name = name) :
      Taken r arguments done name
  | declared {s : Statement} (mem : .ok s ∈ done) (declares : r.Declares s name) :
      Taken r arguments done name

/-- Statement `i`, which is `s`, uses the label `name` in its argument `j`. -/
structure Uses (r : Registry) (arguments : List HookArgument)
    (statements : List (Except SyntaxError Statement)) (i j : Nat) (s : Statement)
    (name : String) : Prop where
  statement : statements[i]? = some (.ok s)
  place : s.LabelPlace j
  token : ∃ t, s.arguments[j]? = some t ∧ t.kind = .symbol ∧ t.text = name
  free : ¬ r.Taken arguments (statements.take i) name

/-- Of all uses of labels for which `P` holds, that in argument `j` of statement `i` comes first. -/
structure FirstUse (r : Registry) (arguments : List HookArgument)
    (statements : List (Except SyntaxError Statement)) (P : String → Prop) (i j : Nat)
    (s : Statement) (name : String) : Prop where
  uses : r.Uses arguments statements i j s name
  among : P name
  first : ∀ i' j' s' name', r.Uses arguments statements i' j' s' name' → P name' →
    i < i' ∨ i = i' ∧ j ≤ j'

variable {r : Registry} {arguments : List HookArgument}
  {done : List (Except SyntaxError Statement)} {P : String → Prop} {i j i' j' : Nat}
  {s s' : Statement} {name name' : String}

theorem Uses.concat (h : r.Uses arguments done i j s' name) (s : Statement) :
    r.Uses arguments (done ++ [.ok s]) i j s' name := by
  obtain ⟨hi, htake⟩ := Draft.getElem?_concat h.statement s
  exact ⟨hi, h.place, h.token, htake ▸ h.free⟩

/-- A use is in one of the statements so far, or in the next one. -/
theorem Uses.of_concat (h : r.Uses arguments (done ++ [.ok s]) i j s' name) :
    r.Uses arguments done i j s' name ∨
      i = done.length ∧ s' = s ∧ ¬ r.Taken arguments done name := by
  have hfree := h.free
  rcases Draft.getElem?_concat_eq_some h.statement with ⟨hi, htake⟩ | ⟨hi, hs, htake⟩
  · rw [htake] at hfree
    exact .inl ⟨hi, h.place, h.token, hfree⟩
  · rw [htake] at hfree
    exact .inr ⟨hi, hs, hfree⟩

theorem Uses.lt_length (h : r.Uses arguments done i j s name) : i < done.length :=
  (List.getElem?_eq_some_iff.mp h.statement).1

/-- What comes first goes on doing so. -/
theorem FirstUse.concat (h : r.FirstUse arguments done P i j s' name) (s : Statement) :
    r.FirstUse arguments (done ++ [.ok s]) P i j s' name := by
  refine ⟨h.uses.concat s, h.among, fun i' j' s'' name' huses hname' => ?_⟩
  rcases huses.of_concat with hold | ⟨rfl, -, -⟩
  · exact h.first i' j' s'' name' hold hname'
  · exact .inl h.uses.lt_length

/-- Only one use comes first. -/
theorem FirstUse.unique (h : r.FirstUse arguments done P i j s name)
    (h' : r.FirstUse arguments done P i' j' s' name') : i = i' ∧ s = s' ∧ name = name' := by
  obtain ⟨rfl, rfl⟩ : i = i' ∧ j = j' := by
    have := h.first _ _ _ _ h'.uses h'.among
    have := h'.first _ _ _ _ h.uses h.among
    omega
  have hs := h.uses.statement
  rw [h'.uses.statement] at hs
  cases hs
  obtain ⟨t, ht, -, rfl⟩ := h.uses.token
  obtain ⟨t', ht', -, rfl⟩ := h'.uses.token
  rw [ht] at ht'
  cases ht'
  exact ⟨rfl, rfl, rfl⟩

end Registry

/-! ### Names that wait for a declaration -/

/-- An element of two lists in a row is in the first one, or behind all of it. -/
theorem of_append_eq_append_cons {α : Type} {xs ys front back : List α} {a : α}
    (h : xs ++ ys = front ++ a :: back) :
    (∃ rest, xs = front ++ a :: rest) ∨ ∃ more, front = xs ++ more ∧ ys = more ++ a :: back := by
  rcases List.append_eq_append_iff.mp h with hnew | ⟨rest, rfl, hrest⟩
  · exact .inr hnew
  · rcases List.cons_eq_append_iff.mp hrest with ⟨rfl, rfl⟩ | ⟨rest, rfl, -⟩
    · exact .inr ⟨[], by simp⟩
    · exact .inl ⟨rest, rfl⟩

/-- The name of an argument that stands for nothing yet. -/
def Argument.unknownName? : Argument → Option String
  | unknown name => some name
  | _ => none

theorem Argument.unknownName?_eq_some {a : Argument} {name : String} :
    a.unknownName? = some name ↔ a = unknown name := by
  cases a <;> simp [unknownName?]

/-- The first of several unknown names is that of an argument, and those of earlier arguments are in
front of it. -/
theorem Argument.exists_unknown {arguments : List Argument} {front back : List String}
    {name : String} (h : arguments.filterMap unknownName? = front ++ name :: back) :
    ∃ j : Nat, arguments[j]? = some (unknown name) ∧ ∀ (j' : Nat) (name' : String),
      arguments[j']? = some (unknown name') → j' < j → name' ∈ front := by
  obtain ⟨before, after, rfl, rfl, hafter⟩ := List.filterMap_eq_append_iff.mp h
  obtain ⟨known, a, rest, rfl, hknown, ha, -⟩ := List.filterMap_eq_cons_iff.mp hafter
  obtain rfl := unknownName?_eq_some.mp ha
  refine ⟨before.length + known.length, by simp [← List.append_assoc], fun j' name' hj' hlt => ?_⟩
  rw [List.getElem?_append] at hj'
  split at hj'
  · exact List.mem_filterMap.mpr ⟨_, List.mem_of_getElem? hj', rfl⟩
  · rw [List.getElem?_append_left (by omega)] at hj'
    cases hknown _ (List.mem_of_getElem? hj')

/-- The labels that were used before their declaration, each with the statement that is blamed if
it is never declared. -/
def Draft.forwardUses (d : Draft) : List (String × Span) :=
  d.forward.toList.map fun f => (f.name, f.span)

namespace Drafting

variable {r : Registry} {s : Statement} {d d' : Draft}

theorem exists_of_bind_ok {α β : Type} {x : Drafting α} {f : α → Drafting β} {b : β}
    (h : (x >>= f) d = .ok b d') : ∃ a d₁, x d = .ok a d₁ ∧ f a d₁ = .ok b d' := by
  cases hx : x d with
  | ok a d₁ =>
    rw [bind_of_ok hx] at h
    exact ⟨a, d₁, rfl, h⟩
  | error kind d₁ =>
    rw [bind_of_error hx] at h
    cases h

/-- Unknown names are entered one by one, in the order of the arguments. -/
theorem forwardUses_of_bindForward {arguments bound : List Argument}
    (h : bindForward arguments d = .ok bound d') :
    d'.forwardUses = d.forwardUses ++
      (arguments.filterMap Argument.unknownName?).map fun name => (name, d.span) := by
  induction arguments generalizing d bound with
  | nil =>
    cases h
    simp
  | cons a arguments ih =>
    cases a with
    | unknown name =>
      rw [bindForward] at h
      obtain ⟨label, d₁, hlabel, htail⟩ := exists_of_bind_ok h
      obtain ⟨bound', d₂, hrest, hpure⟩ := exists_of_bind_ok htail
      cases hpure
      obtain ⟨hnone, hroom, -⟩ := of_forwardLabel hlabel
      rw [forwardLabel_eq hroom hnone] at hlabel
      cases hlabel
      rw [ih hrest]
      simp [Draft.forwardUses, Argument.unknownName?]
    | constant _ | register _ _ _ | label _ | typeName _ =>
      rw [bindForward] at h
      · obtain ⟨bound', d₂, hrest, hpure⟩ := exists_of_bind_ok h
        cases hpure
        rw [ih hrest, List.filterMap_cons_none rfl]
      · simp

/-- Neither code nor names have an effect on the list, or on which statement is being compiled. -/
theorem lockstep_listed (forward : Array ForwardLabel) (span : Span) :
    Lockstep (fun d d' => d' = d ∧ d.forward = forward ∧ d.span = span) Eq id fun _ => True where
  buffer h := by rw [h.1]
  natives h := by rw [h.1]
  find h _ _ := by rw [h.1, id]
  setBuffer h buffer := ⟨by rw [h.1], h.2⟩
  setNatives h natives := ⟨by rw [h.1], h.2⟩
  touch h index := ⟨by rw [h.1], h.2⟩
  insert h _ _ meaning := ⟨by rw [h.1, id], h.2⟩
  refl _ := rfl
  redefined _ := rfl

/-- What two steps end with is related if they are the same step from the same draft. -/
theorem listed_of_together {α : Type} {x : Drafting α} {R : α → α → Prop} {a : α}
    {forward : Array ForwardLabel} {span : Span}
    (h : Together (fun d d' => d' = d ∧ d.forward = forward ∧ d.span = span) Eq R x d x d)
    (hx : x d = .ok a d') : d'.forward = forward ∧ d'.span = span := by
  rw [Together, hx] at h
  exact h.1.2

theorem listed_of_statementLabel {d₁ : Draft} (h : statementLabel r s d = .ok () d₁) :
    d₁.forward = d.forward ∧ d₁.span = d.span := by
  refine listed_of_together ((lockstep_listed _ _).statementLabel ⟨rfl, rfl, rfl⟩ ?_
    fun label _ => ⟨trivial, rfl⟩) h
  rfl

/-- An operation enters the unknown names among its arguments. -/
theorem forwardUses_of_emit {op : Operation} {arguments : List Argument} {u : Unit}
    (h : emit r op arguments d = .ok u d') :
    d'.forwardUses = d.forwardUses ++
      (arguments.filterMap Argument.unknownName?).map fun name => (name, d.span) := by
  rw [emit_eq] at h
  obtain ⟨o, d₁, hselect, hrest⟩ := exists_of_bind_ok h
  obtain ⟨-, rfl⟩ := ofExcept_eq_ok.mp hselect
  obtain ⟨bound, d₂, hbind, hemit⟩ := exists_of_bind_ok hrest
  have hforward := (listed_of_together ((lockstep_listed d₂.forward d₂.span).emitBound
    ⟨rfl, rfl, rfl⟩ r o bound) hemit).1
  rw [← forwardUses_of_bindForward hbind, Draft.forwardUses, Draft.forwardUses, hforward]

end Drafting

/-! ### Single statements -/

namespace Drafting

variable {r : Registry} {lines : List Line} {s : Statement} {d d' : Draft}

/-- Behind its label, a statement knows the names that it knew before, and that of the label. -/
theorem names_of_statementLabel (hr : r.Sound) (h : d.Ready r lines) {d₁ : Draft}
    (hx : statementLabel r s { d with span := s.span } = .ok () d₁) :
    (∀ name m, d.locals.find? name = some m → d₁.locals.find? name = some m) ∧
      (∀ name m, d₁.locals.find? name = some m →
        d.locals.find? name = some m ∨ s.HasLabel name) ∧
      ∀ name, (∀ m, d.lookup r name = some m → ∃ id, m = .label id) →
        ∀ m, d₁.lookup r name = some m → ∃ id, m = .label id := by
  obtain ⟨-, -, hsame, hdeclares⟩ :=
    (statementLabel_ensures hr (ready_withSpan h s.span) s).of_ok hx
  cases hs : s.label with
  | none =>
    rw [hsame hs]
    exact ⟨fun _ _ => id, fun _ _ => .inl, fun _ => id⟩
  | some label =>
    have hlabel := hdeclares label hs
    refine ⟨hlabel.locals, fun name m hm => ?_, fun name => hlabel.lookup_label⟩
    exact (hlabel.added name m hm).imp id fun heq => ⟨label, hs, heq.symm⟩

/-- A name among the arguments of an operation, if it stands for a label or for nothing, stands for
a label behind the operation; and it did so before unless it was unknown. -/
theorem label_of_emits (hr : r.Sound) {op : Operation} {words : List Argument} {l : Line}
    (hwords : d.resolveAll r s.arguments = .ok words)
    (hl : Draft.Emits r op words lines d.pending l d d') {j : Nat} {t : Token}
    (ht : s.arguments[j]? = some t) (hkind : t.kind = .symbol)
    (hlabel : ∀ m, d.lookup r t.text = some m → ∃ id, m = .label id) :
    (∃ id, d'.locals.find? t.text = some (.label id)) ∧
      (words[j]? = some (.unknown t.text) ∨ ∃ id, d.locals.find? t.text = some (.label id)) := by
  obtain ⟨a, ha, hres⟩ := exists_left_of_forall₂ (forall₂_of_resolveAll hwords).flip ht
  rcases Draft.isLabel_of_resolve hkind hlabel hres with rfl | ⟨id, rfl, hid⟩
  · obtain ⟨id, hid, -⟩ := hl.named j t.text ha
    exact ⟨⟨id, hid⟩, .inl ha⟩
  · have hlocal := Draft.locals_of_lookup_label hr hid
    obtain ⟨more, names⟩ := hl.frame.names
    exact ⟨⟨id, names.locals _ _ hlocal⟩, .inr ⟨id, hlocal⟩⟩

/-- Only calls have places for labels. -/
theorem exists_call_of_labelPlace (hr : r.Built) {j : Nat} (h : s.LabelPlace j) :
    ∃ op, r.operation? s.name.text = some op ∧ op.form = .call := by
  obtain ⟨b, hname, -⟩ := h
  rw [← hname]
  exact hr.exists_call b

/-- Other statements use no labels, but they may declare a variable. -/
theorem of_performance (hr : r.Built) (own : r.Reads s) (h : d.Ready r lines)
    (hx : performance r s d = .ok () d')
    (hcall : ∀ op, r.operation? s.name.text = some op → op.form ≠ .call) :
    d'.forward = d.forward ∧
      ∀ name, r.Declares s name → (d'.locals.find? name).isSome = true := by
  have undeclared : r.formOf s ≠ .declaration →
      ∀ name, r.Declares s name → (d'.locals.find? name).isSome = true := by
    rintro hne name ⟨op, hop, hform, -⟩
    rw [Registry.formOf_of_operation hop] at hne
    exact absurd hform hne
  cases hform : r.formOf s with
  | call =>
    cases hop : r.operation? s.name.text with
    | some op =>
      rw [Registry.formOf_of_operation hop] at hform
      exact absurd hform (hcall op hop)
    | none =>
      obtain ⟨op, object, arguments, l, hm, -, hl⟩ := emits_of_member hr h hop hx
      obtain ⟨o, -, hsel, -⟩ := hl.chosen
      exact ⟨hl.known (not_unknown_of_member hr.sound hm hsel), undeclared (by simp [hform])⟩
  | ifBlock =>
    rw [performance_of_ifBlock hform] at hx
    obtain ⟨_, _, _, -, -, -, hret, -⟩ := (ifBlock_ensures hr h s).of_ok hx
    exact ⟨hret.forward, undeclared (by simp [hform])⟩
  | elseBranch =>
    rw [performance_of_elseBranch hform] at hx
    obtain ⟨_, _, _, -, -, -, -, -, hret, -⟩ := (elseBranch_ensures hr h s).of_ok hx
    exact ⟨hret.forward, undeclared (by simp [hform])⟩
  | endBlock =>
    rw [performance_of_endBlock hform] at hx
    obtain ⟨_, _, -, -, -, -, hret, -⟩ := (endBlock_ensures h s).of_ok hx
    exact ⟨hret.forward, undeclared (by simp [hform])⟩
  | declaration =>
    rw [performance_of_declaration hform] at hx
    obtain ⟨type, name, _, _, hdeclared, -, -, -, -, -, -, hret, -⟩ :=
      (declaration_ensures hr h s).of_ok hx
    refine ⟨hret.forward, ?_⟩
    rintro other ⟨-, -, -, hother⟩
    rw [Draft.declaredVariable?_eq hdeclared] at hother
    cases hother
    rw [hret.locals]
    simp [Draft.withVariable, SymbolTable.find?_insert]
  | custom form => exact absurd hform (own.formOf_ne form)

end Drafting

namespace Draft

variable {r : Registry} {arguments : List HookArgument} {source : String}
  {done : List (Except SyntaxError Statement)} {P : String → Prop} {s : Statement}
  {first d d₁ d' : Draft}

/-- What the draft `d` knows of the labels that the statements `done` use: their names stand for
labels, and the first name on the list for which `P` holds is that of the first such use, and comes
with the statement of that use.  The statements `done` may declare no label for which `P` holds. -/
structure Recalls (r : Registry) (arguments : List HookArgument) (P : String → Prop)
    (done : List (Except SyntaxError Statement)) (d : Draft) : Prop where
  known : ∀ i j s name, r.Uses arguments done i j s name →
    ∃ id, d.locals.find? name = some (.label id)
  declared : ∀ s name, .ok s ∈ done → r.Declares s name → (d.locals.find? name).isSome = true
  first : ∀ earlier name span later, d.forwardUses = earlier ++ (name, span) :: later →
    (∀ u ∈ earlier, ¬ P u.1) → P name →
    ∃ i j s, r.FirstUse arguments done P i j s name ∧ s.span = span

/-! ### Names -/

/-- A name that is not taken stands for a label or for nothing. -/
theorem Tracks.lookup_of_free (h : Tracks r source first done d)
    (hfirst : Draft.start r arguments = .ok first) {name : String}
    (hfree : ¬ r.Taken arguments done name) :
    ∀ m, d.lookup r name = some m → ∃ id, m = .label id := by
  intro m hm
  rcases lookup_eq_some hm with hlocal | hglobal
  · rcases h.origin name m hlocal with hfirst' | hlabel | ⟨s, hs, hdeclares⟩
    · obtain ⟨j, a, ha, hname, -⟩ := argument_of_start hfirst hfirst'
      exact absurd (.argument (List.mem_of_getElem? ha) hname) hfree
    · exact hlabel
    · exact absurd (.declared hs hdeclares) hfree
  · exact absurd (.standing hglobal) hfree

/-- A name that stands for nothing is not taken. -/
theorem Recalls.free_of_lookup (h : d.Recalls r arguments P done) (hr : r.Built) (own : r.OwnForms)
    (hfirst : Draft.start r arguments = .ok first) (hd : first.compileAll r source done = .ok d)
    {name : String} (hnone : d.lookup r name = none) : ¬ r.Taken arguments done name := by
  obtain ⟨hlocal, hglobal⟩ := lookup_eq_none hnone
  intro htaken
  cases htaken with
  | standing found => cases hglobal.symm.trans found
  | @argument a mem named =>
    obtain ⟨m, hm⟩ := Option.isSome_iff_exists.mp (isSome_of_start hfirst mem)
    have hkept := keeps_of_compileAll hr (start_ready hr.sound hfirst).1
      (fun s _ => own.reads s) hd hm
    rw [named, hlocal] at hkept
    cases hkept
  | declared mem declares =>
    have hsome := h.declared _ name mem declares
    rw [hlocal] at hsome
    cases hsome

/-- A label has a position if a statement has declared it. -/
theorem Tracks.isDefined_iff (h : Tracks r source first done d) {name : String} {id : LabelId}
    (hname : d.locals.find? name = some (.label id)) :
    d.buffer.isDefined id = true ↔ LabelAmong done name := by
  rw [CodeBuffer.isDefined_eq_true_iff]
  constructor
  · rintro ⟨place, hpos⟩
    obtain ⟨i, s, -, hi, hs, -⟩ := h.placed name id place hname hpos
    exact ⟨s, List.mem_of_getElem? hi, hs⟩
  · rintro ⟨s, hs, hl⟩
    obtain ⟨i, hi⟩ := List.mem_iff_getElem?.mp hs
    obtain ⟨id', _, -, hname', hpos⟩ := h.declared i s name hi hl
    cases hname.symm.trans hname'
    exact ⟨_, hpos⟩

/-- The name of a label that has not been declared is on the list. -/
theorem Tracks.listed (h : Tracks r source first done d) {name : String} {id : LabelId}
    (hname : d.locals.find? name = some (.label id)) (hdone : ¬ LabelAmong done name) :
    ∃ f ∈ d.forward, f.name = name := by
  refine h.awaited name id hname (Option.not_isSome_iff_eq_none.mp fun hpos => hdone ?_)
  exact (h.isDefined_iff hname).mp hpos

/-! ### Statements -/

namespace Recalls

theorem start (hfirst : Draft.start r arguments = .ok first) :
    first.Recalls r arguments P [] where
  known _ _ _ _ h := by cases h.statement
  declared _ _ hs := by cases hs
  first earlier name span later h := by
    rw [forwardUses, forward_of_start hfirst] at h
    simp at h

/-- One more statement, which enters the unknown names among the arguments `words`. -/
theorem extend (h : d.Recalls r arguments P done) (words : List Argument)
    (keeps : ∀ name m, d.locals.find? name = some m → d'.locals.find? name = some m)
    (listed : ∀ name id, d.locals.find? name = some (.label id) → P name →
      ∃ f ∈ d.forward, f.name = name)
    (declared : ∀ name, r.Declares s name → (d'.locals.find? name).isSome = true)
    (entered : d'.forwardUses = d.forwardUses ++
      (words.filterMap Argument.unknownName?).map fun name => (name, s.span))
    (uses : ∀ j name, r.Uses arguments (done ++ [.ok s]) done.length j s name →
      (∃ id, d'.locals.find? name = some (.label id)) ∧
        (P name → words[j]? = some (.unknown name) ∨ ∃ f ∈ d.forward, f.name = name))
    (unknown : ∀ (j : Nat) (name : String), words[j]? = some (.unknown name) →
      r.Uses arguments (done ++ [.ok s]) done.length j s name) :
    d'.Recalls r arguments P (done ++ [.ok s]) where
  known i j s' name huses := by
    rcases huses.of_concat with hold | ⟨rfl, rfl, -⟩
    · obtain ⟨id, hid⟩ := h.known i j s' name hold
      exact ⟨id, keeps name _ hid⟩
    · exact (uses j name huses).1
  declared s' name hs hdeclares := by
    rcases List.mem_append.mp hs with hs | hs
    · obtain ⟨m, hm⟩ := Option.isSome_iff_exists.mp (h.declared s' name hs hdeclares)
      rw [keeps name m hm]
      rfl
    · cases List.mem_singleton.mp hs
      exact declared name hdeclares
  first earlier name span later hlist hearlier hP := by
    -- the name has been on the list before, or it is one of the new ones
    rw [entered] at hlist
    rcases of_append_eq_append_cons hlist with ⟨_, hold⟩ | ⟨front, rfl, hnew⟩
    · obtain ⟨i, j, s', hfirst, hspan⟩ := h.first _ _ _ _ hold hearlier hP
      exact ⟨i, j, s', hfirst.concat s, hspan⟩
    · have hnone : ∀ name', P name' → ¬ ∃ f ∈ d.forward, f.name = name' := by
        rintro _ hP' ⟨f, hf, rfl⟩
        refine hearlier (f.name, f.span) (List.mem_append_left _ ?_) hP'
        exact List.mem_map.mpr ⟨f, hf.val, rfl⟩
      obtain ⟨names, names', hnames, rfl, hrest⟩ := List.map_eq_append_iff.mp hnew
      obtain ⟨_, back, rfl, heq, -⟩ := List.map_eq_cons_iff.mp hrest
      cases heq
      obtain ⟨j, hj, hbefore⟩ := Argument.exists_unknown hnames
      refine ⟨done.length, j, s, ⟨unknown j name hj, hP, fun i' j' s' name' huses hP' => ?_⟩, rfl⟩
      rcases huses.of_concat with hold | ⟨rfl, rfl, -⟩
      · obtain ⟨id, hid⟩ := h.known i' j' s' name' hold
        exact absurd (listed name' id hid hP') (hnone name' hP')
      · have hj' := ((uses j' name' huses).2 hP').resolve_right (hnone name' hP')
        refine .inr ⟨rfl, Nat.not_lt.mp fun hlt => ?_⟩
        refine hearlier (name', s'.span) (List.mem_append_right _ ?_) hP'
        exact List.mem_map.mpr ⟨name', hbefore j' name' hj' hlt, rfl⟩

/-- What a draft knows of uses after one more statement. -/
theorem step (h : d.Recalls r arguments P done) (hr : r.Built) (own : r.OwnForms)
    (hfirst : Draft.start r arguments = .ok first) (hd : first.compileAll r source done = .ok d)
    (ht : Tracks r source first done d) {lines : List Line} (hready : d.Ready r lines)
    (undeclared : ∀ name, LabelAmong (done ++ [.ok s]) name → ¬ P name)
    (hx : Drafting.statement r s d = .ok () d') : d'.Recalls r arguments P (done ++ [.ok s]) := by
  obtain ⟨-, -, -, -, htakes⟩ :=
    (Drafting.statement_ensures hr (own.reads s) hready).of_ok hx
  rw [labelAmong_append] at undeclared
  have listed : ∀ name id, d.locals.find? name = some (.label id) → P name →
      ∃ f ∈ d.forward, f.name = name := fun name _ hname hP =>
    ht.listed hname fun hdone => undeclared name (.inl hdone) hP
  -- first the label of the statement, then its operation
  rw [Drafting.statement_apply] at hx
  obtain ⟨_, d₁, hlabel, hperform⟩ := Drafting.exists_of_bind_ok hx
  have h₁ := ((Drafting.statementLabel_ensures hr.sound (Drafting.ready_withSpan hready s.span)
    s).of_ok hlabel).1
  obtain ⟨hforward, hspan⟩ := Drafting.listed_of_statementLabel hlabel
  obtain ⟨hlater, hearlier, hlookup⟩ := Drafting.names_of_statementLabel hr.sound hready hlabel
  by_cases hcall : ∃ op, r.operation? s.name.text = some op ∧ op.form = .call
  · obtain ⟨op, hop, hform⟩ := hcall
    rw [Drafting.performance_of_call hop hform] at hperform
    obtain ⟨words, l, hwords, hl⟩ := (Drafting.emitArguments_ensures hr.sound h₁ hop [] (by simp)
      s.arguments).of_ok hperform
    rw [hwords] at hperform
    have hemit : Drafting.emit r op words d₁ = .ok () d' := hperform
    refine h.extend words (fun _ _ => htakes.keeps) listed ?_ ?_ ?_ ?_
    · rintro name ⟨op', hop', hform', -⟩
      cases hop.symm.trans hop'
      cases hform.symm.trans hform'
    · rw [Drafting.forwardUses_of_emit hemit, forwardUses, hforward, hspan]
      rfl
    · intro j name huses
      obtain ⟨t, ht', hkind, rfl⟩ := huses.token
      have hfree := huses.free
      rw [List.take_left] at hfree
      obtain ⟨hknown, hbefore⟩ := Drafting.label_of_emits hr.sound hwords hl ht' hkind
        (hlookup _ (ht.lookup_of_free hfirst hfree))
      refine ⟨hknown, fun hP => hbefore.imp id fun ⟨id, hlocal⟩ => ?_⟩
      rcases hearlier _ _ hlocal with hold | hown
      · exact listed _ id hold hP
      · exact absurd hP (undeclared _ (.inr hown))
    · intro j name hj
      obtain ⟨o, -, hsel, -⟩ := hl.chosen
      obtain ⟨hplace, htoken, hnone⟩ := Drafting.place_of_unknown hr.sound hop hwords hsel hj
      refine ⟨by simp, hplace, htoken, ?_⟩
      rw [List.take_left]
      exact h.free_of_lookup hr own hfirst hd (lookup_eq_none_of_keeps (hlater name) hnone)
  · have hother : ∀ op, r.operation? s.name.text = some op → op.form ≠ .call :=
      fun op hop hform => hcall ⟨op, hop, hform⟩
    obtain ⟨hquiet, hvariable⟩ := Drafting.of_performance hr (own.reads s) h₁ hperform hother
    refine h.extend [] (fun _ _ => htakes.keeps) listed hvariable ?_ ?_ (by simp)
    · rw [forwardUses, hquiet, hforward]
      simp [forwardUses]
    · exact fun j name huses => absurd (Drafting.exists_call_of_labelPlace hr huses.place) hcall

end Recalls

/-- Every draft knows which labels the statements use that led to it. -/
theorem recalls_of_compileAll (hr : r.Built) (own : r.OwnForms)
    (hfirst : start r arguments = .ok first) (hd : first.compileAll r source done = .ok d)
    (undeclared : ∀ name, LabelAmong done name → ¬ P name) : d.Recalls r arguments P done := by
  induction done using List.reverseRecOn generalizing d with
  | nil =>
    cases hd
    exact .start hfirst
  | append_singleton done next ih =>
    obtain ⟨s, d₀, rfl, hd₀, hx⟩ := exists_of_compileAll_snoc hd
    obtain ⟨ht, lines, hready⟩ := tracks_of_compileAll hr hfirst (fun s _ => own.reads s) hd₀
    refine (ih hd₀ fun name hname => undeclared name ?_).step hr own hfirst hd₀ ht hready
      undeclared hx
    rw [labelAmong_append]
    exact .inl hname

/-! ### Labels that are never declared -/

section

variable {statements : List (Except SyntaxError Statement)} (hr : r.Built) (own : r.OwnForms)
  (hfirst : start r arguments = .ok first) (hd : first.compileAll r source statements = .ok d)
include hr own hfirst hd

/-- The label that is reported at the end is the first one that is used and never declared, and the
statement that is blamed for it is that of its first use. -/
theorem firstUse_of_undeclared {f : ForwardLabel} (hf : d.undeclared? = some f) :
    ∃ i j s, r.FirstUse arguments statements (fun name => ¬ LabelAmong statements name) i j s
      f.name ∧ s.span = f.span := by
  have ht := (tracks_of_compileAll hr hfirst (fun s _ => own.reads s) hd).1
  obtain ⟨earlier, later, hlist, hearlier, hmissing⟩ := undeclared?_eq_some_iff.mp hf
  have declared : ∀ g ∈ d.forward.toList, d.buffer.isDefined g.label = true ↔
      LabelAmong statements g.name := fun g hg =>
    ht.isDefined_iff (ht.waits g (Array.mem_toList_iff.mp hg))
  have hrecalls := recalls_of_compileAll hr own hfirst hd
    (P := fun name => ¬ LabelAmong statements name) fun _ => not_not_intro
  refine hrecalls.first (earlier.map fun g => (g.name, g.span)) f.name f.span
    (later.map fun g => (g.name, g.span)) (by rw [forwardUses, hlist]; simp) ?_ ?_
  · intro u hu
    obtain ⟨g, hg, rfl⟩ := List.mem_map.mp hu
    exact not_not_intro ((declared g (by simp [hlist, hg])).mp (hearlier g hg))
  · intro hlabel
    rw [(declared f (by simp [hlist])).mpr hlabel] at hmissing
    cases hmissing

/-- If a label is used and never declared, some label is reported. -/
theorem exists_undeclared {i j : Nat} {s : Statement} {name : String}
    (huses : r.Uses arguments statements i j s name) (hname : ¬ LabelAmong statements name) :
    ∃ f, d.undeclared? = some f := by
  have ht := (tracks_of_compileAll hr hfirst (fun s _ => own.reads s) hd).1
  have hrecalls := recalls_of_compileAll hr own hfirst hd
    (P := fun name => ¬ LabelAmong statements name) fun _ => not_not_intro
  obtain ⟨id, hid⟩ := hrecalls.known i j s name huses
  obtain ⟨f, hf, rfl⟩ := ht.listed hid hname
  refine Option.isSome_iff_exists.mp (Array.find?_isSome.mpr ⟨f, hf, ?_⟩)
  rw [Bool.not_eq_true', ← Bool.not_eq_true, ht.isDefined_iff (ht.waits f hf)]
  exact hname

end

end Draft

end HookScript
