/-
Labels that are used before their declaration.

Where an operation takes a label, a name that stands for nothing yet will do as well, since the
statement with that label may follow.  So it does not matter on which side of its declaration a
label is used, with one exception: a statement that uses a label twice before its declaration is
rejected, because the name is known when its second turn comes.

* `Operation.select_iff_of_binds` — the choice of an overload does not depend on declarations;
* `Drafting.succeeds_emit_of_binds` — nor does whether an operation is emitted, but for that
  exception;
* `Draft.Clear` — what drafts know of the labels of a script whose labels stand for nothing else,
  which every change preserves;
* `forward_labels_accepted` — no such script is rejected because of its labels otherwise.
-/
import HookScript.Proofs.Compile.Conduct
import HookScript.Proofs.Compile.Labels

namespace HookScript

/-! ### The choice of an overload -/

theorem Argument.score_eq_of_binds {a b : Argument} (h : a.Binds b) (p : Parameter) :
    a.score p = b.score p := by
  cases h with
  | known => rfl
  | forward => cases p <;> rfl

theorem Overload.totalScore?_eq_of_binds {params : List Parameter} {arguments bound : List Argument}
    (h : List.Forall₂ Argument.Binds arguments bound) :
    totalScore? params arguments = totalScore? params bound := by
  induction h generalizing params with
  | nil => rfl
  | cons hb _ ih =>
    cases params with
    | nil => rfl
    | cons p params => rw [totalScore?, totalScore?, Argument.score_eq_of_binds hb, ih]

theorem Overload.best?_eq_of_binds {overloads : List Overload} {arguments bound : List Argument}
    (h : List.Forall₂ Argument.Binds arguments bound) :
    best? overloads arguments = best? overloads bound := by
  have hscore : ∀ o : Overload, o.score? arguments = o.score? bound := fun o =>
    totalScore?_eq_of_binds h
  have hconsider : consider arguments = consider bound := by
    funext best o
    simp only [consider, hscore]
  rw [best?, best?, hconsider]

/-- Whether a label is declared makes no difference to the choice of an overload. -/
theorem Operation.select_iff_of_binds {r : Registry} {op : Operation}
    {arguments bound : List Argument} (h : List.Forall₂ Argument.Binds arguments bound)
    (o : Overload) : op.select r arguments = .ok o ↔ op.select r bound = .ok o := by
  have hbest : Overload.best? op.overloads arguments = Overload.best? op.overloads bound :=
    Overload.best?_eq_of_binds h
  rw [select, select, hbest]
  cases Overload.best? op.overloads bound with
  | none =>
    constructor <;> intro h <;> simp only at h <;> split at h <;> cases h
  | some best =>
    constructor <;> intro h <;> simp only at h ⊢ <;> split at h
    · cases h
    · rename_i ht
      rwa [if_neg ht]
    · cases h
    · rename_i ht
      rwa [if_neg ht]

/-! ### Names among arguments -/

namespace Argument

/-- The argument is a name that stands for nothing yet. -/
def isUnknown : Argument → Bool
  | unknown _ => true
  | _ => false

/-- No name that stands for nothing yet is among the arguments twice. -/
def Apart (arguments : List Argument) : Prop :=
  arguments.Pairwise fun a b => ∀ name, a = unknown name → b ≠ unknown name

end Argument

namespace Drafting

variable {r : Registry} {d : Draft}

theorem newLabel_eq (room : d.buffer.labels.size < maxLabels) :
    newLabel d = .ok d.buffer.nextLabel { d with buffer := d.buffer.newLabel } := by
  have hroom : ¬ maxLabels ≤ d.buffer.labelCount := by
    rw [CodeBuffer.labelCount]
    omega
  show (if maxLabels ≤ d.buffer.labelCount then _ else _ : Drafting LabelId) d = _
  rw [if_neg hroom]
  rfl

theorem nameLabel_eq {name : String} (room : d.buffer.labels.size < maxLabels)
    (new : d.locals.find? name = none) :
    nameLabel name d = .ok d.buffer.nextLabel { d with
      buffer := d.buffer.newLabel
      locals := ⟨d.locals.entries.insert name (.label d.buffer.nextLabel)⟩ } := by
  rw [nameLabel, bind_of_ok (newLabel_eq room), get_bind]
  simp only [SymbolTable.insert, new]
  rfl

theorem forwardLabel_eq {name : String} (room : d.buffer.labels.size < maxLabels)
    (new : d.locals.find? name = none) :
    forwardLabel name d = .ok d.buffer.nextLabel { d with
      buffer := d.buffer.newLabel
      locals := ⟨d.locals.entries.insert name (.label d.buffer.nextLabel)⟩
      forward := d.forward.push ⟨d.buffer.nextLabel, name, d.span⟩ } := by
  rw [forwardLabel, bind_of_ok (nameLabel_eq room new)]
  rfl

theorem of_forwardLabel {name : String} {label : LabelId} {d₁ : Draft}
    (h : forwardLabel name d = .ok label d₁) :
    d.locals.find? name = none ∧ d.buffer.labels.size < maxLabels ∧
      d₁.buffer.labels.size = d.buffer.labels.size + 1 ∧
      d₁.locals.find? name = some (.label label) ∧
      ∀ other, other ≠ name → d₁.locals.find? other = d.locals.find? other := by
  obtain ⟨-, hroom, hnone, hlabel, -, hother⟩ :=
    (forwardLabel_leads (r := { config := {} }) (L := .emitting fun _ => True) trivial).of_ok h
  rw [forwardLabel_eq hroom hnone] at h
  cases h
  exact ⟨hnone, hroom, Array.size_push _, hlabel, hother⟩

/-- The step does not fail. -/
def Succeeds {α : Type} (x : Drafting α) (d : Draft) : Prop :=
  ∃ a d', x d = .ok a d'

theorem succeeds_bind {α β : Type} {x : Drafting α} {f : α → Drafting β} :
    Succeeds (x >>= f) d ↔ ∃ a d₁, x d = .ok a d₁ ∧ Succeeds (f a) d₁ := by
  constructor
  · rintro ⟨b, d', h⟩
    cases hx : x d with
    | ok a d₁ =>
      rw [bind_of_ok hx] at h
      exact ⟨a, d₁, rfl, b, d', h⟩
    | error kind d₁ =>
      rw [bind_of_error hx] at h
      cases h
  · rintro ⟨a, d₁, hx, b, d', h⟩
    exact ⟨b, d', by rw [bind_of_ok hx, h]⟩

theorem succeeds_bind_pure {α β : Type} {x : Drafting α} {g : α → β} :
    Succeeds (x >>= fun a => pure (g a)) d ↔ Succeeds x d := by
  rw [succeeds_bind]
  constructor
  · rintro ⟨a, d₁, hx, -⟩
    exact ⟨a, d₁, hx⟩
  · rintro ⟨a, d₁, hx⟩
    exact ⟨a, d₁, hx, g a, d₁, rfl⟩

/-- Names among the arguments become labels if they are apart and unknown, and if there is room for
their labels. -/
theorem succeeds_bindForward {arguments : List Argument}
    (hcount : d.buffer.labels.size ≤ maxLabels) :
    Succeeds (bindForward arguments) d ↔
      Argument.Apart arguments ∧
        (∀ name, .unknown name ∈ arguments → d.locals.find? name = none) ∧
        d.buffer.labels.size + arguments.countP Argument.isUnknown ≤ maxLabels := by
  induction arguments generalizing d with
  | nil => exact ⟨fun _ => ⟨.nil, by simp, hcount⟩, fun _ => ⟨[], d, rfl⟩⟩
  | cons a arguments ih =>
    cases a with
    | unknown name =>
      rw [bindForward, succeeds_bind, Argument.Apart, List.pairwise_cons, List.countP_cons]
      simp only [Argument.isUnknown, if_true]
      constructor
      · rintro ⟨label, d₁, hlabel, hrest⟩
        obtain ⟨hnone, hroom, hsize, hnew, hother⟩ := of_forwardLabel hlabel
        obtain ⟨hapart, hunknown, hfits⟩ := (ih (by omega)).mp (succeeds_bind_pure.mp hrest)
        -- the name stands for its label by now, so it is not among the other arguments
        have hne : .unknown name ∉ arguments := fun hm => by
          rw [hunknown name hm] at hnew
          cases hnew
        refine ⟨⟨fun b hb other heq => ?_, hapart⟩, fun other hm => ?_, by omega⟩
        · cases heq
          rintro rfl
          exact hne hb
        · rcases List.mem_cons.mp hm with heq | hrest
          · cases heq
            exact hnone
          · rw [← hother other (by rintro rfl; exact hne hrest)]
            exact hunknown other hrest
      · rintro ⟨⟨hne, hapart⟩, hunknown, hfits⟩
        have hlabel := forwardLabel_eq (d := d) (by omega) (hunknown name (by simp))
        obtain ⟨-, -, hsize, -, hother⟩ := of_forwardLabel hlabel
        refine ⟨_, _, hlabel, succeeds_bind_pure.mpr ?_⟩
        refine (ih (by omega)).mpr ⟨hapart, fun other hm => ?_, by omega⟩
        rw [hother other (by rintro rfl; exact hne _ hm other rfl rfl)]
        exact hunknown other (List.mem_cons_of_mem _ hm)
    | constant _ | register _ _ _ | label _ | typeName _ =>
      rw [bindForward, succeeds_bind_pure, ih hcount]
      · simp [Argument.Apart, Argument.isUnknown]
      · simp

/-- Where all names are known, none has to become a label. -/
theorem succeeds_bindForward_known {arguments : List Argument}
    (h : ∀ name, .unknown name ∉ arguments) : Succeeds (bindForward arguments) d := by
  induction arguments with
  | nil => exact ⟨[], d, rfl⟩
  | cons a arguments ih =>
    have hs := ih fun name hm => h name (List.mem_cons_of_mem _ hm)
    cases a with
    | unknown name => exact absurd List.mem_cons_self (h name)
    | constant _ | register _ _ _ | label _ | typeName _ => exact succeeds_bind_pure.mpr hs

/-- A builtin instruction is emitted once the names among its arguments have become labels. -/
theorem succeeds_emit_builtin {op : Operation} {arguments : List Argument} {b : Builtin}
    {doc : String} (hsel : op.select r arguments = .ok ⟨b.params, .builtin b.base, doc⟩) :
    Succeeds (emit r op arguments) d ↔ Succeeds (bindForward arguments) d := by
  obtain ⟨-, score, hfits, -⟩ := Operation.select_eq_ok hsel
  rw [emit, hsel]
  refine succeeds_bind.trans ⟨?_, ?_⟩
  · rintro ⟨o, d₀, ho, hrest⟩
    cases ho
    obtain ⟨bound, d₁, hbound, -⟩ := succeeds_bind.mp hrest
    exact ⟨bound, d₁, hbound⟩
  · rintro ⟨bound, d₁, hbound⟩
    refine ⟨_, d, rfl, succeeds_bind.mpr ⟨bound, d₁, hbound, ?_⟩⟩
    obtain ⟨-, hb, -⟩ :=
      (bindForward_leads (r := r) (L := .emitting fun _ => True) fun _ _ => trivial).of_ok hbound
    obtain ⟨chosen, hchosen⟩ :=
      Overload.Chosen.of_score (Overload.forall_of_totalScore? hfits) hb
    obtain ⟨chosen, d₂, hpayloads, rfl, -⟩ :=
      (payloads_leads (r := r) (L := .emitting fun _ => True) (d := d₁) hchosen).exists_ok
    refine succeeds_bind.mpr ⟨chosen, d₂, hpayloads, (), _, emitBuiltin_eq ⟨?_, ?_⟩ d₂⟩
    · exact b.versions_eq ▸ versionOf_lt hchosen.valid
    · rw [hchosen.payloads]
      exact hchosen.encodable

/-- Labels are taken for names that stand for nothing yet, if the names are apart and there is room
for their labels. -/
theorem succeeds_emit_of_binds (hr : r.Sound) (hd : d.Orderly r) {name : String} {op : Operation}
    (hop : r.operation? name = some op) {arguments bound : List Argument}
    (h : List.Forall₂ Argument.Binds arguments bound) :
    Succeeds (emit r op arguments) d ↔ Succeeds (emit r op bound) d ∧
      Argument.Apart arguments ∧
      (∀ name, .unknown name ∈ arguments → d.locals.find? name = none) ∧
      d.buffer.labels.size + arguments.countP Argument.isUnknown ≤ maxLabels := by
  by_cases hunknown : ∃ name, .unknown name ∈ arguments
  · -- there is a label, so only a builtin instruction can be meant
    have builtin : ∀ o, op.select r arguments = .ok o →
        ∃ (b : Builtin) (doc : String), o = ⟨b.params, .builtin b.base, doc⟩ := by
      intro o hsel
      obtain ⟨unknown, hm⟩ := hunknown
      obtain ⟨i, hi⟩ := List.mem_iff_getElem?.mp hm
      obtain ⟨b, doc, rfl, -⟩ := Operation.exists_builtin_of_label hr hop hsel hi trivial
      exact ⟨b, doc, rfl⟩
    constructor
    · intro hs
      have ⟨_, _, hemit⟩ := hs
      obtain ⟨o, hsel⟩ := exists_selected hemit
      obtain ⟨b, doc, rfl⟩ := builtin o hsel
      refine ⟨?_, (succeeds_bindForward hd.count).mp ((succeeds_emit_builtin hsel).mp hs)⟩
      have hbound := (Operation.select_iff_of_binds h _).mp hsel
      have hknown := succeeds_bindForward_known (d := d) (Argument.known_of_binds h)
      exact (succeeds_emit_builtin hbound).mpr hknown
    · rintro ⟨hs, hnames⟩
      have ⟨_, _, hemit⟩ := hs
      obtain ⟨o, hbound⟩ := exists_selected hemit
      have hsel := (Operation.select_iff_of_binds h o).mpr hbound
      obtain ⟨b, doc, rfl⟩ := builtin o hsel
      exact (succeeds_emit_builtin hsel).mpr ((succeeds_bindForward hd.count).mpr hnames)
  · have hknown : ∀ name, .unknown name ∉ arguments := not_exists.mp hunknown
    obtain rfl := Argument.eq_of_binds h hknown
    have hnames := (succeeds_bindForward hd.count).mp (succeeds_bindForward_known hknown)
    exact ⟨fun hs => ⟨hs, hnames⟩, And.left⟩

end Drafting

/-! ### Labels that stand for nothing else -/

/-- Only names of labels become labels, and they become nothing else; other labels may be placed
as one likes. -/
def Licence.labels (names : String → Prop) : Licence where
  names := names
  declares name := ¬ names name
  places d label := d.Unnamed label
  emits _ := True

theorem Licence.usual_labels (r : Registry) (names : String → Prop) (d : Draft) :
    (Licence.labels names).Usual r d :=
  ⟨fun _ _ h => h, fun _ _ => trivial⟩

namespace Draft

/-- What a draft knows of the labels of a script, whose names stand for nothing else: it has
positions for those which have been declared so far. -/
structure Clear (r : Registry) (names declared : String → Prop) (d : Draft) : Prop where
  orderly : d.Orderly r
  labels : ∀ name label, d.locals.find? name = some (.label label) → names name
  only : ∀ name m, names name → d.lookup r name = some m →
    ∃ label, d.locals.find? name = some (.label label)
  placed : ∀ name label place, d.locals.find? name = some (.label label) →
    d.buffer.position? label = some place → declared name
  declared : ∀ name, declared name → ∃ label place,
    d.locals.find? name = some (.label label) ∧ d.buffer.position? label = some place

variable {r : Registry} {names declared : String → Prop} {d d' : Draft}

theorem Change.clear {deed : Deed} (h : d.Change r deed d')
    (hp : (Licence.labels names).Permits d deed) (hd : d.Clear r names declared) :
    d'.Clear r names declared where
  orderly := h.orderly hd.orderly
  labels name label hn := by
    rcases h.find?_cases hn with hold | ⟨rfl, -, -⟩ | ⟨-, -, -, type, heq⟩
    · exact hd.labels name label hold
    · exact hp
    · cases heq
  only name m hname hm := by
    rcases lookup_eq_some hm with hn | hglobal
    · rcases h.find?_cases hn with hold | ⟨-, -, rfl⟩ | ⟨rfl, -⟩
      · obtain ⟨label, hl⟩ := hd.only name m hname (by rw [lookup, hold]; rfl)
        exact ⟨label, h.find?_eq hl⟩
      · exact ⟨_, hn⟩
      · exact absurd hname hp
    · -- a global name that is no name of the script would have been known before
      cases hfind : d.locals.find? name with
      | none =>
        obtain ⟨label, hl⟩ := hd.only name m hname (by rw [lookup, hfind]; exact hglobal)
        exact ⟨label, h.find?_eq hl⟩
      | some old =>
        obtain ⟨label, hl⟩ := hd.only name old hname (by rw [lookup, hfind]; rfl)
        exact ⟨label, h.find?_eq hl⟩
  placed name label place hn hpos := by
    rcases h.find?_cases hn with hold | ⟨rfl, -, heq⟩ | ⟨-, -, -, type, heq⟩
    · refine hd.placed name label place hold ?_
      rwa [h.position?_eq (hd.orderly.made name label hold)] at hpos
      rintro rfl
      exact hp.2 name hold
    · -- a label that has just got its name has no position
      cases heq
      cases h
      rw [CodeBuffer.position?_newLabel, hd.orderly.position?_nextLabel] at hpos
      cases hpos
    · cases heq
  declared name hname := by
    obtain ⟨label, place, hn, hpos⟩ := hd.declared name hname
    refine ⟨label, place, h.find?_eq hn, ?_⟩
    rwa [h.position?_eq (hd.orderly.made name label hn)]
    rintro rfl
    exact hp.2 name hn

theorem Evolves.clear (h : d.Evolves r (.labels names) d') (hd : d.Clear r names declared) :
    d'.Clear r names declared :=
  h.preserves (fun _ _ _ hp hc => hc.clear hp) hd

/-- A label is declared. -/
theorem Clear.place (h : d.Clear r names declared) {name : String} {label : LabelId}
    (hn : d.locals.find? name = some (.label label)) (hpos : d.buffer.position? label = none)
    (hsmall : d.buffer.size < UInt32.size) :
    Clear r names (fun other => declared other ∨ other = name)
      { d with buffer := d.buffer.bindLabel label } := by
  have hchange : d.Change r (.places label) { d with buffer := d.buffer.bindLabel label } :=
    .place (h.orderly.made name label hn) hpos hsmall
  have hposition := CodeBuffer.position?_bindLabel (h.orderly.made name label hn)
  refine ⟨hchange.orderly h.orderly, h.labels, h.only, fun other label' place ho hp => ?_,
    fun other ho => ?_⟩
  · rw [hposition] at hp
    split at hp
    · rename_i heq
      exact .inr (h.orderly.distinct other name label' ho (heq ▸ hn))
    · exact .inl (h.placed other label' place ho hp)
  · rcases ho with ho | rfl
    · obtain ⟨label', place, hn', hp⟩ := h.declared other ho
      refine ⟨label', place, hn', ?_⟩
      rw [hposition, if_neg, hp]
      rintro rfl
      rw [hpos] at hp
      cases hp
    · exact ⟨label, _, hn, (hposition label).trans (if_pos rfl)⟩

end Draft

namespace Drafting

variable {r : Registry} {names declared : String → Prop} {d : Draft}

/-- A label that is declared for the first time is placed, wherever it was used before. -/
theorem defineLabel_clear (hd : d.Clear r names declared) {name : String} (hname : names name)
    (hnew : ¬ declared name) :
    Ensures (defineLabel r name) d
      (fun _ d' => d.Evolves r (.emitting fun _ => True) d' ∧
        d'.Clear r names fun other => declared other ∨ other = name)
      fun kind _ => kind.SparesLabels := by
  -- once the name has its label, that label is placed
  have place : ∀ {d : Draft} {label : LabelId}, d.Clear r names declared →
      d.locals.find? name = some (.label label) →
      Ensures (do
        if (← get).buffer.isDefined label then
          throw (.labelRedefined name)
        placeLabel label) d
        (fun _ d' => d.Evolves r (.emitting fun _ => True) d' ∧
          d'.Clear r names fun other => declared other ∨ other = name)
        fun kind _ => kind.SparesLabels := by
    intro d label hd hn
    have hpos : d.buffer.position? label = none := by
      cases hp : d.buffer.position? label with
      | none => rfl
      | some place => exact absurd (hd.placed name label place hn hp) hnew
    simp only [ensures_get_bind, CodeBuffer.isDefined, hpos, Option.isSome_none,
      Bool.false_eq_true, if_false]
    refine Ensures.mono (placeLabel_leads (r := r) (L := .emitting fun _ => True) trivial) ?_
      fun _ _ h => h.2
    rintro - d' ⟨he, -, -, hsmall, rfl⟩
    exact ⟨he, hd.place hn hpos hsmall⟩
  rw [defineLabel, ensures_get_bind]
  cases hl : d.lookup r name with
  | some m =>
    obtain ⟨label, hn⟩ := hd.only name m hname hl
    have hm : m = .label label := by
      rw [Draft.lookup, hn] at hl
      exact (Option.some.inj hl).symm
    subst hm
    exact place hd hn
  | none =>
    have hnamed : Leads r (.emitting fun _ => True) (nameLabel name) d _ _ :=
      nameLabel_leads trivial
    refine (Ensures.mono hnamed (fun _ _ h => h) ?_).bind ?_
    · rintro kind - ⟨-, hk | ⟨-, hknown⟩⟩
      · exact hk
      · exact absurd (Draft.lookup_eq_none hl).1 hknown
    rintro label d₁ ⟨he, hroom, hnone, rfl, rfl⟩
    have hd₁ : Draft.Clear r names declared _ :=
      (Draft.Change.name hroom hnone).clear hname hd
    refine (place hd₁ ?_).mono (fun _ d' h => ⟨he.trans h.1, h.2⟩) fun _ _ h => h
    rw [SymbolTable.find?_insert, if_pos rfl]

/-- A statement declares its label. -/
theorem statementLabel_clear (hd : d.Clear r names declared) {s : Statement}
    (hs : ∀ name, s.HasLabel name → names name ∧ ¬ declared name) :
    Ensures (statementLabel r s) d
      (fun _ d' => d.Evolves r (.emitting fun _ => True) d' ∧
        d'.Clear r names fun name => declared name ∨ s.HasLabel name)
      fun kind _ => kind.SparesLabels := by
  rw [statementLabel]
  cases hlabel : s.label with
  | none =>
    have hnone : (fun name => declared name ∨ s.HasLabel name) = declared := by
      simp [Statement.HasLabel, hlabel]
    rw [hnone]
    exact ⟨.refl, hd⟩
  | some label =>
    have hsome : (fun name => declared name ∨ s.HasLabel name)
        = fun name => declared name ∨ name = label.text := by
      simp [Statement.HasLabel, hlabel, eq_comm]
    obtain ⟨hname, hnew⟩ := hs label.text ⟨label, hlabel, rfl⟩
    rw [hsome]
    exact defineLabel_clear hd hname hnew

/-- What is still held against a statement: it refers twice to a label before the declaration of
that label, or its keyword is one of the host's, which rejects it. -/
def Objects (r : Registry) (s : Statement) (d : Draft) (kind : CompileError.Kind) : Prop :=
  (∃ name, kind = .labelRedefined name ∧ RefersTwice r s d name) ∨
    ∃ op form d', r.operation? s.name.text = some op ∧ op.form = .custom form ∧
      (form s).Comes r d (.reject kind) d'

/-- A statement of a script whose labels stand for nothing else is rejected for other reasons than
its labels, unless it refers twice to one of them. -/
theorem statement_clear (hr : r.Sound) (hd : d.Clear r names declared) {s : Statement}
    (hs : ∀ name, s.HasLabel name → names name ∧ ¬ declared name)
    (hrefers : ∀ name, s.Refers name → d.lookup r name = none → names name)
    (hdeclares : ∀ name, r.Declares s name → ¬ names name)
    (hkeeps : ∀ op form d₁, r.operation? s.name.text = some op → op.form = .custom form →
      statementLabel r s { d with span := s.span } = .ok () d₁ →
      (form s).Keeps r (.labels names) d₁) :
    Ensures (statement r s) d
      (fun _ d' => d'.Clear r names fun name => declared name ∨ s.HasLabel name)
      fun kind _ => kind.SparesLabels ∨ ∃ d₁,
        statementLabel r s { d with span := s.span } = .ok () d₁ ∧ Objects r s d₁ kind := by
  rw [statement_eq, ensures_modify_bind]
  have hspan : d.Change r .minor { d with span := s.span } :=
    .note fun _ hb => .inl hb
  have hbegun : Draft.Clear r names declared { d with span := s.span } := hspan.clear trivial hd
  have hlabel := statementLabel_clear hbegun hs
  cases hx : statementLabel r s { d with span := s.span } with
  | error kind d₁ =>
    rw [Ensures, bind_of_error hx]
    exact .inl (hlabel.of_error hx)
  | ok u d₁ =>
    obtain ⟨he, hd₁⟩ := hlabel.of_ok hx
    rw [Ensures, bind_of_ok hx]
    have hknown : ∀ name, d₁.lookup r name = none → d.lookup r name = none :=
      fun _ => Draft.lookup_eq_none_of_keeps fun _ => he.find?_eq
    refine Ensures.mono (performance_leads hr hd₁.orderly (Licence.usual_labels r names d₁) s
      (fun name hr hn => hrefers name hr (hknown name hn)) hdeclares
      fun op form hop hform => hkeeps op form d₁ hop hform hx) ?_ ?_
    · exact fun _ d' h => h.1.clear hd₁
    · rintro kind d' ⟨-, (hk | hk) | hk⟩
      · exact .inl hk
      · exact .inr ⟨d₁, rfl, .inl hk⟩
      · exact .inr ⟨d₁, rfl, .inr hk⟩

end Drafting

/-! ### Whole scripts -/

/-- One of the statements declares the label. -/
def LabelAmong (statements : List (Except SyntaxError Statement)) (name : String) : Prop :=
  ∃ s, .ok s ∈ statements ∧ s.HasLabel name

theorem labelAmong_append (done : List (Except SyntaxError Statement)) (s : Statement) :
    LabelAmong (done ++ [.ok s]) = fun name => LabelAmong done name ∨ s.HasLabel name := by
  funext name
  simp [LabelAmong, or_and_right, exists_or]

/-- A name in the place of a label that stands for nothing when its statement comes up is the label
of a statement.  A label is that of one statement, and its name stands for nothing else. -/
structure Registry.LabelsClear (r : Registry) (hook : Option HookSignature) (source : String)
    (statements : List (Except SyntaxError Statement)) : Prop where
  declared : ∀ (i : Nat) (s : Statement) (d : Draft) (name : String),
    statements[i]? = some (Except.ok s) →
    HalfwayDraft r hook source (statements.take i) d → s.Refers name → d.lookup r name = none →
    LabelAmong statements name
  once : ∀ (i k : Nat) (s s' : Statement) (name : String), statements[i]? = some (Except.ok s) →
    statements[k]? = some (Except.ok s') → s.HasLabel name → s'.HasLabel name → i = k
  globals : ∀ name, LabelAmong statements name → r.globals.find? name = none
  arguments : ∀ name, LabelAmong statements name →
    ∀ a ∈ (hook.map (·.arguments)).getD [], a.name ≠ name
  undeclared : ∀ name, LabelAmong statements name → ∀ s, .ok s ∈ statements → ¬ r.Declares s name
  /-- keywords of the host leave the labels of the script alone -/
  keywords : ∀ (i : Nat) (s : Statement) (d d₁ : Draft) (op : Operation) form,
    statements[i]? = some (Except.ok s) → HalfwayDraft r hook source (statements.take i) d →
    r.operation? s.name.text = some op → op.form = .custom form →
    Drafting.statementLabel r s { d with span := s.span } = .ok () d₁ →
    (form s).Keeps r (.labels (LabelAmong statements)) d₁

/-- The error has nothing to do with labels, or is that of a statement that refers twice to a label
before the declaration of that label, or of a keyword of the host. -/
def CompileError.Spares (r : Registry) (hook : Option HookSignature) (source : String)
    (statements : List (Except SyntaxError Statement)) (e : CompileError) : Prop :=
  e.kind.SparesLabels ∨ ∃ (i : Nat) (s : Statement) (d d₁ : Draft),
    statements[i]? = some (Except.ok s) ∧ HalfwayDraft r hook source (statements.take i) d ∧
      Drafting.statementLabel r s { d with span := s.span } = .ok () d₁ ∧
      e = .inStatement source s.span e.kind ∧ Drafting.Objects r s d₁ e.kind

namespace Draft

variable {r : Registry} {hook : Option HookSignature} {source : String}
  {statements : List (Except SyntaxError Statement)} {first d : Draft}

/-- Before the first statement no name stands for a label. -/
theorem clear_of_start (hc : r.LabelsClear hook source statements)
    (hfirst : start r ((hook.map (·.arguments)).getD []) = .ok first) :
    first.Clear r (LabelAmong statements) (LabelAmong []) := by
  have hlabel : ∀ name label, first.locals.find? name ≠ some (.label label) := by
    intro name label hn
    obtain ⟨_, _, _, heq⟩ := register_of_start hfirst hn
    cases heq
  refine {
    orderly := orderly_of_start hfirst
    labels := fun name label hn => absurd hn (hlabel name label)
    only := fun name m hname hm => ?_
    placed := fun name label _ hn => absurd hn (hlabel name label)
    declared := by simp [LabelAmong] }
  rcases lookup_eq_some hm with hn | hn
  · obtain ⟨j, a, hj, rfl, -⟩ := argument_of_start hfirst hn
    exact absurd rfl (hc.arguments _ hname a (List.mem_of_getElem? hj))
  · rw [hc.globals name hname] at hn
    cases hn

/-- From each draft on the way the next statements lead to one that knows their labels, or to an
error that spares them. -/
theorem compileAll_clear (hr : r.Sound) (hc : r.LabelsClear hook source statements)
    (hread : Statement.readAll r.config.maxArguments (tokenize source) = statements)
    (hfirst : start r ((hook.map (·.arguments)).getD []) = .ok first)
    {done rest more : List (Except SyntaxError Statement)} (h : statements = done ++ rest ++ more)
    (hdone : first.compileAll r source done = .ok d)
    (hd : d.Clear r (LabelAmong statements) (LabelAmong done)) :
    (∀ d', d.compileAll r source rest = .ok d' →
      d'.Clear r (LabelAmong statements) (LabelAmong (done ++ rest))) ∧
    ∀ e, d.compileAll r source rest = .error e → e.Spares r hook source statements := by
  induction rest generalizing done d with
  | nil =>
    refine ⟨fun d' hd' => ?_, fun e he => ?_⟩
    · cases hd'
      rwa [List.append_nil]
    · cases he
  | cons next rest ih =>
    cases next with
    | error e =>
      refine ⟨fun d' hd' => ?_, fun e' he' => ?_⟩
      · cases hd'
      · cases he'
        exact .inl (by simp [CompileError.ofSyntaxError])
    | ok s =>
      have hi : statements[done.length]? = some (Except.ok s) := by simp [h]
      have htake : statements.take done.length = done := by simp [h]
      have hmem : Except.ok s ∈ statements := List.mem_of_getElem? hi
      have hhalf : HalfwayDraft r hook source (statements.take done.length) d := by
        rw [htake]
        refine ⟨⟨.ok s :: rest ++ more, ?_⟩, first, hfirst, hdone⟩
        rw [hread, h, List.append_assoc]
      have hstep := Drafting.statement_clear hr hd (s := s)
        (fun name hname => ⟨⟨s, hmem, hname⟩, ?_⟩)
        (fun name hrefers hnone => hc.declared _ s d name hi hhalf hrefers hnone)
        (fun name hdeclares hname => hc.undeclared name hname s hmem hdeclares)
        (fun op form d₁ hop hform hx => hc.keywords _ s d d₁ op form hi hhalf hop hform hx)
      · rw [compileAll]
        cases hx : Drafting.statement r s d with
        | error kind failed =>
          refine ⟨fun d' hd' => ?_, fun e he => ?_⟩
          · cases hd'
          · cases he
            refine (hstep.of_error hx).imp id ?_
            rintro ⟨d₁, hlabel, hk⟩
            exact ⟨done.length, s, d, d₁, hi, hhalf, hlabel, rfl, hk⟩
        | ok u d₁ =>
          rw [List.append_cons] at h ⊢
          refine ih h ?_ ?_
          · exact compileAll_snoc hdone hx
          · rw [labelAmong_append]
            exact hstep.of_ok hx
      · -- the label is that of no other statement
        rintro ⟨s', hs', hname'⟩
        obtain ⟨k, hk⟩ := List.mem_iff_getElem?.mp hs'
        obtain ⟨hlt, -⟩ := List.getElem?_eq_some_iff.mp hk
        have hk' : statements[k]? = some (Except.ok s') := by
          rw [h, List.append_assoc, List.getElem?_append_left hlt, hk]
        exact absurd (hc.once _ _ s' s name hk' hi hname' hname) (Nat.ne_of_lt hlt)

theorem toProgram_kind {kind : CompileError.Kind} (h : d.toProgram = .error kind) :
    ∃ defect, kind = .internal defect := by
  rw [toProgram] at h
  split at h
  · cases h
    exact ⟨_, rfl⟩
  · simp only at h
    split at h
    · cases h
      exact ⟨_, rfl⟩
    · cases h

/-- A script whose labels have all been declared is closed, or rejected for other reasons. -/
theorem finish_spares (hr : r.Sound) {names : String → Prop} (hd : d.Clear r names names)
    {e : CompileError} (h : d.finish r source = .error e) : e.kind.SparesLabels := by
  rw [finish] at h
  cases hend : d.openEnd? with
  | some fault =>
    rw [hend] at h
    cases h
    rw [openEnd?] at hend
    split at hend
    · cases hend
      simp [CompileError.inStatement]
    · -- a label that was used is one of the names, so it has a position by now
      obtain ⟨f, hf, -⟩ := Option.map_eq_some_iff.mp hend
      have hname := hd.orderly.waits f (Array.mem_of_find?_eq_some hf)
      obtain ⟨label, place, hlabel, hpos⟩ := hd.declared f.name (hd.labels _ _ hname)
      rw [hname] at hlabel
      cases hlabel
      have hundefined := Array.find?_some hf
      rw [CodeBuffer.isDefined, hpos] at hundefined
      cases hundefined
  | none =>
    rw [hend] at h
    simp only at h
    have hexit : Drafting.Leads r (.emitting fun _ => True)
        (Drafting.emitNamed r Builtin.exit.name []) d _ _ :=
      Drafting.emitKnown_leads hr hd.orderly (fun _ _ _ _ => by simp) trivial
    cases hx : Drafting.emitNamed r Builtin.exit.name [] d with
    | error kind failed =>
      rw [hx] at h
      cases h
      exact (hexit.of_error hx).2
    | ok u closed =>
      rw [hx] at h
      simp only at h
      split at h
      · rename_i kind hp
        cases h
        obtain ⟨defect, rfl⟩ := toProgram_kind hp
        simp [CompileError.inStatement]
      · cases h

end Draft

/-- Whether a label is declared before or behind the statements that refer to it makes no
difference, except where a statement refers to it twice.

An operation has the same overload for names that stand for nothing yet as for labels, and it is
emitted for the ones as for the others, provided that no such name is there twice and there is room
for their labels.  A script whose labels stand for nothing else is not rejected for a label that is
never declared, nor for one that is declared twice, unless a statement refers twice to one label
before its declaration, or a keyword of the host rejects its statement. -/
theorem forward_labels_accepted {r : Registry} (hr : r.Built) {hook : Option HookSignature}
    {source : String} {statements : List (Except SyntaxError Statement)}
    (hread : Statement.readAll r.config.maxArguments (tokenize source) = statements)
    (hc : r.LabelsClear hook source statements) :
    (∀ done d name op arguments bound, HalfwayDraft r hook source done d →
      r.operation? name = some op → List.Forall₂ Argument.Binds arguments bound →
      (∀ o, op.select r arguments = .ok o ↔ op.select r bound = .ok o) ∧
      (Drafting.Succeeds (Drafting.emit r op arguments) d ↔
        Drafting.Succeeds (Drafting.emit r op bound) d ∧ Argument.Apart arguments ∧
        (∀ unknown, .unknown unknown ∈ arguments → d.locals.find? unknown = none) ∧
        d.buffer.labels.size + arguments.countP Argument.isUnknown ≤ Drafting.maxLabels)) ∧
    ∀ e, compile r hook source = .error e → e.Spares r hook source statements := by
  constructor
  · rintro done d name op arguments bound ⟨⟨rest, hrest⟩, first, hfirst, hd⟩ hop hbinds
    rw [hread] at hrest
    have hclear := (Draft.compileAll_clear hr.sound hc hread hfirst hrest.symm rfl
      (Draft.clear_of_start hc hfirst)).1 d hd
    exact ⟨Operation.select_iff_of_binds hbinds,
      Drafting.succeeds_emit_of_binds hr.sound hclear.orderly hop hbinds⟩
  · intro e he
    rw [compile, compileWith] at he
    cases hfirst : Draft.start r ((hook.map (·.arguments)).getD []) with
    | error kind =>
      rw [hfirst] at he
      cases he
      exact .inl (Draft.start_kind hfirst).2
    | ok first =>
      rw [hfirst, hread] at he
      have hall := Draft.compileAll_clear hr.sound hc hread hfirst (List.append_nil _).symm rfl
        (Draft.clear_of_start hc hfirst)
      cases hd : first.compileAll r source statements with
      | error e' =>
        simp only [hd, bind, Except.bind] at he
        cases he
        exact hall.2 _ hd
      | ok d =>
        simp only [hd, bind, Except.bind] at he
        exact .inl (Draft.finish_spares hr.sound (hall.1 d hd) he)

/-! ### Clear labels can be tested -/

/-- The labels of statements, in order. -/
def labelNames (statements : List (Except SyntaxError Statement)) : List String :=
  statements.filterMap fun s => s.toOption.bind fun s => s.label.map (·.text)

theorem mem_labelNames {statements : List (Except SyntaxError Statement)} {name : String} :
    name ∈ labelNames statements ↔ LabelAmong statements name := by
  simp only [labelNames, List.mem_filterMap, LabelAmong, Statement.HasLabel]
  constructor
  · rintro ⟨s, hs, hname⟩
    cases s with
    | error e => cases hname
    | ok s => exact ⟨s, hs, Option.map_eq_some_iff.mp hname⟩
  · rintro ⟨s, hs, hname⟩
    exact ⟨.ok s, hs, Option.map_eq_some_iff.mpr hname⟩

/-- Where no label is there twice, a later statement has another one. -/
theorem not_hasLabel_of_lt {statements : List (Except SyntaxError Statement)}
    (h : (labelNames statements).Nodup) {i k : Nat} (hlt : i < k) {s s' : Statement}
    (hi : statements[i]? = some (Except.ok s)) (hk : statements[k]? = some (Except.ok s'))
    {name : String} (hl : s.HasLabel name) : ¬ s'.HasLabel name := by
  obtain ⟨hilt, hi⟩ := List.getElem?_eq_some_iff.mp hi
  obtain ⟨hklt, hk⟩ := List.getElem?_eq_some_iff.mp hk
  have hpair := List.pairwise_iff_getElem.mp (List.pairwise_filterMap.mp h) i k hilt hklt hlt
  intro hl'
  refine hpair name ?_ name ?_ rfl
  · rw [hi]
    exact Option.map_eq_some_iff.mpr hl
  · rw [hk]
    exact Option.map_eq_some_iff.mpr hl'

/-- Whether there are calls only, with words of the registry and labels, each of which is that of
one statement. -/
def Registry.plainLabels (r : Registry) (statements : List (Except SyntaxError Statement)) : Bool :=
  let names := labelNames statements
  decide names.Nodup && names.all (fun name => (r.globals.find? name).isNone) &&
    statements.all fun s => s.toOption.all fun s =>
      (r.operation? s.name.text).all (·.form.isCall) &&
      s.arguments.all fun t =>
        t.kind != .symbol || (names.contains t.text || (r.globals.find? t.text).isSome)

theorem Registry.LabelsClear.of_plainLabels {r : Registry} {source : String}
    {statements : List (Except SyntaxError Statement)} (h : r.plainLabels statements = true) :
    r.LabelsClear none source statements := by
  simp only [plainLabels, Bool.and_eq_true, decide_eq_true_eq, List.all_eq_true] at h
  obtain ⟨⟨hnodup, hglobals⟩, hstatements⟩ := h
  have hcall : ∀ s op, .ok s ∈ statements → r.operation? s.name.text = some op →
      op.form = .call := by
    intro s op hs hop
    have hform := hstatements _ hs
    simp only [Except.toOption, Option.all_some, Bool.and_eq_true, hop] at hform
    cases hop : op.form with
    | call => rfl
    | ifBlock | elseBranch | endBlock | declaration | custom form =>
      rw [hop] at hform
      cases hform.1
  refine {
    declared := fun i s d name hi _ hrefers hnone => ?_
    once := fun i k s s' name hi hk hl hl' => ?_
    globals := fun name hname => ?_
    arguments := fun _ _ _ ha => by cases ha
    undeclared := fun name _ s hs hdeclares => ?_
    keywords := fun i s d d₁ op form hi _ hop hform => ?_ }
  · obtain ⟨j, t, -, hj, hkind, rfl⟩ := hrefers
    have hs := hstatements _ (List.mem_of_getElem? hi)
    simp only [Except.toOption, Option.all_some, Bool.and_eq_true, List.all_eq_true] at hs
    have ht := hs.2 t (List.mem_of_getElem? hj)
    rw [hkind, bne_self_eq_false, Bool.false_or] at ht
    rcases Bool.or_eq_true_iff.mp ht with hlabel | hglobal
    · exact mem_labelNames.mp (List.contains_iff_mem.mp hlabel)
    · rw [(Draft.lookup_eq_none hnone).2] at hglobal
      cases hglobal
  · rcases Nat.lt_trichotomy i k with hlt | rfl | hlt
    · exact absurd hl' (not_hasLabel_of_lt hnodup hlt hi hk hl)
    · rfl
    · exact absurd hl (not_hasLabel_of_lt hnodup hlt hk hi hl')
  · simpa using hglobals name (mem_labelNames.mpr hname)
  · obtain ⟨op, hop, hform, -⟩ := hdeclares
    rw [hcall s op hs hop] at hform
    cases hform
  · rw [hcall s op (List.mem_of_getElem? hi) hop] at hform
    cases hform

/-- A script that refers to a label twice in one statement, before its declaration. -/
def doubleJump : String := "test_eq r0 1 done done; done: exit;"

theorem exists_doubleJump : ∃ r e, Registry.standard? {} = .ok r ∧ r.OwnForms ∧
    r.LabelsClear none doubleJump
      (Statement.readAll r.config.maxArguments (tokenize doubleJump)) ∧
    compile r none doubleJump = .error e ∧ e.kind = .labelRedefined "done" := by
  obtain ⟨r, hr, h⟩ := Registry.exists_standard {} (fun r =>
    r.operations.toList.all (fun op => !op.2.form.isCustom) &&
      r.plainLabels (Statement.readAll r.config.maxArguments (tokenize doubleJump)) &&
      decide (rejection? (compile r none doubleJump) = some (.labelRedefined "done")))
    (by decide +kernel)
  simp only [Bool.and_eq_true, decide_eq_true_eq] at h
  obtain ⟨⟨hown, hplain⟩, hrejected⟩ := h
  obtain ⟨e, he, hkind⟩ := exists_rejection hrejected
  exact ⟨r, e, hr, Registry.ownForms_of_all hown, .of_plainLabels hplain, he, hkind⟩

theorem forward_labels_accepted_doubleJump : ∃ r e s d, Registry.standard? {} = .ok r ∧ r.Built ∧
    r.LabelsClear none doubleJump
      (Statement.readAll r.config.maxArguments (tokenize doubleJump)) ∧
    compile r none doubleJump = .error e ∧ e = .inStatement doubleJump s.span e.kind ∧
    Drafting.RefersTwice r s d "done" := by
  obtain ⟨r, e, hr, own, hc, he, hkind⟩ := exists_doubleJump
  have hbuilt := Registry.Built.of_standard hr
  rcases (forward_labels_accepted hbuilt rfl hc).2 e he with
    hspares | ⟨i, s, d, d₁, hi, -, -, hs, ⟨name, hname, htwice⟩ |
      ⟨op, form, -, hop, hform, -⟩⟩
  · exact absurd hkind (hspares "done").1
  · rw [hkind] at hname
    cases hname
    exact ⟨r, e, s, d₁, hr, hbuilt, hc, he, hs, htwice⟩
  · exact absurd hform (own s.name.text op hop form)

/-- Once the label has been declared, the same statement is accepted. -/
theorem labelRedefined_of_doubleJump : ∃ r e p, Registry.standard? {} = .ok r ∧
    r.LabelsClear none doubleJump
      (Statement.readAll r.config.maxArguments (tokenize doubleJump)) ∧
    compile r none doubleJump = .error e ∧ e.kind = .labelRedefined "done" ∧
    compile r none "done: test_eq r0 1 done done;" = .ok p := by
  obtain ⟨r, e, hr, -, hc, he, hkind⟩ := exists_doubleJump
  obtain ⟨r', p, hr', hp, -⟩ : ∃ r p, Registry.standard? {} = .ok r ∧
      compile r none "done: test_eq r0 1 done done;" = .ok p ∧ True :=
    exists_compiled (fun _ => True) (by decide +kernel)
  rw [hr] at hr'
  cases hr'
  exact ⟨r, e, p, hr, hc, he, hkind, hp⟩

end HookScript
