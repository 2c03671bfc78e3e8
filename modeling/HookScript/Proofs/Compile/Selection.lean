/-
The choice of an overload, and the operands of the one that is chosen.

* `Overload.Leads` — what is known of the best overload while the list is looked through;
* `Operation.select_eq_ok` — the chosen overload fits, and no other one fits as well;
* `Registry.select_builtin` — a builtin instruction is chosen where nothing else fits;
* `Argument.exists_payload` — an argument that fits has an operand in the encoding that it chooses;
* `Overload.Chosen` — the choices and operands of all arguments.
-/
import HookScript.Compile.Emit
import HookScript.Proofs.Code.Line
import HookScript.Proofs.Registry.Changes
import Mathlib.Data.List.Induction

namespace HookScript

namespace Overload

variable {arguments : List Argument}

/-- The best of several overloads: it is one of those that fit, it has the greatest score, and if it
is not tied it is the only one that has. -/
structure Leads (arguments : List Argument) (overloads : List Overload) (best : Best) : Prop where
  mem : best.overload ∈ overloads
  fits : best.overload.score? arguments = some best.score
  greatest : ∀ o ∈ overloads, ∀ score, o.score? arguments = some score → score ≤ best.score
  only : best.tied = false → ∀ o ∈ overloads, o.score? arguments = some best.score →
    o = best.overload

/-- The answer after several overloads have been looked at. -/
def Tracks (arguments : List Argument) (overloads : List Overload) : Option Best → Prop
  | none => ∀ o ∈ overloads, o.score? arguments = none
  | some best => Leads arguments overloads best

theorem forall_mem_snoc {overloads : List Overload} {o : Overload} {P : Overload → Prop}
    (h : ∀ o' ∈ overloads, P o') (ho : P o) : ∀ o' ∈ overloads ++ [o], P o' := by
  intro o' ho'
  rcases List.mem_append.mp ho' with ho' | ho'
  · exact h o' ho'
  · rwa [List.mem_singleton.mp ho']

section

variable {overloads : List Overload} {o : Overload}

/-- An overload that fits better than those before it becomes the best one. -/
theorem Leads.best {score : Nat} (hs : o.score? arguments = some score)
    (hlt : ∀ o' ∈ overloads, ∀ score', o'.score? arguments = some score' → score' < score) :
    Leads arguments (overloads ++ [o]) ⟨score, o, false⟩ where
  mem := by simp
  fits := hs
  greatest := by
    refine forall_mem_snoc (fun o' ho' score' hs' => Nat.le_of_lt (hlt o' ho' score' hs')) ?_
    rintro score' hs'
    rw [hs] at hs'
    exact Nat.le_of_eq (Option.some.inj hs').symm
  only _ := forall_mem_snoc
    (fun o' ho' hs' => absurd (hlt o' ho' score hs') (Nat.lt_irrefl score)) fun _ => rfl

/-- The best overload stays so if the next one does not fit, or less well. -/
theorem Leads.stays {b : Best} (h : Leads arguments overloads b)
    (hlt : ∀ score, o.score? arguments = some score → score < b.score) :
    Leads arguments (overloads ++ [o]) b where
  mem := List.mem_append_left _ h.mem
  fits := h.fits
  greatest := forall_mem_snoc h.greatest fun score hs => Nat.le_of_lt (hlt score hs)
  only ht := forall_mem_snoc (h.only ht) fun hs => absurd (hlt b.score hs) (Nat.lt_irrefl b.score)

theorem Leads.tie {b : Best} (h : Leads arguments overloads b)
    (hs : o.score? arguments = some b.score) :
    Leads arguments (overloads ++ [o]) { b with tied := true } where
  mem := List.mem_append_left _ h.mem
  fits := h.fits
  greatest := by
    refine forall_mem_snoc h.greatest fun score' hs' => ?_
    rw [hs] at hs'
    exact Nat.le_of_eq (Option.some.inj hs').symm
  only := nofun

theorem Tracks.consider {best : Option Best} (h : Tracks arguments overloads best)
    (o : Overload) : Tracks arguments (overloads ++ [o]) (consider arguments best o) := by
  unfold Overload.consider
  cases hs : o.score? arguments with
  | none =>
    cases best with
    | none => exact forall_mem_snoc h hs
    | some b => exact Leads.stays h (by simp [hs])
  | some score =>
    cases best with
    | none =>
      refine Leads.best hs fun o' ho' score' hs' => ?_
      rw [h o' ho'] at hs'
      cases hs'
    | some b =>
      have hb : Leads arguments overloads b := h
      simp only
      split
      · rename_i hlt
        refine hb.stays fun score' hs' => ?_
        rw [hs] at hs'
        exact Option.some.inj hs' ▸ hlt
      · split
        · rename_i heq
          exact hb.tie (heq ▸ hs)
        · refine Leads.best hs fun o' ho' score' hs' => ?_
          have := hb.greatest o' ho' score' hs'
          omega

end

theorem best?_snoc (overloads : List Overload) (o : Overload) (arguments : List Argument) :
    best? (overloads ++ [o]) arguments = consider arguments (best? overloads arguments) o := by
  rw [best?, List.foldl_append]
  rfl

theorem best?_tracks (overloads : List Overload) (arguments : List Argument) :
    Tracks arguments overloads (best? overloads arguments) := by
  -- the invariant is about the overloads that have been looked at so far
  induction overloads using List.reverseRecOn with
  | nil => simp [best?, Tracks]
  | append_singleton looked o ih =>
    rw [best?_snoc]
    exact ih.consider o

end Overload

/-- The overload that is chosen fits, and every other one that fits does so less well. -/
theorem Operation.select_eq_ok {r : Registry} {op : Operation} {arguments : List Argument}
    {o : Overload} (h : op.select r arguments = .ok o) :
    o ∈ op.overloads ∧ ∃ score, o.score? arguments = some score ∧
      ∀ o' ∈ op.overloads, ∀ score', o'.score? arguments = some score' →
        score' < score ∨ o' = o := by
  have ht := Overload.best?_tracks op.overloads arguments
  rw [select] at h
  cases hb : Overload.best? op.overloads arguments with
  | none =>
    rw [hb] at h
    simp only at h
    split at h <;> cases h
  | some best =>
    rw [hb] at h ht
    simp only at h
    split at h
    · cases h
    · rename_i htied
      cases h
      refine ⟨ht.mem, best.score, ht.fits, fun o' ho' score' hf => ?_⟩
      have hle := ht.greatest o' ho' score' hf
      -- an equal score is that of the chosen overload itself, since there is no tie
      by_cases heq : score' = best.score
      · exact .inr (ht.only (by simpa using htied) o' ho' (heq ▸ hf))
      · exact .inl (by omega)

theorem Operation.select_kind {r : Registry} {op : Operation} {arguments : List Argument}
    {kind : CompileError.Kind} (h : op.select r arguments = .error kind) :
    ∀ defect, kind ≠ .internal defect := by
  rintro defect rfl
  rw [select] at h
  split at h
  · split at h <;> cases h
  · split at h <;> cases h

/-- Without arguments `exit` stands for the instruction, whatever host functions have the same
name. -/
theorem Registry.select_exit {r : Registry} (hr : r.Built) {op : Operation}
    (hop : r.operation? Builtin.exit.name = some op) {o : Overload}
    (hsel : op.select r [] = .ok o) :
    o = builtinOverload .exit := by
  obtain ⟨op', hop', hm⟩ := hr.offers .exit
  rw [hop] at hop'
  cases hop'
  obtain ⟨-, score, hfits, hbest⟩ := Operation.select_eq_ok hsel
  -- without arguments every overload that fits has the score 0
  have hscore : score = 0 := by
    cases hparams : o.params with
    | nil => simpa [Overload.score?, Overload.totalScore?, hparams] using hfits.symm
    | cons p params => simp [Overload.score?, Overload.totalScore?, hparams] at hfits
  rcases hbest _ hm 0 rfl with hlt | heq
  · omega
  · exact heq.symm

/-! ### The only overload that fits -/

/-- Overloads that do not fit make no difference. -/
theorem Overload.best?_filter (overloads : List Overload) (arguments : List Argument) :
    best? (overloads.filter fun o => (o.score? arguments).isSome) arguments
      = best? overloads arguments := by
  have skips : (fun best o => if (o.score? arguments).isSome = true
      then consider arguments best o else best) = consider arguments := by
    funext best o
    cases hs : o.score? arguments with
    | none => simp [consider, hs]
    | some score => rfl
  rw [best?, List.foldl_filter, skips]
  rfl

/-- An overload that fits is chosen if the list has no second place with one that fits. -/
theorem Operation.select_of_alone {r : Registry} {op : Operation} {arguments : List Argument}
    {o : Overload} (hm : o ∈ op.overloads) (hfits : (o.score? arguments).isSome = true)
    (alone : op.overloads.countP (fun o => (o.score? arguments).isSome) ≤ 1) :
    op.select r arguments = .ok o := by
  have honly : op.overloads.filter (fun o => (o.score? arguments).isSome) = [o] := by
    have hmem : o ∈ op.overloads.filter fun o => (o.score? arguments).isSome :=
      List.mem_filter.mpr ⟨hm, hfits⟩
    rw [List.countP_eq_length_filter] at alone
    obtain ⟨o', ho'⟩ := List.length_eq_one_iff.mp
      (Nat.le_antisymm alone (List.length_pos_of_mem hmem))
    rw [ho'] at hmem ⊢
    rw [List.mem_singleton.mp hmem]
  obtain ⟨score, hscore⟩ := Option.isSome_iff_exists.mp hfits
  have hbest : Overload.best? op.overloads arguments = some ⟨score, o, false⟩ := by
    rw [← Overload.best?_filter, honly]
    simp [Overload.best?, Overload.consider, hscore]
  rw [select, hbest]
  rfl

/-- A builtin instruction is chosen where no other overload fits. -/
theorem Registry.select_builtin {r : Registry} (hr : r.Built) (b : Builtin) {op : Operation}
    (hop : r.operation? b.name = some op) {arguments : List Argument}
    (hfits : ((builtinOverload b).score? arguments).isSome = true)
    (alone : ∀ o ∈ op.overloads, (o.score? arguments).isSome = true →
      o.target = .builtin b.base) :
    op.select r arguments = .ok (builtinOverload b) := by
  obtain ⟨op', hop', hm⟩ := hr.offers b
  rw [hop] at hop'
  cases hop'
  refine Operation.select_of_alone hm hfits ?_
  have honce := hr.tidy.once b.name b.base
  rw [overloadsOf_eq hop] at honce
  refine Nat.le_trans (List.countP_mono_left fun o ho hs => ?_) honce
  exact decide_eq_true (alone o ho hs)

/-! ### Operands -/

theorem Overload.forall_of_totalScore? {params : List Parameter} {arguments : List Argument}
    {score : Nat} (h : totalScore? params arguments = some score) :
    List.Forall₂ (fun p a => (a.score p).isSome = true) params arguments := by
  induction params generalizing arguments score with
  | nil =>
    cases arguments with
    | nil => exact .nil
    | cons a arguments => cases h
  | cons p params ih =>
    cases arguments with
    | nil => cases h
    | cons a arguments =>
      simp only [totalScore?, Option.bind_eq_bind, Option.bind_eq_some_iff] at h
      obtain ⟨first, hf, rest, hr, -⟩ := h
      exact .cons (by rw [hf]; rfl) (ih hr)

/-- The instructions that the compiler asks for by name share their names with no others. -/
theorem Builtin.eq_of_name {b : Builtin} :
    ∀ b' ∈ [goto, set, testLe, testEq], b.name = b'.name → b = b' := by
  cases b <;> decide

/-- Lists that are related place by place are as long as each other. -/
theorem exists_left_of_forall₂ {α β : Type} {R : α → β → Prop} {xs : List α} {ys : List β}
    (h : List.Forall₂ R xs ys) {i : Nat} {y : β} (hi : ys[i]? = some y) :
    ∃ x, xs[i]? = some x ∧ R x y := by
  induction h generalizing i with
  | nil => simp at hi
  | cons hr _ ih =>
    cases i with
    | zero =>
      cases hi
      exact ⟨_, rfl, hr⟩
    | succ i => exact ih hi

/-- The argument is a label, or a name that can become one. -/
def Argument.IsLabel : Argument → Prop
  | label _ | unknown _ => True
  | constant _ | register _ _ _ | typeName _ => False

/-- An overload that fits a label is a builtin instruction, which has a label in that place. -/
theorem Operation.builtin_of_label {r : Registry} (hr : r.Sound) {name : String} {op : Operation}
    (hop : r.operation? name = some op) {arguments : List Argument} {o : Overload}
    (ho : o ∈ op.overloads) (hfits : (o.score? arguments).isSome = true) {i : Nat} {a : Argument}
    (hi : arguments[i]? = some a) (ha : a.IsLabel) :
    ∃ (b : Builtin) (doc : String), o = ⟨b.params, .builtin b.base, doc⟩ ∧ b.name = name ∧
      b.params.length = arguments.length ∧ b.params[i]? = some .label := by
  obtain ⟨score, hscore⟩ := Option.isSome_iff_exists.mp hfits
  have hs := Overload.forall_of_totalScore? hscore
  obtain ⟨p, hp, hscore⟩ := exists_left_of_forall₂ hs hi
  obtain rfl : p = .label := by
    cases a with
    | label id => cases p <;> first | rfl | cases hscore
    | unknown name => cases p <;> first | rfl | cases hscore
    | constant _ | register _ _ _ | typeName _ => exact ha.elim
  cases hr.overloads name op hop o ho with
  | builtin b doc named => exact ⟨b, doc, rfl, named, hs.length_eq, hp⟩
  | native routine ofHost few entered => exact (ofHost _ (List.mem_of_getElem? hp)).elim

/-- With a label among its arguments, an operation is a builtin instruction, which has a label in
that place. -/
theorem Operation.exists_builtin_of_label {r : Registry} (hr : r.Sound) {name : String}
    {op : Operation} (hop : r.operation? name = some op) {arguments : List Argument} {o : Overload}
    (hsel : op.select r arguments = .ok o) {i : Nat} {a : Argument} (hi : arguments[i]? = some a)
    (ha : a.IsLabel) :
    ∃ (b : Builtin) (doc : String), o = ⟨b.params, .builtin b.base, doc⟩ ∧ b.name = name ∧
      b.params.length = arguments.length ∧ b.params[i]? = some .label := by
  obtain ⟨ho, score, hfits, -⟩ := select_eq_ok hsel
  exact builtin_of_label hr hop ho (by rw [hfits]; rfl) hi ha

/-- The instructions that the compiler asks for by name are chosen where they fit, since no host
function takes a label. -/
theorem Registry.select_of_label {r : Registry} (hr : r.Built) {b : Builtin}
    (hb : b ∈ [Builtin.goto, .set, .testLe, .testEq]) {op : Operation}
    (hop : r.operation? b.name = some op) {arguments : List Argument}
    (hfits : ((builtinOverload b).score? arguments).isSome = true) {i : Nat} {a : Argument}
    (hi : arguments[i]? = some a) (ha : a.IsLabel) :
    op.select r arguments = .ok (builtinOverload b) := by
  refine select_builtin hr b hop hfits fun o ho hs => ?_
  obtain ⟨b', doc, rfl, hname, -⟩ := Operation.builtin_of_label hr.sound hop ho hs hi ha
  rw [Builtin.eq_of_name b hb hname]

namespace Argument

/-- The operand that an argument becomes. -/
def payload : Argument → Payload
  | constant value => .constant value
  | register index _ _ => .register index
  | label id => .label id
  | typeName _ | unknown _ => .constant 0

/-- Arguments have no blocks. -/
theorem raw_notMem_payloads (arguments : List Argument) (bs : List UInt8) :
    .raw bs ∉ arguments.map payload := by
  intro hm
  obtain ⟨a, -, ha⟩ := List.mem_map.mp hm
  cases a <;> cases ha

/-- The second argument is the first one after unknown names have become labels. -/
inductive Binds : Argument → Argument → Prop where
  | known {a : Argument} (h : ∀ name, a ≠ unknown name) : Binds a a
  | forward {name : String} {id : LabelId} : Binds (unknown name) (label id)

/-- Once names have become labels, all arguments are known. -/
theorem known_of_binds {arguments bound : List Argument}
    (h : List.Forall₂ Binds arguments bound) : ∀ name, unknown name ∉ bound := by
  intro name hm
  obtain ⟨i, hi⟩ := List.mem_iff_getElem?.mp hm
  obtain ⟨a, -, hb⟩ := exists_left_of_forall₂ h hi
  cases hb with
  | known h => exact h name rfl

theorem eq_of_binds {arguments bound : List Argument} (h : List.Forall₂ Binds arguments bound)
    (hknown : ∀ name, unknown name ∉ arguments) : bound = arguments := by
  induction h with
  | nil => rfl
  | cons hb _ ih =>
    rw [ih fun name hm => hknown name (List.mem_cons_of_mem _ hm)]
    cases hb with
    | known => rfl
    | forward => exact absurd List.mem_cons_self (hknown _)

/-- An argument that fits its parameter has an operand in the encoding that it chooses, and it is no
label if the parameter belongs to a host function. -/
theorem exists_payload {p : Parameter} {a b : Argument} (hs : (a.score p).isSome = true)
    (hb : a.Binds b) :
    ∃ choice < p.choices, Drafting.payload? p b = some (choice, b.payload) ∧
      (Codec.ofParameter p choice).canEncode b.payload = true ∧
      (p.OfHost → ∀ id, b ≠ label id) := by
  cases hb with
  | forward =>
    cases p <;> simp only [score, Parameter.acceptsForwardLabel, Bool.false_eq_true, ite_false,
      Option.isSome_none] at hs
    exact ⟨0, Parameter.choices_pos _, rfl, rfl, fun h => h.elim⟩
  | known hu =>
    cases a with
    | unknown name => exact absurd rfl (hu name)
    | constant v =>
      cases p <;> simp only [score, Parameter.score, type, Option.isSome_none,
        Bool.false_eq_true] at hs
      exact ⟨0, Parameter.choices_pos _, rfl, rfl, fun _ _ h => by cases h⟩
    | typeName t =>
      cases p <;> simp [score, Parameter.score, type] at hs
    | label id =>
      cases p <;> simp only [score, Parameter.score, type, Option.isSome_none,
        Bool.false_eq_true] at hs
      exact ⟨0, Parameter.choices_pos _, rfl, rfl, fun h => h.elim⟩
    | register index t writable =>
      cases p with
      | int => exact ⟨1, by decide, rfl, rfl, fun _ _ h => by cases h⟩
      | intVar | ptr _ | ptre _ =>
        exact ⟨0, Parameter.choices_pos _, rfl, rfl, fun _ _ h => by cases h⟩
      | label | native | raw => simp [score, Parameter.score, type] at hs

end Argument

/-- What arguments choose for parameters: an encoding for each, and the operand that it becomes,
which the codec of that encoding has bytes for. -/
inductive Overload.Chosen : List Parameter → List Argument → List (Nat × Payload) → Prop where
  | nil : Chosen [] [] []
  | cons {p : Parameter} {b : Argument} {choice : Nat} {params : List Parameter}
      {bound : List Argument} {chosen : List (Nat × Payload)}
      (payload : Drafting.payload? p b = some (choice, b.payload)) (valid : choice < p.choices)
      (encodable : (Codec.ofParameter p choice).canEncode b.payload = true)
      (rest : Chosen params bound chosen) :
      Chosen (p :: params) (b :: bound) ((choice, b.payload) :: chosen)

namespace Overload.Chosen

variable {params : List Parameter} {arguments bound : List Argument} {chosen : List (Nat × Payload)}

/-- Arguments that fit their parameters choose operands. -/
theorem of_score
    (hs : List.Forall₂ (fun p a => (Argument.score a p).isSome = true) params arguments)
    (hb : List.Forall₂ Argument.Binds arguments bound) : ∃ chosen, Chosen params bound chosen := by
  induction hs generalizing bound with
  | nil =>
    cases hb
    exact ⟨[], .nil⟩
  | cons hscore _ ih =>
    cases hb with
    | cons hbind hb =>
      obtain ⟨choice, hchoice, hpay, henc, -⟩ := Argument.exists_payload hscore hbind
      obtain ⟨chosen, hchosen⟩ := ih hb
      exact ⟨_, .cons hpay hchoice henc hchosen⟩

theorem payloads (h : Chosen params bound chosen) :
    chosen.map Prod.snd = bound.map Argument.payload := by
  induction h with
  | nil => rfl
  | cons _ _ _ _ ih => simp [ih]

theorem valid (h : Chosen params bound chosen) : ValidChoices params (chosen.map Prod.fst) := by
  induction h with
  | nil => exact .nil
  | cons _ hchoice _ _ ih => exact .cons hchoice ih

/-- The operands fit the layout of the version that the choices make up. -/
theorem encodable (h : Chosen params bound chosen) :
    Encodable (Codec.layoutOf params (versionOf params (chosen.map Prod.fst)))
      (bound.map Argument.payload) := by
  rw [Codec.layoutOf, choicesOf_versionOf h.valid]
  induction h with
  | nil => exact .nil
  | cons _ _ henc _ ih => exact .cons henc ih

end Overload.Chosen

end HookScript
