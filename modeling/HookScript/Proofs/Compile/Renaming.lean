/-
Other names for variables and labels.

A script is free in what it calls its variables and labels.  If they are called something else, by
names that mean nothing to the registry, the compiler takes the same steps: tables of names are in
the order of the names, but registers and labels are numbered as they come.

* `Registry.Spare` and `Renaming` — what may be called something else, and what it may be called;
* `Draft.Renamed` — the drafts of a script and of the same script with other names, halfway;
* `Renaming.lockstep` — what the two drafts have in common stays common;
* `Drafting.emit_renamed`, `Drafting.elseBranch_renamed`, `Drafting.declaration_renamed` and so on —
  the steps of the compiler lead from such drafts to such drafts.
-/
import HookScript.Proofs.Compile.Lockstep
import HookScript.Proofs.Compile.Names
import HookScript.Proofs.Token.Numerals
import Mathlib.Data.List.Forall2

namespace HookScript

open Drafting (splitMember?)

/-! ### Other names -/

/-- A variable or a label can have the name: nothing else is called so, and no operation is called
like a member of it. -/
structure Registry.Spare (r : Registry) (arguments : List HookArgument) (name : String) : Prop where
  symbol : Token.Kind.ofWord name.toList = .symbol
  dotless : name.toList.contains '.' = false
  global : r.globals.find? name = none
  argument : ∀ a ∈ arguments, a.name ≠ name
  comparison : Comparison.ofName? name = none
  handle : handleOfName? name = none
  equals : name ≠ "="
  operation : ∀ op ∈ r.operations.toList, (splitMember? op.1).map (·.1) ≠ some name

instance (r : Registry) (arguments : List HookArgument) (name : String) :
    Decidable (r.Spare arguments name) :=
  decidable_of_iff (Token.Kind.ofWord name.toList = .symbol ∧ name.toList.contains '.' = false ∧
      r.globals.find? name = none ∧ (∀ a ∈ arguments, a.name ≠ name) ∧
      Comparison.ofName? name = none ∧ handleOfName? name = none ∧ name ≠ "=" ∧
      ∀ op ∈ r.operations.toList, (splitMember? op.1).map (·.1) ≠ some name)
    ⟨fun ⟨symbol, dotless, global, argument, comparison, handle, equals, operation⟩ =>
      ⟨symbol, dotless, global, argument, comparison, handle, equals, operation⟩,
    fun ⟨symbol, dotless, global, argument, comparison, handle, equals, operation⟩ =>
      ⟨symbol, dotless, global, argument, comparison, handle, equals, operation⟩⟩

/-- The map gives other names to some of what scripts name, and what is called differently in `N`
stays so: no two names get the same one, and none gets one in `N` that stays what it is. -/
structure Renaming (r : Registry) (arguments : List HookArgument) (N : String → Prop)
    (ρ : String → String) : Prop where
  injective {name other : String} (h : ρ name ≠ name) (h' : ρ other ≠ other)
    (eq : ρ name = ρ other) : name = other
  fresh {name : String} (h : ρ name ≠ name) (used : N (ρ name)) : ρ (ρ name) ≠ ρ name
  old {name : String} (h : ρ name ≠ name) : r.Spare arguments name
  new {name : String} (h : ρ name ≠ name) : r.Spare arguments (ρ name)

variable {r : Registry} {hookArguments : List HookArgument} {N : String → Prop}
  {ρ : String → String}

namespace Renaming

/-- Names that are used stay apart. -/
theorem eq_of_eq (H : Renaming r hookArguments N ρ) {name other : String} (hn : N name)
    (ho : N other) (h : ρ name = ρ other) : name = other := by
  by_cases hname : ρ name = name
  · by_cases hother : ρ other = other
    · rw [← hname, h, hother]
    · -- the other one cannot have taken a name that stays
      have heq : ρ other = name := h.symm.trans hname
      exact absurd (by rw [heq, hname]) (H.fresh hother (heq ▸ hn))
  · by_cases hother : ρ other = other
    · have heq : ρ name = other := h.trans hother
      exact absurd (by rw [heq, hother]) (H.fresh hname (heq ▸ ho))
    · exact H.injective hname hother h

/-- What is the same for all spare names is the same for the other name. -/
theorem agree (H : Renaming r hookArguments N ρ) {α : Type} {f : String → α} {a : α}
    (hf : ∀ name, r.Spare hookArguments name → f name = a) (name : String) :
    f (ρ name) = f name := by
  by_cases h : ρ name = name
  · rw [h]
  · rw [hf _ (H.new h), hf _ (H.old h)]

theorem contains_dot (H : Renaming r hookArguments N ρ) (name : String) :
    (ρ name).toList.contains '.' = name.toList.contains '.' :=
  H.agree (f := fun name => name.toList.contains '.') (fun _ h => h.dotless) name

end Renaming

/-- The map that takes the first name of each pair to the second one. -/
def renamingOf (pairs : List (String × String)) (name : String) : String :=
  (pairs.lookup name).getD name

theorem mem_of_renamingOf_ne {pairs : List (String × String)} {name : String}
    (h : renamingOf pairs name ≠ name) : (name, renamingOf pairs name) ∈ pairs := by
  rw [renamingOf] at h ⊢
  cases hlookup : pairs.lookup name with
  | none =>
    rw [hlookup] at h
    exact absurd rfl h
  | some other =>
    obtain ⟨front, back, rfl, -⟩ := List.lookup_eq_some_iff.mp hlookup
    exact List.mem_append_right _ List.mem_cons_self

/-- Pairs of names are a renaming if no two of them have the same second name, and no second name
is used that is not the first one of another pair. -/
theorem Renaming.of_pairs {pairs : List (String × String)}
    (injective : ∀ p ∈ pairs, ∀ q ∈ pairs, p.2 = q.2 → p.1 = q.1)
    (fresh : ∀ p ∈ pairs, N p.2 → renamingOf pairs p.2 ≠ p.2)
    (old : ∀ p ∈ pairs, r.Spare hookArguments p.1) (new : ∀ p ∈ pairs, r.Spare hookArguments p.2) :
    Renaming r hookArguments N (renamingOf pairs) where
  injective h h' eq := injective _ (mem_of_renamingOf_ne h) _ (mem_of_renamingOf_ne h') eq
  fresh h used := fresh _ (mem_of_renamingOf_ne h) used
  old h := old _ (mem_of_renamingOf_ne h)
  new h := new _ (mem_of_renamingOf_ne h)

/-! ### Drafts -/

/-- The two answers are related, or both are errors. -/
abbrev AnswersAlike {ε α α' : Type} (R : α → α' → Prop) : Except ε α → Except ε α' → Prop :=
  BothAnswer (fun _ _ => True) R

/-- The second draft is the first one with other names.  Statements stand elsewhere, which does not
matter either. -/
structure Draft.Renamed (ρ : String → String) (N : String → Prop) (d d' : Draft) : Prop where
  names {name : String} (h : N name) : d'.locals.find? (ρ name) = d.locals.find? name
  buffer : d'.buffer = d.buffer
  natives : d'.natives = d.natives
  nextRegister : d'.nextRegister = d.nextRegister
  registersUsed : d'.registersUsed = d.registersUsed
  blocks : List.Forall₂ (fun b b' => ∃ span, b' = { b with span }) d.blocks d'.blocks
  forward : d'.forward.map (·.label) = d.forward.map (·.label)

/-- The two steps end in the same way, with drafts that differ in their names at most. -/
abbrev Drafting.InStep {α α' : Type} (ρ : String → String) (N : String → Prop) (R : α → α' → Prop)
    (x : Drafting α) (d : Draft) (x' : Drafting α') (d' : Draft) : Prop :=
  Together (Draft.Renamed ρ N) (fun _ _ => True) R x d x' d'

variable {d d' : Draft} {t t' : Token}

/-- In neither draft a block is open, or the innermost ones are the same but for their places. -/
theorem Draft.Renamed.blocks_cases (hd : d.Renamed ρ N d') :
    (d.blocks = [] ∧ d'.blocks = []) ∨ ∃ block span outer outer', d.blocks = block :: outer ∧
      d'.blocks = { block with span } :: outer' ∧
      List.Forall₂ (fun b b' => ∃ span, b' = { b with span }) outer outer' := by
  have hblocks := hd.blocks
  generalize d.blocks = blocks, d'.blocks = blocks' at hblocks
  cases hblocks with
  | nil => exact .inl ⟨rfl, rfl⟩
  | cons hblock houter =>
    obtain ⟨span, rfl⟩ := hblock
    exact .inr ⟨_, span, _, _, rfl, rfl, houter⟩

theorem Renaming.lookup (H : Renaming r hookArguments N ρ) (hd : d.Renamed ρ N d') {name : String}
    (hn : N name) : d'.lookup r (ρ name) = d.lookup r name := by
  rw [Draft.lookup, Draft.lookup, hd.names hn, H.agree (fun _ h => h.global)]

/-- The compiler keeps drafts the same but for names. -/
theorem Renaming.lockstep (H : Renaming r hookArguments N ρ) :
    Drafting.Lockstep (Draft.Renamed ρ N) (fun _ _ => True) ρ N where
  buffer h := h.buffer
  natives h := h.natives
  find h _ hn := h.names hn
  setBuffer h _ := { h with buffer := rfl }
  setNatives h _ := { h with natives := rfl }
  touch h index := { h with registersUsed := by rw [Draft.touch, Draft.touch, h.registersUsed] }
  insert h name hn meaning :=
    { h with
      names := fun {other} ho => by
        rw [SymbolTable.find?_insert, SymbolTable.find?_insert]
        by_cases heq : name = other
        · rw [if_pos heq, if_pos (congrArg ρ heq)]
        · rw [if_neg heq, if_neg fun h => heq (H.eq_of_eq hn ho h)]
          exact h.names ho }
  refl _ := trivial
  redefined _ := trivial

/-! ### Arguments -/

/-- The second token is the first one with another name. -/
structure Token.Renamed (ρ : String → String) (N : String → Prop) (t t' : Token) : Prop where
  kind : t'.kind = t.kind
  text : t'.text = ρ t.text
  used : N t.text

/-- The arguments are the same, or names that stand for nothing yet. -/
inductive Argument.Renamed (ρ : String → String) (N : String → Prop) : Argument → Argument → Prop
  where
  | known {a : Argument} (h : ∀ name, a ≠ .unknown name) : Renamed ρ N a a
  | unknown {name : String} (h : N name) : Renamed ρ N (.unknown name) (.unknown (ρ name))

theorem Argument.renamed_ofMeaning (meaning : Meaning) :
    Argument.Renamed ρ N (.ofMeaning meaning) (.ofMeaning meaning) :=
  .known fun _ => by cases meaning <;> nofun

theorem Argument.renamed_label (label : LabelId) :
    Argument.Renamed ρ N (.label label) (.label label) :=
  .known nofun

namespace Token.Renamed

/-- What is the same for all spare names is the same for the two tokens. -/
theorem agree (ht : t.Renamed ρ N t') (H : Renaming r hookArguments N ρ) {α : Type}
    {f : String → α} {a : α} (hf : ∀ name, r.Spare hookArguments name → f name = a) :
    f t'.text = f t.text := by
  rw [ht.text, H.agree hf]

theorem number? (ht : t.Renamed ρ N t') (H : Renaming r hookArguments N ρ) :
    t'.number? = t.number? := by
  rw [Token.number?, Token.number?, ht.kind, ht.agree (f := Literal.value?) H
    fun _ h => Literal.valueOfChars?_of_symbol h.symbol]

theorem lookup (ht : t.Renamed ρ N t') (H : Renaming r hookArguments N ρ)
    (hd : d.Renamed ρ N d') : d'.lookup r t'.text = d.lookup r t.text := by
  rw [ht.text, H.lookup hd ht.used]

theorem resolve (ht : t.Renamed ρ N t') (H : Renaming r hookArguments N ρ)
    (hd : d.Renamed ρ N d') :
    AnswersAlike (Argument.Renamed ρ N) (d.resolve r t) (d'.resolve r t') := by
  rw [Draft.resolve, Draft.resolve, ht.kind, ht.number? H, ht.lookup H hd]
  split
  · split
    · exact .ok (.known nofun)
    · exact .error trivial
  · split
    · exact .ok (Argument.renamed_ofMeaning _)
    · rw [ht.text]
      exact .ok (.unknown ht.used)
  · exact .error trivial

end Token.Renamed

theorem Renaming.resolveAll (H : Renaming r hookArguments N ρ) (hd : d.Renamed ρ N d')
    {ts ts' : List Token} (hts : List.Forall₂ (Token.Renamed ρ N) ts ts') :
    AnswersAlike (List.Forall₂ (Argument.Renamed ρ N)) (d.resolveAll r ts)
      (d'.resolveAll r ts') := by
  rw [Draft.resolveAll, Draft.resolveAll]
  induction hts with
  | nil => exact .ok .nil
  | cons ht _ ih =>
    rw [List.mapM_cons, List.mapM_cons]
    refine (ht.resolve H hd).bind fun a a' ha => ?_
    exact ih.bind fun as as' has => .ok (.cons ha has)

/-! ### Overloads -/

section

variable {a a' : Argument} {as as' : List Argument}

theorem Argument.Renamed.score (h : a.Renamed ρ N a') (p : Parameter) :
    a'.score p = a.score p := by
  cases h with
  | known => rfl
  | unknown => rfl

theorem Overload.totalScore?_renamed (has : List.Forall₂ (Argument.Renamed ρ N) as as')
    (params : List Parameter) : totalScore? params as' = totalScore? params as := by
  induction has generalizing params with
  | nil => rfl
  | cons ha _ ih =>
    cases params with
    | nil => rfl
    | cons p params => rw [totalScore?, totalScore?, ha.score p, ih params]

theorem Overload.best?_renamed (has : List.Forall₂ (Argument.Renamed ρ N) as as')
    (overloads : List Overload) : best? overloads as' = best? overloads as := by
  have hconsider : consider as' = consider as := by
    funext best o
    simp only [consider, score?, totalScore?_renamed has]
  rw [best?, best?, hconsider]

theorem Operation.select_renamed (has : List.Forall₂ (Argument.Renamed ρ N) as as')
    (op : Operation) : AnswersAlike Eq (op.select r as) (op.select r as') := by
  rw [select, select, Overload.best?_renamed has]
  split
  · split
    · exact .error trivial
    · exact .ok rfl
  · split <;> split <;> exact .error trivial

end

namespace Drafting

variable {as as' : List Argument}

theorem forwardLabel_renamed (H : Renaming r hookArguments N ρ) (hd : d.Renamed ρ N d')
    {name : String} (hn : N name) :
    InStep ρ N Eq (forwardLabel name) d (forwardLabel (ρ name)) d' := by
  refine (H.lockstep.nameLabel hd hn).bind ?_
  rintro label _ d d' hd rfl
  refine ⟨{ hd with forward := ?_ }, rfl⟩
  rw [Array.map_push, Array.map_push, hd.forward]

/-- Once unknown names are labels, the arguments are the same. -/
theorem bindForward_renamed (H : Renaming r hookArguments N ρ)
    (has : List.Forall₂ (Argument.Renamed ρ N) as as') (hd : d.Renamed ρ N d') :
    InStep ρ N Eq (bindForward as) d (bindForward as') d' := by
  induction has generalizing d d' with
  | nil => exact together_pure hd rfl
  | @cons a _ as as' ha _ ih =>
    have hrest : ∀ {d d' : Draft} (a : Argument), d.Renamed ρ N d' → InStep ρ N Eq
        (do return a :: (← bindForward as)) d (do return a :: (← bindForward as')) d' := by
      intro d d' a hd
      refine (ih hd).bind ?_
      rintro rest _ d d' hd rfl
      exact together_pure hd rfl
    cases ha with
    | known hknown =>
      cases a with
      | unknown name => exact absurd rfl (hknown name)
      | constant _ | register _ _ _ | label _ | typeName _ => exact hrest _ hd
    | unknown hn =>
      refine (forwardLabel_renamed H hd hn).bind ?_
      rintro label _ d d' hd rfl
      exact hrest _ hd

theorem emit_renamed (H : Renaming r hookArguments N ρ) (hd : d.Renamed ρ N d')
    (has : List.Forall₂ (Argument.Renamed ρ N) as as') (op : Operation) :
    InStep ρ N Eq (emit r op as) d (emit r op as') d' := by
  rw [emit_eq, emit_eq]
  refine (together_ofExcept hd (op.select_renamed has)).bind ?_
  rintro o _ d d' hd rfl
  refine (bindForward_renamed H has hd).bind ?_
  rintro bound _ d d' hd rfl
  exact H.lockstep.emitBound hd r o bound

theorem emitNamed_renamed (H : Renaming r hookArguments N ρ) (hd : d.Renamed ρ N d')
    (has : List.Forall₂ (Argument.Renamed ρ N) as as') (name : String) :
    InStep ρ N Eq (emitNamed r name as) d (emitNamed r name as') d' := by
  rw [emitNamed, emitNamed]
  split
  · exact emit_renamed H hd has _
  · exact together_throw hd trivial

/-! ### Blocks -/

/-- Names of comparisons are no names of the script, so the same comparison is found. -/
theorem splitCondition_renamed (H : Renaming r hookArguments N ρ) {ts ts' : List Token}
    (hts : List.Forall₂ (Token.Renamed ρ N) ts ts') :
    AnswersAlike (fun c c' => c'.1 = c.1 ∧ c.2.1.Renamed ρ N c'.2.1 ∧ c.2.2.Renamed ρ N c'.2.2)
      (splitCondition ts) (splitCondition ts') := by
  match hts with
  | .nil | .cons _ .nil | .cons _ (.cons _ .nil) | .cons _ (.cons _ (.cons _ (.cons _ _))) =>
    exact .error trivial
  | .cons hfirst (.cons hsecond (.cons hthird .nil)) =>
    rw [splitCondition, splitCondition, hfirst.agree H fun _ h => h.comparison,
      hsecond.agree H fun _ h => h.comparison]
    split
    · exact .ok ⟨rfl, hsecond, hthird⟩
    · exact .ok ⟨rfl, hfirst, hthird⟩
    · exact .error trivial

/-- The same instruction makes the comparison, with the same operands but for names. -/
theorem test_renamed (c : Comparison) {a a' b b' : Argument} (ha : a.Renamed ρ N a')
    (hb : b.Renamed ρ N b') (yes no : LabelId) :
    (c.test a' b' (.label yes) (.label no)).1 = (c.test a b (.label yes) (.label no)).1 ∧
      List.Forall₂ (Argument.Renamed ρ N) (c.test a b (.label yes) (.label no)).2
        (c.test a' b' (.label yes) (.label no)).2 := by
  have hlabels : ∀ one other, List.Forall₂ (Argument.Renamed ρ N) [.label one, .label other]
      [.label one, .label other] := fun one other =>
    .cons (Argument.renamed_label one) (.cons (Argument.renamed_label other) .nil)
  cases c with
  | eq | neq | le | gt => exact ⟨rfl, .cons ha (.cons hb (hlabels _ _))⟩
  | ge | lt => exact ⟨rfl, .cons hb (.cons ha (hlabels _ _))⟩

theorem emitCondition_renamed (H : Renaming r hookArguments N ρ) (hd : d.Renamed ρ N d')
    {ts ts' : List Token} (hts : List.Forall₂ (Token.Renamed ρ N) ts ts') (yes no : LabelId) :
    InStep ρ N Eq (emitCondition r ts yes no) d (emitCondition r ts' yes no) d' := by
  refine (together_ofExcept hd (splitCondition_renamed H hts)).bind ?_
  rintro ⟨c, a, b⟩ ⟨_, a', b'⟩ d d' hd ⟨rfl, ha, hb⟩
  refine together_get_bind.mpr ?_
  refine (together_ofExcept hd (ha.resolve H hd)).bind ?_
  rintro x x' e e' he hx
  refine (together_ofExcept he (hb.resolve H hd)).bind ?_
  rintro y y' e e' he hy
  obtain ⟨htest, harguments⟩ := test_renamed _ hx hy yes no
  dsimp only
  rw [htest]
  exact emitNamed_renamed H he harguments _

section

variable {s s' : Statement}

theorem ifBlock_renamed (H : Renaming r hookArguments N ρ) (hd : d.Renamed ρ N d')
    (hs : List.Forall₂ (Token.Renamed ρ N) s.arguments s'.arguments) :
    InStep ρ N Eq (ifBlock r s) d (ifBlock r s') d' := by
  refine (H.lockstep.newLabel hd).bind ?_
  rintro thenLabel _ d d' hd rfl
  refine (H.lockstep.newLabel hd).bind ?_
  rintro elseLabel _ d d' hd rfl
  refine (H.lockstep.newLabel hd).bind ?_
  rintro endLabel _ d d' hd rfl
  refine (emitCondition_renamed H hd hs _ _).bind ?_
  rintro - - d d' hd -
  refine (H.lockstep.placeLabel hd _).bind ?_
  rintro - - d d' hd -
  exact together_modify { hd with blocks := .cons ⟨_, rfl⟩ hd.blocks }

theorem isEmpty_renamed {ts ts' : List Token} (hts : List.Forall₂ (Token.Renamed ρ N) ts ts') :
    ts'.isEmpty = ts.isEmpty := by
  cases hts <;> rfl

theorem beginBranch_renamed (H : Renaming r hookArguments N ρ) (hd : d.Renamed ρ N d')
    (hs : List.Forall₂ (Token.Renamed ρ N) s.arguments s'.arguments) (elseLabel : LabelId) :
    InStep ρ N Eq (beginBranch r s elseLabel) d (beginBranch r s' elseLabel) d' := by
  rw [beginBranch, beginBranch, isEmpty_renamed hs]
  split
  · exact together_pure hd rfl
  · refine (H.lockstep.newLabel hd).bind ?_
    rintro thenLabel _ d d' hd rfl
    refine (H.lockstep.newLabel hd).bind ?_
    rintro elseLabel _ d d' hd rfl
    refine (emitCondition_renamed H hd hs _ _).bind ?_
    rintro - - d d' hd -
    refine (H.lockstep.placeLabel hd _).bind ?_
    rintro - - d d' hd -
    exact together_pure hd rfl

theorem elseBranch_renamed (H : Renaming r hookArguments N ρ) (hd : d.Renamed ρ N d')
    (hs : List.Forall₂ (Token.Renamed ρ N) s.arguments s'.arguments) :
    InStep ρ N Eq (elseBranch r s) d (elseBranch r s') d' := by
  refine together_get_bind.mpr ?_
  obtain ⟨h, h'⟩ | ⟨block, span, outer, outer', h, h', houter⟩ := hd.blocks_cases <;> rw [h, h']
  · exact together_throw hd trivial
  · dsimp only
    split
    · exact together_throw hd trivial
    refine (emitNamed_renamed H hd (.cons (Argument.renamed_label _) .nil) _).bind ?_
    rintro - - d d' hd -
    refine (H.lockstep.placeLabel hd _).bind ?_
    rintro - - d d' hd -
    refine (beginBranch_renamed H hd hs _).bind ?_
    rintro ⟨branch, elseLabel⟩ _ d d' hd rfl
    exact together_modify { hd with blocks := .cons ⟨_, rfl⟩ houter }

theorem endBlock_renamed (H : Renaming r hookArguments N ρ) (hd : d.Renamed ρ N d')
    (hs : List.Forall₂ (Token.Renamed ρ N) s.arguments s'.arguments) :
    InStep ρ N Eq (endBlock s) d (endBlock s') d' := by
  rw [endBlock, endBlock, isEmpty_renamed hs]
  split
  · exact together_throw hd trivial
  refine together_get_bind.mpr ?_
  obtain ⟨h, h'⟩ | ⟨block, span, outer, outer', h, h', houter⟩ := hd.blocks_cases <;> rw [h, h']
  · exact together_throw hd trivial
  · refine (together_modify { hd with blocks := houter }).bind ?_
    rintro - - d d' hd -
    refine together_get_bind.mpr ?_
    rw [hd.buffer]
    split
    · refine (H.lockstep.placeLabel hd _).bind ?_
      rintro - - d d' hd -
      exact H.lockstep.placeLabel hd _
    · exact H.lockstep.placeLabel hd _

end

end Drafting

/-! ### Variables -/

section

variable {ts ts' : List Token}

theorem Draft.Renamed.inBlock (hd : d.Renamed ρ N d') : d'.inBlock = d.inBlock := by
  obtain ⟨h, h'⟩ | ⟨block, span, outer, outer', h, h', -⟩ := hd.blocks_cases
  · rw [Draft.inBlock, Draft.inBlock, h, h']
  · rw [Draft.inBlock, Draft.inBlock, h, h']
    rfl

/-- The type that a declaration names, with the kind of handle in front of it. -/
def Draft.namedType (r : Registry) (d : Draft) (handle : Option (TypeTag → ValueType))
    (type : Token) (rest : List Token) : Except CompileError.Kind (ValueType × List Token) :=
  match d.lookup r type.text with
  | some (.typeName base) => (variableType base handle).map fun type => (type, rest)
  | _ => .error (.invalidVariable (.unknownType type.text))

theorem Draft.declaredType_cons (r : Registry) (d : Draft) (first : Token) (rest : List Token) :
    d.declaredType r (first :: rest) =
      match handleOfName? first.text, rest with
      | none, rest => d.namedType r none first rest
      | some handle, type :: rest => d.namedType r (some handle) type rest
      | some _, [] => .error (.invalidVariable .missingTypeAfterPointer) := by
  rw [Draft.declaredType.eq_def]
  dsimp only
  generalize handleOfName? first.text = handle
  match handle, rest with
  | none, rest => rfl
  | some _, [] => rfl
  | some _, _ :: _ => rfl

theorem Renaming.namedType (H : Renaming r hookArguments N ρ) (hd : d.Renamed ρ N d')
    (handle : Option (TypeTag → ValueType)) (ht : t.Renamed ρ N t')
    (hts : List.Forall₂ (Token.Renamed ρ N) ts ts') :
    AnswersAlike (fun x x' => x'.1 = x.1 ∧ List.Forall₂ (Token.Renamed ρ N) x.2 x'.2)
      (d.namedType r handle t ts) (d'.namedType r handle t' ts') := by
  rw [Draft.namedType, Draft.namedType, ht.lookup H hd]
  split
  · cases variableType _ handle with
    | ok type => exact .ok ⟨rfl, hts⟩
    | error kind => exact .error trivial
  · exact .error trivial

/-- The words for kinds of handles are no names of the script, and neither are those for types. -/
theorem Renaming.declaredType (H : Renaming r hookArguments N ρ) (hd : d.Renamed ρ N d')
    (hts : List.Forall₂ (Token.Renamed ρ N) ts ts') :
    AnswersAlike (fun x x' => x'.1 = x.1 ∧ List.Forall₂ (Token.Renamed ρ N) x.2 x'.2)
      (d.declaredType r ts) (d'.declaredType r ts') := by
  cases hts with
  | nil => exact .error trivial
  | @cons first first' rest rest' hfirst hrest =>
    have hhandle : handleOfName? first'.text = handleOfName? first.text :=
      hfirst.agree H fun _ h => h.handle
    rw [Draft.declaredType_cons, Draft.declaredType_cons, hhandle]
    match handleOfName? first.text, hrest with
    | none, hrest => exact H.namedType hd none hfirst hrest
    | some _, .nil => exact .error trivial
    | some handle, .cons htype hrest => exact H.namedType hd (some handle) htype hrest

theorem Renaming.declaredName (H : Renaming r hookArguments N ρ) (hd : d.Renamed ρ N d')
    (hts : List.Forall₂ (Token.Renamed ρ N) ts ts') :
    AnswersAlike (fun x x' => x'.1 = ρ x.1 ∧ N x.1 ∧ List.Forall₂ (Token.Renamed ρ N) x.2 x'.2)
      (d.declaredName ts) (d'.declaredName ts') := by
  cases hts with
  | nil => exact .error trivial
  | cons hname hrest =>
    rw [Draft.declaredName, Draft.declaredName, hname.kind, hname.text, H.contains_dot, hd.inBlock]
    split
    · exact .error trivial
    · split
      · exact .error trivial
      · exact .ok ⟨rfl, hname.used, hrest⟩

theorem Renaming.initialToken (H : Renaming r hookArguments N ρ)
    (hts : List.Forall₂ (Token.Renamed ρ N) ts ts') :
    AnswersAlike (Option.Rel (Token.Renamed ρ N)) (Draft.initialToken ts)
      (Draft.initialToken ts') := by
  cases hts with
  | nil => exact .ok .none
  | @cons first first' _ _ hfirst hrest =>
    have hequals : first'.text = "=" ↔ first.text = "=" :=
      iff_of_eq (hfirst.agree (f := (· = "=")) H fun _ h => eq_false h.equals)
    rw [Draft.initialToken.eq_def, Draft.initialToken.eq_def]
    dsimp only
    by_cases h : first.text = "="
    · rw [if_pos h, if_pos (hequals.mpr h)]
      match hrest with
      | .nil => exact .error trivial
      | .cons hvalue .nil => exact .ok (.some hvalue)
      | .cons _ (.cons _ _) => exact .error trivial
    · rw [if_neg h, if_neg (mt hequals.mp h)]
      cases hrest with
      | nil => exact .ok (.some hfirst)
      | cons => exact .error trivial

theorem Renaming.initialValue (H : Renaming r hookArguments N ρ) (hd : d.Renamed ρ N d')
    (type : ValueType) {token token' : Option Token}
    (htoken : Option.Rel (Token.Renamed ρ N) token token') :
    AnswersAlike (Option.Rel (Argument.Renamed ρ N)) (d.initialValue r type token)
      (d'.initialValue r type token') := by
  cases htoken with
  | none => exact .ok .none
  | some ht =>
    rw [Draft.initialValue, Draft.initialValue]
    split
    · exact (ht.resolve H hd).bind fun _ _ ha => .ok (.some ha)
    · exact .error trivial

end

namespace Drafting

theorem declareVariable_renamed (H : Renaming r hookArguments N ρ) (hd : d.Renamed ρ N d')
    {name : String} (hn : N name) (type : ValueType) :
    InStep ρ N Eq (declareVariable r name type) d (declareVariable r (ρ name) type) d' := by
  refine together_get_bind.mpr ?_
  dsimp only
  rw [H.lookup hd hn, hd.nextRegister]
  split
  · exact together_throw hd trivial
  split
  · exact together_throw hd trivial
  simp only [SymbolTable.insert, hd.names hn]
  cases hfind : d.locals.find? name with
  | some _ => exact together_throw hd trivial
  | none =>
    refine (together_modify ?_).bind ?_
    · exact { H.lockstep.insert hd hn _ with nextRegister := congrArg (· + 1) hd.nextRegister }
    rintro - - d d' hd -
    refine (together_modify (H.lockstep.touch hd _)).bind ?_
    rintro - - d d' hd -
    exact together_pure hd rfl

theorem declaration_renamed (H : Renaming r hookArguments N ρ) (hd : d.Renamed ρ N d')
    {s s' : Statement} (hs : List.Forall₂ (Token.Renamed ρ N) s.arguments s'.arguments) :
    InStep ρ N Eq (declaration r s) d (declaration r s') d' := by
  refine together_get_bind.mpr ?_
  refine (together_ofExcept hd (H.declaredType hd hs)).bind ?_
  rintro ⟨_, rest⟩ ⟨type, rest'⟩ e e' he ⟨rfl, hrest⟩
  refine (together_ofExcept he (H.declaredName hd hrest)).bind ?_
  rintro ⟨name, rest⟩ ⟨_, rest'⟩ e e' he ⟨rfl, hn, hrest⟩
  refine (together_ofExcept he (H.initialToken hrest)).bind ?_
  rintro token token' e e' he htoken
  refine (together_ofExcept he (H.initialValue hd _ htoken)).bind ?_
  rintro value value' e e' he hvalue
  refine (declareVariable_renamed H he hn _).bind ?_
  rintro index _ e e' he rfl
  cases hvalue with
  | none => exact together_pure he rfl
  | some ha =>
    have hindex : Argument.Renamed ρ N (.register index type true) (.register index type true) :=
      .known nofun
    exact emitNamed_renamed H he (.cons hindex (.cons ha .nil)) _

end Drafting

end HookScript
