/-
Names do not matter.

The statements of a script keep what they do if its own variables and labels are called something
else, and so does the script.

* `Statement.Renamed` and `Script.Renamed` — the same with other names;
* `Drafting.statement_renamed` — a statement leads from drafts that are the same but for names to
  such drafts;
* `names_do_not_matter` — hence a script and the same script with other names are compiled to the
  same program, or neither is.
-/
import HookScript.Proofs.Compile.Renaming
import HookScript.Proofs.Compile.Soundness
import HookScript.Proofs.Registry.Functions
import HookScript.Proofs.Statement.Kinds

namespace HookScript

open Drafting (splitMember?)

/-! ### Statements and scripts with other names -/

/-- The name of an operation with another name for the object that it may be a member of. -/
def renamedOperation (ρ : String → String) (name : String) : String :=
  match splitMember? name with
  | some (object, member) => ρ object ++ member
  | none => name

namespace Statement

/-- What stands in the statement where names of variables and labels do. -/
def names (s : Statement) : List String :=
  (s.label.map (·.text)).toList ++ s.arguments.map (·.text) ++
    ((splitMember? s.name.text).map (·.1)).toList

theorem text_mem_names_of_label {s : Statement} {t : Token} (h : s.label = some t) :
    t.text ∈ s.names := by
  simp [names, h]

theorem text_mem_names {s : Statement} {t : Token} (h : t ∈ s.arguments) : t.text ∈ s.names :=
  List.mem_append_left _ (List.mem_append_right _ (List.mem_map_of_mem h))

theorem object_mem_names {s : Statement} {object member : String}
    (h : splitMember? s.name.text = some (object, member)) : object ∈ s.names := by
  simp [names, h]

/-- The second statement is the first one with other names. -/
structure Renamed (ρ : String → String) (s s' : Statement) : Prop where
  label : s'.label.map (·.text) = s.label.map fun t => ρ t.text
  name : s'.name.text = renamedOperation ρ s.name.text
  arguments : s'.arguments.map (·.written) = s.arguments.map fun t => (t.kind, ρ t.text)

instance (ρ : String → String) (s s' : Statement) : Decidable (s.Renamed ρ s') :=
  decidable_of_iff (s'.label.map (·.text) = s.label.map (fun t => ρ t.text) ∧
      s'.name.text = renamedOperation ρ s.name.text ∧
      s'.arguments.map (·.written) = s.arguments.map fun t => (t.kind, ρ t.text))
    ⟨fun ⟨label, name, arguments⟩ => ⟨label, name, arguments⟩,
      fun ⟨label, name, arguments⟩ => ⟨label, name, arguments⟩⟩

end Statement

namespace Script

/-- What stands in the script where names of variables and labels do. -/
def names (limit : Nat) (source : String) : List String :=
  (Statement.readAll limit (tokenize source)).flatMap fun
    | .ok s => s.names
    | .error _ => []

/-- The second script is the first one with other names: its tokens are of the same kinds, and
statements in the same places are the same but for the names. -/
structure Renamed (limit : Nat) (ρ : String → String) (source source' : String) : Prop where
  kinds : (tokenize source').map (·.kind) = (tokenize source).map (·.kind)
  statements : ∀ s s', (.ok s, .ok s') ∈ (Statement.readAll limit (tokenize source)).zip
    (Statement.readAll limit (tokenize source')) → s.Renamed ρ s'

end Script

variable {r : Registry} {hookArguments : List HookArgument} {N : String → Prop}
  {ρ : String → String} {d d' : Draft}

/-! ### Statements -/

theorem Statement.Renamed.tokens {s s' : Statement} (h : s.Renamed ρ s')
    (used : ∀ name ∈ s.names, N name) :
    List.Forall₂ (Token.Renamed ρ N) s.arguments s'.arguments := by
  have hwritten := h.arguments
  have hused : ∀ t ∈ s.arguments, N t.text := fun t ht => used _ (Statement.text_mem_names ht)
  generalize s.arguments = ts, s'.arguments = ts' at hwritten hused
  induction ts generalizing ts' with
  | nil =>
    rw [List.map_eq_nil_iff.mp hwritten]
    exact .nil
  | cons t ts ih =>
    obtain ⟨t', ts', rfl, ht, hts⟩ := List.map_eq_cons_iff.mp hwritten
    obtain ⟨hkind, htext⟩ := Prod.mk.inj ht
    obtain ⟨hn, hused⟩ := List.forall_mem_cons.mp hused
    exact .cons ⟨hkind, htext, hn⟩ (ih _ hts hused)

namespace Renaming

/-- The other name of a member is cut in the same place. -/
theorem splitMember? (H : Renaming r hookArguments N ρ) (name : String) :
    Drafting.splitMember? (renamedOperation ρ name)
      = (Drafting.splitMember? name).map fun (object, member) => (ρ object, member) := by
  rw [renamedOperation]
  cases h : Drafting.splitMember? name with
  | none => exact h
  | some cut =>
    obtain ⟨object, member⟩ := cut
    obtain ⟨hdot, hmember, -⟩ := Drafting.splitMember?_eq_some_iff.mp h
    have hdot' : '.' ∉ (ρ object).toList := by
      rwa [← List.contains_iff_mem, H.contains_dot, List.contains_iff_mem]
    exact Drafting.splitMember?_eq_some_iff.mpr ⟨hdot', hmember, rfl⟩

theorem operation?_eq_none {object member name : String} (hs : r.Spare hookArguments object)
    (h : Drafting.splitMember? name = some (object, member)) : r.operation? name = none := by
  rw [Option.eq_none_iff_forall_ne_some]
  intro op hop
  refine hs.operation (name, op) (NameTable.find?_eq_some_iff.mp hop) ?_
  rw [h]
  rfl

/-- Operations are called the same: none is called like a member of what has another name. -/
theorem operation? (H : Renaming r hookArguments N ρ) (name : String) :
    r.operation? (renamedOperation ρ name) = r.operation? name := by
  have hsplit := H.splitMember? name
  cases h : Drafting.splitMember? name with
  | none => rw [renamedOperation, h]
  | some cut =>
    obtain ⟨object, member⟩ := cut
    rw [h, Option.map_some] at hsplit
    by_cases hobject : ρ object = object
    · rw [renamedOperation, h]
      dsimp only
      rw [hobject, (Drafting.splitMember?_eq_some_iff.mp h).2.2]
    · rw [operation?_eq_none (H.new hobject) hsplit, operation?_eq_none (H.old hobject) h]

/-- The member of an object is the same operation on the same object. -/
theorem memberOperation? (H : Renaming r hookArguments N ρ) (hd : d.Renamed ρ N d')
    {name : String} (hn : ∀ object member, Drafting.splitMember? name = some (object, member) →
      N object) :
    Drafting.memberOperation? r d' (renamedOperation ρ name)
      = Drafting.memberOperation? r d name := by
  rw [Drafting.memberOperation?, Drafting.memberOperation?, H.splitMember? name]
  cases h : Drafting.splitMember? name with
  | none => rfl
  | some cut =>
    simp only [Option.map_some, Option.bind_eq_bind, Option.bind_some,
      H.lookup hd (hn _ _ h)]

end Renaming

namespace Drafting

variable {s s' : Statement}

theorem statementOf_renamed (own : r.OwnForms) (H : Renaming r hookArguments N ρ)
    (hd : d.Renamed ρ N d') (hs : List.Forall₂ (Token.Renamed ρ N) s.arguments s'.arguments)
    {name : String} {op : Operation} (hop : r.operation? name = some op) :
    InStep ρ N Eq (statementOf r op s) d (statementOf r op s') d' := by
  rw [statementOf, statementOf]
  cases hform : op.form with
  | call =>
    refine together_get_bind.mpr ((together_ofExcept hd (H.resolveAll hd hs)).bind ?_)
    rintro arguments arguments' e e' he harguments
    exact emit_renamed H he harguments op
  | ifBlock => exact ifBlock_renamed H hd hs
  | elseBranch => exact elseBranch_renamed H hd hs
  | endBlock => exact endBlock_renamed H hd hs
  | declaration => exact declaration_renamed H hd hs
  | custom form => exact absurd hform (own name op hop form)

/-- A statement with other names does the same. -/
theorem statement_renamed (own : r.OwnForms) (H : Renaming r hookArguments N ρ)
    (hd : d.Renamed ρ N d') (hs : s.Renamed ρ s') (used : ∀ name ∈ s.names, N name) :
    InStep ρ N Eq (statement r s) d (statement r s') d' := by
  have htokens := hs.tokens used
  have hspan : Draft.Renamed ρ N { d with span := s.span } { d' with span := s'.span } :=
    { hd with }
  refine (together_modify hspan).bind ?_
  rintro - - d d' hd -
  have hlabel : ∀ label, s.label = some label → N label.text ∧
      d'.lookup r (ρ label.text) = d.lookup r label.text := fun label h =>
    have hn := used _ (Statement.text_mem_names_of_label h)
    ⟨hn, H.lookup hd hn⟩
  refine (H.lockstep.statementLabel hd hs.label hlabel).bind ?_
  rintro ⟨⟩ ⟨⟩ d d' hd -
  dsimp only
  rw [hs.name, H.operation?]
  cases hop : r.operation? s.name.text with
  | some op => exact statementOf_renamed own H hd htokens hop
  | none =>
    dsimp only
    refine together_get_bind.mpr ?_
    rw [H.memberOperation? hd fun object member h => used _ (Statement.object_mem_names h)]
    cases hm : memberOperation? r d s.name.text with
    | none => exact together_throw hd trivial
    | some found =>
      obtain ⟨op, object⟩ := found
      obtain ⟨-, meaning, -, -, rfl⟩ := memberOperation?_eq_some hm
      refine together_get_bind.mpr ((together_ofExcept hd (H.resolveAll hd htokens)).bind ?_)
      rintro arguments arguments' e e' he harguments
      exact emit_renamed H he (.cons (Argument.renamed_ofMeaning meaning) harguments) op

end Drafting

/-! ### Scripts -/

/-- The answers of the reader are statements that are the same but for names, or errors. -/
theorem Script.Renamed.readings {limit : Nat} {source source' : String}
    (h : Script.Renamed limit ρ source source') :
    List.Forall₂ (AnswersAlike (Statement.Renamed ρ)) (Statement.readAll limit (tokenize source))
      (Statement.readAll limit (tokenize source')) := by
  obtain ⟨hlength, hshape⟩ := List.forall₂_iff_zip.mp (Statement.readAll_alike limit h.kinds)
  refine List.forall₂_iff_zip.mpr ⟨hlength, fun {answer answer'} hmem => ?_⟩
  have hok := hshape hmem
  match answer, answer', hok with
  | .ok s, .ok s', _ => exact .ok (h.statements s s' hmem)
  | .error e, .error e', _ => exact .error trivial

namespace Draft

theorem compileAll_renamed (own : r.OwnForms) (H : Renaming r hookArguments N ρ)
    {source source' : String} {readings readings' : List (Except SyntaxError Statement)}
    (h : List.Forall₂ (AnswersAlike (Statement.Renamed ρ)) readings readings')
    (used : ∀ s : Statement, .ok s ∈ readings → ∀ name ∈ s.names, N name) (hd : d.Renamed ρ N d') :
    AnswersAlike (Draft.Renamed ρ N) (d.compileAll r source readings)
      (d'.compileAll r source' readings') := by
  induction h generalizing d d' with
  | nil => exact .ok hd
  | cons hfirst _ ih =>
    cases hfirst with
    | error => exact .error trivial
    | ok hs =>
      have hstep := Drafting.statement_renamed own H hd hs (used _ List.mem_cons_self)
      rw [Draft.compileAll, Draft.compileAll]
      obtain ⟨_, e, _, e', hx, hx', he, -⟩ | ⟨_, e, _, e', hx, hx', -⟩ := hstep.cases
      · rw [hx, hx']
        exact ih (fun s hmem => used s (List.mem_cons_of_mem _ hmem)) he
      · rw [hx, hx']
        exact .error trivial

theorem Renamed.toProgram (hd : d.Renamed ρ N d') : d'.toProgram = d.toProgram := by
  rw [Draft.toProgram, Draft.toProgram, hd.buffer, hd.registersUsed, hd.natives]

/-- The one script can be closed just if the other can. -/
theorem Renamed.openEnd? (hd : d.Renamed ρ N d') : d'.openEnd?.isSome = d.openEnd?.isSome := by
  have hforward : ∀ d : Draft, d.undeclared?.isSome
      = ((d.forward.map (·.label)).find? fun label => !d.buffer.isDefined label).isSome := by
    intro d
    rw [Array.find?_map, Option.isSome_map]
    rfl
  obtain ⟨h, h'⟩ | ⟨block, span, outer, outer', h, h', -⟩ := hd.blocks_cases <;>
    rw [Draft.openEnd?, Draft.openEnd?, h, h']
  · dsimp only
    rw [Option.isSome_map, Option.isSome_map, hforward, hforward, hd.forward, hd.buffer]
  · rfl

theorem finish_renamed (H : Renaming r hookArguments N ρ) (source source' : String)
    (hd : d.Renamed ρ N d') :
    AnswersAlike Eq (d.finish r source) (d'.finish r source') := by
  have hend := hd.openEnd?
  rw [Draft.finish, Draft.finish]
  cases h : d.openEnd? with
  | some fault =>
    rw [h] at hend
    obtain ⟨fault', h'⟩ := Option.isSome_iff_exists.mp hend
    rw [h']
    exact .error trivial
  | none =>
    rw [h, Option.isSome_none, Option.isSome_eq_false_iff, Option.isNone_iff_eq_none] at hend
    rw [hend]
    obtain ⟨⟨⟩, e, ⟨⟩, e', hx, hx', he, -⟩ | ⟨_, _, _, _, hx, hx', -⟩ :=
      (Drafting.emitNamed_renamed H hd .nil Builtin.exit.name).cases
    · dsimp only
      rw [hx, hx']
      dsimp only
      rw [he.toProgram]
      cases e.toProgram with
      | ok p => exact .ok rfl
      | error => exact .error trivial
    · dsimp only
      rw [hx, hx']
      exact .error trivial

end Draft

/-- Before the first statement there are only the arguments of the hook, which keep their names. -/
theorem Renaming.start (H : Renaming r hookArguments N ρ)
    (h : Draft.start r hookArguments = .ok d) : d.Renamed ρ N d where
  names {name} _ := H.agree (f := d.locals.find?) (a := none) (fun _ spare => by
    rw [Option.eq_none_iff_forall_ne_some]
    intro meaning hmeaning
    obtain ⟨j, a, hj, hname, -⟩ := Draft.argument_of_start h hmeaning
    exact spare.argument a (List.mem_of_getElem? hj) hname) name
  buffer := rfl
  natives := rfl
  nextRegister := rfl
  registersUsed := rfl
  blocks := List.forall₂_same.mpr fun b _ => ⟨b.span, rfl⟩
  forward := rfl

/-- A script with other names for its own variables and labels is compiled just if the script itself
is, and to the same program: the same code, as many registers, the same host functions. -/
theorem names_do_not_matter {r : Registry} (own : r.OwnForms) (hook : Option HookSignature)
    {source source' : String} {ρ : String → String}
    (H : Renaming r ((hook.map (·.arguments)).getD [])
      (· ∈ Script.names r.config.maxArguments source) ρ)
    (h : Script.Renamed r.config.maxArguments ρ source source') (p : Program) :
    compile r hook source' = .ok p ↔ compile r hook source = .ok p := by
  have halike : AnswersAlike Eq (compile r hook source) (compile r hook source') := by
    rw [compile, compile, compileWith, compileWith]
    cases hstart : Draft.start r ((hook.map (·.arguments)).getD []) with
    | error kind => exact .error trivial
    | ok d =>
      refine (Draft.compileAll_renamed own H h.readings ?_ (H.start hstart)).bind ?_
      · exact fun s hs name hname => List.mem_flatMap_of_mem hs hname
      · exact fun e e' he => Draft.finish_renamed H source source' he
  generalize compile r hook source = answer, compile r hook source' = answer' at halike
  cases halike with
  | ok heq => rw [heq]
  | error => simp

/-- A type of units whose health scripts can set. -/
def woundingRequests : List Registration.Request :=
  [.type ⟨"Unit"⟩ "Unit",
    .setter ⟨"Unit"⟩ "setHealth" fun fields health => fields.setIfInBounds 0 health]

/-- A script with variables and a label. -/
def woundingScript : String :=
  "var int n 3; var ptre Unit u; on: u.setHealth n; goto on;"

/-- The script with other names, of which two are names of the first script. -/
def woundingScript' : String :=
  "var int on 3; var ptre Unit it; n: it.setHealth on; goto n;"

/-- What the names of the first script are called in the second one. -/
def woundingNames : List (String × String) :=
  [("n", "on"), ("on", "n"), ("u", "it")]

theorem names_do_not_matter_woundingScript : ∃ (r : Registry) (p : Program), r.Built ∧ r.OwnForms ∧
    Renaming r [] (· ∈ Script.names r.config.maxArguments woundingScript)
      (renamingOf woundingNames) ∧
    Script.Renamed r.config.maxArguments (renamingOf woundingNames) woundingScript
      woundingScript' ∧
    compile r none woundingScript = .ok p ∧ compile r none woundingScript' = .ok p := by
  obtain ⟨r₀, hr₀, h⟩ := Registry.exists_standard {} (fun r₀ =>
    let r := r₀.throughout woundingRequests
    r.operations.toList.all (fun op => !op.2.form.isCustom) &&
      decide (∀ p ∈ woundingNames, r.Spare [] p.1 ∧ r.Spare [] p.2) &&
      decide (∀ name ∈ Script.names r.config.maxArguments woundingScript, ∀ p ∈ woundingNames,
        p.2 = name → renamingOf woundingNames name ≠ name) &&
      ((Statement.readAll r.config.maxArguments (tokenize woundingScript)).zip
        (Statement.readAll r.config.maxArguments (tokenize woundingScript'))).all (fun
          | (.ok s, .ok s') => decide (s.Renamed (renamingOf woundingNames) s')
          | _ => false) &&
      (compile r none woundingScript).toOption.any fun _ => true) (by decide +kernel)
  simp only [Bool.and_eq_true, decide_eq_true_eq] at h
  obtain ⟨⟨⟨⟨hown, hspare⟩, hfresh⟩, hstatements⟩, hp⟩ := h
  obtain ⟨p, hp, -⟩ := exists_ok hp
  have built := (r₀.later_throughout woundingRequests).built (.of_standard hr₀)
  have own := Registry.ownForms_of_all hown
  have names := Renaming.of_pairs (by decide) (fun p hp used => hfresh p.2 used p hp rfl)
    (fun p hp => (hspare p hp).1) fun p hp => (hspare p hp).2
  have renamed : Script.Renamed _ (renamingOf woundingNames) woundingScript woundingScript' :=
    ⟨by decide +kernel, fun s s' hmem => of_decide_eq_true (List.all_eq_true.mp hstatements _ hmem)⟩
  exact ⟨_, p, built, own, names, renamed, hp,
    (names_do_not_matter own none names renamed p).mpr hp⟩

end HookScript
