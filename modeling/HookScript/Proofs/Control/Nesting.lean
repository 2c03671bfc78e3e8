/-
Which statements may follow each other.

A statement may stand where the chains that are open allow it: an `else` needs a chain whose open
branch has a condition, an `end` needs a chain, and variables are declared where no chain is open.
What the open chains are behind statements in a row can be told from the statements alone.

* `Registry.nest?` and `Registry.nestAll?` — the chains that are open behind statements;
* `Registry.Offends` — what is wrong with a statement that may not stand where it does;
* `Registry.FirstOffence` — the first such statement;
* `Body.DeclaresOutside` — the trees whose chains declare no variables;
* `Registry.nestAll?_eq_nil_iff` — statements that leave no chain open are those of such trees.
-/
import HookScript.Proofs.Control.Reading

namespace HookScript

/-! ### Open chains -/

/-- A chain that has not come to its end: the statement that opened it, and which of its branches is
open. -/
structure OpenChain where
  opening : Statement
  branch : Branch

namespace Registry

variable {r : Registry} {opened opened' : List OpenChain} {s : Statement}

/-- The chains that are open behind a statement, the innermost first, if it may stand behind those
that are open in front of it. -/
def nest? (r : Registry) (opened : List OpenChain) (s : Statement) : Option (List OpenChain) :=
  match r.formOf s with
  | .call => some opened
  | .declaration => if opened.isEmpty then some [] else none
  | .ifBlock => some (⟨s, .conditional⟩ :: opened)
  | .elseBranch =>
    match opened with
    | ⟨opening, .conditional⟩ :: outer =>
      some (⟨opening, if s.arguments.isEmpty then .last else .conditional⟩ :: outer)
    | _ => none
  | .endBlock => opened.tail?
  | .custom _ => none

/-- The chains that are open behind statements in a row, if each may stand where it does. -/
def nestAll? (r : Registry) (opened : List OpenChain) (statements : List Statement) :
    Option (List OpenChain) :=
  statements.foldlM r.nest? opened

theorem nest?_call (h : r.formOf s = .call) : r.nest? opened s = some opened := by
  simp only [nest?, h]

theorem nest?_declaration (h : r.formOf s = .declaration) :
    r.nest? opened s = if opened.isEmpty then some [] else none := by
  simp only [nest?, h]

theorem nest?_if (h : r.formOf s = .ifBlock) :
    r.nest? opened s = some (⟨s, .conditional⟩ :: opened) := by
  simp only [nest?, h]

theorem nest?_else (h : r.formOf s = .elseBranch) (opening : Statement) (outer : List OpenChain) :
    r.nest? (⟨opening, .conditional⟩ :: outer) s
      = some (⟨opening, if s.arguments.isEmpty then .last else .conditional⟩ :: outer) := by
  simp only [nest?, h]

theorem nest?_end (h : r.formOf s = .endBlock) : r.nest? opened s = opened.tail? := by
  simp only [nest?, h]

@[simp] theorem nestAll?_nil : r.nestAll? opened [] = some opened := rfl

theorem nestAll?_cons_eq_some {rest : List Statement} :
    r.nestAll? opened (s :: rest) = some opened' ↔
      ∃ opened₁, r.nest? opened s = some opened₁ ∧ r.nestAll? opened₁ rest = some opened' := by
  rw [nestAll?, List.foldlM_cons]
  exact Option.bind_eq_some_iff

theorem nestAll?_append_eq_some {done rest : List Statement} :
    r.nestAll? opened (done ++ rest) = some opened' ↔
      ∃ opened₁, r.nestAll? opened done = some opened₁ ∧
        r.nestAll? opened₁ rest = some opened' := by
  rw [nestAll?, List.foldlM_append]
  exact Option.bind_eq_some_iff

/-- A chain that is open behind a statement was open before, or the statement opens it. -/
theorem opening_of_nest? (h : r.nest? opened s = some opened') {chain : OpenChain}
    (hm : chain ∈ opened') : chain.opening ∈ opened.map OpenChain.opening ∨
      chain.opening = s ∧ r.formOf s = .ifBlock := by
  cases hform : r.formOf s with
  | call =>
    rw [nest?_call hform] at h
    cases h
    exact .inl (List.mem_map_of_mem hm)
  | declaration =>
    rw [nest?_declaration hform] at h
    split at h <;> cases h
    cases hm
  | ifBlock =>
    rw [nest?_if hform] at h
    cases h
    rcases List.mem_cons.mp hm with rfl | hm
    · exact .inr ⟨rfl, rfl⟩
    · exact .inl (List.mem_map_of_mem hm)
  | elseBranch =>
    match opened, h with
    | ⟨opening, .conditional⟩ :: outer, h =>
      rw [nest?_else hform] at h
      cases h
      rcases List.mem_cons.mp hm with rfl | hm
      · exact .inl List.mem_cons_self
      · exact .inl (List.mem_cons_of_mem _ (List.mem_map_of_mem hm))
    | ⟨opening, .last⟩ :: outer, h | [], h => simp [nest?, hform] at h
  | endBlock =>
    rw [nest?_end hform] at h
    cases opened with
    | nil => cases h
    | cons innermost outer =>
      cases h
      exact .inl (List.mem_cons_of_mem _ (List.mem_map_of_mem hm))
  | custom form => simp [nest?, hform] at h

/-- A chain that is open behind statements was open before, or one of them opens it. -/
theorem opening_of_nestAll? {statements : List Statement}
    (h : r.nestAll? opened statements = some opened') {chain : OpenChain} (hm : chain ∈ opened') :
    chain.opening ∈ opened.map OpenChain.opening ∨
      chain.opening ∈ statements ∧ r.formOf chain.opening = .ifBlock := by
  induction statements generalizing opened with
  | nil =>
    cases h
    exact .inl (List.mem_map_of_mem hm)
  | cons s rest ih =>
    obtain ⟨opened₁, hs, hrest⟩ := nestAll?_cons_eq_some.mp h
    rcases ih hrest with hm₁ | ⟨hmem, hform⟩
    · obtain ⟨chain₁, hchain₁, heq⟩ := List.mem_map.mp hm₁
      rcases opening_of_nest? hs hchain₁ with hold | ⟨hopening, hform⟩
      · exact .inl (heq ▸ hold)
      · rw [← heq, hopening]
        exact .inr ⟨List.mem_cons_self, hform⟩
    · exact .inr ⟨List.mem_cons_of_mem _ hmem, hform⟩

/-! ### Statements that may not stand where they do -/

/-- The statement may not stand behind the open chains, for the given reason. -/
inductive Offends (r : Registry) : List OpenChain → Statement → CompileError.Kind → Prop where
  | unexpectedElse {s : Statement} (form : r.formOf s = .elseBranch) :
      Offends r [] s .unexpectedElse
  | unexpectedEnd {s : Statement} (form : r.formOf s = .endBlock) : Offends r [] s .unexpectedEnd
  /-- there has been the branch without a condition, which is the last -/
  | duplicateElse {opening s : Statement} {outer : List OpenChain}
      (form : r.formOf s = .elseBranch) : Offends r (⟨opening, .last⟩ :: outer) s .duplicateElse
  | variableInBlock {s : Statement} {chain : OpenChain} {outer : List OpenChain} {name : String}
      (form : r.formOf s = .declaration)
      (declares : Draft.declaredVariable? s.arguments = some name) :
      Offends r (chain :: outer) s (.variableInBlock name)

/-- The statement is the first one that may not stand where it does. -/
inductive FirstOffence (r : Registry) :
    List OpenChain → List Statement → Statement → CompileError.Kind → Prop where
  | here {opened : List OpenChain} {s : Statement} {rest : List Statement}
      {kind : CompileError.Kind} (offends : r.Offends opened s kind) :
      FirstOffence r opened (s :: rest) s kind
  | later {opened opened₁ : List OpenChain} {s s' : Statement} {rest : List Statement}
      {kind : CompileError.Kind} (nests : r.nest? opened s = some opened₁)
      (tail : FirstOffence r opened₁ rest s' kind) : FirstOffence r opened (s :: rest) s' kind

theorem Offends.nest?_eq_none {kind : CompileError.Kind} (h : r.Offends opened s kind) :
    r.nest? opened s = none := by
  cases h with
  | unexpectedElse form | duplicateElse form => simp only [nest?, form]
  | unexpectedEnd form => rw [nest?_end form, List.tail?_nil]
  | variableInBlock form => rw [nest?_declaration form, List.isEmpty_cons, if_neg nofun]

theorem Offends.unique {kind kind' : CompileError.Kind} (h : r.Offends opened s kind)
    (h' : r.Offends opened s kind') : kind = kind' := by
  cases h with
  | unexpectedElse form =>
    cases h' with
    | unexpectedElse => rfl
    | unexpectedEnd form' => cases form.symm.trans form'
  | unexpectedEnd form =>
    cases h' with
    | unexpectedElse form' => cases form.symm.trans form'
    | unexpectedEnd => rfl
  | duplicateElse form =>
    cases h' with
    | duplicateElse => rfl
    | variableInBlock form' => cases form.symm.trans form'
  | variableInBlock form declares =>
    cases h' with
    | duplicateElse form' => cases form.symm.trans form'
    | variableInBlock _ declares' => rw [Option.some.inj (declares.symm.trans declares')]

namespace FirstOffence

variable {statements : List Statement} {kind : CompileError.Kind}

theorem nestAll?_eq_none (h : r.FirstOffence opened statements s kind) :
    r.nestAll? opened statements = none := by
  induction h with
  | here offends => rw [nestAll?, List.foldlM_cons, offends.nest?_eq_none]; rfl
  | later nests _ ih => rw [nestAll?, List.foldlM_cons, nests]; exact ih

/-- The first offence is one statement with one error. -/
theorem unique {s' : Statement} {kind' : CompileError.Kind}
    (h : r.FirstOffence opened statements s kind)
    (h' : r.FirstOffence opened statements s' kind') : s = s' ∧ kind = kind' := by
  induction h with
  | here offends =>
    cases h' with
    | here offends' => exact ⟨rfl, offends.unique offends'⟩
    | later nests => cases offends.nest?_eq_none.symm.trans nests
  | later nests _ ih =>
    cases h' with
    | here offends => cases offends.nest?_eq_none.symm.trans nests
    | later nests' tail =>
      cases nests.symm.trans nests'
      exact ih tail

end FirstOffence

end Registry

/-! ### Trees -/

/-- No statement of a chain declares a variable. -/
def Body.DeclaresOutside (r : Registry) : Body → Prop
  | .done => True
  | .plain _ rest => rest.DeclaresOutside r
  | .chain _ branch others rest =>
    (∀ s ∈ branch.statements ++ others.statements, r.formOf s ≠ .declaration) ∧
      rest.DeclaresOutside r

section

variable {r : Registry} {opened' : List OpenChain}

open Registry

mutual

/-- Inside a chain, a body leaves the same chains open if it declares no variables. -/
theorem Body.nestAll?_inside_iff (body : Body) (hread : body.ReadBy r) {chain : OpenChain}
    {outer : List OpenChain} {opened' : List OpenChain} :
    r.nestAll? (chain :: outer) body.statements = some opened' ↔
      opened' = chain :: outer ∧ ∀ s ∈ body.statements, r.formOf s ≠ .declaration := by
  match body, hread with
  | .done, _ => simp [Body.statements, eq_comm]
  | .plain s rest, ⟨hs, hrest⟩ =>
    rw [Body.statements, nestAll?_cons_eq_some, List.forall_mem_cons]
    cases hform : r.formOf s with
    | call => simp [nest?_call hform, rest.nestAll?_inside_iff hrest]
    | declaration => simp [nest?_declaration hform]
    | ifBlock | elseBranch | endBlock | custom _ =>
      rw [hform] at hs
      exact hs.elim
  | .chain opening branch others rest, ⟨hopening, hbranch, hothers, hrest⟩ =>
    rw [Body.statements, nestAll?_cons_eq_some, List.forall_mem_cons, List.forall_mem_append,
      List.forall_mem_append]
    simp [nest?_if hopening, hopening, nestAll?_append_eq_some,
      branch.nestAll?_inside_iff hbranch, others.nestAll?_iff hothers,
      rest.nestAll?_inside_iff hrest]
    tauto

/-- What follows the first branch of a chain closes it, if it declares no variables. -/
theorem Others.nestAll?_iff (others : Others) (hread : others.ReadBy r) {opening : Statement}
    {outer : List OpenChain} {opened' : List OpenChain} :
    r.nestAll? (⟨opening, .conditional⟩ :: outer) others.statements = some opened' ↔
      opened' = outer ∧ ∀ s ∈ others.statements, r.formOf s ≠ .declaration := by
  match others, hread with
  | .close closing, hclosing =>
    have hclosing : r.formOf closing = .endBlock := hclosing
    rw [Others.statements, nestAll?_cons_eq_some]
    simp [nest?_end hclosing, hclosing, eq_comm]
  | .last s branch closing, ⟨hs, harguments, hbranch, hclosing⟩ =>
    rw [Others.statements, nestAll?_cons_eq_some, List.forall_mem_cons, List.forall_mem_append]
    simp [nest?_else hs, hs, harguments, nestAll?_append_eq_some, nestAll?_cons_eq_some,
      branch.nestAll?_inside_iff hbranch, nest?_end hclosing, hclosing]
    tauto
  | .next s branch others, ⟨hs, harguments, hbranch, hothers⟩ =>
    rw [Others.statements, nestAll?_cons_eq_some, List.forall_mem_cons, List.forall_mem_append]
    simp [nest?_else hs, hs, harguments, nestAll?_append_eq_some,
      branch.nestAll?_inside_iff hbranch, others.nestAll?_iff hothers]
    tauto

end

/-- Outside of chains, a body leaves no chain open if its chains declare no variables. -/
theorem Body.nestAll?_outside_iff (body : Body) (hread : body.ReadBy r)
    {opened' : List OpenChain} :
    r.nestAll? [] body.statements = some opened' ↔ opened' = [] ∧ body.DeclaresOutside r := by
  match body, hread with
  | .done, _ => simp [Body.statements, Body.DeclaresOutside, eq_comm]
  | .plain s rest, ⟨hs, hrest⟩ =>
    rw [Body.statements, nestAll?_cons_eq_some]
    cases hform : r.formOf s with
    | call => simp [nest?_call hform, rest.nestAll?_outside_iff hrest, Body.DeclaresOutside]
    | declaration =>
      simp [nest?_declaration hform, rest.nestAll?_outside_iff hrest, Body.DeclaresOutside]
    | ifBlock | elseBranch | endBlock | custom _ =>
      rw [hform] at hs
      exact hs.elim
  | .chain opening branch others rest, ⟨hopening, hbranch, hothers, hrest⟩ =>
    rw [Body.statements, nestAll?_cons_eq_some, Body.DeclaresOutside, List.forall_mem_append]
    simp [nest?_if hopening, nestAll?_append_eq_some, branch.nestAll?_inside_iff hbranch,
      others.nestAll?_iff hothers, rest.nestAll?_outside_iff hrest]
    tauto

end

namespace Registry

variable {r : Registry}

/-- Statements that close all chains complete those that are open in front of them. -/
theorem completes_of_nestAll? {opened : List OpenChain} {statements : List Statement}
    (h : r.nestAll? opened statements = some []) :
    Completes r (opened.map OpenChain.branch) statements := by
  induction statements generalizing opened with
  | nil =>
    cases h
    exact ⟨.done, trivial, rfl⟩
  | cons s rest ih =>
    obtain ⟨opened₁, hs, hrest⟩ := nestAll?_cons_eq_some.mp h
    have hcompletes := ih hrest
    cases hform : r.formOf s with
    | call =>
      rw [nest?_call hform] at hs
      cases hs
      exact hcompletes.plain (by rw [hform]; trivial)
    | declaration =>
      rw [nest?_declaration hform] at hs
      cases opened with
      | nil =>
        cases hs
        exact hcompletes.plain (by rw [hform]; trivial)
      | cons chain outer => cases hs
    | ifBlock =>
      rw [nest?_if hform] at hs
      cases hs
      exact hcompletes.opening hform
    | elseBranch =>
      match opened, hs with
      | ⟨opening, .conditional⟩ :: outer, hs =>
        rw [nest?_else hform] at hs
        cases hs
        refine hcompletes.other hform ?_
        by_cases hnil : s.arguments = []
        · exact .inl ⟨hnil, by simp [hnil]⟩
        · exact .inr ⟨hnil, by simp [hnil]⟩
      | ⟨opening, .last⟩ :: outer, hs | [], hs => simp [nest?, hform] at hs
    | endBlock =>
      rw [nest?_end hform] at hs
      cases opened with
      | nil => cases hs
      | cons chain outer =>
        cases hs
        exact hcompletes.closing hform chain.branch
    | custom form => simp [nest?, hform] at hs

/-- Statements in a row close all their chains, and may all stand where they do, exactly if they are
those of a tree whose chains declare no variables. -/
theorem nestAll?_eq_nil_iff {statements : List Statement} :
    r.nestAll? [] statements = some [] ↔
      ∃ body : Body, body.ReadBy r ∧ body.DeclaresOutside r ∧ body.statements = statements := by
  constructor
  · intro h
    obtain ⟨body, hread, rfl⟩ := completes_of_nestAll? h
    exact ⟨body, hread, ((body.nestAll?_outside_iff hread).mp h).2, rfl⟩
  · rintro ⟨body, hread, houtside, rfl⟩
    exact (body.nestAll?_outside_iff hread).mpr ⟨rfl, houtside⟩

end Registry

end HookScript
