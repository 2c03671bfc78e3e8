/-
Every script that is compiled is a tree of nested blocks.

The blocks that are open in a draft are a stack: `if` puts a block on it, `end` takes one away, and
an `else` belongs to the topmost one.  Hence what is left of a script completes the branches that
are open so far.

* `Drafting.blocks_of_statement` — what a statement does to the stack, by its form;
* `Completes` — the remaining statements complete the open branches, the innermost one first;
* `exists_body` — a script that leaves no block open is a tree.
-/
import HookScript.Proofs.Control.Simulation

namespace HookScript

/-! ### The stack of blocks -/

/-- What statements of a form make of the stack of blocks. -/
def StatementForm.Stacks (s : Statement) (before after : List Block) : StatementForm → Prop
  | .call | .declaration => after = before
  | .ifBlock => ∃ block, block.branch = .conditional ∧ after = block :: before
  | .elseBranch => ∃ block block' outer, before = block :: outer ∧ after = block' :: outer ∧
    block.branch = .conditional ∧
      (s.arguments = [] ∧ block'.branch = .last ∨
        s.arguments ≠ [] ∧ block'.branch = .conditional)
  | .endBlock => ∃ block, before = block :: after
  | .custom _ => True

theorem Drafting.blocks_of_statement {r : Registry} (hr : r.Built) {lines : List Line}
    {d d' : Draft} (h : d.Ready r lines) {s : Statement} (hs : s.label = none)
    (hok : statement r s d = .ok () d') : (r.formOf s).Stacks s d.blocks d'.blocks := by
  have h₀ := ready_withSpan h s.span
  rw [statement_of_unlabelled hs] at hok
  cases hform : r.formOf s with
  | call =>
    obtain ⟨_, _, _, _, -, hl, -⟩ := emits_of_performance hr h₀ hform hok
    exact hl.frame.blocks
  | declaration =>
    rw [performance_of_declaration hform] at hok
    obtain ⟨_, _, _, _, -, hblocks, -, -, -, -, -, -, hblocks'⟩ :=
      (declaration_ensures hr h₀ s).of_ok hok
    exact hblocks'.trans hblocks.symm
  | ifBlock =>
    rw [performance_of_ifBlock hform] at hok
    obtain ⟨_, _, _, -, -, -, -, hblocks⟩ := (ifBlock_ensures hr h₀ s).of_ok hok
    exact ⟨_, rfl, hblocks⟩
  | elseBranch =>
    rw [performance_of_elseBranch hform] at hok
    obtain ⟨block, outer, _, hblocks, hbranch, -, -, -, -, hbegin⟩ :=
      (elseBranch_ensures hr h₀ s).of_ok hok
    rcases hbegin with ⟨hnil, -, hblocks'⟩ | ⟨hne, _, _, -, -, hblocks'⟩
    · exact ⟨block, _, outer, hblocks, hblocks', hbranch, .inl ⟨hnil, rfl⟩⟩
    · exact ⟨block, _, outer, hblocks, hblocks', hbranch, .inr ⟨hne, hbranch⟩⟩
  | endBlock =>
    rw [performance_of_endBlock hform] at hok
    obtain ⟨block, outer, hblocks, -, -, -, -, houter, -⟩ := (endBlock_ensures h₀ s).of_ok hok
    exact ⟨block, houter ▸ hblocks⟩
  | custom form => trivial

/-! ### Open branches -/

/-- The statements complete the branches that are open, the innermost one first. -/
def Completes (r : Registry) : List Branch → List Statement → Prop
  | [], statements => ∃ body : Body, body.ReadBy r ∧ body.statements = statements
  | .conditional :: outer, statements => ∃ (body : Body) (others : Others) (rest : List Statement),
    body.ReadBy r ∧ others.ReadBy r ∧ body.statements ++ (others.statements ++ rest) = statements ∧
      Completes r outer rest
  | .last :: outer, statements => ∃ (body : Body) (closing : Statement) (rest : List Statement),
    body.ReadBy r ∧ r.formOf closing = .endBlock ∧ body.statements ++ closing :: rest = statements ∧
      Completes r outer rest

namespace Completes

variable {r : Registry} {branches : List Branch} {s : Statement} {statements : List Statement}

/-- Statements in front that belong to the innermost branch. -/
theorem inFront (front : List Statement) (wrap : Body → Body)
    (hread : ∀ body : Body, body.ReadBy r → (wrap body).ReadBy r)
    (hfront : ∀ body : Body, (wrap body).statements = front ++ body.statements)
    (h : Completes r branches statements) : Completes r branches (front ++ statements) := by
  cases branches with
  | nil =>
    obtain ⟨body, hbody, rfl⟩ := h
    exact ⟨wrap body, hread body hbody, hfront body⟩
  | cons branch outer =>
    cases branch with
    | conditional =>
      obtain ⟨body, others, rest, hbody, hothers, rfl, h⟩ := h
      exact ⟨wrap body, others, rest, hread body hbody, hothers, by simp [hfront], h⟩
    | last =>
      obtain ⟨body, closing, rest, hbody, hclosing, rfl, h⟩ := h
      exact ⟨wrap body, closing, rest, hread body hbody, hclosing, by simp [hfront], h⟩

theorem plain (hs : (r.formOf s).IsPlain) (h : Completes r branches statements) :
    Completes r branches (s :: statements) :=
  h.inFront [s] (.plain s) (fun _ hbody => ⟨hs, hbody⟩) fun _ => rfl

/-- An `if` opens the first branch of a chain, which is completed first. -/
theorem opening (hs : r.formOf s = .ifBlock)
    (h : Completes r (.conditional :: branches) statements) :
    Completes r branches (s :: statements) := by
  obtain ⟨branch, others, rest, hbranch, hothers, rfl, h⟩ := h
  have := h.inFront (s :: (branch.statements ++ others.statements)) (.chain s branch others)
    (fun _ hbody => ⟨hs, hbranch, hothers, hbody⟩)
    fun body => by simp [Body.statements]
  simpa using this

/-- An `else` ends a branch with a condition and opens another branch. -/
theorem other (hs : r.formOf s = .elseBranch) {branch : Branch}
    (hbranch : s.arguments = [] ∧ branch = .last ∨ s.arguments ≠ [] ∧ branch = .conditional)
    (h : Completes r (branch :: branches) statements) :
    Completes r (.conditional :: branches) (s :: statements) := by
  rcases hbranch with ⟨harg, rfl⟩ | ⟨harg, rfl⟩
  · obtain ⟨body, closing, rest, hbody, hclosing, rfl, h⟩ := h
    refine ⟨.done, .last s body closing, rest, trivial, ⟨hs, harg, hbody, hclosing⟩, ?_, h⟩
    simp [Body.statements, Others.statements]
  · obtain ⟨body, others, rest, hbody, hothers, rfl, h⟩ := h
    refine ⟨.done, .next s body others, rest, trivial, ⟨hs, harg, hbody, hothers⟩, ?_, h⟩
    simp [Body.statements, Others.statements]

/-- An `end` ends the innermost branch. -/
theorem closing (hs : r.formOf s = .endBlock) (branch : Branch)
    (h : Completes r branches statements) : Completes r (branch :: branches) (s :: statements) := by
  cases branch with
  | conditional => exact ⟨.done, .close s, statements, trivial, hs, rfl, h⟩
  | last => exact ⟨.done, s, statements, trivial, hs, rfl, h⟩

end Completes

/-! ### Scripts -/

variable {r : Registry} {source : String}

/-- What is compiled until no block is open completes the branches that were open before. -/
theorem completes_of_compileAll (hr : r.Built) (own : r.OwnForms) {statements : List Statement}
    {lines : List Line} {d d' : Draft} (h : d.Ready r lines)
    (hs : ∀ s ∈ statements, s.label = none)
    (hok : d.compileAll r source (statements.map .ok) = .ok d') (hclosed : d'.blocks = []) :
    Completes r (d.blocks.map Block.branch) statements := by
  induction statements generalizing lines d with
  | nil =>
    cases hok
    rw [hclosed]
    exact ⟨.done, trivial, rfl⟩
  | cons s rest ih =>
    obtain ⟨hlabel, hs⟩ := List.forall_mem_cons.mp hs
    obtain ⟨d₁, hstep, hok⟩ := Draft.compileAll_cons_eq_ok hok
    obtain ⟨more, h₁, -⟩ := (Drafting.statement_ensures hr (own.reads s) h).of_ok hstep
    have hrest := ih h₁ hs hok
    have hstack := Drafting.blocks_of_statement hr h hlabel hstep
    -- the stack tells which branch the statement belongs to
    cases hform : r.formOf s with
    | call | declaration =>
      rw [hform] at hstack
      rw [hstack] at hrest
      exact hrest.plain (by rw [hform]; trivial)
    | ifBlock =>
      rw [hform] at hstack
      obtain ⟨block, hbranch, hblocks⟩ := hstack
      rw [hblocks, List.map_cons, hbranch] at hrest
      exact hrest.opening hform
    | elseBranch =>
      rw [hform] at hstack
      obtain ⟨block, block', outer, hblocks, hblocks', hbranch, hbegin⟩ := hstack
      rw [hblocks', List.map_cons] at hrest
      rw [hblocks, List.map_cons, hbranch]
      exact hrest.other hform hbegin
    | endBlock =>
      rw [hform] at hstack
      obtain ⟨block, hblocks⟩ := hstack
      rw [hblocks, List.map_cons]
      exact hrest.closing hform block.branch
    | custom form => exact absurd hform ((own.reads s).formOf_ne form)

/-- A script that leaves no block open is a tree. -/
theorem exists_body (hr : r.Built) (own : r.OwnForms) {statements : List Statement}
    {lines : List Line} {d d' : Draft} (h : d.Ready r lines)
    (hs : ∀ s ∈ statements, s.label = none) (hopen : d.blocks = [])
    (hok : d.compileAll r source (statements.map .ok) = .ok d') (hclosed : d'.blocks = []) :
    ∃ body : Body, body.ReadBy r ∧ body.statements = statements := by
  have hc := completes_of_compileAll hr own h hs hok hclosed
  rwa [hopen] at hc

end HookScript
