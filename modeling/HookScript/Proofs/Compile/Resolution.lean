/-
Which overload is chosen, as a property of the overloads alone.

The choice looks at one overload after the other and keeps the best one so far, with a mark if
another one is as good.  What comes out of it is described here without that loop, and without the
order of the overloads: `op.overloads.Perm (o :: others)` sets one of them apart from all others.

* `Overload.Takes` — an overload has as many parameters as there are arguments, each argument fits
  its parameter, and these are the scores that are added up;
* `Overload.best?_tied` — the mark says whether two of the overloads have the greatest score;
* `Operation.Resolves` — the outcomes, each with the condition under which it is the one;
* `Operation.select_resolves` — the choice has this outcome and no other, and it does not depend on
  the order of the overloads.
-/
import HookScript.Proofs.Compile.Selection

namespace HookScript

namespace Overload

variable {arguments : List Argument} {overloads : List Overload}

/-- The overload has a parameter for each argument, every argument fits its own, and the scores add
up to `total`. -/
def Takes (o : Overload) (arguments : List Argument) (total : Nat) : Prop :=
  o.params.length = arguments.length ∧ ∃ scores : List Nat,
    List.zipWith (fun p a => a.score p) o.params arguments = scores.map some ∧ scores.sum = total

theorem totalScore?_eq_some_iff {params : List Parameter} {total : Nat} :
    totalScore? params arguments = some total ↔
      params.length = arguments.length ∧ ∃ scores : List Nat,
        List.zipWith (fun p a => a.score p) params arguments = scores.map some ∧
          scores.sum = total := by
  induction params generalizing arguments total with
  | nil =>
    cases arguments with
    | nil =>
      constructor
      · intro h
        exact ⟨rfl, [], rfl, Option.some.inj h⟩
      · rintro ⟨-, scores, hscores, rfl⟩
        rw [List.map_eq_nil_iff.mp hscores.symm]
        rfl
    | cons a arguments => simp [totalScore?]
  | cons p params ih =>
    cases arguments with
    | nil => simp [totalScore?]
    | cons a arguments =>
      simp only [totalScore?, Option.bind_eq_bind, Option.bind_eq_some_iff, ih, List.length_cons,
        Nat.add_right_cancel_iff, List.zipWith_cons_cons]
      constructor
      · rintro ⟨score, hscore, rest, ⟨hlength, scores, hscores, rfl⟩, hsum⟩
        refine ⟨hlength, score :: scores, by rw [hscore, hscores, List.map_cons], ?_⟩
        exact Option.some.inj hsum
      · rintro ⟨hlength, scores, hscores, rfl⟩
        obtain ⟨score, scores, rfl, hscore, hrest⟩ := List.map_eq_cons_iff.mp hscores.symm
        exact ⟨score, hscore.symm, scores.sum, ⟨hlength, scores, hrest.symm, rfl⟩, rfl⟩

theorem score?_eq_some_iff {o : Overload} {total : Nat} :
    o.score? arguments = some total ↔ o.Takes arguments total :=
  totalScore?_eq_some_iff

/-- Only the parameters matter for what an overload takes. -/
theorem Takes.congr {o o' : Overload} (h : o'.params = o.params) {total : Nat} :
    o'.Takes arguments total ↔ o.Takes arguments total := by
  rw [Takes, Takes, h]

theorem Takes.unique {o : Overload} {total total' : Nat} (h : o.Takes arguments total)
    (h' : o.Takes arguments total') : total' = total := by
  have he := score?_eq_some_iff.mpr h
  rw [score?_eq_some_iff.mpr h'] at he
  exact Option.some.inj he

/-- The number of overloads that have the given score. -/
def count (arguments : List Argument) (score : Nat) (overloads : List Overload) : Nat :=
  overloads.countP fun o => o.score? arguments = some score

theorem count_snoc (overloads : List Overload) (o : Overload) (score : Nat) :
    count arguments score (overloads ++ [o])
      = count arguments score overloads + if o.score? arguments = some score then 1 else 0 := by
  simp [count, List.countP_append, List.countP_singleton]

theorem count_cons {o : Overload} {others : List Overload} (h : overloads.Perm (o :: others))
    (score : Nat) :
    count arguments score overloads
      = count arguments score others + if o.score? arguments = some score then 1 else 0 := by
  rw [count, h.countP_eq, List.countP_cons]
  simp [count]

theorem count_eq_zero {score : Nat}
    (h : ∀ o ∈ overloads, o.score? arguments ≠ some score) : count arguments score overloads = 0 :=
  List.countP_eq_zero.mpr fun o ho => by simpa using h o ho

theorem count_pos {o : Overload} {score : Nat} (ho : o ∈ overloads)
    (h : o.score? arguments = some score) : 0 < count arguments score overloads :=
  List.countP_pos_iff.mpr ⟨o, ho, by simpa using h⟩

/-- The best overload is marked if and only if its score is found twice. -/
theorem best?_tied {best : Best} (h : best? overloads arguments = some best) :
    best.tied = true ↔ 2 ≤ count arguments best.score overloads := by
  induction overloads using List.reverseRecOn generalizing best with
  | nil => cases h
  | append_singleton looked o ih =>
    have hlooked := best?_tracks looked arguments
    rw [best?_snoc] at h
    unfold consider at h
    rw [count_snoc]
    cases hs : o.score? arguments with
    | none =>
      simp only [hs] at h
      simpa using ih h
    | some score =>
      cases hb : best? looked arguments with
      | none =>
        -- no overload before this one fits
        rw [hb] at hlooked
        simp only [hs, hb, Option.some.injEq] at h
        subst h
        have hzero : count arguments score looked = 0 :=
          count_eq_zero fun o' ho' => by rw [hlooked o' ho']; simp
        simp [hzero]
      | some b =>
        rw [hb] at hlooked
        have hpos := count_pos hlooked.mem hlooked.fits
        simp only [hs, hb] at h
        split at h
        · rename_i hlt
          obtain rfl := Option.some.inj h
          have hne : score ≠ b.score := by omega
          simpa [hne] using ih hb
        · split at h
          · rename_i heq
            obtain rfl := Option.some.inj h
            subst heq
            simp
            omega
          · -- the overload is better than all before it
            rename_i hnlt hne
            obtain rfl := Option.some.inj h
            have hzero : count arguments score looked = 0 :=
              count_eq_zero fun o' ho' hf => by
                have := hlooked.greatest o' ho' score hf
                omega
            simp [hzero]

end Overload

/-- The first argument that stands for nothing. -/
def FirstUnknown (arguments : List Argument) (name : String) : Prop :=
  ∃ before after, arguments = before ++ .unknown name :: after ∧ ∀ other, .unknown other ∉ before

theorem firstUnknown?_eq_some_iff {arguments : List Argument} {name : String} :
    firstUnknown? arguments = some name ↔ FirstUnknown arguments name := by
  rw [firstUnknown?, List.findSome?_eq_some_iff, FirstUnknown]
  constructor
  · rintro ⟨before, a, after, rfl, ha, hbefore⟩
    cases a with
    | unknown name' =>
      obtain rfl := Option.some.inj ha
      refine ⟨before, after, rfl, fun other hm => ?_⟩
      have := hbefore _ hm
      cases this
    | constant _ | register _ _ _ | label _ | typeName _ => cases ha
  · rintro ⟨before, after, rfl, hbefore⟩
    refine ⟨before, _, after, rfl, rfl, fun a ha => ?_⟩
    cases a with
    | unknown other => exact absurd ha (hbefore other)
    | constant _ | register _ _ _ | label _ | typeName _ => rfl

theorem firstUnknown?_eq_none_iff {arguments : List Argument} :
    firstUnknown? arguments = none ↔ ∀ name, .unknown name ∉ arguments := by
  rw [firstUnknown?, List.findSome?_eq_none_iff]
  constructor
  · intro h name hm
    cases h _ hm
  · intro h a ha
    cases a with
    | unknown name => exact absurd ha (h name)
    | constant _ | register _ _ _ | label _ | typeName _ => rfl

namespace Operation

open Overload

/-- No overload of the operation takes the arguments. -/
def Refuses (op : Operation) (arguments : List Argument) : Prop :=
  ∀ o ∈ op.overloads, ∀ total, ¬ o.Takes arguments total

/-- The outcomes of the choice among the overloads of an operation. -/
inductive Resolves (r : Registry) (op : Operation) (arguments : List Argument) :
    Except CompileError.Kind Overload → Prop where
  /-- one overload takes the arguments with a greater total than every other one that takes them -/
  | best {o : Overload} {others : List Overload} {total : Nat}
      (among : op.overloads.Perm (o :: others)) (takes : o.Takes arguments total)
      (ahead : ∀ o' ∈ others, ∀ total', o'.Takes arguments total' → total' < total) :
      Resolves r op arguments (.ok o)
  /-- two overloads take the arguments with the same total, and no other one has a greater total -/
  | conflict {o o' : Overload} {others : List Overload} {total : Nat}
      (among : op.overloads.Perm (o :: o' :: others)) (takes : o.Takes arguments total)
      (takes' : o'.Takes arguments total)
      (greatest : ∀ o'' ∈ others, ∀ total', o''.Takes arguments total' → total' ≤ total) :
      Resolves r op arguments
        (.error (.conflictingOverloads op.name (r.argumentNames arguments)))
  /-- no overload takes the arguments, one of which is a name that stands for nothing -/
  | undeclared {name : String} (refuses : op.Refuses arguments)
      (first : FirstUnknown arguments name) :
      Resolves r op arguments (.error (.undeclaredSymbol name))
  /-- no overload takes the arguments, which are all known -/
  | unmatched (refuses : op.Refuses arguments) (known : ∀ name, .unknown name ∉ arguments) :
      Resolves r op arguments (.error (.noMatchingOverload op.name (r.argumentNames arguments)))

variable {r : Registry} {op : Operation} {arguments : List Argument}

theorem best?_eq_none_iff :
    best? op.overloads arguments = none ↔ op.Refuses arguments := by
  have ht := best?_tracks op.overloads arguments
  cases hb : best? op.overloads arguments with
  | none =>
    rw [hb] at ht
    refine ⟨fun _ o ho total htakes => ?_, fun _ => rfl⟩
    have := score?_eq_some_iff.mpr htakes
    rw [ht o ho] at this
    cases this
  | some b =>
    rw [hb] at ht
    refine ⟨fun h => by (cases h), fun h => ?_⟩
    exact absurd (score?_eq_some_iff.mp ht.fits) (h b.overload ht.mem b.score)

/-- An overload that takes the arguments is surpassed by the best one, or is the best one. -/
theorem exists_best? {o : Overload} {total : Nat} (ho : o ∈ op.overloads)
    (htakes : o.Takes arguments total) :
    ∃ b, best? op.overloads arguments = some b ∧ Leads arguments op.overloads b ∧
      total ≤ b.score := by
  have ht := best?_tracks op.overloads arguments
  cases hb : best? op.overloads arguments with
  | none => exact absurd htakes (best?_eq_none_iff.mp hb o ho total)
  | some b =>
    rw [hb] at ht
    exact ⟨b, rfl, ht, ht.greatest o ho total (score?_eq_some_iff.mpr htakes)⟩

theorem resolves_select (r : Registry) (op : Operation) (arguments : List Argument) :
    op.Resolves r arguments (op.select r arguments) := by
  rw [select]
  cases hb : best? op.overloads arguments with
  | none =>
    have hrefuses := best?_eq_none_iff.mp hb
    cases hu : firstUnknown? arguments with
    | none => exact .unmatched hrefuses (firstUnknown?_eq_none_iff.mp hu)
    | some name => exact .undeclared hrefuses (firstUnknown?_eq_some_iff.mp hu)
  | some b =>
    have hleads := best?_tracks op.overloads arguments
    rw [hb] at hleads
    have htied := best?_tied hb
    have htakes := score?_eq_some_iff.mp hleads.fits
    -- the best overload is set apart, and the others counted
    have hperm := List.perm_cons_erase hleads.mem
    have hcount : count arguments b.score op.overloads
        = count arguments b.score (op.overloads.erase b.overload) + 1 := by
      rw [count_cons hperm, if_pos hleads.fits]
    simp only
    by_cases ht : b.tied = true
    · rw [if_pos ht]
      have hpos : 0 < count arguments b.score (op.overloads.erase b.overload) := by
        have := htied.mp ht
        omega
      obtain ⟨o', ho', hscore⟩ := List.countP_pos_iff.mp hpos
      refine .conflict (hperm.trans ((List.perm_cons_erase ho').cons _)) htakes
        (score?_eq_some_iff.mp (by simpa using hscore)) fun o'' ho'' total' htakes' => ?_
      exact hleads.greatest o'' (List.mem_of_mem_erase (List.mem_of_mem_erase ho'')) total'
        (score?_eq_some_iff.mpr htakes')
    · rw [if_neg ht]
      refine .best hperm htakes fun o' ho' total' htakes' => ?_
      have hscore := score?_eq_some_iff.mpr htakes'
      have hle := hleads.greatest o' (List.mem_of_mem_erase ho') total' hscore
      have hne : total' ≠ b.score := by
        rintro rfl
        have := count_pos ho' hscore
        have : ¬ 2 ≤ count arguments b.score op.overloads := fun h => ht (htied.mpr h)
        omega
      omega

/-- Overloads that are taken out of order, and change nothing but where they lead, come to the same
outcome. -/
theorem Resolves.reordered {op' : Operation} {renumber : Overload → Overload}
    {outcome : Except CompileError.Kind Overload} (h : op.Resolves r arguments outcome)
    (hname : op'.name = op.name) (hparams : ∀ o, (renumber o).params = o.params)
    (hperm : op'.overloads.Perm (op.overloads.map renumber)) :
    op'.Resolves r arguments (outcome.map renumber) := by
  have takes : ∀ {o total}, (renumber o).Takes arguments total ↔ o.Takes arguments total :=
    fun {o _} => Takes.congr (hparams o)
  have refuses : op.Refuses arguments → op'.Refuses arguments := by
    intro hr o ho total htakes
    obtain ⟨o₀, ho₀, rfl⟩ := List.mem_map.mp (hperm.mem_iff.mp ho)
    exact hr o₀ ho₀ total (takes.mp htakes)
  cases h with
  | best among htakes ahead =>
    refine .best (hperm.trans (among.map renumber)) (takes.mpr htakes) fun o' ho' => ?_
    obtain ⟨o₀, ho₀, rfl⟩ := List.mem_map.mp ho'
    exact fun total' htakes' => ahead o₀ ho₀ total' (takes.mp htakes')
  | conflict among htakes htakes' greatest =>
    rw [← hname]
    refine .conflict (hperm.trans (among.map renumber)) (takes.mpr htakes) (takes.mpr htakes')
      fun o'' ho'' => ?_
    obtain ⟨o₀, ho₀, rfl⟩ := List.mem_map.mp ho''
    exact fun total' htakes'' => greatest o₀ ho₀ total' (takes.mp htakes'')
  | undeclared hrefuses first => exact .undeclared (refuses hrefuses) first
  | unmatched hrefuses known =>
    rw [← hname]
    exact .unmatched (refuses hrefuses) known

/-- The choice has no other outcome than the one that is described. -/
theorem Resolves.eq_select {outcome : Except CompileError.Kind Overload}
    (h : op.Resolves r arguments outcome) : op.select r arguments = outcome := by
  rw [select]
  cases h with
  | undeclared refuses first =>
    rw [best?_eq_none_iff.mpr refuses, firstUnknown?_eq_some_iff.mpr first]
  | unmatched refuses known =>
    rw [best?_eq_none_iff.mpr refuses, firstUnknown?_eq_none_iff.mpr known]
  | @best o others total among takes ahead =>
    obtain ⟨b, hb, hleads, hle⟩ := exists_best? (among.mem_iff.mpr List.mem_cons_self) takes
    have hb_takes := score?_eq_some_iff.mp hleads.fits
    have ho : b.overload = o := by
      rcases List.mem_cons.mp (among.mem_iff.mp hleads.mem) with ho | ho
      · exact ho
      · have := ahead _ ho _ hb_takes
        omega
    have hscore : b.score = total := takes.unique (ho ▸ hb_takes)
    have hcount : count arguments b.score op.overloads = 1 := by
      have hothers : count arguments b.score others = 0 := count_eq_zero fun o' ho' hs => by
        have := ahead o' ho' _ (score?_eq_some_iff.mp hs)
        omega
      rw [count_cons among, hothers, hscore, if_pos (score?_eq_some_iff.mpr takes)]
    have ht : b.tied ≠ true := fun ht => by
      have := (best?_tied hb).mp ht
      omega
    rw [hb]
    simp only
    rw [if_neg ht, ho]
  | @conflict o o' others total among takes takes' greatest =>
    obtain ⟨b, hb, hleads, hle⟩ := exists_best? (among.mem_iff.mpr List.mem_cons_self) takes
    have hb_takes := score?_eq_some_iff.mp hleads.fits
    have hge : b.score ≤ total := by
      have hm := among.mem_iff.mp hleads.mem
      simp only [List.mem_cons] at hm
      rcases hm with ho | ho | ho
      · exact Nat.le_of_eq (takes.unique (ho ▸ hb_takes))
      · exact Nat.le_of_eq (takes'.unique (ho ▸ hb_takes))
      · exact greatest _ ho _ hb_takes
    obtain rfl : b.score = total := by omega
    have hcount : 2 ≤ count arguments b.score op.overloads := by
      rw [count_cons among, count_cons (.refl _), if_pos (score?_eq_some_iff.mpr takes),
        if_pos (score?_eq_some_iff.mpr takes')]
      omega
    rw [hb]
    simp only
    rw [if_pos ((best?_tied hb).mpr hcount)]

/-- The choice has the outcome that `Resolves` describes: the overload that is ahead of all others,
a conflict where two are ahead of the rest, and an error about the arguments where none takes them.
Overloads that are registered in another order, and so have other numbers to lead to, come to the
same outcome. -/
theorem select_resolves (r : Registry) (op : Operation) (arguments : List Argument) :
    (∀ outcome, op.select r arguments = outcome ↔ op.Resolves r arguments outcome) ∧
    ∀ (op' : Operation) (renumber : Overload → Overload), op'.name = op.name →
      (∀ o, (renumber o).params = o.params) → op'.overloads.Perm (op.overloads.map renumber) →
      op'.select r arguments = (op.select r arguments).map renumber := by
  refine ⟨fun outcome => ⟨?_, Resolves.eq_select⟩, fun op' renumber hname hparams hperm => ?_⟩
  · rintro rfl
    exact resolves_select r op arguments
  · exact ((resolves_select r op arguments).reordered hname hparams hperm).eq_select

/-- A method that has one host function for each kind of handle. -/
def kindMethod (overloads : List Overload) : Operation :=
  ⟨"Unit.kind", overloads, .call, false⟩

/-- The overload for the handle that `p` asks for, which leads to host function `first`. -/
def kindOverload (p : Parameter) (first : Nat) : Overload :=
  ⟨[p, .intVar], .native first, ""⟩

/-- An editable handle fits both overloads, the editable one better, in whichever order they were
registered. -/
theorem select_resolves_kindMethod :
    (kindMethod [kindOverload (.ptr ⟨1⟩) 0, kindOverload (.ptre ⟨1⟩) 1]).Resolves { config := {} }
      [.register 2 (.ptre ⟨1⟩) true, .register 0 .int true] (.ok (kindOverload (.ptre ⟨1⟩) 1)) ∧
    (kindMethod [kindOverload (.ptre ⟨1⟩) 0, kindOverload (.ptr ⟨1⟩) 1]).select { config := {} }
      [.register 2 (.ptre ⟨1⟩) true, .register 0 .int true] = .ok (kindOverload (.ptre ⟨1⟩) 0) := by
  -- the two host functions change places with their overloads
  let renumber : Overload → Overload := fun o =>
    { o with target := match o.target with
      | .native first => .native (1 - first)
      | .builtin base => .builtin base }
  have h := select_resolves { config := {} }
    (kindMethod [kindOverload (.ptr ⟨1⟩) 0, kindOverload (.ptre ⟨1⟩) 1])
    [.register 2 (.ptre ⟨1⟩) true, .register 0 .int true]
  exact ⟨(h.1 _).mp rfl, h.2 _ renumber rfl (fun _ => rfl) (List.Perm.swap _ _ _)⟩

end Operation

end HookScript
