/-
Which registers variables get.

A draft hands its registers out in order, beginning behind the last one that is taken by an input,
by an argument of the hook or by a standing name, and it never takes one back.  So as long as one is
left a variable can be made, and no two of them share one:

* `Registry.behind_iff` — the first register that is free;
* `Draft.find?_of_start` — the registers of hook arguments;
* `Draft.Reaches` — the drafts that statements and declarations lead to, where they fail as much as
  where they succeed;
* `Draft.Allots` — the registers from the first free one up to the next one are those of variables,
  one each, which every change preserves;
* `registers_are_allotted` — where variables live, and when there is no room for another one.
-/
import HookScript.Proofs.Compile.Closing
import HookScript.Proofs.Compile.Variables

namespace HookScript

/-! ### The first free register -/

namespace Draft

/-- The registers up to the last standing one are counted, and no more. -/
theorem standingCount_le_iff {globals : SymbolTable} {n : Nat} :
    standingCount globals ≤ n ↔ ∀ name index type writable,
      globals.find? name = some (.register index type writable) → index.toNat < n := by
  constructor
  · intro h name index type writable hfound
    exact Nat.lt_of_lt_of_le (lt_standingCount hfound) h
  · intro h
    have hentries : ∀ name index type writable,
        (name, Meaning.register index type writable) ∈ globals.toList → index.toNat + 1 ≤ n :=
      fun name index type writable hm =>
        h name index type writable (NameTable.find?_eq_some_iff.mpr hm)
    -- the count begins below the bound, and no entry lifts it above
    suffices ∀ count ≤ n, globals.toList.foldl _ count ≤ n from this 0 (Nat.zero_le n)
    generalize globals.toList = entries at hentries
    induction entries with
    | nil => exact fun count hcount => hcount
    | cons entry entries ih =>
      intro count hcount
      refine ih (fun name index type writable hm =>
        hentries name index type writable (List.mem_cons_of_mem _ hm)) _ ?_
      obtain ⟨name, meaning⟩ := entry
      cases meaning with
      | register index type writable =>
        exact Nat.max_le.mpr ⟨hcount, hentries name index type writable List.mem_cons_self⟩
      | constant _ | label _ | typeName _ => exact hcount

end Draft

namespace Registry

variable {r : Registry} {arguments : List HookArgument}

/-- The register lies behind all that are taken before a script makes variables. -/
def Behind (r : Registry) (arguments : List HookArgument) (i : Nat) : Prop :=
  ∀ j, r.Reserves arguments j → j < i

/-- The first register behind those that are taken. -/
theorem behind_iff {i : Nat} :
    r.Behind arguments i ↔
      max (max r.config.inputRegisters arguments.length) (Draft.standingCount r.globals) ≤ i := by
  constructor
  · intro h
    -- a register that is taken does not lie behind itself
    have hinput : r.config.inputRegisters ≤ i :=
      Nat.not_lt.mp fun hi => Nat.lt_irrefl _ (h i (.input hi))
    have hargument : arguments.length ≤ i :=
      Nat.not_lt.mp fun hi => Nat.lt_irrefl _ (h i (.argument hi))
    have hstanding : Draft.standingCount r.globals ≤ i :=
      Draft.standingCount_le_iff.mpr fun _ _ _ _ hfound => h _ (.standing hfound)
    omega
  · intro h j hj
    cases hj with
    | input low => omega
    | argument low => omega
    | standing found =>
      have := Draft.lt_standingCount found
      omega

end Registry

namespace Draft

variable {r : Registry} {arguments : List HookArgument} {first d d' : Draft}

theorem behind_iff_of_start (h : start r arguments = .ok first) {i : Nat} :
    r.Behind arguments i ↔ first.nextRegister ≤ i := by
  obtain ⟨hused, hnext⟩ := counts_of_start h
  rw [Registry.behind_iff, hnext, hused]

/-- Argument `i` is register `i`, if the names of all arguments are different. -/
theorem find?_of_start (hr : r.Sound) (h : start r arguments = .ok first)
    (distinct : (arguments.map (·.name)).Nodup) {i : Nat} {a : HookArgument}
    (ha : arguments[i]? = some a) :
    (UInt8.ofNat i).toNat = i ∧
      first.locals.find? a.name = some (.register (UInt8.ofNat i) a.type a.writable) := by
  obtain ⟨meaning, hmeaning⟩ :=
    Option.isSome_iff_exists.mp (isSome_of_start h (List.mem_of_getElem? ha))
  obtain ⟨j, b, hb, hname, hj, rfl⟩ := argument_of_start h hmeaning
  -- the argument that has got the name is the one that it belongs to
  obtain rfl : j = i := by
    have hlt := (List.getElem?_eq_some_iff.mp hb).1
    refine (List.getElem?_inj (by simpa using hlt) distinct).mp ?_
    rw [List.getElem?_map, List.getElem?_map, hb, ha, Option.map_some, Option.map_some, hname]
  obtain rfl : b = a := Option.some.inj (hb.symm.trans ha)
  exact ⟨hr.toNat_ofNat (Nat.le_of_lt hj), hmeaning⟩

theorem find?_eq_none_iff_of_start (h : start r arguments = .ok first) {name : String} :
    first.locals.find? name = none ↔ name ∉ arguments.map (·.name) := by
  constructor
  · intro hnone hm
    obtain ⟨a, ha, rfl⟩ := List.mem_map.mp hm
    have := isSome_of_start h ha
    rw [hnone] at this
    cases this
  · intro hnew
    cases hmeaning : first.locals.find? name with
    | none => rfl
    | some meaning =>
      obtain ⟨j, a, ha, hname, -⟩ := argument_of_start h hmeaning
      exact absurd (List.mem_map.mpr ⟨a, List.mem_of_getElem? ha, hname⟩) hnew

/-! ### Drafts that are reached -/

/-- What a draft is after a step, where it fails as much as where it succeeds. -/
def onward {α : Type} (step : Drafting α) (d : Draft) : Draft :=
  match step d with
  | .ok _ d' => d'
  | .error _ d' => d'

/-- The second draft comes from the first one by statements and declarations of variables, each of
which may fail. -/
inductive Reaches (r : Registry) (first : Draft) : Draft → Prop where
  | refl : Reaches r first first
  | statement {d : Draft} (before : Reaches r first d) (s : Statement) :
      Reaches r first (d.onward (Drafting.statement r s))
  | declaration {d : Draft} (before : Reaches r first d) (name : String) (type : ValueType) :
      Reaches r first (d.onward (Drafting.declareVariable r name type))

theorem evolves_onward {L : Licence} {α : Type} {step : Drafting α} {done : α → Draft → Prop}
    {failed : CompileError.Kind → Prop} (h : Drafting.Leads r L step d done failed) :
    d.Evolves r L (d.onward step) := by
  rw [onward]
  cases hx : step d with
  | ok a d' => exact (h.of_ok hx).1
  | error kind d' => exact (h.of_error hx).1

/-- Whatever happens to a draft is a chain of changes. -/
theorem Reaches.evolves (h : first.Reaches r d) (hr : r.Sound) (hd : first.Orderly r) :
    first.Evolves r (.emitting fun _ => True) d := by
  induction h with
  | refl => exact .refl
  | statement _ s ih =>
    exact ih.trans (evolves_onward (Drafting.statement_leads hr (ih.orderly hd) (.any r s _)))
  | declaration _ name type ih =>
    exact ih.trans (evolves_onward (Drafting.declareVariable_leads trivial))

/-! ### Registers of variables -/

/-- The register is that of a variable which has been made since the first draft. -/
def Made (first d : Draft) (name : String) (index : UInt8) : Prop :=
  first.locals.find? name = none ∧
    ∃ type writable, d.locals.find? name = some (.register index type writable)

/-- The registers that have been handed out since the first draft are those of the variables made
since, one each. -/
structure Allots (first d : Draft) : Prop where
  next : first.nextRegister ≤ d.nextRegister
  keeps : ∀ name meaning, first.locals.find? name = some meaning →
    d.locals.find? name = some meaning
  handed : ∀ name index, first.Made d name index → index.toNat < d.nextRegister
  apart : ∀ name other index, first.Made d name index → first.Made d other index → other = name
  all : ∀ i, first.nextRegister ≤ i → i < d.nextRegister →
    ∃ name index, first.Made d name index ∧ index.toNat = i

/-- What is new now was new at the beginning. -/
theorem Allots.find?_eq_none (h : first.Allots d) {name : String}
    (hnew : d.locals.find? name = none) : first.locals.find? name = none := by
  cases hf : first.locals.find? name with
  | none => rfl
  | some meaning =>
    rw [h.keeps name meaning hf] at hnew
    cases hnew

theorem allots_self : first.Allots first where
  next := Nat.le_refl _
  keeps _ _ h := h
  handed name index h := by
    obtain ⟨hnew, _, _, hold⟩ := h
    rw [hnew] at hold
    cases hold
  apart name other index h := by
    obtain ⟨hnew, _, _, hold⟩ := h
    rw [hnew] at hold
    cases hold
  all i hle hlt := absurd hlt (Nat.not_lt.mpr hle)

theorem Change.nextRegister_of_declares {name : String} (h : d.Change r (.declares name) d') :
    d'.nextRegister = d.nextRegister + 1 := by
  cases h with
  | declare => rfl

/-- A variable has been made before the change, or the change makes it and gives it the next
register. -/
theorem Change.made_cases (hr : r.Sound) {deed : Deed} (h : d.Change r deed d') {name : String}
    {index : UInt8} (hm : first.Made d' name index) :
    first.Made d name index ∨
      deed = .declares name ∧ index.toNat = d.nextRegister ∧
        d'.nextRegister = d.nextRegister + 1 := by
  obtain ⟨hnew, type, writable, hn⟩ := hm
  rcases h.find?_cases hn with hold | ⟨-, -, heq⟩ | ⟨rfl, -, hfree, _, heq⟩
  · exact .inl ⟨hnew, type, writable, hold⟩
  · cases heq
  · cases heq
    exact .inr ⟨rfl, hr.toNat_ofNat (Nat.le_of_lt hfree), h.nextRegister_of_declares⟩

/-- A change hands the next register out, or none. -/
theorem Change.nextRegister_cases {deed : Deed} (h : d.Change r deed d') :
    d'.nextRegister = d.nextRegister ∨
      ∃ name type, d.lookup r name = none ∧ d.nextRegister < r.config.registers ∧
        d'.nextRegister = d.nextRegister + 1 ∧
        d'.locals.find? name
          = some (.register (UInt8.ofNat d.nextRegister) type true) := by
  cases h with
  | note | touch | newLabel | name | await | place | enter | write => exact .inl rfl
  | @declare name type new free =>
    refine .inr ⟨name, type, new, free, rfl, ?_⟩
    rw [Draft.touch, SymbolTable.find?_insert, if_pos rfl]

theorem Change.allots (hr : r.Sound) {deed : Deed} (h : d.Change r deed d')
    (hd : first.Allots d) : first.Allots d' where
  next := Nat.le_trans hd.next h.nextRegister_le
  keeps name meaning hfirst := h.find?_eq (hd.keeps name meaning hfirst)
  handed name index hm := by
    rcases h.made_cases hr hm with hold | ⟨-, hindex, hnext⟩
    · exact Nat.lt_of_lt_of_le (hd.handed name index hold) h.nextRegister_le
    · omega
  apart name other index hm hm' := by
    rcases h.made_cases hr hm with hold | ⟨rfl, hindex, -⟩
    · rcases h.made_cases hr hm' with hold' | ⟨-, hindex', -⟩
      · exact hd.apart name other index hold hold'
      · have := hd.handed name index hold
        omega
    · rcases h.made_cases hr hm' with hold' | ⟨hdeed, -, -⟩
      · have := hd.handed other index hold'
        omega
      · exact (Deed.declares.inj hdeed).symm
  all i hle hlt := by
    by_cases hold : i < d.nextRegister
    · obtain ⟨name, index, ⟨hnew, type, writable, hn⟩, hindex⟩ := hd.all i hle hold
      exact ⟨name, index, ⟨hnew, type, writable, h.find?_eq hn⟩, hindex⟩
    · -- the register that is handed out is the one of the new variable
      rcases h.nextRegister_cases with hsame | ⟨name, type, hnew, hfree, hnext, hn⟩
      · omega
      · refine ⟨name, _, ⟨hd.find?_eq_none (lookup_eq_none hnew).1, type, true, hn⟩, ?_⟩
        rw [hr.toNat_ofNat (Nat.le_of_lt hfree)]
        omega

theorem Evolves.allots {L : Licence} (hr : r.Sound) (h : first.Evolves r L d) :
    first.Allots d :=
  h.preserves (fun _ _ _ _ hc => hc.allots hr) allots_self

end Draft

/-! ### Declarations -/

namespace Drafting

variable {r : Registry} {d : Draft} {name : String} {type : ValueType}

/-- A name that is in scope already is refused, and so is one that there is no register for.
Either way the draft stays as it was.  Otherwise the name gets the next register. -/
theorem declareVariable_spec (r : Registry) (name : String) (type : ValueType) (d : Draft) :
    Ensures (declareVariable r name type) d
      (fun index d' => d.lookup r name = none ∧ d.nextRegister < r.config.registers ∧
        d'.locals.find? name = some (.register index type true))
      (fun kind d' => d' = d ∧ ((d.lookup r name).isSome ∧ kind = .variableRedefined name ∨
        d.lookup r name = none ∧ r.config.registers ≤ d.nextRegister ∧
          kind = .tooManyRegisters name)) := by
  simp only [declareVariable, ensures_get_bind]
  by_cases hknown : (d.lookup r name).isSome = true
  · rw [if_pos hknown]
    exact ⟨rfl, .inl ⟨hknown, rfl⟩⟩
  · have hnew : d.lookup r name = none := by simpa using hknown
    rw [if_neg hknown]
    by_cases hfull : r.config.registers ≤ d.nextRegister
    · simp only [if_pos hfull]
      exact ⟨rfl, .inr ⟨hnew, hfull, rfl⟩⟩
    · simp only [if_neg hfull]
      rw [SymbolTable.insert, (Draft.lookup_eq_none hnew).1]
      refine ⟨hnew, by omega, ?_⟩
      exact (SymbolTable.find?_insert _ _ _ _).trans (if_pos rfl)

theorem declareVariable_eq_tooManyRegisters_iff (hnew : d.lookup r name = none) :
    declareVariable r name type d = .error (.tooManyRegisters name) d ↔
      r.config.registers ≤ d.nextRegister := by
  have hspec := declareVariable_spec r name type d
  constructor
  · intro hx
    obtain ⟨-, ⟨-, hkind⟩ | ⟨-, hfull, -⟩⟩ := hspec.of_error hx
    · cases hkind
    · exact hfull
  · intro hfull
    cases hx : declareVariable r name type d with
    | ok index d' =>
      obtain ⟨-, hfree, -⟩ := hspec.of_ok hx
      omega
    | error kind d' =>
      obtain ⟨rfl, ⟨hknown, -⟩ | ⟨-, -, rfl⟩⟩ := hspec.of_error hx
      · simp [hnew] at hknown
      · rfl

theorem exists_declareVariable (type : ValueType) (hnew : d.lookup r name = none)
    (hfree : d.nextRegister < r.config.registers) :
    ∃ index d', declareVariable r name type d = .ok index d' ∧
      d'.locals.find? name = some (.register index type true) := by
  have hspec := declareVariable_spec r name type d
  cases hx : declareVariable r name type d with
  | ok index d' => exact ⟨index, d', rfl, (hspec.of_ok hx).2.2⟩
  | error kind d' =>
    obtain ⟨-, ⟨hknown, -⟩ | ⟨-, hfull, -⟩⟩ := hspec.of_error hx
    · simp [hnew] at hknown
    · omega

end Drafting

/-! ### Allotment -/

namespace Draft

variable {r : Registry} {arguments : List HookArgument} {first d : Draft}

/-- The register is that of a variable, a name which is no argument of the hook. -/
def HasVariable (d : Draft) (arguments : List HookArgument) (name : String) (index : UInt8) :
    Prop :=
  name ∉ arguments.map (·.name) ∧
    ∃ type writable, d.locals.find? name = some (.register index type writable)

/-- Behind the registers that are taken from the beginning, all are those of variables. -/
def Exhausted (r : Registry) (arguments : List HookArgument) (d : Draft) : Prop :=
  ∀ i, r.Behind arguments i → i < r.config.registers →
    ∃ name index, d.HasVariable arguments name index ∧ index.toNat = i

theorem hasVariable_iff_made (h : start r arguments = .ok first) {name : String} {index : UInt8} :
    d.HasVariable arguments name index ↔ first.Made d name index := by
  rw [HasVariable, Made, find?_eq_none_iff_of_start h]

/-- There is no room for another variable just if the next register is out of bounds. -/
theorem Allots.exhausted_iff (h : start r arguments = .ok first) (hd : first.Allots d) :
    d.Exhausted r arguments ↔ r.config.registers ≤ d.nextRegister := by
  constructor
  · intro hfull
    by_contra hfree
    -- the next register would be that of a variable
    have hbehind : r.Behind arguments d.nextRegister := (behind_iff_of_start h).mpr hd.next
    obtain ⟨name, index, hvariable, hindex⟩ := hfull _ hbehind (by omega)
    have := hd.handed name index ((hasVariable_iff_made h).mp hvariable)
    omega
  · intro hnext i hbehind hi
    obtain ⟨name, index, hmade, hindex⟩ :=
      hd.all i ((behind_iff_of_start h).mp hbehind) (by omega)
    exact ⟨name, index, (hasVariable_iff_made h).mpr hmade, hindex⟩

end Draft

/-- A script can begin with the arguments of any hook of the registry, and whatever statements and
declarations follow, whether they succeed or not:

argument `i` is register `i`, with its type, and can be written to if the hook says so;

every variable has a register of its own, behind all inputs, arguments and standing registers, which
the configuration has and which counts as in use;

a name that is not in scope is refused for want of a register just if all registers behind the
inputs, arguments and standing registers are those of variables, and otherwise it is declared;

a declaration that fails changes nothing. -/
theorem registers_are_allotted {r : Registry} (built : r.Built) {hook : Option HookSignature}
    (accepted : ∀ signature ∈ hook, signature ∈ r.hooks) {arguments : List HookArgument}
    (taken : (hook.map (·.arguments)).getD [] = arguments) :
    ∃ first, Draft.start r arguments = .ok first ∧ ∀ d, first.Reaches r d →
      (∀ i a, arguments[i]? = some a → (UInt8.ofNat i).toNat = i ∧
        d.locals.find? a.name = some (.register (UInt8.ofNat i) a.type a.writable)) ∧
      (∀ name index, d.HasVariable arguments name index →
        r.Behind arguments index.toNat ∧ index.toNat < r.config.registers ∧
          index.toNat < d.registersUsed ∧
          ∀ other, d.HasVariable arguments other index → other = name) ∧
      (∀ name type, d.lookup r name = none →
        (Drafting.declareVariable r name type d = .error (.tooManyRegisters name) d ↔
          d.Exhausted r arguments) ∧
        (¬ d.Exhausted r arguments → ∃ index d',
          Drafting.declareVariable r name type d = .ok index d' ∧
            d'.HasVariable arguments name index)) ∧
      ∀ name type kind d',
        Drafting.declareVariable r name type d = .error kind d' → d' = d := by
  subst taken
  have hr := built.sound
  obtain ⟨first, hfirst⟩ := Draft.exists_start built accepted
  have distinct : (((hook.map (·.arguments)).getD []).map (·.name)).Nodup := by
    cases hook with
    | none => exact List.nodup_nil
    | some signature => exact (built.tidy.hooks signature (accepted signature rfl)).2
  refine ⟨first, hfirst, fun d hd => ?_⟩
  have horderly := Draft.orderly_of_start hfirst
  have hevolves := hd.evolves hr horderly
  have hallots : first.Allots d := hevolves.allots hr
  have hhouses := hevolves.houses hr (Draft.houses_of_start hr hfirst)
  refine ⟨fun i a ha => ?_, fun name index hvariable => ?_, fun name type hnew => ?_,
    fun name type kind d' hx => ?_⟩
  · obtain ⟨hindex, hbound⟩ := Draft.find?_of_start hr hfirst distinct ha
    exact ⟨hindex, hallots.keeps _ _ hbound⟩
  · have hmade := (Draft.hasVariable_iff_made hfirst).mp hvariable
    obtain ⟨hfresh, type, writable, hn⟩ := hmade
    obtain ⟨hbehind, hused⟩ := hhouses.own name index type writable hfresh hn
    refine ⟨(Draft.behind_iff_of_start hfirst).mpr hbehind,
      (hevolves.orderly horderly).registers name index type writable hn, hused, fun other ho => ?_⟩
    exact hallots.apart name other index ⟨hfresh, type, writable, hn⟩
      ((Draft.hasVariable_iff_made hfirst).mp ho)
  · rw [hallots.exhausted_iff hfirst, Nat.not_le]
    refine ⟨Drafting.declareVariable_eq_tooManyRegisters_iff hnew, fun hfree => ?_⟩
    obtain ⟨index, d', hx, hn⟩ := Drafting.exists_declareVariable type hnew hfree
    have hfresh := hallots.find?_eq_none (Draft.lookup_eq_none hnew).1
    exact ⟨index, d', hx, (Draft.find?_eq_none_iff_of_start hfirst).mp hfresh, type, true, hn⟩
  · exact ((Drafting.declareVariable_spec r name type d).of_error hx).1

/-- With four registers there is room for one variable beside the three arguments of the hook. -/
theorem registers_are_allotted_levelHook : ∃ r first d', Registry.Built r ∧
    levelHook ∈ r.hooks ∧ Draft.start r levelHook.arguments = .ok first ∧
    Drafting.declareVariable r "x" .int first = .ok 3 d' ∧
    Drafting.declareVariable r "y" .int d' = .error (.tooManyRegisters "y") d' := by
  obtain ⟨r₀, hr₀, h⟩ := Registry.exists_standard { registers := 4 } (fun r₀ =>
    (Registration.Request.hook levelHook).passes r₀ fun r =>
      decide (levelHook ∈ r.hooks) && (decide (r.config.registers = 4) &&
        (Draft.start r levelHook.arguments).toOption.any fun first =>
          match Drafting.declareVariable r "x" .int first with
          | .ok index d' => decide (index = 3) && ((d'.lookup r "y").isNone &&
              decide (d'.locals.find? "x" = some (.register 3 .int true)))
          | .error _ _ => false)) (by decide +kernel)
  obtain ⟨r, hr, h⟩ := Registration.Request.exists_of_passes h
  simp only [Bool.and_eq_true, decide_eq_true_eq] at h
  obtain ⟨hhook, hfour, h⟩ := h
  have built := (Registry.Built.of_standard hr₀).of_request (.hook levelHook) hr
  have accepted : ∀ signature ∈ some levelHook, signature ∈ r.hooks := by simpa using hhook
  obtain ⟨first, hfirst, hreaches⟩ := registers_are_allotted built accepted rfl
  obtain ⟨first', hfirst', h⟩ := exists_ok h
  cases hfirst.symm.trans hfirst'
  cases hx : Drafting.declareVariable r "x" .int first with
  | error kind d' =>
    rw [hx] at h
    cases h
  | ok index d' =>
    rw [hx] at h
    simp only [Bool.and_eq_true, decide_eq_true_eq, Option.isNone_iff_eq_none] at h
    obtain ⟨rfl, hy, hn⟩ := h
    have hd' : first.Reaches r d' := by
      have := Draft.Reaches.declaration (.refl : first.Reaches r first) "x" .int
      rwa [Draft.onward, hx] at this
    refine ⟨r, first, d', built, hhook, hfirst, hx, ?_⟩
    refine ((hreaches d' hd').2.2.1 "y" .int hy).1.mpr fun i hbehind hi => ?_
    -- behind the arguments there is no other register than that of the variable
    have := hbehind 2 (.argument (by decide))
    obtain rfl : i = 3 := by omega
    exact ⟨"x", 3, ⟨by decide, .int, true, hn⟩, rfl⟩

end HookScript
