/-
A program that is saved and linked again is the same program.

Against its own registry a compiled program passes the checks of the linker: its host functions are
where they were, and its code has been verified already.  Its registers are among those of the
registry too, unless a keyword of the host has asked for others.  The compiler does not compare the
registers that a keyword names with those that there are; the linker does.

* `Expansion.keeps_of_covered` and `Expansion.keeps_resolveAll` — how to see that a keyword of the
  host asks for nothing that its licence does not cover;
* `saved_programs_link_back` — the bytes of a program's image lead back to the program, exactly if
  the registry provides all its registers;
* `tooManyRegisters_of_strayRequest` — a keyword may take the last condition away;
* `images_link_after_further_requests` — an image is linked to the same program when its registry
  has grown.
-/
import HookScript.Proofs.Compile.Lines
import HookScript.Proofs.Compile.Registers
import HookScript.Proofs.Program.Bytes
import HookScript.Proofs.Program.Linking
import HookScript.Proofs.Registry.Consistency

namespace HookScript

/-! ### Keywords within the registers -/

namespace Expansion

variable {r : Registry} {L : Licence} {d : Draft}

/-- The licence covers a keyword if it covers its first request, and what follows every answer. -/
theorem keeps_of_covered {e : Expansion} (h : e.Covered r L d)
    (hnext : ∀ e' d', Answered r d e e' d' → e'.Keeps r L d') : e.Keeps r L d := by
  intro e' d' hc
  cases hc with
  | refl => exact h
  | head first rest => exact hnext _ _ first _ _ rest

theorem keeps_done : Keeps r L done d := keeps_of_covered trivial nofun

theorem keeps_reject (kind : CompileError.Kind) : Keeps r L (reject kind) d :=
  keeps_of_covered trivial nofun

/-- What tokens stand for are registers that the registry provides, or no registers. -/
theorem keeps_resolveAll (hr : r.Sound) (hd : d.InCapacity r) {tokens : List Token}
    {next : List Argument → Expansion}
    (hnext : ∀ arguments, r.Provides arguments → (next arguments).Keeps r L d) :
    (resolveAll tokens next).Keeps r L d := by
  induction tokens generalizing next with
  | nil => exact hnext [] (by simp [Registry.Provides])
  | cons t tokens ih =>
    refine keeps_of_covered trivial fun e' d' ha => ?_
    cases ha with
    | resolve =>
      cases ht : d.resolve r t with
      | error kind => exact keeps_reject kind
      | ok a =>
        exact ih fun arguments harguments =>
          hnext (a :: arguments) (List.forall_mem_cons.mpr ⟨hd.resolve hr ht, harguments⟩)

end Expansion

/-! ### Compiled programs -/

/-- The image of a compiled program is linked to the program, if the registry provides all its
registers. -/
theorem link_image_of_compile {r : Registry} (hr : r.Sound) {hook : Option HookSignature}
    {source : String} {p : Program} (h : compile r hook source = .ok p)
    (numbered : ∀ n ∈ p.natives, n.id < UInt32.size)
    (provided : p.registers.toNat ≤ r.config.registers) : p.image.link r = .ok p := by
  refine ProgramImage.link_eq_ok_iff.mpr ⟨rfl, provided, rfl, rfl, ?_, verify_of_compile h⟩
  -- every reference means the host function that it was made from
  refine List.forall₂_map_left_iff.mpr (List.forall₂_same.mpr fun n hn => ⟨?_, rfl⟩)
  have hn : n ∈ p.natives := Array.mem_toList_iff.mp hn
  show r.native? (UInt32.ofNat n.id).toNat = some n
  rw [UInt32.toNat_ofNat_of_lt' (numbered n hn)]
  exact natives_of_compile hr h n hn

/-- A program that is saved and linked again is the same program, so that it does the same in every
run, exactly if the registry provides all its registers.  Its image can always be read from its
bytes, and linking the image against the registry of the program leads back to the program, or is
refused for the registers.  The registry provides all of them unless a keyword of the host has asked
for others.  Lengths and numbers of host functions must fit the types that they are saved as. -/
theorem saved_programs_link_back {r : Registry} (hr : r.Built) {hook : Option HookSignature}
    {source : String} {p : Program} (h : compile r hook source = .ok p)
    (storable : p.image.Storable) (numbered : ∀ n ∈ p.natives, n.id < UInt32.size) :
    ProgramImage.ofBytes p.image.toBytes = .ok p.image ∧
      (p.image.link r = .ok p ↔ p.registers.toNat ≤ r.config.registers) ∧
      (¬ p.registers.toNat ≤ r.config.registers →
        p.image.link r = .error (.tooManyRegisters p.registers r.config.registers)) ∧
      (r.KeywordsProvided → p.image.link r = .ok p) := by
  have hbytes := ProgramImage.ofBytes_toBytes storable []
  rw [List.append_nil] at hbytes
  refine ⟨hbytes, ⟨fun hlink => ?_, link_image_of_compile hr.sound h numbered⟩, fun hexceeds => ?_,
    fun keywords => ?_⟩
  · exact (ProgramImage.link_eq_ok_iff.mp hlink).capacity
  · exact ProgramImage.link_of_exceeds rfl (Nat.not_le.mp hexceeds)
  · exact link_image_of_compile hr.sound h numbered (registers_le_of_compile hr.sound keywords h)

/-- A keyword that adds a register to itself. -/
def doubleStatement (s : Statement) : Expansion :=
  .resolveAll s.arguments fun arguments =>
    .emit Builtin.add.name (arguments ++ arguments) (.orReject fun _ => .done)

theorem doubleStatement_keeps {r : Registry} (hr : r.Sound) {d : Draft} (hd : d.InCapacity r)
    (s : Statement) : (doubleStatement s).Keeps r (.emitting r.Provides) d := by
  refine Expansion.keeps_resolveAll hr hd fun arguments harguments => ?_
  have htwice : r.Provides (arguments ++ arguments) :=
    List.forall_mem_append.mpr ⟨harguments, harguments⟩
  refine Expansion.keeps_of_covered (fun _ _ _ _ => ⟨fun _ _ => trivial, htwice⟩) fun e' d' ha => ?_
  cases ha with
  | emit =>
    rename_i answer _
    cases answer with
    | ok _ => exact Expansion.keeps_done
    | error kind => exact Expansion.keeps_reject kind

/-- A request that adds this keyword. -/
def doubleRequest : Registration.Request :=
  .keyword "double" (.custom doubleStatement)

/-- In a registry with no other keywords of the host, this one uses registers of the registry. -/
theorem keywordsProvided_of_double {r r' : Registry} (own : r.OwnForms) (hr' : r'.Sound)
    (h : doubleRequest.perform r = .ok () r') : r'.KeywordsProvided := by
  intro name op form s d hop hform hd
  obtain ⟨-, rfl⟩ := (Registration.operation_ensures (r := r)
    ⟨"double", [], .custom doubleStatement, true⟩).of_ok h
  rw [Registry.operation?_withOperation] at hop
  split at hop
  · cases hop
    cases hform
    exact doubleStatement_keeps hr' hd s
  · exact absurd hform (own name op hop form)

/-- A host function that triples a register. -/
def tripleRequest : Registration.Request :=
  .function "triple" [.intVar] "" (.get 0 fun value => .set 0 (3 * value) (.finish .proceed))

/-- A script that uses the keyword and the host function. -/
def savedScript : String := "double r1; triple r1; set r0 r1;"

/-- Whether the script becomes a program with small numbers everywhere. -/
def Registry.savesScript (r : Registry) : Bool :=
  (compile r none savedScript).toOption.any fun p =>
    decide (p.image.code.size < UInt64.size ∧ p.image.natives.length < UInt64.size ∧
      (∀ n ∈ p.image.natives, n.symbol.toUTF8.data.toList.length < UInt64.size) ∧
      ∀ id ∈ p.natives.toList.map NativeBinding.id, id < UInt32.size)

theorem saved_programs_link_back_savedScript : ∃ r p, Registry.Built r ∧ r.KeywordsProvided ∧
    compile r none savedScript = .ok p ∧ p.image.Storable ∧
    (∀ n ∈ p.natives, n.id < UInt32.size) ∧
    ProgramImage.ofBytes p.image.toBytes = .ok p.image ∧ p.image.link r = .ok p := by
  obtain ⟨r₀, hr₀, h⟩ := Registry.exists_standard {} (fun r => tripleRequest.passes r fun r =>
    r.operations.toList.all (fun op => !op.2.form.isCustom) &&
      doubleRequest.passes r Registry.savesScript) (by decide +kernel)
  obtain ⟨r₁, hr₁, h⟩ := tripleRequest.exists_of_passes h
  obtain ⟨hown, h⟩ := Bool.and_eq_true_iff.mp h
  obtain ⟨r, hr, h⟩ := doubleRequest.exists_of_passes h
  obtain ⟨p, hp, h⟩ := exists_ok h
  obtain ⟨hcode, hnatives, hsymbols, hids⟩ := of_decide_eq_true h
  have hbuilt : r.Built :=
    ((Registry.Built.of_standard hr₀).of_request tripleRequest hr₁).of_request doubleRequest hr
  have hkeywords := keywordsProvided_of_double (Registry.ownForms_of_all hown) hbuilt.sound hr
  have hstorable : p.image.Storable := ⟨hcode, hnatives, hsymbols⟩
  have hnumbered : ∀ n ∈ p.natives, n.id < UInt32.size := fun n hn =>
    hids _ (List.mem_map_of_mem (Array.mem_toList_iff.mpr hn))
  obtain ⟨hread, -, -, hlink⟩ := saved_programs_link_back hbuilt hp hstorable hnumbered
  exact ⟨r, p, hbuilt, hkeywords, hp, hstorable, hnumbered, hread, hlink hkeywords⟩

/-- A request for a keyword that clears register 200. -/
def strayRequest : Registration.Request :=
  .keyword "stray" (.custom fun _ =>
    .emit Builtin.clear.name [.register 200 .int true] (.orReject fun _ => .done))

/-- A keyword may use a register that the registry does not provide.  The script compiles to a
program that passes verification, and the registry that it was compiled with refuses its image. -/
theorem tooManyRegisters_of_strayRequest : ∃ r₀ r p, Registry.standard? {} = .ok r₀ ∧
    strayRequest.perform r₀ = .ok () r ∧ r.Built ∧ r.config.registers = 64 ∧
    compile r none "stray;" = .ok p ∧ p.verify = .ok () ∧
    ProgramImage.ofBytes p.image.toBytes = .ok p.image ∧
    p.image.link r = .error (.tooManyRegisters 201 64) := by
  obtain ⟨r₀, hr₀, h⟩ := Registry.exists_standard {} (fun r₀ => strayRequest.passes r₀ fun r =>
    decide (r.config.registers = 64) && (compile r none "stray;").toOption.any fun p : Program =>
      decide (p.registers = 201 ∧ p.code.size = 3 ∧ p.natives.size = 0)) (by decide +kernel)
  obtain ⟨r, hr, h⟩ := strayRequest.exists_of_passes h
  obtain ⟨hcapacity, h⟩ := Bool.and_eq_true_iff.mp h
  obtain ⟨p, hp, h⟩ := exists_ok h
  obtain ⟨hregisters, hsize, hnatives⟩ := of_decide_eq_true h
  have hcapacity : r.config.registers = 64 := of_decide_eq_true hcapacity
  have hnone : p.natives = #[] := Array.eq_empty_of_size_eq_zero hnatives
  have hstorable : p.image.Storable := by
    refine ⟨?_, ?_, ?_⟩
    · show p.code.size < UInt64.size
      rw [hsize]
      decide
    · simp [Program.image, hnone]
    · simp [Program.image, hnone]
  have hread := ProgramImage.ofBytes_toBytes hstorable []
  rw [List.append_nil] at hread
  have hlink : p.image.link r = .error (.tooManyRegisters p.registers r.config.registers) := by
    refine ProgramImage.link_of_exceeds rfl ?_
    show r.config.registers < p.registers.toNat
    rw [hcapacity, hregisters]
    decide
  rw [hregisters, hcapacity] at hlink
  exact ⟨r₀, r, p, hr₀, hr, (Registry.Built.of_standard hr₀).of_request strayRequest hr, hcapacity,
    hp, verify_of_compile hp, hread, hlink⟩

/-! ### Registries that have grown -/

/-- Further requests leave every host function under its number and name. -/
theorem ProgramImage.Means.of_later {r r' : Registry} (later : r.Later r') {n : NativeReference}
    {binding : NativeBinding} (h : Means r n binding) : Means r' n binding :=
  ⟨later.grows.natives _ _ h.registered, h.symbol⟩

theorem ProgramImage.Links.of_later {r r' : Registry} (later : r.Later r') {i : ProgramImage}
    {p : Program} (h : i.Links r p) : i.Links r' p := by
  refine { h with capacity := ?_, natives := h.natives.imp fun _ _ hm => hm.of_later later }
  rw [later.config_eq]
  exact h.capacity

/-- An image that can be linked against a registry can be linked against all that the registry
becomes by further requests, successful or not, and to the very same program: the same code, the
same number of registers, and the same host functions. -/
theorem images_link_after_further_requests {r : Registry} {i : ProgramImage} {p : Program}
    (linked : i.link r = .ok p) (requests : List Registration.Request) :
    (r.throughout requests).config = r.config ∧ i.link (r.throughout requests) = .ok p := by
  have later := r.later_throughout requests
  have hlinks := (ProgramImage.link_eq_ok_iff.mp linked).of_later later
  exact ⟨later.config_eq, ProgramImage.link_eq_ok_iff.mpr hlinks⟩

/-- A script that uses the host function alone. -/
def triplingScript : String := "triple r0;"

theorem images_link_after_unitRequests : ∃ (r : Registry) (i : ProgramImage) (p : Program),
    r.Built ∧ (∃ q, compile r none triplingScript = .ok q ∧ i = q.image) ∧ i.link r = .ok p ∧
      p.natives.size = 1 ∧ i.link (r.throughout unitRequests) = .ok p := by
  obtain ⟨r₀, hr₀, h⟩ := Registry.exists_standard {} (fun r => tripleRequest.passes r fun r =>
    (compile r none triplingScript).toOption.any fun q => (q.image.link r).toOption.any fun p =>
      decide (p.natives.size = 1)) (by decide +kernel)
  obtain ⟨r, hr, h⟩ := tripleRequest.exists_of_passes h
  obtain ⟨q, hq, h⟩ := exists_ok h
  obtain ⟨p, hp, h⟩ := exists_ok h
  exact ⟨r, q.image, p, (Registry.Built.of_standard hr₀).of_request tripleRequest hr, ⟨q, hq, rfl⟩,
    hp, of_decide_eq_true h, (images_link_after_further_requests hp unitRequests).2⟩

end HookScript
