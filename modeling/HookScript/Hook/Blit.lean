/-
Blit hooks: sprites recoloured pixel by pixel.

A sprite is composed over a destination.  A source pixel of zero is transparent; for every other
one the hook's script computes a pixel from the source pixel, the destination pixel and the values
of the blit, and the low byte of its result is written unless it is zero.  Without a script the
source pixel is darkened by the shade.

* `BlitHook.blit` composes a whole row of pixels.
* `BlitHook.blend` says what becomes of one pixel.
-/
import HookScript.Hook.Script

namespace HookScript

/-- The values of a blit that all of its pixels share. -/
structure BlitContext where
  shade : Int32 := 0
  animationFrame : Int32 := 0
  part : Int32 := 0
deriving DecidableEq, Repr

namespace BlitHook

/-- The signature of a blit hook; handles to host objects may follow. -/
def signature (name : String) : HookSignature :=
  let h := (HookSignature.named name).writable "new_pixel" .int
  let h := (h.readOnly "old_pixel" .int).readOnly "shade" .int
  ((h.readOnly "anim_frame" .int).readOnly "blit_part" .int).returning 1

/-- What a result makes of the destination pixel `old`. -/
def blend (old : UInt8) (result : Int32) : UInt8 :=
  let new := UInt8.ofNat result.toUInt32.toNat
  if new = 0 then old else new

/-- The state of a blit: the pixels written so far, the hook, the worker, the events. -/
structure Progress where
  written : Array UInt8
  hook : ScriptHook
  worker : Worker
  events : Array Event

/-- Composes pixels by a script. -/
def blitScripted (p : Program) (context : BlitContext) (handles : List Int32) (state : Progress) :
    List (UInt8 × UInt8) → Progress
  | [] => state
  | (new, old) :: pixels =>
    if new = 0 then
      blitScripted p context handles { state with written := state.written.push old } pixels
    else
      let inputs := Int32.ofNat new.toNat :: Int32.ofNat old.toNat :: context.shade ::
        context.animationFrame :: context.part :: handles
      let i := state.hook.runProgram p state.worker inputs
      blitScripted p context handles
        ⟨state.written.push (blend old i.value), i.hook, i.worker,
          state.events.appendList i.events⟩ pixels

/-- What a blit without a script makes of a pixel. -/
def shaded (context : BlitContext) (new old : UInt8) : UInt8 :=
  if new = 0 then old
  else blend old (Arithmetic.addShade (Int32.ofNat new.toNat) context.shade)

/-- Composes `source` over `destination`; the pixels of the longer one beyond the other stay. -/
def blit (h : ScriptHook) (context : BlitContext) (handles : List Int32) (worker : Worker)
    (source destination : List UInt8) : Progress :=
  let pixels := source.zip destination
  let beyond := destination.drop pixels.length
  match h.program with
  | some p =>
    let state := blitScripted p context handles ⟨#[], h, worker, #[]⟩ pixels
    { state with written := state.written.appendList beyond }
  | none =>
    ⟨((pixels.map fun (new, old) => shaded context new old) ++ beyond).toArray, h, worker, #[]⟩

end BlitHook

end HookScript
