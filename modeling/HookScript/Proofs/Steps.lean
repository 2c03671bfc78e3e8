/-
Steps that change a state and may fail.

`Ensures x s done failed` says what a step `x` leads to from the state `s`: an answer and a state
with the property `done`, or an error and a state with the property `failed`.

* `bind_of_ok` and `Ensures.bind` — steps in a row;
* `Ensures.forM` — one step for each entry of a list;
* `Ensures.mono` and `Ensures.and` — weaker properties, and two of them;
* `mapM_eq_ok_iff` — answers in a row.
-/
import Mathlib.Data.List.Forall2

namespace HookScript

variable {ε σ α β : Type}

/-- From the state `s` the step ends well in a state with one property, or fails in a state with
the other. -/
def Ensures (x : EStateM ε σ α) (s : σ) (done : α → σ → Prop) (failed : ε → σ → Prop) : Prop :=
  match x s with
  | .ok a s' => done a s'
  | .error e s' => failed e s'

section

variable {x : EStateM ε σ α} {f : α → EStateM ε σ β} {s s' : σ} {a : α} {e : ε}
  {done : α → σ → Prop} {failed : ε → σ → Prop} {after : β → σ → Prop}

theorem bind_of_ok (h : x s = .ok a s') : (x >>= f) s = f a s' := by
  show EStateM.bind x f s = f a s'
  rw [EStateM.bind, h]

theorem bind_of_error (h : x s = .error e s') : (x >>= f) s = .error e s' := by
  show EStateM.bind x f s = .error e s'
  rw [EStateM.bind, h]

theorem get_bind (f : σ → EStateM ε σ β) (s : σ) : (get >>= f) s = f s s := rfl

theorem Ensures.bind (h : Ensures x s done failed)
    (hf : ∀ a s', done a s' → Ensures (f a) s' after failed) :
    Ensures (x >>= f) s after failed := by
  unfold Ensures at h ⊢
  have hbind : (x >>= f) s = match x s with
    | .ok a s' => f a s'
    | .error e s' => .error e s' := rfl
  rw [hbind]
  cases hx : x s with
  | ok a s' =>
    rw [hx] at h
    exact hf a s' h
  | error e s' =>
    rw [hx] at h
    exact h

theorem Ensures.mono {done' : α → σ → Prop} {failed' : ε → σ → Prop}
    (h : Ensures x s done failed) (hd : ∀ a s', done a s' → done' a s')
    (he : ∀ e s', failed e s' → failed' e s') : Ensures x s done' failed' := by
  unfold Ensures at h ⊢
  cases hx : x s with
  | ok a s' =>
    rw [hx] at h
    exact hd a s' h
  | error e s' =>
    rw [hx] at h
    exact he e s' h

theorem Ensures.and {done' : α → σ → Prop} {failed' : ε → σ → Prop} (h : Ensures x s done failed)
    (h' : Ensures x s done' failed') :
    Ensures x s (fun a s' => done a s' ∧ done' a s') (fun e s' => failed e s' ∧ failed' e s') := by
  unfold Ensures at h h' ⊢
  cases hx : x s with
  | ok a s' =>
    rw [hx] at h h'
    exact ⟨h, h'⟩
  | error e s' =>
    rw [hx] at h h'
    exact ⟨h, h'⟩

theorem Ensures.of_ok (h : Ensures x s done failed) (hx : x s = .ok a s') : done a s' := by
  rw [Ensures, hx] at h
  exact h

theorem Ensures.of_error (h : Ensures x s done failed) (hx : x s = .error e s') :
    failed e s' := by
  rw [Ensures, hx] at h
  exact h

end

section

variable {f : α → EStateM ε σ β} {done : α → σ → Prop} {failed : ε → σ → Prop}
  {after : β → σ → Prop} {s : σ}

@[simp] theorem ensures_pure (a : α) :
    Ensures (pure a : EStateM ε σ α) s done failed ↔ done a s := Iff.rfl

@[simp] theorem ensures_throw (e : ε) :
    Ensures (throw e : EStateM ε σ α) s done failed ↔ failed e s := Iff.rfl

@[simp] theorem ensures_pure_bind (a : α) :
    Ensures ((pure a : EStateM ε σ α) >>= f) s after failed ↔ Ensures (f a) s after failed :=
  Iff.rfl

@[simp] theorem ensures_get_bind (f : σ → EStateM ε σ β) :
    Ensures (get >>= f) s after failed ↔ Ensures (f s) s after failed := Iff.rfl

@[simp] theorem ensures_modify_bind (g : σ → σ) (f : PUnit → EStateM ε σ β) :
    Ensures ((modify g : EStateM ε σ PUnit) >>= f) s after failed ↔
      Ensures (f ⟨⟩) (g s) after failed := Iff.rfl

end

/-- What each step preserves, all of them preserve. -/
theorem Ensures.forM {P : σ → Prop} {f : α → EStateM ε σ PUnit} {xs : List α}
    (h : ∀ x s, P s → Ensures (f x) s (fun _ => P) (fun _ _ => True)) {s : σ} (hs : P s) :
    Ensures (xs.forM f) s (fun _ => P) (fun _ _ => True) := by
  induction xs generalizing s with
  | nil => exact hs
  | cons x xs ih => exact (h x s hs).bind fun _ s' hs' => ih hs'

/-- Answers in a row succeed if each of them does. -/
theorem mapM_eq_ok_iff {α β ε : Type} {f : α → Except ε β} {xs : List α} {ys : List β} :
    xs.mapM f = .ok ys ↔ List.Forall₂ (fun x y => f x = .ok y) xs ys := by
  constructor
  · intro h
    induction xs generalizing ys with
    | nil =>
      cases h
      exact .nil
    | cons x xs ih =>
      rw [List.mapM_cons] at h
      cases hx : f x with
      | error e =>
        rw [hx] at h
        cases h
      | ok y =>
        cases hrest : xs.mapM f with
        | error e =>
          rw [hx, hrest] at h
          cases h
        | ok rest =>
          rw [hx, hrest] at h
          cases h
          exact .cons hx (ih hrest)
  · intro h
    induction h with
    | nil => rfl
    | cons hx _ ih =>
      rw [List.mapM_cons, hx, ih]
      rfl

end HookScript
