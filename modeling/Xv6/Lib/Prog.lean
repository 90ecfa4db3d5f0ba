/-!
# Programs that make calls

A program is a tree: it returns, or makes a call and goes on with what the call gives.
`exec` runs a program alone, with its calls as steps of a state; `Does` is what such a run
comes to.
-/

/-- Programs over calls `C`. -/
inductive Prog (C : Type → Type) (α : Type) : Type 1
  | ret (a : α)
  | call {β : Type} (c : C β) (k : β → Prog C α)

namespace Prog

variable {C : Type → Type} {α β : Type}

def bind : Prog C α → (α → Prog C β) → Prog C β
  | ret a, f => f a
  | call c k, f => call c fun b => (k b).bind f

instance : Monad (Prog C) where
  pure := ret
  bind := bind

def lift (c : C β) : Prog C β := call c ret

@[simp] theorem call_bind {γ : Type} (c : C γ) (k : γ → Prog C α) (f : α → Prog C β) :
    (call c k >>= f) = call c fun b => k b >>= f := rfl

section Exec

variable {S F : Type} (step : ∀ β : Type, C β → S → Except F (β × S))

def exec : Prog C α → S → Except F (α × S)
  | ret a, s => .ok (a, s)
  | call c k, s =>
    match step _ c s with
    | .error e => .error e
    | .ok (b, s') => (k b).exec s'

/-- The program returns with `Q`, or it fails with `X`. -/
def Does (p : Prog C α) (s : S) (Q : α → S → Prop) (X : F → Prop) : Prop :=
  match p.exec step s with
  | .ok (a, s') => Q a s'
  | .error e => X e

variable {step} {p : Prog C α} {s : S} {Q Q' : α → S → Prop} {X X' : F → Prop}

theorem Does.mono (h : p.Does step s Q X) (hQ : ∀ a s', Q a s' → Q' a s')
    (hX : ∀ e, X e → X' e) : p.Does step s Q' X' := by
  unfold Does at h ⊢
  split
  · next a s' hp =>
    rw [hp] at h
    exact hQ a s' h
  · next e hp =>
    rw [hp] at h
    exact hX e h

theorem does_pure {a : α} (h : Q a s) : (pure a : Prog C α).Does step s Q X := h

theorem does_call {c : C β} {k : β → Prog C α} : (call c k).Does step s Q X ↔
    match step _ c s with
    | .ok (b, s') => (k b).Does step s' Q X
    | .error e => X e := by
  unfold Does
  rw [exec]
  cases step _ c s with
  | error e | ok r => exact Iff.rfl

theorem does_bind {f : α → Prog C β} {Q : β → S → Prop}
    (h : p.Does step s (fun a s' => (f a).Does step s' Q X) X) :
    (p >>= f).Does step s Q X := by
  induction p generalizing s with
  | ret a => exact h
  | call c k ih =>
    rw [does_call] at h
    rw [call_bind, does_call]
    cases hc : step _ c s with
    | error e =>
      rwa [hc] at h
    | ok r =>
      rw [hc] at h
      exact ih r.1 h

theorem does_lift {c : C β} {Q : β → S → Prop}
    (h : match step _ c s with
      | .ok (b, s') => Q b s'
      | .error e => X e) : (lift c).Does step s Q X :=
  does_call.mpr h

theorem does_step {c : C β} {k : β → Prog C α} {b : β} {s' : S} (hc : step β c s = .ok (b, s'))
    (h : (k b).Does step s' Q X) : (lift c >>= k).Does step s Q X := by
  apply does_bind
  apply does_lift
  rwa [hc]

/-- A program that cannot fail returns. -/
theorem Does.ok (h : p.Does step s Q fun _ => False) :
    ∃ a s', p.exec step s = .ok (a, s') ∧ Q a s' := by
  unfold Does at h
  split at h
  · next a s' hp => exact ⟨a, s', hp, h⟩
  · exact h.elim

end Exec

end Prog
