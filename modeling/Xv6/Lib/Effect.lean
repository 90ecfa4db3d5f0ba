/-!
# Computations that report events

A computation on a state that may fail and that tells what it did as a list of events,
with rules to derive what holds when it returns.
-/

def Effect (S E F α : Type) := S → Except F (α × S × List E)

namespace Effect

variable {S E F α β : Type}

def pure (a : α) : Effect S E F α := fun s => .ok (a, s, [])

def bind (m : Effect S E F α) (f : α → Effect S E F β) : Effect S E F β := fun s =>
  match m s with
  | .error e => .error e
  | .ok (a, s', ev) =>
    match f a s' with
    | .error e => .error e
    | .ok (b, s'', ev') => .ok (b, s'', ev ++ ev')

instance : Monad (Effect S E F) where
  pure := pure
  bind := bind

def get : Effect S E F S := fun s => .ok (s, s, [])

def modify (f : S → S) : Effect S E F Unit := fun s => .ok ((), f s, [])

def emit (e : E) : Effect S E F Unit := fun s => .ok ((), s, [e])

def fail (e : F) : Effect S E F α := fun _ => .error e

variable {m : Effect S E F α} {s : S} {Q Q' : α → S → List E → Prop}

/-- What holds when the computation ends: `Q` of the result, the state after and the events,
`X` of a failure. -/
def Ends (m : Effect S E F α) (s : S) (Q : α → S → List E → Prop) (X : F → Prop) : Prop :=
  match m s with
  | .ok (a, s', ev) => Q a s' ev
  | .error e => X e

section Ends

variable {X X' : F → Prop}

theorem Ends.mono (h : Ends m s Q X) (hQ : ∀ a s' ev, Q a s' ev → Q' a s' ev)
    (hX : ∀ e, X e → X' e) : Ends m s Q' X' := by
  unfold Ends at h ⊢
  split
  · next a s' ev hm =>
    rw [hm] at h
    exact hQ a s' ev h
  · next e hm =>
    rw [hm] at h
    exact hX e h

theorem Ends.and (h : Ends m s Q X) (h' : Ends m s Q' X') :
    Ends m s (fun a s' ev => Q a s' ev ∧ Q' a s' ev) fun e => X e ∧ X' e := by
  unfold Ends at h h' ⊢
  split
  · next a s' ev hm =>
    rw [hm] at h h'
    exact ⟨h, h'⟩
  · next e hm =>
    rw [hm] at h h'
    exact ⟨h, h'⟩

theorem ends_pure {a : α} (h : Q a s []) : Ends (Pure.pure a : Effect S E F α) s Q X := h

theorem ends_bind {f : α → Effect S E F β} {Q : β → S → List E → Prop}
    (h : Ends m s (fun a s₁ ev₁ => Ends (f a) s₁ (fun b s₂ ev₂ => Q b s₂ (ev₁ ++ ev₂)) X) X) :
    Ends (m >>= f) s Q X := by
  unfold Ends at h ⊢
  change match bind m f s with
    | .ok (a, s', ev) => Q a s' ev
    | .error e => X e
  unfold bind
  cases hm : m s with
  | error e =>
    rwa [hm] at h
  | ok r =>
    obtain ⟨a, s₁, ev₁⟩ := r
    rw [hm] at h
    dsimp only at h ⊢
    cases hf : f a s₁ with
    | error e =>
      rwa [hf] at h
    | ok r =>
      obtain ⟨b, s₂, ev₂⟩ := r
      rwa [hf] at h

theorem ends_get {Q : S → S → List E → Prop} (h : Q s s []) :
    Ends (get : Effect S E F S) s Q X := h

theorem ends_modify {f : S → S} {Q : Unit → S → List E → Prop} (h : Q () (f s) []) :
    Ends (modify f : Effect S E F Unit) s Q X := h

theorem ends_emit {e : E} {Q : Unit → S → List E → Prop} (h : Q () s [e]) :
    Ends (emit e : Effect S E F Unit) s Q X := h

theorem ends_fail {e : F} (h : X e) : Ends (fail e : Effect S E F α) s Q X := h

theorem Ends.of_ok {a : α} {s' : S} {ev : List E} (h : Ends m s Q X)
    (hm : m s = .ok (a, s', ev)) : Q a s' ev := by
  unfold Ends at h
  rwa [hm] at h

/-- A computation that cannot fail returns. -/
theorem Ends.ok (h : Ends m s Q fun _ => False) :
    ∃ a s' ev, m s = .ok (a, s', ev) ∧ Q a s' ev := by
  unfold Ends at h
  split at h
  · next a s' ev hm => exact ⟨a, s', ev, hm, h⟩
  · exact h.elim

end Ends

/-! ## One run of a computation -/

section Run

def Gives (m : Effect S E F α) (s : S) (a : α) (s' : S) : Prop := ∃ ev, m s = .ok (a, s', ev)

def Fails (m : Effect S E F α) (s : S) : Prop := ∃ e, m s = .error e

variable {a : α} {b : β} {s' s'' : S} {f : α → Effect S E F β} {X : F → Prop}

theorem gives_pure : Gives (Pure.pure a : Effect S E F α) s a s := ⟨[], rfl⟩

theorem gives_get : Gives (get : Effect S E F S) s s s := ⟨[], rfl⟩

theorem gives_modify {g : S → S} : Gives (modify g : Effect S E F Unit) s () (g s) := ⟨[], rfl⟩

theorem gives_emit {e : E} : Gives (emit e : Effect S E F Unit) s () s := ⟨[e], rfl⟩

theorem gives_bind (hm : Gives m s a s') (hf : Gives (f a) s' b s'') :
    Gives (m >>= f) s b s'' := by
  obtain ⟨ev, hm⟩ := hm
  obtain ⟨ev', hf⟩ := hf
  refine ⟨ev ++ ev', ?_⟩
  show bind m f s = _
  unfold bind
  rw [hm]
  dsimp only
  rw [hf]

theorem Fails.bind (hm : Fails m s) : Fails (m >>= f) s := by
  obtain ⟨e, hm⟩ := hm
  refine ⟨e, ?_⟩
  show Effect.bind m f s = _
  unfold Effect.bind
  rw [hm]

theorem fails_bind (hm : Gives m s a s') (hf : Fails (f a) s') : Fails (m >>= f) s := by
  obtain ⟨ev, hm⟩ := hm
  obtain ⟨e, hf⟩ := hf
  refine ⟨e, ?_⟩
  show bind m f s = _
  unfold bind
  rw [hm]
  dsimp only
  rw [hf]

theorem Ends.of_gives (h : Ends m s Q X) (hm : Gives m s a s') : ∃ ev, Q a s' ev := by
  obtain ⟨ev, hm⟩ := hm
  exact ⟨ev, h.of_ok hm⟩

theorem Ends.of_fails (h : Ends m s Q X) (hm : Fails m s) : ∃ e, X e := by
  obtain ⟨e, hm⟩ := hm
  unfold Ends at h
  rw [hm] at h
  exact ⟨e, h⟩

end Run

/-! ## What a computation leaves alone -/

section Leaves

variable {R : Type}

def Leaves (m : Effect S E F α) (g : S → R) : Prop :=
  ∀ s a s' ev, m s = .ok (a, s', ev) → g s' = g s

variable {g : S → R}

theorem leaves_pure {a : α} : Leaves (Pure.pure a : Effect S E F α) g := by
  intro s a' s' ev hm
  cases hm
  rfl

theorem leaves_bind {f : α → Effect S E F β} (hm : Leaves m g) (hf : ∀ a, Leaves (f a) g) :
    Leaves (m >>= f) g := by
  intro s b s₂ ev h
  change bind m f s = _ at h
  unfold bind at h
  split at h
  · cases h
  · next a s₁ ev₁ hm₁ =>
    split at h
    · cases h
    · next b' s₂' ev₂ hf₁ =>
      cases h
      rw [hf a s₁ b s₂ ev₂ hf₁, hm s a s₁ ev₁ hm₁]

theorem leaves_get : Leaves (get : Effect S E F S) g := by
  intro s a s' ev hm
  cases hm
  rfl

theorem leaves_modify {f : S → S} (h : ∀ s, g (f s) = g s) :
    Leaves (modify f : Effect S E F Unit) g := by
  intro s a s' ev hm
  cases hm
  exact h s

theorem leaves_emit {e : E} : Leaves (emit e : Effect S E F Unit) g := by
  intro s a s' ev hm
  cases hm
  rfl

theorem leaves_fail {e : F} : Leaves (fail e : Effect S E F α) g := by
  intro s a s' ev hm
  cases hm

end Leaves

end Effect
