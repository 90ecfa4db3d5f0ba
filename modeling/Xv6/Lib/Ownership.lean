import Mathlib.Logic.Function.Basic
import Mathlib.Tactic.Tauto

/-!
# Units with at most one owner

A pool of units, some of them reserved. A unit is in use when it is reserved or when a
place refers to it, and no two places refer to the same unit.
-/

/-- `f k` is the unit that place `k` refers to. -/
structure Ownership {K B : Type*} (f : K → Option B) (reserved used : B → Prop) : Prop where
  inj : ∀ k k' b, f k = some b → f k' = some b → k = k'
  apart : ∀ k b, f k = some b → ¬ reserved b
  used_iff : ∀ b, used b ↔ reserved b ∨ ∃ k, f k = some b

namespace Ownership

variable {K B : Type*} {f f' : K → Option B} {reserved used used' : B → Prop} {k : K} {b : B}

theorem congr (h : Ownership f reserved used) (hf : ∀ k, f' k = f k)
    (hu : ∀ b, used' b ↔ used b) : Ownership f' reserved used' := by
  obtain rfl : f' = f := funext hf
  obtain rfl : used' = used := funext fun b => propext (hu b)
  exact h

theorem used_of_owner (h : Ownership f reserved used) (hk : f k = some b) : used b :=
  (h.used_iff b).mpr (Or.inr ⟨k, hk⟩)

theorem ne_of_not_used (h : Ownership f reserved used) (hb : ¬ used b) : f k ≠ some b :=
  fun hk => hb (h.used_of_owner hk)

variable [DecidableEq K]

theorem set (h : Ownership f reserved used) {v : Option B}
    (hv : ∀ b, v = some b → ¬ reserved b ∧ ∀ k', k' ≠ k → f k' ≠ some b)
    (hu : ∀ b, used' b ↔ reserved b ∨ v = some b ∨ ∃ k', k' ≠ k ∧ f k' = some b) :
    Ownership (Function.update f k v) reserved used' := by
  constructor
  · intro k₁ k₂ x h₁ h₂
    rw [Function.update_apply] at h₁ h₂
    split at h₁
    · next heq₁ =>
      split at h₂
      · next heq₂ => rw [heq₁, heq₂]
      · next hne => exact absurd h₂ ((hv x h₁).2 k₂ hne)
    · next hne =>
      split at h₂
      · exact absurd h₁ ((hv x h₂).2 k₁ hne)
      · exact h.inj k₁ k₂ x h₁ h₂
  · intro k' x hx
    rw [Function.update_apply] at hx
    split at hx
    · exact (hv x hx).1
    · exact h.apart k' x hx
  · intro x
    rw [hu x]
    refine or_congr_right ⟨?_, ?_⟩
    · rintro (hx | ⟨k', hne, hk'⟩)
      · exact ⟨k, by rw [Function.update_self, hx]⟩
      · exact ⟨k', by rw [Function.update_of_ne hne, hk']⟩
    · rintro ⟨k', hk'⟩
      rw [Function.update_apply] at hk'
      split at hk'
      · exact Or.inl hk'
      · next hne => exact Or.inr ⟨k', hne, hk'⟩

theorem take (h : Ownership f reserved used) (hk : f k = none) (hb : ¬ used b) :
    Ownership (Function.update f k (some b)) reserved fun x => x = b ∨ used x := by
  refine h.set (fun x hx => ?_) fun x => ?_
  · cases hx
    exact ⟨fun hr => hb ((h.used_iff b).mpr (Or.inl hr)), fun _ _ => h.ne_of_not_used hb⟩
  · have hplace : (∃ k', k' ≠ k ∧ f k' = some x) ↔ ∃ k', f k' = some x :=
      exists_congr fun k' => and_iff_right_of_imp fun hk' heq => by simp [heq, hk] at hk'
    rw [h.used_iff x, hplace, Option.some.injEq, eq_comm]
    tauto

theorem drop (h : Ownership f reserved used) (hk : f k = some b) :
    Ownership (Function.update f k none) reserved fun x => x ≠ b ∧ used x := by
  refine h.set nofun fun x => ?_
  rw [h.used_iff x]
  constructor
  · rintro ⟨hne, hr | ⟨k', hk'⟩⟩
    · exact Or.inl hr
    · refine Or.inr (Or.inr ⟨k', fun heq => hne ?_, hk'⟩)
      exact Option.some.inj (hk'.symm.trans (heq ▸ hk))
  · rintro (hr | hn | ⟨k', hne, hk'⟩)
    · exact ⟨fun heq => h.apart k b hk (heq ▸ hr), Or.inl hr⟩
    · cases hn
    · exact ⟨fun heq => hne (h.inj k' k b (heq ▸ hk') hk), Or.inr ⟨k', hk'⟩⟩

end Ownership
