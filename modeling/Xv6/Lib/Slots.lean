import Mathlib.Data.List.Basic

/-!
# Maps kept in an array with empty places

An array of places, each empty or with a key and a value. While no key stands in two
places the array is a finite map: filling an empty place adds a key, emptying a place
removes one.
-/

/-- An array of places; what `get` gives from `size` on does not count. -/
structure Slots (K V : Type) where
  size : Nat
  get : Nat → Option (K × V)

namespace Slots

variable {K V : Type}

def Holds (e : Slots K V) (i : Nat) (k : K) (v : V) : Prop := i < e.size ∧ e.get i = some (k, v)

def Unique (e : Slots K V) : Prop := ∀ i j k v w, e.Holds i k v → e.Holds j k w → i = j

def set (e : Slots K V) (i : Nat) (x : Option (K × V)) : Slots K V where
  size := max e.size (i + 1)
  get := Function.update e.get i x

def find [DecidableEq K] (e : Slots K V) (k : K) : Option Nat :=
  (List.range e.size).find? fun i => (e.get i).any fun x => decide (x.1 = k)

def lookup [DecidableEq K] (e : Slots K V) (k : K) : Option V :=
  (e.find k).bind fun i => (e.get i).map Prod.snd

variable {e : Slots K V} {i j : Nat} {k l : K} {v w : V} {x : Option (K × V)}

theorem holds_set_of_ne (hi : i ≤ e.size) (hj : j ≠ i) :
    (e.set i x).Holds j k v ↔ e.Holds j k v := by
  unfold Holds set
  dsimp only
  rw [Function.update_of_ne hj]
  constructor
  · intro ⟨hlt, hget⟩
    exact ⟨by omega, hget⟩
  · intro ⟨hlt, hget⟩
    exact ⟨by omega, hget⟩

theorem holds_set_self : (e.set i x).Holds i k v ↔ x = some (k, v) := by
  unfold Holds set
  dsimp only
  rw [Function.update_self]
  constructor
  · exact fun h => h.2
  · exact fun h => ⟨by omega, h⟩

theorem Unique.put (h : e.Unique) (hi : i ≤ e.size) (hk : ∀ j w, ¬ e.Holds j k w) :
    (e.set i (some (k, v))).Unique := by
  intro a b l v₁ v₂ ha hb
  by_cases hai : a = i
  · by_cases hbi : b = i
    · rw [hai, hbi]
    · rw [hai, holds_set_self] at ha
      cases ha
      exact absurd ((holds_set_of_ne hi hbi).mp hb) (hk b v₂)
  · by_cases hbi : b = i
    · rw [hbi, holds_set_self] at hb
      cases hb
      exact absurd ((holds_set_of_ne hi hai).mp ha) (hk a v₁)
    · exact h a b l v₁ v₂ ((holds_set_of_ne hi hai).mp ha) ((holds_set_of_ne hi hbi).mp hb)

theorem Unique.clear (h : e.Unique) (hi : i ≤ e.size) : (e.set i none).Unique := by
  intro a b l v₁ v₂ ha hb
  have hai : a ≠ i := by
    intro heq
    rw [heq, holds_set_self] at ha
    cases ha
  have hbi : b ≠ i := by
    intro heq
    rw [heq, holds_set_self] at hb
    cases hb
  exact h a b l v₁ v₂ ((holds_set_of_ne hi hai).mp ha) ((holds_set_of_ne hi hbi).mp hb)

section Lookup

variable [DecidableEq K]

theorem find_eq_none : e.find k = none ↔ ∀ i v, ¬ e.Holds i k v := by
  unfold find
  rw [List.find?_eq_none]
  constructor
  · intro h i v ⟨hi, hget⟩
    apply h i (List.mem_range.mpr hi)
    simp [hget]
  · intro h i hi hany
    rw [Option.any_eq_true] at hany
    obtain ⟨x, hx, hk⟩ := hany
    have hk' : x.1 = k := of_decide_eq_true hk
    exact h i x.2 ⟨List.mem_range.mp hi, by rw [hx, ← hk']⟩

theorem holds_of_find (h : e.find k = some i) : ∃ v, e.Holds i k v := by
  have hany := List.find?_some h
  have hi := List.mem_range.mp (List.mem_of_find?_eq_some h)
  rw [Option.any_eq_true] at hany
  obtain ⟨x, hx, hk⟩ := hany
  have hk' : x.1 = k := of_decide_eq_true hk
  exact ⟨x.2, hi, by rw [hx, ← hk']⟩

theorem Unique.find_eq_some (h : e.Unique) : e.find k = some i ↔ ∃ v, e.Holds i k v := by
  constructor
  · exact holds_of_find
  · rintro ⟨v, hv⟩
    cases hf : e.find k with
    | none => exact absurd hv (find_eq_none.mp hf i v)
    | some j =>
      obtain ⟨w, hw⟩ := holds_of_find hf
      rw [h i j k v w hv hw]

theorem lookup_of_find (h : e.find k = some i) (hv : e.Holds i k v) : e.lookup k = some v := by
  unfold lookup
  rw [h, Option.bind_some, hv.2]
  rfl

theorem Unique.lookup_eq_some (h : e.Unique) : e.lookup k = some v ↔ ∃ i, e.Holds i k v := by
  constructor
  · intro hl
    cases hf : e.find k with
    | none =>
      unfold lookup at hl
      rw [hf] at hl
      cases hl
    | some i =>
      obtain ⟨w, hw⟩ := holds_of_find hf
      rw [lookup_of_find hf hw] at hl
      cases hl
      exact ⟨i, hw⟩
  · rintro ⟨i, hi⟩
    exact lookup_of_find (h.find_eq_some.mpr ⟨v, hi⟩) hi

theorem lookup_eq_none : e.lookup k = none ↔ ∀ i v, ¬ e.Holds i k v := by
  rw [← find_eq_none]
  cases hf : e.find k with
  | none => simp [lookup, hf]
  | some i =>
    obtain ⟨v, hv⟩ := holds_of_find hf
    simp [lookup_of_find hf hv]

theorem lookup_congr {f : Slots K V} (he : e.Unique) (hf : f.Unique)
    (h : ∀ i v, e.Holds i k v ↔ f.Holds i k v) : e.lookup k = f.lookup k := by
  cases hv : f.lookup k with
  | none =>
    apply lookup_eq_none.mpr
    intro i v hi
    exact lookup_eq_none.mp hv i v ((h i v).mp hi)
  | some v =>
    obtain ⟨i, hi⟩ := hf.lookup_eq_some.mp hv
    exact he.lookup_eq_some.mpr ⟨i, (h i v).mpr hi⟩

theorem Unique.lookup_put (h : e.Unique) (hi : i ≤ e.size) (hk : e.lookup k = none)
    (hempty : ∀ l w, ¬ e.Holds i l w) :
    (e.set i (some (k, v))).lookup l = if l = k then some v else e.lookup l := by
  have hput := h.put (v := v) hi (lookup_eq_none.mp hk)
  split
  · next hl =>
    rw [hl]
    exact hput.lookup_eq_some.mpr ⟨i, holds_set_self.mpr rfl⟩
  · next hl =>
    apply lookup_congr hput h
    intro j w
    by_cases hj : j = i
    · rw [hj, holds_set_self]
      constructor
      · intro heq
        cases heq
        exact absurd rfl hl
      · exact fun hw => absurd hw (hempty l w)
    · exact holds_set_of_ne hi hj

theorem Unique.lookup_clear (h : e.Unique) (hk : e.find k = some i) :
    (e.set i none).lookup l = if l = k then none else e.lookup l := by
  obtain ⟨v, hv⟩ := holds_of_find hk
  have hi : i ≤ e.size := Nat.le_of_lt hv.1
  have hclear := h.clear hi
  split
  · next hl =>
    rw [hl]
    apply lookup_eq_none.mpr
    intro j w hw
    by_cases hj : j = i
    · rw [hj, holds_set_self] at hw
      cases hw
    · exact hj (h j i k w v ((holds_set_of_ne hi hj).mp hw) hv)
  · next hl =>
    apply lookup_congr hclear h
    intro j w
    by_cases hj : j = i
    · rw [hj, holds_set_self]
      constructor
      · intro heq
        cases heq
      · intro hw
        have := hw.2.symm.trans hv.2
        cases this
        exact absurd rfl hl
    · exact holds_set_of_ne hi hj

end Lookup

end Slots
