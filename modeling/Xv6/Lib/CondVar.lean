import Mathlib.Tactic.Common

/-!
# Conditions under a lock

Threads work on shared data under a lock, and wait for conditions. A thread that has found a
condition blocked takes the lock of the thread table, which `signal` needs, releases the first
lock, and falls asleep. A thread that unblocks a condition owes a signal. Then nobody sleeps on
a condition that is not blocked while the lock is free.
-/

namespace CondVar

variable {T C : Type*}

/-! ## Locks -/

def Owned (lock : Option T) (has : T → Bool) : Prop := ∀ t, lock = some t ↔ has t = true

/-- What becomes of a lock that a thread has or not, when it has it or not afterwards. -/
inductive Passes (t : T) : Option T → Option T → Bool → Bool → Prop
  | keep {lock : Option T} {b : Bool} : Passes t lock lock b b
  | take {b : Bool} : Passes t none (some t) b true
  | drop {lock : Option T} : Passes t lock none true false

namespace Owned

variable {lock : Option T} {has has' : T → Bool} {t u : T}

theorem unique (h : Owned lock has) (ht : has t = true) (hu : has u = true) : u = t :=
  Option.some.inj (((h u).mpr hu).symm.trans ((h t).mpr ht))

theorem not_of_none (h : Owned none has) (t : T) : has t = false := by
  by_contra hne
  cases (h t).mpr (eq_true_of_ne_false hne)

theorem pass {lock' : Option T} (h : Owned lock has)
    (hp : Passes t lock lock' (has t) (has' t)) (hothers : ∀ u, u ≠ t → has' u = has u) :
    Owned lock' has' := by
  generalize hb : has t = b, hb' : has' t = b' at hp
  intro u
  by_cases hu : u = t
  · rw [hu, hb']
    cases hp with
    | keep =>
      rw [← hb]
      exact h t
    | take | drop => simp
  · rw [hothers u hu]
    cases hp with
    | keep => exact h u
    | take =>
      rw [h.not_of_none u]
      simp [Ne.symm hu]
    | drop => exact ⟨nofun, fun hhas => absurd (h.unique hb hhas) hu⟩

end Owned

/-! ## Places -/

structure Place (C : Type*) where
  inside : Bool
  /-- It has the lock of the thread table, and is about to fall asleep. -/
  falling : Bool
  /-- The condition it has found blocked. -/
  waits : Option C
  owes : C → Bool

structure Place.Outside (p : Place C) : Prop where
  inside : p.inside = false
  falling : p.falling = false
  owes : ∀ c, p.owes c = false

theorem Place.Outside.not_owes {p : Place C} {c : C} {b : Bool} (h : p.Outside)
    (hc : p.owes c = true) : b = true :=
  Bool.noConfusion (hc.symm.trans (h.owes c))

structure View (T C : Type*) where
  lock : Option T
  table : Option T
  place : T → Place C
  asleep : T → Option C
  blocked : C → Prop

def View.Waiting (v : View T C) (t : T) (c : C) : Prop :=
  (v.place t).waits = some c ∧
    ((v.place t).inside = true ∨ (v.place t).falling = true ∨ v.asleep t = some c)

structure Inv (v : View T C) : Prop where
  lock : Owned v.lock fun t => (v.place t).inside
  table : Owned v.table fun t => (v.place t).falling
  asleep : ∀ t c, v.asleep t = some c →
    (v.place t).waits = some c ∧ (v.place t).inside = false ∧ (v.place t).falling = false
  debt : ∀ t c, (v.place t).owes c = true → (v.place t).inside = true
  told : ∀ t c, v.Waiting t c → v.blocked c ∨ ∃ u, (v.place u).owes c = true

structure Moves (v v' : View T C) (t : T) (p : Place C) : Prop where
  self : v'.place t = p
  others : ∀ u, u ≠ t → v'.place u = v.place u

namespace Moves

variable {v v' : View T C} {t u : T} {c : C} {p : Place C} {α : Type*}

theorem others_eq (hm : Moves v v' t p) (f : Place C → α) (u : T) (hu : u ≠ t) :
    f (v'.place u) = f (v.place u) := by
  rw [hm.others u hu]

theorem waiting_of_ne (hm : Moves v v' t p) (hu : u ≠ t)
    (hasleep : v'.asleep u = some c → v.asleep u = some c) (hw : v'.Waiting u c) :
    v.Waiting u c := by
  unfold View.Waiting at hw
  rw [hm.others u hu] at hw
  exact ⟨hw.1, hw.2.imp_right (Or.imp_right hasleep)⟩

end Moves

namespace Inv

variable {v v' : View T C} {t u : T} {c : C} {p : Place C}

theorem blocked_of_asleep (h : Inv v) (hlock : v.lock = none) (ht : v.asleep t = some c) :
    v.blocked c := by
  have hfree : Owned none fun t => (v.place t).inside := hlock ▸ h.lock
  rcases h.told t c ⟨(h.asleep t c ht).1, Or.inr (Or.inr ht)⟩ with hb | ⟨u, hu⟩
  · exact hb
  · exact Bool.noConfusion ((h.debt u c hu).symm.trans (hfree.not_of_none u))

theorem not_asleep (h : Inv v) (ht : (v.place t).inside = true ∨ (v.place t).falling = true) :
    v.asleep t = none := by
  by_contra hne
  obtain ⟨c, hc⟩ := Option.ne_none_iff_exists'.mp hne
  obtain ⟨-, h₁, h₂⟩ := h.asleep t c hc
  rcases ht with ht | ht
  · exact Bool.noConfusion (ht.symm.trans h₁)
  · exact Bool.noConfusion (ht.symm.trans h₂)

section Rules

variable (h : Inv v) (hm : Moves v v' t p)

include h hm

theorem move (hlock : Passes t v.lock v'.lock (v.place t).inside p.inside)
    (htable : Passes t v.table v'.table (v.place t).falling p.falling)
    (hasleep : ∀ u c, u ≠ t → v'.asleep u = some c → v.asleep u = some c)
    (hself : ∀ c, v'.asleep t = some c →
      p.waits = some c ∧ p.inside = false ∧ p.falling = false)
    (hdebt : ∀ c, p.owes c = true → p.inside = true)
    (htold : ∀ u c, v'.Waiting u c → v'.blocked c ∨ ∃ u, (v'.place u).owes c = true) :
    Inv v' where
  lock := by
    refine h.lock.pass (t := t) ?_ (hm.others_eq Place.inside)
    rwa [hm.self]
  table := by
    refine h.table.pass (t := t) ?_ (hm.others_eq Place.falling)
    rwa [hm.self]
  asleep := by
    intro u c hu
    by_cases hut : u = t
    · subst hut
      rw [hm.self]
      exact hself c hu
    · rw [hm.others u hut]
      exact h.asleep u c (hasleep u c hut hu)
  debt := by
    intro u c hu
    by_cases hut : u = t
    · subst hut
      rw [hm.self] at hu ⊢
      exact hdebt c hu
    · rw [hm.others u hut] at hu ⊢
      exact h.debt u c hu
  told := htold

theorem told_back (hblocked : v'.blocked = v.blocked) (hback : v.Waiting u c)
    (howes : (v.place t).owes c = true → p.owes c = true) :
    v'.blocked c ∨ ∃ u, (v'.place u).owes c = true := by
  rw [hblocked]
  refine (h.told u c hback).imp_right ?_
  rintro ⟨x, hx⟩
  refine ⟨x, ?_⟩
  by_cases hxt : x = t
  · subst hxt
    rw [hm.self]
    exact howes hx
  · rwa [hm.others x hxt]

omit h in
theorem ne_of_waiting (hp : p.Outside) (ht : v'.asleep t = none) (hw : v'.Waiting u c) :
    u ≠ t := by
  rintro rfl
  rcases hw.2 with hi | hf | hs
  · rw [hm.self, hp.inside] at hi
    cases hi
  · rw [hm.self, hp.falling] at hf
    cases hf
  · rw [ht] at hs
    cases hs

theorem enter (hfree : v.lock = none) (hlock : v'.lock = some t) (htable : v'.table = v.table)
    (hasleep : v'.asleep = v.asleep) (hblocked : v'.blocked = v.blocked)
    (hout : (v.place t).Outside) (ht : v.asleep t = none) (hin : p.inside = true)
    (hfall : p.falling = false) (hwaits : p.waits = none) : Inv v' := by
  refine h.move hm ?_ ?_ (fun u c _ hu => hasleep ▸ hu) ?_ (fun _ _ => hin) fun u c hw => ?_
  · rw [hfree, hlock, hin]
    exact .take
  · rw [htable, hfall, hout.falling]
    exact .keep
  · rw [hasleep, ht]
    exact nofun
  · have hu : u ≠ t := by
      rintro rfl
      have := hw.1
      rw [hm.self, hwaits] at this
      cases this
    exact h.told_back hm hblocked (hm.waiting_of_ne hu (fun hc => hasleep ▸ hc) hw) hout.not_owes

theorem work (hlock : v'.lock = v.lock) (htable : v'.table = v.table)
    (hasleep : v'.asleep = v.asleep) (ht : (v.place t).inside = true)
    (hnot : (v.place t).falling = false) (hin : p.inside = true) (hfall : p.falling = false)
    (hkeep : ∀ c, v.blocked c ∨ (v.place t).owes c = true → v'.blocked c ∨ p.owes c = true)
    (hwaits : ∀ c, p.waits = some c → v'.blocked c) : Inv v' := by
  refine h.move hm ?_ ?_ (fun u c _ hu => hasleep ▸ hu) ?_ (fun _ _ => hin) fun u c hw => ?_
  · rw [hlock, hin, ht]
    exact .keep
  · rw [htable, hfall, hnot]
    exact .keep
  · rw [hasleep, h.not_asleep (Or.inl ht)]
    exact nofun
  by_cases hu : u = t
  · subst hu
    have hc := hw.1
    rw [hm.self] at hc
    exact Or.inl (hwaits c hc)
  · have hmine : v.blocked c ∨ (v.place t).owes c = true →
        v'.blocked c ∨ ∃ u, (v'.place u).owes c = true := by
      intro hor
      refine (hkeep c hor).imp_right fun hp => ⟨t, ?_⟩
      rwa [hm.self]
    rcases h.told u c (hm.waiting_of_ne hu (fun hc => hasleep ▸ hc) hw) with hb | ⟨x, hx⟩
    · exact hmine (Or.inl hb)
    · -- whoever owes something has the lock
      have hxt : x = t := h.lock.unique ht (h.debt x c hx)
      subst hxt
      exact hmine (Or.inr hx)

theorem signal (hfree : v.table = none) (hlock : v'.lock = v.lock) (htable : v'.table = v.table)
    (hasleep : ∀ u, v'.asleep u = v.asleep u ∧ v.asleep u ≠ some c ∨ v'.asleep u = none)
    (hblocked : v'.blocked = v.blocked) (ht : (v.place t).inside = true)
    (hin : p.inside = true) (hfall : p.falling = false)
    (hkeep : ∀ c', c' ≠ c → (v.place t).owes c' = true → p.owes c' = true)
    (hwaits : ∀ c', p.waits = some c' → (v.place t).waits = some c')
    (hother : p.waits ≠ some c) : Inv v' := by
  have hnone : Owned none fun t => (v.place t).falling := hfree ▸ h.table
  have hslept : ∀ u c', v'.asleep u = some c' → v.asleep u = some c' ∧ c' ≠ c := by
    intro u c' hu
    rcases hasleep u with ⟨heq, hne⟩ | heq
    · rw [heq] at hu
      exact ⟨hu, fun hc => hne (hc ▸ hu)⟩
    · rw [heq] at hu
      cases hu
  refine h.move hm ?_ ?_ (fun u c' _ hu => (hslept u c' hu).1) (fun c' hs => ?_)
    (fun _ _ => hin) fun u c' hw => ?_
  · rw [hlock, hin, ht]
    exact .keep
  · rw [htable, hfall, hnone.not_of_none t]
    exact .keep
  · have hs := (hslept t c' hs).1
    rw [h.not_asleep (Or.inl ht)] at hs
    cases hs
  have hback : v.Waiting u c' ∧ c' ≠ c := by
    by_cases hu : u = t
    · subst hu
      have hc := hw.1
      rw [hm.self] at hc
      exact ⟨⟨hwaits c' hc, Or.inl ht⟩, fun heq => hother (heq ▸ hc)⟩
    · refine ⟨hm.waiting_of_ne hu (fun hc => (hslept u c' hc).1) hw, ?_⟩
      rintro rfl
      -- another thread is not inside, and nobody is falling
      rcases hw.2 with hi | hf | hs
      · rw [hm.others u hu] at hi
        exact hu (h.lock.unique ht hi)
      · rw [hm.others u hu, hnone.not_of_none u] at hf
        cases hf
      · exact (hslept u c' hs).2 rfl
  exact h.told_back hm hblocked hback.1 (hkeep c' hback.2)

theorem wait (hfree : v.table = none) (hlock : v'.lock = none) (htable : v'.table = some t)
    (hasleep : v'.asleep = v.asleep) (hblocked : v'.blocked = v.blocked)
    (ht : (v.place t).inside = true) (hdebt : ∀ c, (v.place t).owes c = false)
    (hout : p.inside = false) (hfall : p.falling = true) (howes : ∀ c, p.owes c = false)
    (hwaits : p.waits = (v.place t).waits) : Inv v' := by
  refine h.move hm ?_ ?_ (fun u c _ hu => hasleep ▸ hu) ?_
    (fun c hc => Bool.noConfusion (hc.symm.trans (howes c))) fun u c hw => ?_
  · rw [hlock, hout, ht]
    exact .drop
  · rw [hfree, htable, hfall]
    exact .take
  · rw [hasleep, h.not_asleep (Or.inl ht)]
    exact nofun
  have hback : v.Waiting u c := by
    by_cases hu : u = t
    · subst hu
      have hc := hw.1
      rw [hm.self, hwaits] at hc
      exact ⟨hc, Or.inl ht⟩
    · exact hm.waiting_of_ne hu (fun hc => hasleep ▸ hc) hw
  exact h.told_back hm hblocked hback fun hc => Bool.noConfusion (hc.symm.trans (hdebt c))

theorem fall (hlock : v'.lock = v.lock) (htable : v'.table = none)
    (hself : v'.asleep t = (v.place t).waits)
    (hasleep : ∀ u, u ≠ t → v'.asleep u = v.asleep u) (hblocked : v'.blocked = v.blocked)
    (ht : (v.place t).falling = true) (hnot : (v.place t).inside = false)
    (hp : p.Outside) (hwaits : p.waits = (v.place t).waits) : Inv v' := by
  refine h.move hm ?_ ?_ (fun u c hu hc => hasleep u hu ▸ hc) (fun c hc => ?_)
    (fun _ => hp.not_owes) fun u c hw => ?_
  · rw [hlock, hp.inside, hnot]
    exact .keep
  · rw [htable, hp.falling, ht]
    exact .drop
  · rw [hwaits, ← hself]
    exact ⟨hc, hp.inside, hp.falling⟩
  have hback : v.Waiting u c := by
    by_cases hu : u = t
    · subst hu
      have hc := hw.1
      rw [hm.self, hwaits] at hc
      exact ⟨hc, Or.inr (Or.inl ht)⟩
    · exact hm.waiting_of_ne hu (fun hc => hasleep u hu ▸ hc) hw
  exact h.told_back hm hblocked hback fun hc =>
    Bool.noConfusion ((h.debt t c hc).symm.trans hnot)

theorem leave (hlock : v'.lock = none) (htable : v'.table = v.table)
    (hasleep : v'.asleep = v.asleep) (hblocked : v'.blocked = v.blocked)
    (ht : (v.place t).inside = true) (hnot : (v.place t).falling = false) (hp : p.Outside)
    (hdebt : ∀ c, (v.place t).owes c = true → ∀ u, u ≠ t → ¬ v.Waiting u c) : Inv v' := by
  have hnone : v'.asleep t = none := hasleep ▸ h.not_asleep (Or.inl ht)
  refine h.move hm ?_ ?_ (fun u c _ hu => hasleep ▸ hu) ?_ (fun _ => hp.not_owes)
    fun u c hw => ?_
  · rw [hlock, hp.inside, ht]
    exact .drop
  · rw [htable, hp.falling, hnot]
    exact .keep
  · rw [hnone]
    exact nofun
  have hu := ne_of_waiting hm hp hnone hw
  have hback := hm.waiting_of_ne hu (fun hc => hasleep ▸ hc) hw
  exact h.told_back hm hblocked hback fun hc => absurd hback (hdebt c hc u hu)

theorem outside (hlock : v'.lock = v.lock) (htable : v'.table = v.table)
    (hself : v'.asleep t = none) (hasleep : ∀ u, u ≠ t → v'.asleep u = v.asleep u)
    (hblocked : v'.blocked = v.blocked) (ht : (v.place t).Outside) (hp : p.Outside) : Inv v' := by
  refine h.move hm ?_ ?_ (fun u c hu hc => hasleep u hu ▸ hc) ?_ (fun _ => hp.not_owes)
    fun u c hw => ?_
  · rw [hlock, hp.inside, ht.inside]
    exact .keep
  · rw [htable, hp.falling, ht.falling]
    exact .keep
  · rw [hself]
    exact nofun
  have hu := ne_of_waiting hm hp hself hw
  exact h.told_back hm hblocked (hm.waiting_of_ne hu (fun hc => hasleep u hu ▸ hc) hw) ht.not_owes

end Rules

theorem rouse (h : Inv v) (hlock : v'.lock = v.lock) (htable : v'.table = v.table)
    (hplace : v'.place = v.place) (hblocked : v'.blocked = v.blocked)
    (hasleep : ∀ u c, v'.asleep u = some c → v.asleep u = some c) : Inv v' where
  lock := by
    rw [hlock, hplace]
    exact h.lock
  table := by
    rw [htable, hplace]
    exact h.table
  asleep := by
    rw [hplace]
    exact fun u c hu => h.asleep u c (hasleep u c hu)
  debt := by
    rw [hplace]
    exact h.debt
  told := by
    intro u c hw
    unfold View.Waiting at hw
    rw [hplace] at hw ⊢
    rw [hblocked]
    exact h.told u c ⟨hw.1, hw.2.imp_right (Or.imp_right (hasleep u c))⟩

end Inv

end CondVar
