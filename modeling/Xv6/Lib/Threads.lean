import Mathlib.Algebra.BigOperators.Group.Finset.Basic
import Xv6.Lib.Prog

/-!
# Processes that hold tokens

Processes run programs over calls on a shared state, one call at a time, in any order. `spec`
says, call by call, which tokens and which ghost view a process needs and what it has
afterwards; `Safe` extends it to programs. If every call keeps the invariant of all tokens
together, whatever the others hold, so does every interleaving of safe programs.
-/

open Finset (add_sum_erase mem_erase mem_univ sum_congr)
open Function (update update_of_ne update_self)

namespace Prog

variable {C : Type → Type} {α β : Type} {K V : Type}

structure Hold (K V : Type) where
  toks : Multiset K
  view : V

section Safe

variable (spec : ∀ β : Type, C β → Hold K V → (β → Hold K V → Prop) → Prop)

/-- Every call of the program gets what it needs, and the program ends with `Q`. -/
def Safe : Prog C α → Hold K V → (α → Hold K V → Prop) → Prop
  | ret a, h, Q => Q a h
  | call c k, h, Q => spec _ c h fun b h' => (k b).Safe h' Q

def Monotone : Prop :=
  ∀ (β : Type) (c : C β) (h : Hold K V) (Q Q' : β → Hold K V → Prop),
    (∀ b h', Q b h' → Q' b h') → spec β c h Q → spec β c h Q'

variable {spec} {p : Prog C α} {h : Hold K V}

theorem safe_pure {Q : α → Hold K V → Prop} {a : α} (hq : Q a h) :
    (pure a : Prog C α).Safe spec h Q := hq

theorem safe_lift {c : C β} {Q : β → Hold K V → Prop} (hc : spec β c h Q) :
    (lift c).Safe spec h Q := hc

theorem Safe.mono (hm : Monotone spec) {Q Q' : α → Hold K V → Prop} (hp : p.Safe spec h Q)
    (hQ : ∀ a h', Q a h' → Q' a h') : p.Safe spec h Q' := by
  induction p generalizing h with
  | ret a => exact hQ a h hp
  | call c k ih => exact hm _ _ _ _ _ (fun b h' hk => ih b hk) hp

theorem safe_bind (hm : Monotone spec) {f : α → Prog C β} {Q : β → Hold K V → Prop}
    (hp : p.Safe spec h fun a h' => (f a).Safe spec h' Q) : (p >>= f).Safe spec h Q := by
  induction p generalizing h with
  | ret a => exact hp
  | call c k ih => exact hm _ _ _ _ _ (fun b h' hk => ih b hk) hp

theorem safe_call {c : C β} {f : β → Prog C α} {Q : α → Hold K V → Prop}
    (hc : spec β c h fun b h' => (f b).Safe spec h' Q) : (lift c >>= f).Safe spec h Q := hc

end Safe

/-! ## Calls that keep the invariant -/

section Sound

variable {D S F : Type}

/-- A call ends with `Q` and keeps the invariant of the shared state, with the tokens that
the others hold; it may fail with `X` only. -/
def Keeps (step : ∀ β : Type, C β → S × D → Except F (β × (S × D))) (rel : D → Hold K V → Prop)
    (Inv : Multiset K → S → Prop) (X : F → Prop) (c : C β) (others : Multiset K) (s : S) (d : D)
    (Q : β → Hold K V → Prop) : Prop :=
  match step β c (s, d) with
  | .ok (b, (s', d')) => ∃ h', Q b h' ∧ rel d' h' ∧ Inv (h'.toks + others) s'
  | .error e => X e

/-- Every call that gets what it needs does as `spec` says and keeps the invariant, whatever
tokens the others hold. -/
structure Sound (step : ∀ β : Type, C β → S × D → Except F (β × (S × D)))
    (spec : ∀ β : Type, C β → Hold K V → (β → Hold K V → Prop) → Prop)
    (rel : D → Hold K V → Prop) (Inv : Multiset K → S → Prop) (X : F → Prop) : Prop where
  mono : Monotone spec
  call : ∀ (β : Type) (c : C β) (h : Hold K V) (others : Multiset K) (s : S) (d : D)
    (Q : β → Hold K V → Prop), spec β c h Q → rel d h → Inv (h.toks + others) s →
    Keeps step rel Inv X c others s d Q

end Sound

/-! ## Interleavings -/

section World

variable {T D S F : Type}

/-- A process: its own data, and what is left of the program it runs, if it runs one. -/
structure Process (C : Type → Type) (D α : Type) where
  own : D
  prog : Option (Prog C α)

structure World (T : Type) (C : Type → Type) (D S α : Type) where
  shared : S
  procs : T → Process C D α

variable [DecidableEq T] (step : ∀ β : Type, C β → S × D → Except F (β × (S × D)))

/-- The next call of a process, or its return. A process whose call fails stays where it is;
it may have to wait. -/
def World.advance (w : World T C D S α) (t : T) : Option (World T C D S α) :=
  match (w.procs t).prog with
  | none => none
  | some (ret _) =>
    some { w with procs := update w.procs t { w.procs t with prog := none } }
  | some (call c k) =>
    match step _ c (w.shared, (w.procs t).own) with
    | .error _ => none
    | .ok (b, (s, d)) =>
      some { shared := s, procs := update w.procs t { own := d, prog := some (k b) } }

theorem World.advance_cases {step : ∀ β : Type, C β → S × D → Except F (β × (S × D))}
    {w w' : World T C D S α} {t : T} (h : w.advance step t = some w') :
    (∃ a, (w.procs t).prog = some (ret a) ∧
      w' = { w with procs := update w.procs t { w.procs t with prog := none } }) ∨
    ∃ (β : Type) (c : C β) (k : β → Prog C α) (b : β) (s : S) (d : D),
      (w.procs t).prog = some (call c k) ∧ step β c (w.shared, (w.procs t).own) = .ok (b, (s, d)) ∧
      w' = { shared := s
             procs := update w.procs t { own := d, prog := some (k b) } } := by
  unfold World.advance at h
  cases hp : (w.procs t).prog with
  | none =>
    rw [hp] at h
    cases h
  | some p =>
    rw [hp] at h
    cases p with
    | ret a => exact Or.inl ⟨a, rfl, (Option.some.inj h).symm⟩
    | call c k =>
      dsimp only at h
      split at h
      · cases h
      · next b s d hok => exact Or.inr ⟨_, c, k, b, s, d, rfl, hok, (Option.some.inj h).symm⟩

def Process.Holds (spec : ∀ β : Type, C β → Hold K V → (β → Hold K V → Prop) → Prop)
    (rel Idle : D → Hold K V → Prop) (p : Process C D α) (h : Hold K V) : Prop :=
  rel p.own h ∧
    match p.prog with
    | none => Idle p.own h
    | some q => q.Safe spec h fun _ h' => ∀ d, rel d h' → Idle d h'

section Holds

variable {spec : ∀ β : Type, C β → Hold K V → (β → Hold K V → Prop) → Prop}
  {rel Idle : D → Hold K V → Prop} {p : Process C D α} {h : Hold K V}

theorem Process.Holds.idle (hp : p.Holds spec rel Idle h) (hn : p.prog = none) :
    Idle p.own h := by
  have := hp.2
  rwa [hn] at this

theorem Process.Holds.safe {q : Prog C α} (hp : p.Holds spec rel Idle h) (hq : p.prog = some q) :
    q.Safe spec h fun _ h' => ∀ d, rel d h' → Idle d h' := by
  have := hp.2
  rwa [hq] at this

end Holds

/-- The processes hold what their programs need; one that runs none has what `Idle` says. -/
def World.Holds [Fintype T] (spec : ∀ β : Type, C β → Hold K V → (β → Hold K V → Prop) → Prop)
    (rel Idle : D → Hold K V → Prop) (Inv : Multiset K → S → Prop) (w : World T C D S α) : Prop :=
  ∃ h : T → Hold K V, Inv (∑ t, (h t).toks) w.shared ∧
    ∀ t, (w.procs t).Holds spec rel Idle (h t)

variable [Fintype T] {step}
  {spec : ∀ β : Type, C β → Hold K V → (β → Hold K V → Prop) → Prop}
  {rel Idle : D → Hold K V → Prop} {Inv : Multiset K → S → Prop} {X : F → Prop}
  {w w' : World T C D S α} {t u : T}

theorem sum_update {h : T → Hold K V} {x : Hold K V} :
    ∑ u, (update h t x u).toks = x.toks + ∑ u ∈ Finset.univ.erase t, (h u).toks := by
  rw [← add_sum_erase _ _ (mem_univ t), update_self]
  congr 1
  apply sum_congr rfl
  intro u hu
  rw [update_of_ne (Finset.ne_of_mem_erase hu)]

theorem World.Holds.advance (hs : Sound step spec rel Inv X) (hw : w.Holds spec rel Idle Inv)
    (hstep : w.advance step t = some w') : w'.Holds spec rel Idle Inv := by
  obtain ⟨h, hinv, hall⟩ := hw
  obtain ⟨hrel, hprog⟩ := hall t
  obtain ⟨a, hp, rfl⟩ | ⟨β, c, k, b, s, d, hp, hok, rfl⟩ := World.advance_cases hstep
  · rw [hp] at hprog
    refine ⟨h, hinv, fun u => ?_⟩
    by_cases hu : u = t
    · subst hu
      simp only [update_self]
      exact ⟨hrel, hprog _ hrel⟩
    · simp only [update_of_ne hu]
      exact hall u
  · rw [hp] at hprog
    rw [← add_sum_erase _ _ (mem_univ t)] at hinv
    have hcall := hs.call _ c (h t) _ w.shared (w.procs t).own _ hprog hrel hinv
    unfold Keeps at hcall
    rw [hok] at hcall
    obtain ⟨x, hk, hrel', hinv'⟩ := hcall
    refine ⟨update h t x, ?_, fun u => ?_⟩
    · rwa [sum_update]
    · by_cases hu : u = t
      · subst hu
        simp only [update_self]
        exact ⟨hrel', hk⟩
      · simp only [update_of_ne hu]
        exact hall u

theorem World.Holds.replace {x : Process C D α} (hw : w.Holds spec rel Idle Inv)
    (hx : ∀ h, (w.procs t).Holds spec rel Idle h → ∃ h', h'.toks = h.toks ∧
      x.Holds spec rel Idle h') :
    ({ w with procs := update w.procs t x } : World T C D S α).Holds
      spec rel Idle Inv := by
  obtain ⟨h, hinv, hall⟩ := hw
  obtain ⟨h', htoks, hx'⟩ := hx (h t) (hall t)
  refine ⟨update h t h', ?_, fun u => ?_⟩
  · rwa [sum_update, htoks, add_sum_erase _ (fun u => (h u).toks) (mem_univ t)]
  · by_cases hu : u = t
    · subst hu
      simp only [update_self]
      exact hx'
    · simp only [update_of_ne hu]
      exact hall u

theorem World.Holds.exchange {x y : Process C D α} (hw : w.Holds spec rel Idle Inv) (hne : u ≠ t)
    (hxy : ∀ h k, (w.procs t).Holds spec rel Idle h → (w.procs u).Holds spec rel Idle k →
      ∃ h' k', h'.toks + k'.toks = h.toks + k.toks ∧ x.Holds spec rel Idle h' ∧
        y.Holds spec rel Idle k') :
    ({ w with procs := update (update w.procs t x) u y } :
      World T C D S α).Holds spec rel Idle Inv := by
  obtain ⟨h, hinv, hall⟩ := hw
  obtain ⟨h', k', htoks, hx, hy⟩ := hxy (h t) (h u) (hall t) (hall u)
  have hu : u ∈ Finset.univ.erase t := mem_erase.mpr ⟨hne, mem_univ u⟩
  have ht : t ∈ Finset.univ.erase u := mem_erase.mpr ⟨hne.symm, mem_univ t⟩
  have hrest : ∑ v ∈ (Finset.univ.erase u).erase t, (update h t h' v).toks =
      ∑ v ∈ (Finset.univ.erase t).erase u, (h v).toks := by
    rw [Finset.erase_right_comm]
    apply sum_congr rfl
    intro v hv
    rw [update_of_ne (Finset.ne_of_mem_erase (Finset.mem_of_mem_erase hv))]
  refine ⟨update (update h t h') u k', ?_, fun v => ?_⟩
  · rw [sum_update, ← add_sum_erase _ _ ht, hrest, update_self, ← add_assoc,
      add_comm k'.toks, htoks, add_assoc, add_sum_erase _ (fun v => (h v).toks) hu,
      add_sum_erase _ (fun v => (h v).toks) (mem_univ t)]
    exact hinv
  · by_cases hv : v = u
    · subst hv
      simp only [update_self]
      exact hy
    · simp only [update_of_ne hv]
      by_cases hvt : v = t
      · subst hvt
        simp only [update_self]
        exact hx
      · simp only [update_of_ne hvt]
        exact hall v

omit [DecidableEq T] in
theorem World.Holds.share {s : S} (hw : w.Holds spec rel Idle Inv)
    (hs : ∀ M, Inv M w.shared → Inv M s) :
    ({ w with shared := s } : World T C D S α).Holds spec rel Idle Inv := by
  obtain ⟨h, hinv, hall⟩ := hw
  exact ⟨h, hs _ hinv, hall⟩

theorem World.Holds.fault (hs : Sound step spec rel Inv X) (hw : w.Holds spec rel Idle Inv)
    {β : Type} {c : C β} {k : β → Prog C α} (hp : (w.procs t).prog = some (call c k)) {e : F}
    (he : step β c (w.shared, (w.procs t).own) = .error e) : X e := by
  obtain ⟨h, hinv, hall⟩ := hw
  obtain ⟨hrel, hprog⟩ := hall t
  rw [hp] at hprog
  rw [← add_sum_erase _ _ (mem_univ t)] at hinv
  have hcall := hs.call _ c (h t) _ w.shared (w.procs t).own _ hprog hrel hinv
  unfold Keeps at hcall
  rwa [he] at hcall

end World

end Prog
