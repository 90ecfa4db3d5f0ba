import Xv6.Pipe.Model

/-!
# The ends of a pipe

Who can still use the pipe, and who closes it. An end is open as long as somebody has a
descriptor of it or is about to clear its flag, so whoever clears the second flag is alone
with the pipe, and frees it. `Ends` is all this depends on; the rules say how the steps of
`pipe.c` change it.
-/

open Function (update update_of_ne update_self update_eq_self)

namespace Xv6

namespace Pipes

variable {T : Type}

inductive Role
  | idle
  /-- It is in `pipewrite` or `piperead`. -/
  | user (e : End)
  /-- It is in `pipeclose`, before it clears the flag. -/
  | closing (e : End)
  /-- It is in `pipeclose` and has cleared the flag. -/
  | closed (e : End)
  /-- It is about to free the page. -/
  | freeing (e : End)

def Pc.role : Pc → Role
  | .out => .idle
  | .write _ _ _ => .user .writer
  | .read _ _ => .user .reader
  | .close e .acquire => .closing e
  | .close e .shut => .closing e
  | .close e .wakeup => .closed e
  | .close e .test => .closed e
  | .close e .free => .freeing e

theorem Pc.eq_out {k : Pc} (h : k.isOut = true) : k = .out := by
  cases k with
  | out => rfl
  | write src n k | read n k | close e k => cases h

def Event.ofEnds : Event T → Bool
  | .shut _ _ => true
  | .freed _ => true
  | _ => false

def endEvents (es : List (Event T)) : List (Event T) := es.filter Event.ofEnds

theorem endEvents_append (es es' : List (Event T)) :
    endEvents (es ++ es') = endEvents es ++ endEvents es' :=
  List.filter_append ..

theorem End.eq_or_eq {e e' : End} (h : e ≠ e') (x : End) : x = e ∨ x = e' := by
  cases e <;> cases e' <;> cases x <;> simp at h ⊢

structure Ends (T : Type) where
  role : T → Role
  fds : T → End → Nat
  isOpen : End → Bool

/-- How far the pipe is, by the events so far: open, closed on one side, closed on both sides
with one process in `pipeclose`, or freed by that process. -/
inductive Fate (role : T → Role) (isOpen : End → Bool) : List (Event T) → Prop
  | fresh (all_open : ∀ e, isOpen e = true)
      (nobody : ∀ t e, role t ≠ .closed e ∧ role t ≠ .freeing e) : Fate role isOpen []
  | half (t : T) (e : End) (shut : isOpen e = false) (other : ∀ e', e' ≠ e → isOpen e' = true)
      (nobody : ∀ u e', role u ≠ .freeing e') : Fate role isOpen [.shut t e]
  | shut (t t' : T) (e e' : End) (ne : e ≠ e') (shut : ∀ x, isOpen x = false)
      (last : role t' = .closed e' ∨ role t' = .freeing e')
      (others : ∀ u, u ≠ t' → role u = .idle) : Fate role isOpen [.shut t e, .shut t' e']
  | freed (t t' : T) (e e' : End) (ne : e ≠ e') (shut : ∀ x, isOpen x = false)
      (idle : ∀ u, role u = .idle) : Fate role isOpen [.shut t e, .shut t' e', .freed t']

structure Ends.Held (v : Ends T) : Prop where
  user : ∀ t e, v.role t = .user e → 0 < v.fds t e
  closing : ∀ t e, v.role t = .closing e → ∀ u, v.fds u e = 0
  sole : ∀ t u e, v.role t = .closing e → v.role u = .closing e → t = u
  isOpen : ∀ e, v.isOpen e = true ↔ (∃ t, 0 < v.fds t e) ∨ ∃ t, v.role t = .closing e

structure Ends.Inv (v : Ends T) (es : List (Event T)) : Prop extends v.Held where
  fate : Fate v.role v.isOpen es

namespace Ends

variable {v : Ends T} {es : List (Event T)} {t u : T} {e x : End} {r : Role}

/-! ## What the invariant tells -/

theorem Held.open_of_user (h : v.Held) (ht : v.role t = .user e) : v.isOpen e = true :=
  (h.isOpen e).mpr (Or.inl ⟨t, h.user t e ht⟩)

theorem Held.open_of_closing (h : v.Held) (ht : v.role t = .closing e) : v.isOpen e = true :=
  (h.isOpen e).mpr (Or.inr ⟨t, ht⟩)

theorem Held.not_user (h : v.Held) (he : v.isOpen e = false) : v.role t ≠ .user e :=
  fun ht => Bool.noConfusion ((h.open_of_user ht).symm.trans he)

theorem Held.not_closing (h : v.Held) (he : v.isOpen e = false) : v.role t ≠ .closing e :=
  fun ht => Bool.noConfusion ((h.open_of_closing ht).symm.trans he)

variable [DecidableEq T]

/-! ## A process takes up another role -/

def goto (v : Ends T) (t : T) (r : Role) : Ends T :=
  { v with role := update v.role t r }

theorem goto_self (v : Ends T) (t : T) (r : Role) : (v.goto t r).role t = r := by
  simp [goto]

theorem goto_of_ne (v : Ends T) (r : Role) (hu : u ≠ t) : (v.goto t r).role u = v.role u := by
  simp [goto, hu]

theorem role_of_goto {r' : Role} (h : (v.goto t r).role u = r') (hr : r ≠ r') :
    u ≠ t ∧ v.role u = r' := by
  have hu : u ≠ t := by
    rintro rfl
    exact hr ((goto_self v u r).symm.trans h)
  exact ⟨hu, (goto_of_ne v r hu).symm.trans h⟩

theorem Held.goto (h : v.Held) (ht : ∀ e, v.role t ≠ .closing e) (hr : ∀ e, r ≠ .closing e)
    (huser : ∀ e, r = .user e → 0 < v.fds t e) : (v.goto t r).Held where
  user := by
    intro u x hu
    by_cases hut : u = t
    · subst hut
      rw [goto_self] at hu
      exact huser x hu
    · rw [goto_of_ne v r hut] at hu
      exact h.user u x hu
  closing := fun u x hu => h.closing u x (role_of_goto hu (hr x)).2
  sole := fun u w x hu hw =>
    h.sole u w x (role_of_goto hu (hr x)).2 (role_of_goto hw (hr x)).2
  isOpen := by
    intro x
    refine (h.isOpen x).trans (or_congr_right ?_)
    constructor
    · rintro ⟨u, hu⟩
      have hut : u ≠ t := by
        rintro rfl
        exact ht x hu
      exact ⟨u, (goto_of_ne v r hut).trans hu⟩
    · rintro ⟨u, hu⟩
      exact ⟨u, (role_of_goto hu (hr x)).2⟩

end Ends

namespace Fate

open Ends

variable {v : Ends T} {es : List (Event T)} {t : T} {e x : End} {r : Role}

theorem last (h : Fate v.role v.isOpen es) (ht : v.role t = .freeing e ∨ v.role t = .closed e)
    (hx : ∀ x, v.isOpen x = false) :
    ∃ t₀ e₀, e₀ ≠ e ∧ es = [.shut t₀ e₀, .shut t e] ∧ ∀ u, u ≠ t → v.role u = .idle := by
  cases h with
  | fresh all_open nobody => exact Bool.noConfusion ((all_open e).symm.trans (hx e))
  | half t₀ e₀ shut other nobody =>
    cases e₀ with
    | reader => exact Bool.noConfusion ((other .writer nofun).symm.trans (hx _))
    | writer => exact Bool.noConfusion ((other .reader nofun).symm.trans (hx _))
  | shut t₀ t' e₀ e' ne shut last others =>
    have htt : t = t' := by
      by_contra hne
      rw [others t hne] at ht
      exact ht.elim nofun nofun
    subst htt
    have hee : e' = e := by
      rcases last with hl | hl
      · rw [hl] at ht
        exact ht.elim nofun fun heq => Role.closed.inj heq
      · rw [hl] at ht
        exact ht.elim (fun heq => Role.freeing.inj heq) nofun
    subst hee
    exact ⟨t₀, e₀, ne, rfl, others⟩
  | freed t₀ t' e₀ e' ne shut idle =>
    rw [idle t] at ht
    exact ht.elim nofun nofun

theorem shut_of_freeing (h : Fate v.role v.isOpen es) (ht : v.role t = .freeing e) (x : End) :
    v.isOpen x = false := by
  cases h with
  | fresh all_open nobody => exact absurd ht (nobody t e).2
  | half t₀ e₀ shut other nobody => exact absurd ht (nobody t e)
  | shut t₀ t' e₀ e' ne shut last others | freed t₀ t' e₀ e' ne shut idle => exact shut x

theorem goto [DecidableEq T] (h : Fate v.role v.isOpen es) (hx : v.isOpen x = true)
    (hr : ∀ e, r ≠ .closed e ∧ r ≠ .freeing e) : Fate (v.goto t r).role (v.goto t r).isOpen es := by
  cases h with
  | fresh all_open nobody =>
    refine .fresh all_open fun u e => ⟨fun hu => ?_, fun hu => ?_⟩
    · exact (nobody u e).1 (role_of_goto hu (hr e).1).2
    · exact (nobody u e).2 (role_of_goto hu (hr e).2).2
  | half t₀ e₀ shut other nobody =>
    exact .half t₀ e₀ shut other fun u e hu => nobody u e (role_of_goto hu (hr e).2).2
  | shut t₀ t' e₀ e' ne shut last others | freed t₀ t' e₀ e' ne shut idle =>
    exact Bool.noConfusion (hx.symm.trans (shut x))

end Fate

namespace Ends

variable [DecidableEq T] {v : Ends T} {es : List (Event T)} {t u : T} {e x : End} {r : Role}

/-! ## Rules -/

theorem Inv.begin_use (h : v.Inv es) (ht : v.role t = .idle) (he : 0 < v.fds t e) :
    (v.goto t (.user e)).Inv es where
  toHeld := by
    refine h.toHeld.goto (fun x => ?_) (fun x => nofun) fun x hx => ?_
    · rw [ht]
      exact nofun
    · cases hx
      exact he
  fate := h.fate.goto ((h.isOpen e).mpr (Or.inl ⟨t, he⟩)) fun x => ⟨nofun, nofun⟩

theorem Inv.end_use (h : v.Inv es) (ht : v.role t = .user e) : (v.goto t .idle).Inv es where
  toHeld := by
    refine h.toHeld.goto (fun x => ?_) (fun x => nofun) fun x => nofun
    rw [ht]
    exact nofun
  fate := h.fate.goto (h.open_of_user ht) fun x => ⟨nofun, nofun⟩

theorem Inv.end_close (h : v.Inv es) (ht : v.role t = .closed e) (hx : v.isOpen x = true) :
    (v.goto t .idle).Inv es where
  toHeld := by
    refine h.toHeld.goto (fun x => ?_) (fun x => nofun) fun x => nofun
    rw [ht]
    exact nofun
  fate := h.fate.goto hx fun x => ⟨nofun, nofun⟩

theorem Inv.begin_free (h : v.Inv es) (ht : v.role t = .closed e)
    (hx : ∀ x, v.isOpen x = false) : (v.goto t (.freeing e)).Inv es where
  toHeld := by
    refine h.toHeld.goto (fun x => ?_) (fun x => nofun) fun x => nofun
    rw [ht]
    exact nofun
  fate := by
    obtain ⟨t₀, e₀, hne, rfl, hothers⟩ := h.fate.last (Or.inr ht) hx
    refine .shut t₀ t e₀ e hne hx (Or.inr (goto_self ..)) fun u hu => ?_
    rw [goto_of_ne v _ hu]
    exact hothers u hu

theorem Inv.free (h : v.Inv es) (ht : v.role t = .freeing e) :
    (v.goto t .idle).Inv (es ++ [.freed t]) where
  toHeld := by
    refine h.toHeld.goto (fun x => ?_) (fun x => nofun) fun x => nofun
    rw [ht]
    exact nofun
  fate := by
    have hx := h.fate.shut_of_freeing ht
    obtain ⟨t₀, e₀, hne, rfl, hothers⟩ := h.fate.last (Or.inl ht) hx
    refine .freed t₀ t e₀ e hne hx fun u => ?_
    by_cases hu : u = t
    · rw [hu, goto_self]
    · rw [goto_of_ne v _ hu]
      exact hothers u hu

def shut (v : Ends T) (e : End) : Ends T :=
  { v with isOpen := update v.isOpen e false }

omit [DecidableEq T] in
theorem shut_self (v : Ends T) (e : End) : (v.shut e).isOpen e = false := by
  simp [shut]

omit [DecidableEq T] in
theorem shut_of_ne (v : Ends T) (hx : x ≠ e) : (v.shut e).isOpen x = v.isOpen x := by
  simp [shut, hx]

theorem Held.shut (h : v.Held) (ht : v.role t = .closing e) :
    ((v.shut e).goto t (.closed e)).Held where
  user := fun u x hu => h.user u x (role_of_goto hu nofun).2
  closing := fun u x hu => h.closing u x (role_of_goto hu nofun).2
  sole := fun u w x hu hw => h.sole u w x (role_of_goto hu nofun).2 (role_of_goto hw nofun).2
  isOpen := by
    intro x
    by_cases hx : x = e
    · subst hx
      refine iff_of_false (Bool.eq_false_iff.mp (shut_self v x)) ?_
      rintro (⟨u, hu⟩ | ⟨u, hu⟩)
      · exact Nat.ne_of_gt hu (h.closing t x ht u)
      · obtain ⟨hut, hrole⟩ := role_of_goto hu nofun
        exact hut (h.sole u t x hrole ht)
    · have hopen : ((v.shut e).goto t (.closed e)).isOpen x = v.isOpen x := shut_of_ne v hx
      rw [hopen]
      refine (h.isOpen x).trans (or_congr_right ?_)
      constructor
      · rintro ⟨u, hu⟩
        have hut : u ≠ t := by
          rintro rfl
          exact hx (Role.closing.inj (hu.symm.trans ht))
        exact ⟨u, (goto_of_ne _ _ hut).trans hu⟩
      · rintro ⟨u, hu⟩
        exact ⟨u, (role_of_goto hu nofun).2⟩

omit [DecidableEq T] in
/-- Who closes the second end is alone: the others have no end, and nobody else who has
cleared a flag has the lock. -/
theorem Held.alone (h : v.Held) (ht : v.role t = .closing e)
    (hother : ∀ x, x ≠ e → v.isOpen x = false) (hlock : ∀ u x, v.role u ≠ .closed x)
    (hfree : ∀ u x, v.role u ≠ .freeing x) (hu : u ≠ t) : v.role u = .idle := by
  have hno : ∀ x, v.role u ≠ .user x ∧ v.role u ≠ .closing x := by
    intro x
    by_cases hx : x = e
    · subst hx
      refine ⟨fun hrole => ?_, fun hrole => hu (h.sole u t x hrole ht)⟩
      exact Nat.ne_of_gt (h.user u x hrole) (h.closing t x ht u)
    · exact ⟨h.not_user (hother x hx), h.not_closing (hother x hx)⟩
  cases hrole : v.role u with
  | idle => rfl
  | user x => exact absurd hrole (hno x).1
  | closing x => exact absurd hrole (hno x).2
  | closed x => exact absurd hrole (hlock u x)
  | freeing x => exact absurd hrole (hfree u x)

theorem Inv.shut (h : v.Inv es) (ht : v.role t = .closing e)
    (hlock : ∀ u x, v.role u ≠ .closed x) :
    ((v.shut e).goto t (.closed e)).Inv (es ++ [Event.shut t e]) where
  toHeld := h.toHeld.shut ht
  fate := by
    have hopen := h.open_of_closing ht
    cases h.fate with
    | fresh all_open nobody =>
      refine .half t e (shut_self v e) (fun x hx => (shut_of_ne v hx).trans (all_open x)) ?_
      exact fun u x hu => (nobody u x).2 (role_of_goto hu nofun).2
    | half t₀ e₀ shut other nobody =>
      have hne : e₀ ≠ e := by
        rintro rfl
        exact Bool.noConfusion (hopen.symm.trans shut)
      have hother : ∀ x, x ≠ e → v.isOpen x = false := by
        intro x hx
        rcases End.eq_or_eq hne x with rfl | rfl
        · exact shut
        · exact absurd rfl hx
      refine .shut t₀ t e₀ e hne (fun x => ?_) (Or.inl (goto_self ..)) fun u hu => ?_
      · by_cases hx : x = e
        · rw [hx]
          exact shut_self v e
        · exact (shut_of_ne v hx).trans (hother x hx)
      · rw [goto_of_ne _ _ hu]
        exact h.toHeld.alone ht hother hlock nobody hu
    | shut t₀ t' e₀ e' ne shut last others =>
      exact Bool.noConfusion (hopen.symm.trans (shut e))
    | freed t₀ t' e₀ e' ne shut idle => exact Bool.noConfusion (hopen.symm.trans (shut e))

omit [DecidableEq T] in
theorem Inv.share (h : v.Inv es) {fds : T → End → Nat}
    (hsome : ∀ e, (∃ u, 0 < fds u e) ↔ ∃ u, 0 < v.fds u e)
    (huser : ∀ u e, v.role u = .user e → 0 < fds u e) : { v with fds := fds }.Inv es where
  user := huser
  closing := by
    intro u e hu w
    by_contra hne
    obtain ⟨w', hw'⟩ := (hsome e).mp ⟨w, Nat.pos_of_ne_zero hne⟩
    exact Nat.ne_of_gt hw' (h.closing u e hu w')
  sole := h.sole
  isOpen := fun e => (h.isOpen e).trans (or_congr_left (hsome e).symm)
  fate := h.fate

/-- The number of descriptors of one end that one process has is another one. -/
def give (v : Ends T) (t : T) (e : End) (n : Nat) : Ends T :=
  { v with fds := update v.fds t (update (v.fds t) e n) }

theorem give_self (v : Ends T) (t : T) (e : End) (n : Nat) : (v.give t e n).fds t e = n := by
  simp [give]

theorem give_of_ne (v : Ends T) {n : Nat} (hux : u ≠ t ∨ x ≠ e) :
    (v.give t e n).fds u x = v.fds u x := by
  by_cases hu : u = t
  · subst hu
    have hx : x ≠ e := hux.resolve_left fun h => h rfl
    simp [give, hx]
  · simp [give, hu]

theorem Inv.give (h : v.Inv es) {n : Nat} (ht : v.role t = .idle) (he : 0 < v.fds t e)
    (hsome : ∃ u, 0 < (v.give t e n).fds u e) : (v.give t e n).Inv es := by
  refine h.share (fun x => ?_) fun u x hu => ?_
  · by_cases hx : x = e
    · subst hx
      exact iff_of_true hsome ⟨t, he⟩
    · exact exists_congr fun u => by rw [← give_of_ne v (n := n) (Or.inr hx)]; rfl
  · have hut : u ≠ t := by
      rintro rfl
      cases ht.symm.trans hu
    exact Nat.lt_of_lt_of_eq (h.user u x hu) (give_of_ne v (Or.inl hut)).symm

theorem Inv.begin_close (h : v.Inv es) {n : Nat} (ht : v.role t = .idle) (he : 0 < v.fds t e)
    (hnone : ∀ u, (v.give t e n).fds u e = 0) :
    ((v.give t e n).goto t (.closing e)).Inv es where
  user := by
    intro u x hu
    obtain ⟨hut, hrole⟩ := role_of_goto hu nofun
    exact Nat.lt_of_lt_of_eq (h.user u x hrole) (give_of_ne v (Or.inl hut)).symm
  closing := by
    intro u x hu w
    by_cases hx : x = e
    · rw [hx]
      exact hnone w
    · have hrole := (role_of_goto hu fun heq => hx (Role.closing.inj heq).symm).2
      exact (give_of_ne v (Or.inr hx)).trans (h.closing u x hrole w)
  sole := by
    intro u w x hu hw
    by_cases hx : x = e
    · -- nobody was closing an end that has descriptors
      subst hx
      have hself : ∀ y, ((v.give t x n).goto t (.closing x)).role y = .closing x → y = t := by
        intro y hy
        by_contra hne
        rw [goto_of_ne _ _ hne] at hy
        exact Nat.ne_of_gt he (h.closing y x hy t)
      rw [hself u hu, hself w hw]
    · have hne : Role.closing e ≠ .closing x := fun heq => hx (Role.closing.inj heq).symm
      exact h.sole u w x (role_of_goto hu hne).2 (role_of_goto hw hne).2
  isOpen := by
    intro x
    by_cases hx : x = e
    · subst hx
      exact iff_of_true ((h.isOpen x).mpr (Or.inl ⟨t, he⟩)) (Or.inr ⟨t, goto_self ..⟩)
    · refine (h.isOpen x).trans (or_congr ?_ ?_)
      · exact exists_congr fun u => by rw [← give_of_ne v (n := n) (Or.inr hx)]; rfl
      · constructor
        · rintro ⟨u, hu⟩
          have hut : u ≠ t := by
            rintro rfl
            cases ht.symm.trans hu
          exact ⟨u, (goto_of_ne _ _ hut).trans hu⟩
        · rintro ⟨u, hu⟩
          exact ⟨u, (role_of_goto hu fun heq => hx (Role.closing.inj heq).symm).2⟩
  fate := by
    have hopen : v.isOpen e = true := (h.isOpen e).mpr (Or.inl ⟨t, he⟩)
    exact h.fate.goto hopen fun x => ⟨nofun, nofun⟩

end Ends

/-! ## The steps -/

namespace State

variable {s s' : State T} {t : T} {k : Pc} {o : Option (Event T)} {es : List (Event T)}

def ends (s : State T) : Ends T where
  role := fun t => (s.proc t).pc.role
  fds := fun t => (s.proc t).fds
  isOpen := s.pipe.isOpen

theorem wake_ends (s : State T) (c : Chan) : (s.wake c).ends = s.ends := by
  unfold ends
  congr 1
  · funext t
    rw [wake_pc]
  · funext t
    rw [wake_fds]

variable [DecidableEq T]

theorem set_ends {p : Proc} (hf : p.fds = (s.proc t).fds) :
    (s.set t p).ends = s.ends.goto t p.pc.role := by
  unfold ends Ends.goto set
  congr 1
  · funext u
    by_cases hu : u = t
    · subst hu
      simp
    · simp [hu]
  · funext u
    by_cases hu : u = t
    · subst hu
      simp [hf]
    · simp [hu]

theorem set_ends_fds {p : Proc} (hr : p.pc.role = (s.proc t).pc.role) :
    (s.set t p).ends = { s.ends with fds := update s.ends.fds t p.fds } := by
  unfold ends set
  congr 1
  · funext u
    by_cases hu : u = t
    · subst hu
      simp [hr]
    · simp [hu]
  · funext u
    by_cases hu : u = t
    · subst hu
      simp
    · simp [hu]

theorem set_ends_same {p : Proc} (hf : p.fds = (s.proc t).fds)
    (hr : p.pc.role = (s.proc t).pc.role) : (s.set t p).ends = s.ends := by
  rw [set_ends hf, hr]
  unfold Ends.goto
  congr 1
  exact update_eq_self t s.ends.role

section Role

variable (hr : k.role = (s.proc t).pc.role)

include hr

theorem acquire_ends (h : s.acquire t k = some (s', o)) :
    endEvents o.toList = [] ∧ s'.ends = s.ends := by
  obtain ⟨-, heq⟩ := of_acquire h
  cases heq
  exact ⟨rfl, set_ends_same rfl hr⟩

theorem wakeup_ends {c : Chan} (h : s.wakeup t c k = some (s', o)) :
    endEvents o.toList = [] ∧ s'.ends = s.ends := by
  obtain ⟨-, heq⟩ := of_wakeup h
  cases heq
  refine ⟨rfl, ?_⟩
  rw [← wake_ends s c]
  refine set_ends_same rfl ?_
  rwa [wake_pc]

theorem sleep_ends (h : s.sleep t k = some (s', o)) :
    endEvents o.toList = [] ∧ s'.ends = s.ends := by
  obtain ⟨-, heq⟩ := of_sleep h
  cases heq
  exact ⟨rfl, set_ends_same rfl hr⟩

end Role

def Uses (s s' : State T) (t : T) (o : Option (Event T)) : Prop :=
  endEvents o.toList = [] ∧ (s'.ends = s.ends ∨ s'.ends = s.ends.goto t .idle)

theorem pipewrite_ends {src : Nat → Byte} {n : Int} {k : WriteAt}
    (hpc : (s.proc t).pc = .write src n k) (h : s.pipewrite t src n k = some (s', o)) :
    Uses s s' t o := by
  have hsame : ∀ k', (Pc.write src n k').role = (s.proc t).pc.role := by
    intro k'
    rw [hpc]
    rfl
  cases k with
  | acquire i => exact (acquire_ends (hsame _) h).imp_right Or.inl
  | loop i stored =>
    dsimp only [pipewrite] at h
    split at h
    · split at h
      · split at h
        · cases h
          exact ⟨rfl, Or.inr (set_ends rfl)⟩
        · cases h
          exact ⟨rfl, Or.inl (set_ends_same rfl (hsame _))⟩
      · cases h
        exact ⟨rfl, Or.inl (set_ends_same rfl (hsame _))⟩
    · cases h
      exact ⟨rfl, Or.inl (set_ends_same rfl (hsame _))⟩
  | full _ | last => exact (wakeup_ends (hsame _) h).imp_right Or.inl
  | sleep i => exact (sleep_ends (hsame _) h).imp_right Or.inl
  | falling i =>
    cases h
    exact ⟨rfl, Or.inl (set_ends_same rfl (hsame _))⟩
  | done =>
    cases h
    exact ⟨rfl, Or.inr (set_ends rfl)⟩

theorem piperead_ends {n : Int} {k : ReadAt} (hpc : (s.proc t).pc = .read n k)
    (h : s.piperead t n k = some (s', o)) : Uses s s' t o := by
  have hsame : ∀ k', (Pc.read n k').role = (s.proc t).pc.role := by
    intro k'
    rw [hpc]
    rfl
  cases k with
  | acquire => exact (acquire_ends (hsame _) h).imp_right Or.inl
  | test =>
    dsimp only [piperead] at h
    split at h
    · split at h
      · cases h
        exact ⟨rfl, Or.inr (set_ends rfl)⟩
      · cases h
        exact ⟨rfl, Or.inl (set_ends_same rfl (hsame _))⟩
    · cases h
      exact ⟨rfl, Or.inl (set_ends_same rfl (hsame _))⟩
  | sleep => exact (sleep_ends (hsame _) h).imp_right Or.inl
  | falling =>
    cases h
    exact ⟨rfl, Or.inl (set_ends_same rfl (hsame _))⟩
  | copy i =>
    dsimp only [piperead] at h
    split at h
    · cases h
      exact ⟨rfl, Or.inl (set_ends_same rfl (hsame _))⟩
    · cases h
      exact ⟨rfl, Or.inl (set_ends_same rfl (hsame _))⟩
  | last i => exact (wakeup_ends (hsame _) h).imp_right Or.inl
  | done i =>
    cases h
    exact ⟨rfl, Or.inr (set_ends rfl)⟩

theorem Uses.inv {e : End} (hu : Uses s s' t o) (hrole : (s.proc t).pc.role = .user e)
    (h : s.ends.Inv es) : s'.ends.Inv (es ++ endEvents o.toList) := by
  obtain ⟨hevents, hends⟩ := hu
  rw [hevents, List.append_nil]
  rcases hends with heq | heq
  · rwa [heq]
  · rw [heq]
    exact h.end_use hrole

omit [DecidableEq T] in
theorem shut_ends (s : State T) (e : End) :
    ({ s with pipe := s.pipe.shut e } : State T).ends = s.ends.shut e := by
  unfold ends Ends.shut
  congr 1
  funext x
  cases e <;> cases x <;> rfl

theorem pipeclose_inv {e : End} {k : CloseAt} (hpc : (s.proc t).pc = .close e k)
    (h : s.pipeclose t e k = some (s', o))
    (hlock : k = .shut → ∀ u x, (s.proc u).pc.role ≠ .closed x) (hinv : s.ends.Inv es) :
    s'.ends.Inv (es ++ endEvents o.toList) := by
  have hrole : s.ends.role t = (Pc.close e k).role := congrArg Pc.role hpc
  cases k with
  | acquire =>
    obtain ⟨hevents, heq⟩ := acquire_ends (k := .close e .shut) hrole.symm h
    rwa [hevents, List.append_nil, heq]
  | shut =>
    cases h
    have heq : ({ s with pipe := s.pipe.shut e }.goto t (.close e .wakeup)).ends =
        (s.ends.shut e).goto t (.closed e) := by
      rw [← shut_ends]
      exact set_ends rfl
    rw [heq]
    exact hinv.shut hrole (hlock rfl)
  | wakeup =>
    obtain ⟨hevents, heq⟩ := wakeup_ends (k := .close e .test) hrole.symm h
    rwa [hevents, List.append_nil, heq]
  | test =>
    dsimp only [pipeclose] at h
    split at h
    · next hboth =>
      cases h
      have heq : ({ s with lock := none }.goto t (.close e .free)).ends =
          s.ends.goto t (.freeing e) := set_ends rfl
      rw [heq, show endEvents (none : Option (Event T)).toList = [] from rfl, List.append_nil]
      refine hinv.begin_free hrole fun x => ?_
      cases x with
      | reader => exact hboth.1
      | writer => exact hboth.2
    · next hboth =>
      cases h
      have heq : ({ s with lock := none }.goto t .out).ends = s.ends.goto t .idle := set_ends rfl
      rw [heq, show endEvents (none : Option (Event T)).toList = [] from rfl, List.append_nil]
      have hopen : ∃ x, s.ends.isOpen x = true := by
        by_contra hnone
        refine hboth ⟨?_, ?_⟩
        · exact Bool.eq_false_iff.mpr fun hx => hnone ⟨.reader, hx⟩
        · exact Bool.eq_false_iff.mpr fun hx => hnone ⟨.writer, hx⟩
      obtain ⟨x, hx⟩ := hopen
      exact hinv.end_close hrole hx
  | free =>
    cases h
    have heq : (s.goto t .out).ends = s.ends.goto t .idle := set_ends rfl
    rw [heq]
    exact hinv.free hrole

variable [Fintype T]

theorem close_inv {e : End} (hhas : s.Has t e) (hinv : s.ends.Inv es) :
    (s.close t e).ends.Inv es := by
  have hidle : s.ends.role t = .idle := congrArg Pc.role (Pc.eq_out hhas.1)
  have hset : (s.set t { s.proc t with
      fds := update (s.proc t).fds e ((s.proc t).fds e - 1) }).ends =
      s.ends.give t e ((s.proc t).fds e - 1) := set_ends_fds rfl
  unfold close
  dsimp only
  split
  · next hnone =>
    have hzero : ∀ u, (s.ends.give t e ((s.proc t).fds e - 1)).fds u e = 0 := by
      rwa [← hset]
    have hgoto : ∀ s₁ : State T, (s₁.goto t (.close e .acquire)).ends =
        s₁.ends.goto t (.closing e) := fun s₁ => set_ends rfl
    rw [hgoto, hset]
    exact hinv.begin_close hidle hhas.2 hzero
  · next hsome =>
    rw [hset]
    obtain ⟨u, hu⟩ := not_forall.mp hsome
    refine hinv.give hidle hhas.2 ⟨u, Nat.pos_of_ne_zero ?_⟩
    rwa [← hset]

omit [Fintype T] in
theorem dup_inv {e : End} (hhas : s.Has t e) (hinv : s.ends.Inv es) :
    (s.set t { s.proc t with
      fds := update (s.proc t).fds e ((s.proc t).fds e + 1) }).ends.Inv es := by
  have hset : (s.set t { s.proc t with
      fds := update (s.proc t).fds e ((s.proc t).fds e + 1) }).ends =
      s.ends.give t e ((s.proc t).fds e + 1) := set_ends_fds rfl
  rw [hset]
  refine hinv.give (congrArg Pc.role (Pc.eq_out hhas.1)) hhas.2 ⟨t, ?_⟩
  rw [Ends.give_self]
  exact Nat.succ_pos _

omit [Fintype T] in
theorem fork_inv {u : T} (hu : s.Stranger u) (hinv : s.ends.Inv es) :
    (s.fork t u).ends.Inv es := by
  have hidle : s.ends.role u = .idle := congrArg Pc.role (Pc.eq_out hu.1)
  have hset : (s.fork t u).ends =
      { s.ends with fds := update s.ends.fds u (s.ends.fds t) } :=
    set_ends_fds hidle.symm
  rw [hset]
  refine hinv.share (fun e => ?_) fun w e hw => ?_
  · constructor
    · rintro ⟨w, hw⟩
      by_cases hwu : w = u
      · subst hwu
        rw [update_self] at hw
        exact ⟨t, hw⟩
      · rw [update_of_ne hwu] at hw
        exact ⟨w, hw⟩
    · rintro ⟨w, hw⟩
      have hwu : w ≠ u := by
        rintro rfl
        exact Nat.ne_of_gt hw (hu.2 e)
      refine ⟨w, ?_⟩
      rwa [update_of_ne hwu]
  · have hwu : w ≠ u := by
      rintro rfl
      cases hidle.symm.trans hw
    rw [update_of_ne hwu]
    exact hinv.user w e hw

/-- Every step keeps the invariant of the ends, if nobody else has the lock when a flag is
cleared. -/
theorem next_ends {a : Action T} (h : s.next a = some (s', o)) (hinv : s.ends.Inv es)
    (hlock : ∀ t e, (s.proc t).pc = .close e .shut → ∀ u x, (s.proc u).pc.role ≠ .closed x) :
    s'.ends.Inv (es ++ endEvents o.toList) := by
  have hquiet : ∀ s₁ : State T, s₁.ends.Inv es →
      s₁.ends.Inv (es ++ endEvents (none : Option (Event T)).toList) := by
    intro s₁ h₁
    rwa [show endEvents (none : Option (Event T)).toList = [] from rfl, List.append_nil]
  cases a with
  | write t src n =>
    dsimp only [next] at h
    split at h
    · next hhas =>
      cases h
      refine hquiet _ ?_
      rw [show (s.goto t (.write src n (.acquire 0))).ends = s.ends.goto t (.user .writer) from
        set_ends rfl]
      exact hinv.begin_use (congrArg Pc.role (Pc.eq_out hhas.1)) hhas.2
    · cases h
  | read t n =>
    dsimp only [next] at h
    split at h
    · next hhas =>
      cases h
      refine hquiet _ ?_
      rw [show (s.goto t (.read n .acquire)).ends = s.ends.goto t (.user .reader) from
        set_ends rfl]
      exact hinv.begin_use (congrArg Pc.role (Pc.eq_out hhas.1)) hhas.2
    · cases h
  | close t e =>
    dsimp only [next] at h
    split at h
    · next hhas =>
      cases h
      exact hquiet _ (close_inv hhas hinv)
    · cases h
  | dup t e =>
    dsimp only [next] at h
    split at h
    · next hhas =>
      cases h
      exact hquiet _ (dup_inv hhas hinv)
    · cases h
  | fork t u =>
    dsimp only [next] at h
    split at h
    · next hfork =>
      cases h
      exact hquiet _ (fork_inv hfork.2 hinv)
    · cases h
  | kill t =>
    cases h
    have hset : (s.set t { s.proc t with killed := true, asleep := none }).ends = s.ends :=
      set_ends_same rfl rfl
    exact hquiet _ (hset ▸ hinv)
  | run t =>
    dsimp only [next] at h
    split at h
    · unfold run at h
      split at h
      · cases h
      · next src n k hpc =>
        exact (pipewrite_ends hpc h).inv (congrArg Pc.role hpc) hinv
      · next n k hpc => exact (piperead_ends hpc h).inv (congrArg Pc.role hpc) hinv
      · next e k hpc =>
        refine pipeclose_inv hpc h (fun hk => ?_) hinv
        exact hlock t e (hk ▸ hpc)
    · cases h

omit [DecidableEq T] [Fintype T] in
theorem Init.ends (h : s.Init) : s.ends.Inv [] where
  user := by
    intro t e ht
    rw [show s.ends.role t = .idle from congrArg Pc.role (h.pc t)] at ht
    cases ht
  closing := by
    intro t e ht
    rw [show s.ends.role t = .idle from congrArg Pc.role (h.pc t)] at ht
    cases ht
  sole := by
    intro t u e ht
    rw [show s.ends.role t = .idle from congrArg Pc.role (h.pc t)] at ht
    cases ht
  isOpen := fun e => iff_of_true (h.isOpen e) (Or.inl (h.fds e))
  fate := by
    refine .fresh h.isOpen fun t e => ?_
    rw [show s.ends.role t = .idle from congrArg Pc.role (h.pc t)]
    exact ⟨nofun, nofun⟩

end State

end Pipes

end Xv6
