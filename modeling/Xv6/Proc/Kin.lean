import Xv6.Proc.Reachable

/-!
# Families

Who is whose child, and nothing else: a slot is free, being filled by a `fork`, a living
process or a zombie. `exit` hands its children to init and `wait` frees a slot, so a parent
pointer could be left pointing at a dead process. It never is: every process but init has a
living parent.
-/

namespace Xv6

inductive Stage
  | free
  | embryo
  | alive
  | zombie
deriving DecidableEq

def ProcState.stage : ProcState → Stage
  | .unused => .free
  | .embryo => .embryo
  | .sleeping | .runnable | .running => .alive
  | .zombie => .zombie

@[ext] structure Member where
  stage : Stage
  pid : Word
  parent : Option Slot

/-- A process that `fork` has completed and `wait` has not returned. -/
def Member.Unreaped (x : Member) : Prop := x.stage = .alive ∨ x.stage = .zombie

theorem Member.Unreaped.ne_free {x : Member} (h : x.Unreaped) : x.stage ≠ .free := by
  rcases h with h | h <;> rw [h] <;> exact nofun

instance (x : Member) : Decidable x.Unreaped := by unfold Member.Unreaped; infer_instance

structure Family where
  member : Slot → Member
  nextpid : Word
  initproc : Option Slot

def Life.member (x : Life) : Member where
  stage := x.state.stage
  pid := x.pid
  parent := x.parent

def World.family (w : World) : Family where
  member := fun p => (w.life p).member
  nextpid := w.nextpid
  initproc := w.initproc

def Event.kin : Event → Bool
  | .alloc _ _ | .forked _ _ | .waited _ _ | .exited _ _ => true
  | .killed _ _ | .trapped _ => false

namespace Family

/-- The unreaped children of `p`. -/
def children (f : Family) (p : Slot) : Finset Slot :=
  Finset.univ.filter fun x => (f.member x).parent = some p ∧ (f.member x).Unreaped

def set (f : Family) (p : Slot) (x : Member) : Family :=
  { f with member := Function.update f.member p x }

def alloc (f : Family) (np : Slot) : Family :=
  { f.set np { f.member np with stage := .embryo, pid := f.nextpid } with
    nextpid := f.nextpid + 1 }

def exit (f : Family) (p : Slot) : Family :=
  { f with member := fun x =>
      { f.member x with
        stage := if x = p then .zombie else (f.member x).stage
        parent := if (f.member x).stage ≠ .free ∧ (f.member x).parent = some p then f.initproc
          else (f.member x).parent } }

/-- A slot no event is about: it stays as it is, or belongs to a `fork` that goes on or
fails. -/
def Keeps (f : Family) (x y : Member) : Prop :=
  y = x ∨ (x.stage = .embryo ∧ (y.stage = .embryo ∨ y.stage = .free) ∧ y.pid = x.pid ∧
    (y.parent = x.parent ∨ ∃ p, (f.member p).stage = .alive ∧ y.parent = some p))

inductive Step (f : Family) : Option Event → Family → Prop
  | silent {e : Option Event} {f' : Family} (he : ∀ ev ∈ e, ev.kin = false)
      (hn : f'.nextpid = f.nextpid) (hi : f'.initproc = f.initproc)
      (hm : ∀ x, f.Keeps (f.member x) (f'.member x)) : Step f e f'
  | alloc {np : Slot} (hnp : (f.member np).stage = .free) :
      Step f (some (.alloc np f.nextpid)) (f.alloc np)
  | forked {p np : Slot} (hp : (f.member p).stage = .alive) (hnp : (f.member np).stage = .embryo)
      (hpar : (f.member np).parent = some p) :
      Step f (some (.forked (f.member p).pid (f.member np).pid))
        (f.set np { f.member np with stage := .alive })
  | exited {p : Slot} {os : List Word} (hp : (f.member p).stage = .alive)
      (hi : f.initproc ≠ some p) (hos : os.length = (f.children p).card) :
      Step f (some (.exited (f.member p).pid os)) (f.exit p)
  | waited {p z : Slot} (hp : (f.member p).stage = .alive) (hz : (f.member z).stage = .zombie)
      (hpar : (f.member z).parent = some p) :
      Step f (some (.waited (f.member p).pid (f.member z).pid))
        (f.set z { stage := .free, pid := 0, parent := none })

theorem ext' {f g : Family} (hm : ∀ p, f.member p = g.member p) (hn : f.nextpid = g.nextpid)
    (hi : f.initproc = g.initproc) : f = g := by
  cases f
  cases g
  simp only [Family.mk.injEq]
  exact ⟨funext hm, hn, hi⟩

theorem set_self (f : Family) (p : Slot) (x : Member) : (f.set p x).member p = x := by
  simp [set]

theorem set_of_ne (f : Family) {p q : Slot} (x : Member) (h : q ≠ p) :
    (f.set p x).member q = f.member q := by
  simp [set, h]

section Exit

variable (f : Family) {p x : Slot}

theorem exit_stage (h : x ≠ p) : ((f.exit p).member x).stage = (f.member x).stage := if_neg h

theorem exit_parent_child (hu : (f.member x).Unreaped) (h : (f.member x).parent = some p) :
    ((f.exit p).member x).parent = f.initproc :=
  if_pos ⟨hu.ne_free, h⟩

theorem exit_parent_other (h : (f.member x).parent ≠ some p) :
    ((f.exit p).member x).parent = (f.member x).parent :=
  if_neg fun hx => h hx.2

end Exit

theorem Step.of_eq {f f' : Family} {e : Option Event} (he : ∀ ev ∈ e, ev.kin = false)
    (h : f' = f) : Step f e f' :=
  .silent he (by rw [h]) (by rw [h]) fun x => by rw [h]; exact Or.inl rfl

end Family

/-! ## The family of a world -/

namespace World

variable (w : World) (p : Slot)

theorem family_nextpid : w.family.nextpid = w.nextpid := rfl

theorem family_initproc : w.family.initproc = w.initproc := rfl

theorem family_modify (g : Life → Life) :
    (w.modify p g).family = w.family.set p (g (w.life p)).member := by
  refine Family.ext' (fun x => ?_) rfl rfl
  by_cases hx : x = p
  · subst hx
    rw [Family.set_self]
    exact congrArg Life.member (w.modify_self x g)
  · rw [Family.set_of_ne _ _ hx]
    exact congrArg Life.member (w.modify_of_ne p g hx)

theorem family_modify_eq {g : Life → Life} (h : (g (w.life p)).member = (w.life p).member) :
    (w.modify p g).family = w.family := by
  rw [family_modify, h]
  refine Family.ext' (fun x => ?_) rfl rfl
  by_cases hx : x = p
  · rw [hx, Family.set_self]
    rfl
  · rw [Family.set_of_ne _ _ hx]

theorem member_wake (chan : Option Chan) (x : Life) : (x.wake chan).member = x.member := by
  unfold Life.wake
  split
  · next h => simp [Life.member, h.1, ProcState.stage]
  · rfl

theorem family_wakeup (chan : Option Chan) : (w.wakeup chan).family = w.family :=
  Family.ext' (fun _ => member_wake chan _) rfl rfl

theorem family_setState {state : ProcState} (h : state.stage = (w.life p).state.stage) :
    (w.setState p state).family = w.family :=
  w.family_modify_eq p (by simp only [Life.member, h])

theorem family_sleep {chan : Chan} (h : (w.life p).state = .running) :
    (w.sleep p chan).family = w.family :=
  w.family_modify_eq p (by simp only [Life.member, h, ProcState.stage])

theorem family_clearChan : (w.clearChan p).family = w.family := w.family_modify_eq p rfl

theorem family_kill : (w.modify p Life.kill).family = w.family := by
  refine w.family_modify_eq p ?_
  unfold Life.kill Life.member
  by_cases h : (w.life p).state = .sleeping
  · simp only [h, if_pos, ProcState.stage]
  · simp only [h, if_false]

theorem family_alloc : (w.alloc p).family = w.family.alloc p := by
  have h := w.family_modify p fun x => { x with state := .embryo, pid := w.nextpid }
  refine Family.ext' (fun x => ?_) rfl rfl
  exact congrFun (congrArg Family.member h) x

theorem family_exit : (w.exit p).family = w.family.exit p := by
  refine Family.ext' ?_ ((w.exit p).family_nextpid.trans (w.exit_nextpid p))
    ((w.exit p).family_initproc.trans (w.exit_initproc p))
  intro x
  apply Member.ext
  · change ((w.exit p).life x).state.stage = if x = p then Stage.zombie else (w.life x).state.stage
    rw [exit_state]
    by_cases hx : x = p
    · simp only [hx, if_true, ProcState.stage]
    · rw [if_neg hx, if_neg hx]
      split
      · next h => rw [h.1]; rfl
      · rfl
  · exact w.exit_pid p x
  · have hfree : (w.life x).state.stage ≠ .free ↔ (w.life x).state ≠ .unused := by
      cases (w.life x).state <;> simp [ProcState.stage]
    change ((w.exit p).life x).parent = if (w.life x).state.stage ≠ .free ∧
      (w.life x).parent = some p then w.initproc else (w.life x).parent
    simp only [exit_parent, hfree]

theorem length_children : (w.children p).length = (w.family.children p).card := by
  have hun : ∀ x, (w.family.member x).Unreaped ↔
      (w.life x).state ≠ .unused ∧ (w.life x).state ≠ .embryo := by
    intro x
    change (w.life x).state.stage = .alive ∨ (w.life x).state.stage = .zombie ↔ _
    cases (w.life x).state <;> simp [ProcState.stage]
  unfold children Family.children
  rw [List.length_map]
  simp only [hun]
  rfl

end World

section Machine

variable {Cpu : Type} [DecidableEq Cpu] {s s' : Sys Cpu World} {a : Act Cpu} {e : Option Event}

omit [DecidableEq Cpu] in
theorem WInv.member_alive (h : WInv s) {c : Cpu} {p : Slot} (hc : s.cpu c = some p) :
    (s.tbl.family.member p).stage = .alive :=
  congrArg ProcState.stage (h.cpu_running hc)

omit [DecidableEq Cpu] in
theorem WInv.member_embryo (h : WInv s) {p np : Slot} (hk : (s.ctx p).child = some np) :
    (s.tbl.family.member np).stage = .embryo :=
  congrArg ProcState.stage (h.child_embryo hk)

theorem WaitTurn.family {c : Cpu} {p : Slot} (hrun : (s.tbl.life p).state = .running)
    (hw : WaitTurn s c p e s') : s.tbl.family.Step e s'.tbl.family := by
  cases hw with
  | @reaped z hz hp =>
    have hfam : (s.tbl.reap z).family =
        s.tbl.family.set z { stage := .free, pid := 0, parent := none } :=
      s.tbl.family_modify z _
    change s.tbl.family.Step _ (s.tbl.reap z).family
    rw [hfam]
    exact .waited (congrArg ProcState.stage hrun) (congrArg ProcState.stage hz) hp
  | failed hz hf => exact .of_eq nofun rfl
  | sleeps hz hk hc => exact .of_eq nofun (s.tbl.family_sleep p hrun)

theorem World.family_fail {w : World} {np : Slot} (hnp : (w.life np).state = .embryo) :
    w.family.Step none (w.setState np .unused).family := by
  refine .silent nofun rfl rfl fun x => ?_
  have hfam : (w.setState np .unused).family =
      w.family.set np { (w.life np).member with stage := .free } := w.family_modify np _
  rw [hfam]
  by_cases hx : x = np
  · rw [hx, Family.set_self]
    exact Or.inr ⟨congrArg ProcState.stage hnp, Or.inr rfl, rfl, Or.inl rfl⟩
  · rw [Family.set_of_ne _ _ hx]
    exact Or.inl rfl

theorem WStep.family (h : WInv s) (hs : WStep s a e s') :
    s.tbl.family.Step e s'.tbl.family := by
  cases hs with
  | quiet ha ht hc hx hl => exact .of_eq nofun (congrArg World.family ht)
  | @dispatch c p hl hc hp =>
    exact .of_eq nofun (s.tbl.family_setState p (by rw [hp]; rfl))
  | @resumeSleep c p hc hl hk | @resumeAsleep c p site hc hl hk =>
    exact .of_eq nofun (s.tbl.family_clearChan p)
  | @resumeWait _ c p e hc hl hk hw =>
    have hrun : ((s.tbl.clearChan p).life p).state = .running := by
      rw [World.clearChan, World.modify_self]
      exact h.cpu_running hc
    rw [← s.tbl.family_clearChan p]
    exact hw.family hrun
  | @yield c p hc hl hk =>
    exact .of_eq nofun (s.tbl.family_setState p (by rw [h.cpu_running hc]; rfl))
  | @sleep c p chan hc hl hk hn | @block c p site hc hl hk =>
    exact .of_eq nofun (s.tbl.family_sleep p (h.cpu_running hc))
  | @wakeup _ _ | wakeReaders _ _ _ => exact .of_eq nofun (s.tbl.family_wakeup _)
  | @fork c p np hc hl hk hnp =>
    change s.tbl.family.Step _ (s.tbl.alloc np).family
    rw [World.family_alloc]
    exact .alloc (congrArg ProcState.stage hnp)
  | kallocFail hc hl hk | copyuvmFail hc hl hk =>
    exact World.family_fail (h.child_embryo (by rw [hk]; rfl))
  | @copyuvm c p np pgdir hc hl hk =>
    refine .silent nofun rfl rfl fun x => ?_
    dsimp only [Sys.setCtx]
    rw [World.family_modify]
    by_cases hx : x = np
    · rw [hx, Family.set_self]
      have hemb : (s.tbl.family.member np).stage = .embryo :=
        h.member_embryo (p := p) (by rw [hk]; rfl)
      exact Or.inr ⟨hemb, Or.inl hemb, rfl, Or.inr ⟨p, h.member_alive hc, rfl⟩⟩
    · rw [Family.set_of_ne _ _ hx]
      exact Or.inl rfl
  | @forkEnd c p np hc hl hk =>
    have hfam : (s.tbl.setState np .runnable).family =
        s.tbl.family.set np { s.tbl.family.member np with stage := .alive } :=
      s.tbl.family_modify np _
    change s.tbl.family.Step _ (s.tbl.setState np .runnable).family
    rw [hfam]
    exact .forked (h.member_alive hc) (h.member_embryo (by rw [hk]; rfl)) (h.ready hk)
  | @exit c p hc hl hk hi =>
    dsimp only [Sys.setCtx, Sys.leave]
    rw [World.family_exit]
    exact .exited (h.member_alive hc) hi (s.tbl.length_children p)
  | wait hc hl hk hw => exact hw.family (h.cpu_running hc)
  | @kill c p t pid hc hl hk hp hu hz =>
    exact .of_eq (by rintro _ ⟨⟩; rfl) (s.tbl.family_kill t)
  | @trap c p hc hl hk =>
    refine .of_eq (by rintro _ ⟨⟩; rfl) ?_
    dsimp only
    exact s.tbl.family_modify_eq p rfl
  | _ => exact .of_eq nofun rfl

end Machine

/-! ## Every process but init has a living parent -/

namespace Family

structure Sound (f : Family) : Prop where
  init : ∃ i, f.initproc = some i ∧ (f.member i).stage = .alive
  init_parent : ∀ {i}, f.initproc = some i → (f.member i).parent = none
  irrefl : ∀ {p}, (f.member p).parent ≠ some p
  parent : ∀ {p}, (f.member p).Unreaped → f.initproc ≠ some p →
    ∃ q, (f.member p).parent = some q ∧ (f.member q).stage = .alive

theorem Keeps.eq_of_unreaped {f : Family} {x y : Member} (h : f.Keeps x y)
    (hu : x.Unreaped ∨ y.Unreaped) : y = x := by
  rcases h with heq | ⟨hx, hy, -⟩
  · exact heq
  · exfalso
    rcases hu with (hu | hu) | (hu | hu) <;> rcases hy with hy | hy <;> simp_all

theorem Step.zombie {f f' : Family} {e : Option Event} {z : Slot} (hs : f.Step e f')
    (he : ∀ pid os, e ≠ some (.exited pid os)) (hz : (f'.member z).stage = .zombie) :
    f'.member z = f.member z := by
  have hset : ∀ {p x}, x.stage ≠ .zombie → ((f.set p x).member z).stage = .zombie →
      (f.set p x).member z = f.member z := by
    intro p x hx hz
    by_cases hzp : z = p
    · rw [hzp, set_self] at hz
      exact absurd hz hx
    · exact f.set_of_ne x hzp
  cases hs with
  | silent _ hn hi hm => exact (hm z).eq_of_unreaped (Or.inr (Or.inr hz))
  | exited hp hi hos => exact absurd rfl (he _ _)
  | _ => exact hset (by simp) hz

namespace Sound

variable {f f' : Family} {e : Option Event}

theorem silent (h : f.Sound) (hi : f'.initproc = f.initproc)
    (hm : ∀ x, f.Keeps (f.member x) (f'.member x)) : f'.Sound := by
  have halive : ∀ {q}, (f.member q).stage = .alive → f'.member q = f.member q :=
    fun hq => (hm _).eq_of_unreaped (Or.inl (Or.inl hq))
  obtain ⟨i, hi', hst⟩ := h.init
  refine ⟨⟨i, hi.trans hi', ?_⟩, fun {j} hj => ?_, fun {p} hp => ?_, fun {p} hp hip => ?_⟩
  · rwa [halive hst]
  · rw [hi, hi'] at hj
    cases hj
    rw [halive hst]
    exact h.init_parent hi'
  · rcases hm p with heq | ⟨hemb, -, -, hpar | ⟨q, hq, hpar⟩⟩
    · rw [heq] at hp
      exact h.irrefl hp
    · rw [hpar] at hp
      exact h.irrefl hp
    · rw [hpar] at hp
      cases hp
      rw [hemb] at hq
      cases hq
  · have heq := (hm p).eq_of_unreaped (Or.inr hp)
    rw [heq] at hp ⊢
    rw [hi] at hip
    obtain ⟨q, hpar, hq⟩ := h.parent hp hip
    refine ⟨q, hpar, ?_⟩
    rwa [halive hq]

theorem set {p : Slot} {x : Member} (h : f.Sound) (hp : (f.member p).stage ≠ .alive)
    (hirr : x.parent ≠ some p)
    (hx : x.Unreaped → ∃ q, x.parent = some q ∧ (f.member q).stage = .alive) :
    (f.set p x).Sound := by
  have hne : ∀ {q}, (f.member q).stage = .alive → q ≠ p := by
    rintro q hq rfl
    exact hp hq
  have halive : ∀ {q}, (f.member q).stage = .alive → (f.set p x).member q = f.member q :=
    fun hq => f.set_of_ne x (hne hq)
  obtain ⟨i, hi, hst⟩ := h.init
  refine ⟨⟨i, hi, ?_⟩, fun {j} hj => ?_, fun {y} hy => ?_, fun {y} hy hiy => ?_⟩
  · rwa [halive hst]
  · have hji : i = j := Option.some.inj (hi.symm.trans hj)
    rw [← hji, halive hst]
    exact h.init_parent hi
  · by_cases hyp : y = p
    · rw [hyp, set_self] at hy
      exact hirr hy
    · rw [set_of_ne _ _ hyp] at hy
      exact h.irrefl hy
  · have hpar : ∃ q, ((f.set p x).member y).parent = some q ∧ (f.member q).stage = .alive := by
      by_cases hyp : y = p
      · rw [hyp, set_self] at hy ⊢
        exact hx hy
      · rw [set_of_ne _ _ hyp] at hy ⊢
        exact h.parent hy hiy
    obtain ⟨q, hq, hst⟩ := hpar
    exact ⟨q, hq, by rw [halive hst]; exact hst⟩

theorem exited {p : Slot} (h : f.Sound) (hp : (f.member p).stage = .alive)
    (hi : f.initproc ≠ some p) : (f.exit p).Sound := by
  obtain ⟨i, hi', hst⟩ := h.init
  have hip : i ≠ p := fun heq => hi (heq ▸ hi')
  refine ⟨⟨i, hi', ?_⟩, fun {j} hj => ?_, fun {x} hx => ?_, fun {x} hx hix => ?_⟩
  · rwa [exit_stage f hip]
  · have hji : i = j := Option.some.inj (hi'.symm.trans hj)
    have hnone := h.init_parent hi'
    rwa [← hji, exit_parent_other f (by rw [hnone]; exact nofun)]
  · by_cases hxp : (f.member x).stage ≠ .free ∧ (f.member x).parent = some p
    · -- init would be its own child, but init has no parent
      have hxi : some i = some x := hi'.symm.trans ((if_pos hxp).symm.trans hx)
      cases hxi
      rw [h.init_parent hi'] at hxp
      cases hxp.2
    · exact h.irrefl ((if_neg hxp).symm.trans hx)
  · have hux : (f.member x).Unreaped := by
      by_cases hxp : x = p
      · exact Or.inl (hxp ▸ hp)
      · unfold Member.Unreaped at hx ⊢
        rwa [exit_stage f hxp] at hx
    obtain ⟨q, hq, hqst⟩ := h.parent hux hix
    by_cases hqp : q = p
    · refine ⟨i, (exit_parent_child f hux (hqp ▸ hq)).trans hi', ?_⟩
      rwa [exit_stage f hip]
    · refine ⟨q, ?_, ?_⟩
      · rwa [exit_parent_other f (by rw [hq]; exact fun h => hqp (Option.some.inj h))]
      · rwa [exit_stage f hqp]

theorem step (h : f.Sound) (hs : f.Step e f') : f'.Sound := by
  cases hs with
  | silent he hn hi hm => exact h.silent hi hm
  | @alloc np hnp =>
    have hset : (f.set np { f.member np with stage := .embryo, pid := f.nextpid }).Sound := by
      apply h.set
      · rw [hnp]
        decide
      · exact h.irrefl
      · rintro (hx | hx) <;> cases hx
    exact ⟨hset.init, hset.init_parent, hset.irrefl, hset.parent⟩
  | @forked p np hp hnp hpar =>
    apply h.set
    · rw [hnp]
      decide
    · exact h.irrefl
    · exact fun _ => ⟨p, hpar, hp⟩
  | exited hp hi hos => exact h.exited hp hi
  | @waited p z hp hz hpar =>
    apply h.set
    · rw [hz]
      decide
    · exact nofun
    · rintro (hx | hx) <;> cases hx

end Sound

structure Init (f : Family) : Prop where
  initproc : f.initproc = some 0
  nextpid : f.nextpid = 2
  first : f.member 0 = { stage := .alive, pid := 1, parent := none }
  free : ∀ p, p ≠ 0 → f.member p = { stage := .free, pid := 0, parent := none }

theorem Init.sound {f : Family} (h : f.Init) : f.Sound where
  init := ⟨0, h.initproc, by rw [h.first]⟩
  init_parent hi := by
    rw [h.initproc] at hi
    cases hi
    rw [h.first]
  irrefl {p} hp := by
    by_cases h0 : p = 0
    · rw [h0, h.first] at hp
      cases hp
    · rw [h.free p h0] at hp
      cases hp
  parent {p} hp hi := by
    have h0 : p ≠ 0 := fun h0 => hi (h0 ▸ h.initproc)
    rw [h.free p h0] at hp
    rcases hp with hp | hp <;> cases hp

variable {Cpu : Type}

def Next (f : Family) (l : Act Cpu × Option Event) (f' : Family) : Prop := f.Step l.2 f'

abbrev Run (tr : List (Act Cpu × Option Event)) (f : Family) : Prop :=
  Trace.Run Init Next tr f

theorem Run.sound {tr : List (Act Cpu × Option Event)} {f : Family} (h : Run tr f) : f.Sound :=
  Trace.Run.invariant (fun _ hf => hf.sound) (fun _ _ _ hf hs => hf.step hs) h

end Family

variable {Cpu : Type} [DecidableEq Cpu] {tr : List (Act Cpu × Option Event)} {s : Sys Cpu World}

omit [DecidableEq Cpu] in
theorem WInit.family (h : WInit s) : s.tbl.family.Init where
  initproc := h.initproc
  nextpid := h.nextpid
  first := congrArg Life.member h.first
  free p hp := congrArg Life.member (h.free p hp)

theorem WRun.family (h : WRun tr s) : Family.Run tr s.tbl.family := by
  refine (Trace.Run.simulate (f := fun s : Sys Cpu World => s.tbl.family) (I := WInv) ?_ ?_ h).1
  · exact fun _ hs => ⟨WInit.family hs, WInit.inv hs⟩
  · exact fun _ _ _ hi hs => ⟨WStep.family hi hs, hi.step hs⟩

end Xv6
