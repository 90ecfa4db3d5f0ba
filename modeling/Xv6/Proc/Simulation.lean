import Xv6.Proc.Disciplined
import Xv6.Proc.ArrayWorld
import Xv6.Proc.Invariant

/-!
# The machine stays in its world

A step of the machine from a state whose lists are disciplined ends in such a state
again and is a step of the world of processes; the only fault it can end in is the
panic of an exiting init.
-/

open Function (update update_of_ne update_self)

namespace Xv6

variable {Cpu : Type} [DecidableEq Cpu]

def Sys.world (s : Sys Cpu Ptable) : Sys Cpu World where
  tbl := s.tbl.toCore.world
  ticks := s.ticks
  cpu := s.cpu
  ctx := s.ctx
  lock := s.lock
  pipe := s.pipe
  input := s.input

/-! ## What a step runs -/

/-- The steps of `p` on `c` with the context `k` that hold `ptable.lock` in between. -/
inductive Sys.Locked (s : Sys Cpu Ptable) (c : Cpu) (p : Slot) :
    Ctx → Act Cpu → Except Fault (Outcome Cpu) → Prop
  | yield {k : Ctx} (hi : k.interruptible = true) : Locked s c p k (.yield c) do
      let t ← s.tbl.yield p s.ticks
      .ok ({ s with tbl := t }.leave c, none)
  | sleep {chan : Chan} (hn : chan.isProc = false) : Locked s c p .run (.sleep c chan) do
      let t ← s.tbl.sleep p chan s.ticks
      .ok (({ s with tbl := t }.setCtx p .sleep).leave c, none)
  | fork : Locked s c p .run (.fork c) do
      let (np, t) ← s.tbl.allocproc
      match np with
      | none => .ok ({ s with tbl := t }, none)
      | some np =>
        .ok ({ s with tbl := t }.setCtx p (.forkAlloc np), some (.alloc np s.tbl.nextpid))
  | kallocFail {np : Slot} : Locked s c p (.forkAlloc np) (.kalloc c none) do
      let t ← s.tbl.allocprocFail np
      .ok ({ s with tbl := t }.setCtx p .run, none)
  | copyuvmFail {np : Slot} : Locked s c p (.forkCopy np) (.copyuvm c none) do
      let t ← s.tbl.forkFail np
      .ok ({ s with tbl := t }.setCtx p .run, none)
  | forkEnd {np : Slot} : Locked s c p (.forkReady np) (.forkEnd c) do
      let t ← s.tbl.forkReady np
      .ok ({ s with tbl := t }.setCtx p .run,
        some (.forked (s.tbl.proc p).pid (s.tbl.proc np).pid))
  | exit : Locked s c p .run (.exit c) (s.exit c p)
  | wait : Locked s c p .run (.wait c) (s.waitTurn c p)
  | kill {pid : Word} : Locked s c p .run (.kill c pid) do
      let (p, t) ← s.tbl.kill pid
      .ok ({ s with tbl := t }, p.map fun p => .killed p pid)
  | setpriority {pid : Word} {priority : Int} : Locked s c p .run (.setpriority c pid priority) do
      let (_, t) ← s.tbl.setpriority pid priority
      .ok ({ s with tbl := t }, none)
  | wakeReaders {i : Nat} : Locked s c p (.waking i) (.wakeReaders c) do
      let t ← s.tbl.wakeup1 (some (.nread i))
      .ok ({ s with tbl := t }.setCtx p (.tested (.pipewrite i)), none)
  | block {site : Site} : Locked s c p (.tested site) (.block c) do
      let t ← s.tbl.sleep p site.chan s.ticks
      .ok (({ s with tbl := t }.setCtx p (.asleep site)).leave c, none)

/-- The steps of `p` on `c` with the context `k` without `ptable.lock`. -/
inductive Sys.Unlocked (s : Sys Cpu Ptable) (c : Cpu) (p : Slot) :
    Ctx → Act Cpu → Except Fault (Outcome Cpu) → Prop
  | kalloc {np : Slot} {kstack : Nat} : Unlocked s c p (.forkAlloc np) (.kalloc c (some kstack))
      (.ok (({ s with tbl := s.tbl.allocprocInit np kstack s.ticks }.setCtx np .run).setCtx p
        (.forkCopy np), none))
  | copyuvm {np : Slot} {pgdir : Nat} : Unlocked s c p (.forkCopy np) (.copyuvm c (some pgdir))
      (.ok ({ s with tbl := s.tbl.forkCopy p np pgdir }.setCtx p (.forkReady np), none))
  | trap : Unlocked s c p .run (.trap c)
      (.ok ({ s with tbl := s.tbl.modify p fun x => { x with killed := true } },
        some (.trapped p)))
  | image {sz pgdir name uid gid} : Unlocked s c p .run (.image c sz pgdir name uid gid)
      (.ok ({ s with tbl := s.tbl.modify p fun x =>
        { x with sz := sz, pgdir := some pgdir, name := name, uid := uid, gid := gid } }, none))
  | enter {site : Site} (hs : site.enters s.ticks = true) : Unlocked s c p .run (.enter c site)
      (.ok (s.setCtx p (.loop site), none))
  | test {site : Site} : Unlocked s c p (.loop site) (.test c)
      (.ok (s.setCtx p (s.testCtx site (s.tbl.proc p).killed), none))

inductive Sys.Takes (s : Sys Cpu Ptable) : Act Cpu → Except Fault (Outcome Cpu) → Prop
  | sched {c : Cpu} (hl : s.lock = none) (hc : s.cpu c = none) : Takes s (.sched c) (s.scheduler c)
  | resume {c : Cpu} {p : Slot} (hc : s.cpu c = some p) (hl : s.lock = some c) :
      Takes s (.resume c) (s.resume c p)
  | locked {c : Cpu} {p : Slot} {k : Ctx} {a : Act Cpu} {r : Except Fault (Outcome Cpu)}
      (hc : s.cpu c = some p) (hl : s.lock = none) (hk : s.ctx p = k) (hr : Locked s c p k a r) :
      Takes s a r
  | unlocked {c : Cpu} {p : Slot} {k : Ctx} {a : Act Cpu} {r : Except Fault (Outcome Cpu)}
      (hc : s.cpu c = some p) (hl : s.lock ≠ some c) (hk : s.ctx p = k)
      (hr : Unlocked s c p k a r) : Takes s a r
  | wakeup {chan : Chan} (hl : s.lock = none) : Takes s (.wakeup chan) do
      let t ← s.tbl.wakeup1 (some chan)
      .ok ({ s with tbl := t }, none)
  | tick : Takes s .tick (.ok ({ s with ticks := s.ticks + 1 }, none))
  | pipe {i : Nat} {p : Pipe} :
      Takes s (.pipe i p) (.ok ({ s with pipe := update s.pipe i p }, none))
  | console {input : Input} : Takes s (.console input) (.ok ({ s with input := input }, none))

section Takes

variable {s : Sys Cpu Ptable} {c : Cpu} {a : Act Cpu} {r : Except Fault (Sys.Outcome Cpu)}
  {k : Slot → Ctx → Option (Except Fault (Sys.Outcome Cpu))}

theorem Sys.locked_takes (hr : s.locked c k = some r)
    (hk : ∀ p x, k p x = some r → s.Locked c p x a r) : s.Takes a r := by
  unfold locked at hr
  split at hr
  · next p hc =>
    split at hr
    · next hl => exact .locked hc hl rfl (hk p _ hr)
    · cases hr
  · cases hr

theorem Sys.unlocked_takes (hr : s.unlocked c k = some r)
    (hk : ∀ p x, k p x = some r → s.Unlocked c p x a r) : s.Takes a r := by
  unfold unlocked at hr
  split at hr
  · next p hc =>
    split at hr
    · cases hr
    · next hl => exact .unlocked hc hl rfl (hk p _ hr)
  · cases hr

theorem Sys.step_takes (hr : s.step a = some r) : s.Takes a r := by
  cases a with
  | sched c =>
    rw [step] at hr
    split at hr <;> cases hr
    next hg => exact .sched hg.1 hg.2
  | resume c =>
    rw [step] at hr
    split at hr
    · next p hc =>
      split at hr <;> cases hr
      next hl => exact .resume hc hl
    · cases hr
  | wakeup chan =>
    rw [step] at hr
    split at hr <;> cases hr
    next hl => exact .wakeup hl
  | yield c =>
    rw [step] at hr
    refine locked_takes hr fun p x h => ?_
    split at h <;> cases h
    next hi => exact .yield hi
  | sleep c chan =>
    rw [step] at hr
    refine locked_takes hr fun p x h => ?_
    split at h
    · split at h <;> cases h
      next hn => exact .sleep (Bool.eq_false_of_not_eq_true hn)
    · cases h
  | enter c site =>
    rw [step] at hr
    refine unlocked_takes hr fun p x h => ?_
    split at h
    · split at h <;> cases h
      next hs => exact .enter hs
    · cases h
  | kalloc c x | copyuvm c x =>
    cases x with
    | none =>
      rw [step] at hr
      refine locked_takes hr fun p x h => ?_
      split at h <;> cases h
      constructor
    | some x =>
      rw [step] at hr
      refine unlocked_takes hr fun p x h => ?_
      split at h <;> cases h
      constructor
  | trap _ | image _ _ _ _ _ _ | test _ =>
    rw [step] at hr
    refine unlocked_takes hr fun p x h => ?_
    split at h <;> cases h
    constructor
  | tick =>
    cases hr
    exact .tick
  | pipe i p =>
    cases hr
    exact .pipe
  | console input =>
    cases hr
    exact .console
  | _ =>
    rw [step] at hr
    refine locked_takes hr fun p x h => ?_
    split at h <;> cases h
    constructor

end Takes

/-! ## The invariant -/

/-- The invariant of the machine: disciplined lists, priority 0 for the slot that a
`fork` is about to make runnable, and the invariant of the world. -/
structure Good (s : Sys Cpu Ptable) : Prop where
  lists : s.tbl.Disciplined
  prio : ∀ {p np}, s.ctx p = .forkCopy np ∨ s.ctx p = .forkReady np → (s.tbl.proc np).prio = 0
  inv : WInv s.world

/-- The step ends without a fault, keeps the invariant and is one of the world. -/
def Fits (s : Sys Cpu Ptable) (a : Act Cpu) (r : Except Fault (Sys.Outcome Cpu)) : Prop :=
  ∃ s' e, r = .ok (s', e) ∧ Good s' ∧ WStep s.world a e s'.world

namespace Good

variable {s s' : Sys Cpu Ptable} {a : Act Cpu} {e : Option Event} {c : Cpu} {p : Slot}
  {r : Except Fault (Sys.Outcome Cpu)}

omit [DecidableEq Cpu] in
theorem state_running (h : Good s) (hc : s.cpu c = some p) : (s.tbl.proc p).state = .running :=
  h.inv.cpu_running hc

theorem of_step (h : Good s) (hd : s'.tbl.Disciplined)
    (hk : Core.KeepsEmbryo s.tbl.toCore s'.tbl.toCore)
    (hctx : ∀ {p np}, s'.ctx p = .forkCopy np ∨ s'.ctx p = .forkReady np →
      s.ctx p = .forkCopy np ∨ s.ctx p = .forkReady np)
    (hs : WStep s.world a e s'.world) : Fits s a (.ok (s', e)) := by
  refine ⟨s', e, rfl, ⟨hd, fun {p np} hp => ?_, h.inv.step hs⟩, hs⟩
  have hp' := hctx hp
  have hemb : (s.tbl.proc np).state = .embryo := by
    refine h.inv.child_embryo (p := p) ?_
    change (s.ctx p).child = some np
    rcases hp' with hp' | hp' <;> rw [hp'] <;> rfl
  rw [hk np hemb]
  exact h.prio hp'

theorem ctx_update {ctx : Slot → Ctx} {k : Ctx} (hk : ∀ np, k ≠ .forkCopy np ∧ k ≠ .forkReady np)
    {p x np : Slot}
    (hx : update ctx p k x = .forkCopy np ∨ update ctx p k x = .forkReady np) :
    ctx x = .forkCopy np ∨ ctx x = .forkReady np := by
  by_cases he : x = p
  · subst he
    rw [update_self] at hx
    rcases hx with hx | hx
    · exact absurd hx (hk np).1
    · exact absurd hx (hk np).2
  · rwa [update_of_ne he] at hx

theorem scheduler (h : Good s) (hl : s.lock = none) (hc : s.cpu c = none) :
    Fits s (.sched c) (s.scheduler c) := by
  obtain ⟨r, t, heq, hd, ht⟩ := h.lists.scheduler s.ticks
  unfold Sys.scheduler
  rw [heq]
  cases r with
  | none =>
    have hw : t.toCore.world = s.tbl.toCore.world := by rw [ht, Core.world_promoteDue]
    refine h.of_step hd ?_ id (.quiet trivial hw rfl rfl rfl)
    rw [ht]
    exact Core.keepsEmbryo_promoteDue s.ticks
  | some p =>
    obtain ⟨hst, ht⟩ := ht
    have hw : t.toCore.world = s.world.tbl.setState p .running := by
      rw [ht, Core.world_dispatch, Core.world_promoteDue]
      rfl
    have hst' : (s.world.tbl.life p).state = .runnable := by
      change (s.tbl.toCore.world.life p).state = _
      rwa [← Core.world_promoteDue s.ticks]
    have hs := WStep.dispatch (s := s.world) hl hc hst'
    rw [← hw] at hs
    refine h.of_step hd ?_ id hs
    rw [ht]
    exact Core.keepsEmbryo_dispatch s.ticks hst

/-- A step of the world that an operation of the table makes, with what is then set in the
rest of the state. -/
theorem ends (h : Good s) {u : Sys Cpu World} {m : Except Fault Ptable} {c' : Core}
    {f : Ptable → Sys Cpu Ptable} (hs : WStep s.world a e u) (hm : Ptable.Ends m c')
    (hw : c'.world = u.tbl) (hk : Core.KeepsEmbryo s.tbl.toCore c') (hf : ∀ t, (f t).tbl = t)
    (hu : ∀ t, (f t).world = { u with tbl := t.toCore.world })
    (hctx : ∀ {p np}, u.ctx p = .forkCopy np ∨ u.ctx p = .forkReady np →
      s.ctx p = .forkCopy np ∨ s.ctx p = .forkReady np) :
    Fits s a (m >>= fun t => .ok (f t, e)) := by
  obtain ⟨t, rfl, hd, rfl⟩ := hm
  have heq : (f t).world = u := by rw [hu, hw]
  refine h.of_step (by rwa [hf]) (by rwa [hf]) ?_ (heq ▸ hs)
  intro p np hp
  apply hctx
  rwa [← heq]

theorem unchanged (h : Good s) {t : Ptable} (ha : a.Quiet) (hd : t.Disciplined)
    (ht : t.toCore = s.tbl.toCore) : Fits s a (.ok ({ s with tbl := t }, none)) := by
  refine h.of_step hd ?_ id (.quiet ha (congrArg Core.world ht) rfl rfl rfl)
  rw [ht]
  exact .of_prio fun _ => rfl

omit [DecidableEq Cpu] in
theorem embryo (h : Good s) {np : Slot} (hk : (s.ctx p).child = some np) :
    (s.tbl.proc np).state = .embryo :=
  h.inv.child_embryo hk

section Locked

variable (h : Good s) (hc : s.cpu c = some p) (hl : s.lock = none)

include h hc hl

theorem exit (hk : s.ctx p = .run) (hi : s.tbl.initproc ≠ some p) :
    Fits s (.exit c) (s.exit c p) := by
  have hst := h.state_running hc
  refine h.ends (.exit hc hl hk hi) (h.lists.exit s.ticks hst hi) ?_
    (Core.keepsEmbryo_exit s.ticks hst) (fun _ => rfl) (fun _ => rfl) (ctx_update (by simp))
  dsimp only [Sys.leave, Sys.setCtx]
  exact Core.world_exit s.ticks

theorem exit_or_panic (hk : s.ctx p = .run) :
    Fits s (.exit c) (s.exit c p) ∨ s.exit c p = .error (.panic "init exiting") := by
  by_cases hi : s.tbl.initproc = some p
  · refine Or.inr ?_
    unfold Sys.exit Ptable.exit
    rw [if_pos hi]
    rfl
  · exact Or.inl (h.exit hc hl hk hi)

/-! ## `fork` -/

theorem fork (hk : s.ctx p = .run) (hr : s.Locked c p .run (.fork c) r) : Fits s (.fork c) r := by
  cases hr
  obtain ⟨r, t, heq, hd, ht⟩ := h.lists.allocproc
  rw [heq]
  cases r with
  | none => exact h.unchanged trivial hd ht
  | some np =>
    obtain ⟨hst, ht⟩ := ht
    have hs := WStep.fork (s := s.world) hc hl hk hst
    rw [show s.world.tbl.alloc np = t.toCore.world by rw [ht, Core.world_allocproc]; rfl] at hs
    refine h.of_step hd ?_ (ctx_update (by simp)) hs
    change s.tbl.toCore.KeepsEmbryo t.toCore
    rw [ht]
    exact Core.keepsEmbryo_allocproc

end Locked

theorem kalloc (h : Good s) {np : Slot} {kstack : Nat} (hc : s.cpu c = some p)
    (hl : s.lock ≠ some c) (hk : s.ctx p = .forkAlloc np)
    (hr : s.Unlocked c p (.forkAlloc np) (.kalloc c (some kstack)) r) :
    Fits s (.kalloc c (some kstack)) r := by
  cases hr
  have hchild : (s.ctx p).child = some np := by rw [hk]; rfl
  have hemb : (s.tbl.proc np).state = .embryo := h.inv.child_embryo hchild
  have hs : WStep s.world (.kalloc c (some kstack)) none _ := WStep.kalloc hc hl hk
  have hw : (s.tbl.allocprocInit np kstack s.ticks).toCore.world = s.tbl.toCore.world :=
    Core.world_allocprocInit kstack s.ticks
  have hs' : WStep s.world (.kalloc c (some kstack)) none
      (Sys.world (({ s with tbl := s.tbl.allocprocInit np kstack s.ticks }.setCtx np .run).setCtx p
        (.forkCopy np))) := by
    unfold Sys.world Sys.setCtx at hs ⊢
    dsimp only at hs ⊢
    rwa [hw]
  refine ⟨_, _, rfl, ⟨h.lists.allocprocInit kstack s.ticks hemb, fun {x y} hx => ?_,
    h.inv.step hs'⟩, hs'⟩
  -- the slot of another fork is another slot
  by_cases hy : y = np
  · subst hy
    exact Core.allocprocInit_prio kstack s.ticks
  · refine (congrArg Proc.prio (Core.allocprocInit_of_ne kstack s.ticks hy)).trans ?_
    refine h.prio (p := x) ?_
    change update (update s.ctx np .run) p (.forkCopy np) x = _ ∨
      update (update s.ctx np .run) p (.forkCopy np) x = _ at hx
    by_cases hxp : x = p
    · subst hxp
      rw [update_self] at hx
      rcases hx with hx | hx
      · cases hx
        exact absurd rfl hy
      · cases hx
    · rw [update_of_ne hxp] at hx
      exact ctx_update (by simp) hx

theorem copyuvm (h : Good s) {np : Slot} {pgdir : Nat} (hc : s.cpu c = some p)
    (hl : s.lock ≠ some c) (hk : s.ctx p = .forkCopy np)
    (hr : s.Unlocked c p (.forkCopy np) (.copyuvm c (some pgdir)) r) :
    Fits s (.copyuvm c (some pgdir)) r := by
  cases hr
  have hs : WStep s.world (.copyuvm c (some pgdir)) none _ := WStep.copyuvm hc hl hk
  rw [show s.world.tbl.modify np (fun x => { x with parent := some p }) =
    (s.tbl.forkCopy p np pgdir).toCore.world from (Core.world_forkCopy np pgdir).symm] at hs
  refine h.of_step (h.lists.forkCopy np pgdir) (Core.keepsEmbryo_forkCopy np pgdir) ?_ hs
  intro x y hx
  change update s.ctx p (.forkReady np) x = _ ∨
    update s.ctx p (.forkReady np) x = _ at hx
  by_cases hxp : x = p
  · subst hxp
    rw [update_self] at hx
    rcases hx with hx | hx
    · cases hx
    · cases hx
      exact Or.inl hk
  · rwa [update_of_ne hxp] at hx

/-! ## `wait` and the return from the scheduler -/

theorem waitTurn {t : Ptable} (hd : t.Disciplined) (hst : (t.proc p).state = .running) :
    ∃ s' e, Sys.waitTurn { s with tbl := t } c p = .ok (s', e) ∧ s'.tbl.Disciplined ∧
      t.toCore.KeepsEmbryo s'.tbl.toCore ∧
      (∀ {x np}, s'.ctx x = .forkCopy np ∨ s'.ctx x = .forkReady np →
        s.ctx x = .forkCopy np ∨ s.ctx x = .forkReady np) ∧
      WaitTurn (Sys.world { s with tbl := t }) c p e s'.world := by
  obtain ⟨r, t', heq, hd', hr⟩ := hd.wait s.ticks hst
  unfold Sys.waitTurn
  dsimp only
  rw [heq]
  cases r with
  | reaped z pid =>
    obtain ⟨hz, hpar, rfl, ht⟩ := hr
    refine ⟨_, _, rfl, hd', ?_, ctx_update (by simp), ?_⟩
    · change t.toCore.KeepsEmbryo t'.toCore
      rw [ht]
      exact Core.keepsEmbryo_reap
    · have hs := WaitTurn.reaped (s := Sys.world { s with tbl := t }) (c := c) hz hpar
      rwa [show (Sys.world { s with tbl := t }).tbl.reap z = t'.toCore.world by
        rw [ht, Core.world_reap]; rfl] at hs
  | failed =>
    obtain ⟨hz, ht, hf⟩ := hr
    refine ⟨_, _, rfl, hd', ?_, ctx_update (by simp), ?_⟩
    · change t.toCore.KeepsEmbryo t'.toCore
      rw [ht]
      exact .of_prio fun _ => rfl
    · have hs := WaitTurn.failed (s := Sys.world { s with tbl := t }) (c := c) hz hf
      unfold Sys.world Sys.setCtx at hs ⊢
      dsimp only at hs ⊢
      rwa [ht]
  | sleeps =>
    obtain ⟨hz, hk, hx, ht⟩ := hr
    refine ⟨_, _, rfl, hd', ?_, ctx_update (by simp), ?_⟩
    · change t.toCore.KeepsEmbryo t'.toCore
      rw [ht]
      exact Core.keepsEmbryo_sleep _ _ hst
    · have hs := WaitTurn.sleeps (s := Sys.world { s with tbl := t }) (c := c) hz hk hx
      rwa [show (Sys.world { s with tbl := t }).tbl.sleep p (.proc p) = t'.toCore.world by
        rw [ht, Core.world_sleep]; rfl] at hs

theorem wait (h : Good s) (hc : s.cpu c = some p) (hl : s.lock = none) (hk : s.ctx p = .run) :
    Fits s (.wait c) (s.waitTurn c p) := by
  obtain ⟨s', e, heq, hd, hkeep, hctx, hw⟩ :=
    waitTurn (s := s) (c := c) h.lists (h.state_running hc)
  rw [show s.waitTurn c p = .ok (s', e) from heq]
  exact h.of_step hd hkeep hctx (.wait hc hl hk hw)

omit [DecidableEq Cpu] in
theorem clearChan (h : Good s) :
    (s.tbl.modify p fun x => { x with chan := none }).Disciplined ∧
      (s.tbl.modify p fun x => { x with chan := none }).toCore.world = s.world.tbl.clearChan p ∧
      s.tbl.toCore.KeepsEmbryo (s.tbl.modify p fun x => { x with chan := none }).toCore := by
  refine ⟨h.lists.modify rfl rfl, Core.world_clearChan, ?_⟩
  rw [Ptable.modify_toCore]
  exact Core.keepsEmbryo_modify rfl

theorem resume (h : Good s) (hc : s.cpu c = some p) (hl : s.lock = some c) :
    Fits s (.resume c) (s.resume c p) := by
  have hst := h.state_running hc
  obtain ⟨hd, hw, hkeep⟩ := h.clearChan (p := p)
  have hplain : (s.ctx p).plain → Fits s (.resume c) (.ok ({ s with lock := none }, none)) := by
    intro hk
    exact h.of_step h.lists (.of_prio fun _ => rfl) id (.resume hc hl hk)
  unfold Sys.resume
  cases hk : s.ctx p with
  | sleep =>
    have hs := WStep.resumeSleep (s := s.world) hc hl hk
    rw [← hw] at hs
    exact h.of_step hd hkeep (ctx_update (by simp)) hs
  | asleep site =>
    have hs := WStep.resumeAsleep (s := s.world) hc hl hk
    rw [← hw] at hs
    exact h.of_step hd hkeep (ctx_update (by simp)) hs
  | wait =>
    have hstate : ∀ x, (((s.tbl.modify p fun x => { x with chan := none }).proc x).state) =
        (s.tbl.proc x).state := by
      intro x
      by_cases hx : x = p
      · subst hx
        simp
      · simp [Core.modify_of_ne _ _ _ hx]
    obtain ⟨s', e, heq, hd', hkeep', hctx, ht⟩ := waitTurn (s := s) (c := c) (p := p) hd
      ((hstate p).trans hst)
    dsimp only
    rw [heq]
    refine h.of_step hd' (hkeep.trans hstate hkeep') hctx (.resumeWait hc hl hk ?_)
    rwa [← hw]
  | exited => exact absurd (Or.inr (Or.inr hst)) (h.inv.dead hk)
  | _ => exact hplain (by simp [hk, Ctx.plain])

/-! ## Marks and priorities -/

theorem kill (h : Good s) {pid : Word} (hc : s.cpu c = some p) (hl : s.lock = none)
    (hk : s.ctx p = .run)
    (hr : s.Locked c p .run (.kill c pid) r) :
    Fits s (.kill c pid) r := by
  cases hr
  obtain ⟨r, t, heq, hd, ht⟩ := h.lists.kill pid
  rw [heq]
  cases r with
  | none => exact h.unchanged trivial hd ht.1
  | some q =>
    obtain ⟨hpid, hu, hz, ht⟩ := ht
    have hs := WStep.kill (s := s.world) hc hl hk hpid hu hz
    rw [show s.world.tbl.modify q Life.kill = t.toCore.world by rw [ht, Core.world_kill]; rfl]
      at hs
    refine h.of_step hd ?_ id hs
    rw [ht]
    exact Core.keepsEmbryo_kill

theorem setpriority (h : Good s) {pid : Word} {priority : Int}
    (hr : s.Locked c p .run (.setpriority c pid priority) r) :
    Fits s (.setpriority c pid priority) r := by
  cases hr
  obtain ⟨r, t, heq, hd, ht⟩ := h.lists.setpriority pid priority
  rw [heq]
  rcases ht with ht | ⟨q, hst, ht⟩
  · exact h.unchanged trivial hd ht
  · have hw : t.toCore.world = s.tbl.toCore.world := by
      rw [ht]
      exact Core.world_modify_self rfl
    refine h.of_step hd ?_ id (.quiet trivial hw rfl rfl rfl)
    rw [ht]
    exact .of_ne hst fun x hx => Core.modify_of_ne _ _ _ hx

theorem test (h : Good s) {site : Site} (hc : s.cpu c = some p) (hl : s.lock ≠ some c)
    (hk : s.ctx p = .loop site) :
    Fits s (.test c) (.ok (s.setCtx p (s.testCtx site (s.tbl.proc p).killed), none)) := by
  have hreturn : Fits s (.test c) (.ok (s.setCtx p .run, none)) :=
    h.of_step h.lists (.of_prio fun _ => rfl) (ctx_update (by simp)) (.testReturn hc hl hk)
  unfold Sys.testCtx
  split
  · split
    · exact hreturn
    · next hno =>
      rw [Bool.or_eq_true, not_or] at hno
      have hkilled : (s.tbl.proc p).killed = false := by simpa using hno.2
      cases site with
      | pipewrite i =>
        exact h.of_step h.lists (.of_prio fun _ => rfl) (ctx_update (by simp [Sys.toSleep]))
          (.testWaking hc hl hk hkilled)
      | _ =>
        exact h.of_step h.lists (.of_prio fun _ => rfl) (ctx_update (by simp [Sys.toSleep]))
          (.test hc hl hk hkilled)
  · exact hreturn

theorem locked (h : Good s) {k : Ctx} (hc : s.cpu c = some p) (hl : s.lock = none)
    (hk : s.ctx p = k) (hr : s.Locked c p k a r) :
    Fits s a r ∨ r = .error (.panic "init exiting") := by
  have hst := h.state_running hc
  cases hr with
  | yield hi =>
    exact Or.inl (h.ends (.yield hc hl (hk ▸ hi)) (h.lists.yield s.ticks hst) (Core.world_yield _)
      (Core.keepsEmbryo_yield s.ticks hst) (fun _ => rfl) (fun _ => rfl) id)
  | @sleep chan hn =>
    exact Or.inl (h.ends (.sleep hc hl hk hn) (h.lists.sleep chan s.ticks hst)
      (Core.world_sleep _ _) (Core.keepsEmbryo_sleep chan s.ticks hst) (fun _ => rfl)
      (fun _ => rfl) (ctx_update (by simp)))
  | @block site =>
    exact Or.inl (h.ends (.block hc hl hk) (h.lists.sleep site.chan s.ticks hst)
      (Core.world_sleep _ _) (Core.keepsEmbryo_sleep site.chan s.ticks hst) (fun _ => rfl)
      (fun _ => rfl) (ctx_update (by simp)))
  | @wakeReaders i =>
    exact Or.inl (h.ends (.wakeReaders hc hl hk) (h.lists.wakeup1 (some (.nread i)))
      (Core.world_wakeup1 _) (.of_prio fun x => by simp [Core.wakeup1]) (fun _ => rfl)
      (fun _ => rfl) (ctx_update (by simp)))
  | kallocFail =>
    have hemb := h.embryo (congrArg Ctx.child hk)
    exact Or.inl (h.ends (.kallocFail hc hl hk) (h.lists.allocprocFail hemb) (Core.world_free rfl)
      (Core.keepsEmbryo_free rfl) (fun _ => rfl) (fun _ => rfl) (ctx_update (by simp)))
  | copyuvmFail =>
    have hemb := h.embryo (congrArg Ctx.child hk)
    exact Or.inl (h.ends (.copyuvmFail hc hl hk) (h.lists.forkFail hemb) (Core.world_free rfl)
      (Core.keepsEmbryo_free rfl) (fun _ => rfl) (fun _ => rfl) (ctx_update (by simp)))
  | @forkEnd np =>
    have hemb := h.embryo (congrArg Ctx.child hk)
    exact Or.inl (h.ends (.forkEnd hc hl hk) (h.lists.forkReady hemb (h.prio (Or.inr hk)))
      (Core.world_modify (p := np) (g := fun x => { x with state := .runnable }) rfl)
      (Core.keepsEmbryo_modify rfl) (fun _ => rfl) (fun _ => rfl) (ctx_update (by simp)))
  | fork => exact Or.inl (h.fork hc hl hk .fork)
  | exit => exact h.exit_or_panic hc hl hk
  | wait => exact Or.inl (h.wait hc hl hk)
  | kill => exact Or.inl (h.kill hc hl hk .kill)
  | setpriority => exact Or.inl (h.setpriority (p := p) .setpriority)

theorem unlocked (h : Good s) {k : Ctx} (hc : s.cpu c = some p) (hl : s.lock ≠ some c)
    (hk : s.ctx p = k) (hr : s.Unlocked c p k a r) : Fits s a r := by
  cases hr with
  | kalloc => exact h.kalloc hc hl hk .kalloc
  | copyuvm => exact h.copyuvm hc hl hk .copyuvm
  | trap =>
    have hw : (s.tbl.toCore.modify p fun x => { x with killed := true }).world =
        s.tbl.toCore.world.modify p fun x => { x with killed := true } := Core.world_modify rfl
    have hs := WStep.trap (s := s.world) hc hl hk
    rw [show s.world.tbl.modify p (fun x => { x with killed := true }) = _ from hw.symm] at hs
    refine h.of_step (h.lists.modify rfl rfl) ?_ id hs
    rw [Ptable.modify_toCore]
    exact Core.keepsEmbryo_modify rfl
  | image =>
    refine h.of_step (h.lists.modify rfl rfl) ?_ id (.quiet trivial ?_ rfl rfl rfl)
    · rw [Ptable.modify_toCore]
      exact Core.keepsEmbryo_modify rfl
    · change (s.tbl.modify p _).toCore.world = s.tbl.toCore.world
      rw [Ptable.modify_toCore]
      exact Core.world_modify_self rfl
  | enter =>
    exact h.of_step h.lists (.of_prio fun _ => rfl) (ctx_update (by simp)) (.enter hc hl hk)
  | test => exact h.test hc hl hk

end Good

/-- Every step keeps the invariant and is one of the world; only an exiting init stops
the machine. -/
theorem Good.step {s : Sys Cpu Ptable} (h : Good s) {a : Act Cpu}
    {r : Except Fault (Sys.Outcome Cpu)} (hr : s.step a = some r) :
    Fits s a r ∨ r = .error (.panic "init exiting") := by
  cases Sys.step_takes hr with
  | sched hl hc => exact Or.inl (h.scheduler hl hc)
  | resume hc hl => exact Or.inl (h.resume hc hl)
  | @wakeup chan hl =>
    exact Or.inl (h.ends (.wakeup hl) (h.lists.wakeup1 (some chan)) (Core.world_wakeup1 _)
      (.of_prio fun x => by simp [Core.wakeup1]) (fun _ => rfl) (fun _ => rfl) id)
  | locked hc hl hk hr => exact h.locked hc hl hk hr
  | unlocked hc hl hk hr => exact Or.inl (h.unlocked hc hl hk hr)
  | tick | pipe | console =>
    exact Or.inl (h.of_step h.lists (.of_prio fun _ => rfl) id (.quiet trivial rfl rfl rfl rfl))

end Xv6
