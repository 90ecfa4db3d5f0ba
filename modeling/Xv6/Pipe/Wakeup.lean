import Xv6.Lib.CondVar
import Xv6.Pipe.Ends

/-!
# Sleeping on a pipe

Who puts bytes in, takes some out or closes an end owes a `wakeup`, and pays it before it
releases the lock, but for one path: a writer that finds the pipe full and itself killed
returns at once, whatever it has stored (`State.abandons`). On all other runs nobody sleeps on a
pipe that can make progress.
-/

namespace Xv6

namespace Pipes

open CondVar (Place)

/-! ## Places -/

def away (w : Option Chan) : Place Chan :=
  { inside := false, falling := false, waits := w, owes := fun _ => false }

def within (w d : Option Chan) : Place Chan :=
  { inside := true, falling := false, waits := w, owes := fun c => decide (d = some c) }

/-- With `ptable.lock`. -/
def falls (c : Chan) : Place Chan :=
  { inside := false, falling := true, waits := some c, owes := fun _ => false }

theorem away_outside (w : Option Chan) : (away w).Outside := ⟨rfl, rfl, fun _ => rfl⟩

def WriteAt.place : WriteAt → Place Chan
  | .acquire _ => away (some .nwrite)
  | .loop _ stored => within none (if stored then some .nread else none)
  | .full _ => within (some .nwrite) (some .nread)
  | .sleep _ => within (some .nwrite) none
  | .falling _ => falls .nwrite
  | .last => within none (some .nread)
  | .done => within none none

def ReadAt.place : ReadAt → Place Chan
  | .acquire => away (some .nread)
  | .test => within none none
  | .sleep => within (some .nread) none
  | .falling => falls .nread
  | .copy _ => within none (some .nwrite)
  | .last _ => within none (some .nwrite)
  | .done _ => within none none

def CloseAt.place (e : End) : CloseAt → Place Chan
  | .acquire => away none
  | .shut => within none none
  | .wakeup => within none (some e.waiters)
  | .test => within none none
  | .free => away none

def Pc.place : Pc → Place Chan
  | .out => away none
  | .write _ _ k => k.place
  | .read _ k => k.place
  | .close e k => k.place e

theorem Pc.role_of_waits {k : Pc} (h : k.place.waits = some .nread) : k.role = .user .reader := by
  cases k with
  | out => cases h
  | write src n k | close e k => cases k <;> cases h
  | read n k => rfl

theorem Pc.inside_of_closed {k : Pc} {e : End} (h : k.role = .closed e) :
    k.place.inside = true := by
  cases k with
  | out | write src n k | read n k => cases h
  | close e k =>
    cases k with
    | acquire | shut | free => cases h
    | wakeup | test => rfl

theorem Pc.waits_of_not_user {k : Pc} (h : ∀ e, k.role ≠ .user e) : k.place.waits = none := by
  cases k with
  | out => rfl
  | write src n k => exact absurd rfl (h .writer)
  | read n k => exact absurd rfl (h .reader)
  | close e k => cases k <;> rfl

def Buffer.blocked (b : Buffer) : Chan → Prop
  | .nread => b.empty = true ∧ b.writeopen = true
  | .nwrite => b.full = true ∧ b.readopen = true

variable {T : Type}

namespace State

def view (s : State T) : CondVar.View T Chan where
  lock := s.lock
  table := s.ptable
  place := fun t => (s.proc t).pc.place
  asleep := fun t => (s.proc t).asleep
  blocked := s.pipe.blocked

variable [DecidableEq T] {s s' : State T} {t : T} {k k' : Pc} {c : Chan} {w d d' : Option Chan}
  {o : Option (Event T)}

/-! ## The rules for the steps -/

omit [DecidableEq T] in
theorem moves {q : Place Chan} (hself : (s'.proc t).pc.place = q)
    (hothers : ∀ u, u ≠ t → (s'.proc u).pc = (s.proc u).pc) :
    CondVar.Moves s.view s'.view t q where
  self := hself
  others := fun u hu => congrArg Pc.place (hothers u hu)

theorem goto_moves {q : Place Chan} (s₁ : State T) (hpc : ∀ u, (s₁.proc u).pc = (s.proc u).pc)
    (hk : k.place = q) : CondVar.Moves s.view (s₁.goto t k).view t q := by
  refine moves ?_ fun u hu => ?_
  · simp [goto, set, hk]
  · simp [goto, set, hu, hpc u]

theorem goto_asleep (s : State T) (t : T) (k : Pc) : (s.goto t k).view.asleep = s.view.asleep := by
  funext u
  by_cases hu : u = t
  · subst hu
    simp [view, goto, set]
  · simp [view, goto, set, hu]

omit [DecidableEq T] in
theorem wake_asleep (s : State T) (c : Chan) (u : T) :
    (s.wake c).view.asleep u = s.view.asleep u ∧ s.view.asleep u ≠ some c ∨
      (s.wake c).view.asleep u = none := by
  by_cases hu : (s.proc u).asleep = some c
  · exact Or.inr (by simp [view, wake, hu])
  · exact Or.inl ⟨by simp [view, wake, hu], hu⟩

section Rules

variable (h : CondVar.Inv s.view) (hpc : (s.proc t).pc = k)

include h hpc

theorem acquire_view (hk : k.place.Outside) (hk' : k'.place = within none none)
    (ht : (s.proc t).asleep = none) (hs : s.acquire t k' = some (s', o)) :
    CondVar.Inv s'.view := by
  obtain ⟨hfree, heq⟩ := of_acquire hs
  cases heq
  subst hpc
  have hm := goto_moves (s := s) (t := t) { s with lock := some t } (fun _ => rfl) hk'
  exact h.enter hm hfree rfl rfl (goto_asleep _ t k') rfl hk ht rfl rfl rfl

theorem work_view {b : Buffer} (hk : k.place = within none d) (hk' : k'.place = within w d')
    (hkeep : ∀ c, s.pipe.blocked c ∨ d = some c → b.blocked c ∨ d' = some c)
    (hw : ∀ c, w = some c → b.blocked c) :
    CondVar.Inv ({ s with pipe := b }.goto t k').view := by
  have hplace : s.view.place t = within none d := (congrArg Pc.place hpc).trans hk
  have hm := goto_moves (s := s) (t := t) { s with pipe := b } (fun _ => rfl) hk'
  refine h.work hm rfl rfl (goto_asleep _ t k') ?_ ?_ rfl rfl (fun c hc => ?_) hw
  · rw [hplace]
    rfl
  · rw [hplace]
    rfl
  · rw [hplace] at hc
    exact (hkeep c (hc.imp_right of_decide_eq_true)).imp_right decide_eq_true

theorem wakeup_view (hk : k.place = within w (some c)) (hk' : k'.place = within w none)
    (hw : w ≠ some c) (hs : s.wakeup t c k' = some (s', o)) : CondVar.Inv s'.view := by
  obtain ⟨hfree, heq⟩ := of_wakeup hs
  cases heq
  have hplace : s.view.place t = within w (some c) := (congrArg Pc.place hpc).trans hk
  have hm := goto_moves (s := s) (t := t) _ (wake_pc s c) hk'
  have hasleep := goto_asleep (s.wake c) t k'
  refine h.signal (c := c) hm hfree rfl rfl (fun u => ?_) rfl ?_ rfl rfl (fun c' hne hc => ?_)
    (fun c' hc => ?_) hw
  · rw [hasleep]
    exact wake_asleep s c u
  · rw [hplace]
    rfl
  · rw [hplace] at hc
    exact absurd (Option.some.inj (of_decide_eq_true hc)).symm hne
  · rwa [hplace]

theorem sleep_view (hk : k.place = within (some c) none) (hk' : k'.place = falls c)
    (hs : s.sleep t k' = some (s', o)) : CondVar.Inv s'.view := by
  obtain ⟨hfree, heq⟩ := of_sleep hs
  cases heq
  have hplace : s.view.place t = within (some c) none := (congrArg Pc.place hpc).trans hk
  have hm := goto_moves (s := s) (t := t) { s with lock := none, ptable := some t }
    (fun _ => rfl) hk'
  refine h.wait hm hfree rfl rfl (goto_asleep _ t k') rfl ?_ ?_ rfl rfl (fun _ => rfl) ?_
  · rw [hplace]
    rfl
  · rw [hplace]
    exact fun _ => rfl
  · rw [hplace]
    rfl

theorem fall_view (hk : k.place = falls c) (hk' : k'.place = away (some c))
    (hs : s.fall t c k' = some (s', o)) : CondVar.Inv s'.view := by
  have hplace : s.view.place t = falls c := (congrArg Pc.place hpc).trans hk
  have hm : CondVar.Moves s.view s'.view t (away (some c)) := by
    cases hs
    refine moves ?_ fun u hu => ?_
    · simp [set, hk']
    · simp [set, hu]
  cases hs
  refine h.fall hm rfl rfl ?_ (fun u hu => ?_) rfl ?_ ?_ (away_outside _) ?_
  · rw [hplace]
    simp [view, set, falls]
  · simp [view, set, hu]
  · rw [hplace]
    rfl
  · rw [hplace]
    rfl
  · rw [hplace]
    rfl

theorem leave_view (hk : k.place = within none d) (hk' : k'.place = away none)
    (hdebt : ∀ c, d = some c → ∀ u, ¬ s.view.Waiting u c) :
    CondVar.Inv ({ s with lock := none }.goto t k').view := by
  have hplace : s.view.place t = within none d := (congrArg Pc.place hpc).trans hk
  have hm := goto_moves (s := s) (t := t) { s with lock := none } (fun _ => rfl) hk'
  refine h.leave hm rfl rfl (goto_asleep _ t k') rfl ?_ ?_ (away_outside _) fun c hc u _ => ?_
  · rw [hplace]
    rfl
  · rw [hplace]
    rfl
  · rw [hplace] at hc
    exact hdebt c (of_decide_eq_true hc) u

theorem outside_view (hk : k.place.Outside) (hk' : k'.place.Outside)
    (ht : (s.proc t).asleep = none) : CondVar.Inv (s.goto t k').view := by
  subst hpc
  have hasleep := goto_asleep s t k'
  refine h.outside (goto_moves _ (fun _ => rfl) rfl) rfl rfl ?_ (fun u hu => ?_) rfl hk hk'
  · rwa [hasleep]
  · rw [hasleep]

end Rules

/-! ## The steps -/

omit [DecidableEq T] in
/-- The process is in `pipewrite`, has stored something since it took the lock, and finds the
pipe full and itself killed. -/
def abandons (s : State T) (t : T) : Bool :=
  match (s.proc t).pc with
  | .write _ n (.loop i true) =>
    decide (i < n) && s.pipe.full && s.pipe.readopen && (s.proc t).killed
  | _ => false

omit [DecidableEq T] in
/-- No process leaves bytes behind without a `wakeup`. -/
def Calm (s : State T) : Action T → Prop
  | .run t => s.abandons t = false
  | _ => True

instance (s : State T) : ∀ a, Decidable (s.Calm a)
  | .run t => inferInstanceAs (Decidable (s.abandons t = false))
  | .write _ _ _ | .read _ _ | .close _ _ | .dup _ _ | .fork _ _ | .kill _ =>
    inferInstanceAs (Decidable True)

section Steps

variable (h : CondVar.Inv s.view)

include h

theorem pipewrite_view {src : Nat → Byte} {n : Int} {k : WriteAt}
    (hpc : (s.proc t).pc = .write src n k) (ht : (s.proc t).asleep = none)
    (hheld : s.ends.Held) (hcalm : s.abandons t = false)
    (hs : s.pipewrite t src n k = some (s', o)) : CondVar.Inv s'.view := by
  cases k with
  | acquire i => exact acquire_view h hpc (away_outside _) rfl ht hs
  | loop i stored =>
    dsimp only [pipewrite] at hs
    split at hs
    · next hi =>
      split at hs
      · next hfull =>
        split at hs
        · next hgone =>
          cases hs
          refine leave_view h hpc rfl rfl fun c hc u hw => ?_
          cases stored with
          | false => cases hc
          | true =>
            -- without a reader nobody waits for the bytes, and the other case is excluded
            obtain rfl : .nread = c := Option.some.inj hc
            have hreader : s.ends.role u = .user .reader := Pc.role_of_waits hw.1
            have hopen : s.pipe.readopen = true := hheld.open_of_user hreader
            rcases hgone with hclosed | hkilled
            · exact Bool.noConfusion (hopen.symm.trans hclosed)
            · simp [abandons, hpc, hi, hfull, hopen, hkilled] at hcalm
        · next hstay =>
          cases hs
          have hopen : s.pipe.readopen = true := by
            by_contra hne
            exact hstay (Or.inl (Bool.eq_false_iff.mpr hne))
          refine work_view (b := s.pipe) h hpc rfl rfl (fun c hc => ?_) fun c hc => ?_
          · cases c with
            | nread => exact Or.inr rfl
            | nwrite => exact Or.inl ⟨hfull, hopen⟩
          · obtain rfl : .nwrite = c := Option.some.inj hc
            exact ⟨hfull, hopen⟩
      · next hroom =>
        cases hs
        refine work_view h hpc rfl rfl (fun c hc => ?_) nofun
        cases c with
        | nread => exact Or.inr rfl
        | nwrite =>
          rcases hc with ⟨hfull, -⟩ | hd
          · exact absurd hfull hroom
          · cases stored <;> cases hd
    · cases hs
      refine work_view (b := s.pipe) h hpc rfl rfl (fun c hc => ?_) nofun
      cases c with
      | nread => exact Or.inr rfl
      | nwrite =>
        refine hc.imp_right fun hd => ?_
        cases stored <;> cases hd
  | full _ | last => exact wakeup_view h hpc rfl rfl nofun hs
  | sleep i => exact sleep_view h hpc rfl rfl hs
  | falling i => exact fall_view h hpc rfl rfl hs
  | done =>
    cases hs
    exact leave_view h hpc rfl rfl nofun

theorem piperead_view {n : Int} {k : ReadAt} (hpc : (s.proc t).pc = .read n k)
    (ht : (s.proc t).asleep = none) (hs : s.piperead t n k = some (s', o)) :
    CondVar.Inv s'.view := by
  cases k with
  | acquire => exact acquire_view h hpc (away_outside _) rfl ht hs
  | test =>
    dsimp only [piperead] at hs
    split at hs
    · next hempty =>
      split at hs
      · cases hs
        exact leave_view h hpc rfl rfl nofun
      · cases hs
        refine work_view (b := s.pipe) h hpc rfl rfl (fun c hc => Or.inl ?_) fun c hc => ?_
        · exact hc.resolve_right nofun
        · obtain rfl : .nread = c := Option.some.inj hc
          exact hempty
    · cases hs
      refine work_view (b := s.pipe) h hpc rfl rfl (fun c hc => Or.inl ?_) nofun
      exact hc.resolve_right nofun
  | sleep => exact sleep_view h hpc rfl rfl hs
  | falling => exact fall_view h hpc rfl rfl hs
  | copy i =>
    dsimp only [piperead] at hs
    split at hs
    · next hsome =>
      cases hs
      refine work_view h hpc rfl rfl (fun c hc => ?_) nofun
      cases c with
      | nread =>
        rcases hc with ⟨hempty, -⟩ | hd
        · exact Bool.noConfusion (hempty.symm.trans hsome.2)
        · cases hd
      | nwrite => exact Or.inr rfl
    · cases hs
      exact work_view (b := s.pipe) h hpc rfl rfl (fun c hc => hc) nofun
  | last i => exact wakeup_view h hpc rfl rfl nofun hs
  | done i =>
    cases hs
    exact leave_view h hpc rfl rfl nofun

theorem pipeclose_view {e : End} {k : CloseAt} (hpc : (s.proc t).pc = .close e k)
    (ht : (s.proc t).asleep = none) (hs : s.pipeclose t e k = some (s', o)) :
    CondVar.Inv s'.view := by
  cases k with
  | acquire => exact acquire_view h hpc (away_outside _) rfl ht hs
  | shut =>
    cases hs
    refine work_view h hpc rfl rfl (fun c hc => ?_) nofun
    have hc := hc.resolve_right nofun
    -- the other condition is about the other flag
    cases e with
    | reader =>
      cases c with
      | nread => exact Or.inl hc
      | nwrite => exact Or.inr rfl
    | writer =>
      cases c with
      | nread => exact Or.inr rfl
      | nwrite => exact Or.inl hc
  | wakeup => exact wakeup_view h hpc rfl rfl nofun hs
  | test =>
    dsimp only [pipeclose] at hs
    split at hs
    · cases hs
      exact leave_view h hpc rfl rfl nofun
    · cases hs
      exact leave_view h hpc rfl rfl nofun
  | free =>
    cases hs
    exact outside_view h hpc (away_outside _) (away_outside _) ht

theorem set_view {p : Proc} (hp : p.pc = (s.proc t).pc)
    (hasleep : p.asleep = (s.proc t).asleep ∨ p.asleep = none) :
    CondVar.Inv (s.set t p).view := by
  refine h.rouse rfl rfl ?_ rfl fun u c hu => ?_
  · funext u
    by_cases hut : u = t
    · subst hut
      simp [view, set, hp]
    · simp [view, set, hut]
  · by_cases hut : u = t
    · subst hut
      have hc : p.asleep = some c := by simpa [view, set] using hu
      rcases hasleep with heq | heq
      · exact heq.symm.trans hc
      · rw [heq] at hc
        cases hc
    · simpa [view, set, hut] using hu

omit [DecidableEq T] in
theorem awake_of_out (ht : (s.proc t).pc.isOut = true) : (s.proc t).asleep = none := by
  by_contra hne
  obtain ⟨c, hc⟩ := Option.ne_none_iff_exists'.mp hne
  have hwaits := (h.asleep t c hc).1
  rw [show s.view.place t = away none from congrArg Pc.place (Pc.eq_out ht)] at hwaits
  cases hwaits

variable [Fintype T]

theorem close_view {e : End} (hhas : s.Has t e) : CondVar.Inv (s.close t e).view := by
  have hset : CondVar.Inv (s.set t { s.proc t with
      fds := Function.update (s.proc t).fds e ((s.proc t).fds e - 1) }).view :=
    set_view h rfl (Or.inl rfl)
  unfold close
  dsimp only
  split
  · refine outside_view (k := .out) hset ?_ (away_outside _) (away_outside _) ?_
    · simp [set, Pc.eq_out hhas.1]
    · simp [set, awake_of_out h hhas.1]
  · exact hset

theorem next_view {a : Action T} (hheld : s.ends.Held) (hcalm : s.Calm a)
    (hs : s.next a = some (s', o)) : CondVar.Inv s'.view := by
  cases a with
  | write t src n | read t n =>
    dsimp only [next] at hs
    split at hs
    · next hhas =>
      cases hs
      exact outside_view h (Pc.eq_out hhas.1) (away_outside _) (away_outside _)
        (awake_of_out h hhas.1)
    · cases hs
  | close t e =>
    dsimp only [next] at hs
    split at hs
    · next hhas =>
      cases hs
      exact close_view h hhas
    · cases hs
  | dup t e =>
    dsimp only [next] at hs
    split at hs
    · cases hs
      exact set_view h rfl (Or.inl rfl)
    · cases hs
  | fork t u =>
    dsimp only [next] at hs
    split at hs
    · next hfork =>
      cases hs
      exact set_view h (Pc.eq_out hfork.2.1).symm (Or.inr rfl)
    · cases hs
  | kill t =>
    cases hs
    exact set_view h rfl (Or.inr rfl)
  | run t =>
    dsimp only [next] at hs
    split at hs
    · next ht =>
      unfold run at hs
      split at hs
      · cases hs
      · next src n k hpc => exact pipewrite_view h hpc ht hheld hcalm hs
      · next n k hpc => exact piperead_view h hpc ht hs
      · next e k hpc => exact pipeclose_view h hpc ht hs
    · cases hs

end Steps

omit [DecidableEq T] in
theorem alone_of_shut (h : CondVar.Inv s.view) (t : T) (e : End)
    (ht : (s.proc t).pc = .close e .shut) (u : T) (x : End) : (s.proc u).pc.role ≠ .closed x := by
  intro hu
  have hin : (s.view.place t).inside = true := by
    rw [show s.view.place t = within none none from congrArg Pc.place ht]
    rfl
  have heq : u = t := h.lock.unique hin (Pc.inside_of_closed hu)
  rw [heq, ht] at hu
  cases hu

omit [DecidableEq T] in
theorem Init.view (h : s.Init) : CondVar.Inv s.view := by
  have hplace : ∀ t, s.view.place t = away none := fun t => congrArg Pc.place (h.pc t)
  refine ⟨fun t => ?_, fun t => ?_, fun t c ht => ?_, fun t c hc => ?_, fun t c hw => ?_⟩
  · dsimp only
    rw [hplace, show s.view.lock = none from h.lock]
    exact iff_of_false nofun nofun
  · dsimp only
    rw [hplace, show s.view.table = none from h.ptable]
    exact iff_of_false nofun nofun
  · cases (h.asleep t).symm.trans ht
  · rw [hplace] at hc
    cases hc
  · have := hw.1
    rw [hplace] at this
    cases this

end State

/-! ## Runs -/

section Runs

variable [DecidableEq T] [Fintype T] {tr : List (Action T × Option (Event T))} {s : State T}

theorem run_calm (h : Trace.Run State.Init (Trace.Only State.Calm (Trace.Next State.next)) tr s) :
    s.ends.Inv (endEvents (Trace.events tr)) ∧ CondVar.Inv s.view := by
  refine Trace.Run.history
    (I := fun tr s => s.ends.Inv (endEvents (Trace.events tr)) ∧ CondVar.Inv s.view) ?_ ?_ h
  · exact fun s hs => ⟨hs.ends, hs.view⟩
  · rintro tr s l s' ⟨hends, hview⟩ ⟨hstep, hcalm⟩
    rw [Trace.events_snoc, endEvents_append]
    exact ⟨State.next_ends hstep hends (State.alone_of_shut hview),
      State.next_view hview hends.toHeld hcalm hstep⟩

/-- In a run without killed writers that leave bytes behind, nobody sleeps on a pipe that can
make progress while the lock is free. The flags are cleared one after the other, and the
page is freed once, by the process that cleared the second one; from then on nobody sleeps
and nobody else is in one of the functions. -/
theorem nobody_stuck_on_pipe
    (h : Trace.Run State.Init (Trace.Only State.Calm (Trace.Next State.next)) tr s) :
    (s.lock = none → ∀ t,
      ((s.proc t).asleep = some .nread →
        s.pipe.nread = s.pipe.nwrite ∧ s.pipe.writeopen = true) ∧
      ((s.proc t).asleep = some .nwrite →
        s.pipe.nwrite = s.pipe.nread + PIPESIZE ∧ s.pipe.readopen = true)) ∧
    Fate (fun t => (s.proc t).pc.role) s.pipe.isOpen (endEvents (Trace.events tr)) ∧
    ((∀ e, s.pipe.isOpen e = false) → ∀ t, (s.proc t).asleep = none) := by
  obtain ⟨hends, hview⟩ := run_calm h
  refine ⟨fun hlock t => ⟨fun ht => ?_, fun ht => ?_⟩, hends.fate, fun hshut t => ?_⟩
  · obtain ⟨hempty, hopen⟩ : s.pipe.blocked .nread := hview.blocked_of_asleep (t := t) hlock ht
    exact ⟨of_decide_eq_true hempty, hopen⟩
  · obtain ⟨hfull, hopen⟩ : s.pipe.blocked .nwrite := hview.blocked_of_asleep (t := t) hlock ht
    exact ⟨of_decide_eq_true hfull, hopen⟩
  · by_contra hne
    obtain ⟨c, hc⟩ := Option.ne_none_iff_exists'.mp hne
    have hwaits := (hview.asleep t c hc).1
    have hnone : (s.proc t).pc.place.waits = none :=
      Pc.waits_of_not_user fun e => hends.toHeld.not_user (hshut e)
    rw [show (s.view.place t).waits = none from hnone] at hwaits
    cases hwaits

theorem reader_sleeps_on_empty_pipe : ∃ tr s,
    Trace.Run State.Init (Trace.Only State.Calm (Trace.Next (State.next (T := Fin 2)))) tr s ∧
      s.lock = none ∧ (s.proc 1).asleep = some .nread ∧ s.pipe.nread = s.pipe.nwrite ∧
      s.pipe.writeopen = true := by
  obtain ⟨tr, s, hrun, hlock, ht⟩ := Trace.exec_reaches_only (f := State.next) (start_init 0)
    State.Calm ([.read 1 1] ++ List.replicate 4 (.run 1))
    (fun _ s => s.lock = none ∧ (s.proc 1).asleep = some .nread) (by decide +kernel)
  obtain ⟨hempty, hopen⟩ := ((nobody_stuck_on_pipe hrun).1 hlock 1).1 ht
  exact ⟨tr, s, hrun, hlock, ht, hempty, hopen⟩

/-- A reader sleeps, and a writer that was killed stores as much as the pipe takes, finds it
full, and returns. The reader sleeps on. -/
theorem reader_sleeps_on_full_pipe : ∃ tr s,
    Trace.Run State.Init (Trace.Next (State.next (T := Fin 2))) tr s ∧
      s.lock = none ∧ (s.proc 1).asleep = some .nread ∧ s.pipe.nread ≠ s.pipe.nwrite := by
  obtain ⟨tr, s, hrun, hasleep⟩ := Trace.exec_reaches (f := State.next) (start_init 0)
    ([.read 1 1] ++ List.replicate 4 (.run 1) ++ [.write 0 (fun _ => 0) 513, .kill 0] ++
      List.replicate 514 (.run 0))
    (fun _ s => s.lock = none ∧ (s.proc 1).asleep = some .nread ∧
      s.pipe.nread ≠ s.pipe.nwrite) (by decide +kernel)
  exact ⟨tr, s, hrun, hasleep⟩

end Runs

end Pipes

end Xv6
