import Xv6.Proc.Reachable

/-!
# Who has been killed

`wait` clears `killed` when it frees a slot. The failure paths of `allocproc` and `fork` do not,
and `kill` also finds embryos: if it hits one whose `fork` then fails, the next process in the
slot is born killed.
-/

namespace Xv6

open Trace (events)

variable {Cpu : Type} [DecidableEq Cpu]
variable {s s' : Sys Cpu World} {a : Act Cpu} {e : Option Event} {c : Cpu} {p x : Slot}

def Event.allocs (p : Slot) : Event → Bool
  | .alloc q _ => q = p
  | _ => false

/-- What has been told since the slot `p` was last allocated, latest first. -/
def lifetime (p : Slot) (evs : List Event) : List Event :=
  evs.reverse.takeWhile fun e => !e.allocs p

theorem mem_lifetime_snoc {evs : List Event} {e ev : Event} (he : e.allocs p = false)
    (hev : ev ∈ lifetime p evs) : ev ∈ lifetime p (evs ++ [e]) := by
  unfold lifetime at hev ⊢
  rw [List.reverse_append, List.reverse_singleton, List.singleton_append,
    List.takeWhile_cons_of_pos (by rw [he]; rfl)]
  exact List.mem_cons_of_mem _ hev

theorem self_mem_lifetime {evs : List Event} {e : Event} (he : e.allocs p = false) :
    e ∈ lifetime p (evs ++ [e]) := by
  unfold lifetime
  rw [List.reverse_append, List.reverse_singleton, List.singleton_append,
    List.takeWhile_cons_of_pos (by rw [he]; rfl)]
  exact List.mem_cons_self

/-- `kill` with the pid of the process, or `trap`, has marked it. -/
def Marks (p : Slot) (pid : Word) (e : Event) : Prop := e = .killed p pid ∨ e = .trapped p

instance (p : Slot) (pid : Word) (e : Event) : Decidable (Marks p pid e) :=
  inferInstanceAs (Decidable (_ ∨ _))

/-- A `fork` that fails gives back a slot that has not been marked. -/
def Sys.FailsUnmarked (s : Sys Cpu Ptable) : Act Cpu → Prop
  | .kalloc c none | .copyuvm c none => ∀ p ∈ s.cpu c, ∀ np ∈ (s.ctx p).child,
      (s.tbl.proc np).killed = false
  | _ => True

instance (s : Sys Cpu Ptable) (a : Act Cpu) : Decidable (s.FailsUnmarked a) := by
  unfold Sys.FailsUnmarked
  split <;> infer_instance

theorem WStep.unused (h : WInv s) (hs : WStep s a e s')
    (hfail : ∀ c p np, a = .kalloc c none ∨ a = .copyuvm c none → s.cpu c = some p →
      (s.ctx p).child = some np → (s.tbl.life np).killed = false)
    (hx : (s'.tbl.life x).state = .unused) :
    (s'.tbl.life x).killed = false ∨
    ((s.tbl.life x).state = .unused ∧ (s'.tbl.life x).killed = (s.tbl.life x).killed) := by
  obtain ⟨hrun, -, -, -, -, -, -, -, -⟩ := h
  cases hs with
  | quiet ha ht hc hx' hl =>
    rw [ht] at hx ⊢
    exact Or.inr ⟨hx, rfl⟩
  | wait hc hl hk hw | resumeWait hc hl hk hw =>
    cases hw <;> dsimp only [Sys.setCtx, Sys.leave] at hx ⊢ <;> grind
  | _ =>
    dsimp only [Sys.setCtx, Sys.leave] at hx ⊢
    grind

/-- A process that is marked was marked before, has been marked by this step, or is new in
a slot that was. -/
theorem WStep.killed (hs : WStep s a e s') (hx : (s'.tbl.life x).state ≠ .unused)
    (hk : (s'.tbl.life x).killed = true) :
    (∃ ev, e = some ev ∧ Marks x (s'.tbl.life x).pid ev) ∨
    ((s.tbl.life x).killed = true ∧ (s.tbl.life x).state = .unused) ∨
    ((s.tbl.life x).killed = true ∧ (s.tbl.life x).state ≠ .unused ∧
      (s'.tbl.life x).pid = (s.tbl.life x).pid ∧ ∀ ev ∈ e, ev.allocs x = false) := by
  cases hs with
  | quiet ha ht hc hx' hl =>
    rw [ht] at hx hk ⊢
    exact Or.inr (Or.inr ⟨hk, hx, rfl, nofun⟩)
  | wait hc hl hk' hw | resumeWait hc hl hk' hw =>
    cases hw <;> dsimp only [Sys.setCtx, Sys.leave] at hx hk ⊢ <;> grind [Event.allocs]
  | _ =>
    dsimp only [Sys.setCtx, Sys.leave] at hx hk ⊢
    grind [Event.allocs, Marks]

/-- Every marked process was marked in its own lifetime, and no free slot is marked. -/
structure Accounted (evs : List Event) (s : Sys Cpu World) : Prop where
  marked : ∀ {x}, (s.tbl.life x).state ≠ .unused → (s.tbl.life x).killed = true →
    ∃ ev ∈ lifetime x evs, Marks x (s.tbl.life x).pid ev
  free : ∀ {x}, (s.tbl.life x).state = .unused → (s.tbl.life x).killed = false

theorem Marks.not_allocs {pid : Word} {ev : Event} (h : Marks x pid ev) : ev.allocs x = false := by
  rcases h with rfl | rfl <;> rfl

theorem Accounted.step {evs : List Event} (hacc : Accounted evs s) (h : WInv s)
    (hs : WStep s a e s')
    (hfail : ∀ c p np, a = .kalloc c none ∨ a = .copyuvm c none → s.cpu c = some p →
      (s.ctx p).child = some np → (s.tbl.life np).killed = false) :
    Accounted (evs ++ e.toList) s' := by
  refine ⟨fun {x} hx hk => ?_, fun {x} hx => ?_⟩
  · rcases hs.killed hx hk with ⟨ev, rfl, hev⟩ | ⟨hk', hu⟩ | ⟨hk', hu, hpid, he⟩
    · exact ⟨ev, self_mem_lifetime hev.not_allocs, hev⟩
    · rw [hacc.free hu] at hk'
      cases hk'
    · obtain ⟨ev, hmem, hev⟩ := hacc.marked hu hk'
      rw [← hpid] at hev
      refine ⟨ev, ?_, hev⟩
      cases e with
      | none => simpa using hmem
      | some ev' => exact mem_lifetime_snoc (he ev' rfl) hmem
  · rcases hs.unused h hfail hx with hk | ⟨hu, hk⟩
    · exact hk
    · exact hk.trans (hacc.free hu)

/-- If no `fork` fails with a marked embryo, every marked process was marked in its own
lifetime, by `trap` or by a `kill` with its pid, and no free slot is marked. -/
theorem kill_reaches_its_target {tr : List (Act Cpu × Option Event)} {s : Sys Cpu Ptable}
    (h : Trace.Run Sys.Init (Trace.Only Sys.FailsUnmarked (Trace.Next Sys.next)) tr s) :
    (∀ p, (s.tbl.proc p).state ≠ .unused → (s.tbl.proc p).killed = true →
      ∃ ev ∈ lifetime p (events tr), Marks p (s.tbl.proc p).pid ev) ∧
    ∀ p, (s.tbl.proc p).state = .unused → (s.tbl.proc p).killed = false := by
  have hall : Good s ∧ Accounted (events tr) s.world := by
    refine Trace.Run.history (I := fun tr s => Good s ∧ Accounted (events tr) s.world) ?_ ?_ h
    · intro s hs
      obtain ⟨hg, hw⟩ := hs.good
      have hk : ∀ x, (s.world.tbl.life x).killed = false := by
        intro x
        by_cases h0 : x = 0
        · rw [h0, hw.first]
        · rw [hw.free x h0]
      refine ⟨hg, ⟨fun {x} _ hx => ?_, fun _ => hk _⟩⟩
      rw [hk x] at hx
      cases hx
    · rintro tr s l s' ⟨hg, hacc⟩ ⟨hs, hc⟩
      obtain ⟨hw, hg'⟩ := hg.next hs
      rw [Trace.events_snoc]
      refine ⟨hg', hacc.step hg.inv hw fun c p np ha hcpu hch => ?_⟩
      rcases ha with ha | ha <;> rw [ha] at hc <;> exact hc p hcpu np hch
  exact ⟨fun p hp hk => hall.2.marked hp hk, fun p hp => hall.2.free hp⟩

theorem kill_reaches_its_target_child :
    ∃ (tr : _) (s : Sys Bool Ptable),
      Trace.Run Sys.Init (Trace.Only Sys.FailsUnmarked (Trace.Next Sys.next)) tr s ∧
      (s.tbl.proc 1).state = .runnable ∧ (s.tbl.proc 1).killed = true ∧
      (∃ ev ∈ lifetime 1 (events tr), Marks 1 (s.tbl.proc 1).pid ev) ∧
      ∀ p, (s.tbl.proc p).state = .unused → (s.tbl.proc p).killed = false := by
  obtain ⟨tr, s, hrun, hst, hk⟩ := Trace.exec_reaches_only (f := Sys.next) Sys.start_init
    Sys.FailsUnmarked
    ([.sched false, .resume false] ++ forkOn false ++ [.kill false 2, .kill false 1, .fork false,
      .kalloc false none])
    (fun _ s => (s.tbl.proc 1).state = .runnable ∧ (s.tbl.proc 1).killed = true)
    (by decide +kernel)
  have hall := kill_reaches_its_target hrun
  exact ⟨tr, s, hrun, hst, hk, hall.1 1 (by rw [hst]; exact nofun) hk, hall.2⟩

/-- The child of init kills an embryo of init by its pid, and then `kalloc` fails: the
slot is free and marked, and the process that gets it next is killed without a `kill` or
a `trap`. -/
theorem kill_outlives_its_target :
    (∃ (tr : _) (s : Sys Bool Ptable), Sys.Run tr s ∧ (s.tbl.proc 2).state = .unused ∧
      (s.tbl.proc 2).killed = true) ∧
    ∃ (tr : _) (s : Sys Bool Ptable), Sys.Run tr s ∧ (s.tbl.proc 2).state = .runnable ∧
      (s.tbl.proc 2).killed = true ∧
      ∀ ev ∈ lifetime 2 (events tr), ¬ Marks 2 (s.tbl.proc 2).pid ev := by
  refine ⟨?_, ?_⟩
  · obtain ⟨tr, s, hrun, hP⟩ := Trace.exec_reaches (f := Sys.next) Sys.start_init
      ([.sched false, .resume false] ++ forkOn false ++ [.sched true, .resume true, .fork false,
        .kill true 3, .kalloc false none])
      (fun _ s => (s.tbl.proc 2).state = .unused ∧ (s.tbl.proc 2).killed = true)
      (by decide +kernel)
    exact ⟨tr, s, hrun, hP⟩
  · obtain ⟨tr, s, hrun, hP⟩ := Trace.exec_reaches (f := Sys.next) Sys.start_init
      ([.sched false, .resume false] ++ forkOn false ++ [.sched true, .resume true, .fork false,
        .kill true 3, .kalloc false none] ++ forkOn false)
      (fun tr s => (s.tbl.proc 2).state = .runnable ∧ (s.tbl.proc 2).killed = true ∧
        ∀ ev ∈ lifetime 2 (events tr), ¬ Marks 2 (s.tbl.proc 2).pid ev)
      (by decide +kernel)
    exact ⟨tr, s, hrun, hP⟩

end Xv6
