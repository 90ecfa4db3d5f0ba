import Xv6.Proc.Reachable

/-!
# The order of dispatch

`scheduler` takes the first process of the first ready list that has one. A process never
overtakes another one on its way there: processes are put at the end of a ready list, the
promotion moves a whole list behind another one, and what is taken out of the middle is
taken out by `setpriority`.
-/

open Function (update update_comm update_eq_self update_idem update_of_ne update_self)

namespace Xv6

open Ptable (lowerPrio)

namespace Queues

/-! ## Ready lists that only grow -/

def Grows (q q' : Queues) : Prop := ∀ i, q.list (.ready i) <+: q'.list (.ready i)

def Before (q : Queues) (a b : Slot) : Prop := ∃ i, [a, b].Sublist (q.list (.ready i))

section Grows

variable {q q' q'' : Queues} {l : Queue} {p : Slot}

theorem Grows.refl (q : Queues) : q.Grows q := fun _ => List.prefix_rfl

theorem Grows.trans (h : q.Grows q') (h' : q'.Grows q'') : q.Grows q'' :=
  fun i => (h i).trans (h' i)

theorem Grows.before {a b : Slot} (h : q.Grows q') (hb : q.Before a b) : q'.Before a b := by
  obtain ⟨i, hi⟩ := hb
  exact ⟨i, hi.trans (h i).sublist⟩

theorem grows_of_list (h : q'.list = q.list) : q.Grows q' := by
  intro i
  rw [h]

theorem grows_modify (q : Queues) (p : Slot) (f : Proc → Proc) : q.Grows (q.modify p f) :=
  grows_of_list rfl

theorem grows_sched (q : Queues) (p : Slot) (ticks : Word) : q.Grows (q.sched p ticks) :=
  grows_of_list rfl

theorem grows_addhead (q : Queues) (p : Slot) (hl : ∀ i, Queue.ready i ≠ l) :
    q.Grows (q.addhead l p) := by
  intro i
  unfold addhead
  dsimp only
  rw [update_of_ne (hl i)]

theorem grows_unlink (q : Queues) (p : Slot) (hl : ∀ i, Queue.ready i ≠ l) :
    q.Grows (q.unlink l p) := by
  intro i
  unfold unlink
  dsimp only
  rw [update_of_ne (hl i)]

theorem grows_addtail (q : Queues) (l : Queue) (p : Slot) : q.Grows (q.addtail l p) := by
  intro i
  unfold addtail
  dsimp only
  by_cases hl : Queue.ready i = l
  · subst hl
    rw [update_self]
    exact List.prefix_append _ _
  · rw [update_of_ne hl]

theorem grows_addready (q : Queues) (p : Slot) : q.Grows (q.addready p) := by
  unfold addready
  split
  · exact grows_addtail q _ p
  · exact .refl q

theorem grows_foldl {ι : Type} {g : Queues → ι → Queues}
    (hg : ∀ (q : Queues) (i : ι), q.Grows (g q i)) (ls : List ι) (q : Queues) :
    q.Grows (ls.foldl g q) := by
  induction ls generalizing q with
  | nil => exact .refl q
  | cons i ls ih => exact (hg q i).trans (ih (g q i))

theorem grows_move {d : Queue} (q : Queues) (p : Slot) (f : Proc → Proc)
    (hl : ∀ i, Queue.ready i ≠ l) (hd : ∀ i, Queue.ready i ≠ d) :
    q.Grows (((q.unlink l p).modify p f).addhead d p) :=
  ((grows_unlink q p hl).trans (grows_modify _ p f)).trans (grows_addhead _ p hd)

end Grows

section Ops

variable (q : Queues) (p : Slot)

theorem grows_allocproc : q.Grows q.allocproc.2 := by
  unfold allocproc
  split
  · exact .refl q
  · next x xs _ =>
    have hmove := grows_move (l := .free) (d := .embryo) q x
      (fun y => { y with state := .embryo }) (fun _ => nofun) fun _ => nofun
    exact hmove.trans (grows_of_list rfl)

theorem grows_freeEmbryo : q.Grows (q.freeEmbryo p) :=
  grows_move (l := .embryo) (d := .free) q p _ (fun _ => nofun) fun _ => nofun

theorem grows_forkReady : q.Grows (q.forkReady p) :=
  ((grows_unlink (l := .embryo) q p fun _ => nofun).trans (grows_modify _ p _)).trans
    (grows_addtail _ _ p)

theorem grows_yield (ticks : Word) : q.Grows (q.yield p ticks) :=
  ((grows_unlink (l := .running) q p fun _ => nofun).trans (grows_modify _ p _)).trans
    ((grows_addready _ p).trans (grows_sched _ p ticks))

theorem grows_sleep (chan : Chan) (ticks : Word) : q.Grows (q.sleep p chan ticks) :=
  (grows_modify q p _).trans
    ((grows_move (l := .running) (d := .sleep) _ p _ (fun _ => nofun) fun _ => nofun).trans
      (grows_sched _ p ticks))

theorem grows_wake : q.Grows (q.wake p) :=
  ((grows_unlink (l := .sleep) q p fun _ => nofun).trans (grows_modify _ p _)).trans
    (grows_addready _ p)

theorem grows_wakeup1 (chan : Option Chan) : q.Grows (q.wakeup1 chan) := by
  refine grows_foldl (g := fun q current => wakeupBody chan current q) (fun q current => ?_) _ q
  unfold wakeupBody
  split
  · exact grows_wake q current
  · exact .refl q

theorem grows_reparent (l : Queue) (wake : Bool) : q.Grows (q.reparent p l wake) := by
  refine grows_foldl (g := fun q' x => reparentBody p q.initproc wake x q') (fun q' x => ?_) _ q
  unfold reparentBody
  split
  · split
    · exact (grows_modify q' x _).trans (grows_wakeup1 _ _)
    · exact grows_modify q' x _
  · exact .refl q'

theorem grows_passChildren : q.Grows (q.passChildren p) := by
  refine (grows_foldl (g := fun q i => q.reparent p (.ready i) false)
    (fun q i => grows_reparent q p _ _) (List.finRange (MAX + 1)) q).trans ?_
  refine (grows_reparent _ p .sleep false).trans ?_
  refine (grows_reparent _ p .zombie true).trans ?_
  exact (grows_reparent _ p .running false).trans (grows_reparent _ p .embryo false)

theorem grows_exit (ticks : Word) : q.Grows (q.exit p ticks) := by
  refine (grows_wakeup1 q ((q.proc p).parent.map .proc)).trans ?_
  refine (grows_passChildren _ p).trans ?_
  exact (grows_move (l := .running) (d := .zombie) _ p _ (fun _ => nofun) fun _ => nofun).trans
    (grows_sched _ p ticks)

theorem grows_reap : q.Grows (q.reap p) :=
  ((grows_modify q p _).trans
    (grows_move (l := .zombie) (d := .free) _ p _ (fun _ => nofun) fun _ => nofun)).trans
      (grows_modify _ p _)

theorem grows_wait (ticks : Word) : q.Grows (q.wait p ticks).2 := by
  unfold wait
  split
  · exact grows_reap q _
  · split
    · exact .refl q
    · exact grows_sleep q p _ ticks

theorem grows_kill (pid : Word) : q.Grows (q.kill pid).2 := by
  unfold kill
  dsimp only
  split
  · exact (grows_modify q _ _).trans (grows_wake _ _)
  · split
    · exact grows_modify q _ _
    · exact .refl q

end Ops

/-! ## Processes that leave a ready list -/

section Order

variable {q : Queues} {a b : Slot}

theorem Before.unlink (hb : q.Before a b) {x : Slot} (l : Queue) (ha : x ≠ a) (hxb : x ≠ b) :
    (q.unlink l x).Before a b := by
  obtain ⟨i, hi⟩ := hb
  refine ⟨i, ?_⟩
  unfold Queues.unlink
  dsimp only
  by_cases hl : Queue.ready i = l
  · subst hl
    rw [update_self]
    have herase : [a, b].erase x = [a, b] :=
      List.erase_of_not_mem (by simp [ha, hxb])
    exact herase ▸ hi.erase x
  · rwa [update_of_ne hl]

variable {i : Fin (MAX + 1)}

theorem Before.head_ne (hb : q.Before a b) (h : q.WF) {p : Slot}
    (hp : (q.list (.ready i)).head? = some p) : p ≠ b := by
  rintro rfl
  obtain ⟨j, hj⟩ := hb
  obtain ⟨ps, hps⟩ := List.head?_eq_some_iff.mp hp
  have hmem : p ∈ q.list (.ready j) := hj.subset (by simp)
  have hij : j = i := by
    have hji : some (Queue.ready j) = some (.ready i) := by
      rw [← h.mem_iff.mp hmem, ← h.mem_iff.mp (hps ▸ List.mem_cons_self)]
    exact Queue.ready.inj (Option.some.inj hji)
  subst hij
  have hnd := h.nodup (.ready j)
  rw [hps] at hj hnd
  -- the head comes once, so the pair would have to be in the rest
  obtain ⟨hnot, -⟩ := List.nodup_cons.mp hnd
  cases hj with
  | cons _ hrest | cons_cons _ hrest => exact hnot (hrest.subset (by simp))

/-! ## The promotion -/

theorem promoteBody_eq {i j : Fin (MAX + 1)} (hij : (i : Nat) = j + 1) {x : Slot}
    (hx : (q.proc x).prio = (i : Nat)) :
    promoteBody i x q = ((q.unlink (.ready i) x).modify x
      fun y => { y with prio := y.prio - 1 }).addtail (.ready j) x := by
  have hready : readyQueue ((q.proc x).prio - 1) = some (.ready j) := by
    refine readyQueue_eq_some.mpr ⟨j, rfl, ?_⟩
    rw [hx, hij]
    omega
  unfold promoteBody addready
  simp only [modify_toCore, unlink_toCore, Core.modify_self, hready]

theorem foldl_promoteBody_list {i j : Fin (MAX + 1)} (hij : (i : Nat) = j + 1) (l : List Slot)
    (hnd : l.Nodup) (q : Queues) (hl : ∀ x ∈ l, (q.proc x).prio = (i : Nat))
    (hi : q.list (.ready i) = l) :
    (l.foldl (fun q x => promoteBody i x q) q).list =
      update (update q.list (.ready i) []) (.ready j)
        (q.list (.ready j) ++ l) := by
  have hji : Queue.ready j ≠ .ready i := fun h => by
    cases h
    omega
  induction l generalizing q with
  | nil =>
    rw [List.append_nil, List.foldl_nil, ← hi, update_eq_self, update_eq_self]
  | cons x l ih =>
    obtain ⟨hxl, hnd⟩ := List.nodup_cons.mp hnd
    have hbody := promoteBody_eq hij (hl x List.mem_cons_self)
    have hlist : (promoteBody i x q).list = update (update q.list (.ready i) l)
        (.ready j) (q.list (.ready j) ++ [x]) := by
      rw [hbody]
      unfold addtail unlink
      simp only [modify_list]
      rw [hi, List.erase_cons_head, update_of_ne hji]
    rw [List.foldl_cons, ih hnd (promoteBody i x q)]
    · rw [hlist, update_self, update_comm hji.symm, update_idem,
        update_comm hji, update_idem, List.append_assoc]
      rfl
    · intro y hy
      have hyx : y ≠ x := fun h => hxl (h ▸ hy)
      rw [hbody]
      simp only [addtail_toCore, modify_toCore, unlink_toCore, Core.modify_of_ne _ _ _ hyx]
      exact hl y (List.mem_cons_of_mem _ hy)
    · rw [hlist, update_of_ne hji.symm, update_self]

theorem WF.promoteReady_list (h : q.WF) {i j : Fin (MAX + 1)} (hij : (i : Nat) = j + 1) :
    (q.promoteReady i).list =
      update (update q.list (.ready i) []) (.ready j)
        (q.list (.ready j) ++ q.list (.ready i)) :=
  foldl_promoteBody_list hij _ (h.nodup _) q
    (fun _ hx => (Proc.home_ready.mp (h.mem_iff.mp hx)).2) rfl

theorem Before.promoteReady (hb : q.Before a b) (h : q.WF) (hi : 0 < i) :
    (q.promoteReady i).Before a b := by
  have hpos : 0 < (i : Nat) := hi
  have hij : (i : Nat) = ((⟨i - 1, by omega⟩ : Fin (MAX + 1)) : Nat) + 1 := by
    dsimp only
    omega
  have hlist := h.promoteReady_list hij
  obtain ⟨k, hsub⟩ := hb
  by_cases hki : k = i
  · subst hki
    refine ⟨⟨k - 1, by omega⟩, ?_⟩
    rw [hlist, update_self]
    exact hsub.trans (List.sublist_append_right _ _)
  · refine ⟨k, hsub.trans ?_⟩
    rw [hlist]
    by_cases hkj : k = ⟨i - 1, by omega⟩
    · rw [hkj, update_self]
      exact List.sublist_append_left _ _
    · rw [update_of_ne (fun h => hkj (Queue.ready.inj h)),
        update_of_ne fun h => hki (Queue.ready.inj h)]

theorem Before.foldl_promoteReady (is : List (Fin (MAX + 1))) (hpos : ∀ i ∈ is, 0 < i)
    (hb : q.Before a b) (h : q.WF) : (is.foldl Queues.promoteReady q).Before a b := by
  induction is generalizing q with
  | nil => exact hb
  | cons i is ih =>
    have hi := hpos i List.mem_cons_self
    exact ih (fun j hj => hpos j (List.mem_cons_of_mem _ hj)) (hb.promoteReady h hi)
      (h.promoteReady hi)

theorem grows_promoteFields (q : Queues) (l : Queue) : q.Grows (q.promoteFields l) :=
  grows_foldl (g := fun q current => q.modify current lowerPrio)
    (fun q current => grows_modify q current _) _ q

theorem Before.promoteDue (hb : q.Before a b) (h : q.WF) (ticks : Word) :
    (q.promoteDue ticks).Before a b := by
  unfold Queues.promoteDue
  split
  · have h₁ := h.promoteFields (l := .sleep) fun _ => nofun
    have h₂ := h₁.promoteFields (l := .running) fun _ => nofun
    have hb₁ := (grows_promoteFields q .sleep).before hb
    have hb₂ := (grows_promoteFields _ .running).before hb₁
    have hb₃ := hb₂.foldl_promoteReady (List.finRange (MAX + 1)).tail (by decide) h₂
    have hlist : (q.promote ticks).list = ((List.finRange (MAX + 1)).tail.foldl Queues.promoteReady
        ((q.promoteFields .sleep).promoteFields .running)).list := by
      unfold promote
      rfl
    exact (grows_of_list hlist).before hb₃
  · exact hb

/-! ## The dispatch -/

theorem firstReady_first {p : Slot} (hf : q.firstReady = some (i, p))
    {j : Fin (MAX + 1)} (hj : j < i) : q.list (.ready j) = [] := by
  obtain ⟨l₁, k, l₂, hl, hk, hnone⟩ := List.findSome?_eq_some_iff.mp hf
  obtain ⟨p', -, heq⟩ := Option.map_eq_some_iff.mp hk
  obtain rfl : k = i := congrArg Prod.fst heq
  have hmem : j ∈ l₁ ++ k :: l₂ := hl ▸ List.mem_finRange j
  have hsorted : (l₁ ++ k :: l₂).Pairwise (· < ·) := hl ▸ List.pairwise_lt_finRange _
  have hj₁ : j ∈ l₁ := by
    rcases List.mem_append.mp hmem with h₁ | h₂
    · exact h₁
    · rcases List.mem_cons.mp h₂ with rfl | h₂
      · exact absurd hj (lt_irrefl _)
      · have hlt := (List.pairwise_cons.mp (List.pairwise_append.mp hsorted).2.1).1 j h₂
        exact absurd hj (lt_asymm hlt)
  have := hnone j hj₁
  rwa [Option.map_eq_none_iff, List.head?_eq_none_iff] at this

theorem firstReady_none (h : q.WF) (hf : q.firstReady = none) (p : Slot) :
    (q.proc p).state ≠ .runnable := by
  intro hst
  obtain ⟨l, hl⟩ := readyQueue_of_range (h.prioOk p (by simp [hst]) (by simp [hst]))
  obtain ⟨i, rfl, -⟩ := readyQueue_eq_some.mp hl
  have hmem : p ∈ q.list (.ready i) := h.mem_iff.mpr (by rw [Proc.home_runnable hst, hl])
  have hempty := List.findSome?_eq_none_iff.mp hf i (List.mem_finRange i)
  rw [Option.map_eq_none_iff, List.head?_eq_none_iff] at hempty
  rw [hempty] at hmem
  exact List.not_mem_nil hmem

/-- The process behind another one is not dispatched, and stays behind it unless the other
one is. -/
theorem Before.scheduler (hb : q.Before a b) (h : q.WF) (ticks : Word) :
    (q.scheduler ticks).1 ≠ some b ∧
      ((q.scheduler ticks).1 ≠ some a → (q.scheduler ticks).2.Before a b) := by
  have hb₁ := hb.promoteDue h ticks
  have hw := (h.promoteDue ticks).1
  unfold Queues.scheduler
  dsimp only
  cases hf : (q.promoteDue ticks).firstReady with
  | none => exact ⟨nofun, fun _ => hb₁⟩
  | some r =>
    obtain ⟨i, p⟩ := r
    have hpb := hb₁.head_ne hw (firstReady_some hf)
    refine ⟨fun heq => hpb (Option.some.inj heq), fun hne => ?_⟩
    have hpa : p ≠ a := fun heq => hne (congrArg some heq)
    have hun := hb₁.unlink (.ready i) hpa hpb
    have hgrow : ((q.promoteDue ticks).unlink (.ready i) p).Grows
        ((q.promoteDue ticks).dispatch i p ticks) :=
      (grows_modify _ p _).trans ((grows_addhead (l := .running) _ p fun _ => nofun).trans
        (grows_modify _ p _))
    exact hgrow.before hun

theorem Before.setpriority (hb : q.Before a b) (h : q.WF) (pid : Word) (priority : Int)
    (ha : ((q.setpriority pid priority).2.proc a).prio = (q.proc a).prio)
    (hbp : ((q.setpriority pid priority).2.proc b).prio = (q.proc b).prio) :
    (q.setpriority pid priority).2.Before a b := by
  rcases h.setpriority_cases pid priority with
    ⟨-, -, -, -, -, p, -, hcore, hlist⟩ | ⟨-, heq, -⟩
  · unfold Requeued at hlist
    split at hlist
    · next hrun =>
      obtain ⟨i, j, hi, hj, hlist⟩ := hlist
      have hij : i ≠ j := by
        rintro rfl
        exact hrun.2 (hi.trans hj.symm)
      -- the one that moves gets another priority
      have hne : ∀ x, ((q.setpriority pid priority).2.proc x).prio = (q.proc x).prio → p ≠ x := by
        rintro x hx rfl
        rw [hcore, Core.setpriority, Core.modify_self] at hx
        exact hrun.2 hx.symm
      have hgrow : (q.unlink (.ready i) p).Grows (q.requeue i p priority) :=
        (grows_modify _ p _).trans ((grows_addready _ p).trans (grows_modify _ p _))
      exact (hgrow.trans (grows_of_list (hlist.trans (requeue_list hj hij).symm))).before
        (hb.unlink (.ready i) (hne a ha) (hne b hbp))
    · exact (grows_of_list hlist).before hb
  · rw [heq]
    exact hb

end Order

end Queues

/-! ## The lists of the table -/

def Ptable.Before (t : Ptable) (a b : Slot) : Prop :=
  ∃ i ps, Intrusive.Chain t.next (t.pLists (.ready i)) ps ∧ [a, b].Sublist ps

def Ptable.KeepsOrder (t t' : Ptable) : Prop := ∀ a b, t.Before a b → t'.Before a b

theorem Rep.before_iff {t : Ptable} {q : Queues} (h : Rep t q) {a b : Slot} :
    t.Before a b ↔ q.Before a b := by
  constructor
  · rintro ⟨i, ps, hps, hsub⟩
    exact ⟨i, (h.chain (.ready i)).unique hps ▸ hsub⟩
  · rintro ⟨i, hsub⟩
    exact ⟨i, _, h.chain (.ready i), hsub⟩

namespace Ptable

section Keeps

variable {t t' : Ptable} {q q' : Queues}

theorem KeepsOrder.of_rep (h : Rep t q) (h' : Rep t' q') (hg : q.Grows q') : t.KeepsOrder t' :=
  fun _ _ hb => h'.before_iff.mpr (hg.before (h.before_iff.mp hb))

theorem KeepsOrder.of_simR {α : Type} (h : Rep t q) {m : Except Fault (α × Ptable)}
    {r : α × Queues} (hm : SimR m r) (hg : q.Grows r.2) {x : α} (heq : m = .ok (x, t')) :
    t.KeepsOrder t' := by
  obtain ⟨t₁, heq₁, h₁⟩ := hm
  rw [heq₁] at heq
  cases heq
  exact .of_rep h h₁ hg

theorem Disciplined.keepsOrder_modify (h : t.Disciplined) (p : Slot) (f : Proc → Proc) :
    t.KeepsOrder (t.modify p f) := by
  obtain ⟨q, hr, -⟩ := h
  exact .of_rep hr (hr.modify p f) (q.grows_modify p f)

theorem Disciplined.keepsOrder_wait (h : t.Disciplined) {p : Slot}
    (hst : (t.proc p).state = .running) {ticks : Word} {r : WaitResult}
    (heq : t.wait p ticks = .ok (r, t')) : t.KeepsOrder t' := by
  obtain ⟨q, hr, hq⟩ := h
  rw [hr.proc] at hst
  exact .of_simR hr (hr.wait hq p hst) (q.grows_wait p ticks) heq

end Keeps

end Ptable

/-! ## The steps of the machine -/

section Steps

variable {Cpu : Type} [DecidableEq Cpu] {s s' : Sys Cpu Ptable} {e : Option Event} {p : Slot}

theorem bind_eq_ok {α β : Type} {m : Except Fault α} {k : α → Except Fault β} {r : β}
    (h : m >>= k = .ok r) : ∃ a, m = .ok a ∧ k a = .ok r := by
  cases m with
  | error f => cases h
  | ok a => exact ⟨a, rfl, h⟩

variable {c : Cpu}

theorem Sys.waitTurn_order (hd : s.tbl.Disciplined)
    (hst : (s.tbl.proc p).state = .running) (hr : s.waitTurn c p = .ok (s', e)) :
    s.tbl.KeepsOrder s'.tbl := by
  obtain ⟨⟨r, t⟩, ht, hr⟩ := bind_eq_ok hr
  have hkeep := hd.keepsOrder_wait hst ht
  cases r with
  | _ =>
    cases hr
    exact hkeep

theorem Good.resume_order (h : Good s) (hc : s.cpu c = some p)
    (hr : s.resume c p = .ok (s', e)) : s.tbl.KeepsOrder s'.tbl := by
  have hkeep := h.lists.keepsOrder_modify p fun x => { x with chan := none }
  unfold Sys.resume at hr
  split at hr
  · cases hr
    exact hkeep
  · cases hr
    exact hkeep
  · have hst : ((s.tbl.modify p fun x => { x with chan := none }).proc p).state = .running := by
      simpa using h.state_running hc
    have hturn := Sys.waitTurn_order (h.clearChan (p := p)).1 hst hr
    exact fun a b hb => hturn a b (hkeep a b hb)
  · cases hr
  · cases hr
    exact fun _ _ hb => hb

omit [DecidableEq Cpu] in
theorem Sys.keepsOrder_of_sim {q q' : Queues} {m : Except Fault Ptable} (hrep : Rep s.tbl q)
    (hm : Sim m q') (hg : q.Grows q') {f : Ptable → Sys Cpu Ptable} {e' : Option Event}
    (hf : ∀ t, (f t).tbl = t) (hr : (m >>= fun t => .ok (f t, e')) = .ok (s', e)) :
    s.tbl.KeepsOrder s'.tbl := by
  obtain ⟨t, rfl, ht⟩ := hm
  cases hr
  rw [hf]
  exact .of_rep hrep ht hg

theorem Good.exit_order (h : Good s) (hc : s.cpu c = some p)
    (hr : s.exit c p = .ok (s', e)) : s.tbl.KeepsOrder s'.tbl := by
  obtain ⟨q, hrep, hq⟩ := h.lists
  have hst := h.state_running hc
  rw [hrep.proc] at hst
  unfold Sys.exit at hr
  by_cases hi : q.initproc = some p
  · unfold Ptable.exit at hr
    rw [if_pos ((congrArg Core.initproc hrep.core).trans hi)] at hr
    cases hr
  · exact Sys.keepsOrder_of_sim hrep (hrep.exit hq p hst hi) (q.grows_exit p s.ticks)
      (fun _ => rfl) hr

/-- The steps other than those of `scheduler` and `setpriority` only put processes at the end
of ready lists. -/
theorem Good.keepsOrder (h : Good s) {a : Act Cpu} (hr : s.step a = some (.ok (s', e)))
    (hsched : ∀ c, a ≠ .sched c) (hset : ∀ c pid priority, a ≠ .setpriority c pid priority) :
    s.tbl.KeepsOrder s'.tbl := by
  obtain ⟨q, hrep, hq⟩ := h.lists
  have hemb : ∀ {x np}, (s.ctx x).child = some np → (q.proc np).state = .embryo := by
    intro x np hx
    rw [← hrep.proc]
    exact h.inv.child_embryo hx
  generalize hok : Except.ok (s', e) = r at hr
  cases Sys.step_takes hr with
  | sched => exact absurd rfl (hsched _)
  | resume hc hl => exact h.resume_order hc hok.symm
  | wakeup hl =>
    exact Sys.keepsOrder_of_sim hrep (hrep.wakeup1 hq _) (q.grows_wakeup1 _) (fun _ => rfl) hok.symm
  | @locked c p _ _ _ hc hl hk hs =>
    have hst := h.state_running hc
    have hrun : (q.proc p).state = .running := by rwa [← hrep.proc]
    cases hs with
    | setpriority => exact absurd rfl (hset _ _ _)
    | yield hi =>
      exact Sys.keepsOrder_of_sim hrep (hrep.yield hq hrun) (q.grows_yield p s.ticks)
        (fun _ => rfl) hok.symm
    | sleep | block =>
      exact Sys.keepsOrder_of_sim hrep (hrep.sleep hq hrun) (q.grows_sleep p _ s.ticks)
        (fun _ => rfl) hok.symm
    | fork =>
      obtain ⟨⟨np, t⟩, ht, hr⟩ := bind_eq_ok hok.symm
      have hkeep := Ptable.KeepsOrder.of_simR hrep (hrep.allocproc hq) q.grows_allocproc ht
      cases np with
      | none | some _ =>
        cases hr
        exact hkeep
    | @kallocFail np =>
      exact Sys.keepsOrder_of_sim hrep (hrep.allocprocFail hq (hemb (by rw [hk]; rfl)))
        ((q.grows_modify np _).trans (Queues.grows_freeEmbryo _ np)) (fun _ => rfl) hok.symm
    | @copyuvmFail np =>
      exact Sys.keepsOrder_of_sim hrep (hrep.forkFail hq (hemb (by rw [hk]; rfl)))
        ((q.grows_modify np _).trans (Queues.grows_freeEmbryo _ np)) (fun _ => rfl) hok.symm
    | @forkEnd np =>
      exact Sys.keepsOrder_of_sim hrep (hrep.forkReady hq (hemb (by rw [hk]; rfl)))
        (q.grows_forkReady np) (fun _ => rfl) hok.symm
    | exit => exact h.exit_order hc hok.symm
    | wait => exact Sys.waitTurn_order h.lists hst hok.symm
    | @kill pid =>
      obtain ⟨⟨r, t⟩, ht, hr⟩ := bind_eq_ok hok.symm
      cases hr
      exact .of_simR hrep (hrep.kill hq pid) (q.grows_kill pid) ht
    | wakeReaders =>
      exact Sys.keepsOrder_of_sim hrep (hrep.wakeup1 hq _) (q.grows_wakeup1 _) (fun _ => rfl)
        hok.symm
  | unlocked hc hl hk hs =>
    cases hs with
    | kalloc | copyuvm | trap | image =>
      cases hok
      exact h.lists.keepsOrder_modify _ _
    | enter | test =>
      cases hok
      exact fun _ _ hb => hb
  | tick | pipe | console =>
    cases hok
    exact fun _ _ hb => hb

/-! ## The steps of the scheduler -/

theorem Sys.sched_eq (hr : s.step (.sched c) = some (.ok (s', e))) {q : Queues}
    (hrep : Rep s.tbl q) (hq : q.WF) :
    Rep s'.tbl (q.scheduler s.ticks).2 ∧ s'.cpu c = (q.scheduler s.ticks).1 ∧
      ∀ c', c' ≠ c → s'.cpu c' = s.cpu c' := by
  rw [Sys.step] at hr
  split at hr
  · next hidle =>
    obtain ⟨⟨r, t⟩, ht, hr⟩ := bind_eq_ok (Option.some.inj hr)
    obtain ⟨t', ht', hrep'⟩ := hrep.scheduler hq s.ticks
    rw [ht'] at ht
    cases ht
    cases hp : (q.scheduler s.ticks).1 with
    | none =>
      rw [hp] at hr
      cases hr
      exact ⟨hrep', hidle.2, fun _ _ => rfl⟩
    | some x =>
      rw [hp] at hr
      cases hr
      exact ⟨hrep', update_self .., fun c' hc' => update_of_ne hc' ..⟩
  · cases hr

/-- What a pass of `scheduler` on `c` finds when it looks for a process: the lists are those
after the promotion, and it takes the first process of the first list that has one. -/
def Sys.Picks (s s' : Sys Cpu Ptable) (c : Cpu) : Prop :=
  ∃ t, s.tbl.promoteDue s.ticks = .ok t ∧ (∀ c', c' ≠ c → s'.cpu c' = s.cpu c') ∧
    match s'.cpu c with
    | some p => ∃ i, t.pLists (.ready i) = some p ∧ (∀ j < i, t.pLists (.ready j) = none) ∧
        (s.tbl.proc p).state = .runnable ∧ (s'.tbl.proc p).state = .running ∧
        ∀ x, x ≠ p → (s'.tbl.proc x).state = (s.tbl.proc x).state
    | none => ∀ x, (s.tbl.proc x).state ≠ .runnable ∧
        (s'.tbl.proc x).state = (s.tbl.proc x).state

theorem Good.picks (h : Good s) (hr : s.step (.sched c) = some (.ok (s', e))) :
    s.Picks s' c := by
  obtain ⟨q, hrep, hq⟩ := h.lists
  obtain ⟨hrep', hcpu, hothers⟩ := Sys.sched_eq hr hrep hq
  obtain ⟨t, ht, hrept⟩ := hrep.promoteDue hq s.ticks
  obtain ⟨hw, hcore⟩ := hq.promoteDue s.ticks
  have hstate : ∀ x, ((q.promoteDue s.ticks).proc x).state = (s.tbl.proc x).state := by
    intro x
    rw [hcore, hrep.proc]
    exact congrArg (fun w : World => (w.life x).state) (Core.world_promoteDue s.ticks)
  refine ⟨t, ht, hothers, ?_⟩
  have hstate' := congrFun hrep'.proc
  unfold Queues.scheduler at hcpu hstate'
  dsimp only at hcpu hstate'
  cases hf : (q.promoteDue s.ticks).firstReady with
  | none =>
    rw [hf] at hcpu hstate'
    rw [hcpu]
    intro x
    exact ⟨hstate x ▸ Queues.firstReady_none hw hf x, by rw [hstate', hstate]⟩
  | some r =>
    obtain ⟨i, p⟩ := r
    rw [hf] at hcpu hstate'
    rw [hcpu]
    have hhead := Queues.firstReady_some hf
    have hmem : p ∈ (q.promoteDue s.ticks).list (.ready i) := List.mem_of_head? hhead
    have hst := (Proc.home_ready.mp (hw.mem_iff.mp hmem)).1
    have hdisp := (hw.dispatch hmem s.ticks).2
    refine ⟨i, (hrept.chain _).head_eq.trans hhead, fun j hj => ?_, ?_, ?_, fun x hx => ?_⟩
    · rw [(hrept.chain _).head_eq, Queues.firstReady_first hf hj]
      rfl
    · rw [← hstate, hst]
    · rw [hstate', hdisp]
      simp [Core.dispatch]
    · rw [hstate', hdisp, ← hstate x]
      simp [Core.dispatch, Core.modify_of_ne _ _ _ hx]

variable {a b : Slot}

theorem Good.sched_order (h : Good s) (hr : s.step (.sched c) = some (.ok (s', e)))
    (hb : s.tbl.Before a b) :
    s'.cpu c ≠ some b ∧ (s'.cpu c ≠ some a → s'.tbl.Before a b) := by
  obtain ⟨q, hrep, hq⟩ := h.lists
  obtain ⟨hrep', hcpu, -⟩ := Sys.sched_eq hr hrep hq
  rw [hcpu, hrep'.before_iff]
  exact (hrep.before_iff.mp hb).scheduler hq s.ticks

theorem Good.setpriority_order (h : Good s) {pid : Word} {priority : Int}
    (hr : s.step (.setpriority c pid priority) = some (.ok (s', e)))
    (hb : s.tbl.Before a b) (ha : (s'.tbl.proc a).prio = (s.tbl.proc a).prio)
    (hbp : (s'.tbl.proc b).prio = (s.tbl.proc b).prio) : s'.tbl.Before a b := by
  obtain ⟨q, hrep, hq⟩ := h.lists
  generalize hok : Except.ok (s', e) = r at hr
  cases Sys.step_takes hr with
  | unlocked _ _ _ hs => cases hs
  | locked _ _ _ hs =>
    cases hs
    obtain ⟨⟨r, t⟩, ht, hr⟩ := bind_eq_ok hok.symm
    cases hr
    obtain ⟨t', ht', hrep'⟩ := hrep.setpriority hq pid priority
    rw [ht'] at ht
    cases ht
    rw [hrep.proc, hrep'.proc] at ha hbp
    exact hrep'.before_iff.mpr ((hrep.before_iff.mp hb).setpriority hq pid priority ha hbp)

/-! ## Runs -/

/-- A step that does not dispatch `a`, and in which `setpriority` moves neither process. -/
def Sys.Undisturbed (a b : Slot) (s : Sys Cpu Ptable) (l : Act Cpu × Option Event)
    (s' : Sys Cpu Ptable) : Prop :=
  Trace.Next Sys.next s l s' ∧ (∀ c, l.1 = .sched c → s'.cpu c ≠ some a) ∧
    ∀ c pid priority, l.1 = .setpriority c pid priority →
      (s'.tbl.proc a).prio = (s.tbl.proc a).prio ∧ (s'.tbl.proc b).prio = (s.tbl.proc b).prio

theorem Good.undisturbed (h : Good s) {l : Act Cpu × Option Event}
    (hs : Sys.Undisturbed a b s l s') (hb : s.tbl.Before a b) : s'.tbl.Before a b := by
  obtain ⟨hnext, hsched, hset⟩ := hs
  obtain ⟨act, e⟩ := l
  have hr := Sys.next_eq_some hnext
  by_cases hc : ∃ c, act = .sched c
  · obtain ⟨c, rfl⟩ := hc
    exact (h.sched_order hr hb).2 (hsched c rfl)
  by_cases hp : ∃ c pid priority, act = .setpriority c pid priority
  · obtain ⟨c, pid, priority, rfl⟩ := hp
    obtain ⟨ha, hbp⟩ := hset c pid priority rfl
    exact h.setpriority_order hr hb ha hbp
  · exact h.keepsOrder hr (fun c heq => hc ⟨c, heq⟩)
      (fun c pid priority heq => hp ⟨c, pid, priority, heq⟩) a b hb

/-- Run lemma: as long as the one before is not dispatched and both are left alone by
`setpriority`, the order stays. -/
theorem Good.undisturbed_run (h : Good s) (hb : s.tbl.Before a b)
    {tr : List (Act Cpu × Option Event)} (hrun : Trace.Run (· = s) (Sys.Undisturbed a b) tr s') :
    Good s' ∧ s'.tbl.Before a b := by
  refine hrun.invariant (I := fun s => Good s ∧ s.tbl.Before a b) ?_ ?_
  · rintro _ rfl
    exact ⟨h, hb⟩
  · rintro r l r' ⟨hg, hbr⟩ hs
    exact ⟨(hg.next hs.1).2, hg.undisturbed hs hbr⟩

/-- `scheduler` dispatches the first process of the first ready list that has one, exactly one
process when one is runnable and none otherwise. A process that stands behind another one in
a ready list is not dispatched before it, through promotions too, unless `setpriority` moves
one of them. -/
theorem dispatch_in_order {tr : List (Act Cpu × Option Event)} (h : Sys.Run tr s) :
    (∀ c l s', Trace.Next Sys.next s l s' → l.1 = .sched c → s.Picks s' c) ∧
      ∀ a b, s.tbl.Before a b → ∀ tr' r, Trace.Run (· = s) (Sys.Undisturbed a b) tr' r →
        ∀ c l r', Trace.Next Sys.next r l r' → l.1 = .sched c → r'.cpu c ≠ some b := by
  have hg := h.world.2
  refine ⟨?_, fun a b hb tr' r hrun => ?_⟩
  · rintro c ⟨act, e⟩ s' hs rfl
    exact hg.picks (Sys.next_eq_some hs)
  · obtain ⟨hr, hbr⟩ := hg.undisturbed_run hb hrun
    rintro c ⟨act, e⟩ r' hs rfl
    exact (hr.sched_order (Sys.next_eq_some hs) hbr).1

end Steps

theorem children_dispatched_in_order : ∃ (tr : _) (s : Sys Bool Ptable), Sys.Run tr s ∧
    s.tbl.Before 1 2 ∧ ∀ c l s', Trace.Next Sys.next s l s' → l.1 = .sched c →
      s.Picks s' c ∧ s'.cpu c ≠ some 2 := by
  obtain ⟨tr, s, hrun, hhead, hnext, hlast⟩ := Trace.exec_reaches (f := Sys.next) Sys.start_init
    ([.sched false, .resume false] ++ forkOn false ++ forkOn false)
    (fun _ s => s.tbl.pLists (.ready 0) = some 1 ∧ s.tbl.next 1 = some 2 ∧
      s.tbl.next 2 = none) (by decide +kernel)
  have hb : s.tbl.Before 1 2 := ⟨0, [1, 2], ⟨hhead, hnext, hlast⟩, List.Sublist.refl _⟩
  obtain ⟨hpick, hfifo⟩ := dispatch_in_order hrun
  refine ⟨tr, s, hrun, hb, fun c l s' hs hl => ⟨hpick c l s' hs hl, ?_⟩⟩
  exact hfifo 1 2 hb [] s (.start rfl) c l s' hs hl

end Xv6
