import Xv6.Proc.Family
import Xv6.Proc.Parents

/-!
# The operations that scan the array

`wakeup1`, `exit`, `wait` and `kill` as `proc.c` has them when `CS333_P3P4` is not defined. On
every table that the list-based machine reaches they do what the list-based operations do, as
far as processes can tell, with one exception: `kill` on a zombie.
-/

namespace Xv6

open Ptable (WaitResult)

namespace Core

/-! ## The code without `CS333_P3P4` -/

/-- `for(p = ptable.proc; p < &ptable.proc[NPROC]; p++)` -/
def scan (c : Core) (body : Slot → Core → Core) : Core :=
  (List.finRange NPROC).foldl (fun c p => body p c) c

def scanWakeup1 (c : Core) (chan : Option Chan) : Core :=
  c.scan fun p c =>
    if (c.proc p).state = .sleeping ∧ (c.proc p).chan = chan then
      c.modify p fun x => { x with state := .runnable }
    else c

/-- One turn of the loop of `exit`. -/
def scanPassBody (proc p : Slot) (c : Core) : Core :=
  if (c.proc p).parent = some proc then
    let c := c.modify p fun x => { x with parent := c.initproc }
    if (c.proc p).state = .zombie then c.scanWakeup1 (c.initproc.map .proc) else c
  else c

def scanPassChildren (c : Core) (proc : Slot) : Core := c.scan (scanPassBody proc)

/-- `exit`, after the files are closed. -/
def scanExit (c : Core) (proc : Slot) (ticks : Word) : Except Fault Core :=
  if c.initproc = some proc then .error (.panic "init exiting")
  else
    let c := c.scanWakeup1 ((c.proc proc).parent.map .proc)
    let c := c.scanPassChildren proc
    let c := c.modify proc fun x => { x with state := .zombie }
    .ok (c.sched proc ticks)

def scanSleep (c : Core) (p : Slot) (chan : Chan) (ticks : Word) : Core :=
  let c := c.modify p fun x => { x with chan := some chan }
  let c := c.modify p fun x => { x with state := .sleeping }
  c.sched p ticks

/-- The loop of `wait`: `havekids` and the child it returns, if it does. -/
def scanChildren (c : Core) (proc : Slot) : Bool → List Slot → Bool × Option Slot
  | havekids, [] => (havekids, none)
  | havekids, p :: ps =>
    if (c.proc p).parent ≠ some proc then c.scanChildren proc havekids ps
    else if (c.proc p).state = .zombie then (true, some p)
    else c.scanChildren proc true ps

/-- The fields that `wait` clears. -/
def scanReap (c : Core) (p : Slot) : Core :=
  c.modify p fun x =>
    { x with kstack := none, state := .unused, pid := 0, parent := none, name := "",
             killed := false }

/-- One turn of the loop of `wait`, up to the return or the `sleep`. -/
def scanWait (c : Core) (proc : Slot) (ticks : Word) : WaitResult × Core :=
  match c.scanChildren proc false (List.finRange NPROC) with
  | (_, some p) => (.reaped p (c.proc p).pid, c.scanReap p)
  | (havekids, none) =>
    if !havekids || (c.proc proc).killed then (.failed, c)
    else (.sleeps, c.scanSleep proc (.proc proc) ticks)

/-- `kill`: the process marked, if there is one. -/
def scanKill (c : Core) (pid : Word) : Option Slot × Core :=
  match (List.finRange NPROC).find? fun p => (c.proc p).pid = pid with
  | some p =>
    let c := c.modify p fun x => { x with killed := true }
    (some p, if (c.proc p).state = .sleeping then c.modify p fun x => { x with state := .runnable }
      else c)
  | none => (none, c)

/-! ## Loops over the array -/

theorem scanWakeup1_eq (c : Core) (chan : Option Chan) : c.scanWakeup1 chan = c.wakeup1 chan := by
  unfold scanWakeup1 scan
  rw [foldl_modify (List.nodup_finRange NPROC)
    (fun x => x.state = .sleeping ∧ x.chan = chan) fun x => { x with state := .runnable }]
  refine Core.ext' (fun p => ?_) rfl rfl rfl
  simp only [List.mem_finRange, true_and, wakeup1, map_proc, wakeProc]

def adoptList (proc : Slot) (par : Option Slot) (l : List Slot) (c : Core) : Core :=
  l.foldl (fun c a => if (c.proc a).parent = some proc then
    c.modify a fun x => { x with parent := par } else c) c

def ZombieIn (c : Core) (proc : Slot) (l : List Slot) : Prop :=
  ∃ z ∈ l, (c.proc z).state = .zombie ∧ (c.proc z).parent = some proc

instance (c : Core) (proc : Slot) (l : List Slot) : Decidable (c.ZombieIn proc l) := by
  unfold ZombieIn
  infer_instance

theorem zombieIn_modify {c : Core} {proc a : Slot} {f : Proc → Proc} {l : List Slot}
    (ha : a ∉ l) : (c.modify a f).ZombieIn proc l ↔ c.ZombieIn proc l := by
  refine exists_congr fun z => and_congr_right fun hz => ?_
  have hza : z ≠ a := fun h => ha (h ▸ hz)
  rw [modify_of_ne _ _ _ hza]

/-- The loop of `exit`: the wakeups of init in the middle of it come to one at its end, if
there was a zombie. -/
theorem foldl_scanPassBody {proc : Slot} {par : Option Slot} {l : List Slot} (hnd : l.Nodup)
    (c : Core) (hpar : c.initproc = par) :
    l.foldl (fun c p => scanPassBody proc p c) c =
      if c.ZombieIn proc l then (adoptList proc par l c).wakeup1 (par.map .proc)
      else adoptList proc par l c := by
  induction l generalizing c with
  | nil =>
    rw [if_neg fun h => List.not_mem_nil h.choose_spec.1]
    rfl
  | cons a l ih =>
    obtain ⟨hal, hnd⟩ := List.nodup_cons.mp hnd
    have hcons : c.ZombieIn proc (a :: l) ↔
        ((c.proc a).state = .zombie ∧ (c.proc a).parent = some proc) ∨ c.ZombieIn proc l :=
      List.exists_mem_cons_iff ..
    have hlist : adoptList proc par (a :: l) c = adoptList proc par l
        (if (c.proc a).parent = some proc then c.modify a fun x => { x with parent := par }
        else c) := rfl
    rw [List.foldl_cons, hlist]
    by_cases hc : (c.proc a).parent = some proc
    · have hbody : scanPassBody proc a c =
          if (c.proc a).state = .zombie then
            (c.modify a fun x => { x with parent := par }).wakeup1 (par.map .proc)
          else c.modify a fun x => { x with parent := par } := by
        unfold scanPassBody
        rw [if_pos hc]
        dsimp only
        rw [modify_self, modify_initproc, hpar, scanWakeup1_eq]
      rw [hbody, if_pos hc]
      by_cases hz : (c.proc a).state = .zombie
      · -- a zombie child: the wakeup moves behind the rest of the loop
        have hmove := Queues.foldl_adopt_wakeup1 proc par (par.map .proc) l
          (c.modify a fun x => { x with parent := par })
        change adoptList proc par l _ = (adoptList proc par l _).wakeup1 _ at hmove
        have hinit : ((c.modify a fun x => { x with parent := par }).wakeup1
            (par.map .proc)).initproc = par := hpar
        rw [if_pos hz, if_pos (hcons.mpr (Or.inl ⟨hz, hc⟩)), ih hnd _ hinit, hmove,
          Queues.wakeup1_wakeup1, ite_self]
      · have hinit : (c.modify a fun x => { x with parent := par }).initproc = par := hpar
        rw [if_neg hz, ih hnd _ hinit]
        simp only [zombieIn_modify hal, hcons, hz, false_and, false_or]
    · have hbody : scanPassBody proc a c = c := if_neg hc
      rw [hbody, if_neg hc, ih hnd c hpar]
      simp only [hcons, hc, and_false, false_or]

/-- Where no free slot has a parent, the loop of `exit` over the array passes on the
children that are on the lists. -/
theorem scanPassChildren_eq {c : Core} {proc : Slot}
    (hfree : ∀ p, (c.proc p).state = .unused → (c.proc p).parent ≠ some proc) :
    c.scanPassChildren proc = c.passChildren proc := by
  have hadopt : adoptList proc c.initproc (List.finRange NPROC) c =
      c.map (adoptProc proc c.initproc) := by
    unfold adoptList
    rw [foldl_modify (List.nodup_finRange NPROC) (fun x => x.parent = some proc)]
    refine Core.ext' (fun p => ?_) rfl rfl rfl
    simp only [List.mem_finRange, true_and, map_proc, adoptProc]
    by_cases hp : (c.proc p).parent = some proc
    · have hused : (c.proc p).state ≠ .unused := fun h => hfree p h hp
      rw [if_pos hp, if_pos ⟨hused, hp⟩]
    · rw [if_neg hp, if_neg fun h => hp h.2]
  have hz : c.ZombieIn proc (List.finRange NPROC) ↔
      ∃ p, (c.proc p).state = .zombie ∧ (c.proc p).parent = some proc := by
    refine exists_congr fun z => ?_
    rw [and_iff_right (List.mem_finRange z)]
  unfold scanPassChildren scan passChildren
  rw [foldl_scanPassBody (List.nodup_finRange NPROC) c rfl, hadopt]
  simp only [hz]

theorem scanExit_eq {c : Core} {proc : Slot} (ticks : Word) (hi : c.initproc ≠ some proc)
    (hfree : ∀ p, (c.proc p).state = .unused → (c.proc p).parent ≠ some proc) :
    c.scanExit proc ticks = .ok (c.exit proc ticks) := by
  have hpass : (c.wakeup1 ((c.proc proc).parent.map .proc)).scanPassChildren proc =
      (c.wakeup1 ((c.proc proc).parent.map .proc)).passChildren proc := by
    refine scanPassChildren_eq fun p hp => ?_
    rw [Queues.wakeup1_parent]
    refine hfree p ?_
    simp only [wakeup1, map_proc, wakeProc] at hp
    split at hp
    · cases hp
    · exact hp
  unfold scanExit exit
  rw [if_neg hi]
  dsimp only
  rw [scanWakeup1_eq, hpass]

theorem scanChildren_cases (c : Core) (proc : Slot) (havekids : Bool) (l : List Slot) :
    (∃ b z, c.scanChildren proc havekids l = (b, some z) ∧ (c.proc z).state = .zombie ∧
      (c.proc z).parent = some proc) ∨
    (¬ c.ZombieIn proc l ∧ ∃ b, c.scanChildren proc havekids l = (b, none) ∧
      (b = true ↔ havekids = true ∨ ∃ p ∈ l, (c.proc p).parent = some proc)) := by
  induction l generalizing havekids with
  | nil =>
    refine Or.inr ⟨fun h => List.not_mem_nil h.choose_spec.1, havekids, rfl, ?_⟩
    simp
  | cons a l ih =>
    unfold scanChildren
    by_cases hc : (c.proc a).parent = some proc
    · rw [if_neg (not_not.mpr hc)]
      by_cases hz : (c.proc a).state = .zombie
      · rw [if_pos hz]
        exact Or.inl ⟨true, a, rfl, hz, hc⟩
      · rw [if_neg hz]
        refine (ih true).imp_right fun ⟨hno, b, heq, hb⟩ => ⟨?_, b, heq, ?_⟩
        · rintro ⟨z, hmem, hzz, hzp⟩
          rcases List.mem_cons.mp hmem with rfl | hmem
          · exact hz hzz
          · exact hno ⟨z, hmem, hzz, hzp⟩
        · rw [hb]
          exact iff_of_true (Or.inl rfl) (Or.inr ⟨a, List.mem_cons_self, hc⟩)
    · rw [if_pos hc]
      refine (ih havekids).imp_right fun ⟨hno, b, heq, hb⟩ => ⟨?_, b, heq, ?_⟩
      · rintro ⟨z, hmem, hzz, hzp⟩
        rcases List.mem_cons.mp hmem with rfl | hmem
        · exact hc hzp
        · exact hno ⟨z, hmem, hzz, hzp⟩
      · rw [hb, List.exists_mem_cons_iff, or_iff_right hc]

/-- One turn of `wait` on the lists and one on the array: both return a zombie child,
perhaps not the same one, both return -1, or both go to sleep. -/
def SameTurn (c : Core) (proc : Slot) : WaitResult × Core → WaitResult × Core → Prop
  | (.reaped z pid, d), (.reaped z' pid', d') =>
    ((c.proc z).state = .zombie ∧ (c.proc z).parent = some proc ∧ pid = (c.proc z).pid ∧
      d = c.scanReap z) ∧
    (c.proc z').state = .zombie ∧ (c.proc z').parent = some proc ∧ pid' = (c.proc z').pid ∧
      d' = c.scanReap z'
  | (.failed, d), (.failed, d') => d = c ∧ d' = c
  | (.sleeps, d), (.sleeps, d') => ∀ p, (d.proc p).state = (d'.proc p).state ∧
    (d.proc p).parent = (d'.proc p).parent ∧ (d.proc p).killed = (d'.proc p).killed
  | _, _ => False

theorem reap_eq (c : Core) (p : Slot) : c.reap p = c.scanReap p := by
  refine Core.ext' (fun x => ?_) rfl rfl rfl
  by_cases hx : x = p
  · subst hx
    simp [reap, scanReap]
  · simp [reap, scanReap, modify_of_ne _ _ _ hx]

theorem charge_same (ticks : Word) (x : Proc) :
    (Ptable.charge ticks x).state = x.state ∧ (Ptable.charge ticks x).parent = x.parent ∧
      (Ptable.charge ticks x).killed = x.killed := by
  unfold Ptable.charge
  dsimp only
  split
  · exact ⟨rfl, rfl, rfl⟩
  · exact ⟨rfl, rfl, rfl⟩

theorem sleep_same (c : Core) (p : Slot) (chan : Chan) (ticks : Word) (x : Slot) :
    ((c.sleep p chan ticks).proc x).state = ((c.scanSleep p chan ticks).proc x).state ∧
    ((c.sleep p chan ticks).proc x).parent = ((c.scanSleep p chan ticks).proc x).parent ∧
    ((c.sleep p chan ticks).proc x).killed = ((c.scanSleep p chan ticks).proc x).killed := by
  by_cases hx : x = p
  · subst hx
    simp [sleep, scanSleep, sched, charge_same]
  · simp [sleep, scanSleep, sched, modify_of_ne _ _ _ hx]

end Core

/-! ## The lists refine the array -/

section Refines

variable {Cpu : Type} [DecidableEq Cpu] {tr : List (Act Cpu × Option Event)}
  {s : Sys Cpu Ptable}

theorem Sys.Run.no_free_child (h : Sys.Run tr s) (proc p : Slot)
    (hp : (s.tbl.proc p).state = .unused) : (s.tbl.proc p).parent ≠ some proc := by
  have hnone : (s.tbl.proc p).parent = none := h.world.1.nursed.free (x := p) hp
  rw [hnone]
  exact nofun

theorem Sys.Run.wait_same (h : Sys.Run tr s) {proc : Slot} (ticks : Word)
    (hst : (s.tbl.proc proc).state = .running) :
    ∃ r t, s.tbl.wait proc ticks = .ok (r, t) ∧
      s.tbl.toCore.SameTurn proc (r, t.toCore) (s.tbl.toCore.scanWait proc ticks) := by
  obtain ⟨r, t, heq, -, hr⟩ := h.world.2.lists.wait (p := proc) ticks hst
  refine ⟨r, t, heq, ?_⟩
  have hscan := s.tbl.toCore.scanChildren_cases proc false (List.finRange NPROC)
  unfold Core.scanWait
  cases r with
  | reaped z pid =>
    obtain ⟨hz, hpar, hpid, ht⟩ := hr
    rcases hscan with ⟨b, z', hsc, hz', hpar'⟩ | ⟨hno, -⟩
    · rw [hsc]
      exact ⟨⟨hz, hpar, hpid, ht.trans (Core.reap_eq ..)⟩, hz', hpar', rfl, rfl⟩
    · exact absurd ⟨z, List.mem_finRange z, hz, hpar⟩ hno
  | failed =>
    obtain ⟨hno, ht, hwhy⟩ := hr
    rcases hscan with ⟨b, z, hsc, hz, hpar⟩ | ⟨-, b, hsc, hb⟩
    · exact absurd ⟨z, hz, hpar⟩ hno
    · rw [hsc]
      have hcond : (!b || (s.tbl.proc proc).killed) = true := by
        rcases hwhy with hkids | hkilled
        · have hfalse : b = false := by
            refine Bool.eq_false_iff.mpr fun htrue => ?_
            obtain ⟨p, -, hp⟩ := (hb.mp htrue).resolve_left nofun
            exact hkids p (fun hu => h.no_free_child proc p hu hp) hp
          rw [hfalse]
          rfl
        · rw [hkilled, Bool.or_true]
      dsimp only
      rw [if_pos hcond]
      exact ⟨ht, rfl⟩
  | sleeps =>
    obtain ⟨hno, hkilled, ⟨x, -, hx⟩, ht⟩ := hr
    rcases hscan with ⟨b, z, hsc, hz, hpar⟩ | ⟨-, b, hsc, hb⟩
    · exact absurd ⟨z, hz, hpar⟩ hno
    · have htrue : b = true := hb.mpr (Or.inr ⟨x, List.mem_finRange x, hx⟩)
      have hcond : ¬ (!b || (s.tbl.proc proc).killed) = true := by
        rw [htrue, hkilled]
        exact nofun
      rw [hsc]
      dsimp only
      rw [if_neg hcond, ht]
      exact fun p => Core.sleep_same ..

/-- On every table that is reached, `wakeup1` and `exit` leave the array as the loops over
the array would, and `wait` returns a zombie child, fails or sleeps when the loop over the
array would. -/
theorem lists_refine_array (h : Sys.Run tr s) :
    (∀ chan, ∃ t, s.tbl.wakeup1 chan = .ok t ∧ t.toCore = s.tbl.toCore.scanWakeup1 chan) ∧
    (∀ proc ticks, (s.tbl.proc proc).state = .running →
      (s.tbl.exit proc ticks).map Ptable.toCore = s.tbl.toCore.scanExit proc ticks) ∧
    ∀ proc ticks, (s.tbl.proc proc).state = .running →
      ∃ r t, s.tbl.wait proc ticks = .ok (r, t) ∧
        s.tbl.toCore.SameTurn proc (r, t.toCore) (s.tbl.toCore.scanWait proc ticks) := by
  have hlists := h.world.2.lists
  refine ⟨fun chan => ?_, fun proc ticks hst => ?_, fun proc ticks hst => h.wait_same ticks hst⟩
  · obtain ⟨t, heq, -, ht⟩ := hlists.wakeup1 chan
    exact ⟨t, heq, ht.trans (Core.scanWakeup1_eq ..).symm⟩
  · by_cases hi : s.tbl.initproc = some proc
    · unfold Ptable.exit Core.scanExit
      rw [if_pos hi, if_pos hi]
      rfl
    · obtain ⟨t, heq, -, ht⟩ := hlists.exit ticks hst hi
      rw [heq, Core.scanExit_eq ticks hi (h.no_free_child proc)]
      change Except.ok t.toCore = _
      rw [ht]

/-- Init has two zombie children. The scan of the array returns the first slot, the zombie
list the child that exited last. -/
theorem two_zombies_reaped : ∃ (tr : _) (s : Sys Bool Ptable), Sys.Run tr s ∧
    (s.tbl.toCore.scanWait 0 0).1 = .reaped 1 2 ∧
    ∃ t, s.tbl.wait 0 0 = .ok (.reaped 2 3, t) ∧
      s.tbl.toCore.SameTurn 0 (.reaped 2 3, t.toCore) (s.tbl.toCore.scanWait 0 0) := by
  obtain ⟨tr, s, hrun, hst, hscan, hlist⟩ := Trace.exec_reaches (f := Sys.next) Sys.start_init
    ([.sched false, .resume false] ++ forkOn false ++ forkOn false ++ [.sched true, .resume true,
      .exit true, .sched true, .resume true, .exit true])
    (fun _ s => (s.tbl.proc 0).state = .running ∧
      (s.tbl.toCore.scanWait 0 0).1 = .reaped 1 2 ∧
      (s.tbl.wait 0 0).toOption.map Prod.fst = some (.reaped 2 3))
    (by decide +kernel)
  obtain ⟨r, t, heq, hsame⟩ := (lists_refine_array hrun).2.2 0 0 hst
  rw [heq] at hlist
  cases hlist
  exact ⟨tr, s, hrun, hscan, t, heq, hsame⟩

end Refines

/-! ## `kill` -/

namespace Family

variable {f f' : Family} {e : Option Event} {evs : List Event}

theorem Run.carriers {Cpu : Type} {tr : List (Act Cpu × Option Event)} (h : Run tr f)
    (hissued : issued (Trace.events tr) + 1 < 2 ^ 32) : Carriers (Trace.events tr) f := by
  refine Trace.Run.history (I := fun tr f =>
    issued (Trace.events tr) + 1 < 2 ^ 32 → Carriers (Trace.events tr) f) ?_ ?_ h hissued
  · exact fun f hf _ => hf.carriers
  · intro tr f l f' ih hs hlt
    rw [Trace.events_snoc] at hlt ⊢
    refine (ih ?_).step hs hlt
    rw [issued_append] at hlt
    omega

end Family

/-- What `kill` returns, by the process it marks. -/
def killReturn : Option Slot → Int
  | some _ => 0
  | none => -1

section Kill

variable {Cpu : Type} [DecidableEq Cpu] {tr : List (Act Cpu × Option Event)}
  {s : Sys Cpu Ptable}

theorem Sys.Run.sole_carrier (h : Sys.Run tr s)
    (hissued : issued (Trace.events tr) + 1 < 2 ^ 32) {x y : Slot}
    (hx : (s.tbl.proc x).state ≠ .unused) (hxy : (s.tbl.proc y).pid = (s.tbl.proc x).pid) :
    y = x := by
  refine (h.world.1.family.carriers hissued).sole (x := x) (fun hst => hx ?_) hxy
  change (s.tbl.proc x).state.stage = .free at hst
  revert hst
  cases (s.tbl.proc x).state <;> simp [ProcState.stage]

theorem Core.scanKill_eq {c : Core} {pid : Word} {p : Slot}
    (hsole : ∀ y, (c.proc y).pid = pid ↔ y = p) : c.scanKill pid = (some p, c.kill p) := by
  have hfind : (List.finRange NPROC).find? (fun p => decide ((c.proc p).pid = pid)) = some p := by
    cases hf : (List.finRange NPROC).find? (fun p => decide ((c.proc p).pid = pid)) with
    | none =>
      have hno := List.find?_eq_none.mp hf p (List.mem_finRange p)
      exact absurd (decide_eq_true ((hsole p).mpr rfl)) hno
    | some y =>
      have hy : (c.proc y).pid = pid := by simpa using List.find?_some hf
      rw [(hsole y).mp hy]
  unfold Core.scanKill Core.kill Core.wake
  rw [hfind]
  dsimp only
  rw [Core.modify_self]

/-- As long as `nextpid` has not wrapped around: for the pid of a process, `kill` on the
lists returns the same and leaves the same marks and states as on the array if and only if
the process is not a zombie. -/
theorem kill_refines_array_iff (h : Sys.Run tr s)
    (hissued : issued (Trace.events tr) + 1 < 2 ^ 32) {p : Slot}
    (hp : (s.tbl.proc p).state ≠ .unused) :
    (∃ r t, s.tbl.kill (s.tbl.proc p).pid = .ok (r, t) ∧
      killReturn r = killReturn (s.tbl.toCore.scanKill (s.tbl.proc p).pid).1 ∧
      ∀ x, (t.proc x).killed =
          ((s.tbl.toCore.scanKill (s.tbl.proc p).pid).2.proc x).killed ∧
        (t.proc x).state = ((s.tbl.toCore.scanKill (s.tbl.proc p).pid).2.proc x).state) ↔
    (s.tbl.proc p).state ≠ .zombie := by
  have hsole : ∀ y, (s.tbl.toCore.proc y).pid = (s.tbl.proc p).pid ↔ y = p :=
    fun y => ⟨h.sole_carrier hissued hp, fun hy => by rw [hy]⟩
  obtain ⟨r, t, heq, -, hr⟩ := h.world.2.lists.kill (s.tbl.proc p).pid
  rw [Core.scanKill_eq hsole]
  cases r with
  | none =>
    have hz : (s.tbl.proc p).state = .zombie := (hr.2 p rfl).resolve_left hp
    refine iff_of_false ?_ (fun hne => hne hz)
    rintro ⟨r', t', heq', hret, -⟩
    rw [heq] at heq'
    cases heq'
    cases hret
  | some y =>
    obtain ⟨hpid, -, hz, ht⟩ := hr
    obtain rfl : y = p := (hsole y).mp hpid
    refine iff_of_true ⟨some y, t, heq, rfl, fun x => ?_⟩ hz
    rw [show t.proc x = (s.tbl.toCore.kill y).proc x by rw [← ht]]
    exact ⟨rfl, rfl⟩

theorem runnable_child_killed : ∃ (tr : _) (s : Sys Bool Ptable), Sys.Run tr s ∧
    issued (Trace.events tr) + 1 < 2 ^ 32 ∧ (s.tbl.proc 1).state = .runnable ∧
    ∃ r t, s.tbl.kill (s.tbl.proc 1).pid = .ok (r, t) ∧
      killReturn r = killReturn (s.tbl.toCore.scanKill (s.tbl.proc 1).pid).1 := by
  obtain ⟨tr, s, hrun, hissued, hst⟩ := Trace.exec_reaches (f := Sys.next) Sys.start_init
    ([.sched false, .resume false] ++ forkOn false)
    (fun tr s => issued (Trace.events tr) + 1 < 2 ^ 32 ∧
      (s.tbl.proc 1).state = .runnable) (by decide +kernel)
  have hused : (s.tbl.proc 1).state ≠ .unused := by
    rw [hst]
    exact nofun
  have hnot : (s.tbl.proc 1).state ≠ .zombie := by
    rw [hst]
    exact nofun
  obtain ⟨r, t, heq, hret, -⟩ := (kill_refines_array_iff hrun hissued hused).mpr hnot
  exact ⟨tr, s, hrun, hissued, hst, r, t, heq, hret⟩

/-- The child of init is a zombie. The scan of the array returns 0 and marks it, the lists
return -1. -/
theorem zombie_child_not_found : ∃ (tr : _) (s : Sys Bool Ptable), Sys.Run tr s ∧
    (s.tbl.proc 1).state = .zombie ∧ (s.tbl.proc 1).pid = 2 ∧
    killReturn (s.tbl.toCore.scanKill 2).1 = 0 ∧
    ((s.tbl.toCore.scanKill 2).2.proc 1).killed = true ∧
    ∃ t, s.tbl.kill 2 = .ok (none, t) ∧ killReturn none = -1 ∧ (t.proc 1).killed = false := by
  obtain ⟨tr, s, hrun, hst, hpid, hret, hkilled, hlist⟩ := Trace.exec_reaches (f := Sys.next)
    Sys.start_init
    ([.sched false, .resume false] ++ forkOn false ++ [.sched true, .resume true, .exit true])
    (fun _ s => (s.tbl.proc 1).state = .zombie ∧ (s.tbl.proc 1).pid = 2 ∧
      killReturn (s.tbl.toCore.scanKill 2).1 = 0 ∧
      ((s.tbl.toCore.scanKill 2).2.proc 1).killed = true ∧
      (s.tbl.kill 2).toOption.map (fun r => (r.1, (r.2.proc 1).killed)) = some (none, false))
    (by decide +kernel)
  refine ⟨tr, s, hrun, hst, hpid, hret, hkilled, ?_⟩
  cases hk : s.tbl.kill 2 with
  | error f =>
    rw [hk] at hlist
    cases hlist
  | ok r =>
    rw [hk] at hlist
    obtain ⟨hr, ht⟩ := Prod.mk.inj (Option.some.inj hlist)
    exact ⟨r.2, by rw [← hr], rfl, ht⟩

end Kill

end Xv6
