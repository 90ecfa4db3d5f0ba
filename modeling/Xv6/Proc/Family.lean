import Xv6.Proc.Killed
import Xv6.Proc.Kin

/-!
# The accounts of `fork`, `exit` and `wait`

The events of a run are its books. `Pids` says that a pid is not used again, `Entries` that the
books mention old processes only, `Fate` what became of a child and `count` that forks, waits
and children add up. They are kept by the steps of a family, and so by the machine.
-/

namespace Xv6

open Trace (events)

/-! ## Reading the books -/

namespace Event

def isAlloc : Event → Bool
  | .alloc _ _ => true
  | _ => false

def pids : Event → List Word
  | .forked parent child | .waited parent child => [parent, child]
  | .exited pid _ => [pid]
  | _ => []

def forkedBy (pid : Word) : Event → Bool
  | .forked parent _ => parent = pid
  | _ => false

def waitedBy (pid : Word) : Event → Bool
  | .waited parent _ => parent = pid
  | _ => false

def orphans : Event → Nat
  | .exited _ os => os.length
  | _ => 0

theorem of_not_kin {ev : Event} (h : ev.kin = false) :
    (∃ p pid, ev = .killed p pid) ∨ ∃ p, ev = .trapped p := by
  cases ev with
  | killed p pid => exact Or.inl ⟨p, pid, rfl⟩
  | trapped p => exact Or.inr ⟨p, rfl⟩
  | _ => cases h

end Event

/-- The number of pids that `allocproc` has given out, the first one to init. -/
def issued (evs : List Event) : Nat := 1 + evs.countP Event.isAlloc

def forks (evs : List Event) (pid : Word) : Nat := evs.countP (Event.forkedBy pid)

def waits (evs : List Event) (pid : Word) : Nat := evs.countP (Event.waitedBy pid)

def adopted (evs : List Event) : Nat := (evs.map Event.orphans).sum

namespace Family

variable {f f' : Family} {e : Option Event} {evs : List Event}

/-! ## Pids -/

theorem alloc_member_ne {np x : Slot} (h : x ≠ np) : (f.alloc np).member x = f.member x :=
  f.set_of_ne _ h

theorem alloc_member_self {np : Slot} :
    (f.alloc np).member np = { f.member np with stage := .embryo, pid := f.nextpid } :=
  f.set_self np _

variable {x : Slot}

/-- A slot in use was in use before, with the same pid, and is not an embryo unless it was
one; or it has just been allocated. -/
theorem Step.in_use (hs : f.Step e f') (hx : (f'.member x).stage ≠ .free) :
    ((f.member x).stage ≠ .free ∧ (f'.member x).pid = (f.member x).pid ∧
      ((f'.member x).stage = .embryo → (f.member x).stage = .embryo)) ∨
    (e = some (.alloc x f.nextpid) ∧ (f.member x).stage = .free ∧
      (f'.member x).stage = .embryo ∧ (f'.member x).pid = f.nextpid) := by
  cases hs with
  | silent he hn hi hm =>
    left
    rcases hm x with heq | ⟨hemb, -, hpid, -⟩
    · rw [heq] at hx ⊢
      exact ⟨hx, rfl, id⟩
    · exact ⟨by rw [hemb]; exact nofun, hpid, fun _ => hemb⟩
  | @alloc np hnp =>
    by_cases hxn : x = np
    · subst hxn
      exact Or.inr ⟨rfl, hnp, by rw [alloc_member_self], by rw [alloc_member_self]⟩
    · rw [alloc_member_ne hxn] at hx ⊢
      exact Or.inl ⟨hx, rfl, id⟩
  | @forked p np hp hnp hpar =>
    left
    by_cases hxn : x = np
    · subst hxn
      exact ⟨by rw [hnp]; exact nofun, by rw [set_self], fun _ => hnp⟩
    · rw [set_of_ne _ _ hxn] at hx ⊢
      exact ⟨hx, rfl, id⟩
  | @exited p os hp hi hos =>
    left
    by_cases hxp : x = p
    · subst hxp
      refine ⟨by rw [hp]; exact nofun, rfl, fun hemb => ?_⟩
      rw [show ((f.exit x).member x).stage = .zombie from if_pos rfl] at hemb
      cases hemb
    · rw [exit_stage f hxp] at hx ⊢
      exact ⟨hx, rfl, id⟩
  | @waited p z hp hz hpar =>
    left
    by_cases hxz : x = z
    · rw [hxz, set_self] at hx
      exact absurd rfl hx
    · rw [set_of_ne _ _ hxz] at hx ⊢
      exact ⟨hx, rfl, id⟩

theorem Step.nextpid (hs : f.Step e f') :
    f'.nextpid = f.nextpid + BitVec.ofNat 32 (e.toList.countP Event.isAlloc) := by
  cases hs with
  | silent he hn hi hm =>
    rw [hn]
    cases e with
    | none => simp
    | some ev =>
      obtain ⟨p, pid, rfl⟩ | ⟨p, rfl⟩ := Event.of_not_kin (he ev rfl) <;>
        exact (BitVec.add_zero _).symm
  | alloc hnp => rfl
  | _ => exact (BitVec.add_zero _).symm

theorem Step.initproc (hs : f.Step e f') : f'.initproc = f.initproc := by
  cases hs with
  | silent he hn hi hm => exact hi
  | _ => rfl

theorem issued_append (evs evs' : List Event) :
    issued (evs ++ evs') = issued evs + evs'.countP Event.isAlloc := by
  unfold issued
  rw [List.countP_append]
  omega

/-- As long as `nextpid` has not wrapped around, the pid of a process is on no other slot,
free slots included. -/
structure Carriers (evs : List Event) (f : Family) : Prop where
  nextpid : f.nextpid.toNat = issued evs + 1
  lt : ∀ x, (f.member x).pid.toNat < f.nextpid.toNat
  pos : ∀ {x}, (f.member x).stage ≠ .free → (f.member x).pid ≠ 0
  sole : ∀ {x y}, (f.member x).stage ≠ .free → (f.member y).pid = (f.member x).pid → y = x

theorem Step.pid (hs : f.Step e f') (y : Slot) :
    (f'.member y).pid = (f.member y).pid ∨
      (e = some (.alloc y f.nextpid) ∧ (f'.member y).pid = f.nextpid) ∨
      (f'.member y).pid = 0 := by
  cases hs with
  | silent he hn hi hm =>
    rcases hm y with heq | ⟨-, -, hpid, -⟩
    · exact Or.inl (by rw [heq])
    · exact Or.inl hpid
  | @alloc np hnp =>
    by_cases hy : y = np
    · subst hy
      exact Or.inr (Or.inl ⟨rfl, by rw [alloc_member_self]⟩)
    · exact Or.inl (by rw [alloc_member_ne hy])
  | @forked p np hp hnp hpar =>
    by_cases hy : y = np
    · subst hy
      exact Or.inl (by rw [set_self])
    · exact Or.inl (by rw [set_of_ne _ _ hy])
  | exited hp hi hos => exact Or.inl rfl
  | @waited p z hp hz hpar =>
    by_cases hy : y = z
    · subst hy
      exact Or.inr (Or.inr (by rw [set_self]))
    · exact Or.inl (by rw [set_of_ne _ _ hy])

theorem Carriers.step (hc : Carriers evs f) (hs : f.Step e f')
    (hissued : issued (evs ++ e.toList) + 1 < 2 ^ 32) : Carriers (evs ++ e.toList) f' := by
  have hle : e.toList.countP Event.isAlloc ≤ 1 :=
    (List.countP_le_length).trans (by cases e <;> simp)
  rw [issued_append] at hissued
  have hnext : f'.nextpid.toNat = f.nextpid.toNat + e.toList.countP Event.isAlloc := by
    rw [hs.nextpid, BitVec.toNat_add, BitVec.toNat_ofNat, hc.nextpid]
    omega
  have hpos : ∀ {x}, (f'.member x).stage ≠ .free → (f'.member x).pid ≠ 0 := by
    intro x hx hzero
    rcases hs.in_use hx with ⟨hx', hpid, -⟩ | ⟨-, -, -, hpid⟩
    · exact hc.pos hx' (hpid.symm.trans hzero)
    · have hnn := hc.nextpid
      rw [← hpid, hzero] at hnn
      simp at hnn
  refine ⟨?_, fun x => ?_, hpos, fun {x y} hx hxy => ?_⟩
  · rw [hnext, issued_append, hc.nextpid]
    omega
  · have hlt := hc.lt x
    rw [hnext]
    rcases hs.pid x with hpid | ⟨rfl, hpid⟩ | hpid
    · rw [hpid]
      omega
    · rw [hpid]
      simp [Event.isAlloc]
    · have hzero : (0 : Word).toNat = 0 := rfl
      rw [hpid, hc.nextpid]
      omega
  · rcases hs.pid y with hpy | ⟨hey, hpy⟩ | hpy
    · rcases hs.in_use hx with ⟨hx', hpx, -⟩ | ⟨hex, -, -, hpx⟩
      · exact hc.sole hx' (by rw [← hpy, hxy, hpx])
      · -- the new pid is larger than all others
        have hlt := hc.lt y
        rw [← hpy, hxy, hpx] at hlt
        omega
    · rcases hs.in_use hx with ⟨hx', hpx, -⟩ | ⟨hex, -, -, hpx⟩
      · have hlt := hc.lt x
        rw [← hpx, ← hxy, hpy] at hlt
        omega
      · rw [hey] at hex
        cases hex
        rfl
    · exact absurd (hxy.symm.trans hpy) (hpos hx)

theorem Init.only {x : Slot} (h : f.Init) (hx : (f.member x).stage ≠ .free) : x = 0 := by
  by_contra h0
  rw [h.free x h0] at hx
  exact hx rfl

theorem Init.carriers (h : f.Init) : Carriers [] f := by
  refine ⟨?_, fun x => ?_, fun {x} hx => ?_, fun {x y} hx hxy => ?_⟩
  · rw [h.nextpid]
    rfl
  · by_cases h0 : x = 0
    · rw [h0, h.first, h.nextpid]
      decide
    · rw [h.free x h0, h.nextpid]
      decide
  · rw [h.only hx, h.first]
    decide
  · rw [h.only hx] at hxy ⊢
    by_contra h0
    rw [h.free y h0, h.first] at hxy
    exact absurd hxy (by decide)

structure Pids (evs : List Event) (f : Family) : Prop extends Carriers evs f where
  init : ∀ {i}, f.initproc = some i → (f.member i).pid = 1

theorem Pids.step (hp : Pids evs f) (hf : f.Sound) (hs : f.Step e f')
    (hissued : issued (evs ++ e.toList) < 2 ^ 31) : Pids (evs ++ e.toList) f' := by
  refine ⟨hp.toCarriers.step hs (by omega), fun {i} hi => ?_⟩
  obtain ⟨j, hj, hst⟩ := (hf.step hs).init
  obtain ⟨k, hk, hst'⟩ := hf.init
  rw [hi] at hj
  cases hj
  rw [hs.initproc, hk] at hi
  cases hi
  rcases hs.in_use (x := i) (by rw [hst]; exact nofun) with ⟨-, hpid, -⟩ | ⟨-, hfree, -⟩
  · exact hpid.trans (hp.init hk)
  · rw [hst'] at hfree
    cases hfree

theorem Pids.nextpid_le {evs' : List Event} (hp : Pids evs f) (hp' : Pids (evs ++ evs') f') :
    f.nextpid.toNat ≤ f'.nextpid.toNat := by
  rw [hp.nextpid, hp'.nextpid, issued_append]
  omega

/-! ## Entries -/

theorem Step.mentions {ev : Event} {c : Word} (hs : f.Step (some ev) f') (hc : c ∈ ev.pids) :
    ∃ y, (f.member y).stage ≠ .free ∧ (f'.member y).stage ≠ .embryo ∧ (f.member y).pid = c := by
  have hset : ∀ {p q x}, (f.member p).stage = .alive → x.stage ≠ .embryo →
      ((f.set q x).member p).stage ≠ .embryo := by
    intro p q x hp hx
    by_cases hpq : p = q
    · rwa [hpq, set_self]
    · rw [set_of_ne _ _ hpq, hp]
      exact nofun
  cases hs with
  | silent he hn hi hm =>
    obtain ⟨p, pid, rfl⟩ | ⟨p, rfl⟩ := Event.of_not_kin (he ev rfl) <;> cases hc
  | alloc hnp => cases hc
  | @forked p np hp hnp hpar =>
    rcases List.mem_pair.mp hc with rfl | rfl
    · exact ⟨p, by rw [hp]; exact nofun, hset hp nofun, rfl⟩
    · exact ⟨np, by rw [hnp]; exact nofun, by rw [set_self]; exact nofun, rfl⟩
  | @exited p os hp hi hos =>
    rcases List.mem_singleton.mp hc with rfl
    refine ⟨p, by rw [hp]; exact nofun, ?_, rfl⟩
    rw [show ((f.exit p).member p).stage = .zombie from if_pos rfl]
    exact nofun
  | @waited p z hp hz hpar =>
    rcases List.mem_pair.mp hc with rfl | rfl
    · exact ⟨p, by rw [hp]; exact nofun, hset hp nofun, rfl⟩
    · exact ⟨z, by rw [hz]; exact nofun, by rw [set_self]; exact nofun, rfl⟩

theorem Step.of_waited {w c : Word} (hs : f.Step (some (.waited w c)) f') :
    ∃ p z, (f.member p).stage = .alive ∧ (f.member z).stage = .zombie ∧
      (f.member z).parent = some p ∧ w = (f.member p).pid ∧ c = (f.member z).pid ∧
      f' = f.set z { stage := .free, pid := 0, parent := none } := by
  cases hs with
  | silent he hn hi hm => cases he _ rfl
  | @waited p z hp hz hpar => exact ⟨p, z, hp, hz, hpar, rfl, rfl, rfl⟩

variable {P c : Word}

theorem Step.of_forked (hs : f.Step (some (.forked P c)) f') :
    ∃ p np, (f.member p).stage = .alive ∧ (f.member np).stage = .embryo ∧
      (f.member np).parent = some p ∧ P = (f.member p).pid ∧ c = (f.member np).pid ∧
      f' = f.set np { f.member np with stage := .alive } := by
  cases hs with
  | silent he hn hi hm => cases he _ rfl
  | @forked p np hp hnp hpar => exact ⟨p, np, hp, hnp, hpar, rfl, rfl, rfl⟩

structure Entries (evs : List Event) (f : Family) : Prop where
  old : ∀ {ev}, ev ∈ evs → ∀ {c}, c ∈ ev.pids → c.toNat < f.nextpid.toNat
  embryo : ∀ {x}, (f.member x).stage = .embryo → ∀ {ev}, ev ∈ evs → (f.member x).pid ∉ ev.pids
  reaped : ∀ {w c x}, .waited w c ∈ evs → (f.member x).stage ≠ .free → (f.member x).pid ≠ c

theorem Entries.step (hE : Entries evs f) (hp : Pids evs f) (hp' : Pids (evs ++ e.toList) f')
    (hs : f.Step e f') : Entries (evs ++ e.toList) f' := by
  have hle := hp.nextpid_le hp'
  refine ⟨fun {ev} hev {c} hc => ?_, fun {x} hx {ev} hev hc => ?_, fun {w c x} hev hx heq => ?_⟩
  · rcases Trace.mem_snoc.mp hev with hev | rfl
    · exact lt_of_lt_of_le (hE.old hev hc) hle
    · obtain ⟨y, hy, -, rfl⟩ := hs.mentions hc
      exact lt_of_lt_of_le (hp.lt y) hle
  · rcases Trace.mem_snoc.mp hev with hev | rfl
    · rcases hs.in_use (x := x) (by rw [hx]; exact nofun) with ⟨-, hpid, hemb⟩ | ⟨-, -, -, hpid⟩
      · rw [hpid] at hc
        exact hE.embryo (hemb hx) hev hc
      · rw [hpid] at hc
        exact lt_irrefl _ (hE.old hev hc)
    · obtain ⟨y, hy, hemb, hpid⟩ := hs.mentions hc
      rcases hs.in_use (x := x) (by rw [hx]; exact nofun) with ⟨hx', hpid', -⟩ | ⟨he, -, -, hpid'⟩
      · have hyx : y = x := hp.sole hx' (hpid.trans hpid')
        exact hemb (hyx ▸ hx)
      · cases he
        cases hc
  · rcases Trace.mem_snoc.mp hev with hev | rfl
    · rcases hs.in_use hx with ⟨hx', hpid, -⟩ | ⟨-, -, -, hpid⟩
      · exact hE.reaped hev hx' (hpid ▸ heq)
      · have hlt := hE.old hev (c := c) (by simp [Event.pids])
        rw [← heq, hpid] at hlt
        exact lt_irrefl _ hlt
    · obtain ⟨p, z, -, hz, -, -, rfl, rfl⟩ := hs.of_waited
      have hxz : x ≠ z := by
        rintro rfl
        rw [set_self] at hx
        exact hx rfl
      rw [set_of_ne _ _ hxz] at hx heq
      exact hxz (hp.sole (by rw [hz]; exact nofun) heq)

/-! ## What became of a child -/

/-- The parent of `x` is the process `P` that forked it, or init once `P` has exited. -/
def Raised (f : Family) (x : Slot) (P : Word) (since : List Event) : Prop :=
  (∃ q, (f.member x).parent = some q ∧ (f.member q).pid = P ∧ ∀ os, .exited P os ∉ since) ∨
    ((f.member x).parent = f.initproc ∧ ∃ os, .exited P os ∈ since)

/-- What became of the child `c` of `P`, that was forked after `pre` and before `post`: it
is still there, or was returned by one `wait`, by `P` or by init once `P` had exited. -/
inductive Fate (f : Family) (pre : List Event) (P c : Word) (post : List Event) : Prop
  | unreaped (x : Slot) (hx : (f.member x).Unreaped) (hpid : (f.member x).pid = c)
      (hw : ∀ w, .waited w c ∉ pre ++ post) (hpar : f.Raised x P post)
  | reaped (mid : List Event) (w : Word) (rest : List Event)
      (hpost : post = mid ++ .waited w c :: rest) (hw : ∀ w', .waited w' c ∉ pre ++ mid ++ rest)
      (hx : ∀ x, (f.member x).Unreaped → (f.member x).pid ≠ c)
      (hby : (w = P ∧ ∀ os, .exited P os ∉ mid) ∨ (w = 1 ∧ ∃ os, .exited P os ∈ mid))

theorem Sound.parent_alive {x q : Slot} (hf : f.Sound) (hx : (f.member x).Unreaped)
    (hpar : (f.member x).parent = some q) : (f.member q).stage = .alive := by
  by_cases hi : f.initproc = some x
  · rw [hf.init_parent hi] at hpar
    cases hpar
  · obtain ⟨q', hq', hst⟩ := hf.parent hx hi
    rw [hpar] at hq'
    cases hq'
    exact hst

variable {pre post : List Event}

section Unreaped

variable (hf : f.Sound) (hx : (f.member x).Unreaped) (hpid : (f.member x).pid = c)
  (hw : ∀ w, .waited w c ∉ pre ++ post) (hpar : f.Raised x P post)

include hf hx hpid hw hpar

theorem Fate.keep (hi : f'.initproc = f.initproc)
    (hm : ∀ y, (y = x ∨ (f.member y).stage = .alive) → f'.member y = f.member y)
    (hew : ∀ w, e ≠ some (.waited w c)) (hee : ∀ os, e ≠ some (.exited P os)) :
    Fate f' pre P c (post ++ e.toList) := by
  have hmx := hm x (Or.inl rfl)
  refine .unreaped x (by rw [hmx]; exact hx) (by rw [hmx]; exact hpid) (fun w => ?_) ?_
  · rw [← List.append_assoc]
    exact Trace.not_mem_snoc (hw w) (hew w)
  · rcases hpar with ⟨q, hq, hqP, hno⟩ | ⟨hinit, os, hos⟩
    · refine Or.inl ⟨q, by rw [hmx]; exact hq, ?_, fun os => Trace.not_mem_snoc (hno os) (hee os)⟩
      rwa [hm q (Or.inr (hf.parent_alive hx hq))]
    · exact Or.inr ⟨by rw [hmx, hi]; exact hinit, os, List.mem_append_left _ hos⟩

theorem Fate.step_unreaped (hp : Pids evs f) (hs : f.Step e f') :
    Fate f' pre P c (post ++ e.toList) := by
  have hset : ∀ {q y}, (f.member q).stage ≠ .alive → q ≠ x → ∀ z,
      (z = x ∨ (f.member z).stage = .alive) → (f.set q y).member z = f.member z := by
    intro q y hq hqx z hz
    refine f.set_of_ne y ?_
    rintro rfl
    exact hz.elim hqx hq
  cases hs with
  | silent he hn hi hm =>
    refine Fate.keep hf hx hpid hw hpar hi (fun y hy => (hm y).eq_of_unreaped (Or.inl ?_)) ?_ ?_
    · rcases hy with rfl | hy
      · exact hx
      · exact Or.inl hy
    · rintro w rfl
      cases he _ rfl
    · rintro os rfl
      cases he _ rfl
  | @alloc np hnp =>
    refine Fate.keep hf hx hpid hw hpar rfl ?_ nofun nofun
    exact hset (by rw [hnp]; exact nofun) fun h => hx.ne_free (h ▸ hnp)
  | @forked p np hp hnp hnpar =>
    refine Fate.keep hf hx hpid hw hpar rfl ?_ nofun nofun
    refine hset (by rw [hnp]; exact nofun) ?_
    rintro rfl
    rcases hx with hx | hx <;> rw [hnp] at hx <;> cases hx
  | @exited p os hpst hi hos =>
    have hux : ((f.exit p).member x).Unreaped := by
      by_cases hxp : x = p
      · exact Or.inr (if_pos hxp)
      · unfold Member.Unreaped
        rwa [exit_stage f hxp]
    refine .unreaped x hux hpid (fun w => ?_) ?_
    · rw [← List.append_assoc]
      exact Trace.not_mem_snoc (hw w) nofun
    · rcases hpar with ⟨q, hq, rfl, hno⟩ | ⟨hinit, os', hos'⟩
      · by_cases hqp : q = p
        · subst hqp
          exact Or.inr ⟨exit_parent_child f hx hq, os, by simp⟩
        · refine Or.inl ⟨q, ?_, rfl, fun os' => Trace.not_mem_snoc (hno os') fun heq => ?_⟩
          · rwa [exit_parent_other f (by rw [hq]; exact fun h => hqp (Option.some.inj h))]
          · refine hqp (hp.sole (by rw [hpst]; exact nofun) ?_)
            simp only [Option.some.injEq, Event.exited.injEq] at heq
            exact heq.1.symm
      · refine Or.inr ⟨?_, os', List.mem_append_left _ hos'⟩
        rwa [exit_parent_other f (by rw [hinit]; exact hi)]
  | @waited p z hpst hz hzpar =>
    subst hpid
    by_cases hzx : z = x
    · subst hzx
      refine .reaped post (f.member p).pid [] rfl ?_ (fun y hy hyz => ?_) ?_
      · simpa using hw
      · have hyz' : y ≠ z := by
          rintro rfl
          rw [set_self] at hy
          rcases hy with hy | hy <;> cases hy
        rw [set_of_ne _ _ hyz'] at hy hyz
        exact hyz' (hp.sole hx.ne_free hyz)
      · rcases hpar with ⟨q, hq, hqP, hno⟩ | ⟨hinit, os, hos⟩
        · rw [hzpar] at hq
          cases hq
          exact Or.inl ⟨hqP, hno⟩
        · exact Or.inr ⟨hp.init (hinit.symm.trans hzpar), os, hos⟩
    · refine Fate.keep hf hx rfl hw hpar rfl (hset (by rw [hz]; exact nofun) hzx) ?_ nofun
      intro w heq
      simp only [Option.some.injEq, Event.waited.injEq] at heq
      exact hzx (hp.sole hx.ne_free heq.2)

end Unreaped

theorem Step.unreaped (hs : f.Step e f') (hx : (f'.member x).Unreaped) :
    ((f.member x).Unreaped ∨ (f.member x).stage = .embryo) ∧
      (f'.member x).pid = (f.member x).pid := by
  rcases hs.in_use hx.ne_free with ⟨hx', hpid, -⟩ | ⟨-, -, hemb, -⟩
  · refine ⟨?_, hpid⟩
    unfold Member.Unreaped
    cases hst : (f.member x).stage <;> simp_all
  · rcases hx with hx | hx <;> rw [hemb] at hx <;> cases hx

theorem Fate.step (h : Fate f pre P c post) (hf : f.Sound)
    (hp : Pids evs f) (hemb : ∀ x, (f.member x).stage = .embryo → (f.member x).pid ≠ c)
    (hs : f.Step e f') : Fate f' pre P c (post ++ e.toList) := by
  cases h with
  | unreaped x hx hpid hw hpar => exact Fate.step_unreaped hf hx hpid hw hpar hp hs
  | reaped mid w rest hpost hw hx hby =>
    refine .reaped mid w (rest ++ e.toList) (by rw [hpost]; simp) (fun w' => ?_)
      (fun x hx' => ?_) hby
    · rw [← List.append_assoc]
      refine Trace.not_mem_snoc (hw w') ?_
      rintro rfl
      obtain ⟨p, z, -, hz, -, -, rfl, -⟩ := hs.of_waited
      exact hx z (Or.inr hz) rfl
    · obtain ⟨hold, hpid⟩ := hs.unreaped hx'
      rw [hpid]
      exact hold.elim (hx x) (hemb x)

/-! ## The balance -/

theorem mem_children {p x : Slot} :
    x ∈ f.children p ↔ (f.member x).parent = some p ∧ (f.member x).Unreaped := by
  simp [children]

theorem children_congr {p q : Slot}
    (h : ∀ x, ((f'.member x).parent = some q ∧ (f'.member x).Unreaped) ↔
      ((f.member x).parent = some p ∧ (f.member x).Unreaped)) : f'.children q = f.children p := by
  ext x
  rw [mem_children, mem_children]
  exact h x

/-- Forks, and for init adoptions, on one side; waits and children on the other. -/
def Balanced (evs : List Event) (f : Family) (p : Slot) : Prop :=
  forks evs (f.member p).pid + (if f.initproc = some p then adopted evs else 0) =
    waits evs (f.member p).pid + (f.children p).card

theorem forks_append (evs' : List Event) (P : Word) :
    forks (evs ++ evs') P = forks evs P + forks evs' P := List.countP_append

theorem waits_append (evs' : List Event) (P : Word) :
    waits (evs ++ evs') P = waits evs P + waits evs' P := List.countP_append

theorem adopted_append (evs' : List Event) :
    adopted (evs ++ evs') = adopted evs + adopted evs' := by
  simp [adopted]

theorem Balanced.entry {p : Slot} (h : Balanced evs f p)
    (hpid : (f'.member p).pid = (f.member p).pid)
    (hi : f'.initproc = f.initproc)
    (hsum : forks e.toList (f.member p).pid +
        (if f.initproc = some p then adopted e.toList else 0) + (f.children p).card =
      waits e.toList (f.member p).pid + (f'.children p).card) :
    Balanced (evs ++ e.toList) f' p := by
  unfold Balanced at h ⊢
  rw [hpid, hi, forks_append, waits_append, adopted_append]
  split
  · next hp =>
    rw [if_pos hp] at h hsum
    omega
  · next hp =>
    rw [if_neg hp] at h hsum
    omega

theorem not_kin_entries (he : ∀ ev ∈ e, ev.kin = false) (P : Word) :
    forks e.toList P = 0 ∧ waits e.toList P = 0 ∧ adopted e.toList = 0 := by
  cases e with
  | none => exact ⟨rfl, rfl, rfl⟩
  | some ev => obtain ⟨p, pid, rfl⟩ | ⟨p, rfl⟩ := Event.of_not_kin (he ev rfl)
      <;> exact ⟨rfl, rfl, rfl⟩

theorem Balanced.silent {p : Slot} (h : Balanced evs f p) (hp : (f.member p).stage = .alive)
    (he : ∀ ev ∈ e, ev.kin = false) (hi : f'.initproc = f.initproc)
    (hm : ∀ x, f.Keeps (f.member x) (f'.member x)) : Balanced (evs ++ e.toList) f' p := by
  have hch : f'.children p = f.children p := by
    refine children_congr fun x => ?_
    by_cases hx : (f.member x).Unreaped ∨ (f'.member x).Unreaped
    · rw [(hm x).eq_of_unreaped hx]
    · rw [not_or] at hx
      simp [hx.1, hx.2]
  obtain ⟨hf, hw, ha⟩ := not_kin_entries he (f.member p).pid
  refine h.entry ?_ hi ?_
  · rw [(hm p).eq_of_unreaped (Or.inl (Or.inl hp))]
  · rw [hch, hf, hw, ha, ite_self]

theorem children_set (q y : Slot) (x : Member) : (f.set q x).children y =
    if x.parent = some y ∧ x.Unreaped then insert q (f.children y)
    else (f.children y).erase q := by
  ext z
  rw [mem_children]
  by_cases hz : z = q
  · rw [hz, set_self]
    split
    · next h => simp [h]
    · next h => simp [h]
  · rw [set_of_ne _ _ hz]
    split <;> simp [hz, mem_children]

theorem children_set_of_not {q y : Slot} {x : Member} (hq : q ∉ f.children y)
    (hx : ¬ (x.parent = some y ∧ x.Unreaped)) : (f.set q x).children y = f.children y := by
  rw [children_set, if_neg hx, Finset.erase_eq_of_notMem hq]

theorem not_mem_children {x y : Slot} (hx : ¬ (f.member x).Unreaped) : x ∉ f.children y :=
  fun h => hx (mem_children.mp h).2

theorem not_unreaped_of_embryo {x : Member} (hx : x.stage = .embryo) : ¬ x.Unreaped := by
  rintro (h | h) <;> rw [hx] at h <;> cases h

theorem not_unreaped_of_free {x : Member} (hx : x.stage = .free) : ¬ x.Unreaped :=
  fun h => h.ne_free hx

theorem ne_of_stage {x y : Slot} {st : Stage} (hx : (f.member x).stage = .alive)
    (hy : (f.member y).stage = st) (hst : st ≠ .alive) : x ≠ y := by
  rintro rfl
  exact hst (hy.symm.trans hx)

theorem Balanced.alloc {np y : Slot} (h : Balanced evs f y) (hnp : (f.member np).stage = .free)
    (hy : (f.member y).stage = .alive) :
    Balanced (evs ++ [.alloc np f.nextpid]) (f.alloc np) y := by
  have hch : (f.alloc np).children y = f.children y :=
    children_set_of_not (not_mem_children (not_unreaped_of_free hnp))
      fun hx => not_unreaped_of_embryo rfl hx.2
  refine h.entry (e := some (.alloc np f.nextpid)) ?_ rfl ?_
  · rw [alloc_member_ne (ne_of_stage hy hnp nofun)]
  · rw [hch]
    change 0 + (if _ then 0 else 0) + _ = 0 + _
    rw [ite_self]

theorem forks_forked (P Q c : Word) : forks [.forked P c] Q = if P = Q then 1 else 0 := by
  simp [forks, Event.forkedBy, List.countP_singleton]

theorem waits_waited (P Q c : Word) : waits [.waited P c] Q = if P = Q then 1 else 0 := by
  simp [waits, Event.waitedBy, List.countP_singleton]

theorem Balanced.forked {p np y : Slot} (h : Balanced evs f y) (hp : Pids evs f)
    (hpst : (f.member p).stage = .alive) (hy : (f.member y).stage = .alive)
    (hnp : (f.member np).stage = .embryo) (hpar : (f.member np).parent = some p) :
    Balanced (evs ++ [.forked (f.member p).pid (f.member np).pid])
      (f.set np { f.member np with stage := .alive }) y := by
  have hnot : np ∉ f.children y := not_mem_children (not_unreaped_of_embryo hnp)
  refine h.entry (e := some (.forked (f.member p).pid (f.member np).pid)) ?_ rfl ?_
  · rw [set_of_ne _ _ (ne_of_stage hy hnp nofun)]
  · rw [Option.toList_some, forks_forked]
    change _ + (if _ then 0 else 0) + _ = 0 + _
    rw [ite_self]
    by_cases hyp : y = p
    · subst hyp
      rw [if_pos rfl, children_set, if_pos ⟨hpar, Or.inl rfl⟩, Finset.card_insert_of_notMem hnot]
      omega
    · have hpid : (f.member p).pid ≠ (f.member y).pid := fun heq =>
        hyp (hp.sole (by rw [hpst]; exact nofun) heq.symm)
      rw [if_neg hpid, children_set_of_not hnot]
      rintro ⟨hpar', -⟩
      rw [hpar] at hpar'
      exact hyp (Option.some.inj hpar').symm

theorem Balanced.waited {p z y : Slot} (h : Balanced evs f y) (hp : Pids evs f)
    (hpst : (f.member p).stage = .alive) (hy : (f.member y).stage = .alive)
    (hz : (f.member z).stage = .zombie) (hpar : (f.member z).parent = some p) :
    Balanced (evs ++ [.waited (f.member p).pid (f.member z).pid])
      (f.set z { stage := .free, pid := 0, parent := none }) y := by
  have hch : (f.set z { stage := .free, pid := 0, parent := none }).children y =
      (f.children y).erase z := by
    rw [children_set, if_neg fun hx => not_unreaped_of_free rfl hx.2]
  refine h.entry (e := some (.waited (f.member p).pid (f.member z).pid)) ?_ rfl ?_
  · rw [set_of_ne _ _ (ne_of_stage hy hz nofun)]
  · rw [Option.toList_some, waits_waited, hch]
    change 0 + (if _ then 0 else 0) + _ = _
    rw [ite_self]
    by_cases hyp : y = p
    · subst hyp
      have hmem : z ∈ f.children y := mem_children.mpr ⟨hpar, Or.inr hz⟩
      have hcard := Finset.card_erase_add_one hmem
      rw [if_pos rfl]
      omega
    · have hpid : (f.member p).pid ≠ (f.member y).pid := fun heq =>
        hyp (hp.sole (by rw [hpst]; exact nofun) heq.symm)
      rw [if_neg hpid, Finset.erase_eq_of_notMem fun hmem => ?_]
      have hzy := (mem_children.mp hmem).1
      rw [hpar] at hzy
      exact hyp (Option.some.inj hzy).symm

theorem unreaped_exit {p x : Slot} (hp : (f.member p).stage = .alive) :
    ((f.exit p).member x).Unreaped ↔ (f.member x).Unreaped := by
  by_cases hxp : x = p
  · subst hxp
    exact ⟨fun _ => Or.inl hp, fun _ => Or.inr (if_pos rfl)⟩
  · unfold Member.Unreaped
    rw [exit_stage f hxp]

theorem children_exit {p y : Slot} (hp : (f.member p).stage = .alive) (hyp : y ≠ p) :
    (f.exit p).children y =
      if f.initproc = some y then f.children y ∪ f.children p else f.children y := by
  ext x
  rw [mem_children, unreaped_exit hp]
  by_cases hx : (f.member x).Unreaped
  · by_cases hpar : (f.member x).parent = some p
    · rw [exit_parent_child f hx hpar]
      split
      · next hi => simp [hi, hx, hpar, mem_children]
      · next hi => simp [hi, hpar, mem_children, Ne.symm hyp]
    · rw [exit_parent_other f hpar]
      split
      · simp [hx, hpar, mem_children]
      · simp [mem_children]
  · split <;> simp [hx, mem_children]

theorem Balanced.exited {p y : Slot} {os : List Word} (h : Balanced evs f y)
    (hpst : (f.member p).stage = .alive) (hyp : y ≠ p) (hos : os.length = (f.children p).card) :
    Balanced (evs ++ [.exited (f.member p).pid os]) (f.exit p) y := by
  refine h.entry (e := some (.exited (f.member p).pid os)) rfl rfl ?_
  rw [children_exit hpst hyp]
  change 0 + (if _ then os.length else 0) + _ = 0 + _
  split
  · have hdisj : Disjoint (f.children y) (f.children p) := by
      refine Finset.disjoint_left.mpr fun x hxy hxp => hyp ?_
      have hy := (mem_children.mp hxy).1
      rw [(mem_children.mp hxp).1] at hy
      exact (Option.some.inj hy).symm
    rw [Finset.card_union_of_disjoint hdisj, hos]
    omega
  · rfl

theorem Balanced.newborn {p np : Slot} (hf : f.Sound) (hp : Pids evs f) (hE : Entries evs f)
    (hpst : (f.member p).stage = .alive) (hnp : (f.member np).stage = .embryo) :
    Balanced (evs ++ [.forked (f.member p).pid (f.member np).pid])
      (f.set np { f.member np with stage := .alive }) np := by
  have hnone : Balanced evs f np := by
    have hforks : forks evs (f.member np).pid = 0 := by
      refine List.countP_eq_zero.mpr fun ev hev hby => hE.embryo hnp hev ?_
      cases ev <;> simp_all [Event.forkedBy, Event.pids]
    have hwaits : waits evs (f.member np).pid = 0 := by
      refine List.countP_eq_zero.mpr fun ev hev hby => hE.embryo hnp hev ?_
      cases ev <;> simp_all [Event.waitedBy, Event.pids]
    have hinit : f.initproc ≠ some np := by
      obtain ⟨i, hi, hst⟩ := hf.init
      rw [hi]
      rintro ⟨⟩
      rw [hnp] at hst
      cases hst
    have hch : f.children np = ∅ := by
      refine Finset.eq_empty_of_forall_notMem fun x hx => ?_
      have hst := hf.parent_alive (mem_children.mp hx).2 (mem_children.mp hx).1
      rw [hnp] at hst
      cases hst
    unfold Balanced
    rw [hforks, hwaits, hch, if_neg hinit]
    rfl
  have hpid : (f.member p).pid ≠ (f.member np).pid := fun heq =>
    ne_of_stage hpst hnp nofun (hp.sole (by rw [hnp]; exact nofun) heq)
  have hch : (f.set np { f.member np with stage := .alive }).children np = f.children np :=
    children_set_of_not (not_mem_children (not_unreaped_of_embryo hnp)) fun hx => hf.irrefl hx.1
  refine hnone.entry (e := some (.forked (f.member p).pid (f.member np).pid)) ?_ rfl ?_
  · rw [set_self]
  · rw [Option.toList_some, forks_forked, if_neg hpid, hch]
    change 0 + (if _ then 0 else 0) + _ = 0 + _
    rw [ite_self]

theorem Balanced.step (hb : ∀ {p}, (f.member p).stage = .alive → Balanced evs f p) (hf : f.Sound)
    (hp : Pids evs f) (hE : Entries evs f) (hs : f.Step e f') {y : Slot}
    (hy : (f'.member y).stage = .alive) : Balanced (evs ++ e.toList) f' y := by
  cases hs with
  | silent he hn hi hm =>
    have heq := (hm y).eq_of_unreaped (Or.inr (Or.inl hy))
    rw [heq] at hy
    exact (hb hy).silent hy he hi hm
  | @alloc np hnp =>
    have hne : y ≠ np := by
      rintro rfl
      rw [alloc_member_self] at hy
      cases hy
    rw [alloc_member_ne hne] at hy
    exact (hb hy).alloc hnp hy
  | @forked p np hpst hnp hpar =>
    by_cases hne : y = np
    · subst hne
      exact Balanced.newborn hf hp hE hpst hnp
    · rw [set_of_ne _ _ hne] at hy
      exact (hb hy).forked hp hpst hy hnp hpar
  | @exited p os hpst hi hos =>
    have hyp : y ≠ p := by
      rintro rfl
      rw [show ((f.exit y).member y).stage = .zombie from if_pos rfl] at hy
      cases hy
    rw [exit_stage f hyp] at hy
    exact (hb hy).exited hpst hyp hos
  | @waited p z hpst hz hpar =>
    have hne : y ≠ z := by
      rintro rfl
      rw [set_self] at hy
      cases hy
    rw [set_of_ne _ _ hne] at hy
    exact (hb hy).waited hp hpst hy hz hpar

/-! ## Runs -/

structure Books (evs : List Event) (f : Family) : Prop where
  pids : Pids evs f
  entries : Entries evs f
  fate : ∀ {pre P c post}, evs = pre ++ .forked P c :: post → Fate f pre P c post
  balance : ∀ {p}, (f.member p).stage = .alive → Balanced evs f p

theorem Books.fate_step (hB : Books evs f) (hf : f.Sound) (hs : f.Step e f')
    (h : evs ++ e.toList = pre ++ .forked P c :: post) :
    Fate f' pre P c post := by
  have hold : ∀ {post'}, evs = pre ++ .forked P c :: post' →
      Fate f' pre P c (post' ++ e.toList) := by
    intro post' heq
    refine (hB.fate heq).step hf hB.pids (fun x hx hpid => ?_) hs
    have hev : Event.forked P c ∈ evs := by
      rw [heq]
      simp
    exact hB.entries.embryo hx hev (by rw [hpid]; simp [Event.pids])
  rcases Trace.snoc_eq_append_cons h with ⟨post', rfl, heq⟩ | ⟨rfl, rfl, rfl⟩
  · exact hold heq
  · obtain ⟨p, np, hpst, hnp, hpar, rfl, rfl, rfl⟩ := hs.of_forked
    refine .unreaped np ?_ (by rw [set_self]) (fun w hev => ?_) (Or.inl ⟨p, ?_, ?_, nofun⟩)
    · rw [set_self]
      exact Or.inl rfl
    · rw [List.append_nil] at hev
      exact hB.entries.reaped hev (by rw [hnp]; exact nofun) rfl
    · rwa [set_self]
    · rw [set_of_ne _ _ (ne_of_stage hpst hnp nofun)]

theorem Books.step (hB : Books evs f) (hf : f.Sound) (hs : f.Step e f')
    (hissued : issued (evs ++ e.toList) < 2 ^ 31) : Books (evs ++ e.toList) f' := by
  have hp' := hB.pids.step hf hs hissued
  exact ⟨hp', hB.entries.step hB.pids hp' hs, hB.fate_step hf hs,
    Balanced.step hB.balance hf hB.pids hB.entries hs⟩

theorem Books.of_init (h : f.Init) : Books [] f := by
  refine ⟨⟨h.carriers, fun {i} hi => ?_⟩, ⟨nofun, nofun, nofun⟩,
    fun {pre P c post} heq => ?_, fun {p} hp => ?_⟩
  · rw [h.initproc] at hi
    cases hi
    rw [h.first]
  · cases pre <;> cases heq
  · have hch : f.children p = ∅ := by
      refine Finset.eq_empty_of_forall_notMem fun x hx => ?_
      obtain ⟨hpar, hux⟩ := mem_children.mp hx
      rw [h.only hux.ne_free, h.first] at hpar
      cases hpar
    unfold Balanced
    rw [hch]
    change 0 + (if _ then 0 else 0) = 0 + 0
    rw [ite_self]

theorem Run.books {Cpu : Type} {tr : List (Act Cpu × Option Event)} (h : Run tr f)
    (hissued : issued (events tr) < 2 ^ 31) : Books (events tr) f := by
  have hall : f.Sound ∧ (issued (events tr) < 2 ^ 31 → Books (events tr) f) := by
    refine Trace.Run.history (I := fun tr f => f.Sound ∧
      (issued (events tr) < 2 ^ 31 → Books (events tr) f)) ?_ ?_ h
    · intro f hf
      exact ⟨hf.sound, fun _ => .of_init hf⟩
    · rintro tr f l f' ⟨hf, hB⟩ hs
      refine ⟨hf.step hs, fun hlt => ?_⟩
      rw [Trace.events_snoc] at hlt ⊢
      refine (hB ?_).step hf hs hlt
      rw [issued_append] at hlt
      omega
  exact hall.2 hissued

end Family

theorem Life.stage_iff_alive (x : Life) : x.member.stage = .alive ↔ x.Alive := by
  unfold Life.member Life.Alive
  cases x.state <;> simp [ProcState.stage]

theorem Life.unreaped_iff (x : Life) : x.member.Unreaped ↔ x.Unreaped := by
  unfold Member.Unreaped Life.Unreaped
  rw [Life.stage_iff_alive]
  refine or_congr_right ?_
  unfold Life.member
  cases x.state <;> simp [ProcState.stage]

variable {Cpu : Type} [DecidableEq Cpu]

/-- While fewer than `2 ^ 31` pids have been given out: every process that `fork` has
completed and `wait` has not returned, but init, has a living parent; no two processes
have one pid; a child is still there, or was returned by exactly one `wait`, by the process
that forked it or, once that had exited, by init; and the forks of a living process, with
the orphans passed on if it is init, are its waits and its children. -/
theorem children_conserved {tr : List (Act Cpu × Option Event)} {s : Sys Cpu Ptable}
    (h : Sys.Run tr s) (hissued : issued (events tr) < 2 ^ 31) :
    (∀ p, (s.tbl.proc p).life.Unreaped → s.tbl.initproc ≠ some p →
      ∃ q, (s.tbl.proc p).parent = some q ∧ (s.tbl.proc q).life.Alive) ∧
    (∀ p q, (s.tbl.proc p).state ≠ .unused → (s.tbl.proc q).state ≠ .unused →
      (s.tbl.proc p).pid = (s.tbl.proc q).pid → p = q) ∧
    (∀ pre P c post, events tr = pre ++ .forked P c :: post →
      ((∃ x, (s.tbl.proc x).life.Unreaped ∧ (s.tbl.proc x).pid = c) ∧
        ∀ w, .waited w c ∉ events tr) ∨
      ((∀ x, (s.tbl.proc x).life.Unreaped → (s.tbl.proc x).pid ≠ c) ∧
        ∃ mid w rest, post = mid ++ .waited w c :: rest ∧
          (∀ w', .waited w' c ∉ pre ++ mid ++ rest) ∧
          ((w = P ∧ ∀ os, .exited P os ∉ mid) ∨
            ((∃ i, s.tbl.initproc = some i ∧ (s.tbl.proc i).pid = w) ∧
              ∃ os, .exited P os ∈ mid)))) ∧
    ∀ p, (s.tbl.proc p).life.Alive →
      forks (events tr) (s.tbl.proc p).pid +
          (if s.tbl.initproc = some p then adopted (events tr) else 0) =
        waits (events tr) (s.tbl.proc p).pid +
          (Finset.univ.filter fun x => (s.tbl.proc x).parent = some p ∧
            (s.tbl.proc x).life.Unreaped).card := by
  have hrun := h.world.1.family
  have hf := hrun.sound
  have hB := hrun.books hissued
  have hun : ∀ x, (s.world.tbl.family.member x).Unreaped ↔ (s.tbl.proc x).life.Unreaped :=
    fun x => Life.unreaped_iff _
  have hal : ∀ x, (s.world.tbl.family.member x).stage = .alive ↔ (s.tbl.proc x).life.Alive :=
    fun x => Life.stage_iff_alive _
  have hfree : ∀ x, (s.tbl.proc x).state ≠ .unused →
      (s.world.tbl.family.member x).stage ≠ .free := by
    intro x hx hst
    refine hx ?_
    change (s.tbl.proc x).state.stage = .free at hst
    revert hst
    cases (s.tbl.proc x).state <;> simp [ProcState.stage]
  refine ⟨fun p hp hi => ?_, fun p q hp hq => ?_, fun pre P c post heq => ?_, fun p hp => ?_⟩
  · obtain ⟨q, hq, hst⟩ := hf.parent ((hun p).mpr hp) hi
    exact ⟨q, hq, (hal q).mp hst⟩
  · exact hB.pids.sole (hfree q hq)
  · cases hB.fate heq with
    | unreaped x hx hpid hw hpar =>
      refine Or.inl ⟨⟨x, (hun x).mp hx, hpid⟩, fun w hev => hw w ?_⟩
      rw [heq] at hev
      simpa using hev
    | reaped mid w rest hpost hw hx hby =>
      refine Or.inr ⟨fun x hx' => hx x ((hun x).mpr hx'), mid, w, rest, hpost, hw, ?_⟩
      rcases hby with hby | ⟨rfl, hos⟩
      · exact Or.inl hby
      · obtain ⟨i, hi, -⟩ := hf.init
        exact Or.inr ⟨⟨i, hi, hB.pids.init hi⟩, hos⟩
  · have hbal := hB.balance ((hal p).mpr hp)
    unfold Family.Balanced Family.children at hbal
    simp only [hun] at hbal
    exact hbal

/-- Init forks a child, which forks one itself and exits, and init waits for its child: it
is left with the grandchild. -/
theorem children_conserved_orphan :
    ∃ (tr : _) (s : Sys Bool Ptable), Sys.Run tr s ∧ issued (events tr) < 2 ^ 31 ∧
      events tr = [.alloc 1 2, .forked 1 2, .alloc 2 3, .forked 2 3, .exited 2 [3], .waited 1 2] ∧
      (s.tbl.proc 2).life.Unreaped ∧ ∃ q, (s.tbl.proc 2).parent = some q ∧
        (s.tbl.proc q).life.Alive := by
  obtain ⟨tr, s, hrun, hissued, hev, hun, hi⟩ := Trace.exec_reaches (f := Sys.next) Sys.start_init
    ([.sched false, .resume false] ++ forkOn false ++ [.sched true, .resume true] ++ forkOn true ++
      [.exit true, .wait false])
    (fun tr s => issued (events tr) < 2 ^ 31 ∧
      events tr = [.alloc 1 2, .forked 1 2, .alloc 2 3, .forked 2 3, .exited 2 [3],
        .waited 1 2] ∧ (s.tbl.proc 2).life.Unreaped ∧ s.tbl.initproc ≠ some 2)
    (by decide +kernel)
  exact ⟨tr, s, hrun, hissued, hev, hun, (children_conserved hrun hissued).1 2 hun hi⟩

end Xv6
