import Xv6.Fs.Calls

/-!
# Processes on the file system

Any number of processes make system calls on files, one call of the file system at a time
and in any order. `fork` fills in a slot of the process table; `exit` leaves one that `wait`
frees. What the processes hold together is as `Good` says in every state they reach.
-/

open Function (update update_of_ne update_self)

namespace Xv6

namespace Fs

inductive Slot (T : Type)
  | unused
  /-- The parent is in `fork`, which fills in the slot. -/
  | embryo (parent : T)
  | used
deriving DecidableEq

structure World (T : Type) where
  sys : Prog.World T Call Own Shared Int
  slot : T → Slot T

def Own.resting (me : Caller) (mode : Mode) : Own where
  me := me
  np := none
  mode := mode
  tx := { logged := ∅, freed := 0, cost := 0 }
  ops := 0
  counts := inProc me

namespace World

variable {T : Type}

def fs (w : World T) : Fs := w.sys.shared.fs

def own (w : World T) (t : T) : Own := (w.sys.procs t).own

def prog (w : World T) (t : T) : Option (Program Int) := (w.sys.procs t).prog

def set [DecidableEq T] (w : World T) (t : T) (o : Own) (p : Option (Program Int)) : World T :=
  { w with sys := { w.sys with procs := update w.sys.procs t { own := o, prog := p } } }

section Set

variable [DecidableEq T] {w : World T} {t u : T} {o : Own} {p : Option (Program Int)}

@[simp] theorem own_set_self : (w.set t o p).own t = o := by
  simp [set, own]

theorem own_set_of_ne (h : u ≠ t) : (w.set t o p).own u = w.own u := by
  simp [set, own, h]

theorem prog_set_of_ne (h : u ≠ t) : (w.set t o p).prog u = w.prog u := by
  simp [set, prog, h]

end Set

def Ready (w : World T) (t : T) : Prop :=
  w.slot t = .used ∧ (w.prog t).isNone = true ∧
    ((w.own t).mode = .still ∨ (w.own t).mode = .files)

instance [DecidableEq T] (w : World T) (t : T) : Decidable (w.Ready t) :=
  inferInstanceAs (Decidable (_ ∧ _ ∧ _))

theorem Ready.not_fork {w : World T} {t : T} (h : w.Ready t) : (w.own t).mode ≠ .fork := by
  intro hm
  rcases h.2.2 with h | h
  · exact Mode.noConfusion (h.symm.trans hm)
  · exact Mode.noConfusion (h.symm.trans hm)

end World

inductive Action (T : Type)
  | start (t : T) (q : Request)
  /-- A process starts `fork`, with a slot that `allocproc` has found. -/
  | fork (t u : T) (pid : Int)
  | hatch (t u : T)
  | reap (t : T)
  | advance (t : T)
  | outside (console : Option (List Byte)) (pipe : Int) (memory : Bool) (stack : Nat → Byte)

variable {T : Type} [DecidableEq T]

def next (w : World T) : Action T → Option (World T × Unit)
  | .start t q =>
    if w.Ready t then some (w.set t { w.own t with mode := q.mode } (some q.program), ())
    else none
  | .fork t u pid =>
    if w.Ready t ∧ w.slot u = .unused then
      some ({ w.set t { w.own t with mode := .fork } (some (fork (w.own u).me pid)) with
        slot := update w.slot u (.embryo t) }, ())
    else none
  | .hatch t u =>
    if w.slot u = .embryo t ∧ (w.prog t).isNone = true then
      match (w.own t).np with
      | some np =>
        let parent := { w.own t with
          np := none, mode := .still, counts := (w.own t).counts - inProc np }
        some ({ (w.set t parent none).set u (Own.resting np .still) none with
          slot := update w.slot u .used }, ())
      | none =>
        some ({ w.set t { w.own t with mode := .still } none with
          slot := update w.slot u .unused }, ())
    else none
  | .reap t =>
    if w.slot t = .used ∧ (w.prog t).isNone = true ∧ (w.own t).mode = .exit then
      some ({ w with slot := update w.slot t .unused }, ())
    else none
  | .advance t => (w.sys.advance act t).map fun sys => ({ w with sys := sys }, ())
  | .outside console pipe memory stack =>
    some ({ w with
      sys := { w.sys with
        shared := { w.sys.shared with
          fs := { w.sys.shared.fs with
            console := console, pipe := pipe, memory := memory, stack := stack } } } }, ())

/-- No call is in progress. The free map is right, no file has a hole, and the counts are
those of the references that there are. -/
structure Init [Fintype T] (w : World T) : Prop where
  own : ∀ t, w.own t = Own.resting (w.own t).me (w.own t).mode
  prog : ∀ t, w.prog t = none
  slot : ∀ t, w.slot t = .used ∨ (w.slot t = .unused ∧ (w.own t).mode = .exit)
  gone : ∀ t, (w.own t).mode = .exit →
    (w.own t).me.ofile = (fun _ => none) ∧ (w.own t).me.cwd = none
  seen : w.sys.shared.seen = []
  calm : w.sys.shared.calm = true
  sound : w.fs.Sound
  inj : ∀ ip jp, 0 < (w.fs.icache ip).ref → 0 < (w.fs.icache jp).ref →
    (w.fs.icache ip).inum = (w.fs.icache jp).inum → ip = jp
  refs : ∀ ip, (w.fs.icache ip).ref = w.fs.opens ip + ∑ t, (inProc (w.own t).me).1 ip
  busy : ∀ ip, (w.fs.icache ip).busy = false
  valid : ∀ ip, 0 < (w.fs.icache ip).ref → (w.fs.icache ip).valid = true ∧
    (w.fs.icache ip).dev = ROOTDEV ∧
    w.fs.dinode (w.fs.icache ip).inum = (w.fs.icache ip).d ∧ (w.fs.icache ip).d.type ≠ .free
  files : ∀ f, (w.fs.ftable f).ref = ∑ t, (w.own t).me.slots f
  unused : ∀ f, (w.fs.ftable f).ref = 0 → (w.fs.ftable f).type = .none
  ends : PipeEnds 0 w.fs w.sys.shared.closed

abbrev Runs [Fintype T] (tr : List (Action T × Unit)) (w : World T) : Prop :=
  Trace.Run Init (Trace.Next next) tr w

/-! ## What the processes hold -/

/-- The processes hold what they need. A slot that is not in use has no references, and a
process fills in one slot at a time. -/
structure World.Ok [Fintype T] (sb : Superblock) (base : Nat → Attr) (lost : Set Nat)
    (w : World T) : Prop where
  holds : w.sys.Holds wp (Knows sb) (fun _ => AtRest) (Good sb base lost)
  idle : ∀ t, w.slot t ≠ .used → w.prog t = none ∧ (w.own t).mode = .exit
  parent : ∀ t u, w.slot u = .embryo t → (w.own t).mode = .fork
  once : ∀ t u v, w.slot u = .embryo t → w.slot v = .embryo t → u = v

section Ok

variable [Fintype T] {sb : Superblock} {base : Nat → Attr} {lost : Set Nat} {w w' : World T}
  {t u : T} {H : Holding} {o : Own} {mode : Mode}

theorem Knows.start (hk : Knows sb o H) (hr : AtRest H) (hnp : o.np = none) (mode : Mode) :
    ∃ n, H.toks = o.me.tokens n ∧
      Knows sb { o with mode := mode } ⟨o.me.tokens n, ⟨o.me, .outside, ⟨mode, none⟩⟩⟩ := by
  obtain ⟨n, m, htoks⟩ := hr.toks
  rw [← hk.np, hnp, ← hk.me] at htoks
  change H.toks = o.me.tokens n + 0 at htoks
  rw [add_zero] at htoks
  have hcov := hk.covers
  have hops := hk.ops
  have hcounts := hk.counts
  rw [hr.ledger] at hcov hops
  rw [htoks] at hcounts
  refine ⟨n, htoks, rfl, hnp, rfl, hcov, hops, hcounts, fun _ => ?_, fun hne => absurd hnp hne⟩
  rw [hcounts, tally_tokens]
  rfl

theorem Knows.resting (sb : Superblock) (me : Caller) (n : Nat) (mode : Mode) :
    Knows sb (Own.resting me mode) ⟨me.tokens n, ⟨me, .outside, ⟨mode, none⟩⟩⟩ where
  me := rfl
  np := rfl
  mode := rfl
  covers := ⟨rfl, rfl⟩
  ops := rfl
  counts := (tally_tokens me n).symm
  still := fun _ => rfl
  parent := fun hne => absurd rfl hne

theorem AtRest.resting {me : Caller} (n : Nat)
    (hgone : mode = .exit → me.ofile = (fun _ => none) ∧ me.cwd = none) :
    AtRest ⟨me.tokens n, ⟨me, .outside, ⟨mode, none⟩⟩⟩ :=
  ⟨rfl, ⟨n, 0, (add_zero _).symm⟩, hgone⟩

namespace World.Ok

omit [DecidableEq T] in
theorem at_rest (hw : w.Ok sb base lost) (ht : w.prog t = none) :
    ∃ H, Knows sb (w.own t) H ∧ AtRest H := by
  obtain ⟨h, -, hall⟩ := hw.holds
  exact ⟨h t, (hall t).1, (hall t).idle ht⟩

omit [DecidableEq T] in
theorem no_refs (hw : w.Ok sb base lost) (ht : w.slot t ≠ .used) :
    (w.own t).me.ofile = (fun _ => none) ∧ (w.own t).me.cwd = none := by
  obtain ⟨hprog, hmode⟩ := hw.idle t ht
  obtain ⟨H, hk, hrest⟩ := hw.at_rest hprog
  rw [hk.me]
  exact hrest.gone (hk.mode ▸ hmode)

theorem call {p : Program Int} (hw : w.Ok sb base lost) (ht : w.Ready t)
    (hp : ∀ me n, p.Safe wp ⟨Caller.tokens me n, ⟨me, .outside, ⟨mode, none⟩⟩⟩ fun _ => AtRest) :
    (w.set t { w.own t with mode := mode } (some p)).sys.Holds wp (Knows sb) (fun _ => AtRest)
      (Good sb base lost) := by
  have hidle := Option.isNone_iff_eq_none.mp ht.2.1
  refine hw.holds.replace fun H hH => ?_
  have hnp : (w.own t).np = none := by
    by_contra hne
    exact ht.not_fork (hH.1.parent hne)
  obtain ⟨n, htoks, hk⟩ := hH.1.start (hH.idle hidle) hnp mode
  refine ⟨_, htoks.symm, hk, ?_⟩
  exact (hp _ _).mono wp_mono fun _ _ hrest _ _ => hrest

/-- A process starts a call that is not `fork`. -/
theorem run {p : Program Int} (hw : w.Ok sb base lost) (ht : w.Ready t)
    (hp : ∀ me n, p.Safe wp ⟨Caller.tokens me n, ⟨me, .outside, ⟨mode, none⟩⟩⟩ fun _ => AtRest) :
    (w.set t { w.own t with mode := mode } (some p)).Ok sb base lost where
  holds := hw.call ht hp
  idle := by
    intro u hu
    have hne : u ≠ t := by
      rintro rfl
      exact hu ht.1
    rw [prog_set_of_ne hne, own_set_of_ne hne]
    exact hw.idle u hu
  parent := by
    intro v u hu
    have hm := hw.parent v u hu
    have hne : v ≠ t := by
      rintro rfl
      exact ht.not_fork hm
    rwa [own_set_of_ne hne]
  once := hw.once

theorem fork {pid : Int} (hw : w.Ok sb base lost) (ht : w.Ready t) (hu : w.slot u = .unused) :
    ({ w.set t { w.own t with mode := .fork } (some (Fs.fork (w.own u).me pid)) with
      slot := update w.slot u (.embryo t) } : World T).Ok sb base lost := by
  have hfree : w.slot u ≠ .used := by
    rw [hu]
    exact nofun
  obtain ⟨hfd, hcwd⟩ := hw.no_refs hfree
  have hut : u ≠ t := by
    rintro rfl
    exact hfree ht.1
  have hnone : ∀ v, w.slot v ≠ .embryo t := fun v hv => ht.not_fork (hw.parent t v hv)
  constructor
  case holds => exact hw.call ht fun _ _ => fork_safe hfd hcwd
  case idle =>
    intro v hv
    have hvt : v ≠ t := by
      rintro rfl
      dsimp only at hv
      rw [update_of_ne hut.symm] at hv
      exact hv ht.1
    refine (prog_set_of_ne hvt).symm ▸ (own_set_of_ne hvt).symm ▸ hw.idle v ?_
    by_cases hvu : v = u
    · subst hvu
      exact hfree
    · dsimp only at hv
      rwa [update_of_ne hvu] at hv
  case parent =>
    intro v x hx
    by_cases hvt : v = t
    · subst hvt
      exact congrArg Own.mode own_set_self
    · dsimp only at hx
      refine (congrArg Own.mode (own_set_of_ne hvt)).trans (hw.parent v x ?_)
      by_cases hxu : x = u
      · subst hxu
        rw [update_self] at hx
        exact absurd (Slot.embryo.inj hx).symm hvt
      · rwa [update_of_ne hxu] at hx
  case once =>
    intro v x y hx hy
    dsimp only at hx hy
    by_cases hxu : x = u
    · by_cases hyu : y = u
      · rw [hxu, hyu]
      · rw [hxu, update_self] at hx
        rw [update_of_ne hyu, ← Slot.embryo.inj hx] at hy
        exact absurd hy (hnone y)
    · by_cases hyu : y = u
      · rw [hyu, update_self] at hy
        rw [update_of_ne hxu, ← Slot.embryo.inj hy] at hx
        exact absurd hx (hnone x)
      · rw [update_of_ne hxu] at hx
        rw [update_of_ne hyu] at hy
        exact hw.once v x y hx hy

omit [DecidableEq T] in
theorem embryo (hw : w.Ok sb base lost) (hu : w.slot u = .embryo t) :
    w.prog u = none ∧ (w.own u).mode = .exit ∧ w.slot t = .used ∧ u ≠ t := by
  have hfree : w.slot u ≠ .used := by
    rw [hu]
    exact nofun
  obtain ⟨hidle, hexit⟩ := hw.idle u hfree
  have hfork := hw.parent t u hu
  refine ⟨hidle, hexit, ?_, ?_⟩
  · by_contra hne
    exact Mode.noConfusion ((hw.idle t hne).2.symm.trans hfork)
  · rintro rfl
    exact Mode.noConfusion (hexit.symm.trans hfork)

theorem hatched {x : Slot T} (hw : w.Ok sb base lost) (hu : w.slot u = .embryo t)
    (hx : ∀ v, x ≠ .embryo v)
    (hholds : w'.sys.Holds wp (Knows sb) (fun _ => AtRest) (Good sb base lost))
    (hslot : w'.slot = update w.slot u x)
    (hself : x ≠ .used → w'.prog u = none ∧ (w'.own u).mode = .exit)
    (hother : ∀ v, v ≠ t → v ≠ u → w'.prog v = w.prog v ∧ w'.own v = w.own v) :
    w'.Ok sb base lost := by
  obtain ⟨-, hexit, hused, -⟩ := hw.embryo hu
  have hback : ∀ v y, w'.slot y = .embryo v → y ≠ u ∧ w.slot y = .embryo v := by
    intro v y hy
    rw [hslot] at hy
    have hyu : y ≠ u := by
      rintro rfl
      rw [update_self] at hy
      exact hx v hy
    rw [update_of_ne hyu] at hy
    exact ⟨hyu, hy⟩
  constructor
  case holds => exact hholds
  case idle =>
    intro v hv
    rw [hslot] at hv
    by_cases hvu : v = u
    · subst hvu
      rw [update_self] at hv
      exact hself hv
    · rw [update_of_ne hvu] at hv
      have hvt : v ≠ t := by
        rintro rfl
        exact hv hused
      rw [(hother v hvt hvu).1, (hother v hvt hvu).2]
      exact hw.idle v hv
  case parent =>
    intro v y hy
    obtain ⟨hyu, hy⟩ := hback v y hy
    have hfork := hw.parent v y hy
    have hvt : v ≠ t := by
      rintro rfl
      exact hyu (hw.once v y u hy hu)
    have hvu : v ≠ u := by
      rintro rfl
      exact Mode.noConfusion (hexit.symm.trans hfork)
    rwa [(hother v hvt hvu).2]
  case once => exact fun v y z hy hz => hw.once v y z (hback v y hy).2 (hback v z hz).2

theorem hatch {np : Caller} (hw : w.Ok sb base lost) (hu : w.slot u = .embryo t)
    (hprog : w.prog t = none) (hnp : (w.own t).np = some np) :
    ({ (w.set t { w.own t with
        np := none, mode := .still, counts := (w.own t).counts - inProc np } none).set u
          (Own.resting np .still) none with
      slot := update w.slot u .used } : World T).Ok sb base lost := by
  obtain ⟨hidle, hexit, -, hut⟩ := hw.embryo hu
  refine hw.hatched (x := .used) hu nofun ?_ rfl (fun hne => absurd rfl hne) ?_
  · refine hw.holds.exchange hut fun h k hh hk => ?_
    have hrest := hh.idle hprog
    obtain ⟨n, m, htoks⟩ := hrest.toks
    rw [← hh.1.np, ← hh.1.me] at htoks
    change h.toks = (w.own t).me.tokens n + (w.own t).np.elim 0 (Caller.tokens · m) at htoks
    rw [hnp] at htoks
    change h.toks = (w.own t).me.tokens n + np.tokens m at htoks
    -- the slot had no references
    have hnone : (w.own u).np = none := by
      by_contra hne
      exact Mode.noConfusion (hexit.symm.trans (hk.1.parent hne))
    obtain ⟨c, hempty, -⟩ := hk.1.start (hk.idle hidle) hnone .exit
    have hfree : w.slot u ≠ .used := by
      rw [hu]
      exact nofun
    obtain ⟨hfd, hcwd⟩ := hw.no_refs hfree
    refine ⟨⟨(w.own t).me.tokens n, ⟨(w.own t).me, .outside, ⟨.still, none⟩⟩⟩,
      ⟨np.tokens m, ⟨np, .outside, ⟨.still, none⟩⟩⟩, ?_, ⟨?_, AtRest.resting n nofun⟩,
      Knows.resting sb np m .still, AtRest.resting m nofun⟩
    · rw [htoks, hempty, show (w.sys.procs u).own.me.tokens c = 0 from
        Caller.tokens_eq_zero hfd hcwd, add_zero]
    · have hcov := hh.1.covers
      have hops := hh.1.ops
      rw [hrest.ledger] at hcov hops
      have hcounts : (w.own t).counts - inProc np = inProc (w.own t).me := by
        rw [show (w.own t).counts = tally h.toks from hh.1.counts, htoks, tally_add, tally_tokens,
          tally_tokens, add_sub_cancel_right]
      refine ⟨rfl, rfl, rfl, hcov, hops, ?_, fun _ => ?_, fun hne => absurd rfl hne⟩
      · exact hcounts.trans (tally_tokens _ n).symm
      · exact congrArg (fun x : Counts => x.2.2) hcounts
  · intro v hvt hvu
    exact ⟨(prog_set_of_ne hvu).trans (prog_set_of_ne hvt),
      (own_set_of_ne hvu).trans (own_set_of_ne hvt)⟩

theorem unhatch (hw : w.Ok sb base lost) (hu : w.slot u = .embryo t)
    (hprog : w.prog t = none) (hnp : (w.own t).np = none) :
    ({ w.set t { w.own t with mode := .still } none with
      slot := update w.slot u .unused } : World T).Ok sb base lost := by
  obtain ⟨hidle, hexit, -, hut⟩ := hw.embryo hu
  refine hw.hatched (x := .unused) hu nofun ?_ rfl (fun _ => ?_) ?_
  · refine hw.holds.replace fun H hH => ?_
    obtain ⟨n, htoks, hk⟩ := hH.1.start (hH.idle hprog) hnp .still
    exact ⟨_, htoks.symm, hk, AtRest.resting n nofun⟩
  · exact (prog_set_of_ne hut).symm ▸ (own_set_of_ne hut).symm ▸ ⟨hidle, hexit⟩
  · exact fun v hvt _ => ⟨prog_set_of_ne hvt, own_set_of_ne hvt⟩

theorem reap (hw : w.Ok sb base lost) (hprog : w.prog t = none) (hmode : (w.own t).mode = .exit) :
    ({ w with slot := update w.slot t .unused } : World T).Ok sb base lost := by
  have hsame : ∀ u v, update w.slot t .unused u = .embryo v → w.slot u = .embryo v := by
    intro u v hu
    by_cases hut : u = t
    · rw [hut, update_self] at hu
      cases hu
    · rwa [update_of_ne hut] at hu
  constructor
  case holds => exact hw.holds
  case idle =>
    intro u hu
    by_cases hut : u = t
    · subst hut
      exact ⟨hprog, hmode⟩
    · dsimp only at hu
      rw [update_of_ne hut] at hu
      exact hw.idle u hu
  case parent => exact fun v u hu => hw.parent v u (hsame u v hu)
  case once => exact fun v x y hx hy => hw.once v x y (hsame x v hx) (hsame y v hy)

theorem advance {sys : Prog.World T Call Own Shared Int} (hw : w.Ok sb base lost)
    (hstep : w.sys.advance act t = some sys) :
    ({ w with sys := sys } : World T).Ok sb base lost := by
  -- the process is in a call, and stays in one of the same kind
  have hprog : w.prog t ≠ none := by
    intro hnone
    unfold Prog.World.advance at hstep
    rw [show (w.sys.procs t).prog = none from hnone] at hstep
    cases hstep
  have hsame : ∀ u, (sys.procs u).own.mode = (w.own u).mode := by
    intro u
    obtain ⟨a, -, rfl⟩ | ⟨β, c, k, b, s, d, -, hok, rfl⟩ := Prog.World.advance_cases hstep
    · by_cases hu : u = t
      · subst hu
        simp only [update_self]
        rfl
      · simp only [update_of_ne hu]
        rfl
    · by_cases hu : u = t
      · subst hu
        obtain ⟨me, s', ev, -, -, rfl⟩ := act_ok hok
        simp only [update_self]
        rfl
      · simp only [update_of_ne hu]
        rfl
  have hother : ∀ u, u ≠ t → (sys.procs u).prog = w.prog u := by
    intro u hu
    obtain ⟨a, -, rfl⟩ | ⟨β, c, k, b, s, d, -, -, rfl⟩ := Prog.World.advance_cases hstep
    · simp only [update_of_ne hu]
      rfl
    · simp only [update_of_ne hu]
      rfl
  constructor
  case holds => exact hw.holds.advance (calls_sound sb base lost) hstep
  case idle =>
    intro u hu
    obtain ⟨hp, hm⟩ := hw.idle u hu
    have hut : u ≠ t := by
      rintro rfl
      exact hprog hp
    exact ⟨(hother u hut).trans hp, (hsame u).trans hm⟩
  case parent => exact fun v u hu => (hsame v).trans (hw.parent v u hu)
  case once => exact hw.once

omit [DecidableEq T] in
theorem outside (hw : w.Ok sb base lost) (console : Option (List Byte)) (pipe : Int)
    (memory : Bool) (stack : Nat → Byte) :
    ({ w with
      sys := { w.sys with
        shared := { w.sys.shared with
          fs := { w.sys.shared.fs with
            console := console, pipe := pipe, memory := memory, stack := stack } } } } :
      World T).Ok sb base lost where
  holds := by
    refine hw.holds.share fun M hg => ⟨?_, ?_, ?_, ?_⟩
    · exact hg.inv.congr rfl rfl rfl
    · exact hg.recorded.keep (fun _ => Iff.rfl) (fun _ => rfl) fun _ _ => rfl
    · exact hg.linked.keep (fun _ hb => hb) (fun _ => ⟨rfl, rfl⟩) fun _ hk => ⟨hk, rfl⟩
    · exact hg.ends.keep (fun _ _ => rfl) rfl rfl
  idle := hw.idle
  parent := hw.parent
  once := hw.once

/-- Every action keeps what the processes hold. -/
theorem next {a : Action T} {e : Unit} (hw : w.Ok sb base lost)
    (h : Fs.next w a = some (w', e)) : w'.Ok sb base lost := by
  cases a with
  | start t q =>
    dsimp only [Fs.next] at h
    split at h
    · next ht =>
      cases h
      exact hw.run ht fun _ _ => q.program_safe
    · cases h
  | fork t u pid =>
    dsimp only [Fs.next] at h
    split at h
    · next ht =>
      cases h
      exact hw.fork ht.1 ht.2
    · cases h
  | hatch t u =>
    dsimp only [Fs.next] at h
    split at h
    · next ht =>
      have hprog := Option.isNone_iff_eq_none.mp ht.2
      split at h
      · next np hnp =>
        cases h
        exact hw.hatch ht.1 hprog hnp
      · next hnp =>
        cases h
        exact hw.unhatch ht.1 hprog hnp
    · cases h
  | reap t =>
    dsimp only [Fs.next] at h
    split at h
    · next ht =>
      cases h
      exact hw.reap (Option.isNone_iff_eq_none.mp ht.2.1) ht.2.2
    · cases h
  | advance t =>
    obtain ⟨sys, hsys, heq⟩ := Option.map_eq_some_iff.mp h
    cases heq
    exact hw.advance hsys
  | outside console pipe memory stack =>
    cases h
    exact hw.outside console pipe memory stack

end World.Ok

end Ok

/-! ## The start -/

section Init

variable [Fintype T] {w : World T}

def World.cwdInum (w : World T) (t : T) : Nat :=
  match (w.own t).me.cwd with
  | some ip => (w.fs.icache ip).inum
  | none => 0

def World.initial (w : World T) (t : T) : Holding :=
  ⟨(w.own t).me.tokens (w.cwdInum t), ⟨(w.own t).me, .outside, ⟨(w.own t).mode, none⟩⟩⟩

/-- Every inode that is in use has links, or somebody refers to it; but for some. -/
def World.Tidy (w : World T) (lost : Set Nat) : Prop :=
  ∀ m ∉ lost, (w.fs.dinode m).type ≠ .free → (w.fs.dinode m).nlink ≠ 0 ∨
    ∃ ip, 0 < (w.fs.icache ip).ref ∧ (w.fs.icache ip).inum = m

namespace Init

omit [DecidableEq T] in
theorem mem_initial {a : Token} (ha : a ∈ ∑ t, (w.initial t).toks) :
    (∃ ip, a = .ref (.own ip (w.fs.icache ip).inum)) ∨ ∃ f, a = .fref f := by
  obtain ⟨t, -, ha⟩ := Multiset.mem_sum.mp ha
  rcases Caller.mem_tokens ha with ⟨ip, hc, rfl⟩ | ⟨fd, f, -, rfl⟩
  · left
    refine ⟨ip, ?_⟩
    unfold World.cwdInum
    rw [hc]
  · exact Or.inr ⟨f, rfl⟩

omit [DecidableEq T] in
theorem tally_initial : tally (∑ t, (w.initial t).toks) = ∑ t, inProc (w.own t).me := by
  rw [tally_sum]
  exact Finset.sum_congr rfl fun t _ => tally_tokens _ _

omit [DecidableEq T] in
theorem not_lock {ip : InodePtr} {h : Handle} {p : Phase} :
    .lock h p ∉ (∑ t, (w.initial t).toks).filter (·.on ip) := by
  intro hmem
  rcases mem_initial (Multiset.mem_filter.mp hmem).1 with ⟨jp, heq⟩ | ⟨f, heq⟩
  · cases heq
  · cases heq

omit [DecidableEq T] in
theorem entry (h : Init w) (calm : Prop) (ip : InodePtr) :
    EntryOk calm ((∑ t, (w.initial t).toks).filter (·.on ip)) (w.fs.opens ip)
      (w.fs.icache ip) (w.fs.dinode (w.fs.icache ip).inum) := by
  have howns : (owns ((∑ t, (w.initial t).toks).filter (·.on ip)) : Int) =
      ∑ t, (inProc (w.own t).me).1 ip := by
    rw [← tally_refs, tally_initial, Prod.fst_sum, Finset.sum_apply]
  have hlocks : locks ((∑ t, (w.initial t).toks).filter (·.on ip)) = 0 := by
    apply Multiset.countP_eq_zero.mpr
    intro tok htok hlock
    cases tok with
    | lock h p => exact not_lock htok
    | _ => cases hlock
  have hrefs : (owns ((∑ t, (w.initial t).toks).filter (·.on ip)) : Int) + w.fs.opens ip =
      (w.fs.icache ip).ref := by
    rw [howns, h.refs ip, add_comm]
  constructor
  case refs => exact hrefs
  case inum =>
    intro tok htok hd hh
    obtain ⟨hmem, hon⟩ := Multiset.mem_filter.mp htok
    rcases mem_initial hmem with ⟨jp, rfl⟩ | ⟨f, rfl⟩
    · cases hh
      have hj : jp = ip := of_decide_eq_true hon
      subst hj
      rfl
    · cases hh
  case busy =>
    rw [h.busy ip, hlocks]
    simp
  case once =>
    rw [hlocks]
    exact Nat.zero_le 1
  case phase => exact fun hd p hmem => absurd hmem not_lock
  case idle => exact fun href _ _ => (h.valid ip href).2.2
  case dev => exact fun href => (h.valid ip href).2.1
  case live =>
    intro hrel
    refine ⟨(h.valid ip ?_).1, fun hd p hmem => absurd hmem not_lock⟩
    rcases hrel with hfiles | ⟨jp, n, hmem⟩
    · omega
    · have : 0 < owns ((∑ t, (w.initial t).toks).filter (·.on ip)) := owns_pos hmem rfl
      omega
  case sole => exact fun _ hd p hmem => absurd hmem not_lock

omit [DecidableEq T] in
theorem file (h : Init w) (f : FilePtr) :
    FileOk ((∑ t, (w.initial t).toks).filter (·.of f)) (w.fs.ftable f) where
  refs := by
    rw [← tally_files, tally_initial, Prod.snd_sum, Prod.snd_sum, Prod.fst_sum,
      Finset.sum_apply, h.files f]
    rfl
  ip := by
    intro tok htok g ip n hh
    rcases mem_initial (Multiset.mem_filter.mp htok).1 with ⟨jp, rfl⟩ | ⟨f', rfl⟩
    · cases hh
    · cases hh
  new := by
    intro g hmem
    rcases mem_initial (Multiset.mem_filter.mp hmem).1 with ⟨jp, heq⟩ | ⟨f', heq⟩
    · cases heq
    · cases heq
  unused := h.unused f

omit [DecidableEq T] in
theorem good (h : Init w) {lost : Set Nat} (hlost : w.Tidy lost) :
    Good w.fs.sb (fun m => (w.fs.dinode m).attr) lost (∑ t, (w.initial t).toks)
      w.sys.shared where
  inv := {
    sb_eq := rfl
    sound := h.sound
    inj := h.inj
    entry := h.entry _
    file := h.file }
  recorded := by
    have hnone : ∀ hd p, .lock hd p ∉ ∑ t, (w.initial t).toks := by
      intro hd p hmem
      rcases mem_initial hmem with ⟨jp, heq⟩ | ⟨f, heq⟩
      · cases heq
      · cases heq
    rw [h.seen]
    refine ⟨fun m _ => rfl, fun hd hmem => absurd hmem (hnone hd _), ?_⟩
    intro pre st post heq
    exact absurd heq.symm (List.append_ne_nil_of_right_ne_nil _ (List.cons_ne_nil _ _))
  linked := by
    intro m hm htype hlink
    right
    obtain ⟨ip, href, hinum⟩ := (hlost m hm htype).resolve_left fun hne => hne hlink
    refine ⟨ip, ⟨href, (h.valid ip href).1, fun hd hmem => ?_⟩, hinum⟩
    rcases mem_initial hmem with ⟨jp, heq⟩ | ⟨f, heq⟩
    · cases heq
    · cases heq
  ends := by
    refine h.ends.keep (fun p v => ?_) rfl rfl
    rw [Multiset.count_zero, Multiset.count_eq_zero]
    intro hmem
    rcases mem_initial hmem with ⟨jp, heq⟩ | ⟨f, heq⟩
    · cases heq
    · cases heq

omit [DecidableEq T] in
theorem ok (h : Init w) {lost : Set Nat} (hlost : w.Tidy lost) :
    w.Ok w.fs.sb (fun m => (w.fs.dinode m).attr) lost where
  holds := by
    refine ⟨w.initial, h.good hlost, fun t => ?_⟩
    have hk : Knows w.fs.sb (w.own t) (w.initial t) := by
      rw [h.own t]
      exact Knows.resting w.fs.sb (w.own t).me _ _
    refine ⟨hk, ?_⟩
    rw [show (w.sys.procs t).prog = none from h.prog t]
    exact AtRest.resting _ (h.gone t)
  idle := by
    intro t ht
    exact ⟨h.prog t, ((h.slot t).resolve_left ht).2⟩
  parent := by
    intro t u hu
    rcases h.slot u with hs | ⟨hs, -⟩
    · rw [hs] at hu
      cases hu
    · rw [hs] at hu
      cases hu
  once := by
    intro t u v hu
    rcases h.slot u with hs | ⟨hs, -⟩
    · rw [hs] at hu
      cases hu
    · rw [hs] at hu
      cases hu

end Init

/-- What the processes hold in every state they reach. -/
theorem Runs.ok {tr : List (Action T × Unit)} (h : Runs tr w) :
    ∃ sb base lost, w.Ok sb base lost := by
  refine Trace.Run.invariant (I := fun w => ∃ sb base lost, World.Ok sb base lost w) ?_ ?_ h
  · exact fun w hw => ⟨_, _, Set.univ, hw.ok fun m hm => absurd (Set.mem_univ m) hm⟩
  · rintro w a w' ⟨sb, base, lost, hw⟩ hstep
    exact ⟨sb, base, lost, hw.next hstep⟩

end Init

end Fs

end Xv6
