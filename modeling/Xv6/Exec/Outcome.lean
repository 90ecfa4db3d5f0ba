import Xv6.Exec.Model

/-!
# What `exec` does

One specification of `exec` that names every way it can go: where it stops, what it has told
by then and what has become of the process. `exec` never fails to return.
-/

namespace Xv6

namespace Exec

open Prog
open Fs (wordAt)

/-- What the loop over the program headers tells, from the size `sz` on. -/
inductive Loop (ip : InodePtr) : Word → List Event → Prop
  | done {sz : Word} : Loop ip sz []
  /-- The header cannot be read, is bad, or is not one of a segment to load. -/
  | header {sz : Word} {evs : List Event} (h : Loop ip sz evs) : Loop ip sz (.read ip :: evs)
  | short {sz newsz : Word} : Loop ip sz [.read ip, .grown sz newsz 0]
  | segment {sz sz' vaddr filesz memsz : Word} {memory : Bool} {evs : List Event}
      (hle : filesz ≤ memsz) (hsz : sz' = allocuvm memory sz (vaddr + memsz)) (hne : sz' ≠ 0)
      (h : Loop ip sz' evs) :
      Loop ip sz (.read ip :: .grown sz (vaddr + memsz) sz' :: .loaded vaddr filesz :: evs)

structure Replaced (st : Dinode) (pgdir : Pgdir) (p p' : Process) : Prop where
  pgdir : p'.pgdir = pgdir
  uid : p'.uid = if setuidBit st.mode then st.uid.setWidth 32 else p.uid
  gid : p'.gid = p.gid
  ofile : p'.ofile = p.ofile
  cwd : p'.cwd = p.cwd

/-- The ways `exec` goes in an environment: what it tells, what it returns and the process
after it. -/
inductive Outcome (env : Env) (p : Process) : List Event → Int → Process → Prop
  | noFile (hn : env.namei = none) : Outcome env p [.beginOp, .endOp] (-1) p
  | denied {ip : InodePtr} (hn : env.namei = some ip) (hc : check env.inode p.uid p.gid = false) :
      Outcome env p
        [.beginOp, .took ip, .locked ip, .unlocked ip, .dropped ip, .endOp] (-1) p
  /-- The ELF header is bad, or `setupkvm` fails. -/
  | noImage {ip : InodePtr} (hn : env.namei = some ip)
      (hc : check env.inode p.uid p.gid = true) :
      Outcome env p
        [.beginOp, .took ip, .locked ip, .read ip, .unlocked ip, .dropped ip, .endOp] (-1) p
  | notLoaded {ip : InodePtr} {pgdir : Pgdir} {evs : List Event} (hn : env.namei = some ip)
      (hc : check env.inode p.uid p.gid = true) (hl : Loop ip 0 evs) :
      Outcome env p ([.beginOp, .took ip, .locked ip, .read ip, .built pgdir] ++ evs ++
        [.freed pgdir, .unlocked ip, .dropped ip, .endOp]) (-1) p
  | noStack {ip : InodePtr} {pgdir : Pgdir} {evs : List Event} {a b c : Word}
      (hn : env.namei = some ip) (hc : check env.inode p.uid p.gid = true) (hl : Loop ip 0 evs) :
      Outcome env p ([.beginOp, .took ip, .locked ip, .read ip, .built pgdir] ++ evs ++
        [.unlocked ip, .dropped ip, .endOp, .grown a b c, .freed pgdir]) (-1) p
  | replaced {ip : InodePtr} {pgdir : Pgdir} {evs : List Event} {a b c : Word} {p' : Process}
      (hn : env.namei = some ip) (hc : check env.inode p.uid p.gid = true) (hl : Loop ip 0 evs)
      (hp : Replaced env.inode pgdir p p') :
      Outcome env p ([.beginOp, .took ip, .locked ip, .read ip, .built pgdir] ++ evs ++
        [.unlocked ip, .dropped ip, .endOp, .grown a b c, .freed p.pgdir]) 0 p'

/-- From `s` to `s'` with `evs` told, and the process untouched. -/
structure Quiet (s s' : State) (evs : List Event) : Prop where
  env : s'.env = s.env
  proc : s'.proc = s.proc
  log : s'.log = s.log ++ evs

section Rules

variable {s s' s'' : State} {evs evs' : List Event}

theorem Quiet.refl (s : State) : Quiet s s [] := ⟨rfl, rfl, (List.append_nil _).symm⟩

theorem Quiet.trans (h : Quiet s s' evs) (h' : Quiet s' s'' evs') :
    Quiet s s'' (evs ++ evs') where
  env := h'.env.trans h.env
  proc := h'.proc.trans h.proc
  log := by rw [h'.log, h.log, List.append_assoc]

theorem Quiet.tell (h : Quiet s s' evs) (evs' : List Event) :
    Quiet s (s'.tell evs') (evs ++ evs') :=
  h.trans ⟨rfl, rfl, rfl⟩

end Rules

/-! ## The loop over the program headers -/

section Load

variable {s : State} {pgdir : Pgdir} {ip : InodePtr}

theorem loadSegment_does (off sz : Word) : (loadSegment pgdir ip off sz).Does step s
    (fun r s' => ∃ evs, Quiet s s' evs ∧
      match r with
      | none => Loop ip sz evs
      | some sz' => ∀ evs', Loop ip sz' evs' → Loop ip sz (evs ++ evs'))
    fun _ => False := by
  refine does_step rfl ?_
  have hread := (Quiet.refl s).tell [Event.read ip]
  cases s.env.readi s.time with
  | none => exact does_pure ⟨_, hread, .header .done⟩
  | some x =>
    dsimp only
    split
    · exact does_pure ⟨_, hread, .header .done⟩
    split
    · exact does_pure ⟨_, hread, fun _ => .header⟩
    split
    · exact does_pure ⟨_, hread, .header .done⟩
    next hle =>
    generalize wordAt (fun i => x.getD i 0) 8 = vaddr, wordAt (fun i => x.getD i 0) 16 = filesz,
      wordAt (fun i => x.getD i 0) 20 = memsz at hle ⊢
    refine does_step rfl ?_
    generalize hsz : allocuvm ((s.tell [.read ip]).env.memory (s.tell [.read ip]).time) sz
      (vaddr + memsz) = sz'
    have hgrown := hread.tell [.grown sz (vaddr + memsz) sz']
    split
    · next hz =>
      subst hz
      exact does_pure ⟨_, hgrown, .short⟩
    next hne =>
    refine does_step rfl ?_
    have hloaded := hgrown.tell [.loaded vaddr filesz]
    have hle' : filesz ≤ memsz := BitVec.not_lt.mp hle
    split
    · exact does_pure ⟨_, hloaded, fun _ => .segment hle' hsz.symm hne⟩
    · exact does_pure ⟨_, hloaded, .segment hle' hsz.symm hne .done⟩

theorem loadSegments_does (phnum : Nat) (off sz : Word) :
    (loadSegments pgdir ip phnum off sz).Does step s
      (fun _ s' => ∃ evs, Quiet s s' evs ∧ Loop ip sz evs) fun _ => False := by
  induction phnum generalizing off sz s with
  | zero => exact does_pure ⟨_, .refl s, .done⟩
  | succ phnum ih =>
    refine does_bind ((loadSegment_does off sz).mono ?_ fun _ => id)
    rintro r s₁ ⟨evs, hq, hr⟩
    cases r with
    | none => exact does_pure ⟨evs, hq, hr⟩
    | some sz' =>
      refine (ih _ sz').mono ?_ fun _ => id
      rintro r s₂ ⟨evs', hq', hl⟩
      exact ⟨evs ++ evs', hq.trans hq', hr evs' hl⟩

theorem readElf_does : (readElf ip).Does step s (fun _ s' => Quiet s s' [.read ip])
    fun _ => False := by
  refine does_step rfl (does_step rfl ?_)
  have hq := ((Quiet.refl s).tell [.read ip]).tell []
  split
  · exact does_pure hq
  · exact does_pure hq

end Load

/-! ## After the program is loaded -/

section Stack

variable {s : State} {pgdir : Pgdir}

theorem pushArgs_does (argv : List (List Byte)) (sp : Word) (ptrs : List Word) :
    (pushArgs pgdir argv sp ptrs).Does step s (fun _ s' => Quiet s s' []) fun _ => False := by
  induction argv generalizing sp ptrs s with
  | nil => exact does_pure (.refl s)
  | cons arg argv ih =>
    unfold pushArgs
    split
    · exact does_pure (.refl s)
    refine does_step rfl ?_
    have hq := (Quiet.refl s).tell []
    split
    · exact (ih _ _).mono (fun _ _ h => hq.trans h) fun _ => id
    · exact does_pure hq

theorem pushStack_does (argv : List (List Byte)) (sz : Word) :
    (pushStack pgdir argv sz).Does step s (fun _ s' => Quiet s s' []) fun _ => False := by
  refine does_bind ((pushArgs_does argv sz []).mono ?_ fun _ => id)
  intro r s₁ hq
  cases r with
  | none => exact does_pure hq
  | some r =>
    refine does_step rfl ?_
    split
    · exact does_pure (hq.tell [])
    · exact does_pure (hq.tell [])

theorem commit_does (path : List Byte) (sz entry sp : Word) (st : Dinode) :
    (commit path pgdir sz entry sp (if setuidBit st.mode then some st.uid else none)).Does step s
      (fun r s' => r = 0 ∧ s'.env = s.env ∧ s'.log = s.log ++ [.freed s.proc.pgdir] ∧
        Replaced st pgdir s.proc s'.proc) fun _ => False := by
  refine does_step rfl (does_step rfl (does_step rfl (does_step rfl ?_)))
  by_cases hu : setuidBit st.mode = true
  · rw [if_pos hu]
    refine does_step rfl (does_pure ⟨rfl, rfl, ?_, rfl, ?_, rfl, rfl, rfl⟩)
    · simp [State.tell]
    · rw [if_pos hu]
  · rw [if_neg hu]
    refine does_pure ⟨rfl, rfl, ?_, rfl, ?_, rfl, rfl, rfl⟩
    · simp [State.tell]
    · rw [if_neg hu]
      rfl

/-- The ways `exec` goes after the transaction is closed: the new image is freed, or the
process is replaced. -/
def Ended (st : Dinode) (pgdir : Pgdir) (s : State) (r : Int) (t : State) : Prop :=
  ∃ old new sz, t.env = s.env ∧
    ((r = -1 ∧ t.proc = s.proc ∧ t.log = s.log ++ [.grown old new sz, .freed pgdir]) ∨
      (r = 0 ∧ Replaced st pgdir s.proc t.proc ∧
        t.log = s.log ++ [.grown old new sz, .freed s.proc.pgdir]))

theorem bad_ended {s' : State} {old new sz : Word} (st : Dinode)
    (hq : Quiet s s' [.grown old new sz]) :
    (bad (some pgdir) none).Does step s' (Ended st pgdir s) fun _ => False := by
  have hfreed := hq.tell [.freed pgdir]
  refine does_step rfl (does_pure ⟨old, new, sz, hfreed.env, Or.inl ⟨rfl, hfreed.proc, ?_⟩⟩)
  exact hfreed.log

theorem buildStack_ended (path : List Byte) (argv : List (List Byte)) (sz entry : Word)
    (st : Dinode) :
    (buildStack path argv pgdir sz entry (if setuidBit st.mode then some st.uid else none)).Does
      step s (Ended st pgdir s) fun _ => False := by
  unfold buildStack
  generalize PGROUNDUP sz = old
  dsimp only
  generalize old + 2 * PGSIZE = new
  have hstep : step _ (.allocuvm pgdir old new) s =
    .ok (allocuvm (s.env.memory s.time) old new,
      s.tell [.grown old new (allocuvm (s.env.memory s.time) old new)]) := rfl
  refine does_step hstep ?_
  generalize allocuvm (s.env.memory s.time) old new = sz'
  have hgrown := (Quiet.refl s).tell [.grown old new sz']
  split
  · exact bad_ended st hgrown
  refine does_bind ((pushStack_does argv sz').mono ?_ fun _ => id)
  intro r s₁ hq
  have hq₁ : Quiet s s₁ [.grown old new sz'] := hgrown.trans hq
  cases r with
  | none => exact bad_ended st hq₁
  | some sp =>
    refine (commit_does path sz' entry sp st).mono ?_ fun _ => id
    rintro r s₂ ⟨rfl, henv, hlog, hrep⟩
    rw [hq₁.proc] at hlog hrep
    refine ⟨old, new, sz', henv.trans hq₁.env, Or.inr ⟨rfl, hrep, ?_⟩⟩
    rw [hlog, hq₁.log, List.append_assoc]
    rfl

end Stack

/-! ## The whole call -/

/-- What `exec` has told since the state `s`, and how it went. -/
def Went (s : State) (r : Int) (t : State) : Prop :=
  ∃ evs, t.env = s.env ∧ t.log = s.log ++ evs ∧ Outcome s.env s.proc evs r t.proc

theorem Quiet.went {s t : State} {evs : List Event} {r : Int} (h : Quiet s t evs)
    (ho : Outcome s.env s.proc evs r s.proc) : Went s r t :=
  ⟨evs, h.env, h.log, h.proc.symm ▸ ho⟩

section Whole

variable {s s' : State} {ip : InodePtr}

theorem bad_went {evs : List Event} (hq : Quiet s s' evs)
    (ho : Outcome s.env s.proc (evs ++ [.unlocked ip, .dropped ip, .endOp]) (-1) s.proc) :
    (bad none (some ip)).Does step s' (Went s) fun _ => False := by
  refine does_step rfl (does_step rfl (does_pure ?_))
  have hend : Quiet s ((s'.tell [.unlocked ip, .dropped ip]).tell [.endOp])
      (evs ++ [.unlocked ip, .dropped ip, .endOp]) := by
    have := (hq.tell [.unlocked ip, .dropped ip]).tell [.endOp]
    rwa [List.append_assoc] at this
  exact hend.went ho

theorem load_went (path : List Byte) (argv : List (List Byte))
    (hn : s.env.namei = some ip) (hc : check s.env.inode s.proc.uid s.proc.gid = true)
    (hq : Quiet s s' [.beginOp, .took ip, .locked ip]) :
    (load path argv ip (if setuidBit s.env.inode.mode then some s.env.inode.uid else none)).Does
      step s' (Went s) fun _ => False := by
  refine does_bind (readElf_does.mono ?_ fun _ => id)
  intro r s₁ hread
  have hq₁ : Quiet s s₁ [.beginOp, .took ip, .locked ip, .read ip] := hq.trans hread
  cases r with
  | none => exact bad_went hq₁ (.noImage hn hc)
  | some elf =>
    dsimp only
    split
    · exact bad_went hq₁ (.noImage hn hc)
    have hkvm : step _ .setupkvm s₁ =
        .ok (s₁.env.setupkvm, s₁.tell (s₁.env.setupkvm.toList.map .built)) := rfl
    refine does_step hkvm ?_
    cases s₁.env.setupkvm with
    | none => exact bad_went (hq₁.tell []) (.noImage hn hc)
    | some pgdir =>
      have hbuilt : Quiet s (s₁.tell [.built pgdir])
          [.beginOp, .took ip, .locked ip, .read ip, .built pgdir] := hq₁.tell [.built pgdir]
      refine does_bind ((loadSegments_does _ _ 0).mono ?_ fun _ => id)
      rintro r s₂ ⟨evs, hloop, hl⟩
      have hq₂ := hbuilt.trans hloop
      generalize hw : wordAt elf 24 = entry
      cases r with
      | none =>
        have hfreed := hq₂.tell [.freed pgdir]
        refine does_step rfl ?_
        refine bad_went hfreed ?_
        rw [List.append_assoc]
        exact .notLoaded hn hc hl
      | some sz =>
        have hput := (hq₂.tell [.unlocked ip, .dropped ip]).tell [.endOp]
        refine does_step rfl (does_step rfl ?_)
        refine (buildStack_ended path argv sz entry s.env.inode).mono ?_ fun _ => id
        rintro r t ⟨old, new, sz', henv, ⟨rfl, hproc, hlog⟩ | ⟨rfl, hrep, hlog⟩⟩
        · have hend : Quiet s t ([.beginOp, .took ip, .locked ip, .read ip, .built pgdir] ++ evs ++
              [.unlocked ip, .dropped ip, .endOp, .grown old new sz', .freed pgdir]) := by
            refine ⟨henv.trans hput.env, hproc.trans hput.proc, ?_⟩
            rw [hlog, hput.log]
            simp
          exact hend.went (.noStack hn hc hl)
        · rw [hput.proc] at hlog hrep
          refine ⟨_, henv.trans hput.env, ?_,
            .replaced (a := old) (b := new) (c := sz') hn hc hl hrep⟩
          rw [hlog, hput.log]
          simp only [List.append_assoc]
          rfl

/-- `exec` goes one of the ways of `Outcome`. -/
theorem exec_went (path : List Byte) (argv : List (List Byte)) (s : State) :
    (exec path argv).Does step s (Went s) fun _ => False := by
  refine does_step rfl ?_
  have hnamei : step _ (.namei path) (s.tell [.beginOp]) = .ok (s.env.namei,
      (s.tell [.beginOp]).tell (s.env.namei.toList.map .took)) := rfl
  refine does_step hnamei ?_
  have hbegin := (Quiet.refl s).tell [.beginOp]
  cases hn : s.env.namei with
  | none =>
    refine does_step rfl (does_pure ?_)
    exact ((hbegin.tell []).tell [.endOp]).went (.noFile hn)
  | some ip =>
    have hlocked := (hbegin.tell [.took ip]).tell [.locked ip]
    refine does_step rfl (does_step rfl (does_step rfl ?_))
    have hq := (hlocked.tell []).tell []
    split
    · next hc => exact load_went path argv hn hc hq
    · next hc => exact bad_went hq (.denied hn (eq_false_of_ne_true hc))

/-- `exec` returns, and goes one of the ways of `Outcome`. -/
theorem exec_returns (path : List Byte) (argv : List (List Byte)) (s : State) :
    ∃ r t evs, (exec path argv).exec step s = .ok (r, t) ∧ t.log = s.log ++ evs ∧
      Outcome s.env s.proc evs r t.proc := by
  obtain ⟨r, t, heq, evs, -, hlog, ho⟩ := (exec_went path argv s).ok
  exact ⟨r, t, evs, heq, hlog, ho⟩

end Whole

end Exec

end Xv6
