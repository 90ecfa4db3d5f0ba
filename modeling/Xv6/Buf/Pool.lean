import Mathlib.Algebra.Order.BigOperators.Group.Finset
import Mathlib.Data.Fintype.BigOperators
import Xv6.Buf.Refine
import Xv6.Log.Protocol

/-!
# The buffer pool

Who has buffers, and how many. A process that reads outside of a transaction has one at a
time (`readi`, `ilock`), an operation two (`bmap` and `itrunc` with `balloc` and `bfree`), and
so has `commit`. The blocks in the log are pinned until `install_trans` has written them.
Operations are limited by `begin_op`, but readers are not.
-/

open Function (update update_of_ne update_self)

namespace Xv6

theorem Bcache.dirty_of_modify {s : Bcache} {b b' : BufPtr} (f : Buf → Buf)
    (hf : (f (s.buf b)).dirty = true → (s.buf b).dirty = true)
    (h : ((s.modify b f).buf b').dirty = true) : (s.buf b').dirty = true := by
  by_cases hb : b' = b
  · subst hb
    rw [modify_self] at h
    exact hf h
  · rwa [modify_of_ne _ _ _ hb] at h

namespace BufSys

/-- Of a process in `bread`: the buffer it is to get. -/
def Pc.pending : Pc → Nat
  | .out | .writing _ => 0
  | _ => 1

namespace State

variable {P : Type} [DecidableEq P] {s t : State P} {p : P} {b : BufPtr} {k : Pc} {d : Drives}
  {a : Act P} {o : Option Event}

def count (s : State P) (p : P) : Nat := (s.held p).length + (s.pc p).pending

theorem count_goto (q : P) :
    (s.goto p k).count q = if q = p then (s.held p).length + k.pending else s.count q := by
  unfold count
  rw [goto_pc]
  split
  · next hq => rw [hq]; rfl
  · rfl

/-- How a step changes the numbers of buffers, and which buffers are dirty after it. -/
structure Effect (s t : State P) (a : Act P) : Prop where
  count : ∀ q, t.count q ≤ s.count q ∨
    ∃ dev blockno, a = .bread q dev blockno ∧ t.count q = (s.held q).length + 1
  dirty : ∀ b, (t.cache.buf b).dirty = true →
    ((s.cache.buf b).dirty = true ∧ ∀ p, s.pc p = .writing b → t.pc p = .writing b) ∨
      (∃ p, a = .logWrite p b) ∨ ∃ p, a = .bwrite p b ∧ t.pc p = .writing b

omit [DecidableEq P] in
theorem Effect.still (hpc : t.pc = s.pc) (hheld : ∀ q, (t.held q).length ≤ (s.held q).length)
    (hd : ∀ b, (t.cache.buf b).dirty = true →
      (s.cache.buf b).dirty = true ∨ ∃ p, a = .logWrite p b) : Effect s t a := by
  refine ⟨fun q => Or.inl ?_, fun b hb => ?_⟩
  · unfold State.count
    rw [hpc]
    exact Nat.add_le_add_right (hheld q) _
  · rcases hd b hb with hold | hnew
    · refine Or.inl ⟨hold, fun p hp => ?_⟩
      rwa [hpc]
    · exact Or.inr (Or.inl hnew)

theorem Effect.goto (hpc : ∀ q, t.pc q = if q = p then k else s.pc q)
    (hcount : t.count p ≤ s.count p) (hheld : ∀ q, q ≠ p → t.held q = s.held q)
    (hd : ∀ b, (t.cache.buf b).dirty = true →
      (s.cache.buf b).dirty = true ∧ s.pc p ≠ .writing b) : Effect s t a := by
  refine ⟨fun q => Or.inl ?_, fun b hb => Or.inl ⟨(hd b hb).1, fun q hq => ?_⟩⟩
  · by_cases hqp : q = p
    · rwa [hqp]
    · unfold State.count
      rw [hheld q hqp, hpc q, if_neg hqp]
  · rw [hpc q, if_neg, hq]
    rintro rfl
    exact (hd b hb).2 hq

theorem Effect.run (h : s.Inv d) (hs : s.run p = some (t, o)) : Effect s t a := by
  have hreturned : ∀ b, (s.pc p).owned = some b → Effect s (s.returned p b).1 a := by
    intro b hb
    refine Effect.goto (p := p) (k := .out) (goto_pc _ _ _) ?_ (fun q hq => ?_)
      fun b' hb' => ⟨hb', fun hp => ?_⟩
    · unfold State.returned
      rw [count_goto, if_pos rfl]
      dsimp only
      rw [update_self, List.length_cons]
      unfold State.count Pc.pending
      cases hp : s.pc p with
      | got _ | reading _ => exact Nat.le_refl _
      | _ => rw [hp] at hb; cases hb
    · exact update_of_ne hq ..
    · rw [hp] at hb
      cases hb
  have hgoto : ∀ (c : Bcache) (k : Pc), k.pending ≤ (s.pc p).pending →
      (∀ b, (c.buf b).dirty = true → (s.cache.buf b).dirty = true ∧ s.pc p ≠ .writing b) →
      Effect s (({ s with cache := c } : State P).goto p k) a := by
    intro c k hk hd
    refine Effect.goto (p := p) (k := k) (goto_pc _ _ _) ?_ (fun _ _ => rfl) hd
    rw [count_goto, if_pos rfl]
    exact Nat.add_le_add_left hk _
  unfold State.run at hs
  split at hs
  · next dev blockno hp =>
    split at hs
    · next b c hc =>
      cases hs
      refine hgoto c _ (by rw [hp]; exact Nat.le_refl _) fun b' hb' => ?_
      rw [hp]
      refine ⟨?_, nofun⟩
      rcases h.listed.bget_ok hc with ⟨_, heq, -, -, -, rfl⟩ | ⟨_, heq, -⟩ | ⟨_, heq, -, -, -, rfl⟩
      · cases heq
        exact Bcache.dirty_of_modify _ id hb'
      · cases heq
      · cases heq
        exact Bcache.dirty_of_modify _ (fun hf => Bool.noConfusion hf) hb'
    · cases hs
      refine hgoto s.cache _ (by rw [hp]; exact Nat.le_refl _) fun b' hb' => ⟨hb', ?_⟩
      rw [hp]
      exact nofun
    · cases hs
  · next b hp =>
    split at hs
    · cases hs
      exact hreturned b (by rw [hp]; rfl)
    · split at hs
      · next c hc =>
        cases hs
        obtain ⟨-, -, rfl⟩ := Bcache.iderw_ok hc
        refine hgoto _ _ (by rw [hp]; exact Nat.le_refl _) fun b' hb' => ⟨hb', ?_⟩
        rw [hp]
        exact nofun
      · cases hs
  · next b hp =>
    split at hs
    · cases hs
      exact hreturned b (by rw [hp]; rfl)
    · cases hs
  · next b hp =>
    split at hs
    · next hf =>
      cases hs
      refine hgoto s.cache _ (Nat.zero_le _) fun b' hb' => ⟨hb', ?_⟩
      rw [hp]
      rintro ⟨⟩
      rw [(finished_ok hf).2] at hb'
      cases hb'
    · cases hs
  · cases hs

theorem next_effect (h : s.Inv d) (hs : s.next a = some (t, o)) : Effect s t a := by
  cases a with
  | bread p dev blockno =>
    simp only [State.next] at hs
    split at hs
    · next hp =>
      cases hs
      refine ⟨fun q => ?_, fun b hb => Or.inl ⟨hb, fun q hq => ?_⟩⟩
      · rw [count_goto]
        split
        · next hq => exact Or.inr ⟨dev, blockno, by rw [hq], by rw [hq]; rfl⟩
        · exact Or.inl (Nat.le_refl _)
      · rw [goto_pc, if_neg, hq]
        rintro rfl
        rw [hp.1] at hq
        cases hq
    · cases hs
  | run p => exact Effect.run h hs
  | wake p =>
    simp only [State.next] at hs
    split at hs
    · next dev blockno hp =>
      cases hs
      refine Effect.goto (p := p) (k := .bget dev blockno) (goto_pc _ _ _) ?_
        (fun _ _ => rfl) fun b hb => ⟨hb, ?_⟩
      · rw [count_goto, if_pos rfl]
        unfold State.count
        rw [hp]
        exact Nat.le_refl _
      · rw [hp]
        rintro ⟨⟩
    · cases hs
  | ideintr =>
    simp only [State.next] at hs
    split at hs
    · next c hc =>
      cases hs
      refine Effect.still rfl (fun _ => Nat.le_refl _) fun b hb => Or.inl ?_
      cases hq : s.cache.idequeue with
      | nil =>
        unfold Bcache.ideintr at hc
        rw [hq] at hc
        cases hc
        exact hb
      | cons b₀ q =>
        have hok := ideintr_ok hq hc
        subst hok
        by_cases hbb : b = b₀
        · rw [hbb, intr_self] at hb
          cases hb
        · rwa [intr_of_ne hbb] at hb
    · cases hs
  | change p b data =>
    simp only [State.next] at hs
    split at hs
    · cases hs
      exact Effect.still rfl (fun _ => Nat.le_refl _) fun _ hb' =>
        Or.inl (Bcache.dirty_of_modify (fun x => { x with data := data }) id hb')
    · cases hs
  | logWrite p b =>
    simp only [State.next] at hs
    split at hs
    · cases hs
      refine Effect.still rfl (fun _ => Nat.le_refl _) fun b' hb' => ?_
      by_cases hbb : b' = b
      · exact Or.inr ⟨p, by rw [hbb]⟩
      · rw [Bcache.modify_of_ne _ _ _ hbb] at hb'
        exact Or.inl hb'
    · cases hs
  | bwrite p b =>
    simp only [State.next] at hs
    split at hs
    · next hu =>
      obtain ⟨hout, -⟩ := uses_ok hu
      split at hs
      · next c hc =>
        cases hs
        obtain ⟨-, -, rfl⟩ := Bcache.iderw_ok hc
        refine ⟨fun q => Or.inl ?_, fun b' hb' => ?_⟩
        · rw [count_goto]
          split
          · next hq =>
            unfold State.count
            rw [hq, hout]
            exact Nat.le_refl _
          · exact Nat.le_refl _
        · by_cases hbb : b' = b
          · refine Or.inr (Or.inr ⟨p, by rw [hbb], ?_⟩)
            rw [goto_pc, if_pos rfl, hbb]
          · refine Or.inl ⟨?_, fun q hq => ?_⟩
            · rwa [← Bcache.modify_of_ne s.cache b (fun x => { x with dirty := true }) hbb]
            · rw [goto_pc, if_neg]
              · exact hq
              · rintro rfl
                rw [hout] at hq
                cases hq
      · cases hs
    · cases hs
  | brelse p b =>
    simp only [State.next] at hs
    split at hs
    · split at hs
      · next c hc =>
        cases hs
        obtain ⟨-, rfl⟩ := Bcache.brelse_ok hc
        refine Effect.still rfl (fun q => ?_) fun _ hb' =>
          Or.inl (Bcache.dirty_of_modify (fun x => { x with busy := false }) id hb')
        dsimp only
        by_cases hq : q = p
        · rw [hq, update_self]
          exact List.length_erase_le
        · rw [update_of_ne hq]
      · cases hs
    · cases hs

end State

end BufSys

/-! ## Processes that use the pool -/

namespace Pool

inductive Role
  | idle
  | reader
  /-- Between `begin_op` and `end_op`, with the blocks it has handed to `log_write`. -/
  | op (mine : List Nat)
  /-- In `commit`, with the blocks that `install_trans` has still to write. -/
  | committer (todo : List Nat)
deriving DecidableEq

def Role.buffers : Role → Nat
  | .idle => 0
  | .reader => 1
  | .op _ | .committer _ => 2

def Role.ops : Role → Nat
  | .op _ => 1
  | _ => 0

structure State (P : Type) where
  bufs : BufSys.State P
  role : P → Role
  log : Log

inductive Act (P : Type)
  | read (p : P)
  | readEnd (p : P)
  | beginOp (p : P)
  | endOp (p : P)
  /-- `log.lh.n = 0`, after `install_trans`. -/
  | clear (p : P)
  /-- `log.committing = 0`, after `commit`. -/
  | finish (p : P)
  /-- A step in `bio.c`, `ide.c` or `log_write`, or of the holder of a buffer. -/
  | buf (a : BufSys.Act P)

namespace State

variable {P : Type} [DecidableEq P]

def setRole (s : State P) (p : P) (r : Role) : State P :=
  { s with role := update s.role p r }

def Free (s : State P) (p : P) : Prop := s.bufs.pc p = .out ∧ s.bufs.held p = []

instance (s : State P) (p : P) : Decidable (s.Free p) := inferInstanceAs (Decidable (_ ∧ _))

/-- What the code of a process may do: how many buffers it has, what it changes, and the
tests of `log_write`. An operation stays within its quota. -/
def allows (s : State P) : BufSys.Act P → Bool
  | .bread p _ _ => (s.bufs.held p).length < (s.role p).buffers
  | .change p _ _ =>
    match s.role p with
    | .op _ | .committer _ => true
    | _ => false
  | .logWrite p b =>
    match s.role p with
    | .op mine =>
      (s.bufs.cache.buf b).dev = ROOTDEV ∧ s.log.tooBig = false ∧ 1 ≤ s.log.outstanding ∧
        (mine.insert (s.bufs.cache.buf b).blockno).length ≤ MAXOPBLOCKS
    | _ => false
  | .bwrite p b =>
    match s.role p with
    | .committer _ => (s.bufs.cache.buf b).dev = ROOTDEV
    | _ => false
  | .run _ | .wake _ | .ideintr | .brelse _ _ => true

def record (s : State P) : BufSys.Act P → State P
  | .logWrite p b =>
    let blockno := (s.bufs.cache.buf b).blockno
    match s.role p with
    | .op mine => { s with log := s.log.record blockno }.setRole p (.op (mine.insert blockno))
    | _ => s
  | .bwrite p b =>
    match s.role p with
    | .committer todo => s.setRole p (.committer (todo.erase (s.bufs.cache.buf b).blockno))
    | _ => s
  | _ => s

def next (s : State P) : Act P → Option (State P × Unit)
  | .read p => if s.role p = .idle then some (s.setRole p .reader, ()) else none
  | .readEnd p =>
    if s.role p = .reader ∧ s.Free p then some (s.setRole p .idle, ()) else none
  | .beginOp p =>
    if s.role p = .idle ∧ s.log.committing = false ∧ s.log.mightExhaust = false then
      some ({ s with log := { s.log with outstanding := s.log.outstanding + 1 } }.setRole p
        (.op []), ())
    else none
  | .endOp p =>
    match s.role p with
    | .op _ =>
      if s.Free p ∧ s.log.committing = false then
        let l : Log := { s.log with outstanding := s.log.outstanding - 1 }
        if l.outstanding = 0 then
          some ({ s with log := { l with committing := true } }.setRole p (.committer l.lh), ())
        else some ({ s with log := l }.setRole p .idle, ())
      else none
    | _ => none
  | .clear p =>
    if s.role p = .committer [] ∧ s.Free p then
      some ({ s with log := { s.log with lh := [] } }, ())
    else none
  | .finish p =>
    if s.role p = .committer [] ∧ s.log.lh = [] ∧ s.Free p then
      some ({ s with log := { s.log with committing := false } }.setRole p .idle, ())
    else none
  | .buf a =>
    if s.allows a then (s.bufs.next a).map fun r => ({ s.record a with bufs := r.1 }, ())
    else none

def boot (havedisk1 : Bool) (disk : Drives) (sb : Superblock) : State P where
  bufs := .boot havedisk1 disk
  role := fun _ => .idle
  log := initlog sb

def Init (s : State P) : Prop := ∃ havedisk1 disk sb, s = boot havedisk1 disk sb

omit [DecidableEq P] in
theorem boot_init (havedisk1 : Bool) (disk : Drives) (sb : Superblock) :
    Init (boot havedisk1 disk sb : State P) :=
  ⟨havedisk1, disk, sb, rfl⟩

/-- The buffers that the processes may need at once, with those the log has pinned. -/
def load [Fintype P] (s : State P) : Nat := ∑ p, (s.role p).buffers + s.log.lh.length

/-! ## What is pinned -/

variable {s t : State P} {p : P} {b : BufPtr}

def Pins (s : State P) (a : Nat × Nat) : Prop :=
  a.1 = ROOTDEV ∧ a.2 ∈ s.log.lh ∧ ∀ p todo, s.role p = .committer todo → a.2 ∈ todo

structure Inv [Fintype P] (s : State P) : Prop where
  bufs : ∃ d, s.bufs.Inv d
  room : ∀ p, s.bufs.count p ≤ (s.role p).buffers
  pinned : ∀ b, (s.bufs.cache.buf b).dirty = true →
    (∃ p, s.bufs.pc p = .writing b) ∨ s.Pins (s.bufs.addr b)
  outstanding : s.log.outstanding = ((∑ p, (s.role p).ops : Nat) : Int)
  committer : ∀ p todo, s.role p = .committer todo →
    s.log.committing = true ∧ s.log.outstanding = 0 ∧
      ∀ q todo', s.role q = .committer todo' → q = p

omit [DecidableEq P] in
theorem Free.count (h : s.Free p) : s.bufs.count p = 0 := by
  unfold BufSys.State.count
  rw [h.1, h.2]
  rfl

section Roles

variable [Fintype P]

theorem sum_ops (r : Role) :
    ∑ q, ((s.setRole p r).role q).ops + (s.role p).ops = ∑ q, (s.role q).ops + r.ops := by
  have hupd : ∀ q, ((s.setRole p r).role q).ops =
      update (fun q => (s.role q).ops) p r.ops q := by
    intro q
    by_cases hq : q = p
    · subst hq
      simp [setRole]
    · simp [setRole, hq]
  rw [Finset.sum_congr rfl fun q _ => hupd q, Finset.sum_update_of_mem (Finset.mem_univ p),
    Finset.sum_eq_add_sum_sdiff_singleton_of_mem (Finset.mem_univ p) fun q => (s.role q).ops]
  omega

theorem Inv.setRole (h : s.Inv) {r : Role} {l : Log} (ht : t = { s with log := l }.setRole p r)
    (hp : s.Free p ∨ (s.role p).buffers ≤ r.buffers)
    (hout : l.outstanding + (s.role p).ops = s.log.outstanding + r.ops)
    (hpins : ∀ a, s.Pins a → t.Pins a)
    (hcom : ∀ q todo, t.role q = .committer todo → l.committing = true ∧ l.outstanding = 0 ∧
      ∀ q' todo', t.role q' = .committer todo' → q' = q) : t.Inv := by
  subst ht
  refine ⟨h.bufs, ?_, ?_, ?_, hcom⟩
  · intro q
    change s.bufs.count q ≤ (update s.role p r q).buffers
    by_cases hq : q = p
    · subst hq
      rw [update_self]
      rcases hp with hfree | hle
      · rw [hfree.count]
        exact Nat.zero_le _
      · exact (h.room q).trans hle
    · rw [update_of_ne hq]
      exact h.room q
  · intro b hb
    exact (h.pinned b hb).imp_right (hpins _)
  · have hsum := sum_ops (s := { s with log := l }) (p := p) r
    have hold := h.outstanding
    change l.outstanding = _
    dsimp only at hsum
    omega

omit [Fintype P] in
theorem role_of_committer {r : Role} {q : P} {todo : List Nat} (hr : ∀ todo, r ≠ .committer todo)
    (hq : (s.setRole p r).role q = .committer todo) : q ≠ p ∧ s.role q = .committer todo := by
  change update s.role p r q = _ at hq
  by_cases hqp : q = p
  · rw [hqp, update_self] at hq
    exact absurd hq (hr todo)
  · rw [update_of_ne hqp] at hq
    exact ⟨hqp, hq⟩

omit [Fintype P] in
theorem Pins.setRole {a : Nat × Nat} {r : Role} {l : Log} (hr : ∀ todo, r ≠ .committer todo)
    (hl : l.lh = s.log.lh) (h : s.Pins a) :
    (State.setRole { s with log := l } p r).Pins a := by
  refine ⟨h.1, hl ▸ h.2.1, fun q todo hq => h.2.2 q todo ?_⟩
  exact (role_of_committer (s := { s with log := l }) hr hq).2

omit [DecidableEq P] in
theorem Inv.no_committer (h : s.Inv) (hp : (s.role p).ops = 1) (q : P) (todo : List Nat) :
    s.role q ≠ .committer todo := by
  intro hq
  have hout := h.outstanding
  have hle : (s.role p).ops ≤ ∑ q, (s.role q).ops :=
    Finset.single_le_sum (f := fun q => (s.role q).ops) (fun _ _ => Nat.zero_le _)
      (Finset.mem_univ p)
  rw [(h.committer q todo hq).2.1] at hout
  omega

theorem Inv.next_role (h : s.Inv) {a : Act P} {o : Unit} (ha : ∀ a', a ≠ .buf a')
    (hs : s.next a = some (t, o)) : t.Inv := by
  have hnone : s.log.committing = false → ∀ q todo, s.role q ≠ .committer todo := by
    intro hc q todo hq
    rw [(h.committer q todo hq).1] at hc
    cases hc
  have hkeep : ∀ p r, (∀ todo, r ≠ .committer todo) → ∀ q todo,
      (s.setRole p r).role q = .committer todo → s.log.committing = true ∧
        s.log.outstanding = 0 ∧
        ∀ q' todo', (s.setRole p r).role q' = .committer todo' → q' = q := by
    intro p r hr q todo hq
    obtain ⟨hc, hout, hone⟩ := h.committer q todo (role_of_committer hr hq).2
    exact ⟨hc, hout, fun q' todo' hq' => hone q' todo' (role_of_committer hr hq').2⟩
  cases a with
  | read p =>
    dsimp only [State.next] at hs
    split at hs
    · next hp =>
      cases hs
      refine h.setRole rfl (Or.inr ?_) ?_ (fun a => Pins.setRole nofun rfl) (hkeep p .reader nofun)
      · rw [hp]
        exact Nat.zero_le _
      · rw [hp]
        rfl
    · cases hs
  | readEnd p =>
    dsimp only [State.next] at hs
    split at hs
    · next hp =>
      cases hs
      refine h.setRole rfl (Or.inl hp.2) ?_ (fun a => Pins.setRole nofun rfl) (hkeep p .idle nofun)
      rw [hp.1]
      rfl
    · cases hs
  | beginOp p =>
    dsimp only [State.next] at hs
    split at hs
    · next hp =>
      cases hs
      refine h.setRole rfl (Or.inr ?_) ?_ (fun a => Pins.setRole nofun rfl) fun q todo hq => ?_
      · rw [hp.1]
        exact Nat.zero_le _
      · rw [hp.1]
        change s.log.outstanding + 1 + 0 = s.log.outstanding + 1
        omega
      · exact absurd (role_of_committer (r := .op []) nofun hq).2 (hnone hp.2.1 q todo)
    · cases hs
  | endOp p =>
    dsimp only [State.next] at hs
    split at hs
    · next mine hp =>
      split at hs
      · next hfree =>
        have hno := hnone hfree.2
        split at hs
        · next hzero =>
          cases hs
          refine h.setRole rfl (Or.inl hfree.1) ?_ (fun a ha => ?_) fun q todo hq => ?_
          · rw [hp]
            change s.log.outstanding - 1 + 1 = s.log.outstanding + 0
            omega
          · refine ⟨ha.1, ha.2.1, fun q todo hq => ?_⟩
            change update s.role p _ q = _ at hq
            by_cases hqp : q = p
            · rw [hqp, update_self] at hq
              cases hq
              exact ha.2.1
            · rw [update_of_ne hqp] at hq
              exact absurd hq (hno q todo)
          · refine ⟨rfl, hzero, fun q' todo' hq' => ?_⟩
            have honly : ∀ q todo, (s.setRole p (.committer s.log.lh)).role q =
                .committer todo → q = p := by
              intro q todo hq
              by_contra hqp
              change update s.role p _ q = _ at hq
              rw [update_of_ne hqp] at hq
              exact hno q todo hq
            rw [honly q todo hq, honly q' todo' hq']
        · cases hs
          refine h.setRole rfl (Or.inl hfree.1) ?_ (fun a => Pins.setRole nofun rfl)
            fun q todo hq => ?_
          · rw [hp]
            change s.log.outstanding - 1 + 1 = s.log.outstanding + 0
            omega
          · exact absurd (role_of_committer (r := .idle) nofun hq).2 (hno q todo)
      · cases hs
    · cases hs
  | clear p =>
    dsimp only [State.next] at hs
    split at hs
    · next hp =>
      cases hs
      refine ⟨h.bufs, h.room, fun b hb => ?_, h.outstanding, h.committer⟩
      rcases h.pinned b hb with hw | hpins
      · exact Or.inl hw
      · exact absurd (hpins.2.2 p [] hp.1) List.not_mem_nil
    · cases hs
  | finish p =>
    dsimp only [State.next] at hs
    split at hs
    · next hp =>
      cases hs
      refine h.setRole rfl (Or.inl hp.2.2) ?_ (fun a => Pins.setRole nofun rfl)
        fun q todo hq => ?_
      · rw [hp.1]
        rfl
      · obtain ⟨hqp, hq⟩ := role_of_committer (r := .idle) nofun hq
        exact absurd ((h.committer p [] hp.1).2.2 q todo hq) hqp
    · cases hs
  | buf a => exact absurd rfl (ha a)

end Roles

/-! ## Steps on buffers -/

section Steps

variable {a : BufSys.Act P}

theorem record_role (q : P) : ((s.record a).role q).buffers = (s.role q).buffers ∧
    ((s.record a).role q).ops = (s.role q).ops ∧
    ∀ todo, (s.record a).role q = .committer todo → ∃ todo', s.role q = .committer todo' := by
  have hset : ∀ p r r', s.role p = r' → r.buffers = r'.buffers → r.ops = r'.ops →
      (∀ todo, r = .committer todo → ∃ todo', r' = .committer todo') →
      (update s.role p r q).buffers = (s.role q).buffers ∧
      (update s.role p r q).ops = (s.role q).ops ∧
      ∀ todo, update s.role p r q = .committer todo →
        ∃ todo', s.role q = .committer todo' := by
    rintro p r r' rfl hbuffers hops hcom
    by_cases hq : q = p
    · subst hq
      rw [update_self]
      exact ⟨hbuffers, hops, hcom⟩
    · rw [update_of_ne hq]
      exact ⟨rfl, rfl, fun todo h => ⟨todo, h⟩⟩
  cases a with
  | logWrite p b =>
    unfold record
    dsimp only
    split
    · next mine hp => exact hset p _ _ hp rfl rfl nofun
    · exact ⟨rfl, rfl, fun todo h => ⟨todo, h⟩⟩
  | bwrite p b =>
    unfold record
    dsimp only
    split
    · next todo hp => exact hset p _ _ hp rfl rfl fun _ _ => ⟨todo, rfl⟩
    · exact ⟨rfl, rfl, fun todo h => ⟨todo, h⟩⟩
  | _ => exact ⟨rfl, rfl, fun todo h => ⟨todo, h⟩⟩

theorem record_log : (s.record a).log.outstanding = s.log.outstanding ∧
    (s.record a).log.committing = s.log.committing := by
  cases a with
  | logWrite p b =>
    unfold record
    dsimp only
    split
    · exact ⟨Log.record_outstanding _ _, Log.record_committing _ _⟩
    · exact ⟨rfl, rfl⟩
  | bwrite p b =>
    unfold record
    dsimp only
    split
    · exact ⟨rfl, rfl⟩
    · exact ⟨rfl, rfl⟩
  | _ => exact ⟨rfl, rfl⟩

theorem Pins.record {x : Nat × Nat} (h : s.Pins x)
    (hne : ∀ p b, a = .bwrite p b → x.2 ≠ (s.bufs.cache.buf b).blockno) : (s.record a).Pins x := by
  cases a with
  | logWrite p b =>
    unfold State.record
    dsimp only
    split
    · refine ⟨h.1, Log.mem_record.mpr (Or.inl h.2.1), fun q todo hq => h.2.2 q todo ?_⟩
      exact (role_of_committer (r := .op _) nofun hq).2
    · exact h
  | bwrite p b =>
    unfold State.record
    dsimp only
    split
    · next todo hp =>
      refine ⟨h.1, h.2.1, fun q todo' hq => ?_⟩
      change update s.role p _ q = _ at hq
      by_cases hqp : q = p
      · rw [hqp, update_self] at hq
        cases hq
        exact (List.mem_erase_of_ne (hne p b rfl)).mpr (h.2.2 p todo hp)
      · rw [update_of_ne hqp] at hq
        exact h.2.2 q todo' hq
    · exact h
  | _ => exact h

variable [Fintype P]

omit [DecidableEq P] [Fintype P] in
theorem dev_of_allows (ha : s.allows (.bwrite p b) = true) :
    (s.bufs.cache.buf b).dev = ROOTDEV := by
  unfold allows at ha
  dsimp only at ha
  split at ha
  · exact of_decide_eq_true ha
  · cases ha

omit [Fintype P] in
theorem pc_of_bwrite {c : BufSys.State P} {o : Option BufSys.Event}
    (hc : s.bufs.next (.bwrite p b) = some (c, o)) : c.pc p = .writing b := by
  simp only [BufSys.State.next] at hc
  split at hc
  · split at hc
    · cases hc
      rw [BufSys.State.goto_pc, if_pos rfl]
    · cases hc
  · cases hc

theorem Inv.pins_logWrite (h : s.Inv) (ha : s.allows (.logWrite p b) = true) :
    (s.record (.logWrite p b)).Pins (s.bufs.addr b) := by
  unfold allows at ha
  unfold State.record
  dsimp only at ha ⊢
  split at ha
  · next mine hp =>
    have hdev := (of_decide_eq_true ha).1
    refine ⟨hdev, Log.mem_record.mpr (Or.inr rfl), fun q todo hq => ?_⟩
    have hold := (role_of_committer (r := .op _) nofun hq).2
    exact absurd hold (h.no_committer (p := p) (by rw [hp]; rfl) q todo)
  · cases ha

theorem Inv.next_buf (h : s.Inv) (ha : s.allows a = true) {c : BufSys.State P}
    {o : Option BufSys.Event} (hc : s.bufs.next a = some (c, o)) :
    ({ s.record a with bufs := c } : State P).Inv := by
  obtain ⟨d, hd⟩ := h.bufs
  have hstep := hd.next hc
  obtain ⟨hcount, hdirty⟩ := BufSys.State.next_effect hd hc
  obtain ⟨hout, hcommitting⟩ := record_log (s := s) (a := a)
  refine ⟨⟨_, hstep.inv⟩, ?_, ?_, ?_, ?_⟩
  · intro q
    rw [(record_role q).1]
    rcases hcount q with hle | ⟨dev, blockno, rfl, heq⟩
    · exact hle.trans (h.room q)
    · rw [heq]
      exact of_decide_eq_true ha
  · intro b hb
    rcases hdirty b hb with ⟨hold, hkeep⟩ | ⟨p, rfl⟩ | ⟨p, -, hp⟩
    · rcases h.pinned b hold with ⟨p, hp⟩ | hpins
      · exact Or.inl ⟨p, hkeep p hp⟩
      · -- A buffer of the same block is the buffer that `bwrite` is called with.
        by_cases hw : ∃ p, c.pc p = .writing b
        · exact Or.inl hw
        · refine Or.inr ?_
          rw [hstep.keeps b hold]
          refine hpins.record ?_
          rintro p b' rfl heq
          have hsame : b = b' := by
            refine hd.stored.unique b b' ?_ (Prod.ext ?_ heq)
            · rw [show (s.bufs.cache.buf b).dev = ROOTDEV from hpins.1]
              decide
            · exact hpins.1.trans (dev_of_allows ha).symm
          exact hw ⟨p, hsame ▸ pc_of_bwrite hc⟩
    · refine Or.inr ?_
      have haddr : c.addr b = s.bufs.addr b := by
        simp only [BufSys.State.next] at hc
        split at hc
        · cases hc
          exact BufSys.State.setDirty_addr b
        · cases hc
      rw [haddr]
      exact h.pins_logWrite ha
    · exact Or.inl ⟨p, hp⟩
  · rw [hout, h.outstanding]
    exact congrArg Int.ofNat (Finset.sum_congr rfl fun q _ => (record_role q).2.1.symm)
  · intro q todo hq
    obtain ⟨todo', hq'⟩ := (record_role q).2.2 todo hq
    obtain ⟨h₁, h₂, h₃⟩ := h.committer q todo' hq'
    refine ⟨hcommitting.trans h₁, hout.trans h₂, fun r todo'' hr => ?_⟩
    obtain ⟨todo₃, hr'⟩ := (record_role r).2.2 todo'' hr
    exact h₃ r todo₃ hr'

theorem Inv.next (h : s.Inv) {a : Act P} {o : Unit} (hs : s.next a = some (t, o)) : t.Inv := by
  cases a with
  | buf a =>
    dsimp only [State.next] at hs
    split at hs
    · next ha =>
      obtain ⟨⟨c, e⟩, hc, heq⟩ := Option.map_eq_some_iff.mp hs
      cases heq
      exact h.next_buf ha hc
    · cases hs
  | _ => exact h.next_role (fun _ heq => by cases heq) hs

omit [DecidableEq P] in
theorem Init.inv (h : s.Init) : s.Inv := by
  obtain ⟨havedisk1, disk, sb, rfl⟩ := h
  refine ⟨⟨disk, BufSys.State.boot_inv havedisk1 disk⟩, fun _ => Nat.zero_le _, nofun, ?_, nofun⟩
  change (0 : Int) = ((∑ p : P, 0 : Nat) : Int)
  rw [Finset.sum_const_zero]
  rfl

end Steps

/-! ## Room -/

section Room

variable [Fintype P]

omit [DecidableEq P] in
theorem Inv.busy_lt (h : s.Inv) {dev blockno : Nat} (hp : s.bufs.pc p = .bget dev blockno) :
    (Finset.univ.filter fun b => (s.bufs.cache.buf b).busy = true).card <
      ∑ q, (s.role q).buffers := by
  classical
  obtain ⟨d, hd⟩ := h.bufs
  let own (q : P) : Finset BufPtr := (s.bufs.held q).toFinset ∪ (s.bufs.pc q).owned.toFinset
  have hsub : (Finset.univ.filter fun b => (s.bufs.cache.buf b).busy = true) ⊆
      Finset.univ.biUnion own := by
    intro b hb
    obtain ⟨q, hq⟩ := (hd.owned.busy b).mp (Finset.mem_filter.mp hb).2
    refine Finset.mem_biUnion.mpr ⟨q, Finset.mem_univ q, Finset.mem_union.mpr ?_⟩
    rcases hq with hpc | hheld
    · exact Or.inr (Option.mem_toFinset.mpr hpc)
    · exact Or.inl (List.mem_toFinset.mpr hheld)
  have hown : ∀ q, (own q).card ≤ (s.bufs.held q).length + (s.bufs.pc q).owned.toList.length := by
    intro q
    refine (Finset.card_union_le _ _).trans (Nat.add_le_add (List.toFinset_card_le _) ?_)
    cases (s.bufs.pc q).owned with
    | none | some _ => exact Nat.le_refl _
  have hle : ∀ q, (own q).card ≤ (s.role q).buffers := by
    intro q
    refine (hown q).trans (Nat.le_trans (Nat.add_le_add_left ?_ _) (h.room q))
    cases s.bufs.pc q with
    | got _ | reading _ => exact Nat.le_refl _
    | _ => exact Nat.zero_le _
  have hlt : (own p).card < (s.role p).buffers := by
    have hroom := h.room p
    have hself := hown p
    unfold BufSys.State.count at hroom
    rw [hp] at hroom hself
    exact Nat.lt_of_le_of_lt hself hroom
  calc (Finset.univ.filter fun b => (s.bufs.cache.buf b).busy = true).card
      ≤ (Finset.univ.biUnion own).card := Finset.card_le_card hsub
    _ ≤ ∑ q, (own q).card := Finset.card_biUnion_le
    _ < ∑ q, (s.role q).buffers :=
        Finset.sum_lt_sum (fun q _ => hle q) ⟨p, Finset.mem_univ p, hlt⟩

omit [DecidableEq P] in
theorem Inv.dirty_le (h : s.Inv) : (Finset.univ.filter fun b =>
    (s.bufs.cache.buf b).busy = false ∧ (s.bufs.cache.buf b).dirty = true).card ≤
      s.log.lh.length := by
  obtain ⟨d, hd⟩ := h.bufs
  have hpins : ∀ b, (s.bufs.cache.buf b).busy = false → (s.bufs.cache.buf b).dirty = true →
      s.Pins (s.bufs.addr b) := by
    intro b hfree hdirty
    rcases h.pinned b hdirty with ⟨p, hp⟩ | hpins
    · have hbusy := (hd.owned.busy b).mpr ⟨p, Or.inr (hd.owned.writing p b hp)⟩
      rw [hfree] at hbusy
      cases hbusy
    · exact hpins
  refine Nat.le_trans ?_ (List.toFinset_card_le s.log.lh)
  refine Finset.card_le_card_of_injOn (fun b => (s.bufs.addr b).2) ?_ ?_
  · intro b hb
    obtain ⟨-, hfree, hdirty⟩ := Finset.mem_filter.mp hb
    exact List.mem_toFinset.mpr (hpins b hfree hdirty).2.1
  · intro b hb b' hb' heq
    obtain ⟨-, hfree, hdirty⟩ := Finset.mem_filter.mp hb
    obtain ⟨-, hfree', hdirty'⟩ := Finset.mem_filter.mp hb'
    have hdev := (hpins b hfree hdirty).1
    refine hd.stored.unique b b' ?_ (Prod.ext (hdev.trans (hpins b' hfree' hdirty').1.symm) heq)
    rw [show (s.bufs.cache.buf b).dev = ROOTDEV from hdev]
    decide

/-- `bget` finds a buffer as long as the processes that use the pool and the log do not need
more than there are. -/
theorem bget_finds_buffer {tr : List (Act P × Unit)} (h : Trace.Run Init (Trace.Next next) tr s)
    {dev blockno : Nat} (hp : s.bufs.pc p = .bget dev blockno) (hload : s.load ≤ NBUF) :
    ∃ r, s.bufs.cache.bget dev blockno = .ok r := by
  have hinv : s.Inv := h.invariant (I := Inv) (fun _ hs => hs.inv) fun _ _ _ hi hs => hi.next hs
  cases hb : s.bufs.cache.bget dev blockno with
  | ok r => exact ⟨r, rfl⟩
  | error e =>
    obtain ⟨d, hd⟩ := hinv.bufs
    have hall := Bcache.Listed.bget_error hd.listed hb
    have hbusy := hinv.busy_lt hp
    have hdirty := hinv.dirty_le
    have hcover : (Finset.univ : Finset BufPtr) ⊆
        (Finset.univ.filter fun b => (s.bufs.cache.buf b).busy = true) ∪
        Finset.univ.filter fun b =>
          (s.bufs.cache.buf b).busy = false ∧ (s.bufs.cache.buf b).dirty = true := by
      intro b _
      have := hall b
      cases hbb : (s.bufs.cache.buf b).busy <;> simp_all
    have hcard := (Finset.card_le_card hcover).trans (Finset.card_union_le _ _)
    rw [Finset.card_fin] at hcard
    unfold load at hload
    omega

/-- Two processes read block 5 of the disk. -/
theorem second_reader_finds_buffer : ∃ tr, ∃ s : State (Fin 2),
    Trace.Run Init (Trace.Next next) tr s ∧ s.load = 2 ∧
      ∃ r, s.bufs.cache.bget 1 5 = .ok r := by
  obtain ⟨tr, s, hrun, hload, hpc⟩ := Trace.exec_reaches (f := next)
    (boot_init (P := Fin 2) true (fun _ _ _ => 0) Mkfs.sb)
    [.read 0, .read 1, .buf (.bread 0 1 5), .buf (.run 0), .buf (.bread 1 1 5)]
    (fun _ s => s.load = 2 ∧ s.bufs.pc 1 = .bget 1 5) (by decide +kernel)
  exact ⟨tr, s, hrun, hload, bget_finds_buffer hrun hpc (by rw [hload]; decide)⟩

/-- Thirty processes read a block each, and the next one finds no buffer. -/
theorem readers_exhaust_pool : ∃ tr, ∃ s : State (Fin 31),
    Trace.Run Init (Trace.Next next) tr s ∧ s.bufs.pc 30 = .bget 1 30 ∧
      s.bufs.cache.bget 1 30 = .error (.panic "bget: no buffers") := by
  obtain ⟨tr, s, hrun, hpc, hbget⟩ := Trace.exec_reaches (f := next)
    (boot_init (P := Fin 31) true (fun _ _ _ => 0) Mkfs.sb)
    ((List.finRange 31).flatMap fun p =>
      [.read p, .buf (.bread p 1 p.val)] ++ if p = 30 then [] else [.buf (.run p)])
    (fun _ s => s.bufs.pc 30 = .bget 1 30 ∧
      (match s.bufs.cache.bget 1 30 with
      | .error e => decide (e = .panic "bget: no buffers")
      | .ok _ => false) = true) (by decide +kernel)
  refine ⟨tr, s, hrun, hpc, ?_⟩
  split at hbget
  · next e he =>
    rw [he, of_decide_eq_true hbget]
  · cases hbget

end Room

end State

end Pool

end Xv6
