import Xv6.Fs.Balanced

/-!
# Operations on files

Besides the system calls, processes may call `writei`, `create`, `dirlink` and `iput` on inodes
given by their number. However they interleave, a block is marked in the free map when it is
before the data blocks or when one slot of one inode refers to it, and files have no holes.
-/

namespace Xv6

namespace Fs

open Prog

inductive Operation
  | writei (inum : Nat) (src : Nat → Byte) (off n : Word)
  | create (path : List Byte) (type : FileType) (h : type ≠ .free) (major minor : BitVec 16)
  | dirlink (dir : Nat) (name : List Byte) (inum : Nat)
  | iput (inum : Nat)

def Operation.program : Operation → Program Int
  | writei inum src off n => do
    lift .beginOp
    let ip ← lift (.iget ROOTDEV inum)
    lift (.ilock ip)
    let r ← Fs.writei ip src off n
    lift (.iunlock ip)
    lift .endOp
    -- the reference is dropped in another transaction, as by `fileclose`
    lift .beginOp
    Fs.iput ip
    lift .endOp
    pure (r.elim (-1) fun r => r)
  | create path type _ major minor => do
    lift .beginOp
    match ← Fs.create path type major minor with
    | none => abort
    | some ip =>
      iunlockput ip
      lift .endOp
      pure 0
  | dirlink dir name inum => do
    lift .beginOp
    let dp ← lift (.iget ROOTDEV dir)
    lift (.ilock dp)
    let linked ← Fs.dirlink dp name inum
    iunlockput dp
    lift .endOp
    pure (if linked then 0 else -1)
  | iput inum => do
    lift .beginOp
    let ip ← lift (.iget ROOTDEV inum)
    lift (.ilock ip)
    iunlockput ip
    lift .endOp
    pure 0

section Safe

variable {me : Caller} {c : Nat} {r : Role}

theorem writei_operation_safe {inum : Nat} {src : Nat → Byte} {off n : Word} :
    (Operation.writei inum src off n).program.Safe wp ⟨me.tokens c, ⟨me, .outside, r⟩⟩
      fun _ => Rest r := by
  have hrest : Rest r ⟨me.tokens c, ⟨me, .outside, r⟩⟩ := ⟨me, c, rfl⟩
  refine safe_call ⟨rfl, Or.inr (safe_call ⟨rfl, fun ip => ?_⟩)⟩
  refine ilock_safe (h := .own ip inum) rfl rfl rfl ?_
  -- whatever was written, the transaction ends, and there is a reference to drop
  have hend : ∀ (x : Option Nat) (l : Ledger), l ≠ .outside → (do
      lift (.iunlock ip)
      lift .endOp
      lift .beginOp
      Fs.iput ip
      lift .endOp
      Pure.pure (x.elim (-1) fun r => r) : Program Int).Safe wp
      ⟨.lock (.own ip inum) .clean ::ₘ me.tokens c, ⟨me, l, r⟩⟩ fun _ => Rest r := by
    intro x l hl
    refine iunlock_safe (h := .own ip inum) rfl (endOp_safe hl (beginOp_safe ?_))
    exact seq_safe (iput_safe rfl rfl rfl (endOp_safe nofun (safe_pure hrest)))
  refine seq_safe (writei_safe (h := .own ip inum) rfl ?_ ?_)
  · exact fun x => hend x _ nofun
  · exact fun x => hend x _ nofun

theorem create_operation_safe {path : List Byte} {type : FileType} {h : type ≠ .free}
    {major minor : BitVec 16} :
    (Operation.create path type h major minor).program.Safe wp
      ⟨me.tokens c, ⟨me, .outside, r⟩⟩ fun _ => Rest r := by
  have hrest : Rest r ⟨me.tokens c, ⟨me, .outside, r⟩⟩ := ⟨me, c, rfl⟩
  refine beginOp_safe (seq_safe (create_safe h (Caller.hasCwd_tokens me c)
    (abort_safe nofun hrest) ?_))
  intro ip n N k
  exact seq_safe (iunlockput_safe rfl (endOp_safe nofun (safe_pure hrest)))

theorem dirlink_operation_safe {dir inum : Nat} {name : List Byte} :
    (Operation.dirlink dir name inum).program.Safe wp ⟨me.tokens c, ⟨me, .outside, r⟩⟩
      fun _ => Rest r := by
  have hrest : Rest r ⟨me.tokens c, ⟨me, .outside, r⟩⟩ := ⟨me, c, rfl⟩
  refine beginOp_safe (safe_call ⟨rfl, fun dp => ?_⟩)
  refine ilock_safe (h := .own dp dir) rfl rfl rfl ?_
  have hend : ∀ (b : Bool) N k, (do
      iunlockput dp
      lift .endOp
      Pure.pure (if b then 0 else -1) : Program Int).Safe wp
      ⟨.lock (.own dp dir) .clean ::ₘ me.tokens c, ⟨me, .normal N k, r⟩⟩ fun _ => Rest r := by
    intro b N k
    exact seq_safe (iunlockput_safe rfl (endOp_safe nofun (safe_pure hrest)))
  refine seq_safe (dirlink_safe (h := .own dp dir) (Multiset.mem_cons_self _ _)
    ?_ (hend _ _ _) (hend _ _ _))
  exact room_of_subset (m := dir) (n := dir) (by simp) (by omega)

theorem iput_operation_safe {inum : Nat} :
    (Operation.iput inum).program.Safe wp ⟨me.tokens c, ⟨me, .outside, r⟩⟩ fun _ => Rest r := by
  have hrest : Rest r ⟨me.tokens c, ⟨me, .outside, r⟩⟩ := ⟨me, c, rfl⟩
  refine beginOp_safe (safe_call ⟨rfl, fun ip => ?_⟩)
  refine ilock_safe (h := .own ip inum) rfl rfl rfl ?_
  exact seq_safe (iunlockput_safe rfl (endOp_safe nofun (safe_pure hrest)))

theorem Operation.program_safe (op : Operation) :
    op.program.Safe wp ⟨me.tokens c, ⟨me, .outside, ⟨.still, none⟩⟩⟩ fun _ => AtRest := by
  have hsafe : op.program.Safe wp ⟨me.tokens c, ⟨me, .outside, ⟨.still, none⟩⟩⟩
      fun _ => Rest ⟨.still, none⟩ := by
    cases op with
    | writei inum src off n => exact writei_operation_safe
    | create path type h major minor => exact create_operation_safe
    | dirlink dir name inum => exact dirlink_operation_safe
    | iput inum => exact iput_operation_safe
  exact hsafe.mono wp_mono fun _ _ h => h.atRest rfl nofun

end Safe

/-! ## Processes -/

inductive Work (T : Type)
  | sys (a : Action T)
  | operate (t : T) (op : Operation)

variable {T : Type} [DecidableEq T]

def work (w : World T) : Work T → Option (World T × Unit)
  | .sys a => next w a
  | .operate t op =>
    if w.Ready t then some (w.set t { w.own t with mode := .still } (some op.program), ())
    else none

variable [Fintype T] {sb : Superblock} {base : Nat → Attr} {lost : Set Nat} {w w' : World T}
  {tr : List (Work T × Unit)}

theorem World.Ok.work {a : Work T} {e : Unit} (hw : w.Ok sb base lost)
    (h : Fs.work w a = some (w', e)) : w'.Ok sb base lost := by
  cases a with
  | sys a => exact hw.next h
  | operate t op =>
    dsimp only [Fs.work] at h
    split at h
    · next ht =>
      cases h
      exact hw.run ht fun _ _ => op.program_safe
    · cases h

/-- In every state that processes reach by system calls and operations, from one where the
free map is right and no file has a hole: a block is marked when it is before the data
blocks, or when exactly one slot of the inodes in use refers to it; no two slots refer to one
block; no file has a hole; and no call panics with `freeing free block`. -/
theorem blocks_have_one_owner (h : Trace.Run Init (Trace.Next work) tr w) :
    (∀ b < w.fs.sb.size, w.fs.bit b = true ↔ b < w.fs.sb.nmeta ∨
      ∃! k : Nat × BlockSlot, w.fs.owner w.fs.dinode k = some b) ∧
    (∀ k k' b, w.fs.owner w.fs.dinode k = some b → w.fs.owner w.fs.dinode k' = some b →
      k = k') ∧
    (∀ n, (w.fs.dinode n).type ≠ .free → ∀ bn, bn * BSIZE < (w.fs.dinode n).size.toNat →
      w.fs.blockOf (w.fs.dinode n) bn ≠ 0) ∧
    ∀ t {β : Type} (c : Call β) (k : β → Program Int) (e : Fault),
      w.prog t = some (.call c k) → act β c (w.sys.shared, w.own t) = .error e →
      e ≠ .panic "freeing free block" := by
  obtain ⟨sb, base, lost, hw⟩ : ∃ sb base lost, w.Ok sb base lost := by
    refine h.invariant (I := fun w => ∃ sb base lost, World.Ok sb base lost w) ?_ ?_
    · exact fun w hw => ⟨_, _, Set.univ, hw.ok fun m hm => absurd (Set.mem_univ m) hm⟩
    · rintro w a w' ⟨sb, base, lost, hw⟩ hstep
      exact ⟨sb, base, lost, hw.work hstep⟩
  obtain ⟨M, hgood, -⟩ := hw.tokens
  have halloc : w.fs.Alloc w.fs.dinode := hgood.inv.sound.alloc
  refine ⟨fun b hb => ?_, halloc.inj, hgood.inv.sound.full, ?_⟩
  · constructor
    · intro hbit
      rcases (halloc.used_iff b).mp ⟨hb, hbit⟩ with hmeta | ⟨k, hk⟩
      · exact Or.inl hmeta.1
      · exact Or.inr ⟨k, hk, fun k' hk' => halloc.inj k' k b hk' hk⟩
    · rintro (hmeta | ⟨k, hk, -⟩)
      · exact ((halloc.used_iff b).mpr (Or.inl ⟨hmeta, hb⟩)).2
      · exact (halloc.used_of_owner hk).2
  · intro t β c k e hp he
    exact (hw.holds.fault (calls_sound sb base lost) hp he).1

/-- A write of one and a half blocks to an empty file. -/
theorem block_owned_after_write : ∃ tr, ∃ w : World (Fin 1),
    Trace.Run Init (Trace.Next work) tr w ∧ w.prog 0 = none ∧
    (w.fs.dinode 2).size = 768 ∧ w.fs.blockOf (w.fs.dinode 2) 1 ≠ 0 := by
  obtain ⟨tr, w, hrun, hnone, hsize, htype⟩ := Trace.exec_reaches (f := work) oneFile_init
    (.operate 0 (.writei 2 (fun _ => 7) 0 768) :: List.replicate 11 (.sys (.advance 0)))
    (fun _ w => (w.prog 0).isNone ∧ (w.fs.dinode 2).size = 768 ∧
      (w.fs.dinode 2).type = .file) (by decide +kernel)
  refine ⟨tr, w, hrun, Option.isNone_iff_eq_none.mp hnone, hsize, ?_⟩
  refine (blocks_have_one_owner hrun).2.2.1 2 ?_ 1 ?_
  · rw [htype]
    decide
  · rw [hsize]
    decide

end Fs

end Xv6
