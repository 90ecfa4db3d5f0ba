import Xv6.Fs.World

/-!
# Small file systems

File systems in which a file has one block at most, with processes in the root directory, to
run the model on.
-/

namespace Xv6

namespace Fs

/-! ## The disk -/

structure Small where
  type : FileType
  nlink : BitVec 16
  size : Nat
  block : Block
  in_use : type ≠ .free
  size_le : size ≤ BSIZE

namespace Small

def dir (nlink : BitVec 16) (entries : List Dirent) (h : entries.length * DIRENTSIZE ≤ BSIZE) :
    Small where
  type := .dir
  nlink := nlink
  size := entries.length * DIRENTSIZE
  block := .ofBytes fun i => (entries.getD (i / DIRENTSIZE) ⟨0, []⟩).byte (i % DIRENTSIZE)
  in_use := nofun
  size_le := h

def empty : Small where
  type := .file
  nlink := 1
  size := 0
  block := .zero
  in_use := nofun
  size_le := Nat.zero_le _

def dinode (f : Small) (b : Nat) : Dinode :=
  { emptyInode f.type with
    nlink := f.nlink
    size := BitVec.ofNat 32 f.size
    addrs := fun j => if j = 0 ∧ f.size ≠ 0 then b else 0 }

end Small

/-- The inodes are those of the files, from 1 on, and their blocks the first data blocks. -/
def smallInode (files : List Small) : Nat → Dinode
  | 0 => emptyInode .free
  | n + 1 =>
    match files[n]? with
    | some f => f.dinode (Mkfs.sb.nmeta + n)
    | none => emptyInode .free

def smallDisk (files : List Small) : Disk where
  sb := Mkfs.sb
  bit := fun b => decide (b < Mkfs.sb.nmeta) ||
    (files[b - Mkfs.sb.nmeta]?).any fun f => decide (f.size ≠ 0)
  iblock := fun b i => smallInode files ((b - Mkfs.sb.inodestart) * IPB + i)
  block := fun b =>
    match files[b - Mkfs.sb.nmeta]? with
    | some f => f.block
    | none => .zero

section Disk

variable {files : List Small} {n b : Nat}

theorem smallInode_of_some {f : Small} (h : files[n]? = some f) :
    smallInode files (n + 1) = f.dinode (Mkfs.sb.nmeta + n) := by
  simp only [smallInode]
  rw [h]

theorem smallDisk_dinode (files : List Small) (n : Nat) :
    (smallDisk files).dinode n = smallInode files n := by
  have hn : (n / IPB + Mkfs.sb.inodestart - Mkfs.sb.inodestart) * IPB + n % IPB = n := by
    rw [Nat.add_sub_cancel]
    exact Nat.div_add_mod' n IPB
  exact congrArg (smallInode files) hn

theorem smallInode_in_use (h : (smallInode files n).type ≠ .free) :
    ∃ m f, n = m + 1 ∧ files[m]? = some f := by
  cases n with
  | zero => exact absurd rfl h
  | succ m =>
    cases hf : files[m]? with
    | some f => exact ⟨m, f, rfl, hf⟩
    | none =>
      simp only [smallInode] at h
      rw [hf] at h
      exact absurd rfl h

theorem small_owner (k : Nat × BlockSlot) :
    (smallDisk files).owner (smallDisk files).dinode k = some b ↔
      ∃ m f, k = (m + 1, .addr 0) ∧ files[m]? = some f ∧ f.size ≠ 0 ∧ b = Mkfs.sb.nmeta + m := by
  rw [Disk.owner_eq_some]
  constructor
  · rintro ⟨htype, hb, hslot⟩
    rw [smallDisk_dinode] at htype hslot
    obtain ⟨m, f, hk, hf⟩ := smallInode_in_use htype
    rw [hk, smallInode_of_some hf] at hslot
    obtain ⟨n, sl⟩ := k
    dsimp only at hk
    cases sl with
    | addr i =>
      change (if i = 0 ∧ f.size ≠ 0 then Mkfs.sb.nmeta + m else 0) = b at hslot
      split at hslot
      · next hi =>
        refine ⟨m, f, ?_, hf, hi.2, hslot.symm⟩
        rw [hk, hi.1]
      · exact absurd hslot.symm hb
    | entry j => exact absurd hslot.symm hb
  · rintro ⟨m, f, rfl, hf, hsize, rfl⟩
    rw [smallDisk_dinode, smallInode_of_some hf]
    refine ⟨f.in_use, ?_, ?_⟩
    · exact Nat.ne_of_gt (Nat.lt_of_lt_of_le (by decide) (Nat.le_add_right _ _))
    · exact if_pos ⟨rfl, hsize⟩

theorem smallDisk_sound (h : files.length ≤ Mkfs.sb.size - Mkfs.sb.nmeta) :
    (smallDisk files).Sound := by
  have hlt : ∀ {m : Nat} {f : Small}, files[m]? = some f →
      Mkfs.sb.nmeta + m < Mkfs.sb.size := by
    intro m f hf
    have := (List.getElem?_eq_some_iff.mp hf).1
    omega
  constructor
  · refine ⟨?_, ?_, ?_⟩
    · intro k k' x hk hk'
      obtain ⟨m, f, rfl, -, -, rfl⟩ := (small_owner k).mp hk
      obtain ⟨m', f', rfl, -, -, heq⟩ := (small_owner k').mp hk'
      rw [Nat.add_left_cancel heq]
    · intro k x hk hx
      obtain ⟨m, f, rfl, -, -, rfl⟩ := (small_owner k).mp hk
      exact absurd hx.1 (Nat.not_lt.mpr (Nat.le_add_right _ _))
    · intro x
      have hbit : (smallDisk files).bit x = true ↔ x < Mkfs.sb.nmeta ∨
          ∃ f, files[x - Mkfs.sb.nmeta]? = some f ∧ f.size ≠ 0 := by
        simp [smallDisk, Option.any_eq_true]
      rw [hbit]
      constructor
      · rintro ⟨hx, hmeta | ⟨f, hf, hsize⟩⟩
        · exact Or.inl ⟨hmeta, hx⟩
        · by_cases hmeta : x < Mkfs.sb.nmeta
          · exact Or.inl ⟨hmeta, hx⟩
          · refine Or.inr ⟨_, (small_owner _).mpr ⟨_, f, rfl, hf, hsize, ?_⟩⟩
            omega
      · rintro (⟨hmeta, hx⟩ | ⟨k, hk⟩)
        · exact ⟨hx, Or.inl hmeta⟩
        · obtain ⟨m, f, rfl, hf, hsize, rfl⟩ := (small_owner k).mp hk
          refine ⟨hlt hf, Or.inr ⟨f, ?_, hsize⟩⟩
          rwa [Nat.add_sub_cancel_left]
  · intro n htype bn hbn
    rw [smallDisk_dinode] at htype hbn ⊢
    obtain ⟨m, f, rfl, hf⟩ := smallInode_in_use htype
    rw [smallInode_of_some hf] at hbn ⊢
    change bn * BSIZE < (BitVec.ofNat 32 f.size).toNat at hbn
    have hsize := f.size_le
    rw [BitVec.toNat_ofNat] at hbn
    -- only the first block is below the size
    have hzero : bn = 0 := by
      unfold BSIZE at hbn hsize
      omega
    subst hzero
    have hpos : f.size ≠ 0 := by
      intro h0
      rw [h0] at hbn
      exact absurd hbn (Nat.not_lt_zero _)
    change (if (0 : Fin (NDIRECT + 1)) = 0 ∧ f.size ≠ 0 then Mkfs.sb.nmeta + m else 0) ≠ 0
    rw [if_pos ⟨rfl, hpos⟩]
    exact Nat.ne_of_gt (Nat.lt_of_lt_of_le (by decide) (Nat.le_add_right _ _))

end Disk

/-! ## Processes -/

/-- Processes in the root directory, of which the first has some descriptors of one open
file. -/
structure Setup (procs : Nat) where
  files : List Small
  inum : Nat
  fds : Nat

def entryFor (files : List Small) (inum : Nat) (ref : Int) : Inode where
  dev := ROOTDEV
  inum := inum
  ref := ref
  busy := false
  valid := true
  d := smallInode files inum

namespace Setup

variable {procs : Nat}

def fs (x : Setup procs) : Fs where
  toDisk := smallDisk x.files
  icache := fun ip =>
    if ip = 0 then entryFor x.files ROOTINO procs
    else if ip = 1 ∧ x.fds ≠ 0 then entryFor x.files x.inum 1
    else
      { dev := ROOTDEV, inum := 0, ref := 0, busy := false, valid := false
        d := emptyInode .free }
  ftable := fun f =>
    if f = 0 ∧ x.fds ≠ 0 then
      { type := .inode, ref := x.fds, readable := true, writable := true, pipe := 0, ip := 1
        off := 0 }
    else
      { type := .none, ref := 0, readable := false, writable := false, pipe := 0, ip := 0
        off := 0 }
  pipes := 0
  console := none
  pipe := 0
  memory := true
  stack := fun _ => 0

def caller (x : Setup procs) (t : Fin procs) : Caller where
  cwd := some 0
  ofile := fun fd => if t.val = 0 ∧ fd.val < x.fds then some 0 else none
  uid := 0
  gid := 0

def world (x : Setup procs) : World (Fin procs) where
  sys := {
    shared := { fs := x.fs, seen := [], closed := [], calm := true }
    procs := fun t => { own := Own.resting (x.caller t) .still, prog := none } }
  slot := fun _ => .used

structure Ok (x : Setup procs) : Prop where
  root : 0 < x.files.length
  room : x.files.length ≤ Mkfs.sb.size - Mkfs.sb.nmeta
  procs : 0 < procs
  inum : 1 < x.inum ∧ x.inum ≤ x.files.length
  fds : x.fds ≤ NOFILE

instance (x : Setup procs) : Decidable x.Ok :=
  decidable_of_iff
    (0 < x.files.length ∧ x.files.length ≤ Mkfs.sb.size - Mkfs.sb.nmeta ∧ 0 < procs ∧
      (1 < x.inum ∧ x.inum ≤ x.files.length) ∧ x.fds ≤ NOFILE)
    ⟨fun ⟨h₁, h₂, h₃, h₄, h₅⟩ => ⟨h₁, h₂, h₃, h₄, h₅⟩, fun ⟨h₁, h₂, h₃, h₄, h₅⟩ =>
      ⟨h₁, h₂, h₃, h₄, h₅⟩⟩

variable {x : Setup procs}

theorem opens_fs (x : Setup procs) (ip : InodePtr) :
    x.fs.opens ip = if ip = 1 ∧ x.fds ≠ 0 then 1 else 0 := by
  have hiff : ∀ f, (x.fs.ftable f).Opens ip ↔ f = 0 ∧ ip = 1 ∧ x.fds ≠ 0 := by
    intro f
    unfold fs File.Opens
    dsimp only
    split
    · next hf =>
      have hpos : 0 < x.fds := Nat.pos_of_ne_zero hf.2
      simp [hf.1, hpos, eq_comm, Nat.ne_of_gt hpos]
    · next hf =>
      simp only [Int.lt_irrefl, false_and, false_iff]
      exact fun h => hf ⟨h.1, h.2.2⟩
  unfold Fs.opens
  simp only [hiff]
  split
  · next hip =>
    refine Finset.card_eq_one.mpr ⟨0, ?_⟩
    ext f
    simp [hip]
  · next hip =>
    simp only [hip, and_false]
    simp

theorem inProc_caller (t : Fin procs) (ip : InodePtr) :
    (inProc (x.caller t)).1 ip = if ip = 0 then 1 else 0 := by
  simp [inProc, caller, eq_comm]

theorem slots_caller (h : x.fds ≤ NOFILE) (t : Fin procs) (f : FilePtr) :
    (x.caller t).slots f = if t.val = 0 ∧ f = 0 then (x.fds : Int) else 0 := by
  have hiff : ∀ fd, (x.caller t).ofile fd = some f ↔ (t.val = 0 ∧ f = 0) ∧ fd.val < x.fds := by
    intro fd
    unfold caller
    dsimp only
    split
    · next hfd => simp [hfd, eq_comm]
    · next hfd =>
      simp only [reduceCtorEq, false_iff]
      exact fun hf => hfd ⟨hf.1.1, hf.2⟩
  unfold Caller.slots
  simp only [hiff]
  split
  · next ht =>
    simp only [ht, true_and, and_self]
    rw [Fin.card_filter_val_lt, Nat.min_eq_right h]
  · next ht =>
    simp only [ht, false_and]
    simp

theorem icache_fs {ip : InodePtr} (h : 0 < (x.fs.icache ip).ref) :
    (ip = 0 ∧ (x.fs.icache ip).inum = ROOTINO) ∨ (ip = 1 ∧ (x.fs.icache ip).inum = x.inum) := by
  unfold fs at h ⊢
  dsimp only at h ⊢
  split
  · next h0 => exact Or.inl ⟨h0, rfl⟩
  · next h0 =>
    rw [if_neg h0] at h
    split
    · next h1 => exact Or.inr ⟨h1.1, rfl⟩
    · next h1 =>
      rw [if_neg h1] at h
      exact absurd h (Int.lt_irrefl 0)

theorem in_use {n : Nat} (h : 0 < n ∧ n ≤ x.files.length) :
    (smallInode x.files n).type ≠ .free := by
  obtain ⟨m, rfl⟩ : ∃ m, n = m + 1 := ⟨n - 1, by omega⟩
  have hm : x.files[m]? = some (x.files.get ⟨m, by omega⟩) := List.getElem?_eq_getElem _
  rw [smallInode_of_some hm]
  exact (x.files.get ⟨m, by omega⟩).in_use

theorem init (h : x.Ok) : Init x.world := by
  constructor
  case own => exact fun _ => rfl
  case prog => exact fun _ => rfl
  case slot => exact fun _ => Or.inl rfl
  case gone => exact fun _ hm => Mode.noConfusion hm
  case seen => rfl
  case calm => rfl
  case sound => exact smallDisk_sound h.room
  case inj =>
    intro ip jp hip hjp heq
    have hinum := h.inum.1
    rcases icache_fs hip with ⟨rfl, h₁⟩ | ⟨rfl, h₁⟩
    · rcases icache_fs hjp with ⟨rfl, h₂⟩ | ⟨rfl, h₂⟩
      · rfl
      · change (x.fs.icache 0).inum = (x.fs.icache 1).inum at heq
        rw [h₁, h₂] at heq
        exact absurd heq (Nat.ne_of_lt hinum)
    · rcases icache_fs hjp with ⟨rfl, h₂⟩ | ⟨rfl, h₂⟩
      · change (x.fs.icache 1).inum = (x.fs.icache 0).inum at heq
        rw [h₁, h₂] at heq
        exact absurd heq (Nat.ne_of_gt hinum)
      · rfl
  case refs =>
    intro ip
    change (x.fs.icache ip).ref = x.fs.opens ip + ∑ t, (inProc (x.caller t)).1 ip
    simp only [inProc_caller, opens_fs, Finset.sum_const, Finset.card_univ, Fintype.card_fin]
    unfold fs
    dsimp only
    split
    · next h0 =>
      subst h0
      have h01 : ¬ ((0 : InodePtr) = 1 ∧ x.fds ≠ 0) := fun h => absurd h.1 (by decide)
      simp only [if_neg h01]
      simp [entryFor]
    · split
      · simp [entryFor]
      · simp
  case busy =>
    intro ip
    change (x.fs.icache ip).busy = false
    unfold fs
    dsimp only
    split
    · rfl
    · split
      · rfl
      · rfl
  case valid =>
    intro ip hip
    change _ ∧ _ ∧ x.fs.dinode (x.fs.icache ip).inum = _ ∧ _
    rw [show x.fs.dinode (x.fs.icache ip).inum = _ from smallDisk_dinode _ _]
    rcases icache_fs hip with ⟨rfl, -⟩ | ⟨rfl, -⟩
    · exact ⟨rfl, rfl, rfl, in_use ⟨Nat.one_pos, h.root⟩⟩
    · have hne : ¬ (1 : InodePtr) = 0 := by decide
      have hfds : x.fds ≠ 0 := by
        intro h0
        change 0 < (x.fs.icache 1).ref at hip
        unfold fs at hip
        simp [h0, hne] at hip
      have hentry : x.fs.icache 1 = entryFor x.files x.inum 1 := by
        unfold fs
        dsimp only
        rw [if_neg hne, if_pos ⟨rfl, hfds⟩]
      change (x.fs.icache 1).valid = true ∧ (x.fs.icache 1).dev = ROOTDEV ∧
        smallInode x.files (x.fs.icache 1).inum = (x.fs.icache 1).d ∧
        (x.fs.icache 1).d.type ≠ .free
      rw [hentry]
      exact ⟨rfl, rfl, rfl, in_use ⟨Nat.lt_of_succ_lt h.inum.1, h.inum.2⟩⟩
  case files =>
    intro f
    change (x.fs.ftable f).ref = ∑ t, (x.caller t).slots f
    simp only [slots_caller h.fds]
    rw [Finset.sum_eq_single (⟨0, h.procs⟩ : Fin procs)]
    · unfold fs
      dsimp only
      by_cases hf : f = 0
      · by_cases hfds : x.fds = 0
        · simp [hfds]
        · simp [hf, hfds]
      · simp [hf]
    · intro t _ ht
      rw [if_neg fun hf => ht (Fin.ext hf.1)]
    · exact fun hne => absurd (Finset.mem_univ _) hne
  case unused =>
    intro f hf
    change (x.fs.ftable f).type = .none
    change (x.fs.ftable f).ref = 0 at hf
    unfold fs at hf ⊢
    dsimp only at hf ⊢
    split
    · next h0 =>
      rw [if_pos h0] at hf
      exact absurd (Int.ofNat_eq_zero.mp hf) h0.2
    · rfl
  case ends =>
    intro p v
    have hnone : x.fs.ends p v = 0 := by
      unfold Fs.ends
      rw [Finset.card_eq_zero, Finset.filter_eq_empty_iff]
      intro f _ hf
      have htype := hf.2.1
      unfold fs at htype
      dsimp only at htype
      split at htype
      · cases htype
      · cases htype
    change x.fs.ends p v + _ + _ = if p < 0 then 1 else 0
    rw [hnone, if_neg (Nat.not_lt_zero p)]
    rfl

theorem tidy (x : Setup procs) (h : ∀ f ∈ x.files, f.nlink ≠ 0) : x.world.Tidy ∅ := by
  intro m _ htype
  change (x.fs.dinode m).type ≠ .free at htype
  rw [show x.fs.dinode m = smallInode x.files m from smallDisk_dinode _ _] at htype
  obtain ⟨n, f, rfl, hf⟩ := smallInode_in_use htype
  left
  change (x.fs.dinode (n + 1)).nlink ≠ 0
  rw [show x.fs.dinode (n + 1) = smallInode x.files (n + 1) from smallDisk_dinode _ _,
    smallInode_of_some hf]
  exact h f (List.mem_of_getElem? hf)

end Setup

def oneFile : Setup 1 where
  files := [.dir 1 [⟨1, dot⟩, ⟨1, dotdot⟩, ⟨2, [102]⟩] (by decide), .empty]
  inum := 2
  fds := 1

theorem oneFile_init : Init oneFile.world := Setup.init (by decide)

def twoDirs : Setup 2 where
  files := [.dir 2 [⟨1, dot⟩, ⟨1, dotdot⟩, ⟨2, [97]⟩] (by decide),
    .dir 2 [⟨2, dot⟩, ⟨1, dotdot⟩, ⟨3, [98]⟩] (by decide),
    .dir 1 [⟨3, dot⟩, ⟨2, dotdot⟩] (by decide)]
  inum := 2
  fds := 0

theorem twoDirs_init : Init twoDirs.world := Setup.init (by decide)

def doing {T : Type} (t : T) (q : Request) (n : Nat) : List (Action T) :=
  .start t q :: List.replicate n (.advance t)

end Fs

end Xv6
