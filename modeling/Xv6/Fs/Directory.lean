import Xv6.Fs.Seq

/-!
# Directories as maps

A directory whose live entries have different names is a finite map from names to inode
numbers: `dirlookup` looks a name up, `dirlink` adds a name that is not there, and
`sys_unlink` removes one by clearing its entry.
-/

namespace Xv6

namespace Disk

variable {s : Disk} {d : Dinode} {k : Nat} {name : List Byte}

def Names (s : Disk) (d : Dinode) (k : Nat) (name : List Byte) : Prop :=
  k < d.entries ∧ (s.dirent d k).inum ≠ 0 ∧ namecmp name (s.dirent d k).name = 0

def lookup (s : Disk) (d : Dinode) (name : List Byte) : Option Nat :=
  (s.slots d).lookup (nameKey name)

theorem holds_iff {v : Nat} : (s.slots d).Holds k (nameKey name) v ↔
    s.Names d k name ∧ (s.dirent d k).inum.toNat = v := by
  unfold Slots.Holds Names
  rw [namecmp_eq_zero]
  change k < d.entries ∧ (s.dirent d k).pair = _ ↔ _
  unfold Dirent.pair
  by_cases hz : (s.dirent d k).inum = 0
  · simp [hz]
  · rw [if_neg hz]
    constructor
    · intro ⟨hk, heq⟩
      obtain ⟨hname, hv⟩ := Prod.mk.inj (Option.some.inj heq)
      exact ⟨⟨hk, hz, hname.symm⟩, hv⟩
    · intro ⟨⟨hk, _, hname⟩, hv⟩
      rw [hname, hv]
      exact ⟨hk, rfl⟩

end Disk

namespace Fs

open Effect Prog

/-- A directory whose live entries have different names, with its inode as it is on disk. -/
structure Directory (s : Fs) (dp : InodePtr) : Prop where
  sound : s.Sound
  clean : s.Clean dp
  type : (s.icache dp).d.type = .dir
  whole : (s.icache dp).d.Whole
  unique : ∀ i j, i < (s.icache dp).d.entries → j < (s.icache dp).d.entries →
    (s.dirent (s.icache dp).d i).inum ≠ 0 → (s.dirent (s.icache dp).d j).inum ≠ 0 →
    namecmp (s.dirent (s.icache dp).d i).name (s.dirent (s.icache dp).d j).name = 0 → i = j

variable {s t : Fs} {me : Caller} {dp : InodePtr} {name : List Byte}

theorem unique_iff {d : Dinode} : (s.slots d).Unique ↔
    ∀ i j, i < d.entries → j < d.entries →
      (s.dirent d i).inum ≠ 0 → (s.dirent d j).inum ≠ 0 →
      namecmp (s.dirent d i).name (s.dirent d j).name = 0 → i = j := by
  constructor
  · intro h i j hi hj hzi hzj hname
    apply h i j (nameKey (s.dirent d i).name) _ _ (Disk.holds_iff.mpr ⟨⟨hi, hzi, ?_⟩, rfl⟩)
      (Disk.holds_iff.mpr ⟨⟨hj, hzj, hname⟩, rfl⟩)
    exact namecmp_eq_zero.mpr rfl
  · intro h i j k v w hi hj
    have hpair : ∀ a u, (s.slots d).Holds a k u → (s.dirent d a).inum ≠ 0 ∧
        nameKey (s.dirent d a).name = k := by
      intro a u ha
      have hget : (s.dirent d a).pair = some (k, u) := ha.2
      unfold Dirent.pair at hget
      split at hget
      · cases hget
      · next hz =>
        cases hget
        exact ⟨hz, rfl⟩
    obtain ⟨hzi, hki⟩ := hpair i v hi
    obtain ⟨hzj, hkj⟩ := hpair j w hj
    exact h i j hi.1 hj.1 hzi hzj (namecmp_eq_zero.mpr (hki.trans hkj.symm))

namespace Directory

theorem slots_unique (h : s.Directory dp) : (s.slots (s.icache dp).d).Unique :=
  unique_iff.mpr h.unique

theorem alive (h : s.Directory dp) : (s.icache dp).d.type ≠ .free := by
  rw [h.type]
  exact FileType.noConfusion

theorem readable (h : s.Directory dp) : s.Readable dp := Fs.readable h.sound h.clean h.alive

theorem fits (h : s.Directory dp) {k : Nat} (hk : k ≤ (s.icache dp).d.entries)
    (hmax : k < (s.icache dp).d.entries ∨ (s.icache dp).d.size.toNat < MAXFILE * BSIZE) :
    k * DIRENTSIZE ≤ (s.icache dp).d.size.toNat ∧
      k * DIRENTSIZE + DIRENTSIZE ≤ MAXFILE * BSIZE := by
  have hle := NoHole.size_le h.readable.full
  have hwhole := h.whole
  have hM : MAXFILE * BSIZE = 70656 := by decide
  rw [hM] at hle hmax ⊢
  unfold Dinode.Whole at hwhole
  unfold Dinode.entries at hk hmax
  unfold DIRENTSIZE DIRSIZ at hwhole hk hmax ⊢
  omega

theorem writeDirent_does (h : s.Directory dp) {de : Dirent} {k : Nat} {msg : String}
    {Q : Unit → Fs × Caller → Prop} {X : Fault → Prop} (hk : k ≤ (s.icache dp).d.entries)
    (hmax : k < (s.icache dp).d.entries ∨ (s.icache dp).d.size.toNat < MAXFILE * BSIZE)
    (hQ : ∀ t, FsM.Updated dp de.byte (k * DIRENTSIZE) DIRENTSIZE s t → Q () (t, me))
    (hX : s.spare < s.need (s.icache dp).d (k * DIRENTSIZE) DIRENTSIZE → X outOfBlocks) :
    (writeDirent dp de (k * DIRENTSIZE) msg).Does step (s, me) Q X := by
  obtain ⟨hoff, hend⟩ := h.fits hk hmax
  have hM : MAXFILE * BSIZE = 70656 := by decide
  have hD : DIRENTSIZE = 16 := rfl
  have hoffNat : (BitVec.ofNat 32 (k * DIRENTSIZE)).toNat = k * DIRENTSIZE := by
    rw [BitVec.toNat_ofNat]
    omega
  have hnNat : (BitVec.ofNat 32 DIRENTSIZE).toNat = DIRENTSIZE := rfl
  have hsum : (BitVec.ofNat 32 (k * DIRENTSIZE) + BitVec.ofNat 32 DIRENTSIZE).toNat =
      k * DIRENTSIZE + DIRENTSIZE := by
    rw [BitVec.toNat_add, hoffNat, hnNat]
    omega
  have hok : ¬ (BitVec.ofNat 32 (k * DIRENTSIZE) > (s.icache dp).d.size ∨
      BitVec.ofNat 32 (k * DIRENTSIZE) + BitVec.ofNat 32 DIRENTSIZE <
        BitVec.ofNat 32 (k * DIRENTSIZE) ∨
      (BitVec.ofNat 32 (k * DIRENTSIZE) + BitVec.ofNat 32 DIRENTSIZE).toNat >
        MAXFILE * BSIZE) := by
    rw [gt_iff_lt, BitVec.lt_def, BitVec.lt_def, hsum, hoffNat]
    omega
  refine does_bind (does_bind (does_run rfl rfl (ends_bind (ends_get (ends_pure ?_)))))
  rw [if_neg (by rw [h.type]; exact FileType.noConfusion)]
  refine does_run rfl rfl ((FsM.writei_ends h.sound h.clean h.alive).mono ?_ ?_)
  · intro r t _ hr
    rw [if_neg hok, hoffNat, hnNat] at hr
    obtain ⟨rfl, hup, -⟩ := hr
    rw [if_pos rfl]
    exact does_pure (hQ t hup)
  · rintro f ⟨rfl, hspare⟩
    rw [hoffNat, hnNat] at hspare
    exact hX hspare

theorem updated (h : s.Directory dp) {de : Dirent} {k : Nat}
    (hup : FsM.Updated dp de.byte (k * DIRENTSIZE) DIRENTSIZE s t)
    (hu : ((s.slots (s.icache dp).d).set k de.pair).Unique) : t.Directory dp where
  sound := hup.sound
  clean := hup.clean
  type := by
    rw [hup.self]
    exact h.type
  whole := hup.whole h.whole
  unique := by
    apply unique_iff.mp
    rwa [hup.slots h.clean h.alive h.whole]

end Directory

theorem dirlookup_does (h : s.Directory dp) :
    (dirlookup dp name).Does step (s, me)
      (fun r w => w.2 = me ∧ match r with
        | some (ip, off) => ∃ k, (s.slots (s.icache dp).d).find (nameKey name) = some k ∧
            off = k * DIRENTSIZE ∧
            Got (s.icache dp).dev (s.dirent (s.icache dp).d k).inum.toNat s ip w.1
        | none => (s.slots (s.icache dp).d).find (nameKey name) = none ∧ w.1 = s)
      (fun f => f = noInodes ∧ (s.slots (s.icache dp).d).find (nameKey name) ≠ none) := by
  refine does_bind (does_run rfl rfl
    ((FsM.dirfind_ends h.readable h.type).mono ?_ fun _ hf => absurd h.whole hf.2))
  rintro r t - ⟨rfl, rfl⟩
  cases hf : (t.slots (t.icache dp).d).find (nameKey name) with
  | none => exact does_pure ⟨rfl, rfl, rfl⟩
  | some k =>
    refine does_bind (does_run rfl rfl (FsM.iget_ends.mono ?_ fun _ hf => ⟨hf, nofun⟩))
    rintro ip u - ⟨hgot, -⟩
    exact does_pure ⟨rfl, k, rfl, rfl, hgot⟩

theorem iput_got_does {dev inum : Nat} {ip : InodePtr} {Q : Unit → Fs × Caller → Prop}
    {X : Fault → Prop} (h : Got dev inum s ip t)
    (hQ : ∀ u, u.toDisk = s.toDisk → (∀ jp, 0 < (s.icache jp).ref → u.icache jp = s.icache jp) →
      Q () (u, me)) :
    (iput ip).Does step (t, me) Q X := by
  have hkeep : ¬ ((t.icache ip).ref = 1 ∧ (t.icache ip).valid = true ∧
      (t.icache ip).d.nlink = 0) := by
    rintro ⟨href, hvalid, -⟩
    by_cases hp : 0 < (s.icache ip).ref
    · rw [h.ref] at href
      omega
    · rw [(h.new hp).2.2.2.1] at hvalid
      cases hvalid
  refine does_bind (does_run rfl rfl (FsM.iputTest_keep_ends hkeep ?_))
  rw [if_neg Bool.false_ne_true]
  refine does_pure (hQ _ h.toDisk ?_)
  intro jp hj
  dsimp only
  by_cases hjp : jp = ip
  · subst hjp
    rw [Function.update_self, h.old hj]
    simp
  · rw [Function.update_of_ne hjp, h.icache_of_ne hjp]

theorem fresh_directory : (fresh .dir).Directory 0 where
  sound := fresh_sound .dir
  clean := fresh_clean .dir
  type := rfl
  whole := rfl
  unique := fun _ _ hi => absurd hi (Nat.not_lt_zero _)

end Fs

end Xv6
