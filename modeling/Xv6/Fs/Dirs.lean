import Xv6.Fs.Trunc
import Xv6.Lib.Slots

/-!
# Directories

The entries of a directory as the bytes of its inode give them, names as `namecmp` and
`strncpy` see them, and the loops of `dirlookup`, `dirlink` and `isdirempty`.
-/

namespace Xv6

/-! ## Names -/

/-- The characters before the terminating zero, `n` at most. -/
def cstring (n : Nat) (p : List Byte) : List Byte := (p.take n).takeWhile (· ≠ 0)

def nameKey (name : List Byte) : List Byte := cstring DIRSIZ name

theorem cstring_succ {n : Nat} {p : List Byte} : cstring (n + 1) p =
    if p.headD 0 = 0 then [] else p.headD 0 :: cstring n p.tail := by
  cases p with
  | nil => simp [cstring]
  | cons a p =>
    unfold cstring
    rw [List.take_succ_cons, List.takeWhile_cons]
    by_cases ha : a = 0
    · simp [ha]
    · rw [if_pos (by simpa using ha), List.headD_cons, if_neg ha, List.tail_cons]

theorem strncmp_eq_zero {n : Nat} {p q : List Byte} :
    strncmp p q n = 0 ↔ cstring n p = cstring n q := by
  induction n generalizing p q with
  | zero => simp [strncmp, cstring]
  | succ n ih =>
    unfold strncmp
    rw [cstring_succ, cstring_succ]
    generalize p.headD 0 = a
    generalize q.headD 0 = b
    by_cases hab : a = b
    · subst hab
      by_cases ha : a = 0
      · simp [ha]
      · rw [if_pos ⟨ha, rfl⟩, if_neg ha, if_neg ha, ih]
        simp
    · have hne : a.toNat ≠ b.toNat := fun h => hab (BitVec.eq_of_toNat_eq h)
      rw [if_neg fun h => hab h.2]
      constructor
      · intro h
        omega
      · intro h
        by_cases ha : a = 0
        · rw [if_pos ha, if_neg fun hb => hab (ha.trans hb.symm)] at h
          cases h
        · rw [if_neg ha] at h
          by_cases hb : b = 0
          · rw [if_pos hb] at h
            cases h
          · rw [if_neg hb] at h
            exact absurd (List.cons.inj h).1 hab

theorem namecmp_eq_zero {s t : List Byte} : namecmp s t = 0 ↔ nameKey s = nameKey t :=
  strncmp_eq_zero

theorem strncpy_length {t : List Byte} {n : Nat} : (strncpy t n).length = n := by
  have hle : ((t.take n).takeWhile (· ≠ 0)).length ≤ n :=
    Nat.le_trans (List.takeWhile_prefix _).length_le (List.length_take_le n t)
  simp only [strncpy, List.length_append, List.length_replicate]
  omega

theorem nameKey_strncpy {name : List Byte} : nameKey (strncpy name DIRSIZ) = nameKey name := by
  unfold nameKey cstring
  rw [List.take_of_length_le (by rw [strncpy_length])]
  simp only [strncpy]
  have hall : ∀ x ∈ (name.take DIRSIZ).takeWhile (· ≠ 0), decide (x ≠ 0) = true :=
    List.all_eq_true.mp List.all_takeWhile
  generalize (name.take DIRSIZ).takeWhile (· ≠ 0) = l at hall
  rw [List.takeWhile_append_of_pos hall]
  simp

/-! ## Entries -/

namespace Disk

def dirent (s : Disk) (d : Dinode) (k : Nat) : Dirent :=
  .ofBytes ((List.range DIRENTSIZE).map fun i => s.fileByte d (k * DIRENTSIZE + i))

end Disk

def Dinode.entries (d : Dinode) : Nat := d.size.toNat / DIRENTSIZE

def Dinode.Whole (d : Dinode) : Prop := d.size.toNat % DIRENTSIZE = 0

def Dirent.pair (de : Dirent) : Option (List Byte × Nat) :=
  if de.inum = 0 then none else some (nameKey de.name, de.inum.toNat)

def Disk.slots (s : Disk) (d : Dinode) : Slots (List Byte) Nat where
  size := d.entries
  get := fun k => (s.dirent d k).pair

theorem Dirent.pair_any (de : Dirent) (name : List Byte) :
    (de.pair.any fun x => decide (x.1 = nameKey name)) =
      decide (de.inum ≠ 0 ∧ namecmp name de.name = 0) := by
  unfold pair
  by_cases h : de.inum = 0
  · simp [h]
  · rw [if_neg h, Option.any_some]
    apply decide_eq_decide.mpr
    rw [namecmp_eq_zero]
    exact ⟨fun heq => ⟨h, heq.symm⟩, fun heq => heq.2.symm⟩

theorem ofBytes_byte (de : Dirent) :
    Dirent.ofBytes ((List.range DIRENTSIZE).map de.byte) =
      { inum := de.inum, name := strncpy de.name DIRSIZ } := by
  have hlen : (strncpy de.name DIRSIZ).length = 14 := strncpy_length
  have hinum : (de.byte 1 ++ de.byte 0 : BitVec 16) = de.inum := by
    unfold Dirent.byte
    ext i hi
    simp
    grind
  have hname : (((List.range DIRENTSIZE).map de.byte).drop 2).take DIRSIZ =
      strncpy de.name DIRSIZ := by
    apply List.ext_getElem
    · rw [hlen]
      simp [DIRENTSIZE, DIRSIZ]
    · intro i h₁ h₂
      rw [hlen] at h₂
      simp [Dirent.byte]
      grind
  unfold Dirent.ofBytes
  rw [hname]
  congr 1

theorem NoHole.size_le {s : Disk} {d : Dinode} (h : s.NoHole d) :
    d.size.toNat ≤ MAXFILE * BSIZE := by
  by_contra hgt
  have := Disk.lt_of_blockOf_ne_zero (h MAXFILE (by omega))
  omega

theorem blocksIn_dirent (k : Nat) :
    blocksIn (k * DIRENTSIZE) DIRENTSIZE = {k * DIRENTSIZE / BSIZE} := by
  have hfirst : firstPart (k * DIRENTSIZE) DIRENTSIZE = DIRENTSIZE := by
    unfold firstPart DIRENTSIZE DIRSIZ BSIZE
    omega
  have h := blocksIn_firstPart (n := DIRENTSIZE) (k * DIRENTSIZE) (by decide)
  rwa [hfirst] at h

theorem Disk.need_dirent_le (s : Disk) (d : Dinode) (k : Nat) :
    s.need d (k * DIRENTSIZE) DIRENTSIZE ≤ 2 := by
  unfold need
  rw [blocksIn_dirent]
  have hcard : ((({k * DIRENTSIZE / BSIZE} : Finset Nat).filter fun bn =>
      s.blockOf d bn = 0)).card ≤ 1 :=
    Nat.le_trans (Finset.card_filter_le _ _) (Nat.le_of_eq (Finset.card_singleton _))
  split
  · omega
  · omega

theorem Disk.need_dirent_eq_zero {s : Disk} {d : Dinode} {k : Nat} (hfull : s.NoHole d)
    (hk : k < d.entries) : s.need d (k * DIRENTSIZE) DIRENTSIZE = 0 := by
  apply need_eq_zero
  intro bn hbn
  rw [blocksIn_dirent, Finset.mem_singleton] at hbn
  subst hbn
  apply hfull
  unfold Dinode.entries at hk
  unfold DIRENTSIZE DIRSIZ BSIZE at *
  omega

namespace FsM

open Effect Fs

variable {s : Fs} {dp : InodePtr}

/-! ## Reading what may not be a directory

Nothing is known about the bytes here: an inode may have been written to as a file, or its
size may not be one of whole entries. -/

section Any

variable {off turns : Nat} {msg : String} {test : Dirent → Bool} {X : Fault → Prop}

theorem readDirent_reads (hr : s.Readable dp) (hX : X (.panic msg)) :
    Ends (readDirent dp off msg) s (fun _ t ev => t = s ∧ ev = []) X := by
  refine ends_bind ((readi_ends _ _ hr).mono ?_ fun _ hf => hf.elim)
  rintro r t ev ⟨rfl, rfl, -⟩
  cases r with
  | none => exact ends_fail hX
  | some x =>
    dsimp only
    split
    · exact ends_pure ⟨rfl, rfl⟩
    · exact ends_fail hX

theorem scan_reads (hr : s.Readable dp) (hX : X (.panic msg)) :
    Ends (scan dp msg test turns off) s
      (fun r t ev => t = s ∧ ev = [] ∧ ∀ x ∈ r, x.2 % DIRENTSIZE = off % DIRENTSIZE) X := by
  induction turns generalizing off with
  | zero => exact ends_pure ⟨rfl, rfl, nofun⟩
  | succ turns ih =>
    refine ends_bind (ends_bind (ends_get (ends_pure ?_)))
    split
    · refine ends_bind ((readDirent_reads hr hX).mono ?_ fun _ hf => hf)
      rintro de t ev ⟨rfl, rfl⟩
      split
      · refine ends_pure ⟨rfl, rfl, ?_⟩
        intro x hx
        cases hx
        rfl
      · refine ih.mono ?_ fun _ hf => hf
        rintro r t ev ⟨rfl, rfl, hr⟩
        refine ⟨rfl, rfl, ?_⟩
        intro x hx
        rw [hr x hx, Nat.add_mod_right]
    · exact ends_pure ⟨rfl, rfl, nofun⟩

theorem dirfind_reads {name : List Byte} (hr : s.Readable dp)
    (hX : X (.panic "dirlink read")) (hX' : X (.panic "dirlookup not DIR")) :
    Ends (dirfind dp name) s
      (fun r t ev => t = s ∧ ev = [] ∧
        ∀ x ∈ r, x.1 = (s.icache dp).dev ∧ x.2.2 % DIRENTSIZE = 0) X := by
  refine ends_bind (ends_bind (ends_get (ends_pure ?_)))
  split
  · exact ends_fail hX'
  · refine ends_bind ((scan_reads hr hX).mono ?_ fun _ hf => hf)
    rintro r t ev ⟨rfl, rfl, hr⟩
    cases r with
    | none => exact ends_pure ⟨rfl, rfl, nofun⟩
    | some r =>
      refine ends_pure ⟨rfl, rfl, ?_⟩
      intro x hx
      cases hx
      exact ⟨rfl, hr r rfl⟩

theorem freeSlot_reads (hr : s.Readable dp) (hX : X (.panic "dirlink read")) :
    Ends (freeSlot dp) s (fun off t ev => t = s ∧ ev = [] ∧ off % DIRENTSIZE = 0) X := by
  refine ends_bind (ends_bind (ends_get (ends_pure ?_)))
  refine ends_bind ((scan_reads hr hX).mono ?_ fun _ hf => hf)
  rintro r t ev ⟨rfl, rfl, hr⟩
  cases r with
  | none => exact ends_pure ⟨rfl, rfl, Nat.mul_mod_left _ _⟩
  | some r => exact ends_pure ⟨rfl, rfl, hr r rfl⟩

theorem isdirempty_reads (hr : s.Readable dp) (hX : X (.panic "isdirempty: readi")) :
    Ends (isdirempty dp) s (fun _ t ev => t = s ∧ ev = []) X := by
  refine ends_bind (ends_bind (ends_get (ends_pure ?_)))
  refine ends_bind ((scan_reads hr hX).mono ?_ fun _ hf => hf)
  rintro r t ev ⟨rfl, rfl, -⟩
  cases r with
  | none | some _ => exact ends_pure ⟨rfl, rfl⟩

end Any

/-! ## Reading a directory -/

theorem readDirent_ends_within {k : Nat} {msg : String} (ha : s.Alloc (s.eff dp))
    (htype : (s.icache dp).d.type ≠ .free)
    (hblock : s.blockOf (s.icache dp).d (k * DIRENTSIZE / BSIZE) ≠ 0)
    (hend : k * DIRENTSIZE + DIRENTSIZE ≤ (s.icache dp).d.size.toNat) :
    Ends (readDirent dp (k * DIRENTSIZE) msg) s
      (fun de t ev => t = s ∧ ev = [] ∧ de = s.dirent (s.icache dp).d k) (fun _ => False) := by
  have hD : DIRENTSIZE = 16 := rfl
  have hlt := (s.icache dp).d.size.isLt
  have hoff : (BitVec.ofNat 32 (k * DIRENTSIZE)).toNat = k * DIRENTSIZE := by
    rw [BitVec.toNat_ofNat]
    omega
  have hn : (BitVec.ofNat 32 DIRENTSIZE).toNat = DIRENTSIZE := rfl
  have hmin : min DIRENTSIZE ((s.icache dp).d.size.toNat - k * DIRENTSIZE) = DIRENTSIZE := by
    omega
  have hfull : ∀ bn ∈ blocksIn (BitVec.ofNat 32 (k * DIRENTSIZE)).toNat
      (min (BitVec.ofNat 32 DIRENTSIZE).toNat
        ((s.icache dp).d.size.toNat - (BitVec.ofNat 32 (k * DIRENTSIZE)).toNat)),
      s.blockOf (s.icache dp).d bn ≠ 0 := by
    intro bn hbn
    rw [hoff, hn, hmin, blocksIn_dirent, Finset.mem_singleton] at hbn
    rwa [hbn]
  refine ends_bind ((readi_ends_within _ _ ha htype hfull).mono ?_ fun _ hf => hf)
  rintro r t ev ⟨rfl, rfl, rfl⟩
  have hok : ¬ (BitVec.ofNat 32 (k * DIRENTSIZE) > (t.icache dp).d.size ∨
      BitVec.ofNat 32 (k * DIRENTSIZE) + BitVec.ofNat 32 DIRENTSIZE <
        BitVec.ofNat 32 (k * DIRENTSIZE)) := by
    rintro (h | h)
    · have := BitVec.lt_def.mp h
      omega
    · have := BitVec.lt_def.mp h
      rw [BitVec.toNat_add, hoff, hn] at this
      omega
  rw [if_neg hok, hoff, hn, hmin]
  dsimp only
  rw [if_pos (by simp)]
  exact ends_pure ⟨rfl, rfl, rfl⟩

theorem readDirent_ends {k : Nat} {msg : String} (hr : s.Readable dp)
    (hk : k < (s.icache dp).d.entries) :
    Ends (readDirent dp (k * DIRENTSIZE) msg) s
      (fun de t _ => t = s ∧ de = s.dirent (s.icache dp).d k) (fun _ => False) := by
  have hD : DIRENTSIZE = 16 := rfl
  have hend : k * DIRENTSIZE + DIRENTSIZE ≤ (s.icache dp).d.size.toNat := by
    unfold Dinode.entries at hk
    unfold DIRENTSIZE DIRSIZ at hk ⊢
    omega
  have hblock : s.blockOf (s.icache dp).d (k * DIRENTSIZE / BSIZE) ≠ 0 := by
    apply hr.full
    have := Nat.div_mul_le_self (k * DIRENTSIZE) BSIZE
    omega
  refine (readDirent_ends_within hr.alloc hr.type hblock hend).mono ?_ fun _ hf => hf
  rintro de t ev ⟨rfl, -, rfl⟩
  exact ⟨rfl, rfl⟩

theorem readDirent_short {k : Nat} {msg : String} (hr : s.Readable dp)
    (hlt : k * DIRENTSIZE < (s.icache dp).d.size.toNat)
    (hend : (s.icache dp).d.size.toNat < k * DIRENTSIZE + DIRENTSIZE) :
    Ends (readDirent dp (k * DIRENTSIZE) msg) s (fun _ _ _ => False)
      (fun f => f = .panic msg) := by
  have hsize := (s.icache dp).d.size.isLt
  have hoff : (BitVec.ofNat 32 (k * DIRENTSIZE)).toNat = k * DIRENTSIZE := by
    rw [BitVec.toNat_ofNat]
    omega
  refine ends_bind ((readi_ends _ _ hr).mono ?_ fun _ hf => hf.elim)
  rintro r t ev ⟨rfl, rfl, rfl⟩
  split
  · next x heq =>
    split at heq
    · cases heq
    · cases heq
      rw [if_neg]
      · exact ends_fail rfl
      · rw [List.length_map, List.length_range, hoff]
        omega
  · exact ends_fail rfl

theorem scan_ends (test : Dirent → Bool) {turns k : Nat} (msg : String)
    (hr : s.Readable dp) (hturns : (s.icache dp).d.entries ≤ turns + k) :
    Ends (scan dp msg test turns (k * DIRENTSIZE)) s
      (fun r t _ => t = s ∧ r = ((List.range' k ((s.icache dp).d.entries - k)).find? fun k =>
        test (s.dirent (s.icache dp).d k)).map fun k =>
          (s.dirent (s.icache dp).d k, k * DIRENTSIZE))
      (fun f => f = .panic msg ∧ ¬ (s.icache dp).d.Whole) := by
  induction turns generalizing k with
  | zero =>
    have hzero : (s.icache dp).d.entries - k = 0 := by omega
    refine ends_pure ⟨rfl, ?_⟩
    rw [hzero]
    rfl
  | succ turns ih =>
    have hin : k < (s.icache dp).d.entries ↔
        k * DIRENTSIZE + DIRENTSIZE ≤ (s.icache dp).d.size.toNat := by
      unfold Dinode.entries DIRENTSIZE DIRSIZ
      omega
    refine ends_bind (ends_bind (ends_get (ends_pure ?_)))
    by_cases hk : k < (s.icache dp).d.entries
    · rw [if_pos (Nat.lt_of_lt_of_le (Nat.lt_add_of_pos_right (by decide)) (hin.mp hk))]
      refine ends_bind ((readDirent_ends hr hk).mono ?_ fun _ hf => hf.elim)
      rintro de t - ⟨rfl, rfl⟩
      have hrange : (t.icache dp).d.entries - k = (t.icache dp).d.entries - (k + 1) + 1 := by
        omega
      rw [hrange, List.range'_succ]
      by_cases ht : test (t.dirent (t.icache dp).d k) = true
      · rw [if_pos ht, List.find?_cons_of_pos (p := fun k => test _) ht]
        exact ends_pure ⟨rfl, rfl⟩
      · rw [if_neg ht, List.find?_cons_of_neg (p := fun k => test _) ht]
        have hnext : k * DIRENTSIZE + DIRENTSIZE = (k + 1) * DIRENTSIZE := by
          rw [Nat.add_mul, Nat.one_mul]
        rw [hnext]
        exact ih (by omega)
    · split
      · next hlt =>
        have hend := Nat.not_le.mp (mt hin.mpr hk)
        refine ends_bind ((readDirent_short hr hlt hend).mono
          (fun _ _ _ hf => hf.elim) fun f hf => ⟨hf, ?_⟩)
        unfold DIRENTSIZE DIRSIZ at hlt hend
        unfold Dinode.Whole DIRENTSIZE DIRSIZ
        omega
      · have hzero : (s.icache dp).d.entries - k = 0 := by omega
        refine ends_pure ⟨rfl, ?_⟩
        rw [hzero]
        rfl

theorem scan_all_ends (test : Dirent → Bool) (msg : String) (hr : s.Readable dp) :
    Ends (scan dp msg test (s.icache dp).d.size.toNat 0) s
      (fun r t _ => t = s ∧ r = ((List.range (s.icache dp).d.entries).find? fun k =>
        test (s.dirent (s.icache dp).d k)).map fun k =>
          (s.dirent (s.icache dp).d k, k * DIRENTSIZE))
      (fun f => f = .panic msg ∧ ¬ (s.icache dp).d.Whole) := by
  have hturns : (s.icache dp).d.entries ≤ (s.icache dp).d.size.toNat + 0 := Nat.div_le_self _ _
  have h := scan_ends (k := 0) test msg hr hturns
  rwa [Nat.zero_mul, Nat.sub_zero, ← List.range_eq_range'] at h

theorem dirfind_ends {name : List Byte} (hr : s.Readable dp)
    (htype : (s.icache dp).d.type = .dir) :
    Ends (dirfind dp name) s
      (fun r t _ => t = s ∧ r = ((s.slots (s.icache dp).d).find (nameKey name)).map fun k =>
        ((s.icache dp).dev, (s.dirent (s.icache dp).d k).inum.toNat, k * DIRENTSIZE))
      (fun f => f = .panic "dirlink read" ∧ ¬ (s.icache dp).d.Whole) := by
  refine ends_bind (ends_bind (ends_get (ends_pure ?_)))
  rw [if_neg (not_not.mpr htype)]
  refine ends_bind ((scan_all_ends _ _ hr).mono ?_ fun _ hf => hf)
  rintro r t - ⟨rfl, rfl⟩
  have hfind : (List.range (t.icache dp).d.entries).find? (fun k =>
      decide ((t.dirent (t.icache dp).d k).inum ≠ 0 ∧
        namecmp name (t.dirent (t.icache dp).d k).name = 0)) =
      (t.slots (t.icache dp).d).find (nameKey name) := by
    congr 1
    funext k
    exact (Dirent.pair_any ..).symm
  rw [hfind]
  cases (t.slots (t.icache dp).d).find (nameKey name) with
  | none | some _ => exact ends_pure ⟨rfl, rfl⟩

section Found

variable {j : Nat}

theorem scan_finds (test : Dirent → Bool) (turns k : Nat) (msg : String)
    (ha : s.Alloc (s.eff dp)) (htype : (s.icache dp).d.type ≠ .free)
    (hblocks : ∀ i ≤ j, s.blockOf (s.icache dp).d (i * DIRENTSIZE / BSIZE) ≠ 0)
    (hend : j * DIRENTSIZE + DIRENTSIZE ≤ (s.icache dp).d.size.toNat)
    (hnot : ∀ i < j, test (s.dirent (s.icache dp).d i) = false)
    (hj : test (s.dirent (s.icache dp).d j) = true) (hk : k ≤ j) (hturns : j < turns + k) :
    Ends (scan dp msg test turns (k * DIRENTSIZE)) s
      (fun r t ev => t = s ∧ ev = [] ∧
        r = some (s.dirent (s.icache dp).d j, j * DIRENTSIZE)) (fun _ => False) := by
  have hD : DIRENTSIZE = 16 := rfl
  induction turns generalizing k with
  | zero => omega
  | succ turns ih =>
    have hmul : k * DIRENTSIZE ≤ j * DIRENTSIZE := Nat.mul_le_mul_right _ hk
    refine ends_bind (ends_bind (ends_get (ends_pure ?_)))
    rw [if_pos (by omega)]
    refine ends_bind ((readDirent_ends_within ha htype (hblocks k hk) (by omega)).mono ?_
      fun _ hf => hf)
    rintro de t ev ⟨rfl, rfl, rfl⟩
    by_cases heq : k = j
    · subst heq
      rw [if_pos hj]
      exact ends_pure ⟨rfl, rfl, rfl⟩
    · have hlt : k < j := Nat.lt_of_le_of_ne hk heq
      have hfalse : ¬ test (t.dirent (t.icache dp).d k) = true := by
        rw [hnot k hlt]
        exact Bool.false_ne_true
      have hnext : k * DIRENTSIZE + DIRENTSIZE = (k + 1) * DIRENTSIZE := by
        rw [Nat.add_mul, Nat.one_mul]
      rw [if_neg hfalse, hnext]
      exact ih _ hlt (by omega)

theorem dirfind_finds (name : List Byte) (ha : s.Alloc (s.eff dp))
    (htype : (s.icache dp).d.type = .dir)
    (hblocks : ∀ i ≤ j, s.blockOf (s.icache dp).d (i * DIRENTSIZE / BSIZE) ≠ 0)
    (hend : j * DIRENTSIZE + DIRENTSIZE ≤ (s.icache dp).d.size.toNat)
    (hnot : ∀ i < j, nameKey (s.dirent (s.icache dp).d i).name ≠ nameKey name)
    (hj : nameKey (s.dirent (s.icache dp).d j).name = nameKey name)
    (hlive : (s.dirent (s.icache dp).d j).inum ≠ 0) :
    dirfind dp name s = .ok (some ((s.icache dp).dev, (s.dirent (s.icache dp).d j).inum.toNat,
      j * DIRENTSIZE), s, []) := by
  have hturns : j < (s.icache dp).d.size.toNat + 0 := by
    unfold DIRENTSIZE DIRSIZ at hend
    omega
  have halive : (s.icache dp).d.type ≠ .free := by
    rw [htype]
    exact FileType.noConfusion
  have hscan := scan_finds (fun de : Dirent => decide (de.inum ≠ 0 ∧ namecmp name de.name = 0))
    (s.icache dp).d.size.toNat 0 "dirlink read" ha halive hblocks hend ?_ ?_ (Nat.zero_le j) hturns
  rotate_left
  · intro i hi
    refine decide_eq_false fun hh => hnot i hi ?_
    exact (namecmp_eq_zero.mp hh.2).symm
  · exact decide_eq_true ⟨hlive, namecmp_eq_zero.mpr hj.symm⟩
  rw [Nat.zero_mul] at hscan
  have hends : Ends (dirfind dp name) s (fun r t ev => t = s ∧ ev = [] ∧
      r = some ((s.icache dp).dev, (s.dirent (s.icache dp).d j).inum.toNat, j * DIRENTSIZE))
      (fun _ => False) := by
    refine ends_bind (ends_bind (ends_get (ends_pure ?_)))
    rw [if_neg (not_not.mpr htype)]
    refine ends_bind (hscan.mono ?_ fun _ hf => hf)
    rintro r t ev ⟨rfl, rfl, rfl⟩
    exact ends_pure ⟨rfl, rfl, rfl⟩
  obtain ⟨r, t, ev, heq, rfl, rfl, rfl⟩ := hends.ok
  exact heq

end Found

theorem freeSlot_ends (hr : s.Readable dp) (hwhole : (s.icache dp).d.Whole) :
    Ends (freeSlot dp) s
      (fun off t _ => t = s ∧ ∃ k ≤ (s.icache dp).d.entries, off = k * DIRENTSIZE ∧
        ∀ name inum, ¬ (s.slots (s.icache dp).d).Holds k name inum)
      (fun _ => False) := by
  refine ends_bind (ends_bind (ends_get (ends_pure ?_)))
  refine ends_bind ((scan_all_ends _ _ hr).mono ?_ fun _ hf => absurd hwhole hf.2)
  rintro r t - ⟨rfl, rfl⟩
  cases hf : (List.range (t.icache dp).d.entries).find? fun k =>
      decide ((t.dirent (t.icache dp).d k).inum = 0) with
  | some k =>
    have hlt := List.mem_range.mp (List.mem_of_find?_eq_some hf)
    have hzero : (t.dirent (t.icache dp).d k).inum = 0 := by simpa using List.find?_some hf
    refine ends_pure ⟨rfl, k, Nat.le_of_lt hlt, rfl, ?_⟩
    intro name inum h
    have hget := h.2
    simp [Disk.slots, Dirent.pair, hzero] at hget
  | none =>
    refine ends_pure ⟨rfl, (t.icache dp).d.entries, Nat.le_refl _, ?_, ?_⟩
    · unfold Dinode.Whole at hwhole
      unfold Dinode.entries
      unfold DIRENTSIZE DIRSIZ at hwhole ⊢
      omega
    · intro name inum h
      exact absurd h.1 (Nat.lt_irrefl _)

/-! ## Writing an entry -/

theorem Updated.dirent {de : Dirent} {t : Fs} {k : Nat}
    (h : Updated dp de.byte (k * DIRENTSIZE) DIRENTSIZE s t) (hc : s.Clean dp)
    (htype : (s.icache dp).d.type ≠ .free) (j : Nat) :
    t.dirent (t.icache dp).d j =
      if j = k then { inum := de.inum, name := strncpy de.name DIRSIZ }
      else s.dirent (s.icache dp).d j := by
  have halive : (s.dinode (s.icache dp).inum).type ≠ .free := by
    rwa [hc]
  have hbyte : ∀ i < DIRENTSIZE, t.fileByte (t.icache dp).d (j * DIRENTSIZE + i) =
      if j = k then de.byte i else s.fileByte (s.icache dp).d (j * DIRENTSIZE + i) := by
    intro i hi
    have hb := h.bytes (s.icache dp).inum halive (j * DIRENTSIZE + i)
    rw [h.dinode, Function.update_self, hc] at hb
    have hin : k * DIRENTSIZE ≤ j * DIRENTSIZE + i ∧
        j * DIRENTSIZE + i < k * DIRENTSIZE + DIRENTSIZE ↔ j = k := by
      unfold DIRENTSIZE DIRSIZ at hi ⊢
      omega
    rw [hb]
    by_cases hj : j = k
    · rw [if_pos hj, if_pos ⟨rfl, hin.mpr hj⟩, hj, Nat.add_sub_cancel_left]
    · rw [if_neg hj, if_neg fun hh => hj (hin.mp hh.2)]
  split
  · next hj =>
    rw [← ofBytes_byte]
    unfold Disk.dirent
    congr 1
    apply List.map_congr_left
    intro i hi
    rw [hbyte i (List.mem_range.mp hi), if_pos hj]
  · next hj =>
    unfold Disk.dirent
    congr 1
    apply List.map_congr_left
    intro i hi
    rw [hbyte i (List.mem_range.mp hi), if_neg hj]

theorem Updated.whole {src : Nat → Byte} {t : Fs} {k : Nat}
    (h : Updated dp src (k * DIRENTSIZE) DIRENTSIZE s t) (hwhole : (s.icache dp).d.Whole) :
    (t.icache dp).d.Whole := by
  have hsize := h.size
  unfold Dinode.Whole at hwhole ⊢
  unfold DIRENTSIZE DIRSIZ at hwhole hsize ⊢
  omega

theorem Updated.slots {de : Dirent} {t : Fs} {k : Nat}
    (h : Updated dp de.byte (k * DIRENTSIZE) DIRENTSIZE s t) (hc : s.Clean dp)
    (htype : (s.icache dp).d.type ≠ .free) (hwhole : (s.icache dp).d.Whole) :
    t.slots (t.icache dp).d = (s.slots (s.icache dp).d).set k de.pair := by
  have hentries : (t.icache dp).d.entries = max (s.icache dp).d.entries (k + 1) := by
    have hsize := h.size
    unfold Dinode.Whole at hwhole
    unfold Dinode.entries
    unfold DIRENTSIZE DIRSIZ at hwhole hsize ⊢
    omega
  have hget : ∀ j, (t.dirent (t.icache dp).d j).pair =
      Function.update (s.slots (s.icache dp).d).get k de.pair j := by
    intro j
    rw [h.dirent hc htype j]
    by_cases hj : j = k
    · rw [if_pos hj, hj, Function.update_self]
      simp [Dirent.pair, nameKey_strncpy]
    · rw [if_neg hj, Function.update_of_ne hj]
      rfl
  unfold Disk.slots Slots.set
  rw [hentries]
  congr 1
  funext j
  exact hget j

end FsM

end Xv6
