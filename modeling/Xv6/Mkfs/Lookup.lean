import Mathlib.Data.List.GetD
import Mathlib.Data.List.TakeWhile
import Xv6.Fs.Directory
import Xv6.Mkfs.Image

/-!
# The kernel reads what `mkfs` wrote

`dirlookup` finds every name in the root directory of the image, and `readi` of the inode it
leads to returns the bytes of the file. The entries of the directory are before the block that
may be missing from it.
-/

namespace Xv6

namespace Mkfs

variable {files : List HostFile} {D : Disk} {f : HostFile} {i : Nat}

/-! ## The entries of the root directory -/

def rootEntries (files : List HostFile) : List Dirent :=
  ⟨BitVec.ofNat 16 ROOTINO, [46]⟩ :: ⟨BitVec.ofNat 16 ROOTINO, [46, 46]⟩ ::
    files.mapIdx fun i f => ⟨BitVec.ofNat 16 (i + 2), f.target⟩

theorem rootBytes_eq : rootBytes files =
    ((rootEntries files).map fun de => (List.range DIRENTSIZE).map de.byte).flatten := by
  have hmap : (files.mapIdx fun i f => (⟨BitVec.ofNat 16 (i + 2), f.target⟩ : Dirent)).map
      (fun de => (List.range DIRENTSIZE).map de.byte) =
      files.mapIdx fun i f => dirent (i + 2) f.target := by
    apply List.ext_getElem?
    intro i
    rw [List.getElem?_map, List.getElem?_mapIdx, List.getElem?_mapIdx, Option.map_map]
    rfl
  unfold rootBytes rootEntries
  rw [List.map_cons, List.map_cons, List.flatten_cons, List.flatten_cons, List.append_assoc, hmap]
  rfl

theorem getD_flatten_map {α : Type} {g : α → List Byte} {n j : Nat} (hg : ∀ a, (g a).length = n)
    (hj : j < n) {l : List α} {a : α} (hi : l[i]? = some a) :
    (l.map g).flatten.getD (i * n + j) 0 = (g a).getD j 0 := by
  induction l generalizing i with
  | nil => cases hi
  | cons x l ih =>
    rw [List.map_cons, List.flatten_cons]
    cases i with
    | zero =>
      simp only [List.getElem?_cons_zero, Option.some.injEq] at hi
      subst hi
      rw [Nat.zero_mul, Nat.zero_add, List.getD_append _ _ _ _ (by rw [hg]; exact hj)]
    | succ i =>
      rw [List.getElem?_cons_succ] at hi
      have hle : (g x).length ≤ (i + 1) * n + j := by
        rw [hg, Nat.succ_mul]
        omega
      have hsub : (i + 1) * n + j - (g x).length = i * n + j := by
        rw [hg, Nat.succ_mul]
        omega
      rw [List.getD_append_right _ _ _ _ hle, hsub]
      exact ih hi

theorem Written.dirent (h : Written files D) {de : Dirent}
    (hi : (rootEntries files)[i]? = some de) :
    D.dirent (D.dinode ROOTINO) i = ⟨de.inum, strncpy de.name DIRSIZ⟩ := by
  obtain ⟨d, hst, hd⟩ := h.root
  have hD : DIRENTSIZE = 16 := rfl
  have hlen : i < files.length + 2 := by
    have := (List.getElem?_eq_some_iff.mp hi).1
    simp only [rootEntries, List.length_cons, List.length_mapIdx] at this
    omega
  unfold Disk.dirent
  rw [← ofBytes_byte]
  congr 1
  apply List.map_congr_left
  intro j hj
  have hj' := List.mem_range.mp hj
  have hbyte : D.fileByte (D.dinode ROOTINO) = D.fileByte d := by
    rw [hd]
    exact Disk.fileByte_congr rfl rfl
  have hin : i * DIRENTSIZE + j < d.size.toNat := by
    rw [hst.size]
    dsimp only
    rw [rootBytes_length, hD]
    omega
  rw [hbyte, ← FsM.content_getD hin, hst.content, rootBytes_eq,
    getD_flatten_map (fun _ => by simp) hj' hi]
  simp [List.getD, hj']

/-! ## Names -/

/-- The lists of files that an image is made of: names that are different once a leading `_` is
stripped, and files that fit. -/
structure Inputs (files : List HostFile) : Prop where
  plain : ∀ f ∈ files, slash ∉ f.name ∧ 0 ∉ f.name
  short : ∀ f ∈ files, f.target.length ≤ DIRSIZ
  named : ∀ f ∈ files, f.target ≠ [46] ∧ f.target ≠ [46, 46]
  distinct : (files.map HostFile.target).Nodup
  few : files.length < NINODES - 1
  size : ∀ f ∈ files, f.bytes.length ≤ MAXFILE * BSIZE
  fits : nmeta + (blocksFor ((files.length + 2) * DIRENTSIZE) +
    (files.map fun f => blocksFor f.bytes.length).sum) ≤ FSSIZE

theorem nameKey_of_short {name : List Byte} (hlen : name.length ≤ DIRSIZ) (hzero : 0 ∉ name) :
    nameKey name = name := by
  unfold nameKey cstring
  rw [List.take_of_length_le hlen, List.takeWhile_eq_self_iff]
  intro c hc
  have hne : c ≠ 0 := fun heq => hzero (heq ▸ hc)
  simpa using hne

namespace Inputs

theorem target_plain (h : Inputs files) (hf : f ∈ files) : 0 ∉ f.target := by
  intro hmem
  unfold HostFile.target at hmem
  split at hmem
  · exact (h.plain f hf).2 (List.mem_of_mem_tail hmem)
  · exact (h.plain f hf).2 hmem

theorem key (h : Inputs files) (hf : f ∈ files) : nameKey f.target = f.target :=
  nameKey_of_short (h.short f hf) (h.target_plain hf)

theorem accepted (h : Inputs files) : Accepted files := by
  refine ⟨fun f hf => (h.plain f hf).1, ?_, ?_⟩
  · rw [total_image]
    exact h.fits
  · intro f hf
    rcases List.mem_cons.mp hf with rfl | hf
    · have hfew := h.few
      have hN : NINODES - 1 = 199 := rfl
      have hM : MAXFILE * BSIZE = 70656 := rfl
      have hD : DIRENTSIZE = 16 := rfl
      dsimp only
      rw [rootBytes_length, hD, hM]
      omega
    · obtain ⟨g, hg, rfl⟩ := List.mem_map.mp hf
      exact h.size g hg

theorem room (h : Inputs files) : files.length + 2 ≤ room := by
  have hfew := h.few
  have hN : NINODES - 1 = 199 := rfl
  have hR : Mkfs.room = 208 := rfl
  omega

theorem first (h : Inputs files) (hi : files[i]? = some f) {j : Nat} (hj : j < i + 2)
    {de : Dirent} (hde : (rootEntries files)[j]? = some de) :
    nameKey de.name ≠ nameKey f.target := by
  have hf := List.mem_of_getElem? hi
  rw [h.key hf]
  match j with
  | 0 =>
    obtain rfl := Option.some.inj hde
    exact fun heq => (h.named f hf).1 heq.symm
  | 1 =>
    obtain rfl := Option.some.inj hde
    exact fun heq => (h.named f hf).2 heq.symm
  | j + 2 =>
    have hmap : (files.mapIdx fun i f => (⟨BitVec.ofNat 16 (i + 2), f.target⟩ : Dirent))[j]? =
        some de := hde
    rw [List.getElem?_mapIdx] at hmap
    obtain ⟨g, hg, rfl⟩ := Option.map_eq_some_iff.mp hmap
    dsimp only
    rw [h.key (List.mem_of_getElem? hg)]
    intro heq
    have hj' : (files.map HostFile.target)[j]? = some g.target := by
      rw [List.getElem?_map, hg]
      rfl
    have hi' : (files.map HostFile.target)[i]? = some f.target := by
      rw [List.getElem?_map, hi]
      rfl
    rw [heq] at hj'
    have hlt : j < (files.map HostFile.target).length := (List.getElem?_eq_some_iff.mp hj').1
    have := (List.getElem?_inj hlt h.distinct).mp (hj'.trans hi'.symm)
    omega

end Inputs

/-! ## `dirlookup` and `readi` -/

open Effect FsM Prog

variable {k : Fs} {dp : InodePtr}

theorem iget_gives {dev inum : Nat} (h : ∃ jp, (k.icache jp).ref = 0) :
    Ends (FsM.iget dev inum) k (fun ip t _ => Fs.Got dev inum k ip t) (fun _ => False) := by
  have hfree : Ends (FsM.iget dev inum) k (fun _ _ _ => True) (fun _ => False) := by
    obtain ⟨jp, hjp⟩ := h
    unfold FsM.iget
    refine ends_bind (ends_get ?_)
    cases cached k dev inum with
    | some ip => exact ends_bind (setInode_ends (ends_bind (ends_emit (ends_pure trivial))))
    | none =>
      dsimp only
      cases hf : (List.finRange NINODE).find? fun ip => decide ((k.icache ip).ref = 0) with
      | some ip => exact ends_bind (setInode_ends (ends_bind (ends_emit (ends_pure trivial))))
      | none =>
        have := List.find?_eq_none.mp hf jp (List.mem_finRange jp)
        exact absurd (decide_eq_true hjp) this
  refine (iget_ends.and hfree).mono ?_ fun _ hf => hf.2
  rintro ip t ev ⟨⟨hgot, -⟩, -⟩
  exact hgot

theorem dirfind_written (h : Inputs files) (hw : Written files D) (hk : k.toDisk = D)
    (hclean : k.Clean dp) (hroot : (k.icache dp).inum = ROOTINO) (hi : files[i]? = some f) :
    FsM.dirfind dp f.target k =
      .ok (some ((k.icache dp).dev, i + 2, (i + 2) * DIRENTSIZE), k, []) := by
  have hlt : i < files.length := (List.getElem?_eq_some_iff.mp hi).1
  have hfew := h.few
  have hN : NINODES - 1 = 199 := rfl
  have hB : BSIZE = 512 := rfl
  have hD : DIRENTSIZE = 16 := rfl
  have hd : (k.icache dp).d = D.dinode ROOTINO := by
    rw [← hclean, hroot, hk]
  have halloc : k.Alloc (k.eff dp) := by
    rw [Fs.eff_of_clean hclean, hk]
    exact hw.alloc
  have htype : (k.icache dp).d.type = .dir := by
    obtain ⟨d, hst, hd'⟩ := hw.root
    rw [hd, hd']
    exact hst.type
  have hentry : (rootEntries files)[i + 2]? = some ⟨BitVec.ofNat 16 (i + 2), f.target⟩ := by
    show (files.mapIdx _)[i]? = _
    rw [List.getElem?_mapIdx, hi]
    rfl
  have hdirent : k.dirent (k.icache dp).d (i + 2) =
      ⟨BitVec.ofNat 16 (i + 2), strncpy f.target DIRSIZ⟩ := by
    rw [hd, hk]
    exact hw.dirent hentry
  have hinum : (BitVec.ofNat 16 (i + 2)).toNat = i + 2 := by
    rw [BitVec.toNat_ofNat]
    omega
  have hfinds := dirfind_finds (s := k) (j := i + 2) f.target halloc htype
    ?_ ?_ ?_ ?_ ?_
  · rwa [hdirent, hinum] at hfinds
  · intro j hj h0
    rw [hd, hk, hw.root_blocks, hB, hD] at h0
    omega
  · rw [hd, hw.root_size h.room, hB, hD]
    omega
  · intro j hj
    have hjl : j < (rootEntries files).length := by
      unfold rootEntries
      simp only [List.length_cons, List.length_mapIdx]
      omega
    have hde := List.getElem?_eq_getElem hjl
    rw [hd, hk, hw.dirent hde, nameKey_strncpy]
    exact h.first hi hj hde
  · rw [hdirent, nameKey_strncpy]
  · rw [hdirent]
    intro h0
    have := congrArg BitVec.toNat h0
    rw [hinum] at this
    exact absurd this (Nat.succ_ne_zero _)

theorem readi_written {ip : InodePtr} {n : Word} (hw : Written files D) (hk : k.toDisk = D)
    (hclean : k.Clean ip) (hinum : (k.icache ip).inum = i + 2) (hi : files[i]? = some f)
    (hn : f.bytes.length ≤ n.toNat) :
    FsM.readi ip 0 n k = .ok (some f.bytes, k, []) := by
  have hst := hw.stores i f hi
  have hd : (k.icache ip).d = D.dinode (i + 2) := by
    rw [← hclean, hinum, hk]
  have hsize : (k.icache ip).d.size.toNat = f.bytes.length := by
    rw [hd, hst.size]
    rfl
  have halloc : k.Alloc (k.eff ip) := by
    rw [Fs.eff_of_clean hclean, hk]
    exact hw.alloc
  have halive : (k.icache ip).d.type ≠ .free := by
    rw [hd, hst.type]
    exact FileType.noConfusion
  have hfull : k.NoHole (k.icache ip).d := by
    rw [hd, hk]
    exact hst.compact.noHole
  obtain ⟨r, t, ev, hread, rfl, rfl, rfl⟩ := (readi_ends 0 n ⟨halloc, halive, hfull⟩).ok
  have hok : ¬ (0 > (t.icache ip).d.size ∨ 0 + n < 0) := by
    rintro (hlt | hlt)
    · exact absurd (BitVec.lt_def.mp hlt) (Nat.not_lt_zero _)
    · exact absurd (BitVec.lt_def.mp hlt) (Nat.not_lt_zero _)
  have hzero : (0 : Word).toNat = 0 := rfl
  rw [hread, if_neg hok, hzero, Nat.sub_zero, hsize, Nat.min_eq_right hn]
  have hbytes : (List.range f.bytes.length).map (fun i => t.fileByte (t.icache ip).d (0 + i)) =
      f.bytes := by
    have hc := hst.content
    unfold Disk.content at hc
    rw [hst.size] at hc
    refine Eq.trans ?_ hc
    apply List.map_congr_left
    intro j _
    rw [Nat.zero_add, hd, hk]
  rw [hbytes]

/-- The kernel and `mkfs` agree on the image: `dirlookup` of every name in the root directory
yields the inode of the file, `readi` of that inode returns its bytes, and the free map marks the
blocks that are referred to, each of them once. -/
theorem kernel_reads_image (files : List HostFile) (h : Inputs files) :
    ∃ s, main files = some s ∧
      (∀ (i : Nat) (f : HostFile), files[i]? = some f → ∃ inum,
        (∀ (k : Fs) (me : Caller) (dp : InodePtr), k.toDisk = Disk.ofImage s.sect → k.Clean dp →
          (k.icache dp).inum = ROOTINO → (∃ jp, (k.icache jp).ref = 0) →
          (Fs.dirlookup dp f.target).Does Fs.step (k, me)
            (fun r w => w.1.toDisk = k.toDisk ∧ w.2 = me ∧ ∃ ip off, r = some (ip, off) ∧
              (w.1.icache ip).dev = (k.icache dp).dev ∧ (w.1.icache ip).inum = inum)
            (fun _ => False)) ∧
        (∀ (k : Fs) (ip : InodePtr) (n : Word), k.toDisk = Disk.ofImage s.sect → k.Clean ip →
          (k.icache ip).inum = inum → f.bytes.length ≤ n.toNat →
          FsM.readi ip 0 n k = .ok (some f.bytes, k, [])) ∧
        ((Disk.ofImage s.sect).dinode inum).type = .file ∧
        ((Disk.ofImage s.sect).dinode inum).size.toNat = f.bytes.length ∧
        ((Disk.ofImage s.sect).dinode inum).mode = DEFMODE ∧
        ((Disk.ofImage s.sect).dinode inum).uid = DEFUID.setWidth 16 ∧
        ((Disk.ofImage s.sect).dinode inum).gid = DEFGID.setWidth 16 ∧
        ((Disk.ofImage s.sect).dinode inum).nlink = 1) ∧
      (∀ b < (Disk.ofImage s.sect).sb.size, (Disk.ofImage s.sect).bit b = true ↔
        b < (Disk.ofImage s.sect).sb.nmeta ∨ ∃ inum sl,
          ((Disk.ofImage s.sect).dinode inum).type ≠ .free ∧ b ≠ 0 ∧
          (Disk.ofImage s.sect).slot ((Disk.ofImage s.sect).dinode inum) sl = b) ∧
      (∀ inum inum' sl sl', ((Disk.ofImage s.sect).dinode inum).type ≠ .free →
        ((Disk.ofImage s.sect).dinode inum').type ≠ .free →
        (Disk.ofImage s.sect).slot ((Disk.ofImage s.sect).dinode inum) sl ≠ 0 →
        (Disk.ofImage s.sect).slot ((Disk.ofImage s.sect).dinode inum) sl =
          (Disk.ofImage s.sect).slot ((Disk.ofImage s.sect).dinode inum') sl' →
        inum = inum' ∧ sl = sl') := by
  rcases main_written h.room with ⟨-, s, hs, hw⟩ | ⟨hnot, -⟩
  · refine ⟨s, hs, ?_, ?_, ?_⟩
    · intro i f hi
      have hst := hw.stores i f hi
      refine ⟨i + 2, ?_, ?_, ?_, hst.size, ?_, ?_, ?_, ?_⟩
      · intro k me dp hk hclean hroot hfree
        have hfind := dirfind_written h hw hk hclean hroot hi
        unfold Fs.dirlookup
        have hends : Ends (FsM.dirfind dp f.target) k (fun r t _ => t = k ∧
            r = some ((k.icache dp).dev, i + 2, (i + 2) * DIRENTSIZE)) (fun _ => False) := by
          unfold Ends
          rw [hfind]
          exact ⟨rfl, rfl⟩
        refine does_bind (Fs.does_run rfl rfl (hends.mono ?_ fun _ hf => hf))
        rintro r t - ⟨rfl, rfl⟩
        refine does_bind (Fs.does_run rfl rfl ((iget_gives hfree).mono ?_ fun _ hf => hf))
        rintro ip u - hgot
        exact does_pure ⟨hgot.toDisk, rfl, ip, _, rfl, hgot.dev_eq, hgot.inum_eq⟩
      · intro k ip n hk hclean hinum hn
        exact readi_written hw hk hclean hinum hi hn
      · exact hst.type
      · rw [hst.eq]
        rfl
      · rw [hst.eq]
        rfl
      · rw [hst.eq]
        rfl
      · rw [hst.eq]
        rfl
    · intro b hb
      have hused := hw.alloc.used_iff b
      constructor
      · intro hbit
        rcases hused.mp ⟨hb, hbit⟩ with hmeta | ⟨⟨inum, sl⟩, hown⟩
        · exact Or.inl hmeta.1
        · exact Or.inr ⟨inum, sl, Disk.owner_eq_some.mp hown⟩
      · rintro (hmeta | ⟨inum, sl, hown⟩)
        · exact (hused.mpr (Or.inl ⟨hmeta, hb⟩)).2
        · exact (hused.mpr (Or.inr ⟨(inum, sl), Disk.owner_eq_some.mpr hown⟩)).2
    · intro inum inum' sl sl' hlive hlive' h0 heq
      exact hw.alloc.slot_inj hlive hlive' sl sl' h0 heq
  · exact absurd h.accepted hnot

def oneFile : List HostFile := [⟨[95, 99, 97, 116], [[1, 2], [3]]⟩]

theorem oneFile_inputs : Inputs oneFile where
  plain := by decide
  short := by decide
  named := by decide
  distinct := by decide
  few := by decide
  size := by decide
  fits := by decide

/-- The file `_cat` is found as `cat`, with its three bytes. -/
theorem kernel_reads_one_file : Inputs oneFile ∧ ∃ s inum, main oneFile = some s ∧
    ((Disk.ofImage s.sect).dinode inum).type = .file ∧
    ∀ (k : Fs) (ip : InodePtr), k.toDisk = Disk.ofImage s.sect → k.Clean ip →
      (k.icache ip).inum = inum → FsM.readi ip 0 3 k = .ok (some [1, 2, 3], k, []) := by
  obtain ⟨s, hs, hfiles, -, -⟩ := kernel_reads_image oneFile oneFile_inputs
  obtain ⟨inum, -, hread, htype, -⟩ := hfiles 0 _ rfl
  exact ⟨oneFile_inputs, s, inum, hs, htype,
    fun k ip hk hclean hinum => hread k ip 3 hk hclean hinum (by decide)⟩

end Mkfs

end Xv6
