import Xv6.Mkfs.Store

/-!
# The finished image

`mkfs` writes an image exactly when no name has a slash in it and the files fit. The image
then holds the root directory and the files (`Written`): the size of the root directory is
rounded up to a block that may not be there.
-/

open Option (bind_eq_bind bind_some)

namespace Xv6

namespace Mkfs

variable {s : State} {l : List Stored} {f g : Stored} {k : Nat} {files : List HostFile}

/-! ## What fits -/

namespace Fits

theorem of_set (hk : l[k]? = some f) (hle : f.bytes.length ≤ g.bytes.length)
    (h : Fits (l.set k g)) : Fits l := by
  obtain ⟨htotal, hlens⟩ := h
  have hlt : k < l.length := (List.getElem?_eq_some_iff.mp hk).1
  constructor
  · have hsum := total_set (g := g) hk
    have hmono := blocksFor_mono hle
    omega
  · intro x hx
    obtain ⟨j, hj⟩ := List.mem_iff_getElem?.mp hx
    by_cases hjk : j = k
    · rw [hjk, hk] at hj
      obtain rfl := Option.some.inj hj
      exact Nat.le_trans hle (hlens g (List.mem_set hlt g))
    · rw [← List.getElem?_set_ne (a := g) (Ne.symm hjk)] at hj
      exact hlens x (List.mem_of_getElem? hj)

theorem of_append {l' : List Stored} (h : Fits (l ++ l')) : Fits l := by
  obtain ⟨htotal, hlens⟩ := h
  rw [total_append] at htotal
  exact ⟨by omega, fun x hx => hlens x (List.mem_append_left _ hx)⟩

end Fits

/-! ## The files -/

def rootBytes (files : List HostFile) : List Byte :=
  dirent ROOTINO [46] ++ dirent ROOTINO [46, 46] ++
    (files.mapIdx fun i f => dirent (i + 2) f.target).flatten

def HostFile.stored (f : HostFile) : Stored := ⟨.file, f.bytes⟩

def image (files : List HostFile) : List Stored :=
  ⟨.dir, rootBytes files⟩ :: files.map HostFile.stored

theorem dirent_length (inum : Nat) (name : List Byte) :
    (dirent inum name).length = DIRENTSIZE := by
  simp [dirent]

theorem rootBytes_append (f : HostFile) :
    rootBytes (files ++ [f]) = rootBytes files ++ dirent (files.length + 2) f.target := by
  unfold rootBytes
  rw [List.mapIdx_append, List.flatten_append, List.append_assoc, List.append_assoc,
    List.append_assoc]
  simp

theorem rootBytes_length : (rootBytes files).length = (files.length + 2) * DIRENTSIZE := by
  induction files using List.reverseRecOn with
  | nil => rfl
  | append_singleton files f ih =>
    rw [rootBytes_append, List.length_append, ih, dirent_length, List.length_append]
    have hD : DIRENTSIZE = 16 := rfl
    rw [List.length_singleton, hD]
    omega

theorem rootBytes_length_mono (rest : List HostFile) :
    (rootBytes files).length ≤ (rootBytes (files ++ rest)).length := by
  rw [rootBytes_length, rootBytes_length, List.length_append]
  exact Nat.mul_le_mul_right _ (by omega)

theorem image_length (files : List HostFile) : (image files).length = files.length + 1 := by
  simp [image]

theorem image_append (rest : List HostFile) : image (files ++ rest) =
    (image files ++ rest.map HostFile.stored).set 0 ⟨.dir, rootBytes (files ++ rest)⟩ := by
  simp [image]

theorem Fits.of_image {rest : List HostFile} (h : Fits (image (files ++ rest))) :
    Fits (image files) := by
  rw [image_append] at h
  exact Fits.of_append (Fits.of_set rfl (rootBytes_length_mono rest) h)

theorem appendChunks_holds (chunks : List (List Byte)) (h : Holds l s) (hroom : l.length < room)
    (hk : l[k]? = some f) :
    (Fits (l.set k ⟨f.type, f.bytes ++ chunks.flatten⟩) ∧
      ∃ s', appendChunks (k + 1) s chunks = some s' ∧
        Holds (l.set k ⟨f.type, f.bytes ++ chunks.flatten⟩) s') ∨
    (¬ Fits (l.set k ⟨f.type, f.bytes ++ chunks.flatten⟩) ∧
      appendChunks (k + 1) s chunks = none) := by
  have hlt : k < l.length := (List.getElem?_eq_some_iff.mp hk).1
  induction chunks generalizing l s f with
  | nil =>
    have hsame : l.set k ⟨f.type, f.bytes ++ [].flatten⟩ = l := by
      rw [List.flatten_nil, List.append_nil]
      obtain ⟨-, rfl⟩ := List.getElem?_eq_some_iff.mp hk
      exact List.set_getElem_self hlt
    rw [hsame]
    exact Or.inl ⟨h.fits, s, rfl, h⟩
  | cons c cs ih =>
    unfold appendChunks
    rw [List.flatten_cons, ← List.append_assoc]
    have hself := List.getElem?_set_self (a := (⟨f.type, f.bytes ++ c⟩ : Stored)) hlt
    rcases iappend_holds (p := c) h hroom hk with ⟨-, s', happ, hs'⟩ | ⟨hnot, happ⟩
    · have hrest := ih hs' (by rwa [List.length_set]) hself (by rwa [List.length_set])
      rw [List.set_set] at hrest
      rwa [happ]
    · refine Or.inr ⟨fun hfits => hnot ?_, by rw [happ]; rfl⟩
      rw [← List.set_set (a := (⟨f.type, f.bytes ++ c⟩ : Stored))] at hfits
      refine Fits.of_set hself ?_ hfits
      dsimp only
      rw [show (f.bytes ++ c ++ cs.flatten).length = _ from List.length_append]
      omega

theorem addFile_holds {f : HostFile} (h : Holds (image files) s)
    (hroom : files.length + 2 < room) :
    (slash ∉ f.name ∧ Fits (image (files ++ [f])) ∧
      ∃ s', addFile s f = some s' ∧ Holds (image (files ++ [f])) s') ∨
    (¬ (slash ∉ f.name ∧ Fits (image (files ++ [f]))) ∧ addFile s f = none) := by
  unfold addFile
  by_cases hname : slash ∈ f.name
  · rw [if_pos hname]
    exact Or.inr ⟨fun hh => hh.1 hname, rfl⟩
  rw [if_neg hname]
  have hlen := image_length files
  obtain ⟨s₁, hialloc, h₁⟩ := ialloc_holds .file h (by omega) FileType.noConfusion
  rw [hialloc, hlen]
  simp only [bind_eq_bind, bind_some]
  -- the list once the entry of the directory is there, and once the bytes are
  have hdir : (image files ++ [(⟨.file, []⟩ : Stored)])[0]? = some ⟨.dir, rootBytes files⟩ := rfl
  have hnew : ((image files ++ [(⟨.file, []⟩ : Stored)]).set 0
      ⟨.dir, rootBytes (files ++ [f])⟩)[files.length + 1]? = some ⟨.file, []⟩ := by
    simp [image]
  have hfinal : ((image files ++ [(⟨.file, []⟩ : Stored)]).set 0
      ⟨.dir, rootBytes (files ++ [f])⟩).set (files.length + 1) ⟨.file, f.chunks.flatten⟩ =
        image (files ++ [f]) := by
    simp [image, HostFile.stored, HostFile.bytes]
  have hmono : Fits (image (files ++ [f])) →
      Fits ((image files ++ [(⟨.file, []⟩ : Stored)]).set 0
        ⟨.dir, rootBytes (files ++ [f])⟩) := by
    rw [← hfinal]
    exact Fits.of_set hnew (Nat.zero_le _)
  have hlen₁ : (image files ++ [(⟨.file, []⟩ : Stored)]).length < room := by
    rwa [List.length_append, hlen]
  have happ := iappend_holds (p := dirent (files.length + 1 + 1) f.target) h₁ hlen₁ hdir
  rw [← rootBytes_append] at happ
  rcases happ with ⟨-, s₂, happ, h₂⟩ | ⟨hnot, happ⟩
  · change iappend s₁ ROOTINO _ = _ at happ
    rw [happ, bind_some]
    have hch := appendChunks_holds f.chunks h₂ (by rwa [List.length_set]) hnew
    rw [List.nil_append, hfinal] at hch
    rcases hch with ⟨hfits, hsome⟩ | ⟨hnot, hnone⟩
    · exact Or.inl ⟨hname, hfits, hsome⟩
    · exact Or.inr ⟨fun hh => hnot hh.2, hnone⟩
  · change iappend s₁ ROOTINO _ = _ at happ
    refine Or.inr ⟨fun hh => hnot (hmono hh.2), ?_⟩
    rw [happ]
    rfl

/-- The files that `mkfs` takes. -/
def Accepted (files : List HostFile) : Prop :=
  (∀ f ∈ files, slash ∉ f.name) ∧ Fits (image files)

theorem addFiles_holds (rest : List HostFile) (h : Holds (image files) s)
    (hroom : files.length + rest.length + 2 ≤ room) :
    ((∀ f ∈ rest, slash ∉ f.name) ∧ Fits (image (files ++ rest)) ∧
      ∃ s', addFiles s rest = some s' ∧ Holds (image (files ++ rest)) s') ∨
    (¬ ((∀ f ∈ rest, slash ∉ f.name) ∧ Fits (image (files ++ rest))) ∧
      addFiles s rest = none) := by
  induction rest generalizing files s with
  | nil =>
    rw [List.append_nil]
    exact Or.inl ⟨fun _ hf => absurd hf List.not_mem_nil, h.fits, s, rfl, h⟩
  | cons f rest ih =>
    rw [List.length_cons] at hroom
    have hcons : files ++ f :: rest = files ++ [f] ++ rest := by simp
    unfold addFiles
    rw [hcons, List.forall_mem_cons]
    rcases addFile_holds (f := f) h (by omega) with ⟨hname, -, s', hadd, hs'⟩ | ⟨hnot, hadd⟩
    · rw [hadd, bind_eq_bind, bind_some]
      have hrest := ih hs' (by rw [List.length_append, List.length_singleton]; omega)
      rcases hrest with ⟨hnames, hfits, hsome⟩ | ⟨hnot, hnone⟩
      · exact Or.inl ⟨⟨hname, hnames⟩, hfits, hsome⟩
      · exact Or.inr ⟨fun hh => hnot ⟨hh.1.2, hh.2⟩, hnone⟩
    · rw [hadd]
      exact Or.inr ⟨fun hh => hnot ⟨hh.1.1, hh.2.of_image⟩, rfl⟩

theorem makeRoot_holds : ∃ s, makeRoot blank = some s ∧ Holds (image []) s := by
  have hroom : room = 208 := rfl
  have hfits (bytes : List Byte) (h : bytes.length ≤ BSIZE) : Fits [⟨.dir, bytes⟩] := by
    have hblocks : blocksFor bytes.length ≤ blocksFor BSIZE := blocksFor_mono h
    have hmax : BSIZE ≤ MAXFILE * BSIZE := by decide
    have hfull : nmeta + blocksFor BSIZE ≤ FSSIZE := by decide
    constructor
    · show nmeta + (blocksFor bytes.length + 0) ≤ FSSIZE
      omega
    · intro f hf
      rw [List.mem_singleton.mp hf]
      exact Nat.le_trans h hmax
  obtain ⟨s₁, hialloc, h₁⟩ := ialloc_holds .dir blank_holds (by rw [hroom]; decide)
    FileType.noConfusion
  have hdot := iappend_holds (k := 0) (f := ⟨.dir, []⟩) (p := dirent ROOTINO [46]) h₁
    (by rw [hroom]; decide) rfl
  rcases hdot with ⟨-, s₂, hdot, h₂⟩ | ⟨hnot, -⟩
  · have hdots := iappend_holds (k := 0) (f := ⟨.dir, dirent ROOTINO [46]⟩)
      (p := dirent ROOTINO [46, 46]) h₂ (by rw [hroom]; decide) rfl
    rcases hdots with ⟨-, s₃, hdots, h₃⟩ | ⟨hnot, -⟩
    · refine ⟨s₃, ?_, ?_⟩
      · unfold makeRoot
        rw [hialloc, bind_eq_bind, bind_some]
        dsimp only
        rw [if_pos (by rfl)]
        change (iappend s₁ (0 + 1) (dirent ROOTINO [46])).bind _ = _
        rwa [hdot, bind_some]
      · have hroot : rootBytes [] = dirent ROOTINO [46] ++ dirent ROOTINO [46, 46] := by
          simp [rootBytes]
        unfold image
        rwa [hroot]
    · refine absurd (hfits _ ?_) hnot
      rw [List.length_append, dirent_length, dirent_length]
      decide
  · refine absurd (hfits _ ?_) hnot
    rw [List.nil_append, dirent_length]
    decide

/-! ## The free map -/

theorem marks_succ (used : Nat) : marks (used + 1) =
    (marks used).move (used / 8) 1 fun _ =>
      (marks used).byte (used / 8) ||| (1#8 <<< (used % 8)) := by
  unfold marks
  rw [List.range_succ, List.foldl_append]
  rfl

theorem marks_bit {used b : Nat} (hb : b < BSIZE * 8) :
    ((marks used).byte (b / 8)).getLsbD (b % 8) = decide (b < used) := by
  have hB : BSIZE = 512 := rfl
  have hin : b / 8 < BSIZE := by omega
  induction used with
  | zero =>
    have hzero : marks 0 = Block.zero := rfl
    rw [hzero, Block.byte_zero]
    simp
  | succ used ih =>
    rw [marks_succ, Block.byte_move hin]
    by_cases hbyte : used / 8 = b / 8
    · rw [if_pos (by omega), hbyte, BitVec.getLsbD_or, ih, BitVec.getLsbD_shiftLeft]
      have hbit : b % 8 < 8 := Nat.mod_lt _ (by decide)
      by_cases heq : b = used
      · subst heq
        simp [hbit]
      · have hlt : b % 8 < used % 8 ∨ b % 8 - used % 8 ≠ 0 := by omega
        have hiff : b < used + 1 ↔ b < used := by omega
        rcases hlt with hlt | hne
        · simp [hbit, hlt, hiff]
        · simp [hbit, hne, hiff]
    · rw [if_neg (by omega), ih]
      apply decide_eq_decide.mpr
      constructor
      · intro hlt
        exact Nat.lt_succ_of_lt hlt
      · intro hlt
        refine Nat.lt_of_le_of_ne (Nat.le_of_lt_succ hlt) fun heq => hbyte ?_
        rw [heq]

theorem ofImage_balloc {D : Disk} (hs : Ready s) (hD : D = view s) :
    ∃ s', balloc s s.freeblock = some s' ∧ (Disk.ofImage s'.sect).sb = sb ∧
      (Disk.ofImage s'.sect).block = D.block ∧ (Disk.ofImage s'.sect).iblock = D.iblock ∧
      ∀ b, b < FSSIZE → (Disk.ofImage s'.sect).bit b = D.bit b := by
  have hB : BSIZE = 512 := rfl
  have hP : BPB = 4096 := rfl
  have hF : FSSIZE = 2000 := rfl
  have hmap : sb.bmapstart = 58 := rfl
  have hmeta : nmeta = 59 := rfl
  have hlimit := hs.limit
  have hother (n : Nat) (hn : n ≠ 58) :
      (wsect s sb.bmapstart (marks s.freeblock)).sect n = s.sect n :=
    Function.update_of_ne (by rwa [hmap]) ..
  have hsuper : ((wsect s sb.bmapstart (marks s.freeblock)).sect 1).superblock = sb := by
    rw [hother 1 (by decide)]
    exact hs.super
  refine ⟨wsect s sb.bmapstart (marks s.freeblock), if_pos (by omega), hsuper, ?_, ?_, ?_⟩
  · unfold Disk.ofImage
    rw [hsuper, hD]
    funext n
    show (if n < nmeta then Block.zero else _) = if n < nmeta then Block.zero else _
    by_cases hn : n < nmeta
    · rw [if_pos hn, if_pos hn]
    · rw [if_neg hn, if_neg hn, hother n (by omega)]
  · unfold Disk.ofImage
    rw [hsuper, hD]
    funext n i
    unfold view
    dsimp only
    by_cases hn : sb.inodestart ≤ n ∧ n < sb.bmapstart
    · rw [if_pos hn, if_pos hn, hother n (by omega)]
    · rw [if_neg hn, if_neg hn]
  · intro b hb
    have hblock : BBLOCK b sb = sb.bmapstart := by
      unfold BBLOCK
      rw [hP]
      omega
    have hmod : b % BPB = b := Nat.mod_eq_of_lt (by omega)
    have hsect : (wsect s sb.bmapstart (marks s.freeblock)).sect sb.bmapstart =
        marks s.freeblock := by
      unfold wsect
      dsimp only
      rw [Function.update_self]
    unfold Disk.ofImage
    dsimp only
    rw [hsuper, hblock, hmod, hsect, marks_bit (by omega), hD]
    rfl

/-! ## `main` -/

def rounded (off : Nat) : Nat := (off / BSIZE + 1) * BSIZE

/-- What the kernel finds in the image: the root directory with its size rounded up, the files,
and a free map that is right. -/
structure Written (files : List HostFile) (D : Disk) : Prop where
  sb : D.sb = sb
  alloc : D.Alloc D.dinode
  root : ∃ d, Stores D d ⟨.dir, rootBytes files⟩ ∧
    D.dinode ROOTINO = { d with size := BitVec.ofNat 32 (rounded d.size.toNat) }
  stores : ∀ k f, files[k]? = some f → Stores D (D.dinode (k + 2)) f.stored
  free : ∀ inum, inum = 0 ∨ files.length + 1 < inum → D.dinode inum = .zero

theorem finish_written (h : Holds (image files) s) :
    ∃ s' s'', fixRoot s = some s' ∧ balloc s' s'.freeblock = some s'' ∧
      Written files (Disk.ofImage s''.sect) := by
  have hlen := image_length files
  have hroot := h.stores 0 ⟨.dir, rootBytes files⟩ rfl
  generalize hd : (view s).dinode (0 + 1) = d at hroot
  have hone : ROOTINO < room := by decide
  have hrinode := rinode_eq _ h.ready hone
  change rinode s ROOTINO = some ((view s).dinode (0 + 1)) at hrinode
  rw [hd] at hrinode
  have haddrs : ∀ i, d.addrs i < 2 ^ 32 := by
    intro i
    have hlive : ((view s).dinode (0 + 1)).type ≠ .free := by
      rw [hd, hroot.type]
      exact FileType.noConfusion
    have := addrs_lt h.alloc hlive i
    rwa [hd] at this
  obtain ⟨s', hw, hs', hview, hfb, -⟩ := winode_eq ROOTINO
    { d with size := BitVec.ofNat 32 (rounded d.size.toNat) } h.ready hone haddrs
  obtain ⟨s'', hballoc, hsb, hblock, hiblock, hbit⟩ := ofImage_balloc hs' rfl
  have hdinode : (Disk.ofImage s''.sect).dinode = Function.update (view s).dinode ROOTINO
      { d with size := BitVec.ofNat 32 (rounded d.size.toNat) } := by
    rw [← Disk.dinode_setDinode, ← hview]
    unfold Disk.dinode
    rw [hiblock, hsb]
    rfl
  have hblock' : (Disk.ofImage s''.sect).block = (view s).block := by
    rw [hblock, hview]
    rfl
  have hst {d' : Dinode} {f : Stored} (hst : Stores (view s) d' f) :
      Stores (Disk.ofImage s''.sect) d' f :=
    hst.congr (Disk.slot_congr hblock' rfl) (congrFun (Disk.fileByte_congr hblock' rfl))
  refine ⟨s', s'', ?_, hballoc, hsb, ?_, ⟨d, hst hroot, ?_⟩, ?_, ?_⟩
  · unfold fixRoot
    rwa [hrinode, bind_eq_bind, bind_some]
  · -- the free map is the one of the unfinished image, on the blocks that there are
    have halloc : (view s').Alloc (Disk.ofImage s''.sect).dinode := by
      refine h.alloc.congr (by rw [hview]; rfl) (by rw [hview]; rfl) (by rw [hview]; rfl) ?_
      intro m
      rw [hdinode]
      by_cases hm : m = ROOTINO
      · rw [hm, Function.update_self]
        have hd' : (view s).dinode ROOTINO = d := hd
        rw [hd']
        exact ⟨rfl, rfl⟩
      · rw [Function.update_of_ne hm]
        exact ⟨rfl, rfl⟩
    unfold Disk.Alloc
    rw [hsb]
    refine Ownership.congr halloc (fun k => ?_) fun b => ?_
    · unfold Disk.owner
      rw [Disk.slot_congr hblock rfl]
    · refine and_congr_right fun hb => ?_
      rw [hbit b hb]
  · rw [hdinode, Function.update_self]
  · intro k f hk
    have hne : k + 2 ≠ ROOTINO := by
      have : ROOTINO = 1 := rfl
      omega
    rw [hdinode, Function.update_of_ne hne]
    refine hst (h.stores (k + 1) f.stored ?_)
    unfold image
    rw [List.getElem?_cons_succ, List.getElem?_map, hk]
    rfl
  · intro inum hin
    have hne : inum ≠ ROOTINO := by
      have : ROOTINO = 1 := rfl
      omega
    rw [hdinode, Function.update_of_ne hne]
    exact h.free inum (by omega)

theorem main_written (hroom : files.length + 2 ≤ room) :
    (Accepted files ∧ ∃ s, main files = some s ∧ Written files (Disk.ofImage s.sect)) ∨
    (¬ Accepted files ∧ main files = none) := by
  obtain ⟨s₀, hroot, h₀⟩ := makeRoot_holds
  unfold main
  rw [hroot, bind_eq_bind, bind_some]
  have hadd := addFiles_holds files h₀ (by simpa using hroom)
  rw [List.nil_append] at hadd
  rcases hadd with ⟨hnames, hfits, s₁, hadd, h₁⟩ | ⟨hnot, hadd⟩
  · obtain ⟨s₂, s₃, hfix, hballoc, hw⟩ := finish_written h₁
    refine Or.inl ⟨⟨hnames, hfits⟩, s₃, ?_, hw⟩
    rwa [hadd, bind_some, hfix, bind_some]
  · refine Or.inr ⟨hnot, ?_⟩
    rw [hadd]
    rfl

theorem total_image : total (image files) =
    blocksFor ((files.length + 2) * DIRENTSIZE) +
      (files.map fun f => blocksFor f.bytes.length).sum := by
  unfold total image
  rw [List.map_cons, List.sum_cons, rootBytes_length, List.map_map]
  rfl

/-! ## Holes -/

namespace Written

variable {D : Disk}

theorem root_size (h : Written files D) (hroom : files.length + 2 ≤ room) :
    (D.dinode ROOTINO).size.toNat = ((files.length + 2) / 32 + 1) * BSIZE := by
  obtain ⟨d, hst, hd⟩ := h.root
  have hR : room = 208 := rfl
  have hB : BSIZE = 512 := rfl
  have hD : DIRENTSIZE = 16 := rfl
  rw [hd]
  rw [hst.size, BitVec.toNat_ofNat]
  rw [rootBytes_length]
  unfold rounded
  rw [hB, hD]
  omega

theorem root_blocks (h : Written files D) (bn : Nat) :
    D.blockOf (D.dinode ROOTINO) bn = 0 ↔ files.length + 2 ≤ bn * 32 := by
  obtain ⟨d, hst, hd⟩ := h.root
  have hB : BSIZE = 512 := rfl
  have hD : DIRENTSIZE = 16 := rfl
  have hblock : D.blockOf (D.dinode ROOTINO) = D.blockOf d := by
    rw [hd]
    exact Disk.blockOf_congr rfl rfl
  rw [hblock, hst.compact.blocks, hst.size]
  rw [rootBytes_length, hB, hD]
  omega

theorem root_noHole (h : Written files D) (hroom : files.length + 2 ≤ room) :
    D.NoHole (D.dinode ROOTINO) ↔ (files.length + 2) % 32 ≠ 0 := by
  have hB : BSIZE = 512 := rfl
  unfold Disk.NoHole
  rw [h.root_size hroom, hB]
  constructor
  · intro hfull hmod
    apply hfull ((files.length + 2) / 32) (by omega)
    rw [h.root_blocks]
    omega
  · intro hmod bn hbn hzero
    rw [h.root_blocks] at hzero
    omega

theorem noHole_of_ne (h : Written files D) {inum : Nat} (hne : inum ≠ ROOTINO) :
    D.NoHole (D.dinode inum) := by
  have hR : ROOTINO = 1 := rfl
  by_cases hin : inum = 0 ∨ files.length + 1 < inum
  · rw [h.free inum hin]
    intro bn hbn
    exact absurd hbn (Nat.not_lt_zero _)
  · have hk : inum - 2 < files.length := by omega
    have heq : inum - 2 + 2 = inum := by omega
    have hst := h.stores _ _ (List.getElem?_eq_getElem hk)
    rw [heq] at hst
    exact hst.compact.noHole

end Written

def thirty : List HostFile := (List.range 30).map fun i => ⟨[BitVec.ofNat 8 (65 + i)], []⟩

end Mkfs

end Xv6
