import Xv6.Fs.Exec
import Xv6.Fs.Refs
import Xv6.Fs.Dirs

/-!
# Who holds what

A process that works on an inode has a reference to its entry in the cache, of its own or
through an open file, and the lock of the entry while it reads or changes the inode. These are
tokens here. The invariant says what all tokens together mean: the counts are those of the
tokens, and how far the copy in the cache may be from the inode on disk depends on what the
holder of the lock is doing. Nobody relies on an entry that is being freed.
-/

namespace Xv6

def File.Opens (f : File) (ip : InodePtr) : Prop := 0 < f.ref ∧ f.type = .inode ∧ f.ip = ip

instance (f : File) (ip : InodePtr) : Decidable (f.Opens ip) :=
  inferInstanceAs (Decidable (_ ∧ _ ∧ _))

namespace Fs

inductive Phase
  /-- The inode is as on disk. -/
  | clean
  /-- Fields that do not concern its blocks are changed. -/
  | dirty
  | dying
  | empty
  | freeing
  /-- It is free on disk, where it may be taken again. -/
  | gone
deriving DecidableEq

namespace Phase

def dies : Phase → Bool
  | clean | dirty => false
  | dying | empty | freeing | gone => true

def frees : Phase → Bool
  | dying | empty => true
  | clean | dirty | freeing | gone => false

end Phase

/-- A reference to an entry of the cache that is for an inode: an own one, or that of an
open file. -/
inductive Handle
  | own (ip : InodePtr) (inum : Nat)
  | file (f : FilePtr) (ip : InodePtr) (inum : Nat)
deriving DecidableEq

namespace Handle

def ip : Handle → InodePtr
  | own ip _ | file _ ip _ => ip

def inum : Handle → Nat
  | own _ inum | file _ _ inum => inum

@[simp] theorem inum_own (ip : InodePtr) (n : Nat) : (own ip n).inum = n := rfl

def isOwn : Handle → Bool
  | own _ _ => true
  | file _ _ _ => false

def of (f : FilePtr) : Handle → Bool
  | own _ _ => false
  | file g _ _ => decide (g = f)

end Handle

inductive Token
  | ref (h : Handle)
  | got (ip : InodePtr) (inum : Nat)
  /-- A reference to an entry that the holder has locked. -/
  | lock (h : Handle) (p : Phase)
  | fref (f : FilePtr)
  /-- The reference to a file that is not filled in yet. -/
  | new (f : FilePtr)
  /-- `ialloc` has given an inode, which was not locked since. -/
  | born (inum : Nat)
  /-- An end of a pipe that is not in a file yet, or no longer. -/
  | pend (p : Nat) (writable : Bool)
deriving DecidableEq

namespace Token

def handle : Token → Option Handle
  | ref h | lock h _ => some h
  | got ip inum => some (.own ip inum)
  | fref _ | new _ | born _ | pend _ _ => none

def on (t : Token) (ip : InodePtr) : Bool := t.handle.any fun h => decide (h.ip = ip)

def of (f : FilePtr) : Token → Bool
  | ref h | lock h _ => h.of f
  | fref g | new g => decide (g = f)
  | got _ _ | born _ | pend _ _ => false

/-- The token is counted in `ref` of its entry. -/
def isOwn (t : Token) : Bool := t.handle.any Handle.isOwn

def isLock : Token → Bool
  | lock _ _ => true
  | _ => false

def isRef : Token → Bool
  | ref _ | got _ _ => true
  | _ => false

end Token

/-- The number of tokens that are counted in `ref` of their entry. -/
def owns (toks : Multiset Token) : Nat := toks.countP fun t => t.isOwn = true

def locks (toks : Multiset Token) : Nat := toks.countP fun t => t.isLock = true

def Phase.Ok (i : Inode) (d : Dinode) : Phase → Prop
  | clean => i.valid = true ∧ d = i.d ∧ i.d.type ≠ .free
  | dirty => i.valid = true ∧ i.d.type ≠ .free ∧ d.type = i.d.type ∧ d.addrs = i.d.addrs ∧
      d.size = i.d.size
  | dying => i.valid = true ∧ d = i.d ∧ i.d.type ≠ .free ∧ i.d.nlink = 0
  | empty => i.valid = true ∧ d = i.d ∧ i.d.type ≠ .free ∧ i.d.nlink = 0 ∧
      (i.d.addrs = fun _ => 0) ∧ i.d.size = 0
  | freeing => i.valid = true ∧ i.d = { d with type := .free } ∧ d.type ≠ .free ∧
      (d.addrs = fun _ => 0) ∧ d.size = 0
  | gone => True

/-- Somebody relies on the entry: an open file, or a process that has locked it. -/
def Relied (toks : Multiset Token) (files : Nat) : Prop :=
  0 < files ∨ ∃ ip n, .ref (.own ip n) ∈ toks

/-- An entry of the cache with the tokens about it: `files` open files refer to it, and `d`
is the inode on disk. -/
structure EntryOk (calm : Prop) (toks : Multiset Token) (files : Nat) (i : Inode) (d : Dinode) :
    Prop where
  refs : (owns toks : Int) + files = i.ref
  inum : ∀ t ∈ toks, ∀ h, t.handle = some h → h.inum = i.inum
  busy : i.busy = true ↔ 0 < locks toks
  once : locks toks ≤ 1
  phase : ∀ h p, .lock h p ∈ toks → p.Ok i d
  idle : 0 < i.ref → i.valid = true → i.busy = false → d = i.d ∧ i.d.type ≠ .free
  dev : 0 < i.ref → i.dev = ROOTDEV
  live : Relied toks files → i.valid = true ∧ ∀ h p, .lock h p ∈ toks → p.dies = false
  sole : calm → ∀ h p, .lock h p ∈ toks → p.frees = true → h.isOwn = true ∧ owns toks = 1

structure FileOk (toks : Multiset Token) (f : File) : Prop where
  refs : (toks.card : Int) = f.ref
  ip : ∀ t ∈ toks, ∀ g ip n, t.handle = some (.file g ip n) → f.type = .inode ∧ f.ip = ip
  new : ∀ g, .new g ∈ toks → f.ref = 1 ∧ f.type = .none
  unused : f.ref = 0 → f.type = .none

def opens (s : Fs) (ip : InodePtr) : Nat :=
  (Finset.univ.filter fun f => (s.ftable f).Opens ip).card

structure Inv (sb : Superblock) (calm : Prop) (M : Multiset Token) (s : Fs) : Prop where
  sb_eq : s.sb = sb
  sound : s.Sound
  inj : ∀ ip jp, 0 < (s.icache ip).ref → 0 < (s.icache jp).ref →
    (s.icache ip).inum = (s.icache jp).inum → ip = jp
  entry : ∀ ip, EntryOk calm (M.filter (·.on ip)) (s.opens ip) (s.icache ip)
    (s.dinode (s.icache ip).inum)
  file : ∀ f, FileOk (M.filter (·.of f)) (s.ftable f)

/-! ## What the tokens tell -/

section Tell

variable {sb : Superblock} {calm : Prop} {M : Multiset Token} {s t : Fs} {h : Handle}
  {ip : InodePtr} {n : Nat} {f : FilePtr} {tok : Token} {p : Phase}

theorem Token.on_iff : tok.on ip = true ↔ ∃ h, tok.handle = some h ∧ h.ip = ip := by
  unfold Token.on
  rw [Option.any_eq_true]
  simp

theorem Token.of_eq (hh : tok.handle = some h) : tok.of f = h.of f := by
  cases tok with
  | ref _ | lock _ _ | got _ _ =>
    cases hh
    rfl
  | _ => cases hh

theorem Inv.fref_pos (hi : Inv sb calm M s) (ht : tok ∈ M) (hf : tok.of f = true) :
    0 < (s.ftable f).ref := by
  have hmem : tok ∈ M.filter (·.of f) := Multiset.mem_filter.mpr ⟨ht, hf⟩
  have := (hi.file f).refs
  have := Multiset.card_pos_iff_exists_mem.mpr ⟨tok, hmem⟩
  omega

theorem Inv.file_open (hi : Inv sb calm M s) (ht : tok ∈ M)
    (hh : tok.handle = some (.file f ip n)) :
    (s.ftable f).Opens ip := by
  have hof : tok.of f = true := by
    rw [Token.of_eq hh]
    exact decide_eq_true rfl
  exact ⟨hi.fref_pos ht hof, (hi.file f).ip tok (Multiset.mem_filter.mpr ⟨ht, hof⟩) f ip n hh⟩

theorem Inv.ref_pos (hi : Inv sb calm M s) (ht : tok ∈ M) (hh : tok.handle = some h) :
    0 < (s.icache h.ip).ref := by
  have hon : tok.on h.ip = true := Token.on_iff.mpr ⟨h, hh, rfl⟩
  have hmem : tok ∈ M.filter (·.on h.ip) := Multiset.mem_filter.mpr ⟨ht, hon⟩
  have hrefs := (hi.entry h.ip).refs
  cases h with
  | own ip n =>
    have hown : tok.isOwn = true := by
      unfold Token.isOwn
      rw [hh]
      rfl
    have : 0 < owns (M.filter (·.on ip)) := Multiset.countP_pos_of_mem hmem hown
    change (owns (M.filter (·.on ip)) : Int) + s.opens ip = (s.icache ip).ref at hrefs
    change 0 < (s.icache ip).ref
    omega
  | file f ip n =>
    have hopen := hi.file_open ht hh
    have hpos : 0 < s.opens ip :=
      Finset.card_pos.mpr ⟨f, Finset.mem_filter.mpr ⟨Finset.mem_univ f, hopen⟩⟩
    change _ + (s.opens ip : Int) = (s.icache ip).ref at hrefs
    change 0 < (s.icache ip).ref
    omega

theorem Inv.inum (hi : Inv sb calm M s) (ht : tok ∈ M) (hh : tok.handle = some h) :
    (s.icache h.ip).inum = h.inum := by
  have hon : tok.on h.ip = true := Token.on_iff.mpr ⟨h, hh, rfl⟩
  exact ((hi.entry h.ip).inum tok (Multiset.mem_filter.mpr ⟨ht, hon⟩) h hh).symm

theorem Inv.dev (hi : Inv sb calm M s) (ht : tok ∈ M) (hh : tok.handle = some h) :
    (s.icache h.ip).dev = ROOTDEV :=
  (hi.entry h.ip).dev (hi.ref_pos ht hh)

theorem Inv.phase (hi : Inv sb calm M s) (ht : .lock h p ∈ M) :
    p.Ok (s.icache h.ip) (s.dinode (s.icache h.ip).inum) :=
  (hi.entry h.ip).phase h p (Multiset.mem_filter.mpr ⟨ht, decide_eq_true rfl⟩)

theorem Inv.clean (hi : Inv sb calm M s) (ht : .lock h .clean ∈ M) :
    s.Clean h.ip ∧ (s.icache h.ip).d.type ≠ .free :=
  (hi.phase ht).2

theorem Inv.weaken {calm' : Prop} (hi : Inv sb calm M s) (h : calm' → calm) :
    Inv sb calm' M s where
  sb_eq := hi.sb_eq
  sound := hi.sound
  inj := hi.inj
  entry := fun ip => { hi.entry ip with sole := fun hc => (hi.entry ip).sole (h hc) }
  file := hi.file

theorem Inv.congr (hi : Inv sb calm M s) (hdisk : t.toDisk = s.toDisk) (hc : t.icache = s.icache)
    (hf : t.ftable = s.ftable) : Inv sb calm M t := by
  have hopens : t.opens = s.opens := by
    funext ip
    unfold opens
    rw [hf]
  constructor
  · rw [hdisk]
    exact hi.sb_eq
  · rw [hdisk]
    exact hi.sound
  · rw [hc]
    exact hi.inj
  · rw [hc, hopens, hdisk]
    exact hi.entry
  · rw [hf]
    exact hi.file

end Tell

end Fs

end Xv6
