import Mathlib.Algebra.BigOperators.Group.Finset.Piecewise
import Xv6.Fs.Tokens

/-!
# What the calls do to the tokens

Every call that changes the inode cache, the file table or the disk keeps the invariant,
with the tokens of the caller exchanged for those it has afterwards.
-/

open Multiset (card_cons card_eq_zero filter_cons_of_neg filter_cons_of_pos mem_cons
  mem_cons_of_mem mem_cons_self mem_filter mem_singleton notMem_zero)
open Function (update update_of_ne update_self update_eq_self)

namespace Xv6

namespace Fs

variable {sb : Superblock} {calm : Prop} {M M' R A : Multiset Token} {s t : Fs} {h : Handle}
  {ip : InodePtr}
  {n : Nat} {f : FilePtr} {a b : Token} {p q : Phase} {i : Inode} {d : Dinode}

/-! ## Tokens of one handle -/

namespace Token

theorem filter_on_ne {jp : InodePtr} (ha : a.handle = some h) (hj : jp ≠ h.ip) :
    (a ::ₘ R).filter (·.on jp) = R.filter (·.on jp) := by
  apply filter_cons_of_neg
  rw [on_iff]
  rintro ⟨h', hh', hip⟩
  rw [ha] at hh'
  cases hh'
  exact hj hip.symm

theorem filter_on_self (ip : InodePtr) (ha : a.handle = some h) (hip : h.ip = ip) :
    (a ::ₘ R).filter (·.on ip) = a ::ₘ R.filter (·.on ip) :=
  filter_cons_of_pos _ (on_iff.mpr ⟨h, ha, hip⟩)

theorem filter_on_none (ha : a.handle = none) :
    (a ::ₘ R).filter (·.on ip) = R.filter (·.on ip) := by
  apply filter_cons_of_neg
  rw [on_iff, ha]
  rintro ⟨_, hh, _⟩
  cases hh

end Token

theorem owns_cons (ha : a.handle = some h) :
    owns (a ::ₘ A) = owns A + if h.isOwn = true then 1 else 0 := by
  unfold owns
  rw [Multiset.countP_cons]
  unfold Token.isOwn
  rw [ha, Option.any_some]

theorem owns_own (ha : a.handle = some (.own ip n)) : owns (a ::ₘ A) = owns A + 1 :=
  owns_cons ha

theorem locks_lock : locks (.lock h p ::ₘ A) = locks A + 1 :=
  Multiset.countP_cons_of_pos _ rfl

theorem locks_cons_of_not (ha : a.isLock = false) : locks (a ::ₘ A) = locks A := by
  unfold locks
  rw [Multiset.countP_cons_of_neg]
  rw [ha]
  exact Bool.false_ne_true

theorem Token.isLock_of_isRef (ha : a.isRef = true) : a.isLock = false := by
  cases a with
  | ref _ | got _ _ => rfl
  | _ => cases ha

theorem lock_mem_cons (ha : a.isLock = false) : .lock h p ∈ a ::ₘ A ↔ .lock h p ∈ A := by
  rw [mem_cons]
  constructor
  · rintro (rfl | hmem)
    · cases ha
    · exact hmem
  · exact Or.inr

theorem owns_pos (hmem : a ∈ A) (ha : a.handle = some (.own ip n)) : 0 < owns A := by
  refine Multiset.countP_pos_of_mem hmem ?_
  unfold Token.isOwn
  rw [ha]
  rfl

section Relied

variable {files : Nat}

theorem Relied.cons (h : Relied A files) : Relied (a ::ₘ A) files := by
  refine h.imp_right ?_
  rintro ⟨ip, n, hmem⟩
  exact ⟨ip, n, mem_cons_of_mem hmem⟩

theorem Relied.of_cons (h : Relied (a ::ₘ A) files) (ha : ∀ ip n, .ref (.own ip n) ≠ a) :
    Relied A files := by
  refine h.imp_right ?_
  rintro ⟨ip, n, hmem⟩
  rw [mem_cons] at hmem
  exact ⟨ip, n, hmem.resolve_left (ha ip n)⟩

end Relied

theorem not_lock_mem (hcount : locks A = 0) (h : Handle) (p : Phase) : .lock h p ∉ A := by
  intro hmem
  have : 0 < locks A := Multiset.countP_pos_of_mem hmem rfl
  omega

theorem lock_mem_lock {h' : Handle} {p' : Phase} (hcount : locks A = 0)
    (hmem : .lock h' p' ∈ Token.lock h p ::ₘ A) : h' = h ∧ p' = p := by
  rcases mem_cons.mp hmem with heq | hmem
  · cases heq
    exact ⟨rfl, rfl⟩
  · exact absurd hmem (not_lock_mem hcount h' p')

variable {j : Inode}

theorem Phase.Ok.of_eq (hok : p.Ok i d) (hvalid : j.valid = i.valid) (hd : j.d = i.d) :
    p.Ok j d := by
  unfold Phase.Ok at hok ⊢
  rwa [hvalid, hd]

theorem Phase.Ok.valid (hok : p.Ok i d) (hp : p.dies = false) : i.valid = true := by
  cases p with
  | clean | dirty => exact hok.1
  | _ => cases hp

theorem Phase.dies_of_frees (hp : p.frees = true) : p.dies = true := by
  cases p with
  | dying | empty => rfl
  | _ => cases hp

/-! ## One entry -/

namespace EntryOk

variable {files : Nat}

variable {d' : Dinode}

theorem swap (hok : EntryOk calm (a ::ₘ A) files i d) (ha : a.handle = some h)
    (hb : b.handle = some h) (hinum : j.inum = i.inum)
    (hdev : j.dev = i.dev) (href : j.ref = i.ref)
    (hbusy : j.busy = true ↔ 0 < locks (b ::ₘ A))
    (honce : locks (b ::ₘ A) ≤ 1)
    (hphase : ∀ h p, .lock h p ∈ b ::ₘ A → p.Ok j d')
    (hidle : 0 < j.ref → j.valid = true → j.busy = false → d' = j.d ∧ j.d.type ≠ .free)
    (hlive : Relied (b ::ₘ A) files →
      j.valid = true ∧ ∀ h p, .lock h p ∈ b ::ₘ A → p.dies = false)
    (hsole : calm → ∀ h p, .lock h p ∈ b ::ₘ A → p.frees = true →
      h.isOwn = true ∧ owns (a ::ₘ A) = 1) :
    EntryOk calm (b ::ₘ A) files j d' := by
  have howns : owns (b ::ₘ A) = owns (a ::ₘ A) := by
    rw [owns_cons ha, owns_cons hb]
  refine ⟨?_, ?_, hbusy, honce, hphase, hidle, ?_, hlive, ?_⟩
  · rw [howns, href]
    exact hok.refs
  · intro t ht h' hh'
    rw [hinum]
    rcases mem_cons.mp ht with rfl | ht
    · rw [hb] at hh'
      cases hh'
      exact hok.inum a (mem_cons_self _ _) h ha
    · exact hok.inum t (mem_cons_of_mem ht) h' hh'
  · intro hpos
    rw [hdev]
    exact hok.dev (href ▸ hpos)
  · rwa [howns]

theorem no_lock (hok : EntryOk calm A files i d) (hbusy : i.busy = false) :
    locks A = 0 := by
  by_contra hne
  have := hok.busy.mpr (Nat.pos_of_ne_zero hne)
  rw [hbusy] at this
  cases this

theorem only_lock (hok : EntryOk calm (.lock h p ::ₘ A) files i d) : locks A = 0 := by
  have := hok.once
  rw [locks_lock] at this
  omega

theorem relock (hok : EntryOk calm (a ::ₘ A) files i d) (ha : a.handle = some h)
    (hnone : locks A = 0) (hinum : j.inum = i.inum)
    (hdev : j.dev = i.dev) (href : j.ref = i.ref) (hbusy : j.busy = true) (hq : q.Ok j d')
    (hlive : Relied (.lock h q ::ₘ A) files → q.dies = false)
    (hsole : calm → q.frees = true → h.isOwn = true ∧ owns (a ::ₘ A) = 1) :
    EntryOk calm (.lock h q ::ₘ A) files j d' := by
  refine hok.swap ha rfl hinum hdev href ?_ ?_ ?_ ?_ ?_ ?_
  · rw [locks_lock]
    exact ⟨fun _ => Nat.succ_pos _, fun _ => hbusy⟩
  · rw [locks_lock, hnone]
  · intro h' p' hmem
    obtain ⟨-, rfl⟩ := lock_mem_lock hnone hmem
    exact hq
  · intro _ _ hb
    rw [hbusy] at hb
    cases hb
  · intro hrel
    refine ⟨hq.valid (hlive hrel), fun h' p' hmem => ?_⟩
    obtain ⟨-, rfl⟩ := lock_mem_lock hnone hmem
    exact hlive hrel
  · intro hcalm h' p' hmem hfree
    obtain ⟨rfl, rfl⟩ := lock_mem_lock hnone hmem
    exact hsole hcalm hfree

theorem lock (hok : EntryOk calm (a ::ₘ A) files i d) (hr : a.isRef = true)
    (ha : a.handle = some h) (hbusy : i.busy = false)
    (hinum : j.inum = i.inum) (hdev : j.dev = i.dev) (href : j.ref = i.ref)
    (hj : j.busy = true) (hp : p.Ok j d)
    (hdie : p.dies = true → h.isOwn = true ∧ owns (a ::ₘ A) = 1 ∧ files = 0) :
    EntryOk calm (.lock h p ::ₘ A) files j d := by
  have hnone := hok.no_lock hbusy
  rw [locks_cons_of_not (Token.isLock_of_isRef hr)] at hnone
  refine hok.relock ha hnone hinum hdev href hj hp ?_ ?_
  · intro hrel
    by_contra hne
    obtain ⟨hown, hone, hzero⟩ := hdie (by simpa using hne)
    rcases hrel with hfiles | ⟨ip, n, hmem⟩
    · omega
    · -- another reference of its own would make two
      have hmem := (mem_cons.mp hmem).resolve_left nofun
      have := owns_pos hmem (a := .ref (.own ip n)) rfl
      rw [owns_cons ha, if_pos hown] at hone
      omega
  · intro _ hfree
    obtain ⟨hown, hone, -⟩ := hdie (Phase.dies_of_frees hfree)
    exact ⟨hown, hone⟩

theorem change (hok : EntryOk calm (.lock h p ::ₘ A) files i d)
    (hinum : j.inum = i.inum) (hdev : j.dev = i.dev) (href : j.ref = i.ref)
    (hbusy : j.busy = i.busy) (hq : q.Ok j d') (hdie : q.dies = true → p.dies = true)
    (hfree : q.frees = true → p.frees = true) :
    EntryOk calm (.lock h q ::ₘ A) files j d' := by
  have hi : i.busy = true := hok.busy.mpr (by
    rw [locks_lock]
    exact Nat.succ_pos _)
  have hself := mem_cons_self (.lock h p) A
  refine hok.relock rfl hok.only_lock hinum hdev href (hbusy.trans hi) hq ?_ ?_
  · intro hrel
    have hp := (hok.live (hrel.of_cons nofun).cons).2 h p hself
    by_contra hne
    rw [hdie (by simpa using hne)] at hp
    cases hp
  · exact fun hcalm hf => hok.sole hcalm h p hself (hfree hf)

theorem unlock (hok : EntryOk calm (.lock h .clean ::ₘ A) files i d) :
    EntryOk calm (.ref h ::ₘ A) files { i with busy := false } d := by
  have hnone := hok.only_lock
  have hclean := hok.phase h .clean (mem_cons_self _ _)
  have hnot : ∀ h' p', .lock h' p' ∉ Token.ref h ::ₘ A := by
    intro h' p' hmem
    exact not_lock_mem hnone h' p' ((lock_mem_cons rfl).mp hmem)
  refine hok.swap rfl rfl rfl rfl rfl ?_ ?_ ?_ ?_ ?_ ?_
  · rw [locks_cons_of_not rfl, hnone]
    simp
  · rw [locks_cons_of_not rfl, hnone]
    exact Nat.zero_le 1
  · exact fun h' p' hmem => absurd hmem (hnot h' p')
  · exact fun _ _ _ => hclean.2
  · exact fun _ => ⟨hclean.1, fun h' p' hmem => absurd hmem (hnot h' p')⟩
  · exact fun _ h' p' hmem => absurd hmem (hnot h' p')

theorem realloc (hok : EntryOk calm A files i d) (hfree : d.type = .free) (d' : Dinode) :
    EntryOk calm A files i d' where
  refs := hok.refs
  inum := hok.inum
  busy := hok.busy
  once := hok.once
  phase := by
    intro h p hmem
    have hp := hok.phase h p hmem
    cases p with
    | clean =>
      obtain ⟨-, rfl, hlive⟩ := hp
      exact absurd hfree hlive
    | dirty =>
      rw [hp.2.2.1] at hfree
      exact absurd hfree hp.2.1
    | dying | empty =>
      obtain ⟨-, rfl, hlive, -⟩ := hp
      exact absurd hfree hlive
    | freeing => exact absurd hfree hp.2.2.1
    | gone => trivial
  idle := by
    intro hpos hvalid hbusy
    have hi := hok.idle hpos hvalid hbusy
    rw [← hi.1] at hi
    exact absurd hfree hi.2
  dev := hok.dev
  live := hok.live
  sole := hok.sole

theorem retoken (hok : EntryOk calm A files i d) {A' : Multiset Token} {files' : Nat} {r : Int}
    (hlocks : locks A' = locks A) (hmem : ∀ {h p}, .lock h p ∈ A' → .lock h p ∈ A)
    (hrefs : (owns A' : Int) + files' = r)
    (hinum : ∀ t ∈ A', ∀ h, t.handle = some h → h.inum = i.inum)
    (hpos : 0 < r → 0 < i.ref) (hlive : Relied A' files' → Relied A files)
    (hsole : calm → ∀ {h p}, .lock h p ∈ A' → p.frees = true → h.isOwn = true →
      owns A = 1 → owns A' = 1) :
    EntryOk calm A' files' { i with ref := r } d where
  refs := hrefs
  inum := hinum
  busy := by
    rw [hlocks]
    exact hok.busy
  once := by
    rw [hlocks]
    exact hok.once
  phase := fun h p hm => (hok.phase h p (hmem hm)).of_eq rfl rfl
  idle := fun h => hok.idle (hpos h)
  dev := fun h => hok.dev (hpos h)
  live := by
    intro hrel
    obtain ⟨hvalid, hnone⟩ := hok.live (hlive hrel)
    exact ⟨hvalid, fun h p hm => hnone h p (hmem hm)⟩
  sole := by
    intro hcalm h p hm hfree
    obtain ⟨hown, hone⟩ := hok.sole hcalm h p (hmem hm) hfree
    exact ⟨hown, hsole hcalm hm hfree hown hone⟩

theorem inum_cons (hok : EntryOk calm A files i d) (hb : b.handle = some h)
    (hinum : h.inum = i.inum) : ∀ t ∈ b ::ₘ A, ∀ h, t.handle = some h → h.inum = i.inum := by
  intro t ht h' hh'
  rcases mem_cons.mp ht with rfl | ht
  · rw [hb] at hh'
    cases hh'
    exact hinum
  · exact hok.inum t ht h' hh'

theorem not_frees (hok : EntryOk calm A files i d) (hrel : Relied A files)
    (hmem : .lock h p ∈ A) : p.frees ≠ true := by
  intro hfree
  have := (hok.live hrel).2 h p hmem
  rw [Phase.dies_of_frees hfree] at this
  cases this

theorem take (hok : EntryOk calm A files i d) (hpos : 0 < i.ref)
    (hcalm : calm → ∀ h p, .lock h p ∈ A → p.frees = false) :
    EntryOk calm (.got ip i.inum ::ₘ A) files { i with ref := i.ref + 1 } d := by
  refine hok.retoken (locks_cons_of_not rfl) (lock_mem_cons rfl).mp ?_
    (hok.inum_cons (h := .own ip i.inum) rfl rfl) (fun _ => hpos) ?_ ?_
  · have := hok.refs
    rw [owns_own rfl]
    push_cast
    omega
  · exact fun hrel => hrel.of_cons nofun
  · intro hc h p hmem hfree
    rw [hcalm hc h p ((lock_mem_cons rfl).mp hmem)] at hfree
    cases hfree

theorem dup (hok : EntryOk calm A files i d) (hpos : 0 < i.ref) (hrel : Relied A files) :
    EntryOk calm (.ref (.own ip i.inum) ::ₘ A) files { i with ref := i.ref + 1 } d := by
  refine hok.retoken (locks_cons_of_not rfl) (lock_mem_cons rfl).mp ?_
    (hok.inum_cons (h := .own ip i.inum) rfl rfl) (fun _ => hpos) (fun _ => hrel) ?_
  · have := hok.refs
    rw [owns_own rfl]
    push_cast
    omega
  · exact fun _ _ _ hmem hfree => absurd hfree (hok.not_frees hrel ((lock_mem_cons rfl).mp hmem))

theorem drop (hok : EntryOk calm (a ::ₘ A) files i d) (hr : a.isRef = true)
    (ha : a.handle = some (.own ip n)) :
    EntryOk calm A files { i with ref := i.ref - 1 } d := by
  have hlock := Token.isLock_of_isRef hr
  refine hok.retoken (locks_cons_of_not hlock).symm (lock_mem_cons hlock).mpr ?_
    (fun t ht => hok.inum t (mem_cons_of_mem ht)) (fun h => by omega) ?_ ?_
  · have := hok.refs
    rw [owns_own ha] at this
    push_cast at this
    omega
  · exact Relied.cons
  · -- the lock of an inode that is freed is the only reference
    intro _ h p hmem _ hown hone
    cases h with
    | own jp m =>
      have := owns_pos hmem rfl
      rw [owns_own ha] at hone
      omega
    | file f jp m => cases hown

theorem finish (hok : EntryOk calm (.lock (.own ip n) p ::ₘ A) files i d) (hp : p.dies = true) :
    EntryOk calm A files { i with busy := false, valid := false, ref := i.ref - 1 } d where
  refs := by
    have := hok.refs
    rw [owns_own rfl] at this
    push_cast at this
    dsimp only
    omega
  inum := fun t ht => hok.inum t (mem_cons_of_mem ht)
  busy := by
    rw [hok.only_lock]
    simp
  once := by
    rw [hok.only_lock]
    exact Nat.zero_le 1
  phase := fun h' p hmem => absurd hmem (not_lock_mem hok.only_lock h' p)
  idle := by
    intro _ hvalid
    cases hvalid
  dev := by
    intro hpos
    exact hok.dev (by dsimp only at hpos; omega)
  live := by
    intro hrel
    have := (hok.live hrel.cons).2 _ p (mem_cons_self _ _)
    rw [hp] at this
    cases this
  sole := fun _ h' p hmem => absurd hmem (not_lock_mem hok.only_lock h' p)

theorem fresh (hok : EntryOk calm A files i d) (hzero : i.ref = 0)
    (href : j.ref = 1) (hdev : j.dev = ROOTDEV) (hbusy : j.busy = false) (hvalid : j.valid = false)
    (hnone : A = 0) : EntryOk calm (.got ip j.inum ::ₘ A) files j d' := by
  subst hnone
  have hrefs := hok.refs
  have hfiles : files = 0 := by omega
  have hnot : ∀ h p, .lock h p ∉ (Token.got ip j.inum ::ₘ 0 : Multiset Token) := by
    intro h p hmem
    exact notMem_zero _ ((lock_mem_cons rfl).mp hmem)
  constructor
  · rw [owns_own rfl, href]
    push_cast
    omega
  · intro t ht h' hh'
    rcases mem_cons.mp ht with rfl | ht
    · cases hh'
      rfl
    · cases notMem_zero _ ht
  · rw [locks_cons_of_not rfl, hbusy]
    simp [locks]
  · rw [locks_cons_of_not rfl]
    simp [locks]
  · exact fun h' p hmem => absurd hmem (hnot h' p)
  · intro _ hv
    rw [hvalid] at hv
    cases hv
  · exact fun _ => hdev
  · intro hrel
    rcases hrel.of_cons nofun with hpos | ⟨jp, n, hmem⟩
    · omega
    · cases notMem_zero _ hmem
  · exact fun _ h' p hmem => absurd hmem (hnot h' p)

theorem toFile (hok : EntryOk calm (.ref (.own ip n) ::ₘ A) files i d) :
    EntryOk calm A (files + 1) i d := by
  have hrel : Relied (.ref (.own ip n) ::ₘ A) files :=
    Or.inr ⟨ip, n, mem_cons_self _ _⟩
  refine hok.retoken (r := i.ref) (locks_cons_of_not rfl).symm (lock_mem_cons rfl).mpr ?_
    (fun t ht => hok.inum t (mem_cons_of_mem ht)) (fun h => h) (fun _ => hrel) ?_
  · have := hok.refs
    rw [owns_own rfl] at this
    push_cast at this ⊢
    omega
  · exact fun _ _ _ hmem hfree => absurd hfree (hok.not_frees hrel (mem_cons_of_mem hmem))

theorem ofFile (hok : EntryOk calm A (files + 1) i d) :
    EntryOk calm (.ref (.own ip i.inum) ::ₘ A) files i d := by
  have hrel : Relied A (files + 1) := Or.inl (Nat.succ_pos _)
  refine hok.retoken (r := i.ref) (locks_cons_of_not rfl) (lock_mem_cons rfl).mp ?_
    (hok.inum_cons (h := .own ip i.inum) rfl rfl) (fun h => h) (fun _ => hrel) ?_
  · have := hok.refs
    rw [owns_own rfl]
    push_cast at this ⊢
    omega
  · exact fun _ _ _ hmem hfree => absurd hfree (hok.not_frees hrel ((lock_mem_cons rfl).mp hmem))

theorem owns_file {jp : InodePtr} : owns (.ref (.file f jp n) ::ₘ A) = owns A := by
  rw [owns_cons (h := .file f jp n) rfl]
  rfl

theorem see (hok : EntryOk calm A files i d) (f : FilePtr) (ip : InodePtr) :
    EntryOk calm (.ref (.file f ip i.inum) ::ₘ A) files i d := by
  refine hok.retoken (r := i.ref) (locks_cons_of_not rfl) (lock_mem_cons rfl).mp ?_
    (hok.inum_cons (h := .file f ip i.inum) rfl rfl) id (fun hrel => hrel.of_cons nofun) ?_
  · rw [owns_file]
    exact hok.refs
  · intro _ h p _ _ _ hone
    rwa [owns_file]

theorem unsee (hok : EntryOk calm (.ref (.file f ip n) ::ₘ A) files i d) :
    EntryOk calm A files i d := by
  refine hok.retoken (r := i.ref) (locks_cons_of_not rfl).symm (lock_mem_cons rfl).mpr ?_
    (fun t ht => hok.inum t (mem_cons_of_mem ht)) (fun h => h) Relied.cons ?_
  · have := hok.refs
    rwa [owns_file] at this
  · intro _ h p _ _ _ hone
    rwa [owns_file] at hone

theorem of_unused (hok : EntryOk calm A files i d) (hzero : ¬ 0 < i.ref)
    (hnone : ∀ h p, .lock h p ∉ A) (d' : Dinode) : EntryOk calm A files i d' where
  refs := hok.refs
  inum := hok.inum
  busy := hok.busy
  once := hok.once
  phase := fun h p hmem => absurd hmem (hnone h p)
  idle := fun hpos => absurd hpos hzero
  dev := hok.dev
  live := hok.live
  sole := hok.sole

end EntryOk

/-! ## One file -/

namespace FileOk

variable {fl : File}

theorem exchange (hok : FileOk (a ::ₘ A) fl)
    (hip : ∀ g ip n, b.handle = some (.file g ip n) → fl.type = .inode ∧ fl.ip = ip)
    (hnew : ∀ g, b ≠ .new g) : FileOk (b ::ₘ A) fl := by
  constructor
  · have := hok.refs
    rwa [card_cons] at this ⊢
  · intro t ht g ip n hh
    rcases mem_cons.mp ht with rfl | ht
    · exact hip g ip n hh
    · exact hok.ip t (mem_cons_of_mem ht) g ip n hh
  · intro g hg
    rcases mem_cons.mp hg with heq | hg
    · exact absurd heq.symm (hnew g)
    · exact hok.new g (mem_cons_of_mem hg)
  · exact hok.unused

theorem only (href : fl.ref = 1) (ha : a.handle = none)
    (hnew : ∀ g, a = .new g → fl.type = .none) : FileOk (a ::ₘ 0) fl := by
  constructor
  · simp [href]
  · intro t ht g ip n hh
    rw [mem_singleton.mp ht, ha] at hh
    cases hh
  · exact fun g hg => ⟨href, hnew g (mem_singleton.mp hg).symm⟩
  · intro hzero
    rw [href] at hzero
    cases hzero

theorem alone (hok : FileOk (a ::ₘ A) fl) (href : fl.ref = 1) : A = 0 := by
  apply card_eq_zero.mp
  have := hok.refs
  rw [card_cons, href] at this
  omega

theorem swap (ha : a.handle = some h) (hb : b.handle = some h)
    (hok : FileOk ((a ::ₘ R).filter (·.of f)) fl) : FileOk ((b ::ₘ R).filter (·.of f)) fl := by
  by_cases hf : h.of f = true
  · rw [filter_cons_of_pos _ (by rwa [Token.of_eq ha])] at hok
    rw [filter_cons_of_pos _ (by rwa [Token.of_eq hb])]
    refine hok.exchange (fun g ip n hh => ?_) ?_
    · exact hok.ip a (mem_cons_self _ _) g ip n (by rw [ha, ← hb, hh])
    · rintro g rfl
      cases hb
  · rw [filter_cons_of_neg _ (by rwa [Token.of_eq ha])] at hok
    rwa [filter_cons_of_neg _ (by rwa [Token.of_eq hb])]

end FileOk

theorem Token.filter_of_own (ha : a.handle = some (.own ip n)) :
    (a ::ₘ R).filter (·.of f) = R.filter (·.of f) := by
  apply filter_cons_of_neg
  rw [Token.of_eq ha]
  exact Bool.false_ne_true

/-! ## The cache -/

namespace Inv

theorem setEntry (hi : Inv sb calm M s)
    (hothers : ∀ jp, jp ≠ ip → M'.filter (·.on jp) = M.filter (·.on jp))
    (hfiles : ∀ f, FileOk (M'.filter (·.of f)) (s.ftable f))
    (hinj : 0 < i.ref → ∀ jp, jp ≠ ip → 0 < (s.icache jp).ref → (s.icache jp).inum ≠ i.inum)
    (hentry : EntryOk calm (M'.filter (·.on ip)) (s.opens ip) i (s.dinode i.inum)) :
    Inv sb calm M' { s with icache := update s.icache ip i } where
  sb_eq := hi.sb_eq
  sound := hi.sound
  inj := by
    intro jp kp hj hk heq
    dsimp only at hj hk heq
    by_cases hjp : jp = ip
    · by_cases hkp : kp = ip
      · rw [hjp, hkp]
      · rw [hjp, update_self] at hj heq
        rw [update_of_ne hkp] at hk heq
        exact absurd heq.symm (hinj hj kp hkp hk)
    · rw [update_of_ne hjp] at hj heq
      by_cases hkp : kp = ip
      · rw [hkp, update_self] at hk heq
        exact absurd heq (hinj hk jp hjp hj)
      · rw [update_of_ne hkp] at hk heq
        exact hi.inj jp kp hj hk heq
  entry := by
    intro jp
    by_cases hjp : jp = ip
    · subst hjp
      simp only [update_self]
      exact hentry
    · simp only [update_of_ne hjp]
      rw [hothers jp hjp]
      exact hi.entry jp
  file := hfiles

theorem setOwn (hi : Inv sb calm M s)
    (hon : ∀ jp, jp ≠ ip → M'.filter (·.on jp) = M.filter (·.on jp))
    (hof : ∀ f, M'.filter (·.of f) = M.filter (·.of f)) (hpos : 0 < (s.icache ip).ref)
    (hinum : i.inum = (s.icache ip).inum)
    (hentry : EntryOk calm (M'.filter (·.on ip)) (s.opens ip) i (s.dinode i.inum)) :
    Inv sb calm M' { s with icache := update s.icache ip i } := by
  refine hi.setEntry hon (fun f => ?_) ?_ hentry
  · rw [hof f]
    exact hi.file f
  · intro _ jp hj hjpos heq
    exact hj (hi.inj jp ip hjpos hpos (heq.trans hinum))

theorem swap (hi : Inv sb calm (a ::ₘ R) s) (ha : a.handle = some h) (hb : b.handle = some h)
    (hinum : i.inum = (s.icache h.ip).inum)
    (hentry : EntryOk calm (b ::ₘ R.filter (·.on h.ip)) (s.opens h.ip) i (s.dinode i.inum)) :
    Inv sb calm (b ::ₘ R) { s with icache := update s.icache h.ip i } := by
  apply hi.setEntry
  · intro jp hj
    rw [Token.filter_on_ne ha hj, Token.filter_on_ne hb hj]
  · exact fun f => (hi.file f).swap ha hb
  · intro _ jp hj hpos heq
    exact hj (hi.inj jp h.ip hpos (hi.ref_pos (mem_cons_self _ _) ha) (heq.trans hinum))
  · rwa [Token.filter_on_self _ hb rfl]

theorem entry_self (hi : Inv sb calm (a ::ₘ R) s) (ha : a.handle = some h) :
    EntryOk calm (a ::ₘ R.filter (·.on h.ip)) (s.opens h.ip) (s.icache h.ip)
      (s.dinode (s.icache h.ip).inum) := by
  rw [← Token.filter_on_self _ ha rfl]
  exact hi.entry h.ip

end Inv

/-- An inode that the cache has a copy of, for somebody, has links: nobody takes a reference
to an inode that is being freed. -/
def FindsLinked (s : Fs) (n : Nat) : Prop :=
  ∀ ip, 0 < (s.icache ip).ref → (s.icache ip).inum = n → (s.icache ip).valid = true →
    (s.icache ip).d.type ≠ .free → (s.dinode n).nlink ≠ 0

instance (s : Fs) (n : Nat) : Decidable (s.FindsLinked n) :=
  inferInstanceAs (Decidable (∀ _, _))

namespace Inv

theorem got (hi : Inv sb calm M s) (hg : Got ROOTDEV n s ip t)
    (hcalm : calm → s.FindsLinked n) : Inv sb calm (.got ip n ::ₘ M) t := by
  rw [hg.rest]
  apply hi.setEntry
  · exact fun jp hj => Token.filter_on_ne rfl hj
  · intro f
    rw [Token.filter_of_own rfl]
    exact hi.file f
  · intro _ jp hj hpos heq
    rw [hg.inum_eq] at heq
    by_cases hp : 0 < (s.icache ip).ref
    · have hold : (s.icache ip).inum = n := by
        rw [← hg.inum_eq, hg.old hp]
      exact hj (hi.inj jp ip hpos hp (heq.trans hold.symm))
    · exact (hg.new hp).2.2.2.2 jp hpos ⟨(hi.entry jp).dev hpos, heq⟩
  · rw [Token.filter_on_self ip (h := .own ip n) rfl rfl]
    by_cases hp : 0 < (s.icache ip).ref
    · have hold : (s.icache ip).inum = n := by
        rw [← hg.inum_eq, hg.old hp]
      rw [hg.old hp, ← hold]
      refine (hi.entry ip).take hp ?_
      -- an inode that is being freed has no links
      intro hc h p hmem
      have hok := (hi.entry ip).phase h p hmem
      cases p with
      | dying =>
        obtain ⟨hvalid, hd, htype, hlinks⟩ := hok
        exact absurd (hold ▸ hd ▸ hlinks) (hcalm hc ip hp hold hvalid htype)
      | empty =>
        obtain ⟨hvalid, hd, htype, hlinks, -⟩ := hok
        exact absurd (hold ▸ hd ▸ hlinks) (hcalm hc ip hp hold hvalid htype)
      | _ => rfl
    · obtain ⟨hzero, href, hbusy, hvalid, -⟩ := hg.new hp
      have hnone : M.filter (·.on ip) = 0 := by
        apply Multiset.eq_zero_of_forall_notMem
        intro tok hmem
        obtain ⟨htok, hon⟩ := mem_filter.mp hmem
        obtain ⟨h, hh, rfl⟩ := Token.on_iff.mp hon
        exact hp (hi.ref_pos htok hh)
      have hfresh : EntryOk calm (.got ip (t.icache ip).inum ::ₘ M.filter (·.on ip)) (s.opens ip)
          (t.icache ip) (s.dinode (t.icache ip).inum) :=
        (hi.entry ip).fresh hzero href hg.dev_eq hbusy hvalid hnone
      rwa [hg.inum_eq] at hfresh ⊢

theorem dup (hi : Inv sb calm M s) (hmem : .ref (.own ip n) ∈ M) :
    Inv sb calm (.ref (.own ip n) ::ₘ M)
      { s with
        icache := update s.icache ip
          { s.icache ip with ref := (s.icache ip).ref + 1 } } := by
  have hpos : 0 < (s.icache ip).ref := hi.ref_pos hmem rfl
  have hinum : (s.icache ip).inum = n := hi.inum hmem (h := .own ip n) rfl
  refine hi.setOwn (fun jp hj => Token.filter_on_ne rfl hj) (fun f => Token.filter_of_own rfl) hpos
    rfl ?_
  rw [Token.filter_on_self ip (h := .own ip n) rfl rfl, ← hinum]
  refine (hi.entry ip).dup hpos (Or.inr ⟨ip, n, mem_filter.mpr ⟨hmem, ?_⟩⟩)
  exact decide_eq_true rfl

theorem lock (hi : Inv sb calm (a ::ₘ R) s) (hr : a.isRef = true) (ha : a.handle = some h)
    (hbusy : (s.icache h.ip).busy = false)
    (htype : (s.icache h.ip).valid ≠ true → (s.dinode (s.icache h.ip).inum).type ≠ .free) :
    Inv sb calm (.lock h .clean ::ₘ R) (s.locked h.ip) := by
  have hok := hi.entry_self ha
  refine hi.swap ha rfl rfl (hok.lock hr ha hbusy rfl rfl rfl rfl ⟨rfl, ?_⟩ nofun)
  dsimp only
  split
  · next hvalid => exact hok.idle (hi.ref_pos (mem_cons_self _ _) ha) hvalid hbusy
  · next hvalid => exact ⟨rfl, htype hvalid⟩

theorem unlock (hi : Inv sb calm (.lock h .clean ::ₘ R) s) :
    Inv sb calm (.ref h ::ₘ R)
      { s with
        icache := update s.icache h.ip { s.icache h.ip with busy := false } } :=
  hi.swap rfl rfl rfl (hi.entry_self (h := h) rfl).unlock

theorem put (hi : Inv sb calm (a ::ₘ R) s) (hr : a.isRef = true)
    (ha : a.handle = some (.own ip n)) :
    Inv sb calm R
      { s with
        icache := update s.icache ip
          { s.icache ip with ref := (s.icache ip).ref - 1 } } := by
  refine hi.setOwn (fun jp hj => (Token.filter_on_ne ha hj).symm)
    (fun f => (Token.filter_of_own ha).symm) (hi.ref_pos (mem_cons_self _ _) ha) rfl ?_
  exact (hi.entry_self ha).drop hr ha

theorem last (hi : Inv sb calm (a ::ₘ R) s) (ha : a.handle = some (.own ip n))
    (href : (s.icache ip).ref = 1) :
    owns (a ::ₘ R.filter (·.on ip)) = 1 ∧ s.opens ip = 0 := by
  have hrefs : (owns (a ::ₘ R.filter (·.on ip)) : Int) + s.opens ip = (s.icache ip).ref :=
    (hi.entry_self ha).refs
  rw [owns_own ha, href] at hrefs
  push_cast at hrefs
  rw [owns_own ha]
  omega

theorem putLock (hi : Inv sb calm (a ::ₘ R) s) (hr : a.isRef = true)
    (ha : a.handle = some (.own ip n)) (hbusy : (s.icache ip).busy = false)
    (href : (s.icache ip).ref = 1) (hvalid : (s.icache ip).valid = true)
    (hlinks : (s.icache ip).d.nlink = 0) :
    Inv sb calm (.lock (.own ip n) .dying ::ₘ R)
      { s with
        icache := update s.icache ip { s.icache ip with busy := true } } := by
  have hok := hi.entry_self ha
  obtain ⟨hd, htype⟩ := hok.idle (hi.ref_pos (mem_cons_self _ _) ha) hvalid hbusy
  obtain ⟨hone, hzero⟩ := hi.last ha href
  exact hi.swap (h := .own ip n) ha rfl rfl
    (hok.lock hr ha hbusy rfl rfl rfl rfl ⟨hvalid, hd, htype, hlinks⟩ fun _ => ⟨rfl, hone, hzero⟩)

theorem putDone (hi : Inv sb calm (.lock (.own ip n) p ::ₘ R) s) (hp : p.dies = true) :
    Inv sb calm R
      { s with
        icache := update s.icache ip
          { s.icache ip with busy := false, valid := false, ref := (s.icache ip).ref - 1 } } := by
  refine hi.setOwn (fun jp hj => (Token.filter_on_ne rfl hj).symm)
    (fun f => (Token.filter_of_own rfl).symm) (hi.ref_pos (mem_cons_self _ _) rfl) rfl ?_
  exact (hi.entry_self (h := .own ip n) rfl).finish hp

theorem locked (hi : Inv sb calm (.lock h p ::ₘ R) s) (hsb : t.sb = s.sb)
    (hft : t.ftable = s.ftable)
    (hic : t.icache = update s.icache h.ip { s.icache h.ip with d := d })
    (hdisk : ∀ m, m ≠ (s.icache h.ip).inum → t.dinode m = s.dinode m) (hsound : t.Sound)
    (hq : q.Ok { s.icache h.ip with d := d } (t.dinode (s.icache h.ip).inum))
    (hdie : q.dies = true → p.dies = true) (hfree : q.frees = true → p.frees = true) :
    Inv sb calm (.lock h q ::ₘ R) t where
  sb_eq := hsb.trans hi.sb_eq
  sound := hsound
  inj := by
    have hsame : ∀ jp, (t.icache jp).ref = (s.icache jp).ref ∧
        (t.icache jp).inum = (s.icache jp).inum := by
      intro jp
      rw [hic]
      by_cases hj : jp = h.ip
      · rw [hj, update_self]
        exact ⟨rfl, rfl⟩
      · rw [update_of_ne hj]
        exact ⟨rfl, rfl⟩
    intro jp kp hj hk heq
    rw [(hsame jp).1] at hj
    rw [(hsame kp).1] at hk
    rw [(hsame jp).2, (hsame kp).2] at heq
    exact hi.inj jp kp hj hk heq
  entry := by
    have hopens : t.opens = s.opens := by
      funext jp
      unfold opens
      rw [hft]
    intro jp
    rw [hopens, hic]
    by_cases hj : jp = h.ip
    · subst hj
      rw [update_self, Token.filter_on_self _ rfl rfl]
      exact (hi.entry_self (h := h) rfl).change rfl rfl rfl rfl hq hdie hfree
    · rw [update_of_ne hj, Token.filter_on_ne rfl hj]
      have hok := hi.entry jp
      rw [Token.filter_on_ne rfl hj] at hok
      by_cases hpos : 0 < (s.icache jp).ref
      · rw [hdisk]
        · exact hok
        · intro heq
          exact hj (hi.inj jp h.ip hpos (hi.ref_pos (mem_cons_self _ _) rfl) heq)
      · apply hok.of_unused hpos
        intro h' p' hmem
        obtain ⟨hR, hon⟩ := mem_filter.mp hmem
        have hip : h'.ip = jp := of_decide_eq_true hon
        exact hpos (hip ▸ hi.ref_pos (mem_cons_of_mem hR) rfl)
  file := by
    intro f
    rw [hft]
    exact (hi.file f).swap rfl rfl

end Inv

/-! ## The disk -/

theorem patch_keeps {x : Patch} (hx : x ≠ .free) (d : Dinode) :
    (x.apply d).type = d.type ∧ (x.apply d).addrs = d.addrs ∧ (x.apply d).size = d.size := by
  cases x with
  | free => exact absurd rfl hx
  | _ => exact ⟨rfl, rfl, rfl⟩

namespace Inv

theorem patch (hi : Inv sb calm (.lock h .clean ::ₘ R) s) {x : Patch} (hx : x ≠ .free) :
    Inv sb calm (.lock h .dirty ::ₘ R)
      { s with
        icache := update s.icache h.ip
          { s.icache h.ip with d := x.apply (s.icache h.ip).d } } := by
  obtain ⟨hvalid, hd, htype⟩ := hi.phase (mem_cons_self _ _)
  obtain ⟨ht, ha, hs⟩ := patch_keeps hx (s.icache h.ip).d
  refine hi.locked rfl rfl rfl (fun _ _ => rfl) hi.sound ?_ nofun nofun
  refine ⟨hvalid, ?_, ?_, ?_, ?_⟩
  · rwa [ht]
  · rw [ht, ← hd]
  · rw [ha, ← hd]
  · rw [hs, ← hd]

theorem patchFree (hi : Inv sb calm (.lock h .empty ::ₘ R) s) :
    Inv sb calm (.lock h .freeing ::ₘ R)
      { s with
        icache := update s.icache h.ip
          { s.icache h.ip with d := Patch.apply (s.icache h.ip).d .free } } := by
  obtain ⟨hvalid, hd, htype, -, haddrs, hsize⟩ := hi.phase (mem_cons_self _ _)
  refine hi.locked rfl rfl rfl (fun _ _ => rfl) hi.sound ?_ (fun _ => rfl) nofun
  rw [hd]
  exact ⟨hvalid, rfl, htype, haddrs, hsize⟩

protected theorem update (hi : Inv sb calm (.lock h .dirty ::ₘ R) s) :
    Inv sb calm (.lock h .clean ::ₘ R)
      { s with toDisk := s.setDinode (s.icache h.ip).inum (s.icache h.ip).d } := by
  obtain ⟨hvalid, htype, ht, ha, hs⟩ := hi.phase (mem_cons_self _ _)
  refine hi.locked rfl rfl (update_eq_self ..).symm (fun m hm => Disk.dinode_setDinode_of_ne hm)
    (hi.sound.setDinode_same ht.symm ha.symm hs.symm) ?_ nofun nofun
  exact ⟨hvalid, Disk.dinode_setDinode_self, htype⟩

theorem updateFree (hi : Inv sb calm (.lock h .freeing ::ₘ R) s) :
    Inv sb calm (.lock h .gone ::ₘ R)
      { s with toDisk := s.setDinode (s.icache h.ip).inum (s.icache h.ip).d } := by
  obtain ⟨hvalid, hd, htype, haddrs, hsize⟩ := hi.phase (mem_cons_self _ _)
  refine hi.locked rfl rfl (update_eq_self ..).symm (fun m hm => Disk.dinode_setDinode_of_ne hm)
    (hi.sound.setDinode_bare (Or.inr haddrs) (Or.inl ?_)) trivial (fun _ => rfl) nofun
  rw [hd]

theorem trunc (hi : Inv sb calm (.lock h .dying ::ₘ R) s) (ht : FsM.Truncated h.ip s t) :
    Inv sb calm (.lock h .empty ::ₘ R) t := by
  obtain ⟨hvalid, -, htype, hlinks⟩ := hi.phase (mem_cons_self _ _)
  refine hi.locked ?_ ?_ ht.icache ?_ ht.sound ?_ (fun _ => rfl) fun _ => rfl
  · rw [ht.rest]
  · rw [ht.rest]
  · intro m hm
    rw [ht.dinode, update_of_ne hm]
  · rw [ht.dinode, update_self, ht.icache, update_self]
    exact ⟨hvalid, rfl, htype, hlinks, rfl, rfl⟩

theorem write {src : Nat → Byte} {off m : Nat} (hi : Inv sb calm (.lock h .clean ::ₘ R) s)
    (ht : FsM.Updated h.ip src off m s t) : Inv sb calm (.lock h .clean ::ₘ R) t := by
  obtain ⟨hvalid, -, htype⟩ := hi.phase (mem_cons_self _ _)
  have hself := ht.self
  refine hi.locked ?_ ?_ ht.icache ?_ ht.sound ?_ nofun nofun
  · rw [ht.rest]
  · rw [ht.rest]
  · intro m hm
    rw [ht.dinode, update_of_ne hm]
  · rw [ht.dinode, update_self, ← hself]
    refine ⟨?_, rfl, ?_⟩
    · rwa [hself]
    · rwa [hself]

theorem alloc {type : FileType} (hi : Inv sb calm M s) (hfree : (s.dinode n).type = .free) :
    Inv sb calm M { s with toDisk := s.setDinode n (FsM.newDinode type) } where
  sb_eq := hi.sb_eq
  sound := hi.sound.setDinode_bare (Or.inl hfree) (Or.inr ⟨rfl, rfl⟩)
  inj := hi.inj
  entry := by
    intro ip
    have hok := hi.entry ip
    by_cases hn : (s.icache ip).inum = n
    · apply hok.realloc
      rwa [hn]
    · rwa [Disk.dinode_setDinode_of_ne hn]
  file := hi.file

end Inv

theorem Inv.cons_iff (ha : a.handle = none) (hf : ∀ f, a.of f = false) :
    Inv sb calm (a ::ₘ M) s ↔ Inv sb calm M s := by
  have hon : ∀ ip, (a ::ₘ M).filter (·.on ip) = M.filter (·.on ip) :=
    fun ip => Token.filter_on_none ha
  have hof : ∀ f, (a ::ₘ M).filter (·.of f) = M.filter (·.of f) := by
    intro f
    apply filter_cons_of_neg
    rw [hf f]
    exact Bool.false_ne_true
  constructor
  · rintro ⟨hsb, hsound, hinj, hentry, hfile⟩
    simp only [hon, hof] at hentry hfile
    exact ⟨hsb, hsound, hinj, hentry, hfile⟩
  · rintro ⟨hsb, hsound, hinj, hentry, hfile⟩
    simp only [← hon, ← hof] at hentry hfile
    exact ⟨hsb, hsound, hinj, hentry, hfile⟩

/-! ## The file table -/

theorem card_update (P : File → Prop) [DecidablePred P] (ftable : FilePtr → File) (f : FilePtr)
    (fl : File) :
    (Finset.univ.filter fun g => P (update ftable f fl g)).card +
      (if P (ftable f) then 1 else 0) =
    (Finset.univ.filter fun g => P (ftable g)).card + if P fl then 1 else 0 := by
  have hsum : ∀ u : FilePtr → File, (Finset.univ.filter fun g => P (u g)).card =
      (if P (u f) then 1 else 0) + ∑ g ∈ Finset.univ.erase f, if P (u g) then 1 else 0 := by
    intro u
    rw [Finset.card_filter, ← Finset.add_sum_erase _ _ (Finset.mem_univ f)]
  have hrest : ∑ g ∈ Finset.univ.erase f, (if P (update ftable f fl g) then 1 else 0) =
      ∑ g ∈ Finset.univ.erase f, if P (ftable g) then 1 else 0 := by
    apply Finset.sum_congr rfl
    intro g hg
    rw [update_of_ne (Finset.ne_of_mem_erase hg)]
  rw [hsum (update ftable f fl), hsum ftable, hrest, update_self]
  omega

theorem opens_update (s : Fs) (f : FilePtr) (fl : File) (ip : InodePtr) :
    ({ s with ftable := update s.ftable f fl } : Fs).opens ip +
      (if (s.ftable f).Opens ip then 1 else 0) =
    s.opens ip + if fl.Opens ip then 1 else 0 :=
  card_update (fun g => g.Opens ip) s.ftable f fl

namespace Inv

variable {fl : File}

theorem setFile (hi : Inv sb calm M s)
    (hothers : ∀ g, g ≠ f → M'.filter (·.of g) = M.filter (·.of g))
    (hfile : FileOk (M'.filter (·.of f)) fl)
    (hentry : ∀ ip, EntryOk calm (M'.filter (·.on ip))
      (({ s with ftable := update s.ftable f fl } : Fs).opens ip) (s.icache ip)
      (s.dinode (s.icache ip).inum)) :
    Inv sb calm M' { s with ftable := update s.ftable f fl } where
  sb_eq := hi.sb_eq
  sound := hi.sound
  inj := hi.inj
  entry := hentry
  file := by
    intro g
    by_cases hg : g = f
    · subst hg
      simp only [update_self]
      exact hfile
    · simp only [update_of_ne hg]
      rw [hothers g hg]
      exact hi.file g

theorem setFile_same (hi : Inv sb calm M s)
    (hothers : ∀ g, g ≠ f → M'.filter (·.of g) = M.filter (·.of g))
    (hon : ∀ ip, M'.filter (·.on ip) = M.filter (·.on ip))
    (hfile : FileOk (M'.filter (·.of f)) fl)
    (hopen : ∀ ip, fl.Opens ip ↔ (s.ftable f).Opens ip) :
    Inv sb calm M' { s with ftable := update s.ftable f fl } := by
  apply hi.setFile hothers hfile
  intro ip
  have hcount := opens_update s f fl ip
  simp only [hopen] at hcount
  rw [hon, Nat.add_right_cancel hcount]
  exact hi.entry ip

end Inv

theorem Token.filter_of_self (ha : a.of f = true) :
    (a ::ₘ R).filter (·.of f) = a ::ₘ R.filter (·.of f) :=
  filter_cons_of_pos _ ha

theorem Token.of_fref : (Token.fref f).of f = true := decide_eq_true rfl

theorem Token.of_new : (Token.new f).of f = true := decide_eq_true rfl

theorem Token.of_file : (Token.ref (.file f ip n)).of f = true := decide_eq_true rfl

theorem Token.filter_of_ne {g : FilePtr} (ha : a.of f = true) (hg : g ≠ f)
    (hnone : a.handle = none) :
    (a ::ₘ R).filter (·.of g) = R.filter (·.of g) := by
  apply filter_cons_of_neg
  cases a with
  | fref f' | new f' =>
    have : f' = f := of_decide_eq_true ha
    exact fun hh => hg ((of_decide_eq_true hh).symm.trans this)
  | born _ | pend _ _ => exact Bool.false_ne_true
  | _ => cases hnone

namespace Inv

variable {fl : File}

theorem filealloc (hi : Inv sb calm M s) (hzero : (s.ftable f).ref = 0) :
    Inv sb calm (.new f ::ₘ M)
      { s with ftable := update s.ftable f { s.ftable f with ref := 1 } } := by
  have hok := hi.file f
  have htype := hok.unused hzero
  have hnone : M.filter (·.of f) = 0 := by
    apply card_eq_zero.mp
    have := hok.refs
    omega
  apply hi.setFile_same
  · exact fun g hg => Token.filter_of_ne Token.of_new hg rfl
  · exact fun ip => Token.filter_on_none rfl
  · rw [Token.filter_of_self Token.of_new, hnone]
    exact FileOk.only rfl rfl fun _ _ => htype
  · intro ip
    unfold File.Opens
    simp [htype]

theorem filedup (hi : Inv sb calm (.fref f ::ₘ R) s) :
    Inv sb calm (.fref f ::ₘ .fref f ::ₘ R)
      { s with
        ftable := update s.ftable f
          { s.ftable f with ref := (s.ftable f).ref + 1 } } := by
  have hok := hi.file f
  have hpos := hi.fref_pos (mem_cons_self _ _) Token.of_fref
  apply hi.setFile_same
  · intro g hg
    exact Token.filter_of_ne Token.of_fref hg rfl
  · exact fun ip => Token.filter_on_none rfl
  · rw [Token.filter_of_self Token.of_fref]
    constructor
    · have := hok.refs
      rw [card_cons]
      push_cast
      omega
    · intro t ht g ip n hh
      rcases mem_cons.mp ht with rfl | ht
      · cases hh
      · exact hok.ip t ht g ip n hh
    · intro g hg
      rcases mem_cons.mp hg with heq | hg
      · cases heq
      · have href := (hok.new g hg).1
        have hrefs := hok.refs
        rw [Token.filter_of_self Token.of_fref] at hg hrefs
        rcases mem_cons.mp hg with heq | hg
        · cases heq
        · have := Multiset.card_pos_iff_exists_mem.mpr ⟨_, hg⟩
          rw [card_cons] at hrefs
          push_cast at hrefs
          omega
    · intro hz
      dsimp only at hz
      omega
  · intro ip
    unfold File.Opens
    dsimp only
    constructor
    · exact fun h => ⟨hpos, h.2⟩
    · exact fun h => ⟨by omega, h.2⟩

theorem useFile (hi : Inv sb calm (.fref f ::ₘ R) s) (htype : (s.ftable f).type = .inode) :
    Inv sb calm (.ref (.file f (s.ftable f).ip (s.icache (s.ftable f).ip).inum) ::ₘ R) s where
  sb_eq := hi.sb_eq
  sound := hi.sound
  inj := hi.inj
  entry := by
    intro jp
    have hentry := hi.entry jp
    rw [Token.filter_on_none rfl] at hentry
    by_cases hj : jp = (s.ftable f).ip
    · subst hj
      rw [Token.filter_on_self (s.ftable f).ip (h := .file f (s.ftable f).ip _) rfl rfl]
      exact hentry.see f _
    · rwa [Token.filter_on_ne (h := .file f (s.ftable f).ip _) rfl hj]
  file := by
    intro g
    have hok := hi.file g
    by_cases hg : g = f
    · subst hg
      rw [Token.filter_of_self Token.of_fref] at hok
      rw [Token.filter_of_self Token.of_file]
      refine hok.exchange (fun g' ip n hh => ?_) nofun
      cases hh
      exact ⟨htype, rfl⟩
    · rw [Token.filter_of_ne Token.of_fref hg rfl] at hok
      rwa [filter_cons_of_neg _ fun hh => hg (of_decide_eq_true hh).symm]

theorem leaveFile (hi : Inv sb calm (.ref (.file f ip n) ::ₘ R) s) :
    Inv sb calm (.fref f ::ₘ R) s where
  sb_eq := hi.sb_eq
  sound := hi.sound
  inj := hi.inj
  entry := by
    intro jp
    have hentry := hi.entry jp
    rw [Token.filter_on_none rfl]
    by_cases hj : jp = ip
    · subst hj
      rw [Token.filter_on_self jp (h := .file f jp n) rfl rfl] at hentry
      exact hentry.unsee
    · rwa [Token.filter_on_ne (h := .file f ip n) rfl hj] at hentry
  file := by
    intro g
    have hok := hi.file g
    by_cases hg : g = f
    · subst hg
      rw [Token.filter_of_self Token.of_file] at hok
      rw [Token.filter_of_self Token.of_fref]
      exact hok.exchange nofun nofun
    · rw [filter_cons_of_neg _ fun hh => hg (of_decide_eq_true hh).symm] at hok
      rwa [Token.filter_of_ne Token.of_fref hg rfl]

theorem advance (hi : Inv sb calm M s) (off : Word) :
    Inv sb calm M
      { s with ftable := update s.ftable f { s.ftable f with off := off } } := by
  have hok := hi.file f
  exact hi.setFile_same (fun _ _ => rfl) (fun _ => rfl) ⟨hok.refs, hok.ip, hok.new, hok.unused⟩
    fun _ => Iff.rfl

theorem setOpen (hi : Inv sb calm (.new f ::ₘ .ref (.own ip n) ::ₘ R) s)
    (hkeep : fl.ref = (s.ftable f).ref) (hinode : fl.type = .inode) (hip : fl.ip = ip) :
    Inv sb calm (.fref f ::ₘ R) { s with ftable := update s.ftable f fl } := by
  have hok := hi.file f
  rw [Token.filter_of_self Token.of_new, Token.filter_of_own rfl] at hok
  obtain ⟨href, htype⟩ := hok.new f (mem_cons_self _ _)
  have hnone := hok.alone href
  rw [← hkeep] at href
  apply hi.setFile
  · intro g hg
    rw [Token.filter_of_ne Token.of_fref hg rfl, Token.filter_of_ne Token.of_new hg rfl,
      Token.filter_of_own rfl]
  · rw [Token.filter_of_self Token.of_fref, hnone]
    exact FileOk.only href rfl nofun
  · intro jp
    have hcount := opens_update s f fl jp
    have hold : ¬ (s.ftable f).Opens jp := by
      intro h
      have := h.2.1
      rw [htype] at this
      cases this
    rw [if_neg hold, Nat.add_zero] at hcount
    rw [hcount, Token.filter_on_none rfl]
    have hentry := hi.entry jp
    rw [Token.filter_on_none rfl] at hentry
    by_cases hj : jp = ip
    · subst hj
      rw [Token.filter_on_self jp (h := .own jp n) rfl rfl] at hentry
      rw [if_pos ⟨by omega, hinode, hip⟩]
      exact hentry.toFile
    · rw [if_neg fun h => hj (h.2.2.symm.trans hip), Nat.add_zero]
      rwa [Token.filter_on_ne (h := .own ip n) rfl hj] at hentry

theorem setPipe (hi : Inv sb calm (.new f ::ₘ R) s) (hkeep : fl.ref = (s.ftable f).ref)
    (hpipe : fl.type = .pipe) :
    Inv sb calm (.fref f ::ₘ R) { s with ftable := update s.ftable f fl } := by
  have hok := hi.file f
  rw [Token.filter_of_self Token.of_new] at hok
  obtain ⟨href, htype⟩ := hok.new f (mem_cons_self _ _)
  have hnone := hok.alone href
  apply hi.setFile_same
  · intro g hg
    rw [Token.filter_of_ne Token.of_fref hg rfl, Token.filter_of_ne Token.of_new hg rfl]
  · intro ip
    rw [Token.filter_on_none rfl, Token.filter_on_none rfl]
  · rw [Token.filter_of_self Token.of_fref, hnone]
    exact FileOk.only (hkeep.trans href) rfl nofun
  · intro ip
    unfold File.Opens
    simp [htype, hpipe]

theorem fileput (hi : Inv sb calm (.fref f ::ₘ R) s) (href : 0 < (s.ftable f).ref - 1) :
    Inv sb calm R
      { s with
        ftable := update s.ftable f
          { s.ftable f with ref := (s.ftable f).ref - 1 } } := by
  have hok := hi.file f
  rw [Token.filter_of_self Token.of_fref] at hok
  apply hi.setFile_same
  · exact fun g hg => (Token.filter_of_ne Token.of_fref hg rfl).symm
  · exact fun ip => (Token.filter_on_none rfl).symm
  · constructor
    · have := hok.refs
      rw [card_cons] at this
      dsimp only
      push_cast at this
      omega
    · exact fun t ht => hok.ip t (mem_cons_of_mem ht)
    · intro g hg
      have := (hok.new g (mem_cons_of_mem hg)).1
      omega
    · intro h
      dsimp only at h
      omega
  · intro ip
    constructor
    · exact fun h => ⟨by omega, h.2⟩
    · exact fun h => ⟨by omega, h.2⟩

theorem fileLast (hi : Inv sb calm (a ::ₘ R) s) (hf : a.of f = true)
    (href : (s.ftable f).ref = 1) :
    FileOk (R.filter (·.of f)) { s.ftable f with ref := 0, type := .none } := by
  have hok := hi.file f
  rw [Token.filter_of_self hf] at hok
  have hnone := hok.alone href
  rw [hnone]
  constructor
  · simp
  · intro t ht
    cases notMem_zero _ ht
  · intro g hg
    cases notMem_zero _ hg
  · exact fun _ => rfl

theorem fileEnd (hi : Inv sb calm (a ::ₘ R) s) (ha : a.handle = none) (hf : a.of f = true)
    (href : (s.ftable f).ref = 1) (htype : (s.ftable f).type ≠ .inode) :
    Inv sb calm R
      { s with
        ftable := update s.ftable f { s.ftable f with ref := 0, type := .none } } := by
  apply hi.setFile_same
  · exact fun g hg => (Token.filter_of_ne hf hg ha).symm
  · exact fun ip => (Token.filter_on_none ha).symm
  · exact hi.fileLast hf href
  · intro ip
    constructor
    · exact fun h => absurd h.2.1 nofun
    · exact fun h => absurd h.2.1 htype

theorem fileClosed (hi : Inv sb calm (.fref f ::ₘ R) s) (href : (s.ftable f).ref = 1)
    (htype : (s.ftable f).type = .inode) :
    Inv sb calm (.ref (.own (s.ftable f).ip (s.icache (s.ftable f).ip).inum) ::ₘ R)
      { s with
        ftable := update s.ftable f { s.ftable f with ref := 0, type := .none } } := by
  apply hi.setFile
  · intro g hg
    rw [Token.filter_of_own rfl, Token.filter_of_ne Token.of_fref hg rfl]
  · rw [Token.filter_of_own rfl]
    exact hi.fileLast Token.of_fref href
  · intro jp
    have hcount := opens_update s f { s.ftable f with ref := 0, type := .none } jp
    have hnew : ¬ ({ s.ftable f with ref := 0, type := .none } : File).Opens jp :=
      fun h => absurd h.2.1 nofun
    rw [if_neg hnew, Nat.add_zero] at hcount
    have hentry := hi.entry jp
    rw [Token.filter_on_none rfl] at hentry
    by_cases hj : jp = (s.ftable f).ip
    · subst hj
      have hold : (s.ftable f).Opens (s.ftable f).ip := ⟨by omega, htype, rfl⟩
      rw [if_pos hold] at hcount
      rw [← hcount] at hentry
      rw [Token.filter_on_self (s.ftable f).ip (h := .own (s.ftable f).ip _) rfl rfl]
      exact hentry.ofFile
    · have hold : ¬ (s.ftable f).Opens jp := fun h => hj h.2.2.symm
      rw [if_neg hold, Nat.add_zero] at hcount
      rwa [hcount, Token.filter_on_ne (h := .own (s.ftable f).ip _) rfl hj]

end Inv

end Fs

end Xv6
