import Xv6.Fs.Balanced

/-!
# Files without names

An inode without links lives on as long as somebody refers to it. `iput` decides to free it
with the cache locked, and frees it later: in between nobody has a reference to it, unless
a process finds it by an entry of a directory that was removed as well.
-/

open Multiset (mem_add mem_cons_self mem_filter)

namespace Xv6

open Effect

/-! ## Calls that leave the disk alone -/

def Fs.places (s : Fs) : Disk × (InodePtr → Nat) := (s.toDisk, fun ip => (s.icache ip).inum)

namespace FsM

open Fs

theorem setInode_leaves {ip : InodePtr} {f : Inode → Inode} (hf : ∀ i, (f i).inum = i.inum) :
    Leaves (setInode ip f) Fs.places := by
  refine leaves_modify fun s => ?_
  unfold Fs.places
  dsimp only
  congr 1
  funext jp
  by_cases hj : jp = ip
  · subst hj
    rw [Function.update_self, hf]
  · rw [Function.update_of_ne hj]

theorem ilock_leaves {ip : InodePtr} : Leaves (ilock ip) Fs.places := by
  refine leaves_bind leaves_get fun s => ?_
  dsimp only
  split
  · exact leaves_fail
  · split
    · exact setInode_leaves fun _ => rfl
    · refine leaves_bind (setInode_leaves fun _ => rfl) fun _ => ?_
      split
      · exact leaves_fail
      · exact leaves_pure

theorem iunlock_leaves {ip : InodePtr} : Leaves (iunlock ip) Fs.places := by
  refine leaves_bind (leaves_bind leaves_get fun _ => leaves_pure) fun i => ?_
  split
  · exact leaves_fail
  · exact setInode_leaves fun _ => rfl

theorem iputTest_leaves {ip : InodePtr} : Leaves (iputTest ip) Fs.places := by
  have hset : ∀ {f : Inode → Inode} {e : Event} {b : Bool}, (∀ i, (f i).inum = i.inum) →
      Leaves (do setInode ip f; Effect.emit e; Pure.pure b) Fs.places :=
    fun hf => leaves_bind (setInode_leaves hf) fun _ => leaves_bind leaves_emit fun _ =>
      leaves_pure
  refine leaves_bind (leaves_bind leaves_get fun _ => leaves_pure) fun i => ?_
  split
  · split
    · exact leaves_fail
    · exact hset fun _ => rfl
  · exact hset fun _ => rfl

theorem filealloc_leaves : Leaves filealloc Fs.places := by
  refine leaves_bind leaves_get fun s => ?_
  split
  · exact leaves_bind (leaves_modify fun _ => rfl) fun _ => leaves_pure
  · exact leaves_pure

theorem filedup_leaves {f : FilePtr} : Leaves (filedup f) Fs.places := by
  refine leaves_bind leaves_get fun s => ?_
  split
  · exact leaves_fail
  · exact leaves_modify fun _ => rfl

theorem filedrop_leaves {f : FilePtr} : Leaves (filedrop f) Fs.places := by
  refine leaves_bind leaves_get fun s => ?_
  dsimp only
  split
  · exact leaves_fail
  · split
    · exact leaves_bind (leaves_modify fun _ => rfl) fun _ => leaves_pure
    · exact leaves_bind (leaves_modify fun _ => rfl) fun _ => leaves_pure

theorem pipealloc_leaves : Leaves pipealloc Fs.places := by
  refine leaves_bind leaves_get fun s => ?_
  split
  · exact leaves_bind (leaves_modify fun _ => rfl) fun _ => leaves_pure
  · exact leaves_pure

end FsM

namespace Fs

def Call.deep : {β : Type} → Call β → Bool
  | _, .iget _ _ | _, .ialloc _ | _, .iupdate _ | _, .itrunc _ | _, .writei _ _ _ _ => true
  | _, .dirfind _ _ | _, .freeSlot _ | _, .isdirempty _ | _, .readi _ _ _ => true
  | _, _ => false

theorem Call.run_leaves {β : Type} {c : Call β} (h : c.deep = false) (me : Caller) :
    Leaves (c.run me) Fs.places := by
  have hthen : ∀ {α : Type} {m : FsM α}, Leaves m Fs.places →
      Leaves (m >>= fun a => Pure.pure (a, me)) Fs.places :=
    fun hm => leaves_bind hm fun _ => leaves_pure
  cases c with
  | beginOp | endOp | proc | setCwd _ | setFd _ _ | npFd _ _ | npCwd _ | pipeclose _ _ =>
    exact leaves_pure
  | fault f => exact leaves_fail
  | idup ip =>
    exact hthen (leaves_bind (FsM.setInode_leaves fun _ => rfl) fun _ =>
      leaves_bind leaves_emit fun _ => leaves_pure)
  | ilock ip => exact hthen FsM.ilock_leaves
  | iunlock ip => exact hthen FsM.iunlock_leaves
  | iputTest ip => exact hthen FsM.iputTest_leaves
  | iputDone ip =>
    exact hthen (leaves_bind (FsM.setInode_leaves fun _ => rfl) fun _ => leaves_emit)
  | inode ip => exact hthen (leaves_bind leaves_get fun _ => leaves_pure)
  | stati ip =>
    exact hthen (leaves_bind (leaves_bind leaves_get fun _ => leaves_pure) fun _ => leaves_pure)
  | patch ip p => exact hthen (FsM.setInode_leaves fun _ => rfl)
  | console | pipe | memory | stack | newProc _ | file _ =>
    exact leaves_bind leaves_get fun _ => leaves_pure
  | filealloc => exact hthen FsM.filealloc_leaves
  | filedup f => exact hthen FsM.filedup_leaves
  | filedrop f => exact hthen FsM.filedrop_leaves
  | advance _ _ | setPipe _ _ _ | setFile _ _ _ _ => exact hthen (leaves_modify fun _ => rfl)
  | pipealloc => exact hthen FsM.pipealloc_leaves
  | _ => cases h

/-! ## What an open file holds -/

def Call.writes (ip : InodePtr) : {β : Type} → Call β → Bool
  | _, .writei jp _ _ _ => decide (jp = ip)
  | _, _ => false

def held (s : Fs) (ip : InodePtr) : List Byte := s.content (s.dinode (s.icache ip).inum)

structure SameFile (ip : InodePtr) (s s' : Fs) : Prop where
  inum : (s'.icache ip).inum = (s.icache ip).inum
  held : s'.held ip = s.held ip

section Content

variable {sb : Superblock} {base : Nat → Attr} {lost : Set Nat} {M others : Multiset Token}
  {s s' : Fs} {sh : Shared} {me me' : Caller} {ip : InodePtr} {h : Handle} {p : Phase} {n : Nat}
  {β : Type} {c : Call β} {b : β} {ev : List Event} {H : Holding} {Q : β → Holding → Prop}

theorem Inv.not_dies {calm : Prop} (hi : Inv sb calm M s) (ho : 0 < s.opens ip)
    (hl : .lock h p ∈ M) (hp : p.dies = true) : h.ip ≠ ip := by
  rintro rfl
  have hmem : .lock h p ∈ M.filter (·.on h.ip) :=
    mem_filter.mpr ⟨hl, decide_eq_true rfl⟩
  have hlive := ((hi.entry h.ip).live (Or.inl ho)).2 h p hmem
  exact Bool.noConfusion (hp.symm.trans hlive)

theorem Inv.open_in_use {calm : Prop} (hi : Inv sb calm M s) (ho : 0 < s.opens ip) :
    0 < (s.icache ip).ref ∧ (s.dinode (s.icache ip).inum).type ≠ .free := by
  have hentry := hi.entry ip
  have hrefs := hentry.refs
  have hpos : 0 < (s.icache ip).ref := by omega
  obtain ⟨hvalid, hlive⟩ := hentry.live (Or.inl ho)
  refine ⟨hpos, ?_⟩
  cases hb : (s.icache ip).busy with
  | false =>
    obtain ⟨hd, htype⟩ := hentry.idle hpos hvalid hb
    rwa [hd]
  | true =>
    obtain ⟨tok, hmem, hlock⟩ := Multiset.countP_pos.mp (hentry.busy.mp hb)
    cases tok with
    | lock h p =>
      have hphase := hentry.phase h p hmem
      have halive := hlive h p hmem
      cases p with
      | clean =>
        rw [hphase.2.1]
        exact hphase.2.2
      | dirty =>
        rw [hphase.2.2.1]
        exact hphase.2.1
      | _ => cases halive
    | _ => cases hlock

theorem Inv.other_inum {calm : Prop} (hi : Inv sb calm M s) (ho : 0 < s.opens ip)
    (hl : .lock h p ∈ M) (hne : h.ip ≠ ip) : (s.icache ip).inum ≠ (s.icache h.ip).inum := by
  intro heq
  exact hne (hi.inj h.ip ip (hi.ref_pos hl (h := h) rfl) (hi.open_in_use ho).1 heq.symm)

theorem content_congr {s s' : Disk} {d d' : Dinode} (hb : s'.block = s.block)
    (haddrs : d'.addrs = d.addrs) (hsize : d'.size = d.size) : s'.content d' = s.content d := by
  unfold Disk.content
  rw [hsize, Disk.fileByte_congr hb haddrs]

namespace SameFile

theorem refl : SameFile ip s s := ⟨rfl, rfl⟩

theorem of_disk (hinum : (s'.icache ip).inum = (s.icache ip).inum)
    (hdisk : s'.toDisk = s.toDisk) : SameFile ip s s' := by
  refine ⟨hinum, ?_⟩
  unfold Fs.held
  rw [hinum, hdisk]

theorem of_places (hp : s'.places = s.places) : SameFile ip s s' :=
  of_disk (congrFun (congrArg Prod.snd hp) ip) (congrArg Prod.fst hp)

theorem of_setDinode {m : Nat} {d : Dinode} (hne : (s.icache ip).inum ≠ m) :
    SameFile ip s { s with toDisk := s.setDinode m d } := by
  refine ⟨rfl, ?_⟩
  unfold Fs.held
  dsimp only
  rw [Disk.dinode_setDinode_of_ne hne]
  exact content_congr rfl rfl rfl

theorem of_ends {m : FsM β} {X : Fault → Prop} (hm : Ends m s (fun _ t _ => SameFile ip s t) X)
    (hrun : (m >>= fun a => Pure.pure (a, me)) s = .ok ((b, me'), s', ev)) :
    SameFile ip s s' := by
  have hends : Ends (m >>= fun a => Pure.pure (a, me)) s (fun _ t _ => SameFile ip s t) X :=
    ends_bind (hm.mono (fun _ _ _ ht => ends_pure ht) fun _ hf => hf)
  exact hends.of_ok hrun

theorem of_reads {m : FsM β} {P : β → List Event → Prop} {X : Fault → Prop}
    (hm : Ends m s (fun r t ev => t = s ∧ P r ev) X)
    (hrun : (m >>= fun a => Pure.pure (a, me)) s = .ok ((b, me'), s', ev)) :
    SameFile ip s s' := by
  refine of_ends (hm.mono ?_ fun _ hf => hf) hrun
  rintro r t ev ⟨rfl, -⟩
  exact refl

section Open

variable {calm : Prop} (hi : Inv sb calm M s) (ho : 0 < s.opens ip)

include hi ho

theorem iget (dev inum : Nat) :
    Ends (FsM.iget dev inum) s (fun _ t _ => SameFile ip s t) fun _ => True := by
  refine FsM.iget_ends.mono ?_ fun _ _ => trivial
  rintro jp t ev ⟨hgot, -⟩
  refine of_disk ?_ hgot.toDisk
  by_cases hj : ip = jp
  · subst hj
    rw [hgot.old (hi.open_in_use ho).1]
  · rw [hgot.icache_of_ne hj]

theorem ialloc (type : FileType) :
    Ends (FsM.ialloc type) s (fun _ t _ => SameFile ip s t) fun _ => True := by
  refine ends_bind (ends_get ?_)
  split
  · next m hm =>
    have hfree : (s.dinode m).type = .free := by simpa using List.find?_some hm
    have hne : (s.icache ip).inum ≠ m := by
      rintro rfl
      exact (hi.open_in_use ho).2 hfree
    exact ends_bind (ends_modify (ends_bind (ends_emit (ends_pure (of_setDinode hne)))))
  · exact ends_fail trivial

theorem iupdate (hl : .lock h p ∈ M) (hp : p = .dirty ∨ p = .freeing) :
    SameFile ip s { s with toDisk := s.setDinode (s.icache h.ip).inum (s.icache h.ip).d } := by
  by_cases hip : h.ip = ip
  · rcases hp with rfl | rfl
    · subst hip
      obtain ⟨-, -, -, haddrs, hsize⟩ := hi.phase hl
      refine ⟨rfl, ?_⟩
      unfold Fs.held
      dsimp only
      rw [Disk.dinode_setDinode_self]
      exact content_congr rfl haddrs.symm hsize.symm
    · exact absurd hip (hi.not_dies ho hl rfl)
  · exact of_setDinode (hi.other_inum ho hl hip)

theorem itrunc {jp : InodePtr} (hl : .lock (.own jp n) .dying ∈ M) :
    Ends (FsM.itrunc jp) s (fun _ t _ => SameFile ip s t) fun _ => True := by
  have hip : jp ≠ ip := hi.not_dies ho hl rfl
  have hne : (s.icache ip).inum ≠ (s.icache jp).inum := hi.other_inum ho hl hip
  obtain ⟨hclean, htype⟩ : s.Clean jp ∧ (s.icache jp).d.type ≠ .free :=
    ⟨(hi.phase hl).2.1, (hi.phase hl).2.2.1⟩
  refine (FsM.itrunc_ends hi.sound hclean htype).mono ?_ fun _ hf => hf
  rintro - t - ⟨htrunc, -⟩
  have hinum : (t.icache ip).inum = (s.icache ip).inum := by
    rw [htrunc.icache, Function.update_of_ne hip.symm]
  refine ⟨hinum, ?_⟩
  unfold Fs.held
  rw [hinum, htrunc.dinode, Function.update_of_ne hne]
  refine content_congr ?_ rfl rfl
  rw [htrunc.rest]

theorem writei (hl : .lock h .clean ∈ M) (hip : h.ip ≠ ip) (src : Nat → Byte) (off n : Word) :
    Ends (FsM.writei h.ip src off n) s (fun _ t _ => SameFile ip s t) fun _ => True := by
  obtain ⟨hclean, htype⟩ := hi.clean hl
  refine (FsM.writei_ends hi.sound hclean htype).mono ?_ fun _ _ => trivial
  intro r t ev hr
  split at hr
  · obtain ⟨-, rfl, -⟩ := hr
    exact refl
  · have hup := hr.2.1
    have hinum : (t.icache ip).inum = (s.icache ip).inum := by
      rw [hup.icache, Function.update_of_ne hip.symm]
    refine ⟨hinum, ?_⟩
    unfold Fs.held
    rw [hinum]
    exact hup.content_of_ne (hi.other_inum ho hl hip) (hi.open_in_use ho).2

end Open

theorem call (hw : wp β c H Q) (hi : Inv sb (sh.calm = true) (H.toks + others) sh.fs)
    (hrun : c.run me sh.fs = .ok ((b, me'), s', ev)) (ho : 0 < sh.fs.opens ip)
    (hc : c.writes ip = false) : SameFile ip sh.fs s' := by
  have hmine : ∀ {tok : Token}, tok ∈ H.toks → tok ∈ H.toks + others :=
    fun hmem => mem_add.mpr (Or.inl hmem)
  cases hd : c.deep with
  | false => exact of_places (Call.run_leaves hd me sh.fs _ _ _ hrun)
  | true =>
    cases c with
    | iget dev inum => exact of_ends (iget hi ho dev inum) hrun
    | ialloc type => exact of_ends (ialloc hi ho type) hrun
    | iupdate jp =>
      cases hrun
      obtain ⟨h, R, N, k, rfl, ⟨ht, -⟩ | ⟨ht, -⟩⟩ := hw
      · exact iupdate hi ho (hmine (ht ▸ mem_cons_self _ _)) (Or.inl rfl)
      · exact iupdate hi ho (hmine (ht ▸ mem_cons_self _ _)) (Or.inr rfl)
    | itrunc jp =>
      obtain ⟨n, R, N, k, ht, -⟩ := hw
      exact of_ends (itrunc hi ho (hmine (ht ▸ mem_cons_self _ _))) hrun
    | writei jp src off n =>
      obtain ⟨h, hmem, rfl, -⟩ := hw
      exact of_ends (writei hi ho (hmine hmem) (of_decide_eq_false hc) src off n) hrun
    | dirfind dp name =>
      obtain ⟨h, hmem, rfl, -⟩ := hw
      exact of_reads (FsM.dirfind_reads (hi.readable (hmine hmem)) trivial trivial
        (X := fun _ => True)) hrun
    | freeSlot dp =>
      obtain ⟨h, hmem, rfl, -⟩ := hw
      exact of_reads (FsM.freeSlot_reads (hi.readable (hmine hmem)) trivial
        (X := fun _ => True)) hrun
    | isdirempty dp =>
      obtain ⟨h, hmem, rfl, -⟩ := hw
      exact of_reads (P := fun _ ev => ev = [])
        (FsM.isdirempty_reads (hi.readable (hmine hmem)) trivial (X := fun _ => True)) hrun
    | readi jp off n =>
      obtain ⟨h, hmem, rfl, -⟩ := hw
      exact of_reads (FsM.readi_ends off n (hi.readable (hmine hmem))) hrun
    | _ => cases hd

end SameFile

theorem readi_held {off n : Word} {r : Option (List Byte)} {Q : Option (List Byte) → Holding → Prop}
    (hw : wp _ (.readi ip off n) H Q) (hi : Inv sb (sh.calm = true) (H.toks + others) sh.fs)
    (hrun : (Call.readi ip off n).run me sh.fs = .ok ((r, me'), s', ev)) :
    r = if off > (sh.fs.icache ip).d.size ∨ off + n < off then none
      else some (((sh.fs.held ip).drop off.toNat).take n.toNat) := by
  obtain ⟨h, hmem, rfl, -⟩ := hw
  have hl : .lock h .clean ∈ H.toks + others := mem_add.mpr (Or.inl hmem)
  have hends : Ends (Call.run (.readi h.ip off n) me) sh.fs (fun r _ _ => r.1 =
      if off > (sh.fs.icache h.ip).d.size ∨ off + n < off then none
      else some ((List.range (min n.toNat ((sh.fs.icache h.ip).d.size.toNat - off.toNat))).map
        fun i => sh.fs.fileByte (sh.fs.icache h.ip).d (off.toNat + i))) fun _ => False :=
    ends_bind ((FsM.readi_ends off n (hi.readable hl)).mono
      (fun _ _ _ hr => ends_pure hr.2.2) fun _ hf => hf)
  unfold Fs.held
  rw [(hi.clean hl).1, FsM.take_drop_content]
  exact hends.of_ok hrun

end Content

/-! ## Processes -/

variable {T : Type} [DecidableEq T] {sb : Superblock} {base : Nat → Attr} {lost : Set Nat}
  {w w' : World T} {a : Action T} {t : T} {ip : InodePtr} {tr : List (Action T × Unit)}

/-- The next call of the process that moves, if it makes one, meets a condition. -/
def Action.call (w : World T) (P : {β : Type} → Call β → Bool) : Action T → Bool
  | .advance t =>
    match w.prog t with
    | some (.call c _) => P c
    | _ => false
  | _ => false

/-- No `iget` finds an inode in the cache that has lost its links. -/
def findsLinked (w : World T) (a : Action T) : Bool := !a.call w fun c => !c.calm w.fs

omit [DecidableEq T] in
theorem call_advance {P : {β : Type} → Call β → Bool} {β : Type} {c : Call β}
    {k : β → Program Int} (hp : w.prog t = some (.call c k)) :
    (Action.advance t).call w P = P c := by
  unfold Action.call
  dsimp only
  rw [hp]

/-- A step is a call of a process, or it does not concern the file system. -/
theorem next_shared {e : Unit} (h : next w a = some (w', e)) :
    (w'.fs.toDisk = w.fs.toDisk ∧ w'.fs.icache = w.fs.icache ∧
      w'.sys.shared.calm = w.sys.shared.calm) ∨
    ∃ (t : T) (β : Type) (c : Call β) (k : β → Program Int) (b : β) (d : Own),
      a = .advance t ∧ w.prog t = some (.call c k) ∧
      act β c (w.sys.shared, w.own t) = .ok (b, (w'.sys.shared, d)) := by
  cases a with
  | hatch t u =>
    left
    dsimp only [next] at h
    split at h
    · split at h
      · cases h
        exact ⟨rfl, rfl, rfl⟩
      · cases h
        exact ⟨rfl, rfl, rfl⟩
    · cases h
  | advance t =>
    obtain ⟨sys, hsys, heq⟩ := Option.map_eq_some_iff.mp h
    cases heq
    obtain ⟨r, -, rfl⟩ | ⟨β, c, k, b, sh, d, hp, hok, rfl⟩ := Prog.World.advance_cases hsys
    · exact Or.inl ⟨rfl, rfl, rfl⟩
    · exact Or.inr ⟨t, β, c, k, b, d, rfl, hp, hok⟩
  | outside console pipe memory stack =>
    cases h
    exact Or.inl ⟨rfl, rfl, rfl⟩
  | _ =>
    left
    dsimp only [next] at h
    split at h
    · cases h
      exact ⟨rfl, rfl, rfl⟩
    · cases h

theorem calm_next {e : Unit} (hcalm : w.sys.shared.calm = true) (ha : findsLinked w a = true)
    (h : next w a = some (w', e)) : w'.sys.shared.calm = true := by
  rcases next_shared h with ⟨-, -, heq⟩ | ⟨t, β, c, k, b, d, rfl, hp, hok⟩
  · rwa [heq]
  · obtain ⟨me, s, ev, -, hsh, -⟩ := act_ok hok
    have hc : c.calm w.fs = true := by
      unfold findsLinked at ha
      rwa [call_advance hp, Bool.not_not] at ha
    rw [hsh]
    change (w.sys.shared.calm && c.calm w.fs) = true
    rw [hcalm, hc]
    rfl

section Ok

variable [Fintype T]

namespace World.Ok

theorem wp {β : Type} {c : Call β} {k : β → Program Int} (hw : w.Ok sb base lost)
    (hp : w.prog t = some (.call c k)) :
    ∃ H others Q, Fs.wp β c H Q ∧ Good sb base lost (H.toks + others) w.sys.shared ∧
      (w.own t).counts = tally H.toks := by
  obtain ⟨h, hgood, hall⟩ := hw.holds
  rw [← Finset.add_sum_erase _ _ (Finset.mem_univ t)] at hgood
  exact ⟨h t, _, _, (hall t).safe hp, hgood, (hall t).1.counts⟩

theorem sameFile {e : Unit} (hw : w.Ok sb base lost) (h : Fs.next w a = some (w', e))
    (ho : 0 < w.fs.opens ip) (ha : a.call w (·.writes ip) = false) : SameFile ip w.fs w'.fs := by
  rcases next_shared h with ⟨hdisk, hcache, -⟩ | ⟨t, β, c, k, b, d, rfl, hp, hok⟩
  · refine .of_disk ?_ hdisk
    rw [hcache]
  · obtain ⟨H, others, Q, hwp, hgood, -⟩ := hw.wp hp
    obtain ⟨me, s, ev, hrun, hsh, -⟩ := act_ok hok
    rw [call_advance hp] at ha
    have hfs : w'.fs = s := congrArg Shared.fs hsh
    rw [hfs]
    exact SameFile.call hwp hgood.inv hrun ho ha

theorem sole {H : Holding} {others : Multiset Token} {n : Nat} {p : Phase}
    (hw : w.Ok sb base lost) (hcalm : w.sys.shared.calm = true)
    (hgood : Good sb base lost (H.toks + others) w.sys.shared)
    (hcounts : (w.own t).counts = tally H.toks) (hmem : .lock (.own ip n) p ∈ H.toks)
    (hp : p.frees = true) :
    (w.fs.icache ip).ref = 1 ∧ w.fs.opens ip = 0 ∧ ∀ u ≠ t, (w.own u).counts.1 ip = 0 := by
  have hentry := hgood.inv.entry ip
  have hon : .lock (.own ip n) p ∈ (H.toks + others).filter (·.on ip) :=
    mem_filter.mpr ⟨mem_add.mpr (Or.inl hmem), decide_eq_true rfl⟩
  have hone : owns ((H.toks + others).filter (·.on ip)) = 1 := (hentry.sole hcalm _ _ hon hp).2
  have hnone : w.fs.opens ip = 0 := by
    by_contra hne
    exact hgood.inv.not_dies (Nat.pos_of_ne_zero hne) (mem_add.mpr (Or.inl hmem))
      (Phase.dies_of_frees hp) rfl
  have href : (w.fs.icache ip).ref = 1 := by
    have hrefs := hentry.refs
    change _ + (w.fs.opens ip : Int) = (w.fs.icache ip).ref at hrefs
    omega
  refine ⟨href, hnone, fun u hu => ?_⟩
  -- all references together are one, and this process has one
  have hmine : 1 ≤ (w.own t).counts.1 ip := by
    have hpos : 0 < owns (H.toks.filter (·.on ip)) :=
      owns_pos (mem_filter.mpr ⟨hmem, decide_eq_true rfl⟩) rfl
    rw [hcounts, tally_refs]
    omega
  have hsum := hw.refs ip
  rw [href, hnone, ← Finset.add_sum_erase _ _ (Finset.mem_univ t)] at hsum
  have hle := Finset.single_le_sum (f := fun v => (w.own v).counts.1 ip)
    (fun v _ => (hw.nonneg v ip).1) (Finset.mem_erase.mpr ⟨hu, Finset.mem_univ u⟩)
  have hge := (hw.nonneg u ip).1
  omega

omit [DecidableEq T] in
theorem tidy (hw : w.Ok sb base ∅) (hidle : ∀ t, w.prog t = none) : w.Tidy ∅ := by
  obtain ⟨h, hgood, hall⟩ := hw.holds
  intro m hm htype
  have hnone : ∀ (c : Caller) n, .born m ∉ c.tokens n := by
    intro c n hb
    rcases Caller.mem_tokens hb with ⟨jp, -, heq⟩ | ⟨fd, f, -, heq⟩
    · cases heq
    · cases heq
  by_cases hlink : (w.fs.dinode m).nlink = 0
  · right
    rcases hgood.linked m hm htype hlink with hborn | ⟨ip, hk, hinum⟩
    · obtain ⟨t, -, ht⟩ := Multiset.mem_sum.mp hborn
      obtain ⟨n, k, htoks⟩ := ((hall t).idle (hidle t)).toks
      rw [htoks] at ht
      rcases mem_add.mp ht with hb | hb
      · exact absurd hb (hnone _ _)
      · cases hnp : (h t).view.role.np with
        | none =>
          rw [hnp] at hb
          exact absurd hb (Multiset.notMem_zero _)
        | some np =>
          rw [hnp] at hb
          exact absurd hb (hnone np _)
    · exact ⟨ip, hk.1, hinum⟩
  · exact Or.inl hlink

end World.Ok

def Kempt (w : World T) : Prop := Init w ∧ w.Tidy ∅

/-- If `iget` never finds an inode in the cache that has lost its links: `iput` truncates an
inode and clears its type only while it has no links and nobody else refers to it. An open
file is for the same inode, in use, whose content only `writei` changes, and `readi` returns
the content. While no call is in progress, every inode is linked or somebody refers to it. -/
theorem unlinked_inodes_survive
    (h : Trace.Run Kempt (Trace.Only (fun w a => findsLinked w a = true) (Trace.Next next))
      tr w) :
    (∀ t ip k, w.prog t = some (.call (.itrunc ip) k) ∨
        w.prog t = some (.call (.patch ip .free) k) →
      (w.fs.icache ip).ref = 1 ∧ w.fs.opens ip = 0 ∧ (∀ u ≠ t, (w.own u).counts.1 ip = 0) ∧
        (w.fs.icache ip).d.nlink = 0) ∧
    (∀ f ip, (w.fs.ftable f).Opens ip → (w.fs.dinode (w.fs.icache ip).inum).type ≠ .free ∧
      ∀ a w' e, next w a = some (w', e) → a.call w (·.writes ip) = false →
        SameFile ip w.fs w'.fs) ∧
    (∀ t ip off n k r x, w.prog t = some (.call (.readi ip off n) k) →
      act _ (.readi ip off n) (w.sys.shared, w.own t) = .ok (r, x) →
      r = if off > (w.fs.icache ip).d.size ∨ off + n < off then none
        else some (((w.fs.held ip).drop off.toNat).take n.toNat)) ∧
    ((∀ t, w.prog t = none) → ∀ m, (w.fs.dinode m).type ≠ .free →
      (w.fs.dinode m).nlink ≠ 0 ∨ ∃ ip, 0 < (w.fs.icache ip).ref ∧ (w.fs.icache ip).inum = m) := by
  obtain ⟨⟨sb, base, hw⟩, hcalm⟩ : (∃ sb base, w.Ok sb base ∅) ∧ w.sys.shared.calm = true := by
    refine h.invariant (I := fun w => (∃ sb base, World.Ok sb base ∅ w) ∧
      w.sys.shared.calm = true) ?_ ?_
    · rintro w ⟨hw, htidy⟩
      exact ⟨⟨_, _, hw.ok htidy⟩, hw.calm⟩
    · rintro w l w' ⟨⟨sb, base, hw⟩, hcalm⟩ ⟨hstep, hc⟩
      exact ⟨⟨sb, base, hw.next hstep⟩, calm_next hcalm hc hstep⟩
  refine ⟨?_, ?_, ?_, fun hidle m hm => hw.tidy hidle m (Set.notMem_empty m) hm⟩
  · rintro t ip k (hp | hp)
    · obtain ⟨H, others, Q, ⟨n, R, N, j, htoks, -⟩, hgood, hcounts⟩ := hw.wp hp
      have hmem : .lock (.own ip n) .dying ∈ H.toks := htoks ▸ mem_cons_self _ _
      obtain ⟨href, hopens, hothers⟩ := hw.sole hcalm hgood hcounts hmem rfl
      have hphase := hgood.inv.phase (mem_add.mpr (Or.inl hmem))
      exact ⟨href, hopens, hothers, hphase.2.2.2⟩
    · obtain ⟨H, others, Q, ⟨h, R, rfl, ⟨hne, -⟩ | ⟨-, htoks, -⟩⟩, hgood, hcounts⟩ := hw.wp hp
      · exact absurd rfl hne
      · have hmem : .lock h .empty ∈ H.toks := htoks ▸ mem_cons_self _ _
        have hall : .lock h .empty ∈ H.toks + others := mem_add.mpr (Or.inl hmem)
        have hown : h.isOwn = true := ((hgood.inv.entry h.ip).sole hcalm h .empty
          (mem_filter.mpr ⟨hall, decide_eq_true rfl⟩) rfl).1
        cases h with
        | file f ip n => cases hown
        | own ip n =>
          obtain ⟨href, hopens, hothers⟩ := hw.sole hcalm hgood hcounts hmem rfl
          exact ⟨href, hopens, hothers, (hgood.inv.phase hall).2.2.2.1⟩
  · intro f ip hf
    have ho : 0 < w.fs.opens ip :=
      Finset.card_pos.mpr ⟨f, Finset.mem_filter.mpr ⟨Finset.mem_univ f, hf⟩⟩
    obtain ⟨M, hgood, -⟩ := hw.tokens
    exact ⟨(hgood.inv.open_in_use ho).2, fun a w' e hstep ha => hw.sameFile hstep ho ha⟩
  · intro t ip off n k r x hp hok
    obtain ⟨H, others, Q, hwp, hgood, -⟩ := hw.wp hp
    obtain ⟨me, s, ev, hrun, -, -⟩ := act_ok hok
    exact readi_held hwp hgood.inv hrun

end Ok

def truncated : Program Int → Option InodePtr
  | .ret _ => none
  | .call c _ =>
    match c with
    | .itrunc ip => some ip
    | _ => none

theorem prog_of_truncated {p : Option (Program Int)} {ip : InodePtr}
    (h : p.bind truncated = some ip) : ∃ k, p = some (.call (.itrunc ip) k) := by
  rcases p with _ | _ | ⟨c, k⟩
  · cases h
  · cases h
  · cases c with
    | itrunc jp =>
      cases h
      exact ⟨k, rfl⟩
    | _ => cases h

/-- The last descriptor of a file without a name is closed. -/
theorem unlinked_file_freed_on_close : ∃ tr, ∃ w : World (Fin 1), ∃ k,
    Trace.Run Kempt (Trace.Only (fun w a => findsLinked w a = true) (Trace.Next next)) tr w ∧
    w.prog 0 = some (.call (.itrunc 1) k) ∧ (w.fs.icache 1).ref = 1 ∧ w.fs.opens 1 = 0 ∧
    (w.fs.icache 1).d.nlink = 0 := by
  have hinit : Kempt oneFile.world := ⟨oneFile_init, oneFile.tidy (by decide)⟩
  obtain ⟨tr, w, hrun, hw⟩ := Trace.exec_reaches_only (f := next) hinit
    (fun w a => findsLinked w a = true)
    (doing 0 (.unlink (some [102])) 21 ++ doing 0 (.close 0) 5)
    (fun _ w => (w.prog 0).bind truncated = some 1) (by decide +kernel)
  obtain ⟨k, hp⟩ := prog_of_truncated hw
  obtain ⟨href, hopens, -, hlink⟩ := (unlinked_inodes_survive hrun).1 0 1 k (Or.inl hp)
  exact ⟨tr, w, k, hrun, hp, href, hopens, hlink⟩

/-- A process is in the removed directory `a/b` when the other one frees `a`. It looks up
`..`, and has a reference to `a` before the other one truncates it. -/
theorem freed_inode_found_by_dotdot : ∃ tr, ∃ w : World (Fin 2), ∃ k,
    Trace.Run Kempt (Trace.Next next) tr w ∧
    w.prog 0 = some (.call (.itrunc 1) k) ∧ (w.fs.icache 1).ref = 2 ∧
    (w.own 1).counts.1 1 = 1 := by
  have hinit : Kempt twoDirs.world := ⟨twoDirs_init, twoDirs.tidy (by decide)⟩
  obtain ⟨tr, w, hrun, ht, href, hcount⟩ := Trace.exec_reaches (f := next) hinit
    (doing 1 (.open (some ([97, 47, 98, 47, 46, 46, 47, 102], 0))) 15 ++
      doing 0 (.unlink (some [97, 47, 98])) 30 ++ doing 0 (.unlink (some [97])) 22 ++
      List.replicate 4 (.advance 1))
    (fun _ w => (w.prog 0).bind truncated = some 1 ∧ (w.fs.icache 1).ref = 2 ∧
      (w.own 1).counts.1 1 = 1) (by decide +kernel)
  obtain ⟨k, hp⟩ := prog_of_truncated ht
  exact ⟨tr, w, k, hrun, hp, href, hcount⟩

end Fs

end Xv6
