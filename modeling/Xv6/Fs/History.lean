import Xv6.Lib.Run
import Xv6.Fs.Held

/-!
# Owner, group and mode

What was done to the owner, the group and the mode of the inodes, and what `stati` told
about them, as a history. The fields on disk are those last set, but for an inode that is
locked and changed in the cache: there the copy in the cache has them.
-/

open Multiset (mem_cons mem_cons_of_mem mem_cons_self mem_filter)
open Function (update update_of_ne update_self update_eq_self)

namespace Xv6

/-- The fields that `chown`, `chgrp` and `chmod` set. -/
structure Attr where
  uid : BitVec 16
  gid : BitVec 16
  mode : Word

def Dinode.attr (d : Dinode) : Attr where
  uid := d.uid
  gid := d.gid
  mode := d.mode

def Stat.attr (st : Stat) : Attr where
  uid := st.uid
  gid := st.gid
  mode := st.mode

def Attr.set (a : Attr) : Patch → Attr
  | .mode m => { a with mode := m }
  | .uid u => { a with uid := u }
  | .gid g => { a with gid := g }
  | .link _ | .make _ _ | .free => a

theorem Patch.apply_attr (p : Patch) (d : Dinode) : (p.apply d).attr = d.attr.set p := by
  cases p with
  | _ => rfl

namespace Patch

def InForce (a : Attr) : Patch → Prop
  | mode m => a.mode = m
  | uid u => a.uid = u
  | gid g => a.gid = g
  | link _ | make _ _ | free => True

def SameField : Patch → Patch → Prop
  | mode _, mode _ | uid _, uid _ | gid _, gid _ => True
  | _, _ => False

theorem inForce_set (p : Patch) (a : Attr) : p.InForce (a.set p) := by
  cases p with
  | mode _ | uid _ | gid _ => rfl
  | _ => trivial

theorem InForce.set {p : Patch} {a : Attr} (h : p.InForce a) {q : Patch} (hq : ¬ p.SameField q) :
    p.InForce (a.set q) := by
  cases p with
  | mode m =>
    cases q with
    | mode m' => exact absurd trivial hq
    | _ => exact h
  | uid u =>
    cases q with
    | uid u' => exact absurd trivial hq
    | _ => exact h
  | gid g =>
    cases q with
    | gid g' => exact absurd trivial hq
    | _ => exact h
  | _ => trivial

end Patch

namespace Fs

/-! ## The history -/

inductive Obs
  | set (inum : Nat) (p : Patch)
  | fresh (inum : Nat)
  | stat (st : Stat)

deriving instance DecidableEq for Stat, Patch, Obs

def Obs.act (a : Nat → Attr) : Obs → Nat → Attr
  | set n p => update a n ((a n).set p)
  | fresh n => update a n { uid := 0, gid := 0, mode := 0 }
  | stat _ => a

section Act

variable {a : Nat → Attr} {n m : Nat} {p : Patch}

theorem Obs.act_set : (Obs.set n p).act a n = (a n).set p := update_self ..

theorem Obs.act_set_of_ne (h : m ≠ n) : (Obs.set n p).act a m = a m := update_of_ne h ..

theorem Obs.act_fresh : (Obs.fresh n).act a n = { uid := 0, gid := 0, mode := 0 } :=
  update_self ..

theorem Obs.act_fresh_of_ne (h : m ≠ n) : (Obs.fresh n).act a m = a m :=
  update_of_ne h ..

end Act

/-- The fields of the inodes after a history that starts with `base`. -/
def attrAfter (base : Nat → Attr) (seen : List Obs) : Nat → Attr := seen.foldl Obs.act base

/-- The field of an inode that `p` sets is set again. -/
def Obs.Resets (n : Nat) (p : Patch) : Obs → Prop
  | set m q => m = n ∧ p.SameField q
  | fresh m => m = n
  | stat _ => False

variable {base : Nat → Attr} {seen : List Obs}

theorem attrAfter_snoc (base : Nat → Attr) (seen : List Obs) (o : Obs) :
    attrAfter base (seen ++ [o]) = o.act (attrAfter base seen) := by
  unfold attrAfter
  rw [List.foldl_append]
  rfl

theorem attrAfter_append (base : Nat → Attr) (pre post : List Obs) :
    attrAfter base (pre ++ post) = attrAfter (attrAfter base pre) post := by
  unfold attrAfter
  rw [List.foldl_append]

theorem inForce_attrAfter {n : Nat} {p : Patch} (h : p.InForce (base n))
    (hmid : ∀ o ∈ seen, ¬ o.Resets n p) : p.InForce (attrAfter base seen n) := by
  induction seen generalizing base with
  | nil => exact h
  | cons o seen ih =>
    have ho := hmid o (List.mem_cons_self ..)
    refine ih ?_ fun o' ho' => hmid o' (List.mem_cons_of_mem _ ho')
    cases o with
    | set m q =>
      by_cases hm : m = n
      · subst hm
        rw [Obs.act_set]
        exact h.set fun hq => ho ⟨rfl, hq⟩
      · rwa [Obs.act_set_of_ne (Ne.symm hm)]
    | fresh m =>
      rwa [Obs.act_fresh_of_ne (Ne.symm ho)]
    | stat st => exact h

theorem inForce_of_set {n : Nat} {p : Patch} {pre mid : List Obs}
    (hmid : ∀ o ∈ mid, ¬ o.Resets n p) :
    p.InForce (attrAfter base (pre ++ .set n p :: mid) n) := by
  rw [attrAfter_append]
  change p.InForce (attrAfter (Obs.act (attrAfter base pre) (.set n p)) mid n)
  refine inForce_attrAfter ?_ hmid
  rw [Obs.act_set]
  exact p.inForce_set _

theorem attrAfter_fresh {n : Nat} {pre mid : List Obs}
    (hmid : ∀ o ∈ mid, ∀ p, ¬ o.Resets n p) :
    attrAfter base (pre ++ .fresh n :: mid) n = { uid := 0, gid := 0, mode := 0 } := by
  rw [attrAfter_append]
  change attrAfter (Obs.act (attrAfter base pre) (.fresh n)) mid n = _
  have hkeep (p : Patch) (hp : p.InForce { uid := 0, gid := 0, mode := 0 }) :
      p.InForce (attrAfter (Obs.act (attrAfter base pre) (.fresh n)) mid n) := by
    refine inForce_attrAfter ?_ fun o ho => hmid o ho p
    rwa [Obs.act_fresh]
  rw [Attr.mk.injEq]
  exact ⟨hkeep (.uid 0) rfl, hkeep (.gid 0) rfl, hkeep (.mode 0) rfl⟩

/-! ## The fields of the inodes -/

/-- The history tells the fields on disk and in the cache, and was told right by `stati`. -/
structure Recorded (base : Nat → Attr) (M : Multiset Token) (s : Fs) (seen : List Obs) :
    Prop where
  disk : ∀ m, (∀ h, .lock h .dirty ∈ M → h.inum ≠ m) →
    (s.dinode m).attr = attrAfter base seen m
  dirty : ∀ h, .lock h .dirty ∈ M → (s.icache h.ip).d.attr = attrAfter base seen h.inum
  stats : ∀ pre st post, seen = pre ++ .stat st :: post → st.attr = attrAfter base pre st.ino

section Recorded

variable {sb : Superblock} {calm : Prop} {M M' R : Multiset Token} {s t : Fs} {h : Handle}
  {ip : InodePtr} {n : Nat} {p q : Phase} {i : Inode}

theorem Inv.lock_alone (hi : Inv sb calm (.lock h p ::ₘ R) s) {h' : Handle}
    (hmem : .lock h' q ∈ R) :
    h'.inum ≠ h.inum := by
  intro heq
  have hself := hi.inum (mem_cons_self _ _) (h := h) rfl
  have hother := hi.inum (mem_cons_of_mem hmem) (h := h') rfl
  have hip : h'.ip = h.ip := by
    apply hi.inj
    · exact hi.ref_pos (mem_cons_of_mem hmem) rfl
    · exact hi.ref_pos (mem_cons_self _ _) rfl
    · rw [hself, hother, heq]
  have hfil : .lock h' q ∈ R.filter (·.on h.ip) :=
    mem_filter.mpr ⟨hmem, Token.on_iff.mpr ⟨h', rfl, hip⟩⟩
  exact not_lock_mem (hi.entry_self (h := h) rfl).only_lock h' q hfil

theorem Inv.busy (hi : Inv sb calm M s) (hmem : .lock h p ∈ M) : (s.icache h.ip).busy = true := by
  rw [(hi.entry h.ip).busy]
  exact Multiset.countP_pos_of_mem
    (mem_filter.mpr ⟨hmem, Token.on_iff.mpr ⟨h, rfl, rfl⟩⟩) rfl

theorem stats_snoc {o : Obs} (ho : ∀ st, o ≠ .stat st)
    (hstats : ∀ pre st post, seen = pre ++ .stat st :: post → st.attr = attrAfter base pre st.ino) :
    ∀ pre st post, seen ++ [o] = pre ++ .stat st :: post →
      st.attr = attrAfter base pre st.ino := by
  intro pre st post heq
  rcases Trace.snoc_eq_append_cons (o := some o) heq with ⟨post', -, hold⟩ | ⟨-, -, hlast⟩
  · exact hstats pre st post' hold
  · exact absurd (Option.some.inj hlast) (ho st)

namespace Recorded

theorem keep (hr : Recorded base M s seen)
    (hM : ∀ h, .lock h .dirty ∈ M' ↔ .lock h .dirty ∈ M)
    (hdisk : ∀ m, (t.dinode m).attr = (s.dinode m).attr)
    (hcache : ∀ h, .lock h .dirty ∈ M → (t.icache h.ip).d.attr = (s.icache h.ip).d.attr) :
    Recorded base M' t seen where
  disk := by
    intro m hm
    rw [hdisk]
    exact hr.disk m fun h hh => hm h ((hM h).mpr hh)
  dirty := by
    intro h hh
    rw [hcache h ((hM h).mp hh)]
    exact hr.dirty h ((hM h).mp hh)
  stats := hr.stats

theorem setEntry (hr : Recorded base M s seen)
    (hM : ∀ h, .lock h .dirty ∈ M' ↔ .lock h .dirty ∈ M)
    (hd : (∃ h, .lock h .dirty ∈ M ∧ h.ip = ip) → i.d.attr = (s.icache ip).d.attr) :
    Recorded base M' { s with icache := update s.icache ip i } seen := by
  refine hr.keep hM (fun _ => rfl) ?_
  intro h hh
  by_cases hip : h.ip = ip
  · subst hip
    simp only [update_self]
    exact hd ⟨h, hh, rfl⟩
  · simp only [update_of_ne hip]

theorem patch {x : Patch} (hi : Inv sb calm (.lock h .clean ::ₘ R) s)
    (hr : Recorded base (.lock h .clean ::ₘ R) s seen) :
    Recorded base (.lock h .dirty ::ₘ R)
      { s with
        icache := update s.icache h.ip
          { s.icache h.ip with d := x.apply (s.icache h.ip).d } }
      (seen ++ [.set (s.icache h.ip).inum x]) where
  disk := by
    intro m hm
    have hne : h.inum ≠ m := hm h (mem_cons_self _ _)
    rw [attrAfter_snoc, hi.inum (mem_cons_self _ _) (h := h) rfl]
    rw [Obs.act_set_of_ne hne.symm]
    apply hr.disk
    intro h' hh'
    rcases mem_cons.mp hh' with heq | hR
    · cases heq
    · exact hm h' (mem_cons_of_mem hR)
  dirty := by
    have hinum := hi.inum (mem_cons_self _ _) (h := h) rfl
    intro h' hh'
    rw [attrAfter_snoc, hinum]
    rcases mem_cons.mp hh' with heq | hR
    · cases heq
      simp only [update_self]
      rw [Obs.act_set, x.apply_attr, ← (hi.clean (mem_cons_self _ _)).1, hinum]
      congr 1
      apply hr.disk
      intro h'' hh''
      rcases mem_cons.mp hh'' with heq | hR
      · cases heq
      · exact hi.lock_alone hR
    · have hne := hi.lock_alone hR
      have hip : h'.ip ≠ h.ip := by
        intro heq
        apply hne
        rw [← hi.inum (mem_cons_of_mem hR) (h := h') rfl, heq, hinum]
      simp only [update_of_ne hip]
      rw [Obs.act_set_of_ne hne]
      exact hr.dirty h' (mem_cons_of_mem hR)
  stats := stats_snoc nofun hr.stats

theorem patchFree (hr : Recorded base (.lock h .empty ::ₘ R) s seen) :
    Recorded base (.lock h .freeing ::ₘ R)
      { s with
        icache := update s.icache h.ip
          { s.icache h.ip with d := Patch.apply (s.icache h.ip).d .free } }
      (seen ++ [.set n .free]) := by
  have hsame : attrAfter base (seen ++ [.set n .free]) = attrAfter base seen := by
    rw [attrAfter_snoc]
    exact update_eq_self _ _
  have hkeep : Recorded base (.lock h .freeing ::ₘ R)
      { s with
        icache := update s.icache h.ip
          { s.icache h.ip with d := Patch.apply (s.icache h.ip).d .free } } seen :=
    hr.setEntry (fun h' => by simp) fun _ => rfl
  refine ⟨?_, ?_, stats_snoc nofun hr.stats⟩
  · rw [hsame]
    exact hkeep.disk
  · rw [hsame]
    exact hkeep.dirty

theorem update (hi : Inv sb calm (.lock h .dirty ::ₘ R) s)
    (hr : Recorded base (.lock h .dirty ::ₘ R) s seen) :
    Recorded base (.lock h .clean ::ₘ R)
      { s with toDisk := s.setDinode (s.icache h.ip).inum (s.icache h.ip).d } seen where
  disk := by
    have hinum := hi.inum (mem_cons_self _ _) (h := h) rfl
    intro m hm
    by_cases hmi : m = h.inum
    · subst hmi
      rw [hinum]
      rw [Disk.dinode_setDinode_self]
      exact hr.dirty h (mem_cons_self _ _)
    · rw [hinum]
      rw [Disk.dinode_setDinode_of_ne hmi]
      apply hr.disk
      intro h' hh'
      rcases mem_cons.mp hh' with heq | hR
      · cases heq
        exact Ne.symm hmi
      · exact hm h' (mem_cons_of_mem hR)
  dirty := by
    intro h' hh'
    rcases mem_cons.mp hh' with heq | hR
    · cases heq
    · exact hr.dirty h' (mem_cons_of_mem hR)
  stats := hr.stats

theorem alloc (type : FileType) (hi : Inv sb calm M s) (hr : Recorded base M s seen)
    (hfree : (s.dinode n).type = .free) :
    Recorded base M { s with toDisk := s.setDinode n (FsM.newDinode type) }
      (seen ++ [.fresh n]) where
  disk := by
    intro m hm
    rw [attrAfter_snoc]
    by_cases hmn : m = n
    · subst hmn
      rw [Obs.act_fresh]
      rw [Disk.dinode_setDinode_self]
      rfl
    · rw [Obs.act_fresh_of_ne hmn]
      rw [Disk.dinode_setDinode_of_ne hmn]
      exact hr.disk m hm
  dirty := by
    intro h hh
    have hne : h.inum ≠ n := by
      intro heq
      obtain ⟨-, halive, htype, -⟩ := hi.phase hh
      rw [hi.inum hh (h := h) rfl, heq, hfree] at htype
      exact halive htype.symm
    rw [attrAfter_snoc, Obs.act_fresh_of_ne hne]
    exact hr.dirty h hh
  stats := stats_snoc nofun hr.stats

theorem cached (hi : Inv sb calm M s) (hr : Recorded base M s seen)
    (href : 0 < (s.icache ip).ref) (hclean : s.Clean ip) :
    (s.icache ip).d.attr = attrAfter base seen (s.icache ip).inum := by
  by_cases hdirty : ∃ h, .lock h .dirty ∈ M ∧ h.inum = (s.icache ip).inum
  · obtain ⟨h, hh, hinum⟩ := hdirty
    obtain rfl : h.ip = ip := by
      refine hi.inj _ _ (hi.ref_pos hh rfl) href ?_
      rw [hi.inum hh (h := h) rfl, hinum]
    rw [hr.dirty h hh, hinum]
  · rw [← hclean]
    exact hr.disk _ fun h hh hinum => hdirty ⟨h, hh, hinum⟩

theorem told {st : Stat} (hi : Inv sb calm (.lock h .clean ::ₘ R) s)
    (hr : Recorded base (.lock h .clean ::ₘ R) s seen) (hino : st.ino = (s.icache h.ip).inum)
    (hattr : st.attr = (s.icache h.ip).d.attr) :
    Recorded base (.lock h .clean ::ₘ R) s (seen ++ [.stat st]) := by
  have hsame : attrAfter base (seen ++ [.stat st]) = attrAfter base seen := attrAfter_snoc ..
  refine ⟨?_, ?_, ?_⟩
  · rw [hsame]
    exact hr.disk
  · rw [hsame]
    exact hr.dirty
  · intro pre st' post heq
    rcases Trace.snoc_eq_append_cons (o := some (Obs.stat st)) heq with
      ⟨post', -, hold⟩ | ⟨-, rfl, hlast⟩
    · exact hr.stats pre st' post' hold
    · cases hlast
      rw [hattr, hino, ← (hi.clean (mem_cons_self _ _)).1]
      apply hr.disk
      intro h' hh'
      rw [hi.inum (mem_cons_self _ _) (h := h) rfl]
      rcases mem_cons.mp hh' with heq | hR
      · cases heq
      · exact hi.lock_alone hR

end Recorded

end Recorded

end Fs

end Xv6
