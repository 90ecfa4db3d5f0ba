import Mathlib.Algebra.BigOperators.Fin
import Mathlib.Algebra.BigOperators.Pi
import Xv6.Fs.Safe

/-!
# System calls between two others

A process that runs no system call has the references in its `struct proc` and no others.
Every system call starts so and ends so.
-/

open Multiset (add_cons cons_swap map_singleton mem_add mem_cons_of_mem mem_cons_self mem_singleton
  notMem_zero singleton_add sum_singleton)

namespace Xv6

open Fs

/-- The reference to a current directory, which is the inode `n`. -/
def cwdTokens (n : Nat) : Option InodePtr → Multiset Token
  | some ip => {.ref (.own ip n)}
  | none => 0

def fdTokens : Option FilePtr → Multiset Token
  | some f => {.fref f}
  | none => 0

namespace Caller

def files (me : Caller) : Multiset Token := ∑ fd, fdTokens (me.ofile fd)

def tokens (me : Caller) (n : Nat) : Multiset Token := cwdTokens n me.cwd + me.files

def setFd (me : Caller) (fd : Fin NOFILE) (f : Option FilePtr) : Caller :=
  { me with ofile := Function.update me.ofile fd f }

variable {me : Caller} {n : Nat} {fd : Fin NOFILE} {f : FilePtr} {ip : InodePtr}

theorem files_setFd (me : Caller) (fd : Fin NOFILE) (x : Option FilePtr) :
    (me.setFd fd x).files + fdTokens (me.ofile fd) = me.files + fdTokens x := by
  have hrest : ∑ g ∈ Finset.univ.erase fd, fdTokens (Function.update me.ofile fd x g) =
      ∑ g ∈ Finset.univ.erase fd, fdTokens (me.ofile g) := by
    apply Finset.sum_congr rfl
    intro g hg
    rw [Function.update_of_ne (Finset.ne_of_mem_erase hg)]
  have hnew : (me.setFd fd x).files =
      fdTokens x + ∑ g ∈ Finset.univ.erase fd, fdTokens (me.ofile g) := by
    unfold files setFd
    dsimp only
    rw [← Finset.add_sum_erase _ _ (Finset.mem_univ fd), hrest, Function.update_self]
  have hold : me.files =
      fdTokens (me.ofile fd) + ∑ g ∈ Finset.univ.erase fd, fdTokens (me.ofile g) :=
    (Finset.add_sum_erase _ _ (Finset.mem_univ fd)).symm
  rw [hnew, hold]
  abel

theorem tokens_open (h : me.ofile fd = none) :
    (me.setFd fd (some f)).tokens n = .fref f ::ₘ me.tokens n := by
  have hfiles := files_setFd me fd (some f)
  rw [h] at hfiles
  change _ + 0 = me.files + {.fref f} at hfiles
  rw [add_zero] at hfiles
  unfold tokens
  rw [hfiles, ← add_assoc, add_comm _ ({.fref f} : Multiset Token), singleton_add]
  rfl

theorem tokens_close (h : me.ofile fd = some f) :
    me.tokens n = .fref f ::ₘ (me.setFd fd none).tokens n := by
  have hfiles := files_setFd me fd none
  rw [h] at hfiles
  change _ + {.fref f} = me.files + 0 at hfiles
  rw [add_zero] at hfiles
  unfold tokens
  rw [← hfiles, ← add_assoc, add_comm _ ({.fref f} : Multiset Token), singleton_add]
  rfl

theorem tokens_cwd (h : me.cwd = some ip) : me.tokens n = .ref (.own ip n) ::ₘ me.files := by
  unfold tokens
  rw [h]
  exact singleton_add _ _

theorem tokens_no_cwd (h : me.cwd = none) : me.tokens n = me.files := by
  unfold tokens
  rw [h]
  exact zero_add _

theorem tokens_eq_zero (hfd : me.ofile = fun _ => none) (hcwd : me.cwd = none) :
    me.tokens n = 0 := by
  rw [tokens_no_cwd hcwd]
  unfold files
  rw [hfd]
  exact Finset.sum_const_zero

theorem hasCwd_tokens (me : Caller) (n : Nat) : HasCwd me (me.tokens n) := by
  intro cwd hc
  refine ⟨n, ?_⟩
  rw [tokens_cwd hc]
  exact mem_cons_self _ _

theorem mem_tokens {a : Token} (h : a ∈ me.tokens n) :
    (∃ ip, me.cwd = some ip ∧ a = .ref (.own ip n)) ∨
      ∃ fd f, me.ofile fd = some f ∧ a = .fref f := by
  rcases mem_add.mp h with h | h
  · left
    cases hc : me.cwd with
    | none =>
      rw [hc] at h
      exact absurd h (notMem_zero _)
    | some ip =>
      rw [hc] at h
      exact ⟨ip, rfl, mem_singleton.mp h⟩
  · right
    obtain ⟨fd, -, h⟩ := Multiset.mem_sum.mp h
    cases hf : me.ofile fd with
    | none =>
      rw [hf] at h
      exact absurd h (notMem_zero _)
    | some f =>
      rw [hf] at h
      exact ⟨fd, f, hf, mem_singleton.mp h⟩

end Caller

namespace Fs

theorem tally_sum {ι : Type} (s : Finset ι) (g : ι → Multiset Token) :
    tally (∑ i ∈ s, g i) = ∑ i ∈ s, tally (g i) := by
  classical
  induction s using Finset.induction with
  | empty => rfl
  | insert i s hi ih => rw [Finset.sum_insert hi, Finset.sum_insert hi, tally_add, ih]

theorem tally_fdTokens (x : Option FilePtr) :
    tally (fdTokens x) = (0, 0, fun f => if x = some f then 1 else 0, 0) := by
  cases x with
  | none => rfl
  | some g =>
    unfold fdTokens tally
    rw [map_singleton, sum_singleton]
    refine Prod.ext rfl (Prod.ext rfl (Prod.ext ?_ rfl))
    funext f
    simp [Token.counts, Pi.single_apply, eq_comm]

theorem tally_cwdTokens (n : Nat) (x : Option InodePtr) :
    tally (cwdTokens n x) = (fun ip => if x = some ip then 1 else 0, 0, 0, 0) := by
  cases x with
  | none => rfl
  | some jp =>
    unfold cwdTokens tally
    rw [map_singleton, sum_singleton]
    refine Prod.ext ?_ rfl
    funext ip
    simp [Token.counts, Handle.counts, Pi.single_apply, eq_comm]

theorem tally_tokens (me : Caller) (n : Nat) : tally (me.tokens n) = inProc me := by
  unfold Caller.tokens Caller.files inProc
  rw [tally_add, tally_sum, tally_cwdTokens]
  simp only [tally_fdTokens]
  refine Prod.ext ?_ (Prod.ext ?_ (Prod.ext ?_ ?_))
  · simp [Prod.fst_sum]
  · simp [Prod.fst_sum, Prod.snd_sum]
  · funext f
    simp [Prod.fst_sum, Prod.snd_sum, Caller.slots]
  · simp [Prod.snd_sum]

theorem HasCwd.cons {me : Caller} {T : Multiset Token} (h : HasCwd me T) (a : Token) :
    HasCwd me (a ::ₘ T) := by
  intro cwd hc
  obtain ⟨n, hn⟩ := h cwd hc
  exact ⟨n, mem_cons_of_mem hn⟩

open Prog

variable {α : Type} {T R : Multiset Token} {me : Caller} {r : Role} {N : Finset Nat}
  {k n m c : Nat} {l : Ledger} {ip dp : InodePtr} {f : FilePtr} {a : Token} {path : List Byte}
  {Q : Int → Holding → Prop}

def Rest (r : Role) (H : Holding) : Prop := ∃ me n, H = ⟨Caller.tokens me n, ⟨me, .outside, r⟩⟩

theorem rest_self : Rest r ⟨me.tokens c, ⟨me, .outside, r⟩⟩ := ⟨me, c, rfl⟩

def Rests (me : Caller) (c : Nat) (r : Role) (p : Program Int) : Prop :=
  p.Safe wp ⟨me.tokens c, ⟨me, .outside, r⟩⟩ fun _ => Rest r

theorem room_of_subset (h : N ⊆ {m, n}) (hk : k ≤ 6) : Room N k := by
  have hcard := Nat.le_trans (Finset.card_le_card h) Finset.card_le_two
  unfold Room MAXOPBLOCKS
  omega

theorem abort_safe (hl : l ≠ .outside) (hq : Q (-1) ⟨T, ⟨me, .outside, r⟩⟩) :
    abort.Safe wp ⟨T, ⟨me, l, r⟩⟩ Q := by
  exact endOp_safe hl (safe_pure hq)

theorem bad_safe (ht : T = .lock (.own ip n) .clean ::ₘ R) (hq : Q (-1) ⟨R, ⟨me, .outside, r⟩⟩) :
    (iunlockput ip >>= fun _ => abort).Safe wp ⟨T, ⟨me, .normal N k, r⟩⟩ Q :=
  seq_safe (iunlockput_safe ht (abort_safe nofun hq))

theorem setCwd_safe {x : Option InodePtr} {g : Unit → Program Int}
    (hq : (g ()).Safe wp ⟨T, ⟨{ me with cwd := x }, l, r⟩⟩ Q) :
    (lift (.setCwd x) >>= g).Safe wp ⟨T, ⟨me, l, r⟩⟩ Q := hq

/-! ## Descriptors -/

theorem fdalloc_safe {Q : Option (Fin NOFILE) → Holding → Prop} (hmode : r.mode ≠ .still)
    (hnone : Q none ⟨T, ⟨me, l, r⟩⟩)
    (hsome : ∀ fd, me.ofile fd = none → Q (some fd) ⟨T, ⟨me.setFd fd (some f), l, r⟩⟩) :
    (fdalloc f).Safe wp ⟨T, ⟨me, l, r⟩⟩ Q := by
  refine proc_safe ?_
  cases hfd : (List.finRange NOFILE).find? fun fd => (me.ofile fd).isNone with
  | none => exact safe_pure hnone
  | some fd =>
    have hfree : me.ofile fd = none := by simpa using List.find?_some hfd
    exact safe_call ⟨hmode, hsome fd hfree⟩

variable {fd : Int}

theorem argfd_safe {Q : Option (Fin NOFILE × FilePtr) → Holding → Prop}
    (hnone : Q none ⟨T, ⟨me, l, r⟩⟩)
    (hsome : ∀ fd f, me.ofile fd = some f → Q (some (fd, f)) ⟨T, ⟨me, l, r⟩⟩) :
    (argfd fd).Safe wp ⟨T, ⟨me, l, r⟩⟩ Q := by
  refine proc_safe ?_
  split
  · next hlt =>
    refine safe_pure ?_
    cases hf : me.ofile ⟨fd.toNat, hlt.2⟩ with
    | none => exact hnone
    | some f => exact hsome _ f hf
  · exact safe_pure hnone

theorem withFile_safe {g : Option (Fin NOFILE × FilePtr) → Program Int}
    (hnone : g none = Pure.pure (-1))
    (hsome : ∀ fd f R, (g (some (fd, f))).Safe wp ⟨.fref f ::ₘ R, ⟨me, .outside, r⟩⟩
      fun _ H => H = ⟨.fref f ::ₘ R, ⟨me, .outside, r⟩⟩) :
    Rests me c r (argfd fd >>= g) := by
  refine seq_safe (argfd_safe ?_ ?_)
  · rw [hnone]
    exact safe_pure rest_self
  · intro fd f hf
    rw [Caller.tokens_close hf]
    refine (hsome fd f _).mono wp_mono ?_
    rintro y H rfl
    exact ⟨me, c, by rw [Caller.tokens_close hf]⟩

theorem sysRead_safe {arg : Option Word} : Rests me c r (sysRead fd arg) := by
  refine withFile_safe rfl fun fd f R => ?_
  cases arg with
  | none => exact safe_pure rfl
  | some n => exact fileread_safe rfl fun _ => rfl

theorem sysWrite_safe {arg : Option ((Nat → Byte) × Int)} :
    Rests me c r (sysWrite fd arg) := by
  refine withFile_safe rfl fun fd f R => ?_
  cases arg with
  | none => exact safe_pure rfl
  | some x => exact filewrite_safe rfl fun _ => rfl

theorem sysFstat_safe {arg : Option Unit} : Rests me c r (sysFstat fd arg) := by
  refine withFile_safe rfl fun fd f R => ?_
  cases arg with
  | none => exact safe_pure rfl
  | some u => exact seq_safe (filestat_safe rfl fun _ => safe_pure rfl)

theorem sysDup_safe (hmode : r.mode ≠ .still) : Rests me c r (sysDup fd) := by
  refine seq_safe (argfd_safe ?_ ?_)
  · exact safe_pure rest_self
  · intro fd f hf
    refine seq_safe (fdalloc_safe hmode ?_ ?_)
    · exact safe_pure rest_self
    · intro fd' hfd'
      refine safe_call ⟨hmode, ?_, safe_pure ⟨me.setFd fd' (some f), c, ?_⟩⟩
      · rw [Caller.tokens_close hf]
        exact mem_cons_self _ _
      · rw [Caller.tokens_open hfd']

theorem sysClose_safe (hmode : r.mode ≠ .still) : Rests me c r (sysClose fd) := by
  refine seq_safe (argfd_safe ?_ ?_)
  · exact safe_pure rest_self
  · intro fd f hf
    refine safe_call ⟨hmode, seq_safe ?_⟩
    exact fileclose_safe hmode (Caller.tokens_close hf) (safe_pure ⟨me.setFd fd none, c, rfl⟩)

/-! ## Pipes -/

theorem pipealloc_safe {Q : Option (FilePtr × FilePtr) → Holding → Prop} (hmode : r.mode ≠ .still)
    (hnone : Q none ⟨T, ⟨me, .outside, r⟩⟩)
    (hsome : ∀ f0 f1, Q (some (f0, f1)) ⟨.fref f1 ::ₘ .fref f0 ::ₘ T, ⟨me, .outside, r⟩⟩) :
    pipealloc.Safe wp ⟨T, ⟨me, .outside, r⟩⟩ Q := by
  refine safe_call ⟨hmode, safe_pure hnone, fun f0 => ?_⟩
  refine safe_call ⟨hmode, ?_, fun f1 => ?_⟩
  · exact seq_safe (fileclose_new_safe hmode rfl (safe_pure hnone))
  · refine safe_call ⟨hmode, ?_, fun p => ?_⟩
    · refine seq_safe (fileclose_new_safe hmode (cons_swap ..) ?_)
      exact seq_safe (fileclose_new_safe hmode rfl (safe_pure hnone))
    · refine safe_call ⟨hmode, .pend p true ::ₘ .new f1 ::ₘ T, ?_, ?_⟩
      · simp only [← singleton_add]
        abel
      · refine safe_call ⟨hmode, .fref f0 ::ₘ T, ?_, safe_pure (hsome f0 f1)⟩
        simp only [← singleton_add]
        abel

theorem sysPipe_safe {arg : Option Unit} (hmode : r.mode ≠ .still) :
    Rests me c r (sysPipe arg) := by
  cases arg with
  | none => exact safe_pure rest_self
  | some u =>
    refine seq_safe (pipealloc_safe hmode (safe_pure rest_self) fun rf wf => ?_)
    refine seq_safe (fdalloc_safe hmode ?_ fun fd0 hfd0 => ?_)
    · refine seq_safe (fileclose_safe hmode (cons_swap ..) ?_)
      exact seq_safe (fileclose_safe hmode rfl (safe_pure rest_self))
    · refine seq_safe (fdalloc_safe hmode ?_ fun fd1 hfd1 => safe_pure ?_)
      · refine safe_call ⟨hmode, ?_⟩
        refine seq_safe (fileclose_safe hmode (cons_swap ..) ?_)
        refine seq_safe (fileclose_safe hmode rfl (safe_pure ⟨me, c, ?_⟩))
        -- the descriptor is taken back
        have hback : Function.update (Function.update me.ofile fd0 (some rf)) fd0 none =
            me.ofile := by
          rw [Function.update_idem, ← hfd0, Function.update_eq_self]
        unfold Caller.setFd
        dsimp only
        rw [hback]
      · refine ⟨(me.setFd fd0 (some rf)).setFd fd1 (some wf), c, ?_⟩
        rw [Caller.tokens_open hfd1, Caller.tokens_open hfd0]

/-! ## Links -/

theorem linkBad_safe (hr : a.isRef = true) (ha : a.handle = some (.own ip n))
    (hroom : Room (insert n N) k) (hq : Q (-1) ⟨R, ⟨me, .outside, r⟩⟩) :
    (linkBad ip).Safe wp ⟨a ::ₘ R, ⟨me, .normal N k, r⟩⟩ Q := by
  refine ilock_safe (h := .own ip n) rfl hr ha ?_
  refine seq_safe (addLink_safe (h := .own ip n) rfl hroom ?_)
  exact seq_safe (iunlockput_safe rfl (abort_safe nofun hq))

theorem sysLink_safe {args : Option (List Byte × List Byte)} : Rests me c r (sysLink args) := by
  cases args with
  | none => exact safe_pure rest_self
  | some args =>
    refine beginOp_safe (seq_safe (namei_safe (me.hasCwd_tokens c) (abort_safe nofun rest_self) ?_))
    intro ip n a hr ha
    refine ilock_safe (h := .own ip n) rfl hr ha ?_
    refine inode_safe (h := .own ip n) rfl rfl fun i => ?_
    split
    · exact bad_safe rfl rest_self
    · refine seq_safe (addLink_safe (h := .own ip n) rfl
        (room_of_subset (m := n) (n := n) (by simp) (by omega)) ?_)
      refine iunlock_safe (h := .own ip n) rfl ?_
      refine seq_safe (nameiparent_safe ((me.hasCwd_tokens c).cons _) ?_ ?_)
      · exact linkBad_safe rfl rfl (room_of_subset (m := n) (n := n) (by simp) (by omega)) rest_self
      · intro dp m name b hr' hb
        have hroom : ∀ {N k}, N ⊆ {n, m} → k ≤ 6 → Room N k := room_of_subset
        refine ilock_safe (h := .own dp m) rfl hr' hb ?_
        refine inode_safe (h := .own dp m) rfl rfl fun d => ?_
        refine safe_call ⟨.own ip n, ⟨_, mem_cons_of_mem (mem_cons_self _ _),
          rfl⟩, rfl, fun i _ => ?_⟩
        dsimp only
        split
        · refine seq_safe (iunlockput_safe rfl ?_)
          exact linkBad_safe rfl rfl (hroom (by simp) (by omega)) rest_self
        · refine seq_safe (dirlink_safe (h := .own dp m) (mem_cons_self _ _)
            (hroom (by simp [Finset.insert_subset_iff]) (by omega)) ?_ ?_)
          · rw [if_neg Bool.false_ne_true]
            refine seq_safe (iunlockput_safe rfl ?_)
            exact linkBad_safe rfl rfl (hroom (by simp) (by omega)) rest_self
          · rw [if_pos rfl]
            refine seq_safe (iunlockput_safe rfl ?_)
            refine seq_safe (iput_safe rfl rfl rfl ?_)
            exact endOp_safe nofun (safe_pure rest_self)

theorem unlinkEntry_safe {off : Nat} {type : FileType} (hoff : off % DIRENTSIZE = 0)
    (hq : Q 0 ⟨R, ⟨me, .outside, r⟩⟩) :
    (unlinkEntry dp ip off type).Safe wp
      ⟨.lock (.own ip n) .clean ::ₘ .lock (.own dp m) .clean ::ₘ R, ⟨me, .normal ∅ 0, r⟩⟩ Q := by
  have hroom : ∀ {N k}, N ⊆ {n, m} → k ≤ 6 → Room N k := room_of_subset
  -- the rest is the same for a directory
  have hend : ∀ {N}, insert n N ⊆ {n, m} → (do
      iunlockput dp
      addLink ip (-1)
      iunlockput ip
      lift .endOp
      Pure.pure 0 : Program Int).Safe wp
      ⟨.lock (.own ip n) .clean ::ₘ .lock (.own dp m) .clean ::ₘ R, ⟨me, .normal N 2, r⟩⟩ Q := by
    intro N hN
    refine seq_safe (iunlockput_safe (cons_swap ..) ?_)
    refine seq_safe (addLink_safe (h := .own ip n) rfl (hroom hN (by omega)) ?_)
    refine seq_safe (iunlockput_safe rfl ?_)
    exact endOp_safe nofun (safe_pure hq)
  refine seq_safe (writeDirent_safe (h := .own dp m)
    (mem_cons_of_mem (mem_cons_self _ _)) hoff
    (hroom (by simp) (by omega)) (by decide) ?_)
  split
  · refine seq_safe (addLink_safe (h := .own dp m) (cons_swap ..)
      (hroom (by simp) (by omega)) ?_)
    exact hend (by simp)
  · exact hend (by simp)

theorem sysUnlink_safe {arg : Option (List Byte)} : Rests me c r (sysUnlink arg) := by
  cases arg with
  | none => exact safe_pure rest_self
  | some path =>
    refine beginOp_safe (seq_safe (nameiparent_safe (me.hasCwd_tokens c)
      (abort_safe nofun rest_self) ?_))
    intro dp m name a hr ha
    refine ilock_safe (h := .own dp m) rfl hr ha ?_
    split
    · exact bad_safe rfl rest_self
    · refine seq_safe (dirlookup_safe (h := .own dp m) (mem_cons_self _ _)
        (bad_safe rfl rest_self) ?_)
      intro ip n off hoff
      refine ilock_safe (h := .own ip n) rfl rfl rfl ?_
      refine inode_safe (h := .own ip n) rfl rfl fun i => ?_
      split
      · exact panic_bind_safe (by decide)
      · split
        · refine safe_call ⟨.own ip n, mem_cons_self _ _, rfl, fun empty => ?_⟩
          dsimp only
          split
          · exact unlinkEntry_safe hoff rest_self
          · exact seq_safe (iunlockput_safe rfl (bad_safe rfl rest_self))
        · exact unlinkEntry_safe hoff rest_self

/-! ## New inodes -/

theorem linkDots_safe {Q : Unit → Holding → Prop}
    (hq : Q () ⟨.lock (.own ip n) .clean ::ₘ .lock (.own dp m) .clean ::ₘ R,
      ⟨me, .normal {n, m} 4, r⟩⟩) :
    (linkDots dp ip).Safe wp
      ⟨.lock (.own ip n) .clean ::ₘ .lock (.own dp m) .clean ::ₘ R, ⟨me, .normal {n} 0, r⟩⟩ Q := by
  have hroom : ∀ {N k}, N ⊆ {n, m} → k ≤ 6 → Room N k := room_of_subset
  have hset : (insert n {n, m} : Finset Nat) = {n, m} := by simp
  have hmem : .lock (.own ip n) .clean ∈
      (Token.lock (.own ip n) .clean ::ₘ .lock (.own dp m) .clean ::ₘ R : Multiset Token) :=
    mem_cons_self _ _
  refine seq_safe (addLink_safe (h := .own dp m) (cons_swap ..)
    (hroom (by simp [Finset.insert_subset_iff]) (by omega)) ?_)
  rw [show (insert (Handle.own dp m).inum {n} : Finset Nat) = {n, m} from Finset.pair_comm m n]
  refine safe_call ⟨.own ip n, ⟨_, hmem, rfl⟩, rfl, fun i _ => ?_⟩
  refine safe_call ⟨.own dp m, ⟨_, mem_cons_of_mem (mem_cons_self _ _), rfl⟩,
    rfl, fun d _ => ?_⟩
  refine seq_safe (dirlink_safe (h := .own ip n) hmem
    (hroom (by simp) (by omega)) (panic_safe (by decide)) ?_)
  rw [if_pos rfl]
  refine seq_safe (dirlink_safe (h := .own ip n) hmem
    (hroom (by simp) (by omega)) (panic_safe (by decide)) ?_)
  rw [if_pos rfl]
  refine safe_pure ?_
  simpa [hset] using hq

theorem createNew_safe {Q : Option InodePtr → Holding → Prop} {name : List Byte} {type : FileType}
    {major minor : BitVec 16} (htype : type ≠ .free)
    (hq : ∀ ip n N k, Q (some ip) ⟨.lock (.own ip n) .clean ::ₘ R, ⟨me, .normal N k, r⟩⟩) :
    (createNew dp name type major minor).Safe wp
      ⟨.lock (.own dp m) .clean ::ₘ R, ⟨me, .normal ∅ 0, r⟩⟩ Q := by
  refine safe_call ⟨.own dp m, ⟨_, mem_cons_self _ _, rfl⟩, rfl, fun d hdev => ?_⟩
  refine seq_safe (safe_call ⟨htype, ∅, 0, rfl, fun n => ⟨?_, ?_⟩⟩)
  · exact room_of_subset (m := n) (n := n) (by simp) (by omega)
  have hroom : ∀ {N k}, N ⊆ {n, m} → k ≤ 6 → Room N k := room_of_subset
  refine safe_lift ⟨hdev, fun ip => ?_⟩
  refine safe_call ⟨_, .own ip n, _, ⟨rfl, rfl, rfl⟩, rfl, Or.inr ⟨_, rfl, ?_⟩⟩
  refine safe_call ⟨.own ip n, _, rfl, Or.inl ⟨nofun, rfl, ?_⟩⟩
  refine safe_call ⟨.own ip n, _, _, _, rfl, Or.inl ⟨rfl, rfl,
    hroom (by simp) (by omega), ?_⟩⟩
  -- the rest is the same for a directory
  have hend : ∀ {N k}, insert m N ⊆ {n, m} → k ≤ 4 → (do
      let i ← lift (.inode ip)
      if ← dirlink dp name i.inum then
        iunlockput dp
        Pure.pure (some ip)
      else
        panic "create: dirlink"
        Pure.pure none : Program (Option InodePtr)).Safe wp
      ⟨.lock (.own ip n) .clean ::ₘ .lock (.own dp m) .clean ::ₘ R, ⟨me, .normal N k, r⟩⟩ Q := by
    intro N k hN hk
    refine inode_safe (h := .own ip n) rfl rfl fun i => ?_
    refine seq_safe (dirlink_safe (h := .own dp m)
      (mem_cons_of_mem (mem_cons_self _ _)) (hroom hN (by omega))
      (panic_bind_safe (by decide)) ?_)
    rw [if_pos rfl]
    exact seq_safe (iunlockput_safe (cons_swap ..) (safe_pure (hq ..)))
  split
  · refine seq_safe ?_
    have hset : (insert (Handle.own ip n).inum (insert n ∅) : Finset Nat) = {n} := by simp
    rw [hset]
    exact linkDots_safe (hend (by simp) (Nat.le_refl _))
  · exact hend (by simp [Finset.insert_subset_iff]) (Nat.zero_le _)

theorem create_safe {Q : Option InodePtr → Holding → Prop} {type : FileType}
    {major minor : BitVec 16} (htype : type ≠ .free) (hcwd : HasCwd me T)
    (hnone : Q none ⟨T, ⟨me, .normal ∅ 0, r⟩⟩)
    (hsome : ∀ ip n N k, Q (some ip) ⟨.lock (.own ip n) .clean ::ₘ T, ⟨me, .normal N k, r⟩⟩) :
    (create path type major minor).Safe wp ⟨T, ⟨me, .normal ∅ 0, r⟩⟩ Q := by
  refine seq_safe (nameiparent_safe hcwd (safe_pure hnone) ?_)
  intro dp m name a hr ha
  refine ilock_safe (h := .own dp m) rfl hr ha ?_
  refine seq_safe (dirlookup_safe (h := .own dp m) (mem_cons_self _ _)
    (createNew_safe htype hsome) ?_)
  intro ip n off _
  refine seq_safe (iunlockput_safe (cons_swap ..) ?_)
  refine ilock_safe (h := .own ip n) rfl rfl rfl ?_
  refine inode_safe (h := .own ip n) rfl rfl fun i => ?_
  split
  · exact safe_pure (hsome ..)
  · exact seq_safe (iunlockput_safe rfl (safe_pure hnone))

theorem openInode_safe {omode : Word} (hmode : r.mode ≠ .still) :
    (openInode ip omode).Safe wp
      ⟨.lock (.own ip n) .clean ::ₘ me.tokens c, ⟨me, .normal N k, r⟩⟩ fun _ => Rest r := by
  refine safe_call ⟨hmode, ?_, fun f => ?_⟩
  · exact bad_safe rfl rest_self
  · refine seq_safe (fdalloc_safe hmode ?_ fun fd hfd => ?_)
    · refine seq_safe (fileclose_new_safe hmode rfl ?_)
      exact bad_safe rfl rest_self
    · refine iunlock_safe (h := .own ip n) (cons_swap ..) (endOp_safe nofun ?_)
      refine safe_call ⟨n, me.tokens c, cons_swap .., safe_pure ?_⟩
      exact ⟨me.setFd fd (some f), c, by rw [Caller.tokens_open hfd]⟩

theorem sysOpen_safe {args : Option (List Byte × Word)} (hmode : r.mode ≠ .still) :
    Rests me c r (sysOpen args) := by
  cases args with
  | none => exact safe_pure rest_self
  | some args =>
    refine beginOp_safe ?_
    split
    · refine seq_safe (create_safe nofun (me.hasCwd_tokens c) (abort_safe nofun rest_self) ?_)
      exact fun ip n N k => openInode_safe hmode
    · refine seq_safe (namei_safe (me.hasCwd_tokens c) (abort_safe nofun rest_self) ?_)
      intro ip n a hr ha
      refine ilock_safe (h := .own ip n) rfl hr ha ?_
      refine inode_safe (h := .own ip n) rfl rfl fun i => ?_
      split
      · exact bad_safe rfl rest_self
      · exact openInode_safe hmode

theorem make_safe {args : Option (List Byte × BitVec 16 × BitVec 16)} {type : FileType}
    (htype : type ≠ .free) :
    Rests me c r (make args type) := by
  refine beginOp_safe ?_
  cases args with
  | none => exact abort_safe nofun rest_self
  | some args =>
    refine seq_safe (create_safe htype (me.hasCwd_tokens c) (abort_safe nofun rest_self) ?_)
    intro ip n N k
    exact seq_safe (iunlockput_safe rfl (endOp_safe nofun (safe_pure rest_self)))

/-! ## Other system calls -/

theorem sysChdir_safe {arg : Option (List Byte)} : Rests me c r (sysChdir arg) := by
  refine beginOp_safe ?_
  cases arg with
  | none => exact abort_safe nofun rest_self
  | some path =>
    refine seq_safe (namei_safe (me.hasCwd_tokens c) (abort_safe nofun rest_self) ?_)
    intro ip n a hr ha
    refine ilock_safe (h := .own ip n) rfl hr ha ?_
    refine inode_safe (h := .own ip n) rfl rfl fun i => ?_
    split
    · exact bad_safe rfl rest_self
    · refine iunlock_safe (h := .own ip n) rfl (proc_safe ?_)
      cases hc : me.cwd with
      | none => exact safe_call nullDeref_harmless
      | some cwd =>
        rw [Caller.tokens_cwd hc]
        refine seq_safe (iput_safe (cons_swap ..) rfl rfl ?_)
        have hrest' : Rest r ⟨.ref (.own ip n) ::ₘ me.files,
            ⟨{ me with cwd := some ip }, .outside, r⟩⟩ := ⟨{ me with cwd := some ip }, n, rfl⟩
        exact endOp_safe nofun (setCwd_safe (safe_pure hrest'))

theorem change_safe {max : Int} {g : Int → Patch} {args : Option (List Byte × Int)}
    (hg : ∀ x, g x ≠ .free) :
    Rests me c r (change max g args) := by
  unfold change
  cases args with
  | none => exact safe_pure rest_self
  | some args =>
    dsimp only
    split
    · exact safe_pure rest_self
    · refine beginOp_safe (seq_safe (namei_safe (me.hasCwd_tokens c)
        (abort_safe nofun rest_self) ?_))
      intro ip n a hr ha
      refine ilock_safe (h := .own ip n) rfl hr ha ?_
      refine safe_call ⟨.own ip n, _, rfl, Or.inl ⟨hg _, rfl, ?_⟩⟩
      refine safe_call ⟨.own ip n, _, _, _, rfl, Or.inl ⟨rfl, rfl, ?_, ?_⟩⟩
      · exact room_of_subset (m := n) (n := n) (by simp) (by omega)
      · refine iunlock_safe (h := .own ip n) rfl ?_
        refine seq_safe (iput_safe rfl rfl rfl ?_)
        exact endOp_safe nofun (safe_pure rest_self)

/-! ## `exec` -/

section Exec

variable {h : Handle} {v : View} {Q : Bool → Holding → Prop}

theorem loaduvm_safe (ht : T = .lock h .clean ::ₘ R) (hq : ∀ b, Q b ⟨T, v⟩) (turns : Nat) :
    ∀ off sz, (loaduvm h.ip turns off sz).Safe wp ⟨T, v⟩ Q := by
  induction turns with
  | zero => exact fun off sz => safe_pure (hq true)
  | succ turns ih =>
    intro off sz
    unfold loaduvm
    split
    · exact safe_pure (hq true)
    · refine seq_safe (readi_safe ht fun x => ?_)
      cases x with
      | none => exact safe_pure (hq false)
      | some x =>
        dsimp only
        split
        · exact ih _ _
        · exact safe_pure (hq false)

theorem loadSegment_safe {off : Word} (ht : T = .lock h .clean ::ₘ R) (hq : ∀ b, Q b ⟨T, v⟩) :
    (loadSegment h.ip off).Safe wp ⟨T, v⟩ Q := by
  refine seq_safe (readi_safe ht fun x => ?_)
  cases x with
  | none => exact safe_pure (hq false)
  | some x =>
    dsimp only
    split
    · exact safe_pure (hq false)
    · split
      · exact safe_pure (hq true)
      · split
        · exact safe_pure (hq false)
        · refine safe_call fun got => ?_
          dsimp only
          split
          · exact loaduvm_safe ht hq ..
          · exact safe_pure (hq false)

theorem loadSegments_safe (ht : T = .lock h .clean ::ₘ R) (hq : ∀ b, Q b ⟨T, v⟩) (phnum : Nat) :
    ∀ off, (loadSegments h.ip phnum off).Safe wp ⟨T, v⟩ Q := by
  induction phnum with
  | zero => exact fun off => safe_pure (hq true)
  | succ phnum ih =>
    intro off
    refine seq_safe (loadSegment_safe ht fun loaded => ?_)
    split
    · exact ih _
    · exact safe_pure (hq false)

theorem loadProgram_safe (ht : T = .lock h .clean ::ₘ R) (hq : ∀ b, Q b ⟨T, v⟩) :
    (loadProgram h.ip).Safe wp ⟨T, v⟩ Q := by
  refine seq_safe (readi_safe ht fun x => ?_)
  refine safe_call fun junk => ?_
  -- whether the header was read or not, it is some text
  have hload : ∀ elf : Nat → Byte, (if wordAt elf 0 ≠ ELF_MAGIC then Pure.pure false else do
      if ← lift .memory then loadSegments h.ip (elfPhnum elf) (elfPhoff elf)
      else Pure.pure false : Program Bool).Safe wp ⟨T, v⟩ Q := by
    intro elf
    split
    · exact safe_pure (hq false)
    · refine safe_call fun got => ?_
      dsimp only
      split
      · exact loadSegments_safe ht hq ..
      · exact safe_pure (hq false)
  dsimp only
  split
  · exact safe_pure (hq false)
  · exact hload _

end Exec

theorem exec_safe : Rests me c r (exec path) := by
  refine beginOp_safe (seq_safe (namei_safe (me.hasCwd_tokens c) (abort_safe nofun rest_self) ?_))
  intro ip n a hr ha
  refine ilock_safe (h := .own ip n) rfl hr ha ?_
  refine inode_safe (h := .own ip n) rfl rfl fun i => ?_
  refine proc_safe ?_
  split
  · refine seq_safe (loadProgram_safe (h := .own ip n) rfl fun loaded => ?_)
    exact seq_safe (iunlockput_safe rfl (endOp_safe nofun (safe_pure rest_self)))
  · exact bad_safe rfl rest_self

/-! ## `fork` and `exit` -/

/-- What a process has when it runs no system call: what is in its `struct proc` and, after
`fork`, in that of the new process. -/
structure AtRest (H : Holding) : Prop where
  ledger : H.view.ledger = .outside
  toks : ∃ n m, H.toks = H.view.me.tokens n + H.view.role.np.elim 0 (Caller.tokens · m)
  gone : H.view.role.mode = .exit → H.view.me.ofile = (fun _ => none) ∧ H.view.me.cwd = none

theorem Rest.atRest {H : Holding} (h : Rest r H) (hnp : r.np = none) (hmode : r.mode ≠ .exit) :
    AtRest H := by
  obtain ⟨me, n, rfl⟩ := h
  refine ⟨rfl, ⟨n, 0, ?_⟩, fun he => absurd he hmode⟩
  rw [hnp]
  exact (add_zero _).symm

theorem dupAll_safe {Q : Unit → Holding → Prop} {fds : List (Fin NOFILE)} (hnodup : fds.Nodup) :
    ∀ {np : Caller}, (∀ fd ∈ fds, np.ofile fd = none) →
      (∀ np' : Caller, np'.cwd = np.cwd → Q () ⟨me.tokens c + np'.tokens m,
        ⟨me, .outside, ⟨.fork, some np'⟩⟩⟩) →
      (dupAll fds).Safe wp ⟨me.tokens c + np.tokens m, ⟨me, .outside, ⟨.fork, some np⟩⟩⟩ Q := by
  induction fds with
  | nil => exact fun _ hq => safe_pure (hq _ rfl)
  | cons fd fds ih =>
    intro np hfree hq
    obtain ⟨hfd, hnodup⟩ := List.nodup_cons.1 hnodup
    have hrest : ∀ g ∈ fds, np.ofile g = none :=
      fun g hg => hfree g (List.mem_cons_of_mem _ hg)
    refine proc_safe ?_
    cases hf : me.ofile fd with
    | none => exact ih hnodup hrest hq
    | some f =>
      have hmem : .fref f ∈ me.tokens c + np.tokens m := by
        rw [Caller.tokens_close hf]
        exact mem_add.2 (Or.inl (mem_cons_self _ _))
      refine safe_call ⟨nofun, hmem, ?_⟩
      refine safe_call ?_
      have hnp : .fref f ::ₘ (me.tokens c + np.tokens m) =
          me.tokens c + (np.setFd fd (some f)).tokens m := by
        rw [Caller.tokens_open (hfree fd List.mem_cons_self), add_cons]
      rw [hnp]
      refine ih hnodup (fun g hg => ?_) hq
      have hne : g ≠ fd := by
        intro he
        subst he
        exact hfd hg
      exact (Function.update_of_ne hne ..).trans (hrest g hg)

theorem fork_safe {slot : Caller} {pid : Int} (hfd : slot.ofile = fun _ => none)
    (hcwd : slot.cwd = none) :
    (fork slot pid).Safe wp ⟨me.tokens c, ⟨me, .outside, ⟨.fork, none⟩⟩⟩ fun _ => AtRest := by
  refine safe_call ⟨rfl, ?_, ?_⟩
  · refine safe_pure ⟨rfl, ⟨c, 0, (add_zero _).symm⟩, nofun⟩
  · have hslot : slot.tokens c = 0 := Caller.tokens_eq_zero hfd hcwd
    dsimp only
    rw [if_pos rfl]
    refine seq_safe ?_
    have hnone : me.tokens c = me.tokens c +
        ({ slot with uid := me.uid, gid := me.gid } : Caller).tokens c := by
      exact (congrArg (me.tokens c + ·) hslot).trans (add_zero _) |>.symm
    rw [hnone]
    refine dupAll_safe (List.nodup_finRange _) (fun fd _ => congrFun hfd fd) fun np hnp => ?_
    refine proc_safe ?_
    cases hc : me.cwd with
    | none => exact safe_call nullDeref_harmless
    | some cwd =>
      have hmem : .ref (.own cwd c) ∈ me.tokens c + np.tokens c := by
        rw [Caller.tokens_cwd hc]
        exact mem_add.2 (Or.inl (mem_cons_self _ _))
      have hrest : AtRest ⟨.ref (.own cwd c) ::ₘ (me.tokens c + np.tokens c),
          ⟨me, .outside, ⟨.fork, some { np with cwd := some cwd }⟩⟩⟩ := by
        refine ⟨rfl, ⟨c, c, ?_⟩, nofun⟩
        rw [Caller.tokens_no_cwd (hnp.trans hcwd)]
        exact (add_cons _ _ _).symm
      refine safe_call ⟨c, hmem, safe_call ?_⟩
      exact hrest

theorem closeAll_safe {Q : Unit → Holding → Prop} (hmode : r.mode ≠ .still)
    {fds : List (Fin NOFILE)} : ∀ {me : Caller},
      (∀ me' : Caller, me'.cwd = me.cwd →
        (∀ fd, me'.ofile fd = if fd ∈ fds then none else me.ofile fd) →
        Q () ⟨me'.tokens c, ⟨me', .outside, r⟩⟩) →
      (closeAll fds).Safe wp ⟨me.tokens c, ⟨me, .outside, r⟩⟩ Q := by
  induction fds with
  | nil => exact fun hq => safe_pure (hq _ rfl fun fd => (if_neg List.not_mem_nil).symm)
  | cons fd fds ih =>
    intro me hq
    refine proc_safe ?_
    cases hf : me.ofile fd with
    | none =>
      refine ih fun me' hcwd hfds => hq me' hcwd fun g => ?_
      rw [hfds g]
      by_cases hg : g = fd
      · subst hg
        simp [hf]
      · simp [hg]
    | some f =>
      rw [Caller.tokens_close hf]
      refine seq_safe (fileclose_safe hmode rfl ?_)
      refine safe_call ⟨hmode, ih fun me' hcwd hfds => hq me' hcwd fun g => ?_⟩
      rw [hfds g]
      by_cases hg : g = fd
      · subst hg
        simp [Caller.setFd]
      · simp [hg, Caller.setFd]

theorem exit_safe :
    exit.Safe wp ⟨me.tokens c, ⟨me, .outside, ⟨.exit, none⟩⟩⟩ fun _ => AtRest := by
  refine seq_safe (closeAll_safe (nofun : Mode.exit ≠ .still) fun me' hcwd hfds => ?_)
  have hnone : me'.ofile = fun _ => none := by
    funext fd
    rw [hfds fd, if_pos (List.mem_finRange fd)]
  refine beginOp_safe (proc_safe ?_)
  cases hc : me'.cwd with
  | none => exact safe_call nullDeref_harmless
  | some cwd =>
    rw [Caller.tokens_cwd hc]
    have hrest : AtRest ⟨me'.files, ⟨{ me' with cwd := none }, .outside, ⟨.exit, none⟩⟩⟩ :=
      ⟨rfl, ⟨0, 0, ((add_zero _).trans (zero_add _)).symm⟩, fun _ => ⟨hnone, rfl⟩⟩
    refine seq_safe (iput_safe rfl rfl rfl (endOp_safe nofun ?_))
    exact setCwd_safe (safe_pure hrest)

/-! ## All calls -/

def Request.mode : Request → Mode
  | dup _ | pipe _ | close _ | «open» _ => .files
  | exit => .exit
  | _ => .still

/-- Every system call on files is safe. -/
theorem Request.program_safe (q : Request) :
    q.program.Safe wp ⟨me.tokens c, ⟨me, .outside, ⟨q.mode, none⟩⟩⟩ fun _ => AtRest := by
  have hmono : ∀ {p : Program Int} {m : Mode}, m ≠ .exit →
      p.Safe wp ⟨me.tokens c, ⟨me, .outside, ⟨m, none⟩⟩⟩ (fun _ => Rest ⟨m, none⟩) →
      p.Safe wp ⟨me.tokens c, ⟨me, .outside, ⟨m, none⟩⟩⟩ fun _ => AtRest :=
    fun hm hp => hp.mono wp_mono fun _ _ h => h.atRest rfl hm
  cases q with
  | dup fd => exact hmono nofun (sysDup_safe nofun)
  | read fd arg => exact hmono nofun sysRead_safe
  | fstat fd arg => exact hmono nofun sysFstat_safe
  | pipe arg => exact hmono nofun (sysPipe_safe nofun)
  | write fd arg => exact hmono nofun sysWrite_safe
  | close fd => exact hmono nofun (sysClose_safe nofun)
  | link args => exact hmono nofun sysLink_safe
  | unlink arg => exact hmono nofun sysUnlink_safe
  | «open» args => exact hmono nofun (sysOpen_safe nofun)
  | mkdir _ | mknod _ => exact hmono nofun (make_safe nofun)
  | chdir arg => exact hmono nofun sysChdir_safe
  | exec path => exact hmono nofun exec_safe
  | exit => exact exit_safe
  | _ => exact hmono nofun (change_safe nofun)

end Fs

end Xv6
