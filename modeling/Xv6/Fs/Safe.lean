import Xv6.Fs.Sound

/-!
# The system calls are safe

Every function of `fs.c`, `file.c`, `sysfile.c` and `exec.c` that is modelled gets the tokens
its calls need, gives back those it took, and keeps to the ledger of its transaction.
-/

namespace Xv6

namespace Fs

open Prog

variable {α : Type} {T R : Multiset Token} {v : View} {me : Caller} {r : Role} {N : Finset Nat}
  {k n m : Nat} {h : Handle} {ip dp : InodePtr} {f : FilePtr} {a : Token}

theorem seq_safe {β : Type} {p : Program α} {g : α → Program β} {H : Holding}
    {Q : β → Holding → Prop} (hp : p.Safe wp H fun x H' => (g x).Safe wp H' Q) :
    (p >>= g).Safe wp H Q :=
  safe_bind wp_mono hp

variable {Q : Unit → Holding → Prop} {msg : String}

theorem panic_safe {H : Holding}
    (hmsg : msg ∉ ["freeing free block", "filedup", "fileclose"]) : (panic msg).Safe wp H Q := by
  refine safe_lift ⟨?_, ?_, ?_⟩
  all_goals
    intro heq
    rw [Fault.panic.inj heq] at hmsg
    exact hmsg (by simp)

variable {g : Unit → Program α}

theorem panic_bind_safe {H : Holding}
    {Q : α → Holding → Prop} (hmsg : msg ∉ ["freeing free block", "filedup", "fileclose"]) :
    (panic msg >>= g).Safe wp H Q :=
  seq_safe (panic_safe hmsg)

theorem nullDeref_harmless : Harmless .nullDeref := ⟨nofun, nofun, nofun⟩

theorem proc_safe {l : Ledger} {g : Caller → Program α} {Q : α → Holding → Prop}
    (hq : (g me).Safe wp ⟨T, ⟨me, l, r⟩⟩ Q) : (lift .proc >>= g).Safe wp ⟨T, ⟨me, l, r⟩⟩ Q := hq

theorem endOp_safe {l : Ledger} {Q : α → Holding → Prop}
    (hl : l ≠ .outside) (hq : (g ()).Safe wp ⟨T, ⟨me, .outside, r⟩⟩ Q) :
    (lift .endOp >>= g).Safe wp ⟨T, ⟨me, l, r⟩⟩ Q :=
  ⟨hl, hq⟩

theorem beginOp_safe {Q : α → Holding → Prop}
    (hq : (g ()).Safe wp ⟨T, ⟨me, .normal ∅ 0, r⟩⟩ Q) :
    (lift .beginOp >>= g).Safe wp ⟨T, ⟨me, .outside, r⟩⟩ Q :=
  ⟨rfl, Or.inl hq⟩

theorem ilock_safe {Q : α → Holding → Prop} (ht : T = a ::ₘ R)
    (hr : a.isRef = true) (ha : a.handle = some h)
    (hq : (g ()).Safe wp ⟨.lock h .clean ::ₘ R, v⟩ Q) :
    (lift (.ilock h.ip) >>= g).Safe wp ⟨T, v⟩ Q :=
  ⟨a, h, R, ⟨ht, hr, ha⟩, rfl, Or.inl hq⟩

theorem iunlock_safe {Q : α → Holding → Prop}
    (ht : T = .lock h .clean ::ₘ R) (hq : (g ()).Safe wp ⟨.ref h ::ₘ R, v⟩ Q) :
    (lift (.iunlock h.ip) >>= g).Safe wp ⟨T, v⟩ Q :=
  ⟨h, R, _, ht, rfl, Or.inl rfl, Or.inl hq⟩

theorem inode_safe {g : Inode → Program α} {Q : α → Holding → Prop} (ht : T = a ::ₘ R)
    (ha : a.handle = some h) (hq : ∀ i, (g i).Safe wp ⟨T, v⟩ Q) :
    (lift (.inode h.ip) >>= g).Safe wp ⟨T, v⟩ Q :=
  ⟨h, ⟨a, ht ▸ Multiset.mem_cons_self _ _, ha⟩, rfl, fun i _ => hq i⟩

/-! ## Inodes -/

theorem iput_safe (ht : T = a ::ₘ R) (hr : a.isRef = true)
    (ha : a.handle = some (.own ip n)) (hq : Q () ⟨R, ⟨me, .normal N k, r⟩⟩) :
    (iput ip).Safe wp ⟨T, ⟨me, .normal N k, r⟩⟩ Q := by
  refine safe_call ⟨a, n, R, N, k, ⟨ht, hr, ha⟩, rfl, ?_, ?_⟩
  · dsimp only
    rw [if_neg Bool.false_ne_true]
    exact safe_pure hq
  · dsimp only
    rw [if_pos rfl]
    refine safe_call ⟨n, R, N, k, rfl, rfl, ?_⟩
    refine safe_call ⟨.own ip n, R, rfl, Or.inr ⟨rfl, rfl, ?_⟩⟩
    refine safe_call ⟨.own ip n, R, N, k, rfl, Or.inr ⟨rfl, rfl, ?_⟩⟩
    exact safe_lift ⟨n, R, N, k, rfl, rfl, hq⟩

theorem iunlockput_safe (ht : T = .lock (.own ip n) .clean ::ₘ R)
    (hq : Q () ⟨R, ⟨me, .normal N k, r⟩⟩) :
    (iunlockput ip).Safe wp ⟨T, ⟨me, .normal N k, r⟩⟩ Q := by
  exact iunlock_safe (h := .own ip n) ht (iput_safe rfl rfl rfl hq)

theorem consoleread_safe {Q : Option (List Byte) → Holding → Prop} {len : Word}
    (ht : T = .lock h .clean ::ₘ R) (hq : ∀ r, Q r ⟨T, v⟩) :
    (consoleread h.ip len).Safe wp ⟨T, v⟩ Q := by
  refine iunlock_safe ht (safe_call fun x => ?_)
  refine ilock_safe rfl rfl rfl (safe_pure ?_)
  rw [← ht]
  exact hq _

theorem readi_safe {Q : Option (List Byte) → Holding → Prop} {off len : Word}
    (ht : T = .lock h .clean ::ₘ R) (hq : ∀ r, Q r ⟨T, v⟩) :
    (readi h.ip off len).Safe wp ⟨T, v⟩ Q := by
  refine inode_safe ht rfl fun i => ?_
  split
  · split
    · exact consoleread_safe ht hq
    · exact safe_pure (hq none)
  · exact safe_lift ⟨h, ht ▸ Multiset.mem_cons_self _ _, rfl, hq⟩

variable {src : Nat → Byte}

theorem writei_safe {Q : Option Nat → Holding → Prop} {off len : Word}
    (ht : T = .lock h .clean ::ₘ R) (hdev : ∀ x, Q x ⟨T, ⟨me, .data, r⟩⟩)
    (hq : ∀ x, Q x ⟨T, ⟨me, .written, r⟩⟩) :
    (writei h.ip src off len).Safe wp ⟨T, ⟨me, .data, r⟩⟩ Q := by
  refine inode_safe ht rfl fun i => ?_
  split
  · split
    · refine iunlock_safe ht (ilock_safe rfl rfl rfl (safe_pure ?_))
      rw [← ht]
      exact hdev _
    · exact safe_pure (hdev none)
  · exact safe_lift ⟨h, ht ▸ Multiset.mem_cons_self _ _, rfl, Or.inr ⟨rfl, hq⟩⟩

theorem writeDirent_safe {de : Dirent} {off : Nat}
    (hmem : .lock h .clean ∈ T) (hoff : off % DIRENTSIZE = 0)
    (hroom : Room (insert h.inum N) (k + 2))
    (hmsg : msg ∉ ["freeing free block", "filedup", "fileclose"])
    (hq : Q () ⟨T, ⟨me, .normal (insert h.inum N) (k + 2), r⟩⟩) :
    (writeDirent h.ip de off msg).Safe wp ⟨T, ⟨me, .normal N k, r⟩⟩ Q := by
  obtain ⟨R, ht⟩ := Multiset.exists_cons_of_mem hmem
  -- whatever `writei` returns, it is the right number of bytes or there is a panic
  have hend : ∀ x : Option Nat, (if x = some DIRENTSIZE then Pure.pure () else
      panic msg : Program Unit).Safe wp ⟨T, ⟨me, .normal (insert h.inum N) (k + 2), r⟩⟩ Q := by
    intro x
    split
    · exact safe_pure hq
    · exact panic_safe hmsg
  refine seq_safe ?_
  refine safe_call ⟨h, ⟨_, hmem, rfl⟩, rfl, fun i _ => ?_⟩
  dsimp only
  split
  · split
    · refine safe_call ⟨h, R, .normal (insert h.inum N) (k + 2), ht, rfl, Or.inr ?_, Or.inl ?_⟩
      · exact ⟨N, k, _, _, rfl, rfl, Finset.subset_insert _ _, Nat.le_add_right _ _, hroom⟩
      · refine ilock_safe rfl rfl rfl ?_
        rw [← ht]
        exact safe_pure (hend _)
    · refine safe_pure ?_
      rw [if_neg nofun]
      exact panic_safe hmsg
  · refine safe_lift ⟨h, hmem, rfl, Or.inl ⟨N, k, rfl, ?_, rfl, hroom, hend⟩⟩
    rw [BitVec.toNat_ofNat]
    unfold DIRENTSIZE DIRSIZ at hoff ⊢
    omega

theorem dirlookup_safe {Q : Option (InodePtr × Nat) → Holding → Prop} {name : List Byte}
    (hmem : .lock h .clean ∈ T) (hnone : Q none ⟨T, v⟩)
    (hsome : ∀ ip n off, off % DIRENTSIZE = 0 → Q (some (ip, off)) ⟨.got ip n ::ₘ T, v⟩) :
    (dirlookup h.ip name).Safe wp ⟨T, v⟩ Q := by
  refine safe_call ⟨h, hmem, rfl, fun r hr => ?_⟩
  cases r with
  | none => exact safe_pure hnone
  | some x =>
    obtain ⟨hdev, hoff⟩ := hr x rfl
    exact safe_call ⟨hdev, fun ip => safe_pure (hsome ip _ _ hoff)⟩

theorem dirlink_safe {Q : Bool → Holding → Prop} {name : List Byte} {inum : Nat}
    (hmem : .lock h .clean ∈ T) (hroom : Room (insert h.inum N) (k + 2))
    (hfalse : Q false ⟨T, ⟨me, .normal N k, r⟩⟩)
    (htrue : Q true ⟨T, ⟨me, .normal (insert h.inum N) (k + 2), r⟩⟩) :
    (dirlink h.ip name inum).Safe wp ⟨T, ⟨me, .normal N k, r⟩⟩ Q := by
  refine seq_safe (dirlookup_safe hmem ?_ ?_)
  · refine safe_call ⟨h, hmem, rfl, fun off hoff => ?_⟩
    exact seq_safe (writeDirent_safe hmem hoff hroom (by decide) (safe_pure htrue))
  · intro ip n off _
    exact seq_safe (iput_safe rfl rfl rfl (safe_pure hfalse))

theorem addLink_safe {x : BitVec 16}
    (ht : T = .lock h .clean ::ₘ R) (hroom : Room (insert h.inum N) k)
    (hq : Q () ⟨T, ⟨me, .normal (insert h.inum N) k, r⟩⟩) :
    (addLink h.ip x).Safe wp ⟨T, ⟨me, .normal N k, r⟩⟩ Q := by
  refine safe_call ⟨h, R, rfl, Or.inl ⟨nofun, ht, ?_⟩⟩
  refine safe_lift ⟨h, R, N, k, rfl, Or.inl ⟨rfl, rfl, hroom, ?_⟩⟩
  rwa [← ht]

/-! ## Paths -/

theorem walk_safe {Q : Option (InodePtr × List Byte) → Holding → Prop} {parent : Bool}
    {turns : Nat} {path name : List Byte} (hr : a.isRef = true) (ha : a.handle = some (.own ip n))
    (hnone : Q none ⟨R, ⟨me, .normal N k, r⟩⟩)
    (hsome : ∀ ip n name a, a.isRef = true → a.handle = some (.own ip n) →
      Q (some (ip, name)) ⟨a ::ₘ R, ⟨me, .normal N k, r⟩⟩) :
    (walk parent turns ip path name).Safe wp ⟨a ::ₘ R, ⟨me, .normal N k, r⟩⟩ Q := by
  induction turns generalizing ip n path name a with
  | zero => exact safe_pure (hsome ip n name a hr ha)
  | succ turns ih =>
    unfold walk
    split
    · split
      · exact seq_safe (iput_safe rfl hr ha (safe_pure hnone))
      · exact safe_pure (hsome ip n name a hr ha)
    · refine ilock_safe (h := .own ip n) rfl hr ha ?_
      refine inode_safe (h := .own ip n) rfl rfl fun i => ?_
      split
      · exact seq_safe (iunlockput_safe rfl (safe_pure hnone))
      · split
        · exact iunlock_safe (h := .own ip n) rfl (safe_pure (hsome ip n _ _ rfl rfl))
        · refine seq_safe (dirlookup_safe (h := .own ip n) (Multiset.mem_cons_self _ _)
            ?_ ?_)
          · exact seq_safe (iunlockput_safe rfl (safe_pure hnone))
          · intro next m off _
            exact seq_safe (iunlockput_safe (Multiset.cons_swap ..) (ih rfl rfl))

def HasCwd (me : Caller) (T : Multiset Token) : Prop :=
  ∀ cwd, me.cwd = some cwd → ∃ n, .ref (.own cwd n) ∈ T

variable {path : List Byte}

theorem start_safe {Q : Option InodePtr → Holding → Prop}
    (hcwd : HasCwd me T)
    (hsome : ∀ ip n a, a.isRef = true → a.handle = some (.own ip n) →
      Q (some ip) ⟨a ::ₘ T, ⟨me, .normal N k, r⟩⟩) :
    (start path).Safe wp ⟨T, ⟨me, .normal N k, r⟩⟩ Q := by
  unfold start
  split
  · exact safe_call ⟨rfl, fun ip => safe_pure (hsome ip ROOTINO _ rfl rfl)⟩
  · refine proc_safe ?_
    cases hc : me.cwd with
    | none => exact safe_call nullDeref_harmless
    | some cwd =>
      obtain ⟨n, hmem⟩ := hcwd cwd hc
      exact safe_call ⟨n, hmem, safe_pure (hsome cwd n _ rfl rfl)⟩

section Parent

variable {Q : Option (InodePtr × List Byte) → Holding → Prop} {parent : Bool}
  (hcwd : HasCwd me T) (hnone : Q none ⟨T, ⟨me, .normal N k, r⟩⟩)
  (hsome : ∀ ip n name a, a.isRef = true → a.handle = some (.own ip n) →
    Q (some (ip, name)) ⟨a ::ₘ T, ⟨me, .normal N k, r⟩⟩)

include hcwd hnone hsome

theorem namex_safe : (namex path parent).Safe wp ⟨T, ⟨me, .normal N k, r⟩⟩ Q :=
  seq_safe (start_safe hcwd fun _ _ _ hr ha => walk_safe hr ha hnone hsome)

theorem nameiparent_safe : (nameiparent path).Safe wp ⟨T, ⟨me, .normal N k, r⟩⟩ Q :=
  namex_safe hcwd hnone hsome

end Parent

theorem namei_safe {Q : Option InodePtr → Holding → Prop} (hcwd : HasCwd me T)
    (hnone : Q none ⟨T, ⟨me, .normal N k, r⟩⟩)
    (hsome : ∀ ip n a, a.isRef = true → a.handle = some (.own ip n) →
      Q (some ip) ⟨a ::ₘ T, ⟨me, .normal N k, r⟩⟩) :
    (namei path).Safe wp ⟨T, ⟨me, .normal N k, r⟩⟩ Q := by
  refine seq_safe (namex_safe hcwd (safe_pure hnone) ?_)
  exact fun ip n name a hr ha => safe_pure (hsome ip n a hr ha)

/-! ## Files -/

theorem fileclose_safe (hmode : r.mode ≠ .still)
    (ht : T = .fref f ::ₘ R) (hq : Q () ⟨R, ⟨me, .outside, r⟩⟩) :
    (fileclose f).Safe wp ⟨T, ⟨me, .outside, r⟩⟩ Q := by
  refine safe_call ⟨hmode, R, Or.inr ⟨ht, safe_pure hq, fun ff => ⟨?_, ?_, ?_⟩⟩⟩
  · intro hff
    dsimp only
    rw [hff, if_neg nofun, if_neg nofun]
    exact safe_pure hq
  · intro hff
    dsimp only
    rw [if_pos hff]
    exact safe_lift ⟨hmode, R, rfl, hq⟩
  · intro hff n
    dsimp only
    rw [hff, if_neg nofun, if_pos rfl]
    refine beginOp_safe ?_
    exact seq_safe (iput_safe rfl rfl rfl (safe_lift ⟨nofun, hq⟩))

theorem fileclose_new_safe (hmode : v.role.mode ≠ .still)
    (ht : T = .new f ::ₘ R) (hq : Q () ⟨R, v⟩) : (fileclose f).Safe wp ⟨T, v⟩ Q := by
  refine safe_call ⟨hmode, R, Or.inl ⟨ht, fun ff hff => ?_⟩⟩
  dsimp only
  rw [hff, if_neg nofun, if_neg nofun]
  exact safe_pure hq

theorem fileread_safe {Q : Int → Holding → Prop} {len : Word} (ht : T = .fref f ::ₘ R)
    (hq : ∀ r, Q r ⟨T, v⟩) : (fileread f len).Safe wp ⟨T, v⟩ Q := by
  refine safe_call (Or.inl ⟨R, ht, fun ff => ?_⟩)
  dsimp only
  by_cases hread : ff.readable = false
  · rw [if_pos hread]
    exact Or.inl (safe_pure (hq _))
  · rw [if_neg hread]
    cases htype : ff.type with
    | none => exact Or.inl (panic_bind_safe (by decide))
    | pipe => exact Or.inl (safe_lift hq)
    | inode =>
      refine Or.inr ⟨rfl, fun n => ?_⟩
      refine ilock_safe (h := .file f ff.ip n) rfl rfl rfl ?_
      refine safe_call (Or.inr ⟨ff.ip, n, ⟨_, Multiset.mem_cons_self _ _, rfl⟩, ?_⟩)
      intro ff' _ hip
      rw [hip]
      refine seq_safe (readi_safe (h := .file f ff.ip n) rfl fun r => ?_)
      have hend : ∀ x : Int, (do lift (.iunlock ff.ip); Pure.pure x : Program Int).Safe wp
          ⟨.lock (.file f ff.ip n) .clean ::ₘ R, v⟩ Q := by
        intro _
        refine safe_call ⟨.file f ff.ip n, R, _, rfl, rfl, Or.inl rfl, Or.inr ⟨f, n, rfl, ?_⟩⟩
        rw [← ht]
        exact safe_pure (hq _)
      split
      · exact safe_call (hend _)
      · exact hend _

theorem filestat_safe {Q : Option Stat → Holding → Prop} (ht : T = .fref f ::ₘ R)
    (hq : ∀ r, Q r ⟨T, v⟩) : (filestat f).Safe wp ⟨T, v⟩ Q := by
  refine safe_call (Or.inl ⟨R, ht, fun ff => ?_⟩)
  dsimp only
  by_cases htype : ff.type = .inode
  · rw [if_pos htype]
    refine Or.inr ⟨htype, fun n => ?_⟩
    refine ilock_safe (h := .file f ff.ip n) rfl rfl rfl ?_
    refine safe_call ⟨.file f ff.ip n, Multiset.mem_cons_self _ _, rfl, fun st => ?_⟩
    refine safe_call ⟨.file f ff.ip n, R, _, rfl, rfl, Or.inl rfl, Or.inr ⟨f, n, rfl, ?_⟩⟩
    rw [← ht]
    exact safe_pure (hq _)
  · rw [if_neg htype]
    exact Or.inl (safe_pure (hq none))

/-- A turn of the loop of `filewrite`: the reference of the file may be kept for the next
one, or not. -/
theorem writeChunk_safe {Q : Option Nat → Holding → Prop} {n1 : Nat}
    (hq : ∀ x, Q x ⟨.ref (.file f ip n) ::ₘ R, ⟨me, .outside, r⟩⟩ ∨
      Q x ⟨.fref f ::ₘ R, ⟨me, .outside, r⟩⟩) :
    (writeChunk f src n1).Safe wp ⟨.ref (.file f ip n) ::ₘ R, ⟨me, .outside, r⟩⟩ Q := by
  refine safe_call ⟨rfl, Or.inr ?_⟩
  refine safe_call (Or.inr ⟨ip, n, ⟨_, Multiset.mem_cons_self _ _, rfl⟩, fun ff _ hip => ?_⟩)
  dsimp only
  rw [hip]
  refine ilock_safe (h := .file f ip n) rfl rfl rfl ?_
  refine safe_call (Or.inr ⟨ip, n, ⟨_, Multiset.mem_cons_self _ _, rfl⟩, fun ff _ _ => ?_⟩)
  have hend : ∀ x l, l ≠ .outside → (do
      lift (.iunlock ip)
      lift .endOp
      Pure.pure x : Program (Option Nat)).Safe wp
      ⟨.lock (.file f ip n) .clean ::ₘ R, ⟨me, l, r⟩⟩ Q := by
    intro x l hl
    rcases hq x with hq | hq
    · exact iunlock_safe (h := .file f ip n) rfl (endOp_safe hl (safe_pure hq))
    · refine safe_call ⟨.file f ip n, R, _, rfl, rfl, Or.inl rfl, Or.inr ⟨f, n, rfl, ?_⟩⟩
      exact endOp_safe hl (safe_pure hq)
  refine seq_safe (writei_safe (h := .file f ip n) rfl ?_ ?_)
  · intro x
    split
    · exact safe_call (hend x _ nofun)
    · exact hend x _ nofun
  · intro x
    split
    · exact safe_call (hend x _ nofun)
    · exact hend x _ nofun

theorem writeLoop_zero {turns : Nat} :
    writeLoop f turns src 0 = Pure.pure true := by
  cases turns with
  | zero => rfl
  | succ turns =>
    unfold writeLoop
    rw [if_pos rfl]

theorem writeLoop_safe {Q : Bool → Holding → Prop} {turns len : Nat}
    (hlen : len ≠ 0) (hturns : len ≤ turns) (hq : ∀ x, Q x ⟨.fref f ::ₘ R, ⟨me, .outside, r⟩⟩) :
    (writeLoop f turns src len).Safe wp ⟨.ref (.file f ip n) ::ₘ R, ⟨me, .outside, r⟩⟩ Q := by
  induction turns generalizing len src with
  | zero => omega
  | succ turns ih =>
    have hpos : 0 < min len maxChunk := by
      have : maxChunk = 6656 := by decide
      omega
    unfold writeLoop
    rw [if_neg hlen]
    refine seq_safe (writeChunk_safe fun r => ?_)
    cases r with
    | none => exact Or.inr (safe_pure (hq false))
    | some r =>
      dsimp only
      by_cases hr : r = min len maxChunk
      · rw [if_neg (not_not.mpr hr)]
        by_cases hlast : len - r = 0
        · rw [hlast, writeLoop_zero]
          exact Or.inr (safe_pure (hq true))
        · exact Or.inl (ih hlast (by omega))
      · rw [if_pos hr]
        exact Or.inr (panic_bind_safe (by decide))

theorem filewrite_safe {Q : Int → Holding → Prop} {len : Int}
    (ht : T = .fref f ::ₘ R) (hq : ∀ x, Q x ⟨T, ⟨me, .outside, r⟩⟩) :
    (filewrite f src len).Safe wp ⟨T, ⟨me, .outside, r⟩⟩ Q := by
  refine safe_call (Or.inl ⟨R, ht, fun ff => ?_⟩)
  dsimp only
  by_cases hwrite : ff.writable = false
  · rw [if_pos hwrite]
    exact Or.inl (safe_pure (hq _))
  · rw [if_neg hwrite]
    cases htype : ff.type with
    | none => exact Or.inl (panic_bind_safe (by decide))
    | pipe => exact Or.inl (safe_lift hq)
    | inode =>
      by_cases hlen : len.toNat = 0
      · rw [hlen, writeLoop_zero]
        exact Or.inl (safe_pure (hq _))
      · refine Or.inr ⟨rfl, fun n => seq_safe ?_⟩
        refine writeLoop_safe hlen (Nat.le_refl _) fun r => ?_
        rw [← ht]
        exact safe_pure (hq _)

end Fs

end Xv6
