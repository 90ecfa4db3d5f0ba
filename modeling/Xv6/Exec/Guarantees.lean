import Xv6.Exec.Outcome

/-!
# What callers of `exec` rely on

Three properties of every call of `exec`, from its one specification: the permission check
against the documented one, where the segments of a program are loaded, and that a call
that fails leaves nothing behind.
-/

namespace Xv6

namespace Exec

/-! ## The permission check -/

/-- `canRun` of `p5-test.c`, for the `stat` of the file: the first class that matches
decides. -/
def canRun (st : Dinode) (uid gid : Word) : Bool :=
  if uid = st.uid.setWidth 32 then uX st.mode
  else if gid = st.gid.setWidth 32 then gX st.mode
  else oX st.mode

def GroupOverrides (st : Dinode) (uid gid : Word) : Prop :=
  uid = st.uid.setWidth 32 ∧ gid = st.gid.setWidth 32 ∧ uX st.mode = false ∧ gX st.mode = true

theorem check_eq_canRun_iff (st : Dinode) (uid gid : Word) :
    check st uid gid = canRun st uid gid ↔ ¬ GroupOverrides st uid gid := by
  unfold check canRun GroupOverrides
  by_cases hu : uid = st.uid.setWidth 32
  · subst hu
    by_cases hg : gid = st.gid.setWidth 32
    · subst hg
      cases uX st.mode <;> cases gX st.mode <;> simp
    · cases uX st.mode <;> simp [hg, Ne.symm hg]
  · by_cases hg : gid = st.gid.setWidth 32
    · subst hg
      cases gX st.mode <;> simp [hu, Ne.symm hu]
    · cases oX st.mode <;> simp [hu, hg, Ne.symm hu, Ne.symm hg]

variable {p p' : Process} {env : Env} {r : Int}

theorem Outcome.read_iff {evs : List Event}
    {ip : InodePtr} (h : Outcome env p evs r p') (hn : env.namei = some ip) :
    .read ip ∈ evs ↔ check env.inode p.uid p.gid = true := by
  cases h with
  | noFile hn' => rw [hn'] at hn; cases hn
  | denied hn' hc => simp [hc]
  | noImage hn' hc | notLoaded hn' hc | noStack hn' hc | replaced hn' hc =>
    cases hn'.symm.trans hn
    simp [hc]

/-- `exec` goes on to read the file exactly when `canRun` accepts, unless the group class
overrides the owner class. -/
theorem exec_passes_iff_canRun (path : List Byte) (argv : List (List Byte)) (s : State)
    {ip : InodePtr} (hn : s.env.namei = some ip) :
    ∃ r t evs, (exec path argv).exec step s = .ok (r, t) ∧ t.log = s.log ++ evs ∧
      ((.read ip ∈ evs ↔ canRun s.env.inode s.proc.uid s.proc.gid = true) ↔
        ¬ GroupOverrides s.env.inode s.proc.uid s.proc.gid) := by
  obtain ⟨r, t, evs, heq, hlog, ho⟩ := exec_returns path argv s
  refine ⟨r, t, evs, heq, hlog, ?_⟩
  rw [ho.read_iff hn, ← check_eq_canRun_iff]
  exact Bool.eq_iff_iff.symm

def plainFile (mode : Word) : Dinode where
  type := .file
  major := 0
  minor := 0
  nlink := 1
  uid := 1
  gid := 2
  mode := mode
  size := 0
  addrs := fun _ => 0

/-- A process with a user and a group, about to call `exec` on a file. -/
def caller (uid gid : Word) (st : Dinode) (readi : Nat → Option (List Byte)) : State where
  env :=
    { namei := some 0, inode := st, readi := readi, stack := fun _ => 0, setupkvm := some 1
      memory := fun _ => true, loaduvm := fun _ => true, copyout := fun _ => true }
  time := 0
  proc :=
    { pgdir := 0, sz := 4096, eip := 0, esp := 0, name := [], uid := uid, gid := gid
      ofile := fun _ => none, cwd := none }
  log := []

/-- The owner may run a file that only its owner may run. -/
theorem owner_runs : ∃ r t evs,
    (exec [] []).exec step (caller 1 9 (plainFile 0o100) fun _ => none) = .ok (r, t) ∧
      t.log = evs ∧ .read 0 ∈ evs := by
  have hfound : (caller 1 9 (plainFile 0o100) fun _ => none).env.namei = some 0 := rfl
  obtain ⟨r, t, evs, heq, hlog, hiff⟩ := exec_passes_iff_canRun [] []
    (caller 1 9 (plainFile 0o100) fun _ => none) hfound
  have hno : ¬ GroupOverrides (plainFile 0o100) 1 9 := fun h => absurd h.2.1 (by decide)
  exact ⟨r, t, evs, heq, hlog, (hiff.mpr hno).mpr (by decide)⟩

/-- The owner, who may not run the file, is in the group that may. -/
theorem owner_runs_as_group :
    canRun (plainFile 0o010) 1 2 = false ∧ ∃ r t evs,
      (exec [] []).exec step (caller 1 2 (plainFile 0o010) fun _ => none) = .ok (r, t) ∧
        t.log = evs ∧ .read 0 ∈ evs := by
  refine ⟨by decide, ?_⟩
  obtain ⟨r, t, evs, heq, hlog, ho⟩ := exec_returns [] []
    (caller 1 2 (plainFile 0o010) fun _ => none)
  exact ⟨r, t, evs, heq, hlog, (ho.read_iff rfl).mpr (by decide)⟩

/-! ## Where segments are loaded -/

section Load

variable {ip : InodePtr} {old : Word} {evs : List Event}

theorem allocuvm_cases {memory : Bool} {new sz : Word} (hsz : sz = allocuvm memory old new)
    (hne : sz ≠ 0) :
    new.toNat < KERNBASE.toNat ∧ sz.toNat = max old.toNat new.toNat := by
  unfold allocuvm at hsz
  split at hsz
  · exact absurd hsz hne
  · next hno =>
    have hlt : new < KERNBASE := BitVec.not_le.mp fun hge => hno (Or.inl hge)
    refine ⟨BitVec.lt_def.mp hlt, ?_⟩
    split at hsz
    · next hold =>
      have := BitVec.lt_def.mp hold
      rw [hsz]
      omega
    · next hold =>
      have := BitVec.le_def.mp (BitVec.not_lt.mp hold)
      rw [hsz]
      omega

/-- The segment is loaded below the size of the image: unless the end of the segment wraps
around, or if all of it is below the image that there was. -/
theorem loaded_below_iff {memory : Bool} {vaddr filesz memsz sz : Word}
    (hle : filesz ≤ memsz) (hsz : sz = allocuvm memory old (vaddr + memsz)) (hne : sz ≠ 0) :
    vaddr.toNat + filesz.toNat ≤ sz.toNat ↔
      vaddr.toNat + memsz.toNat < 2 ^ 32 ∨ vaddr.toNat + filesz.toNat ≤ old.toNat := by
  obtain ⟨-, hmax⟩ := allocuvm_cases hsz hne
  have hle' := BitVec.le_def.mp hle
  have hv := vaddr.isLt
  have hm := memsz.isLt
  rw [hmax, BitVec.toNat_add]
  omega

/-- What `exec` relies on when it calls `loaduvm(pgdir, vaddr, ip, off, filesz)` after
`allocuvm` has returned `sz`. -/
def LoadsBelow (vaddr filesz sz : Word) : Prop :=
  vaddr.toNat + filesz.toNat ≤ sz.toNat ∧ sz.toNat < KERNBASE.toNat

/-- A segment is loaded after `pre`: `allocuvm` has just been called for it, and it is below
the size of the image exactly unless its end in memory wraps around and it is not inside the
image that there was. -/
def LoadedAfter (pre : List Event) (vaddr filesz : Word) : Prop :=
  ∃ pre' size memsz sz, pre = pre' ++ [.grown size (vaddr + memsz) sz] ∧ filesz ≤ memsz ∧
    (LoadsBelow vaddr filesz sz ↔
      vaddr.toNat + memsz.toNat < 2 ^ 32 ∨ vaddr.toNat + filesz.toNat ≤ size.toNat)

/-- Step and run lemma in one, by induction on the turns of the loop: the image stays below
`KERNBASE`. -/
theorem Loop.loads (h : Loop ip old evs) (hold : old.toNat < KERNBASE.toNat)
    {pre post : List Event} {vaddr filesz : Word}
    (heq : evs = pre ++ .loaded vaddr filesz :: post) : LoadedAfter pre vaddr filesz := by
  induction h generalizing pre with
  | done => simp at heq
  | header h ih =>
    cases pre with
    | nil => cases heq
    | cons e pre =>
      simp only [List.cons_append, List.cons.injEq] at heq
      obtain ⟨rfl, heq⟩ := heq
      obtain ⟨pre', size, memsz, sz, rfl, hrest⟩ := ih hold heq
      exact ⟨_ :: pre', size, memsz, sz, rfl, hrest⟩
  | short =>
    have hmem : Event.loaded vaddr filesz ∈ pre ++ .loaded vaddr filesz :: post := by simp
    rw [← heq] at hmem
    simp at hmem
  | @segment size sz v f memsz memory evs hle hsz hne h ih =>
    obtain ⟨hnew, hmax⟩ := allocuvm_cases hsz hne
    have hlt : sz.toNat < KERNBASE.toNat := by omega
    match pre with
    | [] => cases heq
    | [_] => cases heq
    | [e₁, e₂] =>
      simp only [List.cons_append, List.nil_append, List.cons.injEq, Event.loaded.injEq] at heq
      obtain ⟨rfl, rfl, ⟨rfl, rfl⟩, -⟩ := heq
      refine ⟨[_], size, memsz, sz, rfl, hle, ?_⟩
      rw [← loaded_below_iff hle hsz hne]
      exact and_iff_left hlt
    | e₁ :: e₂ :: e₃ :: pre =>
      simp only [List.cons_append, List.cons.injEq] at heq
      obtain ⟨rfl, rfl, rfl, heq⟩ := heq
      obtain ⟨pre', size', memsz', sz', rfl, hrest⟩ := ih hlt heq
      exact ⟨_ :: _ :: _ :: pre', size', memsz', sz', rfl, hrest⟩

theorem mem_middle {A L B pre post : List Event} {e : Event} (hA : e ∉ A) (hB : e ∉ B)
    (h : A ++ L ++ B = pre ++ e :: post) :
    ∃ pre' post', L = pre' ++ e :: post' ∧ pre = A ++ pre' := by
  induction A generalizing pre with
  | nil =>
    rcases List.append_eq_append_iff.mp h with ⟨l, -, hl⟩ | ⟨l, hl, hl'⟩
    · exact absurd (hl ▸ by simp) hB
    · cases l with
      | nil =>
        rw [List.nil_append] at hl'
        exact absurd (hl' ▸ List.mem_cons_self) hB
      | cons e' l =>
        obtain ⟨rfl, -⟩ := List.cons.inj hl'
        exact ⟨pre, l, hl, rfl⟩
  | cons a A ih =>
    cases pre with
    | nil =>
      simp only [List.cons_append, List.nil_append, List.cons.injEq] at h
      exact absurd (h.1 ▸ List.mem_cons_self) hA
    | cons b pre =>
      simp only [List.cons_append, List.cons.injEq] at h
      obtain ⟨rfl, h⟩ := h
      obtain ⟨pre', post', hL, rfl⟩ := ih (fun hmem => hA (List.mem_cons_of_mem _ hmem)) h
      exact ⟨pre', post', hL, rfl⟩

theorem Outcome.loads (h : Outcome env p evs r p')
    {pre post : List Event} {vaddr filesz : Word}
    (heq : evs = pre ++ .loaded vaddr filesz :: post) : LoadedAfter pre vaddr filesz := by
  have hmem : Event.loaded vaddr filesz ∈ evs := by simp [heq]
  -- all calls of `loaduvm` are in the loop
  have hloop : ∀ {ip : InodePtr} {A L B : List Event}, evs = A ++ L ++ B →
      Event.loaded vaddr filesz ∉ A → Event.loaded vaddr filesz ∉ B → Loop ip 0 L →
      LoadedAfter pre vaddr filesz := by
    intro ip A L B hevs hA hB hl
    obtain ⟨pre₁, post₁, hL, rfl⟩ := mem_middle hA hB (hevs.symm.trans heq)
    obtain ⟨pre', size, memsz, sz, rfl, hrest⟩ := hl.loads (by decide) hL
    exact ⟨A ++ pre', size, memsz, sz, (List.append_assoc ..).symm, hrest⟩
  cases h with
  | noFile | denied | noImage => simp at hmem
  | notLoaded hn hc hl | noStack hn hc hl | replaced hn hc hl hp =>
    exact hloop rfl (by simp) (by simp) hl

end Load

/-- Every call of `loaduvm` is below the size that `allocuvm` has just returned and below
`KERNBASE`, exactly unless the end of the segment in memory wraps around and the segment is
not inside the image that there was. -/
theorem exec_loads_below_iff (path : List Byte) (argv : List (List Byte)) (s : State) :
    ∃ r t evs, (exec path argv).exec step s = .ok (r, t) ∧ t.log = s.log ++ evs ∧
      ∀ pre post vaddr filesz, evs = pre ++ .loaded vaddr filesz :: post →
        LoadedAfter pre vaddr filesz := by
  obtain ⟨r, t, evs, heq, hlog, ho⟩ := exec_returns path argv s
  exact ⟨r, t, evs, heq, hlog, fun _ _ _ _ hevs => ho.loads hevs⟩

/-- A program with one segment: at `0xfffff000`, with `0x1000` bytes in the file and `0x1001`
bytes in memory. -/
def wrapping : Nat → Option (List Byte)
  | 5 => some ([0x7f, 0x45, 0x4c, 0x46] ++ List.replicate 40 0 ++ [1, 0] ++ List.replicate 6 0)
  | _ => some ([1, 0, 0, 0] ++ [0, 0, 0, 0] ++ [0x00, 0xf0, 0xff, 0xff] ++ [0, 0, 0, 0] ++
      [0x00, 0x10, 0x00, 0x00] ++ [0x01, 0x10, 0x00, 0x00] ++ List.replicate 8 0)

/-- `allocuvm` gives one byte, and the segment is loaded at the top of the address space. -/
theorem exec_loads_above_kernbase : ∃ r t pre post,
    (exec [] []).exec step (caller 1 2 (plainFile 0o755) wrapping) = .ok (r, t) ∧
      t.log = pre ++ .grown 0 1 1 :: .loaded 0xfffff000 0x1000 :: post ∧
      ¬ LoadsBelow 0xfffff000 0x1000 1 := by
  have hrun : (match (exec [] []).exec step (caller 1 2 (plainFile 0o755) wrapping) with
      | .ok (_, t) => decide (t.log = [.beginOp, .took 0, .locked 0, .read 0, .built 1, .read 0,
          .grown 0 1 1, .loaded 0xfffff000 0x1000, .unlocked 0, .dropped 0, .endOp,
          .grown 4096 12288 12288, .freed 0])
      | .error _ => false) = true := by
    decide +kernel
  obtain ⟨r, t, evs, heq, -, -⟩ := exec_returns [] [] (caller 1 2 (plainFile 0o755) wrapping)
  rw [heq] at hrun
  have hlog := of_decide_eq_true hrun
  refine ⟨r, t, [.beginOp, .took 0, .locked 0, .read 0, .built 1, .read 0], _, heq, hlog, ?_⟩
  unfold LoadsBelow
  decide

/-! ## All or nothing -/

/-- Every transaction, inode reference and inode lock is taken at most once, and given back
as often as it is taken. -/
structure Balanced (evs : List Event) : Prop where
  ops : evs.count .beginOp = 1 ∧ evs.count .endOp = 1
  refs : ∀ ip, evs.count (.took ip) ≤ 1 ∧ evs.count (.dropped ip) = evs.count (.took ip)
  locks : ∀ ip, evs.count (.locked ip) ≤ 1 ∧ evs.count (.unlocked ip) = evs.count (.locked ip)

def Event.resource : Event → Bool
  | .read _ | .grown .. | .loaded .. => false
  | _ => true

theorem Loop.not_mem {ip : InodePtr} {sz : Word} {evs : List Event} (h : Loop ip sz evs)
    {e : Event} (he : e.resource = true) : e ∉ evs := by
  induction h with
  | done => exact List.not_mem_nil
  | header h ih =>
    refine fun hmem => ih ((List.mem_cons.mp hmem).resolve_left ?_)
    rintro rfl
    cases he
  | short =>
    intro hmem
    simp only [List.mem_cons, List.not_mem_nil, or_false] at hmem
    rcases hmem with rfl | rfl <;> cases he
  | segment hle hsz hne h ih =>
    intro hmem
    simp only [List.mem_cons] at hmem
    rcases hmem with rfl | rfl | rfl | hmem
    · cases he
    · cases he
    · cases he
    · exact ih hmem

theorem Loop.count {ip : InodePtr} {sz : Word} {evs A B : List Event} (h : Loop ip sz evs)
    {e : Event} (he : e.resource = true) : (A ++ evs ++ B).count e = (A ++ B).count e := by
  rw [List.count_append, List.count_append, List.count_append,
    List.count_eq_zero_of_not_mem (h.not_mem he), Nat.add_zero]

theorem Balanced.of_loop {ip : InodePtr} {sz : Word} {evs A B : List Event} (h : Loop ip sz evs)
    (hb : Balanced (A ++ B)) : Balanced (A ++ evs ++ B) := by
  refine ⟨?_, fun jp => ?_, fun jp => ?_⟩
  · rw [h.count rfl, h.count rfl]
    exact hb.ops
  · rw [h.count rfl, h.count rfl]
    exact hb.refs jp
  · rw [h.count rfl, h.count rfl]
    exact hb.locks jp

theorem Outcome.balanced {evs : List Event}
    (h : Outcome env p evs r p') : Balanced evs := by
  cases h with
  | noFile => exact ⟨by simp, fun _ => by simp, fun _ => by simp⟩
  | @denied ip | @noImage ip =>
    refine ⟨by simp, fun jp => ?_, fun jp => ?_⟩ <;> by_cases hj : ip = jp <;> simp [hj]
  | @notLoaded ip _ _ hn hc hl | @noStack ip _ _ _ _ _ hn hc hl
  | @replaced ip _ _ _ _ _ _ hn hc hl =>
    apply Balanced.of_loop hl
    refine ⟨by simp, fun jp => ?_, fun jp => ?_⟩ <;> by_cases hj : ip = jp <;> simp [hj]

theorem Outcome.freed {evs : List Event}
    (h : Outcome env p evs r p') (hr : r = -1) (pgdir : Pgdir) :
    evs.count (.built pgdir) ≤ 1 ∧ evs.count (.freed pgdir) = evs.count (.built pgdir) := by
  cases h with
  | noFile | denied | noImage => simp
  | @notLoaded _ pd _ hn hc hl | @noStack _ pd _ _ _ _ hn hc hl =>
    rw [hl.count rfl, hl.count rfl]
    by_cases hp : pd = pgdir <;> simp [hp]
  | replaced => cases hr

theorem Outcome.result {evs : List Event}
    (h : Outcome env p evs r p') : r = -1 ∨ r = 0 := by
  cases h with
  | noFile | denied | noImage | notLoaded | noStack => exact Or.inl rfl
  | replaced => exact Or.inr rfl

theorem Outcome.failed {evs : List Event}
    (h : Outcome env p evs r p') (hr : r = -1) : p' = p := by
  cases h with
  | noFile | denied | noImage | notLoaded | noStack => rfl
  | replaced => cases hr

/-- The page directory of the process is the one that was built, and only the old one is
freed. -/
theorem Outcome.succeeded {evs : List Event}
    (h : Outcome env p evs r p') (hr : r = 0) :
    Replaced env.inode p'.pgdir p p' ∧ evs.count (.built p'.pgdir) = 1 ∧
      ∀ pgdir, evs.count (.freed pgdir) = if pgdir = p.pgdir then 1 else 0 := by
  cases h with
  | noFile | denied | noImage | notLoaded | noStack => cases hr
  | @replaced _ pd _ _ _ _ _ hn hc hl hp =>
    refine ⟨hp.pgdir ▸ hp, ?_, fun pgdir => ?_⟩
    · rw [hl.count rfl, hp.pgdir]
      simp
    · rw [hl.count rfl]
      by_cases hpd : p.pgdir = pgdir
      · simp [hpd]
      · simp [hpd, Ne.symm hpd]

/-- A call of `exec` that fails leaves the process as it was. Whatever a call takes it gives
back exactly once: its transaction, the inode with its lock, and the page directory that it
has built or the one that it has replaced. -/
theorem exec_all_or_nothing (path : List Byte) (argv : List (List Byte)) (s : State) :
    ∃ r t evs, (exec path argv).exec step s = .ok (r, t) ∧ t.log = s.log ++ evs ∧
      Balanced evs ∧
      ((r = -1 ∧ t.proc = s.proc ∧ ∀ pgdir, evs.count (.built pgdir) ≤ 1 ∧
          evs.count (.freed pgdir) = evs.count (.built pgdir)) ∨
        (r = 0 ∧ evs.count (.built t.proc.pgdir) = 1 ∧
          (∀ pgdir, evs.count (.freed pgdir) = if pgdir = s.proc.pgdir then 1 else 0) ∧
          t.proc.uid = (if setuidBit s.env.inode.mode then s.env.inode.uid.setWidth 32
            else s.proc.uid) ∧
          t.proc.gid = s.proc.gid ∧ t.proc.ofile = s.proc.ofile ∧ t.proc.cwd = s.proc.cwd)) := by
  obtain ⟨r, t, evs, heq, hlog, ho⟩ := exec_returns path argv s
  refine ⟨r, t, evs, heq, hlog, ho.balanced, ?_⟩
  rcases ho.result with hr | hr
  · exact Or.inl ⟨hr, ho.failed hr, ho.freed hr⟩
  · obtain ⟨hrep, hbuilt, hfreed⟩ := ho.succeeded hr
    exact Or.inr ⟨hr, hbuilt, hfreed, hrep.uid, hrep.gid, hrep.ofile, hrep.cwd⟩

end Exec

end Xv6
