import Xv6.Syscall.Args
import Xv6.Fs.Syscall

/-!
# The buffer of `read` and `write`

Which addresses of the process `sys_read` and `sys_write` access through the buffer they are
given, for every kind of open file. A length is an `int` up to `fileread` and `filewrite`, and a
`uint` in `readi` and `writei`. What a call meets on its way is in `Meets`: a file is shared, so
that each time its inode is locked the offset and the inode can be new.
-/

open BitVec (le_def lt_def toNat_add)

namespace Xv6

namespace ReadWrite

open Fs (hasDevice maxChunk)

structure Seen where
  off : Word
  d : Dinode

structure Meets where
  /-- each time the inode is locked -/
  seen : Nat → Seen
  /-- the characters the console gives before the process is killed -/
  input : List Byte
  /-- how many bytes the pipe gives or takes before the transfer ends there -/
  pipe : Nat

/-! ## The devices and pipes -/

/-- `addr[i]` for `i` from a start on, in the loops of `pipe.c`. -/
def pipeLoop (addr : Word) (n : Int) : Nat → Nat → List Word
  | 0, _ => []
  | k + 1, i => if i < n then (addr + BitVec.ofNat 32 i) :: pipeLoop addr n k (i + 1) else []

def piperead (m : Meets) (addr : Word) (n : Int) : List Word := pipeLoop addr n m.pipe 0

def pipewrite (m : Meets) (addr : Word) (n : Int) : List Word := pipeLoop addr n m.pipe 0

def consoleread : List Byte → Word → Int → List Word
  -- killed while it waits for more
  | [], _, _ => []
  | c :: input, dst, n =>
    if n > 0 then
      -- C('D')
      if c = 4 then []
      else dst :: if c = 10 then [] else consoleread input (dst + 1) (n - 1)
    else []

def consolewrite (buf : Word) (n : Int) : List Word :=
  (List.range n.toNat).map fun i => buf + BitVec.ofNat 32 i

/-! ## The inodes -/

def memmove (a : Word) (m : Nat) : List Word := (List.range m).map fun i => a + BitVec.ofNat 32 i

/-- The loop of `readi` and `writei`, of which `n` bytes are left. -/
def blockLoop : Nat → Word → Nat → Nat → List Word
  | 0, _, _, _ => []
  | turns + 1, a, off, n =>
    if n = 0 then []
    else
      let m := min n (BSIZE - off % BSIZE)
      memmove a m ++ blockLoop turns (a + BitVec.ofNat 32 m) (off + m) (n - m)

def readi (m : Meets) (s : Seen) (dst n : Word) : List Word :=
  if s.d.type = .dev then
    if hasDevice s.d.major then consoleread m.input dst n.toInt else []
  else if s.off > s.d.size ∨ s.off + n < s.off then []
  else
    let n := if s.off + n > s.d.size then s.d.size - s.off else n
    blockLoop n.toNat dst s.off.toNat n.toNat

def writei (s : Seen) (src n : Word) : List Word × Bool :=
  if s.d.type = .dev then
    if hasDevice s.d.major then (consolewrite src n.toInt, true) else ([], false)
  else if s.off > s.d.size ∨ s.off + n < s.off then ([], false)
  else if (s.off + n).toNat > MAXFILE * BSIZE then ([], false)
  else (blockLoop n.toNat src s.off.toNat n.toNat, true)

/-! ## The files -/

def fileread (m : Meets) (f : File) (addr n : Word) : List Word :=
  if f.readable = false then []
  else
    match f.type with
    | .pipe => piperead m addr n.toInt
    | .inode => readi m (m.seen 0) addr n
    | .none => []

/-- The loop of `filewrite`, of which `n` bytes are left. -/
def writeLoop (m : Meets) : Nat → Nat → Word → Nat → List Word
  | 0, _, _, _ => []
  | turns + 1, i, addr, n =>
    if n = 0 then []
    else
      let n1 := min n maxChunk
      let (as, ok) := writei (m.seen i) addr (BitVec.ofNat 32 n1)
      as ++ if ok then writeLoop m turns (i + 1) (addr + BitVec.ofNat 32 n1) (n - n1) else []

def filewrite (m : Meets) (f : File) (addr n : Word) : List Word :=
  if f.writable = false then []
  else
    match f.type with
    | .pipe => pipewrite m addr n.toInt
    | .inode => writeLoop m n.toInt.toNat 0 addr n.toInt.toNat
    | .none => []

def argfd (u : UserMem) (ofile : Fin NOFILE → Option File) (n : Nat) : Option File :=
  match u.argint n with
  | none => none
  | some fd =>
    if h : 0 ≤ fd.toInt ∧ fd.toInt.toNat < NOFILE then ofile ⟨fd.toInt.toNat, h.2⟩ else none

def args (u : UserMem) (ofile : Fin NOFILE → Option File) : Option (File × Word × Word) :=
  match argfd u ofile 0, u.argint 2 with
  | some f, some n => (u.argptr 1 n).map fun p => (f, p, n)
  | _, _ => none

def sysRead (u : UserMem) (ofile : Fin NOFILE → Option File) (m : Meets) : List Word :=
  match args u ofile with
  | none => []
  | some (f, p, n) => fileread m f p n

def sysWrite (u : UserMem) (ofile : Fin NOFILE → Option File) (m : Meets) : List Word :=
  match args u ofile with
  | none => []
  | some (f, p, n) => filewrite m f p n

/-! ## Accesses near an address -/

/-- Each access is to one of the `k` bytes from `a` on. -/
def Near (a : Word) (k : Nat) (as : List Word) : Prop :=
  ∀ b ∈ as, ∃ i < k, b = a + BitVec.ofNat 32 i

namespace Near

variable {a : Word} {k l : Nat} {as bs : List Word}

theorem nil (a : Word) (k : Nat) : Near a k [] := fun _ h => absurd h (List.not_mem_nil)

theorem mono (h : Near a k as) (hkl : k ≤ l) : Near a l as := by
  intro b hb
  obtain ⟨i, hi, heq⟩ := h b hb
  exact ⟨i, Nat.lt_of_lt_of_le hi hkl, heq⟩

theorem range (a : Word) (k : Nat) :
    Near a k ((List.range k).map fun i => a + BitVec.ofNat 32 i) := by
  intro b hb
  obtain ⟨i, hi, rfl⟩ := List.mem_map.mp hb
  exact ⟨i, List.mem_range.mp hi, rfl⟩

theorem shift (h : Near (a + BitVec.ofNat 32 l) k as) : Near a (l + k) as := by
  intro b hb
  obtain ⟨i, hi, rfl⟩ := h b hb
  refine ⟨l + i, by omega, ?_⟩
  rw [BitVec.add_assoc, BitVec.ofNat_add]

theorem append (has : Near a k as) (hbs : Near a k bs) : Near a k (as ++ bs) := by
  intro b hb
  rcases List.mem_append.mp hb with h | h
  · exact has b h
  · exact hbs b h

end Near

theorem pipeLoop_near (addr : Word) (n : Int) (k i : Nat) :
    Near addr n.toNat (pipeLoop addr n k i) := by
  induction k generalizing i with
  | zero => exact Near.nil _ _
  | succ k ih =>
    unfold pipeLoop
    split
    · next hlt =>
      intro b hb
      rcases List.mem_cons.mp hb with rfl | hb
      · exact ⟨i, by omega, rfl⟩
      · exact ih (i + 1) b hb
    · exact Near.nil _ _

theorem consoleread_near (input : List Byte) (dst : Word) (n : Int) :
    Near dst n.toNat (consoleread input dst n) := by
  induction input generalizing dst n with
  | nil => exact Near.nil _ _
  | cons c input ih =>
    unfold consoleread
    split
    · next hn =>
      have hone : n.toNat = 1 + (n - 1).toNat := by omega
      split
      · exact Near.nil _ _
      · intro b hb
        rcases List.mem_cons.mp hb with rfl | hb
        · exact ⟨0, by omega, (BitVec.add_zero b).symm⟩
        · split at hb
          · cases hb
          · rw [hone]
            exact Near.shift (l := 1) (ih (dst + 1) (n - 1)) b hb
    · exact Near.nil _ _

theorem blockLoop_near (turns : Nat) (a : Word) (off n : Nat) :
    Near a n (blockLoop turns a off n) := by
  induction turns generalizing a off n with
  | zero => exact Near.nil _ _
  | succ turns ih =>
    unfold blockLoop
    split
    · exact Near.nil _ _
    · have hle := Nat.min_le_left n (BSIZE - off % BSIZE)
      refine Near.append ((Near.range a _).mono hle) ?_
      have hrest := Near.shift (ih (a + BitVec.ofNat 32 (min n (BSIZE - off % BSIZE)))
        (off + min n (BSIZE - off % BSIZE)) (n - min n (BSIZE - off % BSIZE)))
      rwa [Nat.add_sub_cancel' hle] at hrest

theorem mem_blockLoop (turns : Nat) (a : Word) (off n : Nat) (hn : 0 < n) :
    a ∈ blockLoop (turns + 1) a off n := by
  unfold blockLoop
  rw [if_neg (Nat.pos_iff_ne_zero.mp hn)]
  have hmod : off % BSIZE < BSIZE := Nat.mod_lt _ (by decide)
  refine List.mem_append_left _ (List.mem_map.mpr ⟨0, ?_, BitVec.add_zero a⟩)
  rw [List.mem_range]
  omega

theorem maxChunk_lt : maxChunk < 2 ^ 31 := by decide

theorem writei_near (s : Seen) (src : Word) (n : Nat) (hn : n ≤ maxChunk) :
    Near src n (writei s src (BitVec.ofNat 32 n)).1 := by
  have hmax := maxChunk_lt
  have hnat : (BitVec.ofNat 32 n).toNat = n := by
    rw [BitVec.toNat_ofNat]
    omega
  have hint : (BitVec.ofNat 32 n).toInt.toNat = n := by
    rw [BitVec.toInt_eq_toNat_of_lt (by omega), hnat, Int.toNat_natCast]
  unfold writei
  split
  · split
    · unfold consolewrite
      rw [hint]
      exact Near.range src n
    · exact Near.nil _ _
  · split
    · exact Near.nil _ _
    · split
      · exact Near.nil _ _
      · have hloop := blockLoop_near (BitVec.ofNat 32 n).toNat src s.off.toNat n
        rwa [hnat] at hloop ⊢

theorem writeLoop_near (m : Meets) (turns i : Nat) (addr : Word) (n : Nat) :
    Near addr n (writeLoop m turns i addr n) := by
  induction turns generalizing i addr n with
  | zero => exact Near.nil _ _
  | succ turns ih =>
    unfold writeLoop
    split
    · exact Near.nil _ _
    · have hle := Nat.min_le_left n maxChunk
      have hchunk := writei_near (m.seen i) addr (min n maxChunk) (Nat.min_le_right ..)
      dsimp only
      refine Near.append (hchunk.mono hle) ?_
      split
      · have hrest := Near.shift (ih (i + 1) (addr + BitVec.ofNat 32 (min n maxChunk))
          (n - min n maxChunk))
        rwa [Nat.add_sub_cancel' hle] at hrest
      · exact Near.nil _ _

/-! ## Reads and writes -/

theorem filewrite_near (m : Meets) (f : File) (addr n : Word) :
    Near addr n.toInt.toNat (filewrite m f addr n) := by
  unfold filewrite
  split
  · exact Near.nil _ _
  · split
    · exact pipeLoop_near addr n.toInt m.pipe 0
    · exact writeLoop_near m n.toInt.toNat 0 addr n.toInt.toNat
    · exact Near.nil _ _

/-- A file or a directory of which some bytes are behind the offset, and a negative length
that does not take the offset below 0: `readi` takes the length for a large one, and clips it
to what is left of the file. -/
structure Clips (f : File) (s : Seen) (n : Word) : Prop where
  inode : f.type = .inode
  readable : f.readable = true
  type : s.d.type ≠ .dev
  neg : n.toInt < 0
  below : (s.off.toNat : Int) < -n.toInt
  left : s.off < s.d.size

theorem toNat_of_neg {n : Word} (h : n.toInt < 0) : (n.toNat : Int) = 2 ^ 32 + n.toInt := by
  rw [BitVec.toInt_eq_toNat_cond] at h ⊢
  split at h
  · omega
  · next hge =>
    rw [if_neg hge]
    omega

theorem toInt_of_nonneg {n : Word} (h : 0 ≤ n.toInt) : n.toInt.toNat = n.toNat := by
  rw [BitVec.toInt_eq_toNat_cond] at h ⊢
  split at h
  · next hlt => rw [if_pos hlt, Int.toNat_natCast]
  · have := n.isLt
    omega

theorem clipped_le {s : Seen} {n : Word} (hoff : s.off ≤ s.d.size) (hwrap : s.off ≤ s.off + n)
    (h : 0 ≤ n.toInt ∨ -n.toInt ≤ s.off.toNat ∨ s.d.size ≤ s.off) :
    (if s.off + n > s.d.size then s.d.size - s.off else n).toNat ≤ n.toInt.toNat := by
  have hlt := s.off.isLt
  have hlt' := n.isLt
  have hsub := BitVec.toNat_sub_of_le hoff
  rw [le_def] at hoff hwrap
  rw [toNat_add] at hwrap
  by_cases hpos : 0 ≤ n.toInt
  · rw [toInt_of_nonneg hpos]
    split
    · next hbig =>
      rw [gt_iff_lt, lt_def, toNat_add] at hbig
      omega
    · exact Nat.le_refl _
  · have hnat := toNat_of_neg (Int.not_le.mp hpos)
    rcases h with h | h | h
    · exact absurd h hpos
    · omega
    · rw [le_def] at h
      split
      · omega
      · next hsmall =>
        rw [gt_iff_lt, BitVec.not_lt, le_def, toNat_add] at hsmall
        omega

theorem readi_near {m : Meets} {s : Seen} {n : Word} (dst : Word)
    (h : s.d.type = .dev ∨ 0 ≤ n.toInt ∨ -n.toInt ≤ s.off.toNat ∨ s.d.size ≤ s.off) :
    Near dst n.toInt.toNat (readi m s dst n) := by
  unfold readi
  split
  · split
    · exact consoleread_near m.input dst n.toInt
    · exact Near.nil _ _
  · next htype =>
    split
    · exact Near.nil _ _
    · next hok =>
      rw [not_or, gt_iff_lt, BitVec.not_lt, BitVec.not_lt] at hok
      have hclip := clipped_le hok.1 hok.2 (h.resolve_left htype)
      exact (show Near dst _ _ from blockLoop_near _ dst _ _).mono hclip

theorem fileread_near {m : Meets} {f : File} {n : Word} (addr : Word)
    (h : ¬ Clips f (m.seen 0) n) : Near addr n.toInt.toNat (fileread m f addr n) := by
  unfold fileread
  split
  · exact Near.nil _ _
  · next hr =>
    split
    · exact pipeLoop_near addr n.toInt m.pipe 0
    · next hinode =>
      refine readi_near addr ?_
      by_contra hno
      rw [not_or, not_or, not_or, Int.not_le, Int.not_le, BitVec.not_le] at hno
      exact h ⟨hinode, Bool.of_not_eq_false hr, hno.1, hno.2.1, hno.2.2.1, hno.2.2.2⟩
    · exact Near.nil _ _

theorem Clips.mem_fileread {m : Meets} {f : File} {n : Word} (h : Clips f (m.seen 0) n)
    (addr : Word) : addr ∈ fileread m f addr n := by
  have hneg := toNat_of_neg h.neg
  have hleft := h.left
  have hsub := BitVec.toNat_sub_of_le (BitVec.le_of_lt hleft)
  have hlt := (m.seen 0).d.size.isLt
  have hbelow := h.below
  have hnlt := n.isLt
  rw [lt_def] at hleft
  have hsum : ((m.seen 0).off + n).toNat = (m.seen 0).off.toNat + n.toNat := by
    rw [toNat_add]
    omega
  have hok : ¬ ((m.seen 0).off > (m.seen 0).d.size ∨ (m.seen 0).off + n < (m.seen 0).off) := by
    rw [not_or, gt_iff_lt, BitVec.not_lt, BitVec.not_lt, le_def, le_def, hsum]
    omega
  unfold fileread readi
  rw [if_neg (by rw [h.readable]; decide), h.inode]
  dsimp only
  rw [if_neg h.type, if_neg hok]
  have hpos : 0 < (if (m.seen 0).off + n > (m.seen 0).d.size then (m.seen 0).d.size - (m.seen 0).off
      else n).toNat := by
    split
    · rw [hsub]
      exact Nat.sub_pos_of_lt hleft
    · have := BitVec.le_toInt n
      omega
  obtain ⟨k, hk⟩ := Nat.exists_eq_succ_of_ne_zero (Nat.pos_iff_ne_zero.mp hpos)
  rw [hk]
  exact mem_blockLoop k addr _ _ (Nat.succ_pos k)

/-! ## Confinement -/

/-- The accesses are inside the `n` bytes from `addr` on, and inside the process: with a
negative `n` there are none. -/
def Confined (sz addr n : Word) (as : List Word) : Prop :=
  ∀ a ∈ as, addr.toNat ≤ a.toNat ∧ (a.toNat : Int) < addr.toNat + n.toInt ∧ a.toNat < sz.toNat

/-- `argptr` accepts the buffer; the sum is one of unsigned numbers. -/
def Passes (sz addr n : Word) : Prop := addr < sz ∧ addr + n ≤ sz

instance (sz addr n : Word) : Decidable (Passes sz addr n) :=
  inferInstanceAs (Decidable (_ ∧ _))

theorem Near.confined {sz addr n : Word} {as : List Word} (h : Near addr n.toInt.toNat as)
    (hsz : sz ≤ KERNBASE) (hp : Passes sz addr n) : Confined sz addr n as := by
  intro a ha
  obtain ⟨i, hi, rfl⟩ := h a ha
  have hkern : sz.toNat ≤ 2 ^ 31 := le_def.mp hsz
  have haddr := lt_def.mp hp.1
  have hend := le_def.mp hp.2
  have hpos : 0 ≤ n.toInt := by omega
  have hn := toInt_of_nonneg hpos
  have hn' : n.toNat < 2 ^ 31 := by
    have := BitVec.toInt_lt (x := n)
    omega
  rw [toNat_add] at hend
  rw [toNat_add, BitVec.toNat_ofNat]
  omega

theorem argptr_eq (u : UserMem) {addr n : Word} (haddr : u.argint 1 = some addr) :
    u.argptr 1 n = if Passes u.sz addr n then some addr else none := by
  unfold UserMem.argptr
  rw [haddr]
  dsimp only
  by_cases hp : Passes u.sz addr n
  · rw [if_pos hp, if_neg]
    rwa [not_or, ge_iff_le, gt_iff_lt, BitVec.not_le, BitVec.not_lt]
  · rw [if_neg hp, if_pos]
    by_contra hno
    rw [not_or, ge_iff_le, gt_iff_lt, BitVec.not_le, BitVec.not_lt] at hno
    exact hp hno

theorem args_eq (u : UserMem) (ofile : Fin NOFILE → Option File) {addr n : Word}
    (haddr : u.argint 1 = some addr) (hn : u.argint 2 = some n) :
    args u ofile =
      (argfd u ofile 0).bind fun f => if Passes u.sz addr n then some (f, addr, n) else none := by
  unfold args
  rw [hn]
  cases argfd u ofile 0 with
  | none => rfl
  | some f =>
    dsimp only [Option.bind]
    rw [argptr_eq u haddr]
    split <;> rfl

/-- What goes wrong: a buffer with a negative length that passes, for a file that is clipped. -/
def Escapes (u : UserMem) (ofile : Fin NOFILE → Option File) (m : Meets) (addr n : Word) : Prop :=
  ∃ f, argfd u ofile 0 = some f ∧ Passes u.sz addr n ∧ Clips f (m.seen 0) n

/-- In a process below `KERNBASE`, `write` accesses only the bytes of its buffer, and `read`
does if and only if it is not called with a negative length, such that the buffer passes
`argptr`, for a file or directory that can be read, with bytes behind the offset and an
offset below minus the length. -/
theorem confined_unless_clipped (u : UserMem) (ofile : Fin NOFILE → Option File) (m : Meets)
    (addr n : Word) (hsz : u.sz ≤ KERNBASE) (haddr : u.argint 1 = some addr)
    (hn : u.argint 2 = some n) :
    Confined u.sz addr n (sysWrite u ofile m) ∧
      (Confined u.sz addr n (sysRead u ofile m) ↔ ¬ Escapes u ofile m addr n) := by
  unfold sysWrite sysRead Escapes
  rw [args_eq u ofile haddr hn]
  cases argfd u ofile 0 with
  | none => simp [Confined]
  | some f =>
    dsimp only [Option.bind]
    by_cases hp : Passes u.sz addr n
    · rw [if_pos hp]
      refine ⟨(filewrite_near m f addr n).confined hsz hp, fun hconf => ?_, fun hno => ?_⟩
      · rintro ⟨f', hf, -, hclips⟩
        cases hf
        -- the first byte of the buffer is not in a buffer of negative length
        have hfirst := (hconf addr (hclips.mem_fileread addr)).2.1
        have := hclips.neg
        omega
      · refine (fileread_near addr fun hclips => ?_).confined hsz hp
        exact hno ⟨f, rfl, hp, hclips⟩
    · rw [if_neg hp]
      refine ⟨fun a ha => absurd ha (List.not_mem_nil), fun _ => ?_,
        fun _ a ha => absurd ha (List.not_mem_nil)⟩
      rintro ⟨f', -, hp', -⟩
      exact hp hp'

/-- A process of one page that calls `read` or `write` with descriptor 0, a buffer at 100 and
a length. -/
def callerWith (n : Word) : UserMem where
  sz := 4096
  esp := 0
  byte := fun a =>
    if a = 8 then 100
    else if 12 ≤ a ∧ a < 16 then n.extractLsb' (8 * (a.toNat - 12)) 8
    else 0

def longFile : File where
  type := .inode
  ref := 1
  readable := true
  writable := false
  pipe := 0
  ip := 0
  off := 0

def meetsLong : Meets where
  seen := fun _ => ⟨0, ⟨.file, 0, 0, 1, 0, 0, 0, 5000, fun _ => 0⟩⟩
  input := []
  pipe := 0

/-- Reading ten bytes is confined. -/
theorem ten_bytes_confined : (callerWith 10).argint 2 = some 10 ∧
    Confined 4096 100 10 (sysRead (callerWith 10) (fun _ => some longFile) meetsLong) := by
  refine ⟨by decide, ?_⟩
  refine (confined_unless_clipped (callerWith 10) (fun _ => some longFile) meetsLong 100 10
    (by decide) (by decide) (by decide)).2.mpr ?_
  rintro ⟨f, -, -, hclips⟩
  exact absurd hclips.neg (by decide)

/-- Reading −100 bytes stores the file from the buffer on, behind the end of the process. -/
theorem negative_length_escapes : (callerWith (-100)).argint 2 = some (-100) ∧
    5000 ∈ sysRead (callerWith (-100)) (fun _ => some longFile) meetsLong ∧
    ¬ Confined 4096 100 (-100)
      (sysRead (callerWith (-100)) (fun _ => some longFile) meetsLong) := by
  have hmem : 5000 ∈ sysRead (callerWith (-100)) (fun _ => some longFile) meetsLong := by
    decide +kernel
  refine ⟨by decide, hmem, fun h => ?_⟩
  exact absurd (h 5000 hmem).2.2 (by decide)

end ReadWrite

end Xv6
