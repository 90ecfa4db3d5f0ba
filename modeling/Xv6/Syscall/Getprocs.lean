import Xv6.Proc.Table
import Xv6.Syscall.Args

/-!
# `getprocs`

`sys_getprocs` and `getprocs`, with every byte that is stored in the table of the caller.
The entries are right for every table pointer and every `max`; the check of the pointer
is for one entry, so that only a table that holds all of them is safe.
-/

namespace Xv6

namespace Getprocs

def STRMAX : Nat := 32

/-- `sizeof(struct uproc)`: six `uint`, `state`, `size`, `name` and `priority`. -/
def UPROCSIZE : Nat := 6 * 4 + STRMAX + 4 + STRMAX + 4

def chars (x : String) : List Byte := x.toList.map fun c => BitVec.ofNat 8 c.toNat

def stateName : ProcState → Option String
  | .runnable => some "RUNNABLE"
  | .running => some "RUNNING"
  | .sleeping => some "SLEEPING"
  | .zombie => some "ZOMBIE"
  | _ => none

def active (c : Core) (p : Slot) : Bool :=
  (c.proc p).state ≠ .unused && (c.proc p).state ≠ .embryo

/-- `ppid` of an entry; `null` is what stands in memory where `pid` of a null pointer would
be. -/
def ppid (c : Core) (null : Word) (p : Slot) : Word :=
  if (c.proc p).pid = 1 then 1
  else ((c.proc p).parent.map fun q => (c.proc q).pid).getD null

/-- The assignments to the entry at `a`. -/
def entry (c : Core) (ticks null : Word) (p : Slot) (a : Word) : List (Word × Byte) :=
  let x := c.proc p
  storesAt a (bytesOf x.pid) ++ storesAt (a + 4) (bytesOf x.uid) ++
    storesAt (a + 8) (bytesOf x.gid) ++ storesAt (a + 12) (bytesOf (ppid c null p)) ++
    storesAt (a + 16) (bytesOf (ticks - x.startTicks)) ++
    storesAt (a + 20) (bytesOf x.cpuTicksTotal) ++ storesAt (a + 56) (bytesOf x.sz) ++
    storesAt (a + 92) (bytesOf (BitVec.ofInt 32 x.prio)) ++
    storesAt (a + 60) (safestrcpy STRMAX (chars x.name)) ++
    ((stateName x.state).elim [] fun t => storesAt (a + 24) (safestrcpy STRMAX (chars t)))

def slotAt (table : Word) (i : Nat) : Word := table + BitVec.ofNat 32 (UPROCSIZE * i)

/-- The loop of `getprocs`: the number of entries and what is stored. -/
def loop (c : Core) (ticks null : Word) (max : Int) (table : Word) :
    List Slot → Nat → Nat × List (Word × Byte)
  | [], i => (i, [])
  | p :: ps, i =>
    if (i : Int) < max then
      if active c p then
        let (n, stores) := loop c ticks null max table ps (i + 1)
        (n, entry c ticks null p (slotAt table i) ++ stores)
      else loop c ticks null max table ps i
    else (i, [])

def getprocs (c : Core) (ticks null : Word) (max : Int) (table : Word) :
    Nat × List (Word × Byte) :=
  loop c ticks null max table (List.finRange NPROC) 0

def sysGetprocs (u : UserMem) (c : Core) (ticks null : Word) : Int × List (Word × Byte) :=
  match u.argint 0, u.argptr 1 (BitVec.ofNat 32 UPROCSIZE) with
  | some max, some table =>
    let (n, stores) := getprocs c ticks null max.toInt table
    (n, stores)
  | _, _ => (-1, [])

/-! ## The entries -/

section Loop

variable {c : Core} {ticks null table : Word} {max : Int}

/-- The entries for a list of processes, from index `i` on. -/
def entries (c : Core) (ticks null table : Word) (ps : List Slot) (i : Nat) :
    List (Word × Byte) :=
  (ps.zipIdx i).flatMap fun (p, j) => entry c ticks null p (slotAt table j)

theorem loop_eq (ps : List Slot) (i : Nat) (hi : (i : Int) ≤ max ∨ i = 0) :
    loop c ticks null max table ps i =
      (i + min (max.toNat - i) (ps.filter (active c)).length,
        entries c ticks null table ((ps.filter (active c)).take (max.toNat - i)) i) := by
  induction ps generalizing i with
  | nil => simp [loop, entries]
  | cons p ps ih =>
    unfold loop
    split
    · next hlt =>
      by_cases ha : active c p = true
      · rw [if_pos ha, ih (i + 1) (Or.inl (by omega)), List.filter_cons_of_pos ha]
        have hsub : max.toNat - i = (max.toNat - (i + 1)) + 1 := by omega
        rw [hsub, List.take_succ_cons, List.length_cons, Prod.mk.injEq]
        exact ⟨by omega, rfl⟩
      · rw [if_neg ha, ih i hi, List.filter_cons_of_neg ha]
    · next hge =>
      have hz : max.toNat - i = 0 := by omega
      simp [hz, entries]

def listed (c : Core) : List Slot := (List.finRange NPROC).filter (active c)

theorem getprocs_eq (c : Core) (ticks null : Word) (max : Int) (table : Word) :
    getprocs c ticks null max table =
      (min max.toNat (listed c).length,
        entries c ticks null table ((listed c).take max.toNat) 0) := by
  unfold getprocs
  rw [loop_eq _ 0 (Or.inr rfl), Nat.sub_zero, Nat.zero_add]
  rfl

end Loop

/-! ## The addresses -/

section Addresses

variable {c : Core} {ticks null table a : Word} {st : Word × Byte}

theorem mem_field {k n : Nat} {bytes : List Byte} (h : st ∈ storesAt (a + BitVec.ofNat 32 k) bytes)
    (hn : k + bytes.length ≤ n) : ∃ j < n, st.1 = a + BitVec.ofNat 32 j := by
  obtain ⟨i, hi, heq⟩ := mem_storesAt h
  refine ⟨k + i, by omega, ?_⟩
  rw [heq, BitVec.add_assoc, BitVec.ofNat_add]

theorem mem_entry {p : Slot} (h : st ∈ entry c ticks null p a) :
    ∃ j < UPROCSIZE, st.1 = a + BitVec.ofNat 32 j := by
  have hword : ∀ {k : Nat} {x : Word}, k + 4 ≤ UPROCSIZE →
      st ∈ storesAt (a + BitVec.ofNat 32 k) (bytesOf x) →
      ∃ j < UPROCSIZE, st.1 = a + BitVec.ofNat 32 j :=
    fun hk hmem => mem_field hmem hk
  have htext : ∀ {k : Nat} {x : List Byte}, k + STRMAX ≤ UPROCSIZE →
      st ∈ storesAt (a + BitVec.ofNat 32 k) (safestrcpy STRMAX x) →
      ∃ j < UPROCSIZE, st.1 = a + BitVec.ofNat 32 j := by
    intro k x hk hmem
    exact mem_field hmem (Nat.le_trans (Nat.add_le_add_left (length_safestrcpy_le _ _) k) hk)
  unfold entry at h
  simp only [List.mem_append, or_assoc] at h
  rcases h with h | h | h | h | h | h | h | h | h | h
  · exact hword (k := 0) (by decide) (by rwa [BitVec.add_zero])
  · exact hword (k := 4) (by decide) h
  · exact hword (k := 8) (by decide) h
  · exact hword (k := 12) (by decide) h
  · exact hword (k := 16) (by decide) h
  · exact hword (k := 20) (by decide) h
  · exact hword (k := 56) (by decide) h
  · exact hword (k := 92) (by decide) h
  · exact htext (k := 60) (by decide) h
  · cases hs : stateName (c.proc p).state with
    | none => simp [hs] at h
    | some t =>
      rw [hs] at h
      exact htext (k := 24) (by decide) h

theorem last_mem_entry (c : Core) (ticks null a : Word) (p : Slot) :
    ∃ b, (a + BitVec.ofNat 32 (UPROCSIZE - 1), b) ∈ entry c ticks null p a := by
  refine ⟨(BitVec.ofInt 32 (c.proc p).prio).extractLsb' 24 8, ?_⟩
  unfold entry
  simp only [List.mem_append]
  refine Or.inl (Or.inl (Or.inr ?_))
  have hadd : a + BitVec.ofNat 32 (UPROCSIZE - 1) = a + 92 + BitVec.ofNat 32 3 := by
    rw [BitVec.add_assoc]
    rfl
  rw [hadd]
  exact List.mem_map.mpr ⟨(_, 3), by simp [bytesOf, List.range_succ], rfl⟩

theorem mem_entries {ps : List Slot} (h : st ∈ entries c ticks null table ps 0) :
    ∃ j < UPROCSIZE * ps.length, st.1 = table + BitVec.ofNat 32 j := by
  obtain ⟨⟨p, i⟩, hmem, hst⟩ := List.mem_flatMap.mp h
  obtain ⟨j, hj, heq⟩ := mem_entry hst
  have hi : i < ps.length := (List.mem_zipIdx' hmem).1
  refine ⟨UPROCSIZE * i + j, ?_, ?_⟩
  · have := Nat.mul_le_mul_left UPROCSIZE (Nat.succ_le_of_lt hi)
    rw [Nat.mul_succ] at this
    omega
  · rw [heq, slotAt, BitVec.add_assoc, BitVec.ofNat_add]

theorem last_mem_entries (c : Core) (ticks null table : Word) {ps : List Slot} (hps : ps ≠ []) :
    ∃ b, (table + BitVec.ofNat 32 (UPROCSIZE * ps.length - 1), b) ∈
      entries c ticks null table ps 0 := by
  have hlen : 0 < ps.length := List.length_pos_of_ne_nil hps
  obtain ⟨b, hb⟩ := last_mem_entry c ticks null (slotAt table (ps.length - 1))
    (ps.get ⟨ps.length - 1, by omega⟩)
  refine ⟨b, List.mem_flatMap.mpr ⟨(ps.get ⟨ps.length - 1, by omega⟩, ps.length - 1), ?_, ?_⟩⟩
  · rw [List.mem_zipIdx_iff_getElem?]
    simp [List.getElem?_eq_getElem (show ps.length - 1 < ps.length by omega)]
  · have hadd : table + BitVec.ofNat 32 (UPROCSIZE * ps.length - 1) =
        slotAt table (ps.length - 1) + BitVec.ofNat 32 (UPROCSIZE - 1) := by
      rw [slotAt, BitVec.add_assoc, ← BitVec.ofNat_add]
      congr 2
      unfold UPROCSIZE STRMAX
      omega
    rwa [hadd]

end Addresses

/-- All bytes are stored below `sz`. -/
def Confined (sz : Word) (stores : List (Word × Byte)) : Prop := ∀ st ∈ stores, st.1 < sz

theorem length_listed_le (c : Core) : (listed c).length ≤ NPROC := by
  have := List.length_filter_le (active c) (List.finRange NPROC)
  rwa [List.length_finRange] at this

theorem entries_confined {c : Core} {ticks null table sz : Word} {ps : List Slot}
    (h : table.toNat + UPROCSIZE * ps.length ≤ sz.toNat) :
    Confined sz (entries c ticks null table ps 0) := by
  intro st hst
  obtain ⟨j, hj, heq⟩ := mem_entries hst
  have := sz.isLt
  rw [heq, BitVec.lt_def, BitVec.toNat_add, BitVec.toNat_ofNat]
  omega

theorem confined_iff {c : Core} {ticks null table sz : Word} {ps : List Slot}
    (hps : ps.length ≤ NPROC) (htable : table.toNat < sz.toNat) (hsz : sz ≤ KERNBASE) :
    Confined sz (entries c ticks null table ps 0) ↔
      table.toNat + UPROCSIZE * ps.length ≤ sz.toNat := by
  refine ⟨fun h => ?_, entries_confined⟩
  by_cases hnil : ps = []
  · simp [hnil]
    omega
  · obtain ⟨b, hb⟩ := last_mem_entries c ticks null table hnil
    have hlt := BitVec.lt_def.mp (h _ hb)
    have hk : sz.toNat ≤ 2 ^ 31 := BitVec.le_def.mp hsz
    have hlen : 0 < ps.length := List.length_pos_of_ne_nil hnil
    rw [BitVec.toNat_add, BitVec.toNat_ofNat] at hlt
    unfold UPROCSIZE STRMAX NPROC at *
    omega

/-- When `sys_getprocs` does not fail, it returns the number of entries and writes exactly the
first processes in use, in the order of their slots and inside the first `max` entries. All
of it is in the memory of the caller if, and for a process below `KERNBASE` only if, these
entries fit between the table and the end of the process. -/
theorem getprocs_confined_iff (u : UserMem) (c : Core) (ticks null : Word)
    (h : (sysGetprocs u c ticks null).1 ≠ -1) :
    ∃ max table, u.argint 0 = some max ∧ u.argptr 1 (BitVec.ofNat 32 UPROCSIZE) = some table ∧
      (sysGetprocs u c ticks null).1 = (min max.toInt.toNat (listed c).length : Nat) ∧
      (sysGetprocs u c ticks null).2 =
        entries c ticks null table ((listed c).take max.toInt.toNat) 0 ∧
      (∀ st ∈ (sysGetprocs u c ticks null).2,
        ∃ j < UPROCSIZE * max.toInt.toNat, st.1 = table + BitVec.ofNat 32 j) ∧
      (table.toNat + UPROCSIZE * min max.toInt.toNat (listed c).length ≤ u.sz.toNat →
        Confined u.sz (sysGetprocs u c ticks null).2) ∧
      (u.sz ≤ KERNBASE → (Confined u.sz (sysGetprocs u c ticks null).2 ↔
        table.toNat + UPROCSIZE * min max.toInt.toNat (listed c).length ≤ u.sz.toNat)) := by
  unfold sysGetprocs at h ⊢
  split at h
  · next max table hmax htable =>
    rw [hmax, htable, getprocs_eq]
    have hlen := List.length_take (i := max.toInt.toNat) (l := listed c)
    refine ⟨max, table, rfl, rfl, rfl, rfl, fun st hst => ?_, fun hfit => ?_, fun hsz => ?_⟩
    · obtain ⟨j, hj, heq⟩ := mem_entries hst
      refine ⟨j, Nat.lt_of_lt_of_le hj (Nat.mul_le_mul_left _ ?_), heq⟩
      rw [hlen]
      exact Nat.min_le_left ..
    · rw [← hlen] at hfit
      exact entries_confined hfit
    · rw [← hlen]
      refine confined_iff ?_ (u.argptr_lt htable).1 hsz
      rw [hlen]
      exact Nat.le_trans (Nat.min_le_right ..) (length_listed_le c)
  · exact absurd rfl h

def twoRunnable : Core where
  proc := fun p => if p = 0 ∨ p = 1 then { Proc.zero with state := .runnable, pid := 1 }
    else Proc.zero
  promoteAtTime := 0
  nextpid := 2
  initproc := some 0

/-- A process of 4096 bytes with the arguments `max` = 2 and a table pointer. -/
def callerWith (table : Word) : UserMem where
  sz := 4096
  esp := 0
  byte := fun a =>
    if a = 4 then 2
    else if a = 8 then table.extractLsb' 0 8
    else if a = 9 then table.extractLsb' 8 8
    else 0

/-- Both entries fit in front of the end of the process. -/
theorem two_entries_fit : (sysGetprocs (callerWith 3904) twoRunnable 0 0).1 = 2 ∧
    Confined 4096 (sysGetprocs (callerWith 3904) twoRunnable 0 0).2 := by
  have hok : (sysGetprocs (callerWith 3904) twoRunnable 0 0).1 = 2 := by decide +kernel
  obtain ⟨max, table, hmax, htable, -, -, -, hconf, -⟩ :=
    getprocs_confined_iff (callerWith 3904) twoRunnable 0 0 (by rw [hok]; decide)
  have hmax' : (callerWith 3904).argint 0 = some 2 := by decide
  have htable' : (callerWith 3904).argptr 1 (BitVec.ofNat 32 UPROCSIZE) = some 3904 := by decide
  cases hmax'.symm.trans hmax
  cases htable'.symm.trans htable
  exact ⟨hok, hconf (by decide +kernel)⟩

/-- The second entry is stored behind the end of the process. -/
theorem second_entry_outside : (sysGetprocs (callerWith 4000) twoRunnable 0 0).1 = 2 ∧
    ¬ Confined 4096 (sysGetprocs (callerWith 4000) twoRunnable 0 0).2 := by
  refine ⟨by decide +kernel, fun h => ?_⟩
  have hout : ((sysGetprocs (callerWith 4000) twoRunnable 0 0).2.any
      fun st => decide (¬ st.1 < (4096 : Word))) = true := by decide +kernel
  obtain ⟨st, hst, hge⟩ := List.any_eq_true.mp hout
  exact of_decide_eq_true hge (h st hst)

end Getprocs

end Xv6
