import Mathlib.Algebra.Group.Nat.Defs
import Xv6.Lib.Run
import Xv6.Lib.Segment

/-!
# `malloc` and `free`

The allocator of `umalloc.c` over the headers in the memory of a process. Addresses are
byte addresses, a header has eight bytes, and a block is its header and the units behind it.
What `sbrk` answers is the environment's: it refuses, or it gives memory at or above the
end of what it has given before.
-/

open List (map_append map_cons mem_append mem_cons mem_cons_of_mem mem_cons_self mem_map
  pairwise_append pairwise_cons)
open Function (update update_of_ne update_self update_eq_self)

namespace Xv6

namespace Malloc

open Segment

def HEADER : Nat := 8

structure Block where
  start : Nat
  units : Nat
  deriving DecidableEq, Repr

structure Heap where
  /-- `s.ptr` of the header at an address -/
  ptr : Nat → Nat
  /-- `s.size` of the header at an address -/
  size : Nat → Nat
  freep : Option Nat
  /-- the end of what `sbrk` has given -/
  brk : Nat
  /-- what `morecore` has obtained -/
  core : List Block

inductive Fault
  | nullPointer
  | diverge
  deriving DecidableEq, Repr

/-! ## The code -/

/-- The two tests that end the loop of `free`. -/
def slot (h : Heap) (bp p : Nat) : Bool :=
  (decide (bp > p) && decide (bp < h.ptr p)) ||
    (decide (p ≥ h.ptr p) && (decide (bp > p) || decide (bp < h.ptr p)))

/-- The block `bp`, with the free block that starts where it ends. -/
def joinNext (h : Heap) (p bp : Nat) : Heap :=
  if bp + h.size bp * HEADER = h.ptr p then
    { h with
      size := update h.size bp (h.size bp + h.size (h.ptr p))
      ptr := update h.ptr bp (h.ptr (h.ptr p)) }
  else { h with ptr := update h.ptr bp (h.ptr p) }

/-- The free block `p`, with the block `bp` behind it. -/
def joinPrev (h : Heap) (p bp : Nat) : Heap :=
  if p + h.size p * HEADER = bp then
    { h with
      size := update h.size p (h.size p + h.size bp)
      ptr := update h.ptr p (h.ptr bp) }
  else { h with ptr := update h.ptr p bp }

def free (fuel : Nat) (h : Heap) (ap : Nat) : Except Fault Heap :=
  match h.freep with
  | none => .error .nullPointer
  | some freep =>
    let bp := ap - HEADER
    match seek h.ptr (slot h bp) fuel freep with
    | none => .error .diverge
    | some p => .ok { joinPrev (joinNext h p bp) p bp with freep := some p }

/-- Ask for at least `4096` units; `answer` is what `sbrk` returns, `none` for `-1`. What it
gives is free memory from the old end on. -/
def morecore (fuel : Nat) (h : Heap) (nu : Nat) (answer : Option Nat) :
    Except Fault (Option Nat × Heap) :=
  let nu := if nu < 4096 then 4096 else nu
  match answer with
  | none => .ok (none, h)
  | some hp => do
    let h ← free fuel
      { h with
        size := update h.size hp nu
        brk := hp + nu * HEADER % 2 ^ 32
        core := ⟨hp, nu⟩ :: h.core } (hp + HEADER)
    .ok (h.freep, h)

/-- The block `p` is large enough: it leaves the list, or its tail is given out. -/
def take (h : Heap) (nunits prevp p : Nat) : Nat × Heap :=
  if h.size p = nunits then
    (p + HEADER,
      { h with
        ptr := update h.ptr prevp (h.ptr p)
        freep := some prevp })
  else
    let size := update h.size p (h.size p - nunits)
    let q := p + size p * HEADER
    (q + HEADER,
      { h with
        size := update size q nunits
        freep := some prevp })

/-- The loop of `malloc`; `sbrk` has the answers of the successive calls. -/
def mallocLoop (nunits : Nat) :
    Nat → Heap → (Nat → Option Nat) → Nat → Nat → Except Fault (Option Nat × Heap)
  | 0, _, _, _, _ => .error .diverge
  | fuel + 1, h, sbrk, prevp, p =>
    if h.size p ≥ nunits then
      let (ap, h) := take h nunits prevp p
      .ok (some ap, h)
    else if h.freep = some p then
      match morecore fuel h nunits (sbrk 0) with
      | .error e => .error e
      | .ok (none, h) => .ok (none, h)
      | .ok (some p, h) => mallocLoop nunits fuel h (fun i => sbrk (i + 1)) p (h.ptr p)
    else mallocLoop nunits fuel h sbrk p (h.ptr p)

/-- The list is made of `base` alone when `malloc` is called for the first time. -/
def initialise (base : Nat) (h : Heap) : Heap :=
  { h with
    ptr := update h.ptr base base
    size := update h.size base 0
    freep := some base }

/-- The units of a block with `nbytes` bytes behind its header, in unsigned arithmetic. -/
def units (nbytes : Nat) : Nat := (nbytes + HEADER - 1) % 2 ^ 32 / HEADER + 1

def malloc (fuel base : Nat) (h : Heap) (sbrk : Nat → Option Nat) (nbytes : Nat) :
    Except Fault (Option Nat × Heap) :=
  match h.freep with
  | some prevp => mallocLoop (units nbytes) fuel h sbrk prevp (h.ptr prevp)
  | none =>
    let h := initialise base h
    mallocLoop (units nbytes) fuel h sbrk base (h.ptr base)

/-! ## Blocks -/

namespace Block

def stop (b : Block) : Nat := b.start + b.units * HEADER

def covers (x : Nat) (b : Block) : Bool := decide (b.start ≤ x) && decide (x < b.stop)

theorem covers_iff {x : Nat} {b : Block} : b.covers x = true ↔ b.start ≤ x ∧ x < b.stop := by
  simp [covers]

end Block

def count (x : Nat) (l : List Block) : Nat := l.countP (Block.covers x)

@[simp] theorem count_nil (x : Nat) : count x [] = 0 := rfl

@[simp] theorem count_append (x : Nat) (l₁ l₂ : List Block) :
    count x (l₁ ++ l₂) = count x l₁ + count x l₂ := List.countP_append

theorem count_cons (x : Nat) (b : Block) (l : List Block) :
    count x (b :: l) = count x [b] + count x l := by
  rw [← List.singleton_append, count_append]

theorem count_pos {x : Nat} {b : Block} {l : List Block} (hb : b ∈ l) (hx : b.covers x = true) :
    0 < count x l := List.countP_pos_iff.mpr ⟨b, hb, hx⟩

theorem count_join (x n : Nat) (b : Block) :
    count x [⟨b.start, b.units + n⟩] = count x [b] + count x [⟨b.stop, n⟩] := by
  simp only [count, List.countP_cons, List.countP_nil, Block.covers_iff, Block.stop, HEADER]
  split_ifs <;> omega

/-! ## The free list -/

/-- The free blocks in the order of their addresses, `base` in front: the headers are
linked in that order, the last one to `base`, and between two blocks is a gap. -/
structure FreeList (base : Nat) (h : Heap) (l : List Block) : Prop where
  head : l.head? = some ⟨base, 0⟩
  ring : Links h.ptr base (l.map Block.start) base
  size : ∀ b ∈ l, h.size b.start = b.units
  apart : l.Pairwise fun a b => a.stop < b.start
  pos : ∀ b ∈ l, b.start ≠ base → 0 < b.units
  freep : ∃ b ∈ l, h.freep = some b.start

section FreeList

variable {base bp s nunits fuel : Nat} {h : Heap} {l l₁ l₂ : List Block} {p q b : Block}

theorem start_le_stop (b : Block) : b.start ≤ b.stop := by
  unfold Block.stop
  omega

theorem FreeList.sorted (hl : FreeList base h l) :
    (l.map Block.start).Pairwise (· < ·) := by
  rw [List.pairwise_map]
  exact hl.apart.imp fun hab => Nat.lt_of_le_of_lt (start_le_stop _) hab

theorem FreeList.nodup (hl : FreeList base h l) : (l.map Block.start).Nodup :=
  hl.sorted.imp fun hab => Nat.ne_of_lt hab

theorem FreeList.base_le (hl : FreeList base h l) (hb : b ∈ l) : base ≤ b.start := by
  obtain ⟨t, rfl⟩ := List.head?_eq_some_iff.mp hl.head
  rcases mem_cons.mp hb with rfl | hb
  · exact Nat.le_refl _
  · have hlt := (pairwise_cons.mp hl.apart).1 b hb
    exact Nat.le_of_lt (Nat.lt_of_le_of_lt (start_le_stop ⟨base, 0⟩) hlt)

theorem FreeList.eq_of_start (hl : FreeList base h l) (hp : p ∈ l) (hq : q ∈ l)
    (heq : p.start = q.start) : p = q :=
  List.inj_on_of_nodup_map hl.nodup hp hq heq

theorem freeList_initialise (base : Nat) (h : Heap) :
    FreeList base (initialise base h) [⟨base, 0⟩] where
  head := rfl
  ring := by simp [initialise]
  size := by simp [initialise]
  apart := List.pairwise_singleton _ _
  pos := by simp
  freep := ⟨⟨base, 0⟩, by simp, rfl⟩

theorem FreeList.ptr_cases (hl : FreeList base h (l₁ ++ p :: l₂)) :
    (l₂ = [] ∧ h.ptr p.start = base) ∨
      ∃ q l₃, l₂ = q :: l₃ ∧ h.ptr p.start = q.start ∧ p.stop < q.start := by
  have hring := hl.ring
  rw [map_append, map_cons] at hring
  have hnext := hring.next_eq
  cases l₂ with
  | nil => exact Or.inl ⟨rfl, hnext⟩
  | cons q l₃ =>
    have hgap := (pairwise_cons.mp (pairwise_append.mp hl.apart).2.1).1
    exact Or.inr ⟨q, l₃, rfl, hnext, hgap q mem_cons_self⟩

theorem FreeList.slot_iff (hl : FreeList base h (l₁ ++ p :: l₂)) (hbp : base < bp) :
    slot h bp p.start = true ↔ p.start < bp ∧ ∀ q ∈ l₂.head?, bp < q.start := by
  have hbase : base ≤ p.start := hl.base_le (by simp)
  have hstop := start_le_stop p
  rcases hl.ptr_cases with ⟨rfl, hptr⟩ | ⟨q, l₃, rfl, hptr, hgap⟩
  · simp only [slot, hptr, Bool.or_eq_true, Bool.and_eq_true, decide_eq_true_eq, List.head?_nil,
      Option.mem_def, reduceCtorEq, false_implies, implies_true, and_true]
    omega
  · simp only [slot, hptr, Bool.or_eq_true, Bool.and_eq_true, decide_eq_true_eq, List.head?_cons,
      Option.mem_def, Option.some.injEq, forall_eq']
    omega

theorem exists_last_below (hb : b ∈ l) (hlt : b.start < bp) (hne : ∀ b ∈ l, b.start ≠ bp) :
    ∃ l₁ p l₂, l = l₁ ++ p :: l₂ ∧ p.start < bp ∧ ∀ q ∈ l₂, bp < q.start := by
  induction l generalizing b with
  | nil => cases hb
  | cons a l ih =>
    by_cases hmore : ∃ c ∈ l, c.start < bp
    · obtain ⟨c, hc, hclt⟩ := hmore
      obtain ⟨l₁, p, l₂, rfl, hp, hl₂⟩ := ih hc hclt fun d hd => hne d (mem_cons_of_mem _ hd)
      exact ⟨a :: l₁, p, l₂, rfl, hp, hl₂⟩
    · rcases mem_cons.mp hb with rfl | hb
      · refine ⟨[], b, l, rfl, hlt, fun q hq => ?_⟩
        have hle : bp ≤ q.start := Nat.le_of_not_lt fun h => hmore ⟨q, hq, h⟩
        exact Nat.lt_of_le_of_ne hle (hne q (mem_cons_of_mem _ hq)).symm
      · exact absurd ⟨b, hb, hlt⟩ hmore

theorem FreeList.seek_eq {freep : Nat} (hl : FreeList base h (l₁ ++ p :: l₂)) (hbp : base < bp)
    (hp : p.start < bp) (hl₂ : ∀ q ∈ l₂, bp < q.start) (hfreep : h.freep = some freep)
    (hfuel : (l₁ ++ p :: l₂).length ≤ fuel) : seek h.ptr (slot h bp) fuel freep = some p.start := by
  have hring := hl.ring
  rw [map_append, map_cons] at hring
  refine seek_circular hring ?_ ?_ ?_ (by simpa using hfuel)
  · obtain ⟨b, hb, hbeq⟩ := hl.freep
    obtain rfl : freep = b.start := Option.some.inj (hfreep.symm.trans hbeq)
    rw [← map_cons, ← map_append]
    exact List.mem_map_of_mem hb
  · exact (hl.slot_iff hbp).mpr ⟨hp, fun q hq => hl₂ q (List.mem_of_mem_head? hq)⟩
  · intro c hc
    rw [← map_append, mem_map] at hc
    obtain ⟨b, hb, rfl⟩ := hc
    rw [← Bool.not_eq_true]
    rcases mem_append.mp hb with hb | hb
    · -- a block in front of `p`: what it points to is not above `p`
      obtain ⟨m₁, m₂, rfl⟩ := List.append_of_mem hb
      have hl' : FreeList base h (m₁ ++ b :: (m₂ ++ p :: l₂)) := by
        rwa [List.append_assoc, List.cons_append] at hl
      intro hslot
      have habove := ((hl'.slot_iff hbp).mp hslot).2
      cases m₂ with
      | nil =>
        have := habove p rfl
        omega
      | cons c m₂ =>
        have hlt := habove c rfl
        have hgap := (pairwise_append.mp hl.apart).2.2 c (by simp) p mem_cons_self
        have hstop := start_le_stop c
        omega
    · intro hslot
      obtain ⟨m₁, m₂, rfl⟩ := List.append_of_mem hb
      have hl' : FreeList base h ((l₁ ++ p :: m₁) ++ b :: m₂) := by
        rwa [List.append_assoc, List.cons_append]
      have hlt := ((hl'.slot_iff hbp).mp hslot).1
      have := hl₂ b (by simp)
      omega

theorem FreeList.order (hl : FreeList base h (l₁ ++ p :: l₂)) :
    (∀ b ∈ l₁, b.stop < p.start) ∧ (∀ q ∈ l₂, p.stop < q.start) ∧ l₁.Pairwise (·.stop < ·.start) ∧
      l₂.Pairwise (·.stop < ·.start) := by
  obtain ⟨h₁, h₂, h₁₂⟩ := pairwise_append.mp hl.apart
  obtain ⟨hp, h₂⟩ := pairwise_cons.mp h₂
  exact ⟨fun b hb => h₁₂ b hb p mem_cons_self, hp, h₁, h₂⟩

theorem FreeList.links (hl : FreeList base h (l₁ ++ p :: l₂)) :
    Links h.ptr (h.ptr p.start) (l₂.map Block.start) base := by
  have hring := hl.ring
  rw [map_append, map_cons] at hring
  exact (links_append_cons.mp hring).2

theorem FreeList.above (hl : FreeList base h (l₁ ++ p :: l₂)) (hb : b ∈ l₂) :
    p.start < b.start ∧ h.size b.start = b.units ∧ 0 < b.units := by
  have hlt := Nat.lt_of_le_of_lt (start_le_stop p) (hl.order.2.1 b hb)
  have hbase := hl.base_le (b := p) (by simp)
  exact ⟨hlt, hl.size b (by simp [hb]), hl.pos b (by simp [hb]) (by omega)⟩

theorem FreeList.splice {h' : Heap} {c : Block} {m : List Block} {v : Nat}
    (hl : FreeList base h (l₁ ++ p :: l₂)) (hc : c.start = p.start)
    (hlow : ∀ a < p.start, h'.ptr a = h.ptr a ∧ h'.size a = h.size a)
    (hfirst : l₁ = [] → c = p) (hpos : c = p ∨ 0 < c.units) (hsize : h'.size p.start = c.units)
    (hlinks : Links h'.ptr (h'.ptr p.start) (m.map Block.start) base)
    (hm : ∀ b ∈ m, c.stop < b.start ∧ h'.size b.start = b.units ∧ 0 < b.units)
    (hapart : m.Pairwise (·.stop < ·.start))
    (hfreep : h'.freep = some v) (hv : ∃ b ∈ l₁ ++ c :: m, b.start = v) :
    FreeList base h' (l₁ ++ c :: m) := by
  obtain ⟨hl₁, -, hpair, -⟩ := hl.order
  have hbelow {b : Block} (hb : b ∈ l₁) : b.start < p.start :=
    Nat.lt_of_le_of_lt (start_le_stop b) (hl₁ b hb)
  have hring := hl.ring
  rw [map_append, map_cons] at hring
  refine ⟨?_, ?_, fun b hb => ?_, ?_, fun b hb hne => ?_, ?_⟩
  · have hhead := hl.head
    cases l₁ with
    | nil =>
      rw [hfirst rfl]
      exact hhead
    | cons _ _ => exact hhead
  · rw [map_append, links_append]
    refine ⟨p.start, (links_append_cons.mp hring).1.congr fun a ha => ?_, hc.symm, hc ▸ hlinks⟩
    obtain ⟨b, hb, rfl⟩ := mem_map.mp ha
    exact (hlow _ (hbelow hb)).1
  · rcases mem_append.mp hb with hb | hb
    · rw [(hlow _ (hbelow hb)).2]
      exact hl.size b (List.mem_append_left _ hb)
    · rcases mem_cons.mp hb with rfl | hb
      · rwa [hc]
      · exact (hm b hb).2.1
  · refine pairwise_append.mpr ⟨hpair, pairwise_cons.mpr
      ⟨fun b hb => (hm b hb).1, hapart⟩, fun a ha b hb => Nat.lt_of_lt_of_le (hl₁ a ha) ?_⟩
    rcases mem_cons.mp hb with rfl | hb
    · exact Nat.le_of_eq hc.symm
    · have := (hm b hb).1
      have := start_le_stop c
      omega
  · rcases mem_append.mp hb with hb | hb
    · exact hl.pos b (List.mem_append_left _ hb) hne
    · rcases mem_cons.mp hb with rfl | hb
      · rcases hpos with rfl | hpos
        · exact hl.pos b (by simp) hne
        · exact hpos
      · exact (hm b hb).2.2
  · obtain ⟨b, hb, rfl⟩ := hv
    exact ⟨b, hb, hfreep⟩

/-- What `joinNext` makes of a block and of the free blocks above it. -/
structure Joined (base : Nat) (h : Heap) (b : Block) (l : List Block) (h' : Heap) (n : Nat)
    (l' : List Block) : Prop where
  size : h'.size = update h.size b.start n
  ptr : ∀ a, a ≠ b.start → h'.ptr a = h.ptr a
  links : Links h'.ptr (h'.ptr b.start) (l'.map Block.start) base
  suffix : l' <:+ l
  above : ∀ c ∈ l', b.start + n * HEADER < c.start
  grows : b.units ≤ n
  count : ∀ x, count x (⟨b.start, n⟩ :: l') = count x (b :: l)
  rest : h'.freep = h.freep ∧ h'.core = h.core ∧ h'.brk = h.brk

theorem not_mem_starts (hpos : 0 < b.units) (hl : ∀ q ∈ l, b.stop ≤ q.start) :
    b.start ∉ l.map Block.start := by
  intro hmem
  obtain ⟨q, hq, heq⟩ := mem_map.mp hmem
  have hle := hl q hq
  unfold Block.stop HEADER at hle
  omega

theorem FreeList.joinNext (hl : FreeList base h (l₁ ++ p :: l₂)) (hbase : base < b.start)
    (hsize : h.size b.start = b.units) (hpos : 0 < b.units) (hl₂ : ∀ q ∈ l₂, b.stop ≤ q.start) :
    ∃ n l₃, Joined base h b l₂ (joinNext h p.start b.start) n l₃ := by
  have hlinks := hl.links
  have hstop : b.start + h.size b.start * HEADER = b.stop := by rw [hsize]; rfl
  unfold Malloc.joinNext
  rw [hstop]
  split
  · next hmeet =>
    rcases hl.ptr_cases with ⟨-, hptr⟩ | ⟨q, l₃, rfl, hptr, -⟩
    · have := start_le_stop b
      omega
    · have hq := hl.size q (by simp)
      obtain ⟨-, -, -, hpair⟩ := hl.order
      rw [hptr] at hmeet
      have hnot : b.start ∉ l₃.map Block.start :=
        not_mem_starts hpos fun c hc => hl₂ c (mem_cons_of_mem _ hc)
      refine ⟨b.units + q.units, l₃, ?_, ?_, ?_, ⟨[q], rfl⟩, ?_, by omega, ?_, rfl, rfl, rfl⟩
      · rw [hptr, hq, hsize]
      · exact fun a ha => update_of_ne ha _ _
      · rw [hptr] at hlinks ⊢
        dsimp only
        rw [update_self]
        exact hlinks.2.update hnot
      · intro c hc
        have hgap := (pairwise_cons.mp hpair).1 c hc
        unfold Block.stop HEADER at *
        omega
      · intro x
        rw [count_cons x _ l₃, count_cons x b, count_cons x q, count_join, hmeet, Nat.add_assoc]
  · next hmeet =>
    refine ⟨b.units, l₂, ?_, ?_, ?_, List.suffix_rfl, ?_, Nat.le_refl _,
      fun x => rfl, rfl, rfl, rfl⟩
    · rw [← hsize, update_eq_self]
    · exact fun a ha => update_of_ne ha _ _
    · dsimp only
      rw [update_self]
      exact hlinks.update (not_mem_starts hpos hl₂)
    · intro c hc
      rcases hl.ptr_cases with ⟨rfl, -⟩ | ⟨q, l₃, rfl, hptr, -⟩
      · cases hc
      · obtain ⟨-, -, -, hpair⟩ := hl.order
        have hle := hl₂ q mem_cons_self
        have hq : b.stop < q.start := by
          rw [hptr] at hmeet
          omega
        rcases mem_cons.mp hc with rfl | hc
        · exact hq
        · have hgap := (pairwise_cons.mp hpair).1 c hc
          have := start_le_stop q
          unfold Block.stop at *
          omega

/-- What `free` does to the list. -/
structure Freed (base : Nat) (h : Heap) (l : List Block) (b : Block) (h' : Heap) (l' : List Block) :
    Prop where
  list : FreeList base h' l'
  count : ∀ x, count x l' = count x l + count x [b]
  room : ∃ c ∈ l', b.units ≤ c.units
  size : ∀ a, a ∉ l.map Block.start → a ≠ b.start → h'.size a = h.size a
  core : h'.core = h.core
  brk : h'.brk = h.brk

theorem FreeList.joinPrev {h₁ : Heap} {n : Nat} {l₃ : List Block}
    (hl : FreeList base h (l₁ ++ p :: l₂)) (hj : Joined base h b l₂ h₁ n l₃)
    (hp : p.stop ≤ b.start) (hlt : p.start < b.start) (hpos : 0 < b.units) :
    ∃ l', Freed base h (l₁ ++ p :: l₂) b
      { joinPrev h₁ p.start b.start with freep := some p.start } l' := by
  obtain ⟨-, hl₂, -, hpair₂⟩ := hl.order
  have hpu : h₁.size p.start = p.units := by
    rw [hj.size, update_of_ne (by omega)]
    exact hl.size p (by simp)
  have hbu : h₁.size b.start = n := by rw [hj.size, update_self]
  have hn := hj.grows
  have hpair₃ := hpair₂.sublist hj.suffix.sublist
  have hrest {c : Block} (hc : c ∈ l₃) :
      p.start < c.start ∧ h₁.size c.start = c.units ∧ 0 < c.units := by
    have := hj.above c hc
    rw [hj.size, update_of_ne (by omega)]
    exact hl.above (hj.suffix.mem hc)
  have hnot : p.start ∉ l₃.map Block.start := by
    intro hmem
    obtain ⟨c, hc, heq⟩ := mem_map.mp hmem
    exact (Nat.ne_of_lt (hrest hc).1).symm heq
  have hlow {a : Nat} (ha : a < p.start) : h₁.ptr a = h.ptr a ∧ h₁.size a = h.size a := by
    rw [hj.ptr a (by omega), hj.size, update_of_ne (by omega)]
    exact ⟨rfl, rfl⟩
  unfold Malloc.joinPrev
  rw [hpu, hbu]
  split
  · -- `p` grows, and takes over where `b` points to
    next hmeet =>
    refine ⟨l₁ ++ ⟨p.start, p.units + n⟩ :: l₃, ?_, ?_, ?_, ?_, hj.rest.2.1, hj.rest.2.2⟩
    · refine hl.splice rfl (fun a ha => ?_) (fun hnil => ?_) (Or.inr (by dsimp only; omega))
        (update_self ..) ?_ (fun c hc => ?_) hpair₃ rfl ⟨⟨p.start, p.units + n⟩, by simp, rfl⟩
      · dsimp only
        rw [update_of_ne (by omega), update_of_ne (by omega)]
        exact hlow ha
      · subst hnil
        obtain rfl : p = ⟨base, 0⟩ := Option.some.inj hl.head
        dsimp only at hmeet hlt
        omega
      · dsimp only
        rw [update_self]
        exact hj.links.update hnot
      · have habove := hj.above c hc
        obtain ⟨hgt, hsize, hcpos⟩ := hrest hc
        refine ⟨?_, ?_, hcpos⟩
        · simp only [Block.stop, HEADER] at hmeet habove ⊢
          omega
        · dsimp only
          rwa [update_of_ne (by omega)]
    · intro x
      have hcount := hj.count x
      rw [count_cons x ⟨b.start, n⟩ l₃, count_cons x b l₂] at hcount
      have hstop : p.stop = b.start := hmeet
      rw [count_append, count_cons x _ l₃, count_join, hstop, count_append, count_cons x p l₂]
      omega
    · exact ⟨⟨p.start, p.units + n⟩, by simp, by dsimp only; omega⟩
    · intro a ha hab
      have hap : a ≠ p.start := by
        rintro rfl
        exact ha (by simp)
      dsimp only
      rw [update_of_ne hap, hj.size, update_of_ne hab]
  · next hmeet =>
    have hgap : p.stop < b.start := Nat.lt_of_le_of_ne hp hmeet
    refine ⟨l₁ ++ p :: ⟨b.start, n⟩ :: l₃, ?_, ?_, ?_, ?_, hj.rest.2.1, hj.rest.2.2⟩
    · refine hl.splice rfl (fun a ha => ?_) (fun _ => rfl) (Or.inl rfl) hpu ?_ (fun c hc => ?_)
        (pairwise_cons.mpr ⟨hj.above, hpair₃⟩) rfl ⟨p, by simp, rfl⟩
      · dsimp only
        rw [update_of_ne (by omega)]
        exact hlow ha
      · dsimp only
        rw [update_self]
        refine ⟨rfl, ?_⟩
        dsimp only
        rw [update_of_ne (by omega)]
        exact hj.links.update hnot
      · rcases mem_cons.mp hc with rfl | hc
        · exact ⟨hgap, hbu, by dsimp only; omega⟩
        · exact ⟨hl₂ c (hj.suffix.mem hc), (hrest hc).2⟩
    · intro x
      have hcount := hj.count x
      rw [count_cons x b l₂] at hcount
      rw [count_append, count_cons x p _, hcount, count_append, count_cons x p l₂]
      omega
    · exact ⟨⟨b.start, n⟩, by simp, hn⟩
    · intro a _ hab
      dsimp only
      rw [hj.size, update_of_ne hab]

theorem FreeList.free (hl : FreeList base h l) (hbase : base < b.start)
    (hsize : h.size b.start = b.units) (hpos : 0 < b.units)
    (hdisj : ∀ c ∈ l, c.stop ≤ b.start ∨ b.stop ≤ c.start) :
    ∃ h' l', (∀ fuel, l.length ≤ fuel → free fuel h (b.start + HEADER) = .ok h') ∧
      Freed base h l b h' l' := by
  have hb : b.start < b.stop := by
    unfold Block.stop HEADER
    omega
  have hne : ∀ c ∈ l, c.start ≠ b.start := by
    intro c hc heq
    have hcpos := hl.pos c hc (by omega)
    have := hdisj c hc
    unfold Block.stop HEADER at *
    omega
  obtain ⟨l₁, p, l₂, rfl, hlt, hl₂⟩ := by
    refine exists_last_below (l := l) (b := ⟨base, 0⟩) ?_ hbase hne
    exact List.mem_of_mem_head? hl.head
  have hp : p.stop ≤ b.start := by
    have := hdisj p (by simp)
    omega
  have habove : ∀ q ∈ l₂, b.stop ≤ q.start := by
    intro q hq
    have := hdisj q (by simp [hq])
    have := hl₂ q hq
    have := start_le_stop q
    omega
  obtain ⟨freep, hfreep⟩ : ∃ f, h.freep = some f := by
    obtain ⟨c, -, hc⟩ := hl.freep
    exact ⟨c.start, hc⟩
  obtain ⟨n, l₃, hj⟩ := hl.joinNext hbase hsize hpos habove
  obtain ⟨l', hfreed⟩ := hl.joinPrev hj hp hlt hpos
  refine ⟨_, l', fun fuel hfuel => ?_, hfreed⟩
  unfold Malloc.free
  rw [hfreep]
  dsimp only
  rw [Nat.add_sub_cancel, hl.seek_eq hbase hlt hl₂ hfreep hfuel]

/-- What taking `n` units off the list does: `a` is the header of what is given out. -/
structure Taken (base : Nat) (h : Heap) (l : List Block) (n a : Nat) (h' : Heap)
    (l' : List Block) : Prop where
  list : FreeList base h' l'
  count : ∀ x, count x l' + count x [⟨a, n⟩] = count x l
  given : h'.size a = n
  size : ∀ c, c ∉ l.map Block.start → c ≠ a → h'.size c = h.size c
  core : h'.core = h.core
  brk : h'.brk = h.brk

theorem FreeList.take {prevp : Nat} (hl : FreeList base h l) (hprev : prevp ∈ l.map Block.start)
    (hb : b ∈ l) (hptr : h.ptr prevp = b.start) (hn : 0 < nunits) (hle : nunits ≤ b.units) :
    ∃ a h' l', take h nunits prevp b.start = (a + HEADER, h') ∧ Taken base h l nunits a h' l' := by
  have hbu := hl.size b hb
  obtain ⟨l₁, l₂, rfl⟩ := List.append_of_mem hb
  -- `base` has no units, so the block has one in front of it, and that is `prevp`
  obtain ⟨m, q, rfl⟩ : ∃ m q, l₁ = m ++ [q] := by
    rcases List.eq_nil_or_concat l₁ with rfl | ⟨m, q, rfl⟩
    · obtain rfl : b = ⟨base, 0⟩ := Option.some.inj hl.head
      dsimp only at hle
      omega
    · exact ⟨m, q, List.concat_eq_append⟩
  have hl' : FreeList base h (m ++ q :: b :: l₂) := by simpa using hl
  obtain rfl : prevp = q.start := by
    refine hl.ring.inj hl.nodup hprev (by simp) (hptr.trans ?_)
    rcases hl'.ptr_cases with ⟨hnil, -⟩ | ⟨c, l₃, hcons, hc, -⟩
    · cases hnil
    · rw [hc, (List.cons.inj hcons).1]
  obtain ⟨-, hq, -, -⟩ := hl'.order
  obtain ⟨-, hb₂, -, hpair₂⟩ := hl.order
  have hqb := hq b mem_cons_self
  have hqs := start_le_stop q
  unfold Malloc.take
  rw [hbu]
  split
  · -- the block leaves the list
    next hexact =>
    refine ⟨b.start, _, m ++ q :: l₂, rfl, ?_, ?_, ?_, fun _ _ _ => rfl, rfl, rfl⟩
    · have hrest {c : Block} (hc : c ∈ l₂) := hl'.above (mem_cons_of_mem b hc)
      refine hl'.splice rfl (fun a ha => ⟨update_of_ne (Nat.ne_of_lt ha) .., rfl⟩) (fun _ => rfl)
        (Or.inl rfl) (hl'.size q (by simp)) ?_ (fun c hc => ?_) hpair₂ rfl ⟨q, by simp, rfl⟩
      · dsimp only
        rw [update_self]
        refine hl.links.update fun hmem => ?_
        obtain ⟨c, hc, heq⟩ := mem_map.mp hmem
        exact (Nat.ne_of_lt (hrest hc).1).symm heq
      · exact ⟨hq c (mem_cons_of_mem _ hc), (hrest hc).2⟩
    · intro x
      have hgiven : (⟨b.start, nunits⟩ : Block) = b := by rw [← hexact]
      rw [hgiven]
      simp only [count_append, count_cons x q l₂, count_cons x b l₂]
      omega
    · exact hbu.trans hexact
  · -- its tail is given out
    next hmore =>
    have hlt : nunits < b.units := Nat.lt_of_le_of_ne hle (Ne.symm hmore)
    dsimp only
    rw [update_self]
    have htail : b.start < b.start + (b.units - nunits) * HEADER := by
      unfold HEADER
      omega
    have hgone : b.start + (b.units - nunits) * HEADER < b.stop := by
      unfold Block.stop HEADER
      omega
    generalize hrest : (⟨b.start, b.units - nunits⟩ : Block) = r
    have hr : r.start = b.start ∧ r.units = b.units - nunits := by
      rw [← hrest]
      exact ⟨rfl, rfl⟩
    have hrstop : r.stop = b.start + (b.units - nunits) * HEADER := by rw [← hrest]; rfl
    rw [← hrstop] at htail hgone ⊢
    refine ⟨r.stop, _, m ++ [q] ++ r :: l₂, rfl, ?_, ?_, ?_, ?_, rfl, rfl⟩
    · refine hl.splice hr.1 (fun a ha => ⟨rfl, ?_⟩) (fun hnil => ?_) (Or.inr (by omega)) ?_
        hl.links (fun c hc => ?_) hpair₂ rfl ⟨q, by simp, rfl⟩
      · dsimp only
        rw [update_of_ne (by omega), update_of_ne (by omega)]
      · simp at hnil
      · dsimp only
        rw [update_of_ne (by omega), update_self, hr.2]
      · have hgt := hb₂ c hc
        refine ⟨Nat.lt_trans hgone hgt, ?_⟩
        dsimp only
        rw [update_of_ne (by omega), update_of_ne (by omega)]
        exact (hl.above hc).2
    · intro x
      have hjoin := count_join x nunits r
      rw [hr.1, hr.2, Nat.sub_add_cancel hle] at hjoin
      have hb' : count x [(⟨b.start, b.units⟩ : Block)] = count x [b] := rfl
      rw [hb'] at hjoin
      simp only [count_append, count_cons x r l₂, count_cons x b l₂]
      omega
    · exact update_self _ _ _
    · intro c hc hca
      have hcb : c ≠ b.start := by
        rintro rfl
        exact hc (by simp)
      dsimp only
      rw [update_of_ne hca, update_of_ne hcb]

end FreeList

end Malloc

end Xv6
