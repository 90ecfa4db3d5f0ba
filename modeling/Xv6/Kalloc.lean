import Xv6.Lib.Chain
import Xv6.Lib.Run
import Xv6.Param

/-!
# The page allocator

`kalloc.c`: the free pages are linked through their first words. Whoever has a page may write
to it, and gives it back by `kfree`; the junk is one more such write. An address is a number
below `2^32`, and `mem a` the word at a multiple `a` of 4, with `none` for 0.
-/

namespace Xv6

namespace Kalloc

open Intrusive (Chain)

def PGSIZE : Nat := 4096

def KERNBASE : Nat := 0x80000000

def PHYSTOP : Nat := 0xE000000

def P2V (a : Nat) : Nat := a + KERNBASE

def v2p (v : Nat) : Nat := (v + 2 ^ 32 - KERNBASE) % 2 ^ 32

def PGROUNDUP (sz : Nat) : Nat := (sz + PGSIZE - 1) / PGSIZE * PGSIZE

/-- `a` is in the page `v`. -/
abbrev Within (v a : Nat) : Prop := v ≤ a ∧ a < v + PGSIZE

structure Kmem where
  freelist : Option Nat
  mem : Nat → Option Nat

namespace Kmem

/-- `none` is `panic("kfree")`, and `stop` the symbol `end`. -/
def kfree (stop : Nat) (k : Kmem) (v : Nat) : Option Kmem :=
  if v % PGSIZE ≠ 0 ∨ v < stop ∨ PHYSTOP ≤ v2p v then none
  else
    let junk := fun a => if Within v a then some 0x01010101 else k.mem a
    some { freelist := some v, mem := Function.update junk v k.freelist }

def kalloc (k : Kmem) : Option Nat × Kmem :=
  match k.freelist with
  | some r => (some r, { k with freelist := k.mem r })
  | none => (none, k)

/-- The loop of `freerange`. -/
def freeFrom (stop : Nat) (k : Kmem) (p vend : Nat) : Option Kmem :=
  if p + PGSIZE ≤ vend then (k.kfree stop p).bind fun k => freeFrom stop k (p + PGSIZE) vend
  else some k
termination_by vend - p
decreasing_by
  unfold PGSIZE at *
  omega

def freerange (stop : Nat) (k : Kmem) (vstart vend : Nat) : Option Kmem :=
  k.freeFrom stop (PGROUNDUP vstart) vend

end Kmem

structure State where
  kmem : Kmem
  /-- The pages that callers of `kalloc` have. -/
  held : List Nat
  /-- The end of the memory that has been freed by `kinit1` or `kinit2`. -/
  vend : Nat

inductive Action
  | kinit2
  | kalloc
  | kfree (v : Nat)
  | write (a : Nat) (w : Option Nat)

/-- The event is what `kalloc` returns. -/
def State.next (stop : Nat) (s : State) : Action → Option (State × Option (Option Nat))
  | .kinit2 =>
    if s.vend = P2V 0x400000 then
      (s.kmem.freerange stop s.vend (P2V PHYSTOP)).map fun k =>
        ({ s with kmem := k, vend := P2V PHYSTOP }, none)
    else none
  | .kalloc =>
    let (r, k) := s.kmem.kalloc
    some ({ s with kmem := k, held := r.toList ++ s.held }, some r)
  | .kfree v =>
    if v ∈ s.held then
      (s.kmem.kfree stop v).map fun k => ({ s with kmem := k, held := s.held.erase v }, none)
    else none
  | .write a w =>
    if 4 ∣ a ∧ ∃ v ∈ s.held, Within v a then
      some ({ s with kmem := { s.kmem with mem := Function.update s.kmem.mem a w } }, none)
    else none

/-- `kinit1` has been called, with the end of the kernel below `4*1024*1024`. -/
structure State.Init (stop : Nat) (s : State) : Prop where
  kernel : KERNBASE < stop ∧ stop ≤ P2V 0x400000
  kinit1 : ∃ mem, Kmem.freerange stop { freelist := none, mem := mem } stop s.vend = some s.kmem
  vend : s.vend = P2V 0x400000
  held : s.held = []

/-! ## Pages -/

def IsPage (stop vend v : Nat) : Prop := v % PGSIZE = 0 ∧ stop ≤ v ∧ v + PGSIZE ≤ vend

/-- The pages of the free list and those in use are the pages between the kernel and `vend`,
each once. -/
structure Owned (stop : Nat) (k : Kmem) (held : List Nat) (vend : Nat) (free : List Nat) :
    Prop where
  chain : Chain k.mem k.freelist free
  nodup : (free ++ held).Nodup
  pages : ∀ v, v ∈ free ++ held ↔ IsPage stop vend v

section Owned

variable {stop vend v : Nat} {k : Kmem} {held free : List Nat}

theorem eq_of_within {a : Nat} (hv : v % PGSIZE = 0) (ha : a % PGSIZE = 0) (h : Within v a) :
    a = v := by
  unfold Within PGSIZE at *
  omega

theorem Owned.kfree (h : Owned stop k held vend free) (hv : IsPage stop (P2V PHYSTOP) v)
    (hstop : KERNBASE < stop) (hnot : v ∉ free) :
    ∃ k', k.kfree stop v = some k' ∧ Chain k'.mem k'.freelist (v :: free) := by
  have hpass : ¬ (v % PGSIZE ≠ 0 ∨ v < stop ∨ PHYSTOP ≤ v2p v) := by
    unfold IsPage P2V v2p PHYSTOP PGSIZE KERNBASE at *
    omega
  -- neither the junk nor the link goes to another page
  refine ⟨_, if_neg hpass, (h.chain.congr fun w hw => if_neg fun hin => hnot ?_).push hnot⟩
  rwa [← eq_of_within hv.1 ((h.pages w).mp (List.mem_append_left _ hw)).1 hin]

theorem Owned.freeFrom {p : Nat} (h : Owned stop k held p free) (hstop : KERNBASE < stop)
    (hp : p % PGSIZE = 0) (hlow : stop ≤ p) (hle : p ≤ vend) (hvend : vend ≤ P2V PHYSTOP) :
    ∃ k' free', k.freeFrom stop p vend = some k' ∧ Owned stop k' held vend free' := by
  induction hn : vend - p using Nat.strong_induction_on generalizing p k free with
  | _ n ih =>
    rw [Kmem.freeFrom]
    split
    · next hmore =>
      have hnot : p ∉ free ++ held := fun hm => by
        have := ((h.pages p).mp hm).2.2
        unfold PGSIZE at this
        omega
      obtain ⟨k', hk', hc⟩ := h.kfree ⟨hp, hlow, hmore.trans hvend⟩ hstop
        fun hm => hnot (List.mem_append_left _ hm)
      rw [hk', Option.bind_some]
      refine ih _ ?_ ⟨hc, List.nodup_cons.mpr ⟨hnot, h.nodup⟩, fun v => ?_⟩ ?_ ?_ hmore rfl
      · unfold PGSIZE at *
        omega
      · rw [List.cons_append, List.mem_cons, h.pages]
        unfold IsPage PGSIZE at *
        omega
      · rw [Nat.add_mod_right, hp]
      · omega
    · refine ⟨k, free, rfl, h.chain, h.nodup, fun v => (h.pages v).trans ?_⟩
      unfold IsPage PGSIZE at *
      omega

end Owned

/-! ## Runs -/

structure State.Inv (stop : Nat) (s : State) : Prop where
  kernel : KERNBASE < stop ∧ stop ≤ P2V 0x400000
  vend : s.vend ≤ P2V PHYSTOP
  owned : ∃ free, Owned stop s.kmem s.held s.vend free

namespace State.Inv

variable {stop : Nat} {s s' : State} {a : Action} {o : Option (Option Nat)}

theorem init (h : s.Init stop) : s.Inv stop := by
  obtain ⟨hkernel, ⟨mem, hmem⟩, hvend, hheld⟩ := h
  have hround : PGROUNDUP stop % PGSIZE = 0 ∧ stop ≤ PGROUNDUP stop ∧
      PGROUNDUP stop < stop + PGSIZE ∧ PGROUNDUP stop ≤ s.vend := by
    unfold PGROUNDUP P2V KERNBASE PGSIZE at *
    omega
  have hle : s.vend ≤ P2V PHYSTOP := by
    rw [hvend]
    decide
  have hnone : Owned stop { freelist := none, mem := mem } [] (PGROUNDUP stop) [] := by
    refine ⟨rfl, List.nodup_nil, fun v => iff_of_false List.not_mem_nil fun hv => ?_⟩
    have := hv.2
    omega
  obtain ⟨k, free, hk, howned⟩ :=
    hnone.freeFrom hkernel.1 hround.1 hround.2.1 hround.2.2.2 hle
  cases hk.symm.trans hmem
  exact ⟨hkernel, hle, free, hheld ▸ howned⟩

theorem kfree (h : s.Inv stop) {free : List Nat} (ho : Owned stop s.kmem s.held s.vend free)
    {v : Nat} (hv : v ∈ s.held) :
    ∃ k, s.kmem.kfree stop v = some k ∧ Owned stop k (s.held.erase v) s.vend (v :: free) := by
  obtain ⟨hpage, hlow, hle⟩ := (ho.pages v).mp (List.mem_append_right _ hv)
  obtain ⟨k, hk, hc⟩ := ho.kfree ⟨hpage, hlow, hle.trans h.vend⟩ h.kernel.1
    fun hm => List.disjoint_of_nodup_append ho.nodup hm hv
  have hperm : (v :: free ++ s.held.erase v).Perm (free ++ s.held) :=
    List.perm_middle.symm.trans ((List.perm_cons_erase hv).symm.append_left free)
  exact ⟨k, hk, hc, hperm.nodup_iff.mpr ho.nodup, fun w => hperm.mem_iff.trans (ho.pages w)⟩

theorem step (h : s.Inv stop) (hs : s.next stop a = some (s', o)) : s'.Inv stop := by
  obtain ⟨free, ho⟩ := h.owned
  cases a with
  | kinit2 =>
    dsimp only [State.next] at hs
    split at hs
    · next hvend =>
      rw [hvend] at ho hs
      obtain ⟨k, free', hk, ho'⟩ := ho.freeFrom h.kernel.1 (by decide) h.kernel.2
        (by decide) (Nat.le_refl (P2V PHYSTOP))
      rw [Kmem.freerange, show PGROUNDUP (P2V 0x400000) = P2V 0x400000 from rfl, hk] at hs
      cases hs
      exact ⟨h.kernel, Nat.le_refl _, free', ho'⟩
    · cases hs
  | kalloc =>
    dsimp only [State.next, Kmem.kalloc] at hs
    cases free with
    | nil =>
      rw [show s.kmem.freelist = none from ho.chain] at hs
      cases hs
      exact h
    | cons r free =>
      rw [ho.chain.1] at hs
      cases hs
      have hperm : (free ++ r :: s.held).Perm (r :: free ++ s.held) := List.perm_middle
      exact ⟨h.kernel, h.vend, free, ho.chain.2, hperm.nodup_iff.mpr ho.nodup,
        fun w => hperm.mem_iff.trans (ho.pages w)⟩
  | kfree v =>
    dsimp only [State.next] at hs
    split at hs
    · next hv =>
      obtain ⟨k, hk, ho'⟩ := h.kfree ho hv
      rw [hk] at hs
      cases hs
      exact ⟨h.kernel, h.vend, _, ho'⟩
    · cases hs
  | write a w =>
    dsimp only [State.next] at hs
    split at hs
    · next hwrite =>
      obtain ⟨-, v, hv, ha⟩ := hwrite
      cases hs
      refine ⟨h.kernel, h.vend, free, ho.chain.update fun hx => ?_, ho.nodup, ho.pages⟩
      have heq := eq_of_within ((ho.pages v).mp (List.mem_append_right _ hv)).1
        ((ho.pages a).mp (List.mem_append_left _ hx)).1 ha
      exact List.disjoint_of_nodup_append ho.nodup hx (heq ▸ hv)
    · cases hs

end State.Inv

/-- In every run from `kinit1` on: the pages on the free list and those in use are the pages
between the kernel and the end of what was freed at the start, each once; a page in use is
freed without a panic; and `kalloc` fails only where all pages are in use. -/
theorem pages_conserved {stop : Nat} {tr : List (Action × Option (Option Nat))} {s : State}
    (h : Trace.Run (State.Init stop) (Trace.Next (State.next stop)) tr s) :
    (∃ free, Owned stop s.kmem s.held s.vend free) ∧
    (∀ v ∈ s.held, (s.kmem.kfree stop v).isSome) ∧
    (s.kmem.kalloc.1 = none → ∀ v, IsPage stop s.vend v → v ∈ s.held) := by
  have hinv : s.Inv stop := Trace.Run.invariant (fun _ => State.Inv.init)
    (fun _ _ _ h hs => h.step hs) h
  obtain ⟨free, ho⟩ := hinv.owned
  refine ⟨⟨free, ho⟩, fun v hv => ?_, fun hfail v hv => ?_⟩
  · obtain ⟨k, hk, -⟩ := hinv.kfree ho hv
    rw [hk]
    rfl
  · have hv := (ho.pages v).mpr hv
    cases free with
    | nil => exact hv
    | cons r free =>
      rw [Kmem.kalloc, ho.chain.1] at hfail
      cases hfail

/-- A kernel that leaves one page to `kinit1`. -/
theorem pages_conserved_alloc :
    ∃ tr s, Trace.Run (State.Init 0x803FF000) (Trace.Next (State.next 0x803FF000)) tr s ∧
      s.held = [0x803FF000] ∧ ∀ v ∈ s.held, (s.kmem.kfree 0x803FF000 v).isSome := by
  have hinit : State.Init 0x803FF000
      ⟨⟨some 0x803FF000, Function.update (fun a => if Within 0x803FF000 a then some 0x01010101
        else none) 0x803FF000 none⟩, [], P2V 0x400000⟩ := by
    refine ⟨by decide, ⟨fun _ => none, ?_⟩, rfl, rfl⟩
    rw [Kmem.freerange, Kmem.freeFrom, if_pos (by decide), Kmem.kfree, if_neg (by decide),
      Option.bind_some, Kmem.freeFrom, if_neg (by decide)]
    rfl
  obtain ⟨tr, s, hrun, hheld⟩ := Trace.exec_reaches (f := State.next 0x803FF000) hinit [.kalloc]
    (fun _ s => s.held = [0x803FF000]) (by decide +kernel)
  exact ⟨tr, s, hrun, hheld, (pages_conserved hrun).2.1⟩

end Kalloc

end Xv6
