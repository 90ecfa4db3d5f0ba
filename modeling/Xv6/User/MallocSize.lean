import Mathlib.Algebra.Group.Int.Defs
import Xv6.User.MallocRuns

/-!
# The sizes that `malloc` asks for

The units of a request are computed in unsigned arithmetic and passed to `sbrk` as an `int`.
Both wrap for large requests: the number of units, and the bytes that `morecore` asks for.
-/

namespace Xv6

namespace Malloc

/-- The argument of `sbrk` when `morecore` is called for `nu` units. -/
def sbrkArg (nu : Nat) : Int := (BitVec.ofNat 32 (coreUnits nu * HEADER)).toInt

/-- What `sbrk` may answer: the end of the range, which is left below the end of the memory. -/
def Gives (h : Heap) (sbrk : Nat → Option Nat) (nbytes : Nat) : Prop :=
  ∀ hp, sbrk 0 = some hp → h.brk ≤ hp ∧ (hp : Int) + sbrkArg (units nbytes) < 2 ^ 32

/-- `malloc` returns: nothing, or a pointer to `nbytes` bytes of what was obtained. It has
obtained what it asked for, if it had to ask, and has asked for something. -/
def Serves (base : Nat) (h : Heap) (sbrk : Nat → Option Nat) (nbytes : Nat) : Prop :=
  ∃ r h', Returns (fun fuel => malloc fuel base h sbrk nbytes) (r, h') ∧
    (∀ ap, r = some ap → ∀ x, ap ≤ x → x < ap + nbytes → 0 < count x h'.core) ∧
    (r = none → 0 < sbrkArg (units nbytes)) ∧
    ∀ b ∈ h'.core, b ∈ h.core ∨ (sbrk 0 = some b.start ∧ 0 < sbrkArg (units nbytes) ∧
      sbrkArg (units nbytes) = b.units * HEADER)

variable {base nbytes : Nat} {h h' : Heap} {l l' live : List Block} {answer r : Option Nat}

theorem sbrkArg_eq {nu : Nat} (hnu : coreUnits nu * HEADER < 2 ^ 31) :
    sbrkArg nu = coreUnits nu * HEADER := by
  rw [sbrkArg, BitVec.toInt_eq_toNat_cond, BitVec.toNat_ofNat, Nat.mod_eq_of_lt (by omega),
    if_pos (by omega)]
  rfl

theorem Served.core {nunits : Nat} (hs : Served base nunits h l answer r h' l') :
    h'.core = h.core ∨
      ∃ hp, answer = some hp ∧ h'.core = ⟨hp, coreUnits nunits⟩ :: h.core := by
  cases hs with
  | refused hsbrk => exact Or.inl rfl
  | found htake => exact Or.inl htake.core
  | grown hsbrk hfree htake => exact Or.inr ⟨_, hsbrk, by rw [htake.core, hfree.core]; rfl⟩

theorem Ready.serves {sbrk : Nat → Option Nat} (hr : Ready base h live)
    (hgives : Gives h sbrk nbytes) (hn : nbytes ≤ 2 ^ 31 - 16) : Serves base h sbrk nbytes := by
  obtain ⟨h₀, l, f, hs, hf, hbrk, hcore, hmalloc⟩ := hr.enter
  have hunits : nbytes ≤ (units nbytes - 1) * HEADER ∧ units nbytes * HEADER < 2 ^ 31 := by
    unfold units HEADER
    omega
  have hasked : 0 < coreUnits (units nbytes) * HEADER ∧
      coreUnits (units nbytes) * HEADER < 2 ^ 31 := by
    unfold coreUnits HEADER at *
    split <;> omega
  have hgrant : ∀ hp, sbrk 0 = some hp → h₀.brk ≤ hp := fun hp hhp => hbrk ▸ (hgives hp hhp).1
  obtain ⟨r, h', l', N, hloop, hserved⟩ := hs.list.mallocLoop hf (units_pos nbytes)
    fun hp hhp => hs.above (hgrant hp hhp)
  have harg := sbrkArg_eq hasked.2
  refine ⟨r, h', ⟨N, fun fuel hfuel => (hmalloc ..).trans (hloop fuel hfuel)⟩, ?_, ?_, ?_⟩
  · rintro ap rfl x hlow hhigh
    rcases hs.served (units_pos nbytes) (by omega) hgrant hserved with ⟨hno, -⟩ | ⟨a, heq, hs'⟩
    · cases hno
    · obtain rfl := Option.some.inj heq
      have hcovers : (⟨a, units nbytes⟩ : Block).covers x = true := by
        rw [Block.covers_iff]
        unfold Block.stop HEADER at *
        dsimp only
        omega
      have := count_pos List.mem_cons_self hcovers (l := ⟨a, units nbytes⟩ :: live)
      have := hs'.tiles x
      omega
  · intro _
    omega
  · intro b hb
    rw [← hcore]
    rcases hserved.core with heq | ⟨hp, hsbrk, heq⟩
    · exact Or.inl (heq ▸ hb)
    · rw [heq] at hb
      rcases List.mem_cons.mp hb with rfl | hb
      · exact Or.inr ⟨hsbrk, by omega, harg⟩
      · exact Or.inl hb

/-- Nothing has been allocated, and the heap starts at the address `8192`. -/
def fresh : Heap := { ptr := fun _ => 0, size := fun _ => 0, freep := none, brk := 8192, core := [] }

/-- The first answer of `sbrk` to it. -/
def freshSbrk (_ : Nat) : Option Nat := some 8192

theorem ready_fresh : Ready 4096 fresh [] := Or.inl ⟨rfl, rfl, by decide, rfl⟩

theorem malloc_fresh (nbytes : Nat) :
    ∃ ap h', Returns (fun fuel => malloc fuel 4096 fresh freshSbrk nbytes)
      (some ap, h') ∧ h'.core = [⟨8192, coreUnits (units nbytes)⟩] := by
  have hs : Sound 4096 (initialise 4096 fresh) [⟨4096, 0⟩] [] := sound_initialise rfl (by decide)
  have hgrant : ∀ hp, freshSbrk 0 = some hp → (initialise 4096 fresh).brk ≤ hp := by
    rintro hp ⟨rfl⟩
    exact Nat.le_refl _
  obtain ⟨r, h', l', N, hloop, hserved⟩ := hs.list.mallocLoop rfl (units_pos nbytes)
    fun hp hhp => hs.above (hgrant hp hhp)
  have hcode (r' : Option Nat) (heq : r = r') :
      Returns (fun fuel => malloc fuel 4096 fresh freshSbrk nbytes) (r', h') :=
    ⟨N, fun fuel hfuel => heq ▸ hloop fuel hfuel⟩
  cases hserved with
  | refused hsbrk => cases hsbrk
  | @found a _ _ htake =>
    -- `base` has no units
    have hcount := htake.count a
    have hpos := count_pos (l := [⟨a, units nbytes⟩]) List.mem_cons_self
      (covers_start (units_pos nbytes))
    have hnone : count a [⟨4096, 0⟩] = 0 := by
      simp only [count, List.countP_cons, List.countP_nil, Block.covers_iff, Block.stop]
      split <;> omega
    dsimp only at hpos
    omega
  | grown hsbrk hfree htake =>
    cases hsbrk
    refine ⟨_, h', hcode _ rfl, ?_⟩
    rw [htake.core, hfree.core]
    rfl

/-- From every heap, and whatever `sbrk` answers, `malloc` gives the bytes it was asked for
or nothing, exactly if the units of the request are fewer than an `int` can say in bytes. -/
theorem malloc_serves_iff (hn : nbytes < 2 ^ 32) :
    (∀ base h live sbrk, Ready base h live → Gives h sbrk nbytes → Serves base h sbrk nbytes) ↔
      nbytes ≤ 2 ^ 31 - 16 := by
  refine ⟨fun hall => ?_, fun hsmall base h live sbrk hr hg => hr.serves hg hsmall⟩
  by_contra hbig
  have hint : sbrkArg (units nbytes) < 2 ^ 31 := BitVec.toInt_lt
  obtain ⟨r, h', hret, hbytes, -, hcore⟩ := hall 4096 fresh [] freshSbrk ready_fresh
    (by rintro hp ⟨rfl⟩; exact ⟨Nat.le_refl _, by omega⟩)
  obtain ⟨ap, h₁, hret₁, hcore₁⟩ := malloc_fresh nbytes
  obtain ⟨rfl, rfl⟩ := Prod.mk.inj (hret.unique hret₁)
  rw [hcore₁] at hcore
  have harg : sbrkArg (units nbytes) = coreUnits (units nbytes) * HEADER := by
    rcases hcore _ List.mem_cons_self with hmem | ⟨-, -, harg⟩
    · cases hmem
    · exact harg
  by_cases hwrap : nbytes + HEADER - 1 < 2 ^ 32
  · -- the bytes do not fit into an `int`
    have hlarge : 2 ^ 31 ≤ coreUnits (units nbytes) * HEADER := by
      unfold coreUnits units HEADER at *
      split <;> omega
    omega
  · -- the units are those of no bytes at all
    have hone : units nbytes = 1 := by
      unfold units HEADER at *
      omega
    have hlast := hbytes ap rfl (ap + nbytes - 1) (by omega) (by omega)
    rw [hcore₁, hone] at hlast
    obtain ⟨b, hb, hcovers⟩ := List.countP_pos_iff.mp hlast
    obtain rfl := List.mem_singleton.mp hb
    have hstop := (Block.covers_iff.mp hcovers).2
    rw [show (⟨8192, coreUnits 1⟩ : Block).stop = 40960 from rfl] at hstop
    unfold HEADER at hwrap
    omega

theorem malloc_serves_ten : Serves 4096 fresh freshSbrk 10 :=
  (malloc_serves_iff (by decide)).mpr (by decide) 4096 fresh [] _ ready_fresh
    (by rintro hp ⟨rfl⟩; decide)

/-- `malloc(0xffffffff)` returns the end of what was obtained, and `malloc(0x7ffffff8)` asks
`sbrk` to shrink the process. -/
theorem malloc_wraps :
    (malloc 8 4096 fresh freshSbrk 0xffffffff).toOption.map
      (fun x => (x.1, x.2.core.map Block.stop)) = some (some 40960, [40960]) ∧
    sbrkArg (units 0x7ffffff8) = -2147483648 := by
  decide

end Malloc

end Xv6
