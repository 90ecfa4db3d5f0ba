import Xv6.User.Malloc

/-!
# Runs of `malloc` and `free`

A program calls `malloc`, and `free` for what `malloc` has returned and has not been freed.
The free blocks and the blocks that are in use lie side by side in what `morecore` has
obtained, and that is what each of the calls keeps.
-/

open List (map_append map_cons mem_cons mem_cons_self mem_map)

namespace Xv6

namespace Malloc

open Segment

variable {base nunits fuel : Nat} {h h' : Heap} {l l' live : List Block} {b : Block}
  {sbrk : Nat → Option Nat}

/-! ## The heap -/

/-- The free blocks `l` and the blocks in use `live` lie side by side in the memory that
`morecore` has obtained, above the static data. -/
structure Sound (base : Nat) (h : Heap) (l live : List Block) : Prop where
  list : FreeList base h l
  inUse : ∀ b ∈ live, h.size b.start = b.units ∧ 0 < b.units
  tiles : ∀ x, count x l + count x live = count x h.core
  once : ∀ x, count x h.core ≤ 1
  core : ∀ b ∈ h.core, base + HEADER ≤ b.start ∧ b.stop ≤ h.brk
  brk : base + HEADER ≤ h.brk

theorem covers_start (hb : 0 < b.units) : b.covers b.start = true := by
  rw [Block.covers_iff]
  unfold Block.stop HEADER
  omega

/-- The units that `morecore` asks for. -/
def coreUnits (nu : Nat) : Nat := if nu < 4096 then 4096 else nu

theorem coreUnits_pos (nu : Nat) : 0 < coreUnits nu := by
  unfold coreUnits
  split <;> omega

theorem le_coreUnits (nu : Nat) : nu ≤ coreUnits nu := by
  unfold coreUnits
  split <;> omega

/-- The heap in which `morecore` has written the size of what `sbrk` gave. -/
def claim (h : Heap) (hp nu : Nat) : Heap :=
  { h with
    size := Function.update h.size hp nu
    brk := hp + nu * HEADER % 2 ^ 32
    core := ⟨hp, nu⟩ :: h.core }

theorem FreeList.claim {hp nu : Nat} (hl : FreeList base h l) (hbase : base < hp)
    (habove : ∀ c ∈ l, c.stop ≤ hp) : FreeList base (claim h hp nu) l := by
  refine ⟨hl.head, hl.ring, fun c hc => ?_, hl.apart, hl.pos, hl.freep⟩
  have hle := habove c hc
  have hne : c.start ≠ hp := by
    intro heq
    have hpos := hl.pos c hc (by omega)
    unfold Block.stop HEADER at hle
    omega
  unfold Malloc.claim
  dsimp only
  rw [Function.update_of_ne hne]
  exact hl.size c hc

theorem FreeList.morecore {hp : Nat} (nu : Nat) (hl : FreeList base h l) (hbase : base < hp)
    (habove : ∀ c ∈ l, c.stop ≤ hp) :
    ∃ f h' l', (∀ fuel, l.length ≤ fuel → morecore fuel h nu (some hp) = .ok (some f, h')) ∧
      h'.freep = some f ∧
      Freed base (Malloc.claim h hp (coreUnits nu)) l ⟨hp, coreUnits nu⟩ h' l' := by
  obtain ⟨h', l', hfree, hfreed⟩ := (hl.claim hbase habove).free (b := ⟨hp, coreUnits nu⟩) hbase
    (Function.update_self _ _ _) (coreUnits_pos nu) fun c hc => Or.inl (habove c hc)
  obtain ⟨f, -, hf⟩ := hfreed.list.freep
  refine ⟨f.start, h', l', fun fuel hfuel => ?_, hf, hfreed⟩
  have hcode : Malloc.morecore fuel h nu (some hp) =
      (Malloc.free fuel (Malloc.claim h hp (coreUnits nu)) (hp + HEADER)).bind
        fun h => .ok (h.freep, h) := rfl
  rw [hcode, hfree fuel hfuel, Except.bind, hf]

namespace Sound

theorem bounds {x : Nat} (hs : Sound base h l live) (hx : 0 < count x l + count x live) :
    base + HEADER ≤ x ∧ x < h.brk := by
  rw [hs.tiles] at hx
  obtain ⟨c, hc, hcov⟩ := List.countP_pos_iff.mp hx
  have := hs.core c hc
  have := Block.covers_iff.mp hcov
  omega

theorem le_one (hs : Sound base h l live) (x : Nat) : count x l + count x live ≤ 1 := by
  rw [hs.tiles]
  exact hs.once x

theorem base_lt (hs : Sound base h l live) (hb : b ∈ live) : base + HEADER ≤ b.start := by
  refine (hs.bounds ?_).1
  have := count_pos hb (covers_start (hs.inUse b hb).2)
  omega

theorem not_free (hs : Sound base h l live) (hb : b ∈ live) : b.start ∉ l.map Block.start := by
  intro hmem
  obtain ⟨c, hc, heq⟩ := mem_map.mp hmem
  have hlow := hs.base_lt hb
  have hpos := hs.list.pos c hc (by unfold HEADER at hlow; omega)
  have h₁ := count_pos hc (covers_start hpos)
  have h₂ := count_pos hb (covers_start (hs.inUse b hb).2)
  have hone := hs.le_one b.start
  rw [heq] at h₁
  omega

theorem disjoint {c : Block} (hs : Sound base h l live) (hb : b ∈ live) (hc : c ∈ l) :
    c.stop ≤ b.start ∨ b.stop ≤ c.start := by
  by_contra hmeet
  have hlow := hs.base_lt hb
  have hbpos := (hs.inUse b hb).2
  -- the first byte of the one or of the other is in both
  obtain ⟨x, hxb, hxc⟩ : ∃ x, b.covers x = true ∧ c.covers x = true := by
    simp only [Block.covers_iff]
    by_cases hcb : c.start = base
    · obtain rfl : c = ⟨base, 0⟩ :=
        hs.list.eq_of_start hc (List.mem_of_mem_head? hs.list.head) hcb
      simp only [Block.stop, HEADER] at *
      omega
    · have hcpos := hs.list.pos c hc hcb
      refine ⟨max b.start c.start, ?_⟩
      simp only [Block.stop, HEADER] at *
      omega
  have h₁ := count_pos hb hxb
  have h₂ := count_pos hc hxc
  have hone := hs.le_one x
  omega

theorem freed (hs : Sound base h l (b :: live)) (hf : Freed base h l b h' l') :
    Sound base h' l' live := by
  have hb : b ∈ b :: live := mem_cons_self
  obtain ⟨hsize, hpos⟩ := hs.inUse b hb
  refine ⟨hf.list, ?_, ?_, ?_, ?_, ?_⟩
  · intro c hc
    have hc' : c ∈ b :: live := List.mem_cons_of_mem _ hc
    obtain ⟨hcsize, hcpos⟩ := hs.inUse c hc'
    refine ⟨?_, hcpos⟩
    rw [hf.size c.start (hs.not_free hc') ?_, hcsize]
    intro heq
    have hone := hs.le_one c.start
    have h₁ := count_pos hc (covers_start hcpos)
    have h₂ := count_pos (l := [b]) mem_cons_self (covers_start hpos)
    rw [count_cons] at hone
    rw [← heq] at h₂
    omega
  · intro x
    have htiles := hs.tiles x
    rw [count_cons] at htiles
    rw [hf.count, hf.core]
    omega
  · rw [hf.core]
    exact hs.once
  · rw [hf.core, hf.brk]
    exact hs.core
  · rw [hf.brk]
    exact hs.brk

theorem free (hs : Sound base h l (b :: live)) :
    ∃ h' l', (∀ fuel, l.length ≤ fuel → free fuel h (b.start + HEADER) = .ok h') ∧
      Sound base h' l' live := by
  have hb : b ∈ b :: live := mem_cons_self
  obtain ⟨hsize, hpos⟩ := hs.inUse b hb
  have hlow := hs.base_lt hb
  obtain ⟨h', l', hfree, hf⟩ := hs.list.free (by unfold HEADER at hlow; omega) hsize hpos
    (fun c hc => hs.disjoint hb hc)
  exact ⟨h', l', hfree, hs.freed hf⟩

theorem take {n a : Nat} (hs : Sound base h l live) (hn : 0 < n)
    (ht : Taken base h l n a h' l') : Sound base h' l' (⟨a, n⟩ :: live) := by
  refine ⟨ht.list, ?_, ?_, ?_, ?_, ?_⟩
  · intro c hc
    rcases mem_cons.mp hc with rfl | hlive
    · exact ⟨ht.given, hn⟩
    · obtain ⟨hcsize, hcpos⟩ := hs.inUse c hlive
      refine ⟨?_, hcpos⟩
      rw [ht.size c.start (hs.not_free hlive) ?_, hcsize]
      rintro rfl
      have hone := hs.le_one c.start
      have h₁ := count_pos hlive (covers_start hcpos)
      have h₂ := count_pos (l := [⟨c.start, n⟩]) mem_cons_self (covers_start hn)
      have hcount := ht.count c.start
      dsimp only at h₂
      omega
  · intro x
    have htiles := hs.tiles x
    have hcount := ht.count x
    rw [count_cons, ht.core]
    omega
  · rw [ht.core]
    exact hs.once
  · rw [ht.core, ht.brk]
    exact hs.core
  · rw [ht.brk]
    exact hs.brk

theorem stop_le_brk (hs : Sound base h l live) (hb : b ∈ l) : b.stop ≤ h.brk := by
  have hbrk := hs.brk
  by_cases heq : b.start = base
  · obtain rfl : b = ⟨base, 0⟩ :=
      hs.list.eq_of_start hb (List.mem_of_mem_head? hs.list.head) heq
    simp only [Block.stop]
    omega
  · have hpos := hs.list.pos b hb heq
    -- its last byte is obtained
    have hlast : b.covers (b.stop - 1) = true := by
      rw [Block.covers_iff]
      unfold Block.stop HEADER
      omega
    have := (hs.bounds (Nat.add_pos_left (count_pos hb hlast) _)).2
    omega

theorem above {hp : Nat} (hs : Sound base h l live) (hhp : h.brk ≤ hp) :
    base < hp ∧ ∀ c ∈ l, c.stop ≤ hp := by
  have hbrk := hs.brk
  unfold HEADER at hbrk
  exact ⟨by omega, fun c hc => Nat.le_trans (hs.stop_le_brk hc) hhp⟩

theorem grow {hp nu : Nat} (hs : Sound base h l live) (hnu : 0 < nu) (hlt : nu * HEADER < 2 ^ 32)
    (hhp : h.brk ≤ hp) : Sound base (claim h hp nu) l (⟨hp, nu⟩ :: live) := by
  have hbrk := hs.brk
  obtain ⟨hbase, habove⟩ := hs.above hhp
  refine ⟨hs.list.claim hbase habove, ?_, ?_, ?_, ?_, ?_⟩
  · intro c hc
    unfold claim
    dsimp only
    rcases mem_cons.mp hc with rfl | hlive
    · exact ⟨Function.update_self _ _ _, hnu⟩
    · obtain ⟨hcsize, hcpos⟩ := hs.inUse c hlive
      have hlt : c.start < h.brk := by
        refine (hs.bounds ?_).2
        have := count_pos hlive (covers_start hcpos)
        omega
      rw [Function.update_of_ne (by omega)]
      exact ⟨hcsize, hcpos⟩
  · intro x
    have htiles := hs.tiles x
    rw [count_cons, claim, count_cons x _ h.core]
    omega
  · intro x
    rw [claim, count_cons]
    have hone := hs.once x
    by_cases hx : (⟨hp, nu⟩ : Block).covers x = true
    · have hzero : count x h.core = 0 := by
        by_contra hne
        have := (hs.bounds (x := x) (by rw [hs.tiles]; omega)).2
        have := (Block.covers_iff.mp hx).1
        dsimp only at this
        omega
      have hle : count x [⟨hp, nu⟩] ≤ 1 := List.countP_le_length
      omega
    · have hzero : count x [⟨hp, nu⟩] = 0 := by simp [count, hx]
      omega
  · intro c hc
    unfold claim at hc ⊢
    dsimp only
    rw [Nat.mod_eq_of_lt hlt]
    rcases mem_cons.mp hc with rfl | hc
    · simp only [Block.stop]
      omega
    · have := hs.core c hc
      omega
  · unfold claim
    dsimp only
    omega

end Sound

/-! ## The loop of `malloc` -/

theorem mallocLoop_skip {e p prevp : Nat} {m : List Nat} {S : Nat → Prop}
    (hlinks : Links h.ptr p m e) (hsmall : ∀ a ∈ m, h.size a < nunits ∧ h.freep ≠ some a)
    (hS : ∀ a ∈ m, S a) (hprev : S prevp) (hptr : h.ptr prevp = p) :
    ∃ q, S q ∧ h.ptr q = e ∧ ∀ sbrk n, mallocLoop nunits (n + m.length) h sbrk prevp p =
      mallocLoop nunits n h sbrk q e := by
  induction m generalizing p prevp with
  | nil =>
    obtain rfl := hlinks
    exact ⟨prevp, hprev, hptr, fun _ _ => rfl⟩
  | cons a m ih =>
    obtain ⟨rfl, hlinks⟩ := hlinks
    obtain ⟨hsize, hfreep⟩ := hsmall p mem_cons_self
    obtain ⟨q, hq, hqe, heq⟩ := ih hlinks (fun a ha => hsmall a (List.mem_cons_of_mem _ ha))
      (fun a ha => hS a (List.mem_cons_of_mem _ ha)) (hS p mem_cons_self) rfl
    refine ⟨q, hq, hqe, fun sbrk n => ?_⟩
    rw [List.length_cons, ← Nat.add_assoc, mallocLoop, if_neg (by omega), if_neg hfreep, heq]

variable {f : Nat}

theorem FreeList.round (hl : FreeList base h l) (hf : h.freep = some f) :
    ∃ (m : List Block) (c : Block), (m ++ [c]).Perm l ∧ c.start = f ∧
      Links h.ptr (h.ptr f) (m.map Block.start) f := by
  obtain ⟨c, hc, heq⟩ := hl.freep
  obtain rfl : f = c.start := Option.some.inj (hf.symm.trans heq)
  obtain ⟨l₁, l₂, rfl⟩ := List.append_of_mem hc
  refine ⟨l₂ ++ l₁, c, ?_, rfl, ?_⟩
  · rw [List.append_assoc]
    exact List.perm_append_comm.trans (by simp)
  · have hring := hl.ring
    rw [map_append, map_cons] at hring
    rw [map_append]
    exact hring.rotate

theorem mallocLoop_found (hl : FreeList base h l) (hf : h.freep = some f)
    (hn : 0 < nunits) (hbig : ∃ c ∈ l, nunits ≤ c.units) :
    ∃ a h' l', (∀ fuel sbrk, l.length ≤ fuel →
        mallocLoop nunits fuel h sbrk f (h.ptr f) = .ok (some (a + HEADER), h')) ∧
      Taken base h l nunits a h' l' := by
  obtain ⟨m, c, hperm, rfl, hlinks⟩ := hl.round hf
  -- the first block of the round that is large enough
  obtain ⟨x, hx⟩ : ∃ x, (m ++ [c]).find? (fun b => decide (nunits ≤ b.units)) = some x := by
    rw [← Option.isSome_iff_exists, List.find?_isSome]
    obtain ⟨b, hb, hbig⟩ := hbig
    exact ⟨b, hperm.mem_iff.mpr hb, by simpa using hbig⟩
  obtain ⟨hxbig, pre, post, heq, hpre⟩ := List.find?_eq_some_iff_append.mp hx
  have hxl : x ∈ l := hperm.mem_iff.mp (by rw [heq]; simp)
  have hmem {b : Block} (hb : b ∈ pre) : b ∈ l := hperm.mem_iff.mp (by rw [heq]; simp [hb])
  have hround : Links h.ptr (h.ptr c.start) (pre.map Block.start ++ x.start :: post.map Block.start)
      (h.ptr c.start) := by
    rw [← map_cons, ← map_append, ← heq, map_append]
    exact links_append.mpr ⟨c.start, hlinks, rfl, rfl⟩
  have hnd : (m ++ [c]).Nodup := hperm.nodup_iff.mpr (List.Nodup.of_map _ hl.nodup)
  have hcnot : c ∉ pre := by
    intro hcpre
    have hcpost : c ∈ x :: post := by
      have hlast := congrArg List.getLast? heq
      rw [List.getLast?_concat, List.getLast?_append_of_ne_nil _ (by simp)] at hlast
      exact List.mem_of_getLast? hlast.symm
    rw [heq] at hnd
    exact (List.nodup_append.mp hnd).2.2 c hcpre c hcpost rfl
  obtain ⟨q, hq, hqx, hloop⟩ := mallocLoop_skip
    (S := fun a => a ∈ l.map Block.start) (links_append_cons.mp hround).1
    (by
      intro a ha
      obtain ⟨b, hb, rfl⟩ := mem_map.mp ha
      refine ⟨?_, ?_⟩
      · rw [hl.size b (hmem hb)]
        simpa using hpre b hb
      · rw [hf]
        intro hcb
        have hcl : c ∈ l := hperm.mem_iff.mp (by simp)
        obtain rfl := hl.eq_of_start hcl (hmem hb) (Option.some.inj hcb)
        exact hcnot hb)
    (by
      intro a ha
      obtain ⟨b, hb, rfl⟩ := mem_map.mp ha
      exact List.mem_map_of_mem (hmem hb))
    (List.mem_map_of_mem (hperm.mem_iff.mp (by simp))) rfl
  have hxsize := hl.size x hxl
  have hxle : nunits ≤ x.units := by simpa using hxbig
  obtain ⟨a, h', l', htake, htaken⟩ := hl.take hq hxl hqx hn hxle
  refine ⟨a, h', l', fun fuel sbrk hfuel => ?_, htaken⟩
  have hlen : pre.length < fuel := by
    have := hperm.length_eq
    rw [heq, List.length_append, List.length_cons] at this
    omega
  obtain ⟨n, rfl⟩ := Nat.exists_eq_add_of_lt hlen
  have hskip := hloop sbrk (n + 1)
  rw [List.length_map] at hskip
  rw [show pre.length + n + 1 = n + 1 + pre.length by omega, hskip, mallocLoop,
    if_pos (by rw [hxsize]; exact hxle), htake]

theorem mallocLoop_grow (hl : FreeList base h l) (hf : h.freep = some f)
    (hsmall : ∀ c ∈ l, c.units < nunits) (sbrk : Nat → Option Nat) (n : Nat) :
    mallocLoop nunits (n + l.length) h sbrk f (h.ptr f) =
      match morecore n h nunits (sbrk 0) with
      | .error e => .error e
      | .ok (none, h) => .ok (none, h)
      | .ok (some p, h) => mallocLoop nunits n h (fun i => sbrk (i + 1)) p (h.ptr p) := by
  obtain ⟨m, c, hperm, rfl, hlinks⟩ := hl.round hf
  have hlen := hperm.length_eq
  rw [List.length_append, List.length_singleton] at hlen
  have hnd : (m ++ [c]).Nodup := hperm.nodup_iff.mpr (List.Nodup.of_map _ hl.nodup)
  have hmem {b : Block} (hb : b ∈ m) : b ∈ l := hperm.mem_iff.mp (by simp [hb])
  have hcl : c ∈ l := hperm.mem_iff.mp (by simp)
  obtain ⟨q, -, hqx, hloop⟩ := mallocLoop_skip
    (S := fun _ => True) hlinks
    (by
      intro a ha
      obtain ⟨b, hb, rfl⟩ := mem_map.mp ha
      refine ⟨?_, ?_⟩
      · rw [hl.size b (hmem hb)]
        exact hsmall b (hmem hb)
      · rw [hf]
        intro hcb
        obtain rfl := hl.eq_of_start hcl (hmem hb) (Option.some.inj hcb)
        exact (List.nodup_append.mp hnd).2.2 c hb c (by simp) rfl)
    (fun _ _ => trivial) trivial rfl
  have hskip := hloop sbrk (n + 1)
  rw [List.length_map] at hskip
  have hcsmall := hsmall c hcl
  have hnot : ¬ h.size c.start ≥ nunits := by
    rw [hl.size c hcl]
    omega
  rcases hm : morecore n h nunits (sbrk 0) with e | ⟨_ | p, h'⟩ <;>
    rw [show n + l.length = n + 1 + m.length by omega, hskip, mallocLoop, if_neg hnot, if_pos hf,
      hm]

/-- What `sbrk` may answer to a request of `malloc`: it refuses, or it gives the memory from
the end of the address range on, which has grown at most. -/
def Grants (h : Heap) (sbrk : Nat → Option Nat) (nbytes : Nat) : Prop :=
  ∀ hp, sbrk 0 = some hp → h.brk ≤ hp ∧ hp + max (units nbytes) 4096 * HEADER < 2 ^ 32

theorem units_pos (nbytes : Nat) : 0 < units nbytes := Nat.succ_pos _

theorem le_units {nbytes : Nat} (hn : nbytes ≤ 2 ^ 30) :
    nbytes ≤ (units nbytes - 1) * HEADER ∧ units nbytes * HEADER < 2 ^ 32 := by
  unfold units HEADER
  omega

/-- What a call of `malloc` for `nunits` units returns, and the heap after it: nothing, where
`sbrk` refuses, a block of the list, or a block of the list with what `sbrk` has given. -/
inductive Served (base nunits : Nat) (h : Heap) (l : List Block) (answer : Option Nat) :
    Option Nat → Heap → List Block → Prop
  | refused (hsbrk : answer = none) : Served base nunits h l answer none h l
  | found {a : Nat} {h' : Heap} {l' : List Block} (htake : Taken base h l nunits a h' l') :
      Served base nunits h l answer (some (a + HEADER)) h' l'
  | grown {a hp : Nat} {h₁ h' : Heap} {l₁ l' : List Block} (hsbrk : answer = some hp)
      (hfree : Freed base (claim h hp (coreUnits nunits)) l ⟨hp, coreUnits nunits⟩ h₁ l₁)
      (htake : Taken base h₁ l₁ nunits a h' l') :
      Served base nunits h l answer (some (a + HEADER)) h' l'

theorem FreeList.mallocLoop (hl : FreeList base h l) (hf : h.freep = some f)
    (hn : 0 < nunits) (habove : ∀ hp, sbrk 0 = some hp → base < hp ∧ ∀ c ∈ l, c.stop ≤ hp) :
    ∃ r h' l' N, (∀ fuel, N ≤ fuel → mallocLoop nunits fuel h sbrk f (h.ptr f) = .ok (r, h')) ∧
      Served base nunits h l (sbrk 0) r h' l' := by
  by_cases hbig : ∃ c ∈ l, nunits ≤ c.units
  · obtain ⟨a, h', l', hloop, htaken⟩ := mallocLoop_found hl hf hn hbig
    exact ⟨_, h', l', l.length, fun fuel hfuel => hloop fuel sbrk hfuel, .found htaken⟩
  · have hsmall : ∀ c ∈ l, c.units < nunits := by
      intro c hc
      exact Nat.lt_of_not_le fun hle => hbig ⟨c, hc, hle⟩
    have hgrow := mallocLoop_grow hl hf hsmall sbrk
    cases hsb : sbrk 0 with
    | none =>
      refine ⟨none, h, l, l.length, fun fuel hfuel => ?_, .refused rfl⟩
      obtain ⟨n, rfl⟩ := Nat.exists_eq_add_of_le' hfuel
      rw [hgrow, hsb]
      rfl
    | some hp =>
      obtain ⟨hbase, habove⟩ := habove hp hsb
      obtain ⟨f', h₁, l₁, hmore, hf', hfreed⟩ := hl.morecore nunits hbase habove
      have hroom : ∃ c ∈ l₁, nunits ≤ c.units := by
        obtain ⟨c, hc, hcu⟩ := hfreed.room
        exact ⟨c, hc, Nat.le_trans (le_coreUnits nunits) hcu⟩
      obtain ⟨a, h', l', hloop, htaken⟩ := mallocLoop_found hfreed.list hf' hn hroom
      refine ⟨_, h', l', max l.length l₁.length + l.length, fun fuel hfuel => ?_,
        .grown rfl hfreed htaken⟩
      obtain ⟨n, rfl⟩ : ∃ n, fuel = n + l.length := ⟨fuel - l.length, by omega⟩
      rw [hgrow, hsb, hmore n (by omega)]
      exact hloop n _ (by omega)

theorem Sound.served {answer r : Option Nat} (hs : Sound base h l live) (hn : 0 < nunits)
    (hnu : nunits * HEADER < 2 ^ 32) (hgrant : ∀ hp, answer = some hp → h.brk ≤ hp)
    (h₀ : Served base nunits h l answer r h' l') :
    (r = none ∧ answer = none ∧ Sound base h' l' live) ∨
      ∃ a, r = some (a + HEADER) ∧ Sound base h' l' (⟨a, nunits⟩ :: live) := by
  cases h₀ with
  | refused hsbrk => exact Or.inl ⟨rfl, hsbrk, hs⟩
  | found htake => exact Or.inr ⟨_, rfl, hs.take hn htake⟩
  | grown hsbrk hfree htake =>
    have hlt : coreUnits nunits * HEADER < 2 ^ 32 := by
      unfold coreUnits HEADER at *
      split <;> omega
    have hgrow := hs.grow (coreUnits_pos nunits) hlt (hgrant _ hsbrk)
    exact Or.inr ⟨_, rfl, (hgrow.freed hfree).take hn htake⟩

/-! ## Runs -/

/-- The code returns `r`: with enough turns of its loops that is what comes out. -/
def Returns {α : Type} (code : Nat → Except Fault α) (r : α) : Prop :=
  ∃ N, ∀ fuel, N ≤ fuel → code fuel = .ok r

theorem Returns.unique {α : Type} {code : Nat → Except Fault α} {r r' : α} (hr : Returns code r)
    (hr' : Returns code r') : r = r' := by
  obtain ⟨N, hN⟩ := hr
  obtain ⟨N', hN'⟩ := hr'
  have heq := (hN (max N N') (Nat.le_max_left ..)).symm.trans (hN' _ (Nat.le_max_right ..))
  exact Except.ok.inj heq

/-- The heap, and what `malloc` has returned and is still in use, with what was asked for. -/
structure World where
  heap : Heap
  live : List (Nat × Nat)

inductive Call
  | malloc (nbytes : Nat)
  | free (ap : Nat)

/-- Nothing has been allocated; the static data with `base` end below the heap. -/
def Init (base : Nat) (w : World) : Prop :=
  0 < base ∧ w.heap.freep = none ∧ w.heap.core = [] ∧ w.live = [] ∧ base + HEADER ≤ w.heap.brk

inductive Step (base : Nat) (w : World) : Call → World → Prop
  | malloc {nbytes : Nat} {sbrk : Nat → Option Nat} {r : Option Nat} {h : Heap}
      (hn : nbytes ≤ 2 ^ 30) (hsbrk : Grants w.heap sbrk nbytes)
      (hcode : Returns (fun fuel => malloc fuel base w.heap sbrk nbytes) (r, h)) :
      Step base w (.malloc nbytes) ⟨h, r.toList.map (·, nbytes) ++ w.live⟩
  | free {ap nbytes : Nat} {h : Heap} (hlive : (ap, nbytes) ∈ w.live)
      (hcode : Returns (fun fuel => free fuel w.heap ap) h) :
      Step base w (.free ap) ⟨h, w.live.erase (ap, nbytes)⟩

/-- The block that `malloc` made for a pointer it returned. -/
def asked (a : Nat × Nat) : Block := ⟨a.1 - HEADER, units a.2⟩

structure Good (base : Nat) (w : World) : Prop where
  sound : ∃ l, Sound base w.heap l (w.live.map asked)
  pointers : ∀ a ∈ w.live, HEADER ≤ a.1 ∧ a.2 ≤ 2 ^ 30

def Inv (base : Nat) (w : World) : Prop := Init base w ∨ Good base w

theorem Sound.perm {live' : List Block} (hs : Sound base h l live) (hp : live.Perm live') :
    Sound base h l live' :=
  ⟨hs.list, fun b hb => hs.inUse b (hp.mem_iff.mpr hb),
    fun x => by rw [← hs.tiles x, count, count, count, hp.countP_eq], hs.once, hs.core, hs.brk⟩

theorem sound_initialise (hcore : h.core = []) (hbrk : base + HEADER ≤ h.brk) :
    Sound base (initialise base h) [⟨base, 0⟩] [] := by
  refine ⟨freeList_initialise base h, by simp, ?_, ?_, ?_, hbrk⟩
  · intro x
    have hnone : (⟨base, 0⟩ : Block).covers x = false := by
      simp only [Block.covers, Block.stop]
      grind
    simp [count, initialise, hcore, hnone]
  · simp [initialise, hcore]
  · simp [initialise, hcore]

def Ready (base : Nat) (h : Heap) (live : List Block) : Prop :=
  (h.freep = none ∧ h.core = [] ∧ base + HEADER ≤ h.brk ∧ live = []) ∨ ∃ l, Sound base h l live

theorem Ready.enter (hr : Ready base h live) :
    ∃ h₀ l f, Sound base h₀ l live ∧ h₀.freep = some f ∧ h₀.brk = h.brk ∧ h₀.core = h.core ∧
      ∀ fuel sbrk nbytes, malloc fuel base h sbrk nbytes =
        mallocLoop (units nbytes) fuel h₀ sbrk f (h₀.ptr f) := by
  rcases hr with ⟨hfreep, hcore, hbrk, rfl⟩ | ⟨l, hs⟩
  · refine ⟨initialise base h, [⟨base, 0⟩], base, sound_initialise hcore hbrk, rfl, rfl, rfl,
      fun fuel sbrk nbytes => ?_⟩
    rw [malloc, hfreep]
  · obtain ⟨b, -, hf⟩ := hs.list.freep
    refine ⟨h, l, b.start, hs, hf, rfl, rfl, fun fuel sbrk nbytes => ?_⟩
    rw [malloc, hf]

variable {w : World}

theorem Inv.ready (hi : Inv base w) : Ready base w.heap (w.live.map asked) := by
  rcases hi with ⟨-, hfreep, hcore, hlive, hbrk⟩ | ⟨hs, -⟩
  · exact Or.inl ⟨hfreep, hcore, hbrk, by rw [hlive]; rfl⟩
  · exact Or.inr hs

theorem Inv.pointers (hi : Inv base w) : ∀ a ∈ w.live, HEADER ≤ a.1 ∧ a.2 ≤ 2 ^ 30 := by
  rcases hi with ⟨-, -, -, hlive, -⟩ | ⟨-, hlive⟩
  · simp [hlive]
  · exact hlive

theorem Inv.malloc {nbytes : Nat} (hi : Inv base w) (hn : nbytes ≤ 2 ^ 30)
    (hsbrk : Grants w.heap sbrk nbytes) :
    ∃ r h, Returns (fun fuel => malloc fuel base w.heap sbrk nbytes) (r, h) ∧
      (r = none → sbrk 0 = none) ∧ Good base ⟨h, r.toList.map (·, nbytes) ++ w.live⟩ := by
  obtain ⟨h, l, f, hs, hf, hbrk, -, hmalloc⟩ := hi.ready.enter
  obtain ⟨-, hunits⟩ := le_units hn
  have hgrant : ∀ hp, sbrk 0 = some hp → h.brk ≤ hp := fun hp hhp => hbrk ▸ (hsbrk hp hhp).1
  obtain ⟨r, h', l', N, hloop, hcase⟩ := hs.list.mallocLoop hf (units_pos nbytes)
    fun hp hhp => hs.above (hgrant hp hhp)
  refine ⟨r, h', ⟨N, fun fuel hfuel => (hmalloc ..).trans (hloop fuel hfuel)⟩, ?_⟩
  rcases hs.served (units_pos nbytes) hunits hgrant hcase with ⟨rfl, hrefused, hs'⟩ | ⟨a, rfl, hs'⟩
  · exact ⟨fun _ => hrefused, ⟨l', hs'⟩, hi.pointers⟩
  · refine ⟨nofun, ⟨l', ?_⟩, ?_⟩
    · simpa [asked] using hs'
    · intro c hc
      simp only [Option.toList_some, map_cons, List.map_nil, List.singleton_append,
        mem_cons] at hc
      rcases hc with rfl | hc
      · exact ⟨Nat.le_add_left _ _, hn⟩
      · exact hi.pointers c hc

theorem Inv.free {a : Nat × Nat} (hi : Inv base w) (ha : a ∈ w.live) :
    ∃ h, Returns (fun fuel => free fuel w.heap a.1) h ∧ Good base ⟨h, w.live.erase a⟩ := by
  obtain ⟨l, hs⟩ : ∃ l, Sound base w.heap l (w.live.map asked) := by
    rcases hi with ⟨-, -, -, hlive, -⟩ | ⟨hs, -⟩
    · simp [hlive] at ha
    · exact hs
  have hperm := (List.perm_cons_erase ha).map asked
  obtain ⟨h', l', hfree, hs'⟩ := (hs.perm hperm).free
  have hstart : (asked a).start + HEADER = a.1 := Nat.sub_add_cancel (hi.pointers a ha).1
  rw [hstart] at hfree
  refine ⟨h', ⟨l.length, hfree⟩, ⟨l', hs'⟩, ?_⟩
  exact fun c hc => hi.pointers c (List.mem_of_mem_erase hc)

theorem Inv.step {w w' : World} {c : Call} (hi : Inv base w) (hstep : Step base w c w') :
    Good base w' := by
  cases hstep with
  | malloc hn hsbrk hcode =>
    obtain ⟨r, h, hret, -, hi'⟩ := hi.malloc hn hsbrk
    obtain ⟨rfl, rfl⟩ := Prod.mk.inj (hret.unique hcode)
    exact hi'
  | free hlive hcode =>
    obtain ⟨h, hret, hi'⟩ := hi.free hlive
    obtain rfl := hret.unique hcode
    exact hi'

theorem inv_of_run {tr : List Call} (hrun : Trace.Run (Init base) (Step base) tr w) :
    Inv base w :=
  hrun.invariant (fun _ h => Or.inl h) fun _ _ _ hi hs => Or.inr (hi.step hs)

def blockOf (h : Heap) (a : Nat × Nat) : Block := ⟨a.1 - HEADER, h.size (a.1 - HEADER)⟩

/-- After any calls of `malloc` and of `free`: from the first call on, the list is circular,
in the order of the addresses and with gaps between its blocks, every pointer in use has
the bytes that were asked for, each byte that `morecore` obtained is in exactly one block,
free or in use, and no other byte is in any. The next call returns. -/
theorem heap_sound {w : World} {tr : List Call}
    (hrun : Trace.Run (Init base) (Step base) tr w) :
    (tr ≠ [] → ∃ l, FreeList base w.heap l ∧
      (∀ a ∈ w.live, a.2 ≤ (w.heap.size (a.1 - HEADER) - 1) * HEADER) ∧
      ∀ x, count x l + count x (w.live.map (blockOf w.heap)) = count x w.heap.core ∧
        count x w.heap.core ≤ 1 ∧ (x < base + HEADER → count x w.heap.core = 0)) ∧
    (∀ nbytes sbrk, nbytes ≤ 2 ^ 30 → Grants w.heap sbrk nbytes →
      ∃ r h, Returns (fun fuel => malloc fuel base w.heap sbrk nbytes) (r, h)) ∧
    ∀ a ∈ w.live, ∃ h, Returns (fun fuel => free fuel w.heap a.1) h := by
  have hi := inv_of_run hrun
  refine ⟨fun hne => ?_, fun nbytes sbrk hn hsbrk => ?_, fun a ha => ?_⟩
  · obtain ⟨l, hs⟩ : ∃ l, Sound base w.heap l (w.live.map asked) := by
      cases hrun with
      | start _ => exact absurd rfl hne
      | snoc hr hstep => exact ((inv_of_run hr).step hstep).sound
    have hsize {a : Nat × Nat} (ha : a ∈ w.live) : w.heap.size (a.1 - HEADER) = units a.2 :=
      (hs.inUse (asked a) (List.mem_map_of_mem ha)).1
    have hblocks : w.live.map (blockOf w.heap) = w.live.map asked := by
      refine List.map_congr_left fun a ha => ?_
      rw [blockOf, asked, hsize ha]
    refine ⟨l, hs.list, fun a ha => ?_, fun x => ⟨?_, hs.once x, fun hx => ?_⟩⟩
    · rw [hsize ha]
      exact (le_units (hi.pointers a ha).2).1
    · rw [hblocks]
      exact hs.tiles x
    · by_contra hpos
      have := (hs.bounds (x := x) (by rw [hs.tiles]; omega)).1
      omega
  · obtain ⟨r, h, hret, -⟩ := hi.malloc hn hsbrk
    exact ⟨r, h, hret⟩
  · obtain ⟨h, hret, -⟩ := hi.free ha
    exact ⟨h, hret⟩

theorem ten_bytes_freed : ∃ (w : World) (ap : Nat),
    Trace.Run (Init 4096) (Step 4096) [.malloc 10, .free ap] w ∧ w.live = [] ∧
      ∃ l, FreeList 4096 w.heap l ∧ ∀ x, count x l = count x w.heap.core := by
  let h : Heap := { ptr := fun _ => 0, size := fun _ => 0, freep := none, brk := 8192, core := [] }
  have hinit : Init 4096 ⟨h, []⟩ := ⟨by decide, rfl, rfl, rfl, by decide⟩
  have hsbrk : Grants h (fun _ => some 8192) 10 := by
    rintro hp ⟨rfl⟩
    decide
  have hi : Inv 4096 ⟨h, []⟩ := Or.inl hinit
  obtain ⟨r, h₁, hmalloc, hsome, hi₁⟩ := hi.malloc (by decide) hsbrk
  obtain ⟨ap, rfl⟩ : ∃ ap, r = some ap := by
    cases r with
    | none => cases hsome rfl
    | some ap => exact ⟨ap, rfl⟩
  have hlive : (ap, 10) ∈ (some ap).toList.map (·, 10) ++ [] := mem_cons_self
  obtain ⟨h₂, hfree, -⟩ := Inv.free (Or.inr hi₁) hlive
  have hstart : Trace.Run (Init 4096) (Step 4096) [] ⟨h, []⟩ := .start hinit
  have hrun := (hstart.snoc (.malloc (by decide) hsbrk hmalloc)).snoc (.free hlive hfree)
  obtain ⟨l, hl, -, hcount⟩ := (heap_sound hrun).1 (by simp)
  have hempty : ((some ap).toList.map (·, 10) ++ []).erase (ap, 10) = [] := by simp
  refine ⟨_, ap, hrun, hempty, l, hl, fun x => ?_⟩
  have htiles := (hcount x).1
  rwa [hempty] at htiles

end Malloc

end Xv6
