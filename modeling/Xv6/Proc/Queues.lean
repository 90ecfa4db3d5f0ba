import Xv6.Proc.Ops

/-!
# Process queues

The table seen without pointers: every list head of `struct StateLists` stands for a sequence
of processes. `Rep t q` says that the linked lists of `t` hold the sequences of `q`; the list
primitives of `proc.c` then compute `cons`, append and `erase`.
-/

open Function (update update_of_ne update_self)

namespace Xv6

open Intrusive

structure Queues extends Core where
  list : Queue → List Slot

namespace Queues

def modify (q : Queues) (p : Slot) (f : Proc → Proc) : Queues :=
  { q with toCore := q.toCore.modify p f }

def addhead (q : Queues) (l : Queue) (p : Slot) : Queues :=
  { q with list := update q.list l (p :: q.list l) }

def addtail (q : Queues) (l : Queue) (p : Slot) : Queues :=
  { q with list := update q.list l (q.list l ++ [p]) }

def unlink (q : Queues) (l : Queue) (p : Slot) : Queues :=
  { q with list := update q.list l ((q.list l).erase p) }

section Fields

variable (q : Queues) (l : Queue) (p : Slot) (f : Proc → Proc)

@[simp] theorem modify_toCore : (q.modify p f).toCore = q.toCore.modify p f := rfl
@[simp] theorem modify_list : (q.modify p f).list = q.list := rfl
@[simp] theorem addhead_toCore : (q.addhead l p).toCore = q.toCore := rfl
@[simp] theorem addtail_toCore : (q.addtail l p).toCore = q.toCore := rfl
@[simp] theorem unlink_toCore : (q.unlink l p).toCore = q.toCore := rfl

theorem mem_addhead {a : Slot} {l' : Queue} :
    a ∈ (q.addhead l p).list l' ↔ (a = p ∧ l' = l) ∨ a ∈ q.list l' := by
  unfold addhead
  by_cases h : l' = l
  · subst h; simp
  · simp [h]

theorem mem_addtail {a : Slot} {l' : Queue} :
    a ∈ (q.addtail l p).list l' ↔ (a = p ∧ l' = l) ∨ a ∈ q.list l' := by
  unfold addtail
  by_cases h : l' = l
  · subst h; simp [or_comm]
  · simp [h]

theorem mem_of_mem_unlink {a : Slot} {l' : Queue} (h : a ∈ (q.unlink l p).list l') :
    a ∈ q.list l' := by
  unfold unlink at h
  by_cases hl : l' = l
  · subst hl
    simp only [update_self] at h
    exact List.mem_of_mem_erase h
  · simpa [hl] using h

end Fields

end Queues

/-! ## Representation -/

/-- The linked lists of `t` hold the sequences of `q`. -/
structure Rep (t : Ptable) (q : Queues) : Prop where
  core : t.toCore = q.toCore
  chain : ∀ l, Chain t.next (t.pLists l) (q.list l)
  disj : ∀ {p l l'}, p ∈ q.list l → p ∈ q.list l' → l = l'

/-- `m` ends without a fault in a table that represents `q`. -/
def Sim (m : Except Fault Ptable) (q : Queues) : Prop :=
  ∃ t, m = .ok t ∧ Rep t q

theorem Rep.sim {t : Ptable} {q : Queues} (h : Rep t q) : Sim (.ok t) q := ⟨t, rfl, h⟩

theorem Sim.bind {m : Except Fault Ptable} {k : Ptable → Except Fault Ptable} {q q' : Queues}
    (h : Sim m q) (hk : ∀ t, Rep t q → Sim (k t) q') : Sim (m >>= k) q' := by
  obtain ⟨t, rfl, hr⟩ := h
  exact hk t hr

namespace Rep

variable {t : Ptable} {q : Queues}

theorem proc (h : Rep t q) : t.proc = q.proc := congrArg Core.proc h.core

theorem length_le (h : Rep t q) (l : Queue) : (q.list l).length ≤ NPROC := by
  have := (h.chain l).nodup.length_le_card
  rwa [Fintype.card_fin] at this

theorem modify (h : Rep t q) (p : Slot) (f : Proc → Proc) :
    Rep (t.modify p f) (q.modify p f) :=
  ⟨by rw [Ptable.modify_toCore, Queues.modify_toCore, h.core], h.chain, h.disj⟩

theorem mapCore (h : Rep t q) (g : Core → Core) :
    Rep { t with toCore := g t.toCore } { q with toCore := g q.toCore } :=
  ⟨congrArg g h.core, h.chain, h.disj⟩

variable {l : Queue} {p : Slot}

/-- The lists stay disjoint when a process that is on none of them is added to one. -/
theorem disj_add (h : Rep t q) (hp : ∀ l, p ∉ q.list l)
    {L : Queue → List Slot} (hL : ∀ {a l'}, a ∈ L l' ↔ (a = p ∧ l' = l) ∨ a ∈ q.list l')
    {a : Slot} {l₁ l₂ : Queue} (h₁ : a ∈ L l₁) (h₂ : a ∈ L l₂) : l₁ = l₂ := by
  rcases hL.mp h₁ with ⟨rfl, rfl⟩ | h₁
  · rcases hL.mp h₂ with ⟨-, rfl⟩ | h₂
    · rfl
    · exact absurd h₂ (hp _)
  · rcases hL.mp h₂ with ⟨rfl, -⟩ | h₂
    · exact absurd h₁ (hp _)
    · exact h.disj h₁ h₂

theorem addhead (h : Rep t q) (hp : ∀ l, p ∉ q.list l) (l : Queue) :
    Rep (t.addhead l p) (q.addhead l p) := by
  refine ⟨h.core, fun l' => ?_, h.disj_add hp (q.mem_addhead l p)⟩
  unfold Ptable.addhead Queues.addhead
  by_cases hl : l' = l
  · subst hl
    simp only [update_self]
    exact (h.chain l').push (hp l')
  · simp only [update_of_ne hl]
    exact (h.chain l').update (hp l')

theorem scan_last {next : Slot → Option Slot} {h : Option Slot} {pre : List Slot} {c : Slot}
    (hc : Chain next h (pre ++ [c])) (hf : (pre ++ [c]).length ≤ NPROC) :
    scan next (fun a => (next a).isNone) NPROC h = some (some c) := by
  rw [scan_eq hc hf]
  have hpre : ∀ a ∈ pre, ¬ (next a).isNone := by
    intro a ha
    obtain ⟨pre₁, pre₂, rfl⟩ := List.append_of_mem ha
    rw [List.append_assoc, List.cons_append] at hc
    rw [hc.next_eq]
    cases pre₂ <;> simp
  have hlast : (next c).isNone := by rw [hc.next_eq]; rfl
  rw [List.find?_append, List.find?_eq_none.mpr hpre]
  simp [hlast]

theorem addtail (h : Rep t q) (hp : ∀ l, p ∉ q.list l) (l : Queue) :
    Sim (t.addtail l p) (q.addtail l p) := by
  have hdisj : ∀ {a l₁ l₂}, a ∈ (q.addtail l p).list l₁ → a ∈ (q.addtail l p).list l₂ →
      l₁ = l₂ := h.disj_add hp (q.mem_addtail l p)
  rcases List.eq_nil_or_concat (q.list l) with hnil | ⟨pre, c, hpc⟩
  · -- the empty list: the head becomes the new process
    have hhead : t.pLists l = none := by
      have := (h.chain l).head_eq
      rwa [hnil] at this
    have heq : t.addtail l p = .ok { t with
        pLists := update t.pLists l (some p)
        next := update t.next p none } := by
      unfold Ptable.addtail
      rw [hhead]
    refine ⟨_, heq, h.core, fun l' => ?_, hdisj⟩
    unfold Queues.addtail
    by_cases hl : l' = l
    · subst hl
      simp [hnil]
    · simp only [update_of_ne hl]
      exact (h.chain l').update (hp l')
  · -- otherwise the loop stops at the last process `c`
    rw [List.concat_eq_append] at hpc
    have hc := h.chain l
    have hlen := h.length_le l
    rw [hpc] at hc hlen
    obtain ⟨head, hhead⟩ : ∃ head, t.pLists l = some head := by
      rw [hc.head_eq]
      cases pre <;> simp
    have hscan := scan_last hc hlen
    rw [hhead] at hscan
    have heq : t.addtail l p = .ok { t with
        next := update (update t.next c (some p)) p none } := by
      unfold Ptable.addtail
      simp only [hhead, hscan]
    refine ⟨_, heq, h.core, fun l' => ?_, hdisj⟩
    unfold Queues.addtail
    by_cases hl : l' = l
    · subst hl
      simp only [update_self, hpc, List.append_assoc, List.cons_append, List.nil_append]
      exact hc.concat (by rw [← hpc]; exact hp l')
    · simp only [update_of_ne hl]
      refine ((h.chain l').update fun hm => hl ?_).update (hp l')
      exact h.disj hm (by rw [hpc]; simp)

theorem remove_mem (h : Rep t q) (hp : p ∈ q.list l) :
    ∃ t', t.remove l p = .ok (0, t') ∧ t'.next p = none ∧ Rep t' (q.unlink l p) := by
  have hdisj : ∀ {a l₁ l₂}, a ∈ (q.unlink l p).list l₁ → a ∈ (q.unlink l p).list l₂ → l₁ = l₂ :=
    fun h₁ h₂ => h.disj (q.mem_of_mem_unlink l p h₁) (q.mem_of_mem_unlink l p h₂)
  have hother : ∀ l', l' ≠ l → p ∉ q.list l' := fun l' hl hm => hl (h.disj hm hp)
  obtain ⟨pre, rest, hsplit⟩ := List.append_of_mem hp
  have hc := h.chain l
  have hlen := h.length_le l
  rw [hsplit] at hc hlen
  have hppre := hc.not_mem
  have herase : (q.list l).erase p = pre ++ rest := by
    rw [hsplit, List.erase_append_right _ hppre, List.erase_cons_head]
  rcases List.eq_nil_or_concat pre with rfl | ⟨pre', c, rfl⟩
  · -- the first process of the list
    have hhead : t.pLists l = some p := hc.head_eq
    have heq : t.remove l p = .ok (0, { t with
        pLists := update t.pLists l (t.next p)
        next := update t.next p none }) := by
      unfold Ptable.remove
      simp only [hhead, ↓reduceIte]
    refine ⟨_, heq, update_self .., h.core, fun l' => ?_, hdisj⟩
    unfold Queues.unlink
    by_cases hl : l' = l
    · subst hl
      simp only [update_self, herase]
      exact hc.pop
    · simp only [update_of_ne hl]
      exact (h.chain l').update (hother l' hl)
  · -- a process with a predecessor `c`
    rw [List.concat_eq_append] at hc hlen hppre herase
    rw [List.append_assoc, List.cons_append, List.nil_append] at hc herase
    obtain ⟨head, hhead⟩ : ∃ head, t.pLists l = some head := by
      rw [hc.head_eq]
      cases pre' <;> simp
    have hne : head ≠ p := by
      rintro rfl
      have := hc.head_eq
      rw [hhead] at this
      cases pre' with
      | nil =>
        have he : head = c := by simpa using this
        exact hppre (by simp [he])
      | cons b pre' =>
        have he : head = b := by simpa using this
        exact hppre (by simp [he])
    have hc' : Chain t.next (some head) ((pre' ++ [c]) ++ p :: rest) := by
      rwa [← hhead, List.append_assoc, List.cons_append, List.nil_append]
    have hseek := seek_mem (pre' ++ [c]) (some head) none NPROC hc' hppre
      (Nat.lt_of_lt_of_le (by simp) hlen)
    simp only [List.getLast?_append, List.getLast?_singleton, Option.some_or] at hseek
    have heq : t.remove l p = .ok (0, { t with
        next := update (update t.next c (t.next p)) p none }) := by
      unfold Ptable.remove
      simp only [hhead, hne, ↓reduceIte, hseek]
    refine ⟨_, heq, update_self .., h.core, fun l' => ?_, hdisj⟩
    unfold Queues.unlink
    by_cases hl : l' = l
    · subst hl
      simp only [update_self, herase]
      exact hc.unlink
    · simp only [update_of_ne hl]
      refine ((h.chain l').update fun hm => hl ?_).update (hother l' hl)
      exact h.disj hm (by rw [hsplit]; simp)

theorem remove_not_mem (h : Rep t q) (hp : p ∉ q.list l) :
    t.remove l p = .ok (-1, t) := by
  unfold Ptable.remove
  cases hhead : t.pLists l with
  | none => rfl
  | some head =>
    have hc := h.chain l
    have hne : head ≠ p := by
      rintro rfl
      have := hc.head_eq
      rw [hhead] at this
      exact hp (List.mem_of_head? this.symm)
    rw [hhead] at hc
    obtain ⟨prev, hseek⟩ := seek_not_mem (q.list l) (some head) none NPROC hc hp (h.length_le l)
    simp only [hne, ↓reduceIte, hseek]

theorem unlink (h : Rep t q) {state : ProcState} (msg : String)
    (hst : (q.proc p).state = state) (hp : p ∈ q.list l) :
    Sim (t.unlink l state msg p) (q.unlink l p) := by
  obtain ⟨t', hrem, -, hr⟩ := h.remove_mem hp
  refine ⟨t', ?_, hr⟩
  have hst' : (t.proc p).state = state := by rw [h.proc]; exact hst
  simp [Ptable.unlink, Ptable.assertState, hst', hrem, bind, Except.bind]

theorem find (h : Rep t q) (l : Queue) (test : Slot → Bool) :
    t.find l test = .ok ((q.list l).find? test) := by
  unfold Ptable.find
  rw [scan_eq (h.chain l) (h.length_le l)]

theorem forEach (h : Rep t q) {body : Slot → Ptable → Except Fault Ptable}
    {abody : Slot → Queues → Queues} {I : Queues → Prop} (hI : I q)
    (hbody : ∀ a t q, Rep t q → I q → a ∈ q.list l →
      Sim (body a t) (abody a q) ∧ I (abody a q) ∧ (abody a q).list l = q.list l) :
    Sim (t.forEach l body) ((q.list l).foldl (fun q a => abody a q) q) := by
  unfold Ptable.forEach
  rw [(h.chain l).head_eq]
  obtain ⟨t', hw, hr, -⟩ := loop_rule (w := walk Ptable.next body .diverge)
    (fun rest t u => Rep t u ∧ I u ∧ u.list l = q.list l ∧ ∃ pre, q.list l = pre ++ rest)
    (fun fuel _ => by cases fuel <;> rfl)
    (by
      rintro a rest t u ⟨hr, hIu, hlist, pre, hpre⟩
      obtain ⟨⟨t', hb, hr'⟩, hI', hl'⟩ := hbody a t u hr hIu (by rw [hlist, hpre]; simp)
      have hlist' : (abody a u).list l = q.list l := hl'.trans hlist
      have hc := hr'.chain l
      rw [hlist', hpre] at hc
      refine ⟨t', fun fuel => ?_, hr', hI', hlist', pre ++ [a], by simp [hpre]⟩
      simp only [walk, hb, bind, Except.bind]
      rw [hc.next_eq])
    (q.list l) t q NPROC (h.length_le l) ⟨h, hI, rfl, [], rfl⟩
  exact ⟨t', hw, hr⟩

theorem forEachSaved (h : Rep t q) {body : Slot → Ptable → Except Fault Ptable}
    {abody : Slot → Queues → Queues} {I : Queues → Prop} (hI : I q)
    (hbody : ∀ a t q, Rep t q → I q → a ∈ q.list l →
      Sim (body a t) (abody a q) ∧ I (abody a q) ∧
        ((abody a q).list l = q.list l ∨ (abody a q).list l = (q.list l).erase a)) :
    Sim (t.forEachSaved l body) ((q.list l).foldl (fun q a => abody a q) q) := by
  unfold Ptable.forEachSaved
  rw [(h.chain l).head_eq]
  obtain ⟨t', hw, hr, -⟩ := loop_rule (w := walkSaved Ptable.next body .diverge)
    (fun rest t u => Rep t u ∧ I u ∧ ∃ pre, u.list l = pre ++ rest)
    (fun fuel _ => by cases fuel <;> rfl)
    (by
      rintro a rest t u ⟨hr, hIu, pre, hpre⟩
      have hc := hr.chain l
      rw [hpre] at hc
      obtain ⟨⟨t', hb, hr'⟩, hI', hl'⟩ := hbody a t u hr hIu (by rw [hpre]; simp)
      refine ⟨t', fun fuel => ?_, hr', hI', ?_⟩
      · simp only [walkSaved, hb, bind, Except.bind]
        rw [hc.next_eq]
      · rcases hl' with hl' | hl'
        · exact ⟨pre ++ [a], by rw [hl', hpre]; simp⟩
        · refine ⟨pre, ?_⟩
          rw [hl', hpre, List.erase_append_right _ hc.not_mem, List.erase_cons_head])
    (q.list l) t q NPROC (h.length_le l) ⟨h, hI, [], rfl⟩
  exact ⟨t', hw, hr⟩

end Rep

theorem zero_rep : Rep .zero { Ptable.zero with list := fun _ => [] } :=
  ⟨rfl, fun _ => rfl, nofun⟩

end Xv6
