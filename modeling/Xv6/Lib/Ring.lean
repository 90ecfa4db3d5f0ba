import Mathlib.Data.List.Chain
import Mathlib.Data.List.Nodup

/-!
# Circular doubly linked lists

A ring is a head node and the nodes one meets from it by `next`, before one is back at the
head; `prev` goes the other way. Taking a node out, putting one in after the head and
walking along the ring in both directions are related to the list of its nodes.
-/

open List (cons_append isChain_cons_cons mem_append mem_cons_of_mem mem_singleton nodup_append
  nodup_cons)
open Function (update update_of_ne)

namespace Ring

structure Links (N : Type) where
  next : N → N
  prev : N → N

variable {N : Type}

/-- The nodes of the ring but for the head, in the order of `next`. -/
structure Links.Holds (r : Links N) (h : N) (l : List N) : Prop where
  nodup : (h :: l).Nodup
  chain : (h :: (l ++ [h])).IsChain fun a b => r.next a = b ∧ r.prev b = a

theorem isChain_mono {R S : N → N → Prop} {l : List N} (h : l.IsChain R)
    (hS : ∀ u ∈ l.dropLast, ∀ v ∈ l.tail, R u v → S u v) : l.IsChain S := by
  induction l with
  | nil => exact .nil
  | cons a l ih =>
    cases l with
    | nil => exact .singleton a
    | cons b l =>
      obtain ⟨hab, hl⟩ := isChain_cons_cons.mp h
      refine isChain_cons_cons.mpr ⟨hS a (by simp) b (by simp) hab, ih hl ?_⟩
      intro u hu v hv
      refine hS u ?_ v ?_
      · rw [List.dropLast_cons_of_ne_nil (by simp)]
        exact mem_cons_of_mem _ hu
      · exact List.mem_of_mem_tail hv

namespace Links

/-- The nodes from `a` on, up to the head. -/
def walk [DecidableEq N] (next : N → N) (h : N) : Nat → N → List N
  | 0, _ => []
  | n + 1, a => if a = h then [] else a :: walk next h n (next a)

def alone (h : N) : Links N where
  next := fun _ => h
  prev := fun _ => h

variable [DecidableEq N] {r : Links N} {h b : N} {l l₁ l₂ : List N}

def remove (r : Links N) (b : N) : Links N :=
  let prev := update r.prev (r.next b) (r.prev b)
  { next := update r.next (prev b) (r.next b), prev := prev }

def pushFront (r : Links N) (h b : N) : Links N :=
  let next := update r.next b (r.next h)
  let prev := update r.prev b h
  { next := update next h b, prev := update prev (next h) b }

omit [DecidableEq N] in
theorem alone_holds (h : N) : (alone h).Holds h [] where
  nodup := by simp
  chain := by simp [alone]

theorem Holds.remove (hr : r.Holds h (l₁ ++ b :: l₂)) : (r.remove b).Holds h (l₁ ++ l₂) := by
  obtain ⟨hnd, hch⟩ := hr
  -- `x` comes before the node and `y` after it; both may be the head
  obtain ⟨p, x, hx⟩ : ∃ p x, h :: l₁ = p ++ [x] := by
    obtain ⟨p, x, heq⟩ := (List.eq_nil_or_concat (h :: l₁)).resolve_left (by simp)
    exact ⟨p, x, by simpa using heq⟩
  obtain ⟨y, q, hy⟩ : ∃ y q, l₂ ++ [h] = y :: q := List.exists_cons_of_ne_nil (by simp)
  have hcyc : h :: (l₁ ++ b :: l₂ ++ [h]) = p ++ x :: b :: y :: q := by
    rw [List.append_assoc, cons_append, hy, ← cons_append, hx]
    simp
  rw [hcyc, List.isChain_append_cons_cons, isChain_cons_cons] at hch
  obtain ⟨hbefore, ⟨hxn, hbp⟩, ⟨hbn, hyp⟩, hafter⟩ := hch
  have hnd' : (p ++ [x] ++ b :: l₂).Nodup := by
    rw [← hx]
    simpa using hnd
  obtain ⟨hnd₁, hnd₂, hdisj⟩ := nodup_append.mp hnd'
  obtain ⟨hbl₂, hndl₂⟩ := nodup_cons.mp hnd₂
  have hh : h ∈ p ++ [x] := by rw [← hx]; simp
  have hhl₂ : h ∉ l₂ := fun hm => hdisj h hh h (mem_cons_of_mem _ hm) rfl
  have hndy : (y :: q).Nodup := by
    rw [← hy]
    exact nodup_append.mpr ⟨hndl₂, by simp, by simp; exact fun a ha heq => hhl₂ (heq ▸ ha)⟩
  have hby : b ≠ y := by
    rintro rfl
    have hm : b ∈ l₂ ++ [h] := by rw [hy]; simp
    rcases mem_append.mp hm with hm | hm
    · exact hbl₂ hm
    · exact hdisj h hh b (by simp) (mem_singleton.mp hm).symm
  have heq : r.remove b =
      { next := update r.next x y, prev := update r.prev y x } := by
    unfold Links.remove
    simp only [hbn, hbp, update_of_ne hby]
  refine ⟨hnd.sublist (by simp), ?_⟩
  have hcyc' : h :: (l₁ ++ l₂ ++ [h]) = p ++ x :: y :: q := by
    rw [List.append_assoc, hy, ← cons_append, hx]
    simp
  rw [hcyc', heq, List.isChain_append_cons_cons]
  refine ⟨isChain_mono hbefore ?_, by simp, isChain_mono hafter ?_⟩
  · rintro u hu v hv ⟨hn, hp⟩
    rw [List.dropLast_concat] at hu
    have hux : u ≠ x := by
      rintro rfl
      exact (nodup_append.mp hnd₁).2.2 u hu u (by simp) rfl
    have hvy : v ≠ y := by
      have hv₁ : v ∈ l₁ := by
        rwa [← hx] at hv
      rintro rfl
      have hm : v ∈ l₂ ++ [h] := by rw [hy]; simp
      rcases mem_append.mp hm with hm | hm
      · exact hdisj v (by rw [← hx]; exact mem_cons_of_mem _ hv₁) v
          (mem_cons_of_mem _ hm) rfl
      · have hnot := (nodup_cons.mp hnd).1
        exact hnot (by rw [mem_singleton.mp hm] at hv₁; simp [hv₁])
    simp [update_of_ne hux, update_of_ne hvy, hn, hp]
  · rintro u hu v hv ⟨hn, hp⟩
    have hul₂ : u ∈ l₂ := by
      rwa [← hy, List.dropLast_concat] at hu
    have hux : u ≠ x := by
      rintro rfl
      exact hdisj u (by simp) u (mem_cons_of_mem _ hul₂) rfl
    have hvy : v ≠ y := by
      rintro rfl
      exact (nodup_cons.mp hndy).1 hv
    simp [update_of_ne hux, update_of_ne hvy, hn, hp]

theorem Holds.pushFront (hr : r.Holds h l) (hb : b ∉ h :: l) :
    (r.pushFront h b).Holds h (b :: l) := by
  obtain ⟨hnd, hch⟩ := hr
  obtain ⟨hbh, hbl⟩ : b ≠ h ∧ b ∉ l := by simpa using hb
  obtain ⟨hhl, hndl⟩ := nodup_cons.mp hnd
  obtain ⟨y, q, hy⟩ : ∃ y q, l ++ [h] = y :: q := List.exists_cons_of_ne_nil (by simp)
  rw [hy, isChain_cons_cons] at hch
  obtain ⟨⟨hhn, -⟩, hrest⟩ := hch
  have hby : b ≠ y := by
    rintro rfl
    have hm : b ∈ l ++ [h] := by rw [hy]; simp
    rcases mem_append.mp hm with hm | hm
    · exact hbl hm
    · exact hbh (mem_singleton.mp hm)
  have hndy : (y :: q).Nodup := by
    rw [← hy]
    exact nodup_append.mpr ⟨hndl, by simp, by simp; exact fun a ha heq => hhl (heq ▸ ha)⟩
  have heq : r.pushFront h b =
      { next := update (update r.next b y) h b
        prev := update (update r.prev b h) y b } := by
    unfold Links.pushFront
    simp only [hhn, update_of_ne (Ne.symm hbh)]
  refine ⟨?_, ?_⟩
  · simp only [nodup_cons, List.mem_cons, not_or]
    exact ⟨⟨Ne.symm hbh, hhl⟩, hbl, hndl⟩
  · rw [cons_append, hy, heq, isChain_cons_cons, isChain_cons_cons]
    refine ⟨⟨by simp, by simp [update_of_ne hby]⟩,
      ⟨by simp [update_of_ne hbh], by simp⟩, isChain_mono hrest ?_⟩
    rintro u hu v hv ⟨hn, hp⟩
    have hul : u ∈ l := by
      rwa [← hy, List.dropLast_concat] at hu
    have huh : u ≠ h := by
      rintro rfl
      exact hhl hul
    have hub : u ≠ b := by
      rintro rfl
      exact hbl hul
    have hvy : v ≠ y := by
      rintro rfl
      exact (nodup_cons.mp hndy).1 hv
    have hvb : v ≠ b := by
      rintro rfl
      have hm : v ∈ l ++ [h] := by rw [hy]; exact mem_cons_of_mem _ hv
      rcases mem_append.mp hm with hm | hm
      · exact hbl hm
      · exact hbh (mem_singleton.mp hm)
    simp [update_of_ne huh, update_of_ne hub, update_of_ne hvy,
      update_of_ne hvb, hn, hp]

def flip (r : Links N) : Links N where
  next := r.prev
  prev := r.next

omit [DecidableEq N] in
theorem Holds.flip (hr : r.Holds h l) : r.flip.Holds h l.reverse := by
  obtain ⟨hnd, hch⟩ := hr
  refine ⟨by simpa [List.nodup_reverse] using hnd, ?_⟩
  have hrev := List.isChain_reverse.mpr hch
  simp only [List.reverse_cons, List.reverse_append, List.reverse_nil, List.nil_append] at hrev
  refine isChain_mono hrev ?_
  rintro u - v - ⟨hn, hp⟩
  exact ⟨hp, hn⟩

theorem Holds.walk_eq {n : Nat} (hr : r.Holds h l) (hn : l.length < n) :
    walk r.next h n (r.next h) = l := by
  obtain ⟨hnd, hch⟩ := hr
  have hwalk : ∀ (a : N) (l : List N) (n : Nat), l.length < n → h ∉ l →
      (a :: (l ++ [h])).IsChain (fun a b => r.next a = b ∧ r.prev b = a) →
      walk r.next h n (r.next a) = l := by
    intro a l
    induction l generalizing a with
    | nil =>
      intro n hn _ hch
      obtain ⟨⟨hah, -⟩, -⟩ := isChain_cons_cons.mp hch
      cases n with
      | zero => simp at hn
      | succ n => simp [walk, hah]
    | cons b l ih =>
      intro n hn hnot hch
      obtain ⟨⟨hab, -⟩, hrest⟩ := isChain_cons_cons.mp hch
      obtain ⟨hhb, hhl⟩ : h ≠ b ∧ h ∉ l := by simpa using hnot
      cases n with
      | zero => simp at hn
      | succ n =>
        rw [walk, hab, if_neg (Ne.symm hhb), ih b n (by simpa using hn) hhl hrest]
  exact hwalk h l n hn (nodup_cons.mp hnd).1 hch

end Links

end Ring
