import Mathlib.Data.List.Nodup

/-!
# Redo lists

A list of writes over a store. Replaying it is a loop that writes one entry after the
other; if no place is written twice, what it gives does not depend on how many of the
writes were made before.
-/

namespace Redo

variable {K V : Type*} [DecidableEq K]

def overlay : (K → V) → List (K × V) → K → V
  | f, [] => f
  | f, (k, v) :: l => overlay (Function.update f k v) l

variable {f g : K → V} {l : List (K × V)} {k : K} {v : V}

theorem overlay_of_not_mem (h : k ∉ l.map Prod.fst) : overlay f l k = f k := by
  induction l generalizing f with
  | nil => rfl
  | cons e l ih =>
    rw [List.map_cons, List.mem_cons, not_or] at h
    rw [overlay, ih h.2]
    exact Function.update_of_ne h.1 _ _

theorem overlay_of_mem (hn : (l.map Prod.fst).Nodup) (h : (k, v) ∈ l) : overlay f l k = v := by
  induction l generalizing f with
  | nil => cases h
  | cons e l ih =>
    rw [List.map_cons, List.nodup_cons] at hn
    rcases List.mem_cons.mp h with rfl | h
    · rw [overlay, overlay_of_not_mem hn.1]
      exact Function.update_self _ _ _
    · exact ih hn.2 h

theorem overlay_congr (h : f k = g k) : overlay f l k = overlay g l k := by
  induction l generalizing f g with
  | nil => exact h
  | cons e l ih =>
    refine ih ?_
    by_cases hk : k = e.1
    · rw [hk, Function.update_self, Function.update_self]
    · rw [Function.update_of_ne hk, Function.update_of_ne hk, h]

theorem overlay_update (hn : (l.map Prod.fst).Nodup) (h : (k, v) ∈ l) :
    overlay (Function.update f k v) l = overlay f l := by
  funext x
  by_cases hx : x = k
  · rw [hx, overlay_of_mem hn h, overlay_of_mem hn h]
  · exact overlay_congr (Function.update_of_ne hx _ _)

theorem overlay_of_installed (hn : (l.map Prod.fst).Nodup) (h : ∀ e ∈ l, f e.1 = e.2) :
    overlay f l = f := by
  funext x
  by_cases hx : x ∈ l.map Prod.fst
  · obtain ⟨e, he, rfl⟩ := List.mem_map.mp hx
    rw [overlay_of_mem hn he, h e he]
  · exact overlay_of_not_mem hx

end Redo
