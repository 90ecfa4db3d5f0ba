import Mathlib.Data.List.Basic

/-!
# Runs of a labelled transition system

A run is a list of labels, oldest first, with the state it ends in. Properties of every
reachable state come from `Run.invariant`, of the labels too from `Run.history`, and
`Run.simulate` matches runs of two systems. A system given by a function is run by `exec`, and
can be given a record of what it has done by `noting`.
-/

namespace Trace

variable {S T L : Type*}

/-- `tr` are the labels of a run from an initial state to `s`. -/
inductive Run (init : S → Prop) (step : S → L → S → Prop) : List L → S → Prop
  | start {s : S} (h : init s) : Run init step [] s
  | snoc {tr : List L} {s : S} {l : L} {s' : S} (hr : Run init step tr s) (hs : step s l s') :
      Run init step (tr ++ [l]) s'

namespace Run

variable {init : S → Prop} {step : S → L → S → Prop} {tr : List L} {s : S}

theorem invariant {I : S → Prop} (hinit : ∀ s, init s → I s)
    (hstep : ∀ s l s', I s → step s l s' → I s') (h : Run init step tr s) : I s := by
  induction h with
  | start h => exact hinit _ h
  | snoc _ hs ih => exact hstep _ _ _ ih hs

theorem history {I : List L → S → Prop} (hinit : ∀ s, init s → I [] s)
    (hstep : ∀ tr s l s', I tr s → step s l s' → I (tr ++ [l]) s') (h : Run init step tr s) :
    I tr s := by
  induction h with
  | start h => exact hinit _ h
  | snoc _ hs ih => exact hstep _ _ _ _ ih hs

/-- A map that takes steps to steps takes runs to runs with the same labels. The steps
may be known to be mapped only where an invariant holds. -/
theorem simulate {init' : T → Prop} {step' : T → L → T → Prop} {f : S → T} {I : S → Prop}
    (hinit : ∀ s, init s → init' (f s) ∧ I s)
    (hstep : ∀ s l s', I s → step s l s' → step' (f s) l (f s') ∧ I s')
    (h : Run init step tr s) : Run init' step' tr (f s) ∧ I s := by
  induction h with
  | start h => exact ⟨.start (hinit _ h).1, (hinit _ h).2⟩
  | snoc _ hs ih =>
    obtain ⟨hs', hI⟩ := hstep _ _ _ ih.2 hs
    exact ⟨ih.1.snoc hs', hI⟩

theorem mono {step' : S → L → S → Prop} (hstep : ∀ s l s', step s l s' → step' s l s')
    (h : Run init step tr s) : Run init step' tr s := by
  induction h with
  | start h => exact .start h
  | snoc _ hs ih => exact ih.snoc (hstep _ _ _ hs)

end Run

section Events

variable {A E : Type*} {l : List E} {o : Option E} {e : E}

def events (tr : List (A × Option E)) : List E := tr.filterMap Prod.snd

theorem events_snoc (tr : List (A × Option E)) (a : A × Option E) :
    events (tr ++ [a]) = events tr ++ a.2.toList := by
  rcases a with ⟨a, _ | e⟩ <;> simp [events]

theorem mem_snoc : e ∈ l ++ o.toList ↔ e ∈ l ∨ o = some e := by
  rw [List.mem_append, Option.mem_toList]

theorem not_mem_snoc (h : e ∉ l) (he : o ≠ some e) : e ∉ l ++ o.toList :=
  fun hmem => (mem_snoc.mp hmem).elim h he

theorem snoc_eq_append_cons {pre post : List E} (h : l ++ o.toList = pre ++ e :: post) :
    (∃ post', post = post' ++ o.toList ∧ l = pre ++ e :: post') ∨
      (post = [] ∧ l = pre ∧ o = some e) := by
  cases o with
  | none =>
    rw [Option.toList_none, List.append_nil] at h
    exact Or.inl ⟨post, by simp, h⟩
  | some b =>
    rcases List.eq_nil_or_concat post with rfl | ⟨post', c, rfl⟩
    · obtain ⟨h₁, h₂⟩ := List.append_inj' h rfl
      exact Or.inr ⟨rfl, h₁, congrArg some (List.singleton_inj.mp h₂)⟩
    · rw [List.concat_eq_append, ← List.cons_append, ← List.append_assoc] at h
      obtain ⟨h₁, h₂⟩ := List.append_inj' h rfl
      exact Or.inl ⟨post', by rw [List.concat_eq_append, h₂], h₁⟩

end Events

section Exec

variable {A E : Type*} (f : S → A → Option (S × E))

/-- The transitions of a function: the label is the action and what it gives out. -/
def Next (s : S) (l : A × E) (s' : S) : Prop := f s l.1 = some (s', l.2)

def Only (C : S → A → Prop) (step : S → A × E → S → Prop) (s : S) (l : A × E) (s' : S) : Prop :=
  step s l s' ∧ C s l.1

def guarded (C : S → A → Prop) [∀ s a, Decidable (C s a)] (s : S) (a : A) : Option (S × E) :=
  if C s a then f s a else none

theorem next_guarded {C : S → A → Prop} [∀ s a, Decidable (C s a)] {s s' : S} {l : A × E}
    (h : Next (guarded f C) s l s') : Only C (Next f) s l s' := by
  unfold Next guarded at h
  split at h
  · next hc => exact ⟨h, hc⟩
  · cases h

def exec : S → List A → Option (List (A × E) × S)
  | s, [] => some ([], s)
  | s, a :: as =>
    match f s a with
    | none => none
    | some (s', e) => (exec s' as).map fun r => ((a, e) :: r.1, r.2)

variable {f}

theorem exec_run {init : S → Prop} {as : List A} {tr tr' : List (A × E)} {s s' : S}
    (h : Run init (Next f) tr s) (he : exec f s as = some (tr', s')) :
    Run init (Next f) (tr ++ tr') s' := by
  induction as generalizing tr tr' s with
  | nil =>
    cases he
    simpa using h
  | cons a as ih =>
    unfold exec at he
    cases hf : f s a with
    | none => rw [hf] at he; cases he
    | some r =>
      rw [hf] at he
      obtain ⟨⟨tr₁, s₁⟩, h₁, heq⟩ := Option.map_eq_some_iff.mp he
      cases heq
      have hr : Run init (Next f) (tr ++ [(a, r.2)]) r.1 := h.snoc hf
      simpa using ih hr h₁

theorem exec_reaches {init : S → Prop} {s : S} (hinit : init s) (as : List A)
    (P : List (A × E) → S → Prop) [∀ tr s, Decidable (P tr s)]
    (h : (exec f s as).any (fun r => P r.1 r.2) = true) :
    ∃ tr s', Run init (Next f) tr s' ∧ P tr s' := by
  cases he : exec f s as with
  | none => rw [he] at h; cases h
  | some r =>
    rw [he] at h
    exact ⟨r.1, r.2, exec_run (.start hinit) he, of_decide_eq_true h⟩

theorem exec_reaches_only {init : S → Prop} {s : S} (hinit : init s) (C : S → A → Prop)
    [∀ s a, Decidable (C s a)] (as : List A) (P : List (A × E) → S → Prop)
    [∀ tr s, Decidable (P tr s)] (h : (exec (guarded f C) s as).any (fun r => P r.1 r.2) = true) :
    ∃ tr s', Run init (Only C (Next f)) tr s' ∧ P tr s' := by
  obtain ⟨tr, s', hrun, hP⟩ := exec_reaches hinit as P h
  exact ⟨tr, s', hrun.mono fun _ _ _ => next_guarded f, hP⟩

end Exec

section Noting

variable {A E B : Type*} (f : S → A → Option (S × E)) (note : S → A → S → B → B)

def noting (x : S × B) (a : A) : Option ((S × B) × E) :=
  (f x.1 a).map fun r => ((r.1, note x.1 a r.1 x.2), r.2)

variable {f note}

theorem next_noting {x x' : S × B} {l : A × E} (h : Next (noting f note) x l x') :
    Next f x.1 l x'.1 ∧ x'.2 = note x.1 l.1 x'.1 x.2 := by
  obtain ⟨r, hf, heq⟩ := Option.map_eq_some_iff.mp h
  obtain ⟨hx, he⟩ := Prod.mk.inj heq
  subst hx
  refine ⟨?_, rfl⟩
  unfold Next
  rw [hf, ← he]

theorem Run.noted {init : S → Prop} {C : S → A → Prop} {tr : List (A × E)} {s : S}
    (h : Run init (Only C (Next f)) tr s) (note : S → A → S → B → B) (b₀ : S → B) :
    ∃ b, Run (fun x : S × B => init x.1 ∧ x.2 = b₀ x.1)
      (Only (fun x => C x.1) (Next (noting f note))) tr (s, b) := by
  induction h with
  | @start s h => exact ⟨b₀ s, .start ⟨h, rfl⟩⟩
  | @snoc tr s l s' _ hs ih =>
    obtain ⟨b, hb⟩ := ih
    refine ⟨note s l.1 s' b, hb.snoc ⟨?_, hs.2⟩⟩
    unfold Next noting
    rw [show f s l.1 = some (s', l.2) from hs.1]
    rfl

end Noting

end Trace
