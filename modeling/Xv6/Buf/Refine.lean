import Xv6.Buf.Invariant

/-!
# The buffer cache refines a flat store of blocks

Every step of every process and of the driver keeps the invariants. What a run looks like
from outside is then what a flat store would do: a read returns what was last written.
-/

namespace Xv6

namespace BufSys

def latest (disk : Drives) (es : List Event) : Drives := es.foldl Event.apply disk

theorem latest_snoc (disk : Drives) (es : List Event) (o : Option Event) :
    latest disk (es ++ o.toList) = o.elim (latest disk es) (Event.apply (latest disk es)) := by
  cases o with
  | none => simp
  | some e => simp [latest]

namespace State

variable {P : Type} [DecidableEq P] {s t : State P} {p : P} {b : BufPtr} {k : Pc} {d : Drives}

/-! ## Every step -/

structure Inv (d : Drives) (s : State P) : Prop where
  listed : s.cache.Listed
  owned : s.Owned
  queued : s.Queued
  stored : Stored d s

structure Step (d : Drives) (s t : State P) (o : Option Event) : Prop where
  inv : t.Inv (o.elim d (Event.apply d))
  reads : ∀ dev blockno data, o = some (.read dev blockno data) → data = d dev blockno
  /-- A dirty buffer is not recycled. -/
  keeps : ∀ b, (s.cache.buf b).dirty = true → t.addr b = s.addr b

omit [DecidableEq P] in
theorem Inv.silent (h : Inv d t) (hk : ∀ b, (s.cache.buf b).dirty = true → t.addr b = s.addr b) :
    Step d s t none :=
  ⟨h, nofun, hk⟩

theorem Inv.goto (h : s.Inv d) (hk : k.owned = (s.pc p).owned) (hw : ∀ b, k ≠ .writing b)
    (hs : ∀ a, k.seeks = some a → a.1 < 2)
    (hp : ∀ b, s.pc p = .reading b ∨ s.pc p = .writing b → b ∉ s.cache.idequeue) :
    Step d s (s.goto p k) none :=
  Inv.silent ⟨h.listed, h.owned.goto hk (fun b hb => absurd hb (hw b)) hs, h.queued.goto hp,
    h.stored.goto⟩ fun _ _ => rfl

theorem Inv.returned (h : s.Inv d) (hp : (s.pc p).owned = some b) (hb : b ∉ s.cache.idequeue)
    (hvalid : (s.cache.buf b).valid = true) :
    Step d s (s.returned p b).1 (s.returned p b).2 := by
  have hread : (s.cache.buf b).data = d (s.cache.buf b).dev (s.cache.buf b).blockno :=
    h.stored.data b (h.owned.real p b (Or.inl hp)) hvalid
  refine ⟨⟨h.listed, h.owned.returned hp, ?_, ?_⟩, ?_, fun _ _ => rfl⟩
  · refine Queued.goto (s := { s with held := Function.update s.held p (b :: s.held p) })
      ⟨h.queued.nodup, h.queued.waits, h.queued.asks⟩ ?_
    intro b' hb'
    rcases hb' with hr | hw
    · rw [hr] at hp
      cases hp
      exact hb
    · rw [hw] at hp
      cases hp
  · refine h.stored.congr (fun b' => ⟨(s.cache.buf b').busy, rfl⟩) rfl rfl rfl ?_
    intro q b' hb'
    by_cases hq : q = p
    · subst hq
      have hmem : b' = b ∨ b' ∈ s.held q := by simpa [State.returned] using hb'
      rcases hmem with rfl | hmem
      · exact hvalid
      · exact h.stored.held q b' hmem
    · have hmem : b' ∈ s.held q := by simpa [State.returned, hq] using hb'
      exact h.stored.held q b' hmem
  · intro dev blockno data heq
    cases heq
    exact hread

theorem Inv.iderw (h : s.Inv d) {c : Bcache} (hb : s.Owns p b)
    (hk : k = .reading b ∨ k = .writing b)
    (howned : k.owned = (s.pc p).owned)
    (hp : ∀ b', s.pc p ≠ .reading b' ∧ s.pc p ≠ .writing b')
    (hw : k = .writing b → b ∈ s.held p ∧ s.touched b = false) (hc : s.cache.iderw b = .ok c) :
    (({ s with cache := c } : State P).goto p k).Inv d := by
  obtain ⟨-, hasks, rfl⟩ := Bcache.iderw_ok hc
  have hfinished : s.cache.finished b = false := by
    unfold Bcache.finished
    rcases hasks with hv | hd
    · rw [hv, Bool.false_and]
    · rw [hd, Bool.not_true, Bool.and_false]
  have hnq := h.queued.not_mem h.owned hb (hp b).1 (hp b).2
  refine ⟨h.listed, ?_, h.queued.append hk hp hnq hfinished _,
    (h.stored.start (h.owned.real p b hb)).goto⟩
  refine Owned.goto (h.owned.cache (fun _ => rfl) fun _ => rfl) howned ?_ ?_
  · intro b' hb'
    rcases hk with rfl | rfl
    · cases hb'
    · cases hb'
      exact hw rfl
  · intro a ha
    rcases hk with rfl | rfl
    · cases ha
    · cases ha

theorem Inv.bget (h : s.Inv d) {dev blockno : Nat} (hp : s.pc p = .bget dev blockno)
    {c : Bcache} (hc : s.cache.bget dev blockno = .ok (.buf b, c)) :
    Step d s (({ s with cache := c } : State P).goto p (.got b)) none := by
  have hdev : dev < 2 := h.owned.seeks p (dev, blockno) (by rw [hp]; rfl)
  have hnq : (s.cache.buf b).busy = false → b ∉ s.cache.idequeue := by
    intro hb hmem
    rw [h.queued.busy h.owned hmem] at hb
    cases hb
  have hplace : ∀ b', s.pc p = .reading b' ∨ s.pc p = .writing b' → b' ∉ s.cache.idequeue := by
    intro b' hb'
    rw [hp] at hb'
    rcases hb' with hb' | hb' <;> cases hb'
  rcases h.listed.bget_ok hc with ⟨b', heq, hd, -, hb, rfl⟩ | ⟨b', heq, -⟩ |
    ⟨b', heq, hnone, hb, hdirty, rfl⟩
  · cases heq
    refine Inv.silent ⟨h.listed, ?_, ?_, ?_⟩ ?_
    · exact h.owned.acquire hp hb rfl (hd ▸ hdev)
    · exact (h.queued.modify (hnq hb)).goto hplace
    · refine Stored.goto (h.stored.congr (fun b' => ?_) rfl rfl rfl h.stored.held)
      by_cases hne : b' = b
      · subst hne
        exact ⟨true, by simp⟩
      · exact ⟨(s.cache.buf b').busy, by simp [Bcache.modify_of_ne _ _ _ hne]⟩
    · intro b' _
      unfold addr
      by_cases hne : b' = b
      · subst hne
        simp
      · simp [Bcache.modify_of_ne _ _ _ hne]
  · cases heq
  · cases heq
    have hnone' : ∀ b', s.addr b' ≠ (dev, blockno) := by
      intro b' ha
      exact hnone b' ⟨congrArg Prod.fst ha, congrArg Prod.snd ha⟩
    refine Inv.silent ⟨h.listed, ?_, ?_, ?_⟩ ?_
    · exact h.owned.acquire hp hb rfl hdev
    · exact (h.queued.modify (hnq hb)).goto hplace
    · exact (h.stored.recycle h.owned h.queued hdev hnone' hb hdirty).goto
    · intro b' hb'
      have hne : b' ≠ b := by
        intro hbb
        rw [hbb, hdirty] at hb'
        cases hb'
      unfold addr
      simp [Bcache.modify_of_ne _ _ _ hne]

omit [DecidableEq P] in
theorem finished_ok (h : s.cache.finished b = true) :
    (s.cache.buf b).valid = true ∧ (s.cache.buf b).dirty = false := by
  unfold Bcache.finished at h
  simpa using h

omit [DecidableEq P] in
theorem Queued.done (h : s.Queued) (hf : s.cache.finished b = true) :
    b ∉ s.cache.idequeue := by
  intro hmem
  rw [h.asks b hmem] at hf
  cases hf

/-- The steps of a process inside `bread` and `bwrite`. -/
theorem Inv.run (h : s.Inv d) {o : Option Event} (hr : s.run p = some (t, o)) : Step d s t o := by
  unfold State.run at hr
  split at hr
  · next dev blockno hp =>
    split at hr
    · next b c hc =>
      cases hr
      exact h.bget hp hc
    · cases hr
      refine h.goto ?_ nofun ?_ ?_
      · rw [hp]
        rfl
      · intro a ha
        apply h.owned.seeks p a
        rwa [hp]
      · rw [hp]
        rintro b (hb | hb) <;> cases hb
    · cases hr
  · next b hp =>
    have howned : (s.pc p).owned = some b := by
      rw [hp]
      rfl
    have hplace : ∀ b', s.pc p ≠ .reading b' ∧ s.pc p ≠ .writing b' := by
      rw [hp]
      exact fun b' => ⟨Pc.noConfusion, Pc.noConfusion⟩
    split at hr
    · next hvalid =>
      cases hr
      have hnq := h.queued.not_mem h.owned (Or.inl howned) (hplace b).1 (hplace b).2
      exact h.returned howned hnq hvalid
    · split at hr
      · next c hc =>
        cases hr
        refine Inv.silent (h.iderw (Or.inl howned) (Or.inl rfl) howned.symm hplace nofun hc) ?_
        obtain ⟨-, -, rfl⟩ := Bcache.iderw_ok hc
        exact fun _ _ => rfl
      · cases hr
  · next b hp =>
    split at hr
    · next hf =>
      cases hr
      exact h.returned (by rw [hp]; rfl) (h.queued.done hf) (finished_ok hf).1
    · cases hr
  · next b hp =>
    split at hr
    · next hf =>
      cases hr
      refine h.goto ?_ nofun nofun ?_
      · rw [hp]
        rfl
      · rw [hp]
        rintro b' (hb' | hb')
        · cases hb'
        · cases hb'
          exact h.queued.done hf
    · cases hr
  · cases hr

omit [DecidableEq P] in
theorem uses_ok (h : s.uses p b = true) : s.pc p = .out ∧ b ∈ s.held p := by
  exact of_decide_eq_true h

omit [DecidableEq P] in
theorem Inv.not_queued (h : s.Inv d) (hu : s.uses p b = true) : b ∉ s.cache.idequeue := by
  obtain ⟨hp, hb⟩ := uses_ok hu
  refine h.queued.not_mem h.owned (Or.inr hb) ?_ ?_
  · rw [hp]
    exact Pc.noConfusion
  · rw [hp]
    exact Pc.noConfusion

omit [DecidableEq P] in
theorem Inv.setDirty (h : s.Inv d) (hu : s.uses p b = true) :
    ({ s with
      cache := s.cache.modify b fun x => { x with dirty := true }
      touched := Function.update s.touched b false } : State P).Inv d := by
  obtain ⟨hp, hb⟩ := uses_ok hu
  have hnq := h.not_queued hu
  refine ⟨h.listed, ?_, ?_, h.stored.setDirty hb hnq⟩
  · refine Owned.cache (h.owned.touch hp hb false) ?_ ?_
    · intro b'
      by_cases hne : b' = b
      · subst hne
        simp
      · rw [Bcache.modify_of_ne _ _ _ hne]
    · intro b'
      by_cases hne : b' = b
      · subst hne
        simp
      · rw [Bcache.modify_of_ne _ _ _ hne]
  · have := h.queued.modify (f := fun x => { x with dirty := true }) hnq
    exact ⟨this.nodup, this.waits, this.asks⟩

omit [DecidableEq P] in
theorem Inv.change (h : s.Inv d) (hu : s.uses p b = true) (data : Block) :
    Step d s
      { s with
        cache := s.cache.modify b fun x => { x with data := data }
        touched := Function.update s.touched b true }
      (some (.write (s.cache.buf b).dev (s.cache.buf b).blockno data)) := by
  obtain ⟨hp, hb⟩ := uses_ok hu
  have hnq := h.not_queued hu
  have hsame : ∀ b', ((s.cache.modify b fun x => { x with data := data }).buf b').busy =
        (s.cache.buf b').busy ∧
      ((s.cache.modify b fun x => { x with data := data }).buf b').dev = (s.cache.buf b').dev ∧
      ((s.cache.modify b fun x => { x with data := data }).buf b').blockno =
        (s.cache.buf b').blockno := by
    intro b'
    by_cases hne : b' = b
    · subst hne
      simp
    · simp [Bcache.modify_of_ne _ _ _ hne]
  refine ⟨⟨h.listed, ?_, ?_, ?_⟩, nofun, ?_⟩
  · exact (h.owned.touch hp hb true).cache (fun b' => (hsame b').1) fun b' => (hsame b').2.1
  · have := h.queued.modify (f := fun x => { x with data := data }) hnq
    exact ⟨this.nodup, this.waits, this.asks⟩
  · exact h.stored.change (h.owned.real p b (Or.inr hb)) hnq data
  · intro b' _
    exact Prod.ext (hsame b').2.1 (hsame b').2.2

theorem Inv.bwrite (h : s.Inv d) (hu : s.uses p b = true) {c : Bcache}
    (hc : (s.cache.modify b fun x => { x with dirty := true }).iderw b = .ok c) :
    Step d s
      (({ s with cache := c, touched := Function.update s.touched b false } : State P).goto p
        (.writing b)) none := by
  obtain ⟨hp, hb⟩ := uses_ok hu
  have hnot : ∀ b', s.pc p ≠ .reading b' ∧ s.pc p ≠ .writing b' := by
    rw [hp]
    exact fun b' => ⟨Pc.noConfusion, Pc.noConfusion⟩
  refine Inv.silent ?_ ?_
  · refine (h.setDirty hu).iderw (Or.inr hb) (Or.inr rfl) ?_ hnot ?_ hc
    · rw [hp]
      rfl
    · exact fun _ => ⟨hb, by simp⟩
  · intro b' _
    obtain ⟨-, -, rfl⟩ := Bcache.iderw_ok hc
    exact setDirty_addr b'

theorem Inv.brelse (h : s.Inv d) (hu : s.uses p b = true) (ht : s.touched b = false)
    {c : Bcache} (hc : s.cache.brelse b = .ok c) :
    Step d s { s with cache := c, held := Function.update s.held p ((s.held p).erase b) } none := by
  obtain ⟨hp, hb⟩ := uses_ok hu
  have hnq := h.not_queued hu
  have hsame : ∀ b', ∃ v, c.buf b' = { s.cache.buf b' with busy := v } := by
    intro b'
    obtain ⟨-, rfl⟩ := Bcache.brelse_ok hc
    by_cases hne : b' = b
    · subst hne
      exact ⟨false, by simp⟩
    · exact ⟨(s.cache.buf b').busy, Bcache.modify_of_ne _ _ _ hne⟩
  have hrest : c.idequeue = s.cache.idequeue ∧ c.disk = s.cache.disk := by
    obtain ⟨-, rfl⟩ := Bcache.brelse_ok hc
    exact ⟨rfl, rfl⟩
  refine Inv.silent ⟨h.listed.brelse hc, h.owned.brelse hp hb ht hc, ?_, ?_⟩ ?_
  · refine ⟨?_, ?_, ?_⟩
    · rw [hrest.1]
      exact h.queued.nodup
    · rw [hrest.1]
      exact h.queued.waits
    · intro b' hb'
      obtain ⟨v, hv⟩ := hsame b'
      rw [hrest.1] at hb'
      have := h.queued.asks b' hb'
      simpa [Bcache.finished, hv] using this
  · refine h.stored.congr hsame hrest.1 hrest.2 rfl ?_
    intro q b' hb'
    by_cases hq : q = p
    · subst hq
      exact h.stored.held q b' (List.mem_of_mem_erase (by simpa using hb'))
    · exact h.stored.held q b' (by simpa [hq] using hb')
  · intro b' _
    obtain ⟨v, hv⟩ := hsame b'
    simp [addr, hv]

omit [DecidableEq P] in
theorem Inv.ideintr (h : s.Inv d) {c : Bcache} (hc : s.cache.ideintr = .ok c) :
    Step d s { s with cache := c } none := by
  cases hq : s.cache.idequeue with
  | nil =>
    unfold Bcache.ideintr at hc
    rw [hq] at hc
    cases hc
    exact Inv.silent h fun _ _ => rfl
  | cons b q =>
    have hok := ideintr_ok hq hc
    subst hok
    refine Inv.silent ⟨h.listed, ?_, ?_, ?_⟩ ?_
    · exact h.owned.cache (fun b' => intr_busy b') fun b' => intr_dev b'
    · exact h.queued.intr hq _
    · exact h.stored.intr h.owned h.queued hq
    · exact fun b' _ => intr_addr b'

/-- Every step keeps the invariant, and what it returns is in the flat store. -/
theorem Inv.next (h : s.Inv d) {a : Act P} {o : Option Event} (hs : s.next a = some (t, o)) :
    Step d s t o := by
  cases a with
  | bread p dev blockno =>
    simp only [State.next] at hs
    split at hs
    · next hp =>
      cases hs
      refine h.goto ?_ nofun ?_ ?_
      · rw [hp.1]
        rfl
      · intro a ha
        cases ha
        exact hp.2
      · rw [hp.1]
        rintro b (hb | hb) <;> cases hb
    · cases hs
  | run p => exact h.run hs
  | wake p =>
    simp only [State.next] at hs
    split at hs
    · next dev blockno hp =>
      cases hs
      refine h.goto ?_ nofun ?_ ?_
      · rw [hp]
        rfl
      · intro a ha
        apply h.owned.seeks p a
        rwa [hp]
      · rw [hp]
        rintro b (hb | hb) <;> cases hb
    · cases hs
  | ideintr =>
    simp only [State.next] at hs
    split at hs
    · next c hc =>
      cases hs
      exact h.ideintr hc
    · cases hs
  | change p b data =>
    simp only [State.next] at hs
    split at hs
    · next hu =>
      cases hs
      exact h.change hu data
    · cases hs
  | logWrite p b =>
    simp only [State.next] at hs
    split at hs
    · next hu =>
      cases hs
      exact Inv.silent (h.setDirty hu) fun b' _ => setDirty_addr b'
    · cases hs
  | bwrite p b =>
    simp only [State.next] at hs
    split at hs
    · next hu =>
      split at hs
      · next c hc =>
        cases hs
        exact h.bwrite hu hc
      · cases hs
    · cases hs
  | brelse p b =>
    simp only [State.next] at hs
    split at hs
    · next hu =>
      split at hs
      · next c hc =>
        cases hs
        exact h.brelse hu.1 hu.2 hc
      · cases hs
    · cases hs

omit [DecidableEq P] in
theorem boot_inv (havedisk1 : Bool) (disk : Drives) :
    (boot havedisk1 disk : State P).Inv disk := by
  have hfree : ∀ (p : P) (b : BufPtr), ¬ (boot havedisk1 disk : State P).Owns p b := by
    rintro p b (hp | hp) <;> cases hp
  have hdev : ∀ b : BufPtr, ¬ ((boot havedisk1 disk : State P).cache.buf b).dev < 2 := by
    intro b
    change ¬ NODEV < 2
    decide
  refine ⟨Bcache.binit_listed havedisk1 disk, ?_, ?_, ?_⟩
  · refine ⟨fun _ => List.nodup_nil, nofun, ?_, ?_, ?_, nofun, nofun, nofun⟩
    · exact fun p _ b hp => absurd hp (hfree p b)
    · intro b
      constructor
      · exact nofun
      · exact fun ⟨p, hp⟩ => absurd hp (hfree p b)
    · exact fun p b hp => absurd hp (hfree p b)
  · exact ⟨List.nodup_nil, nofun, nofun⟩
  · refine ⟨?_, nofun, nofun, ?_, ?_, nofun, fun _ _ _ _ => rfl⟩
    · exact fun b _ hb => absurd hb (hdev b)
    · exact fun b hb => absurd hb (hdev b)
    · exact fun b hb => absurd hb (hdev b)

/-- The invariant of every run; every read so far returned what a flat store has. -/
theorem run_inv {disk : Drives} {tr : List (Act P × Option Event)} (h : Run disk tr s) :
    s.Inv (latest disk (Trace.events tr)) ∧
      ∀ pre post dev blockno data, Trace.events tr = pre ++ .read dev blockno data :: post →
        data = latest disk pre dev blockno := by
  refine Trace.Run.history
    (I := fun tr s => s.Inv (latest disk (Trace.events tr)) ∧
      ∀ pre post dev blockno data, Trace.events tr = pre ++ .read dev blockno data :: post →
        data = latest disk pre dev blockno) ?_ ?_ h
  · rintro s ⟨havedisk1, rfl⟩
    refine ⟨boot_inv havedisk1 disk, ?_⟩
    intro pre post dev blockno data heq
    simp [Trace.events] at heq
  · rintro tr s ⟨a, o⟩ s' ⟨hinv, hreads⟩ hstep
    have hs := hinv.next hstep
    rw [Trace.events_snoc, latest_snoc]
    refine ⟨hs.inv, ?_⟩
    intro pre post dev blockno data heq
    rcases Trace.snoc_eq_append_cons heq with ⟨post', -, hold⟩ | ⟨-, rfl, ho⟩
    · exact hreads pre post' dev blockno data hold
    · exact hs.reads dev blockno data ho

/-- For every interleaving: a block is in one buffer, a buffer has one holder, the head
list has every buffer, `bread` returns what the last holder left or what was on the disk,
and no step recycles a dirty buffer. -/
theorem refines_flat_store {disk : Drives} {tr : List (Act P × Option Event)}
    (h : Run disk tr s) :
    (∀ b b', (s.cache.buf b).dev < 2 → s.addr b = s.addr b' → b = b') ∧
      (∀ p q b, s.Owns p b → s.Owns q b → p = q) ∧
      s.cache.Listed ∧
      (∀ pre post dev blockno data, Trace.events tr = pre ++ .read dev blockno data :: post →
        data = latest disk pre dev blockno) ∧
      ∀ a t o b, s.next a = some (t, o) → (s.cache.buf b).dirty = true → t.addr b = s.addr b := by
  obtain ⟨hinv, hreads⟩ := run_inv h
  refine ⟨hinv.stored.unique, hinv.owned.one, hinv.listed, hreads, ?_⟩
  intro a t o b hs hdirty
  exact (hinv.next hs).keeps b hdirty

theorem second_holder_of_logged_block :
    ∃ (tr : _) (s : State Bool), Run (fun _ _ _ => 0) tr s ∧ s.held false = [0] ∧
      (s.cache.buf 0).dirty = true ∧ (∀ q, s.Owns q 0 → q = false) ∧
      ∀ a t o, s.next a = some (t, o) → t.addr 0 = s.addr 0 := by
  obtain ⟨tr, s, hrun, hheld, hdirty⟩ := Trace.exec_reaches (f := next)
    (boot_init (P := Bool) true fun _ _ _ => 0)
    [.bread true 1 5, .run true, .run true, .ideintr, .run true, .change true 0 fun _ => 7,
      .logWrite true 0, .brelse true 0, .bread false 1 5, .run false, .run false]
    (fun _ s => s.held false = [0] ∧ (s.cache.buf 0).dirty = true) (by decide +kernel)
  have hall := refines_flat_store hrun
  refine ⟨tr, s, hrun, hheld, hdirty, ?_, ?_⟩
  · intro q hq
    exact hall.2.1 q false 0 hq (Or.inr (by rw [hheld]; exact List.mem_singleton_self _))
  · intro a t o hs
    exact hall.2.2.2.2 a t o 0 hs hdirty

end State

end BufSys

end Xv6
