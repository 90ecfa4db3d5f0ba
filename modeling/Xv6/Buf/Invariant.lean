import Xv6.Buf.Store

/-!
# Invariants of the buffer cache

Who has a buffer (`Owned`), which buffers the driver works on (`Queued`) and where the
contents of a block are (`Stored`), and what keeps each of them.
-/

open Function (update update_apply update_of_ne)

namespace Xv6

namespace BufSys

/-! ## The flat store -/

def Event.apply (d : Drives) : Event → Drives
  | .read _ _ _ => d
  | .write dev blockno data =>
    update d dev (update (d dev) blockno data)

/-! ## Invariants -/

namespace Pc

def owned : Pc → Option BufPtr
  | .got b | .reading b => some b
  | _ => none

def seeks : Pc → Option (Nat × Nat)
  | .bget dev blockno | .waits dev blockno => some (dev, blockno)
  | _ => none

end Pc

namespace State

variable {P : Type} {s t : State P} {p : P} {b : BufPtr} {k : Pc} {d : Drives}

/-- A process has a buffer from the return of `bget` to `brelse`. -/
def Owns (s : State P) (p : P) (b : BufPtr) : Prop := (s.pc p).owned = some b ∨ b ∈ s.held p

structure Owned (s : State P) : Prop where
  nodup : ∀ p, (s.held p).Nodup
  apart : ∀ p b, (s.pc p).owned = some b → b ∉ s.held p
  one : ∀ p q b, s.Owns p b → s.Owns q b → p = q
  busy : ∀ b, (s.cache.buf b).busy = true ↔ ∃ p, s.Owns p b
  real : ∀ p b, s.Owns p b → (s.cache.buf b).dev < 2
  seeks : ∀ p a, (s.pc p).seeks = some a → a.1 < 2
  writing : ∀ p b, s.pc p = .writing b → b ∈ s.held p
  touched : ∀ b, s.touched b = true → ∃ p, b ∈ s.held p ∧ s.pc p ≠ .writing b

structure Queued (s : State P) : Prop where
  nodup : s.cache.idequeue.Nodup
  waits : ∀ b ∈ s.cache.idequeue, ∃ p, s.pc p = .reading b ∨ s.pc p = .writing b
  asks : ∀ b ∈ s.cache.idequeue, s.cache.finished b = false

def addr (s : State P) (b : BufPtr) : Nat × Nat := ((s.cache.buf b).dev, (s.cache.buf b).blockno)

/-- The contents of a block are in its buffer; on the disk, unless the buffer was changed. -/
structure Stored (d : Drives) (s : State P) : Prop where
  unique : ∀ b b', (s.cache.buf b).dev < 2 → s.addr b = s.addr b' → b = b'
  held : ∀ p, ∀ b ∈ s.held p, (s.cache.buf b).valid = true
  dirty : ∀ b, (s.cache.buf b).dirty = true → (s.cache.buf b).valid = true
  data : ∀ b, (s.cache.buf b).dev < 2 → (s.cache.buf b).valid = true →
    (s.cache.buf b).data = d (s.cache.buf b).dev (s.cache.buf b).blockno
  clean : ∀ b, (s.cache.buf b).dev < 2 → (s.cache.buf b).dirty = false → s.touched b = false →
    s.cache.disk (s.cache.buf b).dev (s.cache.buf b).blockno =
      d (s.cache.buf b).dev (s.cache.buf b).blockno
  sent : ∀ b q, s.cache.idequeue = b :: q → (s.cache.buf b).dirty = true →
    s.cache.disk (s.cache.buf b).dev (s.cache.buf b).blockno =
      d (s.cache.buf b).dev (s.cache.buf b).blockno
  uncached : ∀ dev blockno, dev < 2 → (∀ b, s.addr b ≠ (dev, blockno)) →
    s.cache.disk dev blockno = d dev blockno

/-! ## Contents -/

theorem Queued.busy (h : s.Queued) (ho : s.Owned) (hb : b ∈ s.cache.idequeue) :
    (s.cache.buf b).busy = true := by
  obtain ⟨q, hq | hq⟩ := h.waits b hb
  · exact (ho.busy b).mpr ⟨q, Or.inl (by rw [hq]; rfl)⟩
  · exact (ho.busy b).mpr ⟨q, Or.inr (ho.writing q b hq)⟩

theorem Queued.modify (h : s.Queued) {f : Bcache.Buf → Bcache.Buf}
    (hb : b ∉ s.cache.idequeue) :
    ({ s with cache := s.cache.modify b f } : State P).Queued := by
  refine ⟨h.nodup, h.waits, fun b' hb' => ?_⟩
  have hne : b' ≠ b := fun heq => hb (heq ▸ hb')
  have := h.asks b' hb'
  simpa [Bcache.finished, Bcache.modify_of_ne _ _ _ hne] using this

theorem Stored.congr (h : Stored d s)
    (hbuf : ∀ b, ∃ v, t.cache.buf b = { s.cache.buf b with busy := v })
    (hq : t.cache.idequeue = s.cache.idequeue) (hdisk : t.cache.disk = s.cache.disk)
    (ht : t.touched = s.touched)
    (hheld : ∀ p, ∀ b ∈ t.held p, (s.cache.buf b).valid = true) : Stored d t := by
  have hdev : ∀ b, (t.cache.buf b).dev = (s.cache.buf b).dev := fun b => by
    obtain ⟨v, hv⟩ := hbuf b
    rw [hv]
  have hno : ∀ b, (t.cache.buf b).blockno = (s.cache.buf b).blockno := fun b => by
    obtain ⟨v, hv⟩ := hbuf b
    rw [hv]
  have hvalid : ∀ b, (t.cache.buf b).valid = (s.cache.buf b).valid := fun b => by
    obtain ⟨v, hv⟩ := hbuf b
    rw [hv]
  have hdirty : ∀ b, (t.cache.buf b).dirty = (s.cache.buf b).dirty := fun b => by
    obtain ⟨v, hv⟩ := hbuf b
    rw [hv]
  have hdata : ∀ b, (t.cache.buf b).data = (s.cache.buf b).data := fun b => by
    obtain ⟨v, hv⟩ := hbuf b
    rw [hv]
  have haddr : ∀ b, t.addr b = s.addr b := fun b => by
    unfold addr
    rw [hdev, hno]
  constructor
  · intro b b'
    rw [hdev, haddr, haddr]
    exact h.unique b b'
  · intro p b hb
    rw [hvalid]
    exact hheld p b hb
  · intro b
    rw [hdirty, hvalid]
    exact h.dirty b
  · intro b
    rw [hdev, hvalid, hdata, hno]
    exact h.data b
  · intro b
    rw [hdev, hdirty, ht, hdisk, hno]
    exact h.clean b
  · intro b q
    rw [hq, hdirty, hdisk, hdev, hno]
    exact h.sent b q
  · intro dev blockno hlt hne
    rw [hdisk]
    exact h.uncached dev blockno hlt fun b => (haddr b) ▸ hne b

theorem Owned.untouched (h : s.Owned) (hb : (s.cache.buf b).busy = false) :
    s.touched b = false := by
  by_contra ht
  obtain ⟨q, hq, -⟩ := h.touched b (by simpa using ht)
  have := (h.busy b).mpr ⟨q, Or.inr hq⟩
  rw [hb] at this
  cases this

/-- One buffer that the driver does not work on changes. It keeps its block, or is of a new
one and the disk has the old one. -/
theorem Stored.modify {d' : Drives} {x : Bcache.Buf} (h : Stored d s)
    (hself : t.cache.buf b = x) (hother : ∀ b' ≠ b, t.cache.buf b' = s.cache.buf b')
    (hqueue : t.cache.idequeue = s.cache.idequeue) (hdisk : t.cache.disk = s.cache.disk)
    (hnq : b ∉ s.cache.idequeue) (hh : t.held = s.held)
    (ht : ∀ b' ≠ b, t.touched b' = s.touched b')
    (hd : ∀ b' ≠ b, d' (s.cache.buf b').dev (s.cache.buf b').blockno =
      d (s.cache.buf b').dev (s.cache.buf b').blockno)
    (hd' : ∀ dev blockno, (x.dev, x.blockno) ≠ (dev, blockno) → d' dev blockno = d dev blockno)
    (hplace : s.addr b = (x.dev, x.blockno) ∨ (∀ b', s.addr b' ≠ (x.dev, x.blockno)) ∧
      ((s.cache.buf b).dev < 2 → s.cache.disk (s.cache.buf b).dev (s.cache.buf b).blockno =
        d (s.cache.buf b).dev (s.cache.buf b).blockno))
    (hheld : ∀ q, b ∈ s.held q → x.valid = true) (hdirty : x.dirty = true → x.valid = true)
    (hdata : x.dev < 2 → x.valid = true → x.data = d' x.dev x.blockno)
    (hclean : x.dev < 2 → x.dirty = false → t.touched b = false →
      s.cache.disk x.dev x.blockno = d' x.dev x.blockno) : Stored d' t := by
  have haddr : ∀ b' ≠ b, t.addr b' = s.addr b' := by
    intro b' hne
    unfold addr
    rw [hother b' hne]
  have hxaddr : t.addr b = (x.dev, x.blockno) := by
    unfold addr
    rw [hself]
  have hnew : ∀ b' ≠ b, x.dev < 2 → s.addr b' ≠ (x.dev, x.blockno) := by
    intro b' hne hlt
    rcases hplace with hp | ⟨hp, -⟩
    · rw [← hp]
      exact fun heq => hne (h.unique b b' (lt_of_eq_of_lt (congrArg Prod.fst hp) hlt) heq.symm).symm
    · exact hp b'
  constructor
  · intro b₁ b₂ hlt heq
    by_cases h₁ : b₁ = b
    · subst h₁
      by_contra hne
      rw [haddr b₂ (Ne.symm hne), hxaddr] at heq
      rw [hself] at hlt
      exact hnew b₂ (Ne.symm hne) hlt heq.symm
    · rw [hother b₁ h₁] at hlt
      by_cases h₂ : b₂ = b
      · subst h₂
        rw [haddr b₁ h₁, hxaddr] at heq
        exact absurd heq (hnew b₁ h₁ (lt_of_eq_of_lt (congrArg Prod.fst heq).symm hlt))
      · rw [haddr b₁ h₁, haddr b₂ h₂] at heq
        exact h.unique b₁ b₂ hlt heq
  · intro q b' hmem
    rw [hh] at hmem
    by_cases hne : b' = b
    · subst hne
      rw [hself]
      exact hheld q hmem
    · rw [hother b' hne]
      exact h.held q b' hmem
  · intro b'
    by_cases hne : b' = b
    · rwa [hne, hself]
    · rw [hother b' hne]
      exact h.dirty b'
  · intro b' hlt hvalid
    by_cases hne : b' = b
    · subst hne
      rw [hself] at hlt hvalid ⊢
      exact hdata hlt hvalid
    · rw [hother b' hne] at hlt hvalid ⊢
      rw [hd b' hne]
      exact h.data b' hlt hvalid
  · intro b' hlt hno htouched
    rw [hdisk]
    by_cases hne : b' = b
    · subst hne
      rw [hself] at hlt hno ⊢
      exact hclean hlt hno htouched
    · rw [hother b' hne] at hlt hno ⊢
      rw [hd b' hne]
      exact h.clean b' hlt hno ((ht b' hne).symm.trans htouched)
  · intro b' q heq hyes
    rw [hqueue] at heq
    have hne : b' ≠ b := by
      rintro rfl
      exact hnq (heq ▸ List.mem_cons_self)
    rw [hother b' hne] at hyes ⊢
    rw [hdisk, hd b' hne]
    exact h.sent b' q heq hyes
  · intro dev blockno hlt hne
    rw [hdisk, hd' dev blockno (hxaddr ▸ hne b)]
    by_cases hold : s.addr b = (dev, blockno)
    · rcases hplace with hp | ⟨-, hp⟩
      · exact absurd (hxaddr.trans (hp.symm.trans hold)) (hne b)
      · cases hold
        exact hp hlt
    · apply h.uncached dev blockno hlt
      intro b' heq
      by_cases hbb : b' = b
      · exact hold (hbb ▸ heq)
      · exact hne b' ((haddr b' hbb).trans heq)

theorem Stored.recycle (h : Stored d s) (ho : s.Owned) (hq : s.Queued) {dev blockno : Nat}
    (hdev : dev < 2) (hnone : ∀ b', s.addr b' ≠ (dev, blockno))
    (hb : (s.cache.buf b).busy = false) (hdirty : (s.cache.buf b).dirty = false) :
    Stored d ({ s with
      cache := s.cache.modify b fun x =>
        { x with dev := dev, blockno := blockno, busy := true, valid := false, dirty := false } } :
      State P) := by
  have hnq : b ∉ s.cache.idequeue := by
    intro hmem
    rw [hq.busy ho hmem] at hb
    cases hb
  have hnh : ∀ q, b ∉ s.held q := by
    intro q hmem
    rw [(ho.busy b).mpr ⟨q, Or.inr hmem⟩] at hb
    cases hb
  exact h.modify (x := { s.cache.buf b with
      dev := dev, blockno := blockno, busy := true, valid := false, dirty := false })
    (by simp) (fun _ hne => by simp [Bcache.modify_of_ne _ _ _ hne]) rfl rfl hnq rfl
    (fun _ _ => rfl) (fun _ _ => rfl) (fun _ _ _ => rfl)
    (Or.inr ⟨hnone, fun hlt => h.clean b hlt hdirty (ho.untouched hb)⟩)
    (fun q hmem => absurd hmem (hnh q)) nofun nofun
    (fun _ _ _ => h.uncached dev blockno hdev hnone)

theorem Stored.send_apply (h : Stored d s) (hb : (s.cache.buf b).dev < 2) {dev blockno : Nat} :
    s.cache.send b dev blockno =
      if (s.cache.buf b).dirty = true ∧ s.addr b = (dev, blockno) then d dev blockno
      else s.cache.disk dev blockno := by
  have hdrive : Bcache.drive (s.cache.buf b).dev = (s.cache.buf b).dev := by
    unfold Bcache.drive
    omega
  unfold Bcache.send
  split
  · next hdirty =>
    rw [hdrive, h.data b hb (h.dirty b hdirty)]
    unfold addr
    by_cases hd : dev = (s.cache.buf b).dev
    · subst hd
      by_cases hn : blockno = (s.cache.buf b).blockno
      · subst hn
        simp [hdirty]
      · simp [hn, Ne.symm hn, hdirty]
    · simp [hd, Ne.symm hd]
  · next hdirty => simp [hdirty]

theorem Stored.start (h : Stored d s) (hb : (s.cache.buf b).dev < 2) :
    Stored d ({ s with
      cache := { s.cache with
        idequeue := s.cache.idequeue ++ [b]
        disk := if s.cache.idequeue = [] then s.cache.send b else s.cache.disk } } : State P) := by
  have hkeep : ∀ dev blockno, s.cache.disk dev blockno = d dev blockno →
      (if s.cache.idequeue = [] then s.cache.send b else s.cache.disk) dev blockno =
        d dev blockno := by
    intro dev blockno heq
    split
    · rw [h.send_apply hb, heq, ite_self]
    · exact heq
  refine ⟨h.unique, h.held, h.dirty, h.data, ?_, ?_, ?_⟩
  · intro b' hlt hdirty ht
    exact hkeep _ _ (h.clean b' hlt hdirty ht)
  · intro b' q heq hdirty
    cases hq : s.cache.idequeue with
    | nil =>
      simp only [hq, List.nil_append, List.cons.injEq] at heq
      obtain ⟨rfl, -⟩ := heq
      simp only [if_true]
      rw [h.send_apply hb, if_pos ⟨hdirty, rfl⟩]
    | cons c q' =>
      simp only [hq, List.cons_append, List.cons.injEq] at heq
      obtain ⟨rfl, -⟩ := heq
      have := hkeep _ _ (h.sent c q' hq hdirty)
      rwa [hq] at this
  · intro dev blockno hlt hne
    exact hkeep _ _ (h.uncached dev blockno hlt hne)

theorem Queued.not_mem (h : s.Queued) (ho : s.Owned) (hb : s.Owns p b)
    (hr : s.pc p ≠ .reading b) (hw : s.pc p ≠ .writing b) : b ∉ s.cache.idequeue := by
  intro hmem
  obtain ⟨q, hq | hq⟩ := h.waits b hmem
  · have : q = p := ho.one q p b (Or.inl (by rw [hq]; rfl)) hb
    exact hr (this ▸ hq)
  · have : q = p := ho.one q p b (Or.inr (ho.writing q b hq)) hb
    exact hw (this ▸ hq)

theorem Queued.untouched (h : s.Queued) (ho : s.Owned) (hb : b ∈ s.cache.idequeue) :
    s.touched b = false := by
  by_contra ht
  obtain ⟨p, hp, hne⟩ := ho.touched b (by simpa using ht)
  refine h.not_mem ho (Or.inr hp) (fun hr => ?_) hne hb
  exact ho.apart p b (by rw [hr]; rfl) hp

theorem Queued.real (h : s.Queued) (ho : s.Owned) (hb : b ∈ s.cache.idequeue) :
    (s.cache.buf b).dev < 2 := by
  obtain ⟨p, hp⟩ := (ho.busy b).mp (h.busy ho hb)
  exact ho.real p b hp

def intr (s : State P) (b : BufPtr) (q : List BufPtr) : State P :=
  { s with
    cache := { s.cache with idequeue := q }.modify b fun x =>
      { x with
        data := if x.dirty then x.data else s.cache.disk (Bcache.drive x.dev) x.blockno
        valid := true
        dirty := false } }

theorem ideintr_ok {t : Bcache} {q : List BufPtr} (hq : s.cache.idequeue = b :: q)
    (h : s.cache.ideintr = .ok t) :
    t = { (s.intr b q).cache with
      disk := q.head?.elim s.cache.disk (s.intr b q).cache.send } := by
  unfold Bcache.ideintr at h
  rw [hq] at h
  cases q with
  | nil =>
    cases h
    rfl
  | cons b' q => exact Bcache.idestart_ok h

section Intr

variable {q : List BufPtr}

theorem intr_of_ne {b' : BufPtr} (h : b' ≠ b) :
    (s.intr b q).cache.buf b' = s.cache.buf b' := by
  unfold intr
  rw [Bcache.modify_of_ne _ _ _ h]

theorem intr_self : (s.intr b q).cache.buf b =
    { s.cache.buf b with
      data := if (s.cache.buf b).dirty then (s.cache.buf b).data
        else s.cache.disk (Bcache.drive (s.cache.buf b).dev) (s.cache.buf b).blockno
      valid := true
      dirty := false } := by
  simp [intr]

theorem intr_addr (b' : BufPtr) : (s.intr b q).addr b' = s.addr b' := by
  unfold addr
  by_cases h : b' = b
  · subst h
    rw [intr_self]
  · rw [intr_of_ne h]

theorem intr_dev (b' : BufPtr) : ((s.intr b q).cache.buf b').dev = (s.cache.buf b').dev :=
  congrArg Prod.fst (intr_addr b')

theorem intr_busy (b' : BufPtr) : ((s.intr b q).cache.buf b').busy = (s.cache.buf b').busy := by
  by_cases h : b' = b
  · subst h
    rw [intr_self]
  · rw [intr_of_ne h]

theorem Stored.intr (h : Stored d s) (ho : s.Owned) (hqd : s.Queued)
    (hq : s.cache.idequeue = b :: q) :
    Stored d ({ s.intr b q with
      cache := { (s.intr b q).cache with
        disk := q.head?.elim s.cache.disk (s.intr b q).cache.send } } : State P) := by
  have hmem : b ∈ s.cache.idequeue := by
    rw [hq]
    exact List.mem_cons_self
  have hreal : (s.cache.buf b).dev < 2 := hqd.real ho hmem
  have hdisk : s.cache.disk (s.cache.buf b).dev (s.cache.buf b).blockno =
      d (s.cache.buf b).dev (s.cache.buf b).blockno := by
    cases hdirty : (s.cache.buf b).dirty with
    | false => exact h.clean b hreal hdirty (hqd.untouched ho hmem)
    | true => exact h.sent b q hq hdirty
  have hdata : ((s.intr b q).cache.buf b).data =
      d (s.cache.buf b).dev (s.cache.buf b).blockno := by
    rw [intr_self]
    dsimp only
    split
    · next hdirty => exact h.data b hreal (h.dirty b hdirty)
    · rw [← hdisk]
      congr 1
      unfold Bcache.drive
      omega
  -- the state before the next request is started; `sent` holds only after it
  have hempty : Stored d ({ s with cache := { s.cache with idequeue := [] } } : State P) :=
    ⟨h.unique, h.held, h.dirty, h.data, h.clean, nofun, h.uncached⟩
  have hfinished : Stored d ({ s.intr b q with
      cache := { (s.intr b q).cache with idequeue := [] } } : State P) := by
    refine hempty.modify intr_self (fun _ => intr_of_ne) rfl rfl List.not_mem_nil rfl
      (fun _ _ => rfl) (fun _ _ => rfl) (fun _ _ _ => rfl) (Or.inl rfl) (fun _ _ => rfl)
      (fun _ => rfl) ?_ fun _ _ _ => hdisk
    intro _ _
    rwa [intr_self] at hdata
  cases q with
  | nil => exact hfinished
  | cons c q =>
    have hc : c ∈ s.cache.idequeue := by
      rw [hq]
      simp
    have hcreal : ((s.intr b (c :: q)).cache.buf c).dev < 2 := by
      rw [intr_dev]
      exact hqd.real ho hc
    have hstart := hfinished.start hcreal
    refine ⟨hstart.unique, hstart.held, hstart.dirty, hstart.data, hstart.clean, ?_,
      hstart.uncached⟩
    intro b' q' heq
    cases heq
    exact hstart.sent c [] rfl

theorem Queued.intr (h : s.Queued) (hq : s.cache.idequeue = b :: q) (disk : Drives) :
    ({ s.intr b q with cache := { (s.intr b q).cache with disk := disk } } : State P).Queued := by
  have hnd : b ∉ q ∧ q.Nodup := List.nodup_cons.mp (hq ▸ h.nodup)
  have hmem : ∀ b' ∈ q, b' ∈ s.cache.idequeue := by
    intro b' hb'
    rw [hq]
    exact List.mem_cons_of_mem b hb'
  refine ⟨hnd.2, fun b' hb' => h.waits b' (hmem b' hb'), fun b' hb' => ?_⟩
  have hne : b' ≠ b := fun heq => hnd.1 (heq ▸ hb')
  have := h.asks b' (hmem b' hb')
  simpa [Bcache.finished, intr_of_ne hne] using this

end Intr

/-! ## The holder of a buffer -/

theorem Owned.cache (h : s.Owned) {c : Bcache}
    (hbusy : ∀ b, (c.buf b).busy = (s.cache.buf b).busy)
    (hdev : ∀ b, (c.buf b).dev = (s.cache.buf b).dev) :
    ({ s with cache := c } : State P).Owned := by
  refine ⟨h.nodup, h.apart, h.one, fun b => ?_, fun p b hb => ?_, h.seeks, h.writing, h.touched⟩
  · rw [hbusy]
    exact h.busy b
  · rw [hdev]
    exact h.real p b hb

theorem Owned.touch (h : s.Owned) (hp : s.pc p = .out) (hb : b ∈ s.held p) (v : Bool) :
    ({ s with touched := update s.touched b v } : State P).Owned := by
  refine ⟨h.nodup, h.apart, h.one, h.busy, h.real, h.seeks, h.writing, fun b' hb' => ?_⟩
  by_cases hne : b' = b
  · subst hne
    refine ⟨p, hb, ?_⟩
    rw [hp]
    exact Pc.noConfusion
  · exact h.touched b' (by simpa [hne] using hb')

theorem Stored.change (h : Stored d s) (hb : (s.cache.buf b).dev < 2)
    (hnq : b ∉ s.cache.idequeue) (data : Block) :
    Stored (Event.apply d (.write (s.cache.buf b).dev (s.cache.buf b).blockno data))
      ({ s with
        cache := s.cache.modify b fun x => { x with data := data }
        touched := update s.touched b true } : State P) := by
  have hother : ∀ dev blockno, s.addr b ≠ (dev, blockno) →
      Event.apply d (.write (s.cache.buf b).dev (s.cache.buf b).blockno data) dev blockno =
        d dev blockno := by
    intro dev blockno hne
    unfold Event.apply
    by_cases hd : dev = (s.cache.buf b).dev
    · subst hd
      have hn : blockno ≠ (s.cache.buf b).blockno := fun heq => hne (by rw [heq]; rfl)
      simp [hn]
    · simp [hd]
  refine h.modify (x := { s.cache.buf b with data := data }) (by simp)
    (fun _ hne => by simp [Bcache.modify_of_ne _ _ _ hne]) rfl rfl hnq rfl
    (fun b' hne => update_of_ne hne ..) ?_ hother (Or.inl rfl) (h.held · b) (h.dirty b) ?_ ?_
  · intro b' hne
    exact hother _ _ fun heq => hne (h.unique b b' hb heq).symm
  · intro _ _
    simp [Event.apply]
  · intro _ _ ht
    simp at ht

theorem setDirty_addr (b' : BufPtr) :
    ({ s with
      cache := s.cache.modify b fun x => { x with dirty := true }
      touched := update s.touched b false } : State P).addr b' = s.addr b' := by
  unfold addr
  by_cases hne : b' = b
  · subst hne
    simp
  · rw [Bcache.modify_of_ne _ _ _ hne]

theorem Stored.setDirty (h : Stored d s) (hb : b ∈ s.held p) (hnq : b ∉ s.cache.idequeue) :
    Stored d ({ s with
      cache := s.cache.modify b fun x => { x with dirty := true }
      touched := update s.touched b false } : State P) :=
  h.modify (x := { s.cache.buf b with dirty := true }) (by simp)
    (fun _ hne => by simp [Bcache.modify_of_ne _ _ _ hne]) rfl rfl hnq rfl
    (fun b' hne => update_of_ne hne ..) (fun _ _ => rfl) (fun _ _ _ => rfl) (Or.inl rfl)
    (h.held · b) (fun _ => h.held p b hb) (h.data b) nofun

variable [DecidableEq P]

section Goto

variable (s p k)

@[simp] theorem goto_cache : (s.goto p k).cache = s.cache := rfl

@[simp] theorem goto_held : (s.goto p k).held = s.held := rfl

@[simp] theorem goto_touched : (s.goto p k).touched = s.touched := rfl

theorem goto_pc (q : P) : (s.goto p k).pc q = if q = p then k else s.pc q := by
  simp [goto, update_apply]

end Goto

/-! ## Steps that change where a process is, and no buffer -/

theorem Owned.goto (h : s.Owned) (hk : k.owned = (s.pc p).owned)
    (hw : ∀ b, k = .writing b → b ∈ s.held p ∧ s.touched b = false)
    (hs : ∀ a, k.seeks = some a → a.1 < 2) : (s.goto p k).Owned := by
  have howned : ∀ q, ((s.goto p k).pc q).owned = (s.pc q).owned := by
    intro q
    rw [goto_pc]
    split
    · next hq => rw [hq, hk]
    · rfl
  have howns : ∀ q b, (s.goto p k).Owns q b ↔ s.Owns q b := by
    intro q b
    unfold Owns
    rw [howned, goto_held]
  constructor
  · exact h.nodup
  · intro q b hq
    rw [howned] at hq
    exact h.apart q b hq
  · intro q q' b hq hq'
    exact h.one q q' b ((howns q b).mp hq) ((howns q' b).mp hq')
  · intro b
    simp only [goto_cache, howns]
    exact h.busy b
  · intro q b hq
    exact h.real q b ((howns q b).mp hq)
  · intro q a hq
    rw [goto_pc] at hq
    split at hq
    · exact hs a hq
    · exact h.seeks q a hq
  · intro q b hq
    rw [goto_pc] at hq
    split at hq
    · next heq =>
      subst heq
      exact (hw b hq).1
    · exact h.writing q b hq
  · intro b hb
    obtain ⟨q, hq, hne⟩ := h.touched b hb
    refine ⟨q, hq, ?_⟩
    rw [goto_pc]
    split
    · intro heq
      have hclean := (hw b heq).2
      rw [goto_touched, hclean] at hb
      cases hb
    · exact hne

theorem Queued.goto (h : s.Queued)
    (hp : ∀ b, s.pc p = .reading b ∨ s.pc p = .writing b → b ∉ s.cache.idequeue) :
    (s.goto p k).Queued := by
  refine ⟨h.nodup, fun b hb => ?_, h.asks⟩
  obtain ⟨q, hq⟩ := h.waits b hb
  refine ⟨q, ?_⟩
  rw [goto_pc]
  split
  · next heq =>
    subst heq
    exact absurd hb (hp b hq)
  · exact hq

theorem Stored.goto (h : Stored d s) : Stored d (s.goto p k) :=
  ⟨h.unique, h.held, h.dirty, h.data, h.clean, h.sent, h.uncached⟩

/-! ## Getting a buffer -/

theorem Owned.acquire (h : s.Owned) {dev blockno : Nat} {f : Bcache.Buf → Bcache.Buf}
    (hp : s.pc p = .bget dev blockno) (hb : (s.cache.buf b).busy = false)
    (hbusy : (f (s.cache.buf b)).busy = true) (hdev : (f (s.cache.buf b)).dev < 2) :
    (({ s with cache := s.cache.modify b f } : State P).goto p (.got b)).Owned := by
  have hfree : ∀ q, ¬ s.Owns q b := by
    intro q hq
    have := (h.busy b).mpr ⟨q, hq⟩
    rw [hb] at this
    cases this
  have howns : ∀ q b',
      (({ s with cache := s.cache.modify b f } : State P).goto p (.got b)).Owns q b' ↔
      s.Owns q b' ∨ (q = p ∧ b' = b) := by
    intro q b'
    unfold Owns
    rw [goto_pc, goto_held]
    split
    · next hq =>
      rw [hq, hp]
      simp only [Pc.owned, Option.some.injEq, true_and]
      grind
    · next hq => simp [hq]
  constructor
  · exact h.nodup
  · intro q b' hq
    rw [goto_pc] at hq
    split at hq
    · cases hq
      exact fun hmem => hfree q (Or.inr hmem)
    · exact h.apart q b' hq
  · intro q q' b' hq hq'
    rcases (howns q b').mp hq with hold | ⟨rfl, rfl⟩
    · rcases (howns q' b').mp hq' with hold' | ⟨rfl, rfl⟩
      · exact h.one q q' b' hold hold'
      · exact absurd hold (hfree q)
    · rcases (howns q' b').mp hq' with hold' | ⟨rfl, -⟩
      · exact absurd hold' (hfree q')
      · rfl
  · intro b'
    simp only [howns]
    by_cases hbb : b' = b
    · subst hbb
      simp only [goto_cache, Bcache.modify_self, hbusy, true_iff]
      exact ⟨p, Or.inr ⟨rfl, trivial⟩⟩
    · simp only [goto_cache, Bcache.modify_of_ne _ _ _ hbb, hbb, and_false, or_false]
      exact h.busy b'
  · intro q b' hq
    by_cases hbb : b' = b
    · subst hbb
      simpa using hdev
    · simp only [goto_cache, Bcache.modify_of_ne _ _ _ hbb]
      rcases (howns q b').mp hq with hq | ⟨-, hq⟩
      · exact h.real q b' hq
      · exact absurd hq hbb
  · intro q a hq
    rw [goto_pc] at hq
    split at hq
    · cases hq
    · exact h.seeks q a hq
  · intro q b' hq
    rw [goto_pc] at hq
    split at hq
    · cases hq
    · exact h.writing q b' hq
  · intro b' hb'
    obtain ⟨q, hq, hne⟩ := h.touched b' hb'
    refine ⟨q, hq, ?_⟩
    rw [goto_pc]
    split
    · exact Pc.noConfusion
    · exact hne

theorem Owned.returned (h : s.Owned) (hp : (s.pc p).owned = some b) :
    (s.returned p b).1.Owned := by
  have hpc : ∀ q, (s.returned p b).1.pc q = if q = p then .out else s.pc q :=
    fun q => goto_pc _ p .out q
  have hheld : ∀ q, (s.returned p b).1.held q = if q = p then b :: s.held p else s.held q := by
    intro q
    simp [State.returned, update_apply]
  have howns : ∀ q b', (s.returned p b).1.Owns q b' ↔ s.Owns q b' := by
    intro q b'
    unfold Owns
    rw [hpc, hheld]
    split
    · next hq =>
      subst hq
      have hout : Pc.out.owned = none := rfl
      simp [hp, hout, eq_comm]
    · rfl
  constructor
  · intro q
    rw [hheld]
    split
    · exact List.nodup_cons.mpr ⟨h.apart p b hp, h.nodup p⟩
    · exact h.nodup q
  · intro q b' hq
    rw [hpc] at hq
    rw [hheld]
    split
    · next heq =>
      rw [if_pos heq] at hq
      cases hq
    · next hne =>
      rw [if_neg hne] at hq
      exact h.apart q b' hq
  · intro q q' b' hq hq'
    exact h.one q q' b' ((howns q b').mp hq) ((howns q' b').mp hq')
  · intro b'
    simp only [howns]
    exact h.busy b'
  · intro q b' hq
    exact h.real q b' ((howns q b').mp hq)
  · intro q a hq
    rw [hpc] at hq
    split at hq
    · cases hq
    · exact h.seeks q a hq
  · intro q b' hq
    rw [hpc] at hq
    split at hq
    · cases hq
    · next hne =>
      rw [hheld, if_neg hne]
      exact h.writing q b' hq
  · intro b' hb'
    obtain ⟨q, hq, hne⟩ := h.touched b' hb'
    refine ⟨q, ?_, ?_⟩
    · rw [hheld]
      split
      · next heq =>
        subst heq
        exact List.mem_cons_of_mem b hq
      · exact hq
    · rw [hpc]
      split
      · exact Pc.noConfusion
      · exact hne

theorem Owned.brelse (h : s.Owned) (hp : s.pc p = .out) (hb : b ∈ s.held p)
    (ht : s.touched b = false) {t : Bcache} (hr : s.cache.brelse b = .ok t) :
    ({ s with cache := t, held := update s.held p ((s.held p).erase b) } :
      State P).Owned := by
  obtain ⟨-, rfl⟩ := Bcache.brelse_ok hr
  have hheld : ∀ q, update s.held p ((s.held p).erase b) q =
      if q = p then (s.held p).erase b else s.held q := by
    intro q
    rw [update_apply]
  have howns : ∀ q b', ({ s with
      cache := ({ s.cache with
        links := (s.cache.links.remove (some b)).pushFront none (some b) } : Bcache).modify b
          fun x => { x with busy := false }
      held := update s.held p ((s.held p).erase b) } : State P).Owns q b' ↔
        s.Owns q b' ∧ b' ≠ b := by
    intro q b'
    unfold Owns
    dsimp only
    rw [hheld]
    constructor
    · intro hq
      split at hq
      · next heq =>
        subst heq
        rcases hq with hq | hq
        · rw [hp] at hq
          cases hq
        · have := (h.nodup q).mem_erase_iff.mp hq
          exact ⟨Or.inr this.2, this.1⟩
      · next hne =>
        refine ⟨hq, fun heq => ?_⟩
        subst heq
        exact hne (h.one q p b' hq (Or.inr hb))
    · intro hq
      split
      · next heq =>
        subst heq
        exact hq.1.imp_right fun hmem => (h.nodup q).mem_erase_iff.mpr ⟨hq.2, hmem⟩
      · exact hq.1
  constructor
  · intro q
    dsimp only
    rw [hheld]
    split
    · exact (h.nodup p).erase b
    · exact h.nodup q
  · intro q b' hq
    dsimp only
    rw [hheld]
    split
    · exact fun hmem => h.apart p b' (by rwa [← ‹q = p›]) (List.mem_of_mem_erase hmem)
    · exact h.apart q b' hq
  · intro q q' b' hq hq'
    exact h.one q q' b' ((howns q b').mp hq).1 ((howns q' b').mp hq').1
  · intro b'
    simp only [howns]
    by_cases hne : b' = b
    · simp [hne]
    · rw [Bcache.modify_of_ne _ _ _ hne]
      simp only [ne_eq, hne, not_false_eq_true, and_true]
      exact h.busy b'
  · intro q b' hq
    obtain ⟨hq, hne⟩ := (howns q b').mp hq
    rw [Bcache.modify_of_ne _ _ _ hne]
    exact h.real q b' hq
  · exact h.seeks
  · intro q b' hq
    dsimp only
    rw [hheld, if_neg]
    · exact h.writing q b' hq
    · intro heq
      subst heq
      rw [hp] at hq
      cases hq
  · intro b' hb'
    obtain ⟨q, hq, hne⟩ := h.touched b' hb'
    have hbb : b' ≠ b := by
      intro heq
      rw [heq, ht] at hb'
      cases hb'
    refine ⟨q, ?_, hne⟩
    dsimp only
    rw [hheld]
    split
    · next heq =>
      subst heq
      exact (List.mem_erase_of_ne hbb).mpr hq
    · exact hq

theorem Queued.append (h : s.Queued) (hk : k = .reading b ∨ k = .writing b)
    (hp : ∀ b', s.pc p ≠ .reading b' ∧ s.pc p ≠ .writing b') (hb : b ∉ s.cache.idequeue)
    (hasks : s.cache.finished b = false) (disk : Drives) :
    (({ s with
      cache := { s.cache with
        idequeue := s.cache.idequeue ++ [b]
        disk := disk } } : State P).goto p k).Queued := by
  refine ⟨?_, fun b' hb' => ?_, fun b' hb' => ?_⟩
  · exact List.nodup_append'.mpr ⟨h.nodup, List.nodup_singleton b, by simpa using hb⟩
  · rcases List.mem_append.mp hb' with hold | hnew
    · obtain ⟨q, hq⟩ := h.waits b' hold
      refine ⟨q, ?_⟩
      rw [goto_pc, if_neg]
      · exact hq
      · intro heq
        subst heq
        exact hq.elim (hp b').1 (hp b').2
    · obtain rfl := List.mem_singleton.mp hnew
      refine ⟨p, ?_⟩
      rwa [goto_pc, if_pos rfl]
  · rcases List.mem_append.mp hb' with hold | hnew
    · exact h.asks b' hold
    · obtain rfl := List.mem_singleton.mp hnew
      exact hasks

end State

end BufSys

end Xv6
