import Xv6.Buf.Cache
import Xv6.Lib.Chain

/-!
# The queue of the disk driver

`ide.c` with its queue as the links `idequeue` and `qnext` make it. A process in `iderw` sleeps
until the flags say that its request is done, and may be woken up at any time. The other steps
change buffers nobody is in `iderw` with. The device interrupts once for each request that was
started.
-/

open Function (update update_of_ne update_self update_comm)

namespace Xv6

namespace Ide

open Intrusive

structure Driver where
  buf : BufPtr → Bcache.Buf
  idequeue : Option BufPtr
  qnext : BufPtr → Option BufPtr
  havedisk1 : Bool
  disk : Drives
  started : List BufPtr
  completed : List BufPtr

namespace Driver

def idestart (s : Driver) (b : BufPtr) : Except Fault Driver :=
  let x := s.buf b
  if x.blockno ≥ FSSIZE then .error (.panic "incorrect blockno")
  else
    .ok { s with
      started := s.started ++ [b]
      disk := if x.dirty then
          update s.disk (Bcache.drive x.dev)
            (update (s.disk (Bcache.drive x.dev)) x.blockno x.data)
        else s.disk }

/-- `b->qnext = 0`, and `b` is stored where the walk from `idequeue` ends. -/
def append (s : Driver) (b : BufPtr) : Except Fault Driver :=
  let qnext := update s.qnext b none
  match trail qnext NBUF none s.idequeue with
  | none => .error .diverge
  | some none => .ok { s with idequeue := some b, qnext := qnext }
  | some (some c) => .ok { s with qnext := update qnext c (some b) }

/-- `iderw` up to its loop. The tests before `acquire` read what only the caller changes. -/
def iderw (s : Driver) (b : BufPtr) : Except Fault Driver :=
  let x := s.buf b
  if !x.busy then .error (.panic "iderw: buf not busy")
  else if x.valid && !x.dirty then .error (.panic "iderw: nothing to do")
  else if x.dev ≠ 0 ∧ s.havedisk1 = false then .error (.panic "iderw: ide disk 1 not present")
  else do
    let t ← s.append b
    if t.idequeue = some b then t.idestart b else .ok t

def finished (s : Driver) (b : BufPtr) : Bool := (s.buf b).valid && !(s.buf b).dirty

def ideintr (s : Driver) : Except Fault Driver :=
  match s.idequeue with
  | none => .ok s
  | some b =>
    let x := s.buf b
    let t := { s with
      idequeue := s.qnext b
      buf := update s.buf b { x with
        data := if x.dirty then x.data else s.disk (Bcache.drive x.dev) x.blockno
        valid := true
        dirty := false }
      completed := s.completed ++ [b] }
    match t.idequeue with
    | none => .ok t
    | some b' => t.idestart b'

end Driver

inductive Pc
  | out
  /-- Before the test of the loop of `iderw`. -/
  | loop (b : BufPtr)
  | asleep (b : BufPtr)

def Pc.buf : Pc → Option BufPtr
  | .out => none
  | .loop b | .asleep b => some b

structure State (P : Type) where
  ide : Driver
  pc : P → Pc
  holder : BufPtr → Option P
  /-- The calls of `iderw` that have put their buffer on the queue, in order. -/
  queued : List (P × BufPtr)
  returned : List (P × BufPtr)

inductive Act (P : Type)
  | iderw (p : P) (b : BufPtr)
  | run (p : P)
  | wake (p : P)
  | ideintr
  /-- `bget` gives a buffer to a process, with any contents. -/
  | bget (p : P) (b : BufPtr) (x : Bcache.Buf)
  | change (p : P) (b : BufPtr) (x : Bcache.Buf)
  | brelse (p : P) (b : BufPtr)

namespace State

variable {P : Type} [DecidableEq P]

def goto (s : State P) (p : P) (k : Pc) : State P := { s with pc := update s.pc p k }

def on (s : State P) (p : P) : Option BufPtr := (s.pc p).buf

def setBuf (s : State P) (b : BufPtr) (x : Bcache.Buf) (h : Option P) : State P :=
  { s with
    ide := { s.ide with buf := update s.ide.buf b x }
    holder := update s.holder b h }

/-- A process that is not in `iderw`, and holds the buffer. -/
def Uses (s : State P) (p : P) (b : BufPtr) : Prop :=
  s.on p = none ∧ s.holder b = some p

instance (s : State P) (p : P) (b : BufPtr) : Decidable (s.Uses p b) :=
  inferInstanceAs (Decidable (_ ∧ _))

def run (s : State P) (p : P) : Option (State P) :=
  match s.pc p with
  | .loop b =>
    if s.ide.finished b then some { s.goto p .out with returned := s.returned ++ [(p, b)] }
    else some (s.goto p (.asleep b))
  | _ => none

def next (s : State P) : Act P → Option (State P × Unit)
  | .iderw p b =>
    if s.Uses p b then
      match s.ide.iderw b with
      | .ok t => some ({ s.goto p (.loop b) with ide := t, queued := s.queued ++ [(p, b)] }, ())
      | .error _ => none
    else none
  | .run p => (s.run p).map (·, ())
  | .wake p =>
    match s.pc p with
    | .asleep b => some (s.goto p (.loop b), ())
    | _ => none
  | .ideintr =>
    if s.ide.completed.length < s.ide.started.length then
      match s.ide.ideintr with
      | .ok t => some ({ s with ide := t }, ())
      | .error _ => none
    else none
  | .bget p b x =>
    if s.on p = none ∧ (s.ide.buf b).busy = false then
      some (s.setBuf b { x with busy := true } (some p), ())
    else none
  | .change p b x =>
    if s.Uses p b then some (s.setBuf b { x with busy := true } (some p), ()) else none
  | .brelse p b =>
    if s.Uses p b then some (s.setBuf b { s.ide.buf b with busy := false } none, ()) else none

/-- The state after `binit` and `ideinit`, with one drive or two. -/
def Init (s : State P) : Prop :=
  ∃ havedisk1 disk, s =
    { ide := { buf := (Bcache.binit havedisk1 disk).buf, idequeue := none, qnext := fun _ => none
               havedisk1 := havedisk1, disk := disk, started := [], completed := [] }
      pc := fun _ => .out, holder := fun _ => none, queued := [], returned := [] }

end State

/-! ## Links and the queue -/

namespace Driver

variable {s t : Driver} {b : BufPtr} {q : List BufPtr}

theorem idestart_ok (h : s.idestart b = .ok t) :
    ∃ disk, t = { s with started := s.started ++ [b], disk := disk } := by
  unfold idestart at h
  dsimp only at h
  split at h
  · cases h
  · cases h
    exact ⟨_, rfl⟩

theorem append_ok (hc : Chain s.qnext s.idequeue q) (hb : b ∉ q) :
    ∃ idequeue qnext, s.append b = .ok { s with idequeue := idequeue, qnext := qnext } ∧
      Chain qnext idequeue (q ++ [b]) := by
  have hlen : q.length ≤ NBUF := by
    have := hc.nodup.length_le_card
    rwa [Fintype.card_fin] at this
  have hoff : Chain (update s.qnext b none) s.idequeue q := hc.update hb
  unfold append
  dsimp only
  rw [trail_eq hoff hlen, Option.or_none]
  rcases List.eq_nil_or_concat q with rfl | ⟨pre, c, hq⟩
  · exact ⟨_, _, rfl, rfl, update_self ..⟩
  · rw [List.concat_eq_append] at hq
    subst hq
    have hne : c ≠ b := fun heq => hb (by simp [heq])
    rw [List.getLast?_concat]
    refine ⟨_, _, rfl, ?_⟩
    rw [update_comm hne.symm, List.append_assoc]
    exact hc.concat hb

theorem iderw_ok (hc : Chain s.qnext s.idequeue q) (hb : b ∉ q) (h : s.iderw b = .ok t) :
    s.finished b = false ∧ ∃ idequeue qnext disk, Chain qnext idequeue (q ++ [b]) ∧
      t = { s with
        idequeue := idequeue, qnext := qnext, disk := disk
        started := s.started ++ if q = [] then [b] else [] } := by
  obtain ⟨idequeue, qnext, happ, hchain⟩ := append_ok hc hb
  unfold iderw at h
  dsimp only at h
  split at h
  · cases h
  split at h
  · cases h
  next hneeds =>
  split at h
  · cases h
  rw [happ] at h
  change (if idequeue = some b then _ else _) = _ at h
  refine ⟨Bool.not_eq_true _ ▸ hneeds, idequeue, qnext, ?_⟩
  have hfirst : idequeue = some b ↔ q = [] := by
    rw [hchain.head_eq]
    cases q with
    | nil => simp
    | cons a q => simpa using fun heq : a = b => hb (heq ▸ List.mem_cons_self)
  split at h
  · next hi =>
    obtain ⟨disk, rfl⟩ := idestart_ok h
    exact ⟨disk, hchain, by rw [if_pos (hfirst.mp hi)]⟩
  · next hi =>
    cases h
    exact ⟨s.disk, hchain, by rw [if_neg (mt hfirst.mpr hi), List.append_nil]⟩

theorem ideintr_ok (hc : Chain s.qnext s.idequeue (b :: q)) (h : s.ideintr = .ok t) :
    ∃ data disk, t = { s with
      idequeue := s.qnext b, disk := disk
      buf := update s.buf b { s.buf b with data := data, valid := true, dirty := false }
      completed := s.completed ++ [b]
      started := s.started ++ q.head?.toList } := by
  obtain ⟨hfirst, hrest⟩ := hc
  have hnext := hrest.head_eq
  unfold ideintr at h
  rw [hfirst] at h
  dsimp only at h
  rw [hnext] at h
  cases q with
  | nil =>
    cases h
    rw [List.head?_nil, Option.toList_none, List.append_nil, hnext]
    exact ⟨_, _, rfl⟩
  | cons b' q =>
    obtain ⟨disk, rfl⟩ := idestart_ok h
    rw [hnext]
    exact ⟨_, disk, rfl⟩

end Driver

/-! ## The invariant -/

namespace State

variable {P : Type} [DecidableEq P] {s s' : State P} {p : P} {b : BufPtr} {q : List BufPtr}

structure Inv (q : List BufPtr) (s : State P) : Prop where
  chain : Chain s.ide.qnext s.ide.idequeue q
  held : ∀ p b, s.on p = some b → s.holder b = some p
  busy : ∀ p b, s.holder b = some p → (s.ide.buf b).busy = true
  /-- Somebody is in `iderw` for each buffer of the queue. -/
  waits : ∀ b ∈ q, ∃ p, s.on p = some b
  pending : ∀ b ∈ q, s.ide.finished b = false
  settled : ∀ p b, s.on p = some b → b ∈ q ∨ s.ide.finished b = true
  queued : s.queued.map Prod.snd = s.ide.completed ++ q
  started : s.ide.started = s.ide.completed ++ q.head?.toList
  /-- The requests of a process are its calls that have returned, and the one it is in. -/
  calls : ∀ p, s.queued.filter (·.1 = p) =
    s.returned.filter (·.1 = p) ++ ((s.on p).map fun b => (p, b)).toList

theorem Inv.not_waited (h : s.Inv q) (hu : s.Uses p b) (p' : P) : s.on p' ≠ some b := by
  intro hp'
  have heq : p' = p := Option.some.inj ((h.held p' b hp').symm.trans hu.2)
  rw [heq, hu.1] at hp'
  cases hp'

theorem Inv.not_mem (h : s.Inv q) (hb : ∀ p, s.on p ≠ some b) : b ∉ q := by
  intro hmem
  obtain ⟨p, hp⟩ := h.waits b hmem
  exact hb p hp

theorem Inv.setBuf (h : s.Inv q) (hb : ∀ p, s.on p ≠ some b) {x : Bcache.Buf}
    {o : Option P} (hx : ∀ p, o = some p → x.busy = true) : (s.setBuf b x o).Inv q := by
  have hne : ∀ p b', s.on p = some b' → b' ≠ b := by
    rintro p b' hp rfl
    exact hb p hp
  have hfin : ∀ b', b' ≠ b → (s.setBuf b x o).ide.finished b' = s.ide.finished b' := by
    intro b' hb'
    unfold Driver.finished State.setBuf
    dsimp only
    rw [update_of_ne hb']
  refine ⟨h.chain, ?_, ?_, h.waits, ?_, ?_, h.queued, h.started, h.calls⟩
  · intro p b' hp
    change update s.holder b o b' = _
    rw [update_of_ne (hne p b' hp)]
    exact h.held p b' hp
  · intro p b' hp
    change update s.holder b o b' = _ at hp
    change (update s.ide.buf b x b').busy = true
    by_cases hb' : b' = b
    · subst hb'
      rw [update_self] at hp ⊢
      exact hx p hp
    · rw [update_of_ne hb'] at hp ⊢
      exact h.busy p b' hp
  · intro b' hb'
    rw [hfin b' (ne_of_mem_of_not_mem hb' (h.not_mem hb))]
    exact h.pending b' hb'
  · intro p b' hp
    rw [hfin b' (hne p b' hp)]
    exact h.settled p b' hp

theorem on_goto (k : Pc) (p' : P) :
    (s.goto p k).on p' = if p' = p then k.buf else s.on p' := by
  change (update s.pc p k p').buf = _
  by_cases hp : p' = p
  · rw [if_pos hp, hp, update_self]
  · rw [if_neg hp, update_of_ne hp]
    rfl

theorem Inv.goto (h : s.Inv q) {k : Pc} (hk : k.buf = s.on p) : (s.goto p k).Inv q := by
  have hon : (s.goto p k).on = s.on := by
    funext p'
    rw [on_goto]
    split
    · next hp => rw [hp, hk]
    · rfl
  refine ⟨h.chain, ?_, h.busy, ?_, h.pending, ?_, h.queued, h.started, ?_⟩
  · rw [hon]
    exact h.held
  · rw [hon]
    exact h.waits
  · rw [hon]
    exact h.settled
  · rw [hon]
    exact h.calls

theorem Inv.iderw (h : s.Inv q) (hu : s.Uses p b) {t : Driver} (ht : s.ide.iderw b = .ok t) :
    ({ s.goto p (.loop b) with ide := t, queued := s.queued ++ [(p, b)] } : State P).Inv
      (q ++ [b]) := by
  have hb := h.not_mem (h.not_waited hu)
  obtain ⟨hneeds, idequeue, qnext, disk, hchain, rfl⟩ := Driver.iderw_ok h.chain hb ht
  have hon : ∀ p', (s.goto p (.loop b)).on p' = if p' = p then some b else s.on p' := on_goto _
  refine ⟨hchain, ?_, h.busy, ?_, ?_, ?_, ?_, ?_, ?_⟩
  · intro p' b' hp'
    change (s.goto p (.loop b)).on p' = some b' at hp'
    rw [hon] at hp'
    split at hp'
    · next heq =>
      cases hp'
      rw [heq]
      exact hu.2
    · exact h.held p' b' hp'
  · intro b' hb'
    change ∃ p', (s.goto p (.loop b)).on p' = some b'
    rcases List.mem_append.mp hb' with hold | hnew
    · obtain ⟨p', hp'⟩ := h.waits b' hold
      refine ⟨p', ?_⟩
      rw [hon, if_neg, hp']
      rintro rfl
      rw [hu.1] at hp'
      cases hp'
    · refine ⟨p, ?_⟩
      rw [hon, if_pos rfl, List.mem_singleton.mp hnew]
  · intro b' hb'
    rcases List.mem_append.mp hb' with hold | hnew
    · exact h.pending b' hold
    · rwa [List.mem_singleton.mp hnew]
  · intro p' b' hp'
    change (s.goto p (.loop b)).on p' = some b' at hp'
    rw [hon] at hp'
    split at hp'
    · cases hp'
      exact Or.inl (List.mem_append_right _ (List.mem_singleton_self _))
    · exact (h.settled p' b' hp').imp_left (List.mem_append_left _)
  · rw [List.map_append, h.queued, List.append_assoc]
    rfl
  · rw [h.started]
    cases q with
    | nil | cons a q => simp
  · intro p'
    change (s.queued ++ [(p, b)]).filter _ =
      s.returned.filter _ ++ (((s.goto p (.loop b)).on p').map fun b => (p', b)).toList
    rw [hon, List.filter_append, h.calls p']
    by_cases hp : p' = p
    · subst hp
      rw [if_pos rfl, hu.1]
      simp
    · rw [if_neg hp]
      simp [Ne.symm hp]

theorem Inv.not_mem_of_finished (h : s.Inv q) (hf : s.ide.finished b = true) : b ∉ q := by
  intro hmem
  rw [h.pending b hmem] at hf
  cases hf

theorem Inv.returns (h : s.Inv q) (hp : s.pc p = .loop b) (hf : s.ide.finished b = true) :
    ({ s.goto p .out with returned := s.returned ++ [(p, b)] } : State P).Inv q := by
  have hself : s.on p = some b := by
    unfold on
    rw [hp]
    rfl
  have hon : ∀ p', (s.goto p .out).on p' = if p' = p then none else s.on p' := on_goto _
  have hsub : ∀ p' b', (s.goto p .out).on p' = some b' → s.on p' = some b' := by
    intro p' b' hp'
    rw [hon] at hp'
    split at hp'
    · cases hp'
    · exact hp'
  refine ⟨h.chain, fun p' b' hp' => h.held p' b' (hsub p' b' hp'), h.busy, ?_, h.pending,
    fun p' b' hp' => h.settled p' b' (hsub p' b' hp'), h.queued, h.started, ?_⟩
  · intro b' hb'
    obtain ⟨p', hp'⟩ := h.waits b' hb'
    refine ⟨p', ?_⟩
    change (s.goto p .out).on p' = _
    rw [hon, if_neg, hp']
    rintro rfl
    rw [hself] at hp'
    cases hp'
    exact h.not_mem_of_finished hf hb'
  · intro p'
    change s.queued.filter _ = (s.returned ++ [(p, b)]).filter _ ++
      (((s.goto p .out).on p').map fun b => (p', b)).toList
    rw [hon, h.calls p', List.filter_append]
    by_cases heq : p' = p
    · subst heq
      rw [if_pos rfl, hself]
      simp
    · rw [if_neg heq]
      simp [Ne.symm heq]

theorem Inv.ideintr (h : s.Inv q) {t : Driver} (ht : s.ide.ideintr = .ok t)
    (hlt : s.ide.completed.length < s.ide.started.length) :
    ({ s with ide := t } : State P).Inv q.tail := by
  cases q with
  | nil =>
    rw [h.started, List.head?_nil, Option.toList_none, List.append_nil] at hlt
    exact absurd hlt (Nat.lt_irrefl _)
  | cons b q =>
    obtain ⟨data, disk, rfl⟩ := Driver.ideintr_ok h.chain ht
    obtain ⟨hnot, -⟩ := List.nodup_cons.mp h.chain.nodup
    have hfin : ∀ (d : Driver) b', d.buf = update s.ide.buf b
        { s.ide.buf b with data := data, valid := true, dirty := false } →
        d.finished b' = if b' = b then true else s.ide.finished b' := by
      intro d b' hd
      unfold Driver.finished
      rw [hd]
      split
      · next heq => rw [heq, update_self]; rfl
      · next hne => rw [update_of_ne hne]
    refine ⟨h.chain.2, h.held, ?_, fun b' hb' => h.waits b' (List.mem_cons_of_mem _ hb'), ?_, ?_,
      ?_, ?_, h.calls⟩
    · intro p b' hp
      change (update s.ide.buf b _ b').busy = true
      by_cases heq : b' = b
      · subst heq
        rw [update_self]
        exact h.busy p b' hp
      · rw [update_of_ne heq]
        exact h.busy p b' hp
    · intro b' hb'
      rw [hfin _ b' rfl, if_neg (ne_of_mem_of_not_mem hb' hnot)]
      exact h.pending b' (List.mem_cons_of_mem _ hb')
    · intro p b' hp
      rw [hfin _ b' rfl]
      split
      · exact Or.inr rfl
      · next hne =>
        exact (h.settled p b' hp).imp_left fun hmem => (List.mem_cons.mp hmem).resolve_left hne
    · rw [h.queued, List.append_assoc]
      rfl
    · rw [h.started]
      rfl

/-- What a step does to the queue. -/
theorem Inv.next (h : s.Inv q) {a : Act P} {o : Unit} (hs : s.next a = some (s', o)) :
    ∃ q', s'.Inv q' := by
  cases a with
  | iderw p b =>
    dsimp only [State.next] at hs
    split at hs
    · next hu =>
      split at hs
      · next t ht =>
        cases hs
        exact ⟨_, h.iderw hu ht⟩
      · cases hs
    · cases hs
  | run p =>
    obtain ⟨t, ht, heq⟩ := Option.map_eq_some_iff.mp hs
    cases heq
    unfold run at ht
    split at ht
    · next b hp =>
      split at ht
      · next hf =>
        cases ht
        exact ⟨q, h.returns hp hf⟩
      · cases ht
        exact ⟨q, h.goto (by unfold on; rw [hp]; rfl)⟩
    · cases ht
  | wake p =>
    dsimp only [State.next] at hs
    split at hs
    · next b hp =>
      cases hs
      exact ⟨q, h.goto (by unfold on; rw [hp]; rfl)⟩
    · cases hs
  | ideintr =>
    dsimp only [State.next] at hs
    split at hs
    · next hlt =>
      split at hs
      · next t ht =>
        cases hs
        exact ⟨_, h.ideintr ht hlt⟩
      · cases hs
    · cases hs
  | bget p b x =>
    dsimp only [State.next] at hs
    split at hs
    · next hfree =>
      cases hs
      refine ⟨q, h.setBuf (fun p' hp' => ?_) fun _ _ => rfl⟩
      have := h.busy p' b (h.held p' b hp')
      rw [hfree.2] at this
      cases this
    · cases hs
  | change p b x =>
    dsimp only [State.next] at hs
    split at hs
    · next hu =>
      cases hs
      exact ⟨q, h.setBuf (h.not_waited hu) fun _ _ => rfl⟩
    · cases hs
  | brelse p b =>
    dsimp only [State.next] at hs
    split at hs
    · next hu =>
      cases hs
      exact ⟨q, h.setBuf (h.not_waited hu) nofun⟩
    · cases hs

theorem Init.inv (h : s.Init) : s.Inv [] := by
  obtain ⟨havedisk1, disk, rfl⟩ := h
  exact ⟨rfl, nofun, nofun, nofun, nofun, nofun, rfl, rfl, fun _ => rfl⟩

theorem run_inv {tr : List (Act P × Unit)} (h : Trace.Run Init (Trace.Next next) tr s) :
    ∃ q, s.Inv q :=
  h.invariant (I := fun s => ∃ q, s.Inv q) (fun _ hs => ⟨[], hs.inv⟩)
    fun _ _ _ ⟨_, hq⟩ hs => hq.next hs

/-- In every state, the requests are in the order of their arrival those completed and those
in the queue, where the queue lists distinct busy buffers; the device was given each request
once, in order, and the first of the queue last; and a call returns once, with the flags set,
when every request for its buffer is completed. -/
theorem requests_served_in_order {tr : List (Act P × Unit)}
    (h : Trace.Run Init (Trace.Next next) tr s) :
    ∃ q : List BufPtr, Chain s.ide.qnext s.ide.idequeue q ∧ q.Nodup ∧
      (∀ b ∈ q, (s.ide.buf b).busy = true ∧ ∃ p, s.holder b = some p ∧ s.on p = some b) ∧
      s.queued.map Prod.snd = s.ide.completed ++ q ∧
      s.ide.started = s.ide.completed ++ q.head?.toList ∧
      (∀ p, s.queued.filter (·.1 = p) =
        s.returned.filter (·.1 = p) ++ ((s.on p).map fun b => (p, b)).toList) ∧
      (∀ p b, s.on p = some b → b ∈ q ∨ s.ide.finished b = true) ∧
      ∀ p s', s.next (.run p) = some (s', ()) → s'.returned ≠ s.returned →
        ∃ b, s.pc p = .loop b ∧ s'.returned = s.returned ++ [(p, b)] ∧
          s.ide.completed.count b = (s.queued.map Prod.snd).count b ∧
          (s'.ide.buf b).valid = true ∧ (s'.ide.buf b).dirty = false := by
  obtain ⟨q, hq⟩ := run_inv h
  refine ⟨q, hq.chain, hq.chain.nodup, ?_, hq.queued, hq.started, hq.calls, hq.settled, ?_⟩
  · intro b hb
    obtain ⟨p, hp⟩ := hq.waits b hb
    exact ⟨hq.busy p b (hq.held p b hp), p, hq.held p b hp, hp⟩
  · intro p s' hs hret
    obtain ⟨t, ht, heq⟩ := Option.map_eq_some_iff.mp hs
    cases heq
    unfold run at ht
    split at ht
    · next b hp =>
      split at ht
      · next hf =>
        cases ht
        have hflags := hf
        unfold Driver.finished at hflags
        rw [Bool.and_eq_true, Bool.not_eq_true'] at hflags
        have hcount : s.ide.completed.count b = (s.queued.map Prod.snd).count b := by
          rw [hq.queued, List.count_append,
            List.count_eq_zero_of_not_mem (hq.not_mem_of_finished hf), Nat.add_zero]
        exact ⟨b, hp, rfl, hcount, hflags.1, hflags.2⟩
      · cases ht
        exact absurd rfl hret
    · cases ht

def start : State (Fin 2) where
  ide := { buf := (Bcache.binit false fun _ _ _ => 0).buf, idequeue := none
           qnext := fun _ => none, havedisk1 := false, disk := fun _ _ _ => 0
           started := [], completed := [] }
  pc := fun _ => .out
  holder := fun _ => none
  queued := []
  returned := []

theorem start_init : start.Init := ⟨false, fun _ _ _ => 0, rfl⟩

theorem second_request_started : ∃ (tr : List (Act (Fin 2) × Unit)) (s : State (Fin 2)),
    Trace.Run Init (Trace.Next next) tr s ∧ s.ide.started = [3, 7] ∧ s.ide.completed = [3] ∧
      s.returned = [(0, 3)] ∧
      ∃ q : List BufPtr, Chain s.ide.qnext s.ide.idequeue q ∧
        s.queued.map Prod.snd = s.ide.completed ++ q := by
  let x : Bcache.Buf := ⟨true, false, false, 0, 5, fun _ => 0⟩
  obtain ⟨tr, s, hrun, hstarted, hdone, hret⟩ := Trace.exec_reaches (f := next) start_init
    [.bget 0 3 x, .bget 1 7 x, .iderw 0 3, .iderw 1 7, .run 0, .ideintr, .wake 0, .run 0]
    (fun _ s => s.ide.started = [3, 7] ∧ s.ide.completed = [3] ∧ s.returned = [(0, 3)])
    (by decide +kernel)
  obtain ⟨q, hchain, -, -, hqueued, -⟩ := requests_served_in_order hrun
  exact ⟨tr, s, hrun, hstarted, hdone, hret, q, hchain, hqueued⟩

end State

end Ide

end Xv6
