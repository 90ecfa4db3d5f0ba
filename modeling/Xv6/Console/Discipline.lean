import Xv6.Console.Line
import Mathlib.Data.List.Chain

/-!
# Line discipline of the console

However keys and readers interleave, the bytes that readers store are the committed input, in
order. What calls return is what was stored as long as one call comes after the other, and as
no reader is killed that has stored something.
-/

open List (append_assoc append_nil flatMap_append flatMap_singleton)

namespace Xv6

namespace Console

/-! ## Histories -/

namespace Event

variable {T : Type}

/-- The committed input that a reader has consumed in a step: the bytes it has stored, or the
`^D` that its call ends with. -/
def consumed (e : Event T) : List Byte := e.took ++ e.call.eof e.stop

def returned (e : Event T) : List Byte := if e.stop = .returns then e.call.dst else []

def finished (e : Event T) : List Byte := if e.stop = .sleeps then [] else e.call.dst

end Event

section History

variable {T : Type}

def takenBytes (es : List (Event T)) : List Byte := es.flatMap Event.took

def returnedBytes (es : List (Event T)) : List Byte := es.flatMap Event.returned

def OneAtATime (es : List (Event T)) : Prop :=
  es.IsChain fun e e' => e.stop = .sleeps → e'.reader = e.reader

instance [DecidableEq T] (es : List (Event T)) : Decidable (OneAtATime es) :=
  inferInstanceAs (Decidable (es.IsChain _))

def Editor.enter (ed : Editor) (l : Action T × Option (Event T)) : Editor :=
  match l.1 with
  | .key cs => cs.foldl Editor.key ed
  | .read _ _ _ | .wake _ _ =>
    { ed with read := ed.read + (l.2.toList.flatMap Event.consumed).length }

def Editor.after (tr : List (Action T × Option (Event T))) : Editor := tr.foldl Editor.enter .start

theorem Editor.after_snoc (tr : List (Action T × Option (Event T)))
    (l : Action T × Option (Event T)) :
    Editor.after (tr ++ [l]) = (Editor.after tr).enter l := by
  unfold Editor.after
  rw [List.foldl_append]
  rfl

end History

/-! ## Steps -/

def State.stored {T : Type} (s : State T) (t : T) : List Byte := (s.call t).elim [] Call.dst

section Steps

variable {T : Type} [DecidableEq T] {s s' : State T} {a : Action T} {o : Option (Event T)}
  {q : List Byte} {e : Event T}

/-- What a step of a reader does, where `q` has been committed and not been consumed. -/
structure Reads (s s' : State T) (q : List Byte) (e : Event T) : Prop where
  fits : e.call.Fits
  dst : e.call.dst = s.stored e.reader ++ e.took
  plain : C 'D' ∉ e.took
  queue : e.consumed <+: q
  call : s'.call = Function.update s.call e.reader (if e.stop = .sleeps then some e.call else none)
  input : s'.input = { s.input with r := s.input.r + BitVec.ofNat 32 e.consumed.length }

inductive Step (s s' : State T) (q : List Byte) : Action T → Option (Event T) → Prop
  | keys {cs : List Byte} (call : s'.call = s.call) (input : s'.input = s.input.consoleintr cs) :
      Step s s' q (.key cs) none
  | reads {a : Action T} {e : Event T} (reader : ∀ cs, a ≠ .key cs) (reads : Reads s s' q e) :
      Step s s' q a (some e)

section

variable (hq : Cyclic.Holds s.input.buf s.input.r s.input.w q)

include hq

theorem State.run_reads {t : T} {killed : Bool} {c : Call} (hfits : c.Fits)
    (hstored : s.stored t = c.dst) (h : s.run t killed c = (s', o)) :
    ∃ e, o = some e ∧ Reads s s' q e := by
  obtain ⟨took, hout⟩ := Input.consoleread_outcome killed hq hfits
  cases h
  have htook : (s.input.consoleread killed c.target c.n c.dst).2.1.dst.drop c.dst.length =
      took := by
    rw [hout.dst, List.drop_left]
  refine ⟨_, rfl, hout.fits, ?_, ?_, ?_, rfl, ?_⟩
  · rw [hstored, htook]
    exact hout.dst
  · rw [htook]
    exact hout.plain
  · rw [htook]
    exact hout.queue
  · rw [htook]
    exact hout.input

theorem State.next_step (hfits : ∀ t c, s.call t = some c → c.Fits)
    (h : s.next a = some (s', o)) : Step s s' q a o := by
  cases a with
  | key cs =>
    cases h
    exact .keys rfl rfl
  | read t n killed =>
    cases hc : s.call t with
    | some c =>
      rw [next, hc] at h
      cases h
    | none =>
      rw [next, hc] at h
      have hnew : Call.Fits ⟨n, n, []⟩ := rfl
      have hstored : s.stored t = [] := by
        unfold stored
        rw [hc]
        rfl
      obtain ⟨e, rfl, hreads⟩ := run_reads hq hnew hstored (Option.some.inj h)
      exact .reads nofun hreads
  | wake t killed =>
    obtain ⟨c, hc, hrun⟩ := Option.map_eq_some_iff.mp h
    have hstored : s.stored t = c.dst := by
      unfold stored
      rw [hc]
      rfl
    obtain ⟨e, rfl, hreads⟩ := run_reads hq (hfits t c hc) hstored hrun
    exact .reads nofun hreads

end

theorem Reads.fits_next (h : Reads s s' q e) (hfits : ∀ t c, s.call t = some c → c.Fits) :
    ∀ t c, s'.call t = some c → c.Fits := by
  intro t c hc
  rw [h.call] at hc
  by_cases ht : t = e.reader
  · subst ht
    rw [Function.update_self] at hc
    split at hc
    · cases hc
      exact h.fits
    · cases hc
  · rw [Function.update_of_ne ht] at hc
    exact hfits t c hc

theorem Reads.stored_self (h : Reads s s' q e) :
    s'.stored e.reader = if e.stop = .sleeps then e.call.dst else [] := by
  unfold State.stored
  rw [h.call, Function.update_self]
  split
  · rfl
  · rfl

theorem Reads.stored_of_ne (h : Reads s s' q e) {t : T} (ht : t ≠ e.reader) :
    s'.stored t = s.stored t := by
  unfold State.stored
  rw [h.call, Function.update_of_ne ht]

theorem Reads.shows {ed : Editor} (h : Reads s s' ed.unread e) (hs : s.input.Shows ed) :
    s'.input.Shows { ed with read := ed.read + e.consumed.length } := by
  obtain ⟨rest, hrest⟩ := h.queue
  have hdrop : ed.committed.drop (ed.read + e.consumed.length) = rest := by
    rw [← List.drop_drop]
    change ed.unread.drop _ = rest
    rw [← hrest, List.drop_left]
  have hlen : e.consumed.length ≤ ed.committed.length - ed.read := by
    rw [← List.length_drop]
    exact h.queue.length_le
  have hq := hs.holds
  rw [← hrest, append_assoc] at hq
  rw [h.input]
  refine ⟨?_, ?_, ?_, hs.line⟩
  · have := hs.read_le
    dsimp only
    omega
  · unfold Editor.unread
    rw [hdrop]
    exact hq.right
  · unfold Editor.unread
    rw [hdrop]
    rw [hs.w, ← hrest, List.length_append, BitVec.ofNat_add, ← add_assoc]

end Steps

/-! ## Runs -/

section Runs

variable {T : Type} [DecidableEq T] {tr : List (Action T × Option (Event T))} {s : State T}

/-- What readers have consumed is the committed input, up to where the editor has it, and the
buffer has the rest. -/
structure Kept (tr : List (Action T × Option (Event T))) (s : State T) : Prop where
  shows : s.input.Shows (Editor.after tr)
  fits : ∀ t c, s.call t = some c → c.Fits
  consumed : (Trace.events tr).flatMap Event.consumed =
    (Editor.after tr).committed.take (Editor.after tr).read

omit [DecidableEq T] in
theorem Kept.init (h : s.Init) : Kept [] s := by
  refine ⟨⟨Nat.le_refl _, ?_, ?_, List.not_mem_nil⟩, ?_, rfl⟩
  · rw [h.r, h.e]
    exact .nil _ _
  · rw [h.w, h.r]
    rfl
  · intro t c hc
    rw [h.call t] at hc
    cases hc

theorem Kept.step {s' : State T} {a : Action T} {o : Option (Event T)} (h : Kept tr s)
    (hs : Step s s' (Editor.after tr).unread a o) : Kept (tr ++ [(a, o)]) s' := by
  cases hs with
  | @keys cs call input =>
    refine ⟨?_, ?_, ?_⟩
    · rw [Editor.after_snoc, input]
      exact h.shows.consoleintr cs
    · rw [call]
      exact h.fits
    · rw [Trace.events_snoc, Editor.after_snoc, flatMap_append, h.consumed]
      change _ ++ [] = (cs.foldl Editor.key _).committed.take (cs.foldl Editor.key _).read
      obtain ⟨more, hmore⟩ := Editor.committed_keys (Editor.after tr) cs
      rw [Editor.keys_read, ← hmore, List.take_append_of_le_length h.shows.read_le,
        append_nil]
  | @reads _ e reader reads =>
    have hafter : Editor.after (tr ++ [(a, some e)]) = { Editor.after tr with
        read := (Editor.after tr).read + e.consumed.length } := by
      rw [Editor.after_snoc]
      cases a with
      | key cs => exact absurd rfl (reader cs)
      | read _ _ _ | wake _ _ =>
        unfold Editor.enter
        rw [Option.toList_some, flatMap_singleton]
    refine ⟨?_, reads.fits_next h.fits, ?_⟩
    · rw [hafter]
      exact reads.shows h.shows
    · rw [hafter, Trace.events_snoc, flatMap_append, h.consumed]
      rw [List.take_add, Option.toList_some, flatMap_singleton]
      congr 1
      exact List.prefix_iff_eq_take.mp reads.queue

/-- Induction over a run, with what a step does. -/
theorem run_history {I : List (Action T × Option (Event T)) → State T → Prop}
    (hinit : ∀ s, s.Init → I [] s)
    (hstep : ∀ tr s s' a o, I tr s → Step s s' (Editor.after tr).unread a o →
      I (tr ++ [(a, o)]) s')
    (h : Trace.Run State.Init (Trace.Next State.next) tr s) : Kept tr s ∧ I tr s := by
  refine Trace.Run.history (I := fun tr s => Kept tr s ∧ I tr s) ?_ ?_ h
  · intro s hs
    exact ⟨.init hs, hinit s hs⟩
  · rintro tr s ⟨a, o⟩ s' ⟨hk, hI⟩ hs
    have hstep' := State.next_step hk.shows.unread hk.fits hs
    exact ⟨hk.step hstep', hstep tr s s' a o hI hstep'⟩

/-! ## What calls return -/

theorem run_events (h : Trace.Run State.Init (Trace.Next State.next) tr s) :
    ∀ e ∈ Trace.events tr, e.call.Fits ∧ C 'D' ∉ e.took := by
  refine (run_history (I := fun tr _ => ∀ e ∈ Trace.events tr, e.call.Fits ∧ C 'D' ∉ e.took)
    ?_ ?_ h).2
  · intro s _ e he
    cases he
  · intro tr s s' a o ih hs e he
    rw [Trace.events_snoc] at he
    rcases Trace.mem_snoc.mp he with hold | hnew
    · exact ih e hold
    · cases hs with
      | keys => cases hnew
      | reads _ reads =>
        cases hnew
        exact ⟨reads.fits, reads.plain⟩

omit [DecidableEq T] in
theorem takenBytes_eq_filter {es : List (Event T)} (h : ∀ e ∈ es, C 'D' ∉ e.took) :
    takenBytes es = (es.flatMap Event.consumed).filter (· ≠ C 'D') := by
  induction es with
  | nil => rfl
  | cons e es ih =>
    have htook : e.took.filter (· ≠ C 'D') = e.took := by
      refine List.filter_eq_self.mpr fun b hb => decide_eq_true fun heq => ?_
      exact h e List.mem_cons_self (heq ▸ hb)
    have heof : (e.call.eof e.stop).filter (· ≠ C 'D') = [] := by
      unfold Call.eof
      split
      · rfl
      · rfl
    unfold takenBytes at ih ⊢
    rw [List.flatMap_cons, List.flatMap_cons, List.filter_append,
      ih fun e' he' => h e' (List.mem_cons_of_mem _ he')]
    unfold Event.consumed
    rw [List.filter_append, htook, heof, append_nil]

theorem run_stored (h : Trace.Run State.Init (Trace.Next State.next) tr s) (t : T) :
    takenBytes ((Trace.events tr).filter (·.reader = t)) =
      ((Trace.events tr).filter (·.reader = t)).flatMap Event.finished ++ s.stored t := by
  refine (run_history (I := fun tr s => takenBytes ((Trace.events tr).filter (·.reader = t)) =
    ((Trace.events tr).filter (·.reader = t)).flatMap Event.finished ++ s.stored t) ?_ ?_ h).2
  · intro s hs
    unfold State.stored
    rw [hs.call t]
    rfl
  · intro tr s s' a o ih hs
    rw [Trace.events_snoc, List.filter_append]
    unfold takenBytes at ih ⊢
    rw [flatMap_append, flatMap_append, ih, append_assoc, append_assoc]
    congr 1
    cases hs with
    | keys call =>
      unfold State.stored
      rw [call]
      exact append_nil _
    | @reads _ e _ reads =>
      rw [Option.toList_some]
      by_cases ht : e.reader = t
      · subst ht
        rw [List.filter_cons_of_pos (by simp), List.filter_nil, flatMap_singleton,
          flatMap_singleton, reads.stored_self, ← reads.dst]
        unfold Event.finished
        split
        · rfl
        · exact (append_nil _).symm
      · rw [List.filter_cons_of_neg (by simpa using ht), List.filter_nil, List.flatMap_nil,
          List.flatMap_nil, reads.stored_of_ne (Ne.symm ht), append_nil, List.nil_append]

/-! ## Calls one after the other -/

/-- Of the bytes stored, all but those of the call in progress have been returned. -/
structure Returned (es : List (Event T)) (s : State T) : Prop where
  busy : ∀ t c, s.call t = some c → returnedBytes es ++ c.dst = takenBytes es ∧
    ∃ e, es.getLast? = some e ∧ e.reader = t ∧ e.stop = .sleeps
  free : (∀ t, s.call t = none) → returnedBytes es = takenBytes es

section Returned

variable {es : List (Event T)} {s' : State T} {q : List Byte} {e : Event T}

omit [DecidableEq T] in
theorem Returned.reader (h : Returned es s) (hone : OneAtATime (es ++ [e])) :
    returnedBytes es ++ s.stored e.reader = takenBytes es ∧
      ∀ t, t ≠ e.reader → s.call t = none := by
  have hnext : ∀ e' ∈ es.getLast?, e'.stop = .sleeps → e.reader = e'.reader := fun e' he' =>
    (List.isChain_append.mp hone).2.2 e' he' e rfl
  have hbusy : ∀ t c, s.call t = some c → t = e.reader := by
    intro t c hc
    obtain ⟨-, e', hlast, rfl, hsleeps⟩ := h.busy t c hc
    exact (hnext e' hlast hsleeps).symm
  have hothers : ∀ t, t ≠ e.reader → s.call t = none := by
    intro t ht
    cases hc : s.call t with
    | none => rfl
    | some c => exact absurd (hbusy t c hc) ht
  refine ⟨?_, hothers⟩
  unfold State.stored
  cases hc : s.call e.reader with
  | some c => exact (h.busy _ c hc).1
  | none =>
    have hfree : ∀ t, s.call t = none := by
      intro t
      by_cases ht : t = e.reader
      · rwa [ht]
      · exact hothers t ht
    rw [Option.elim_none, append_nil]
    exact h.free hfree

theorem Returned.snoc (h : Returned es s) (hone : OneAtATime (es ++ [e]))
    (hreads : Reads s s' q e) (hkilled : e.stop = .killed → e.call.dst = []) :
    Returned (es ++ [e]) s' := by
  obtain ⟨hself, hothers⟩ := h.reader hone
  have htaken : takenBytes (es ++ [e]) = takenBytes es ++ e.took := by
    unfold takenBytes
    rw [flatMap_append, flatMap_singleton]
  have hreturned : returnedBytes (es ++ [e]) = returnedBytes es ++ e.returned := by
    unfold returnedBytes
    rw [flatMap_append, flatMap_singleton]
  -- Each byte the call has stored is returned now, or is with the call.
  have hsplit : e.returned ++ s'.stored e.reader = e.call.dst := by
    rw [hreads.stored_self]
    unfold Event.returned
    cases hstop : e.stop with
    | sleeps => exact List.nil_append _
    | returns => exact append_nil _
    | killed => exact (hkilled hstop).symm
  have hall : returnedBytes (es ++ [e]) ++ s'.stored e.reader = takenBytes (es ++ [e]) := by
    rw [hreturned, htaken, append_assoc, hsplit, hreads.dst, ← append_assoc, hself]
  refine ⟨?_, ?_⟩
  · intro t c hc
    have ht : t = e.reader := by
      by_contra hne
      rw [hreads.call, Function.update_of_ne hne, hothers t hne] at hc
      cases hc
    subst ht
    refine ⟨?_, e, List.getLast?_concat, rfl, ?_⟩
    · rw [← hall]
      unfold State.stored
      rw [hc]
      rfl
    · rw [hreads.call, Function.update_self] at hc
      by_contra hne
      rw [if_neg hne] at hc
      cases hc
  · intro hfree
    have hnone : s'.stored e.reader = [] := by
      unfold State.stored
      rw [hfree]
      rfl
    rwa [hnone, append_nil] at hall

end Returned

theorem run_returned (h : Trace.Run State.Init (Trace.Next State.next) tr s)
    (hone : OneAtATime (Trace.events tr))
    (hkilled : ∀ e ∈ Trace.events tr, e.stop = .killed → e.call.dst = []) :
    Returned (Trace.events tr) s := by
  refine (run_history (I := fun tr s => OneAtATime (Trace.events tr) →
    (∀ e ∈ Trace.events tr, e.stop = .killed → e.call.dst = []) → Returned (Trace.events tr) s)
    ?_ ?_ h).2 hone hkilled
  · intro s hs _ _
    refine ⟨fun t c hc => ?_, fun _ => rfl⟩
    rw [hs.call t] at hc
    cases hc
  · intro tr s s' a o ih hs
    rw [Trace.events_snoc]
    intro hone hkilled
    have hbefore := ih (List.isChain_append.mp hone).1 fun e he =>
      hkilled e (List.mem_append_left _ he)
    cases hs with
    | keys call =>
      rw [Option.toList_none, append_nil]
      refine ⟨?_, ?_⟩
      · rw [call]
        exact hbefore.busy
      · rw [call]
        exact hbefore.free
    | @reads _ e _ reads =>
      exact hbefore.snoc hone reads
        (hkilled e (List.mem_append_right _ (List.mem_singleton_self e)))

/-! ## The discipline -/

/-- What a history and the state it leads to have to do with the input that was committed. -/
structure Disciplined (tr : List (Action T × Option (Event T))) (s : State T) : Prop where
  /-- The indices are in order, modulo `2 ^ 32`. -/
  indices : (s.input.w - s.input.r).toNat ≤ (s.input.e - s.input.r).toNat ∧
    (s.input.e - s.input.r).toNat ≤ INPUTBUF.toNat
  /-- What is committed has been consumed in order, byte by byte: stored by a reader, or, if
  it is `^D`, by a call that returns nothing. -/
  consumed : (Trace.events tr).flatMap Event.consumed =
    (Editor.after tr).committed.take (Editor.after tr).read
  stored : takenBytes (Trace.events tr) =
    ((Editor.after tr).committed.take (Editor.after tr).read).filter (· ≠ C 'D')
  /-- The rest of it is in the buffer, followed by the pending line. -/
  unread : Cyclic.Holds s.input.buf s.input.r s.input.w
    ((Editor.after tr).committed.drop (Editor.after tr).read)
  pending : Cyclic.Holds s.input.buf s.input.w s.input.e (Editor.after tr).pending
  /-- A call returns the bytes it has stored. -/
  result : ∀ e ∈ Trace.events tr, e.stop = .returns → e.call.result = e.call.dst.length
  process : ∀ t, takenBytes ((Trace.events tr).filter (·.reader = t)) =
    ((Trace.events tr).filter (·.reader = t)).flatMap Event.finished ++ s.stored t
  /-- If one call comes after the other and none that has stored something is killed, then
  what calls have returned, in order, is what was stored but for the call in progress. -/
  returned : OneAtATime (Trace.events tr) →
    (∀ e ∈ Trace.events tr, e.stop = .killed → e.call.dst = []) →
    (∀ t c, s.call t = some c →
      returnedBytes (Trace.events tr) ++ c.dst = takenBytes (Trace.events tr)) ∧
    ((∀ t, s.call t = none) → returnedBytes (Trace.events tr) = takenBytes (Trace.events tr))

/-- Whatever is typed and whoever reads, readers take the committed input in order. -/
theorem console_line_discipline (h : Trace.Run State.Init (Trace.Next State.next) tr s) :
    Disciplined tr s := by
  obtain ⟨hk, -⟩ := run_history (I := fun _ _ => True) (fun _ _ => trivial)
    (fun _ _ _ _ _ _ _ => trivial) h
  have hevents := run_events h
  refine ⟨⟨?_, ?_⟩, hk.consumed, ?_, hk.shows.unread, hk.shows.pending, ?_, run_stored h, ?_⟩
  · rw [hk.shows.unread.length_eq INPUTBUF_lt, hk.shows.kept_eq]
    exact Nat.le_add_right _ _
  · rw [hk.shows.kept_eq]
    exact hk.shows.kept_le
  · rw [← hk.consumed]
    exact takenBytes_eq_filter fun e he => (hevents e he).2
  · intro e he _
    have hfits : e.call.n + e.call.dst.length = e.call.target := (hevents e he).1
    unfold Call.result
    omega
  · intro hone hkilled
    have hret := run_returned h hone hkilled
    exact ⟨fun t c hc => (hret.busy t c hc).1, hret.free⟩

end Runs

def start : State (Fin 2) where
  input := { buf := fun _ => 0, r := 0, w := 0, e := 0 }
  call := fun _ => none

theorem start_init : start.Init := ⟨rfl, rfl, rfl, fun _ => rfl⟩

theorem line_edited_and_read : ∃ tr s,
    Trace.Run State.Init (Trace.Next (State.next (T := Fin 2))) tr s ∧
      returnedBytes (Trace.events tr) = [97, 99, 10] ∧ Disciplined tr s := by
  obtain ⟨tr, s, hrun, hbytes⟩ := Trace.exec_reaches (f := State.next) start_init
    [.key [97, 98, C 'H', 99, 13], .read 0 2 false, .read 1 5 false]
    (fun tr _ => returnedBytes (Trace.events tr) = [97, 99, 10]) (by decide +kernel)
  exact ⟨tr, s, hrun, hbytes, console_line_discipline hrun⟩

/-- A reader that is killed takes what it has stored with it: 128 characters without the end
of a line are committed as there is no room for more, a call consumes them and sleeps, its
process is killed, and the next call returns what was typed after them. -/
theorem killed_reader_loses_line : ∃ tr s,
    Trace.Run State.Init (Trace.Next (State.next (T := Fin 2))) tr s ∧
      OneAtATime (Trace.events tr) ∧ (∀ t, s.call t = none) ∧
      ¬returnedBytes (Trace.events tr) <+: (Editor.after tr).committed := by
  obtain ⟨tr, s, hrun, hone, hfree, hnot⟩ := Trace.exec_reaches (f := State.next) start_init
    [.key (List.replicate 128 97), .read 0 200 false, .wake 0 true, .key [98, 10],
      .read 1 200 false]
    (fun tr s => OneAtATime (Trace.events tr) ∧ (∀ t, (s.call t).isNone) ∧
      ¬returnedBytes (Trace.events tr) <+: (Editor.after tr).committed) (by decide +kernel)
  exact ⟨tr, s, hrun, hone, fun t => Option.isNone_iff_eq_none.mp (hfree t), hnot⟩

end Console

end Xv6
