import Xv6.Pipe.Model

/-!
# The stream of a pipe

Whatever readers and writers do, and however often the counters wrap around, the bytes that
were delivered are a beginning of those that were stored, and the rest is in the buffer. A step
stores one byte, delivers one, or leaves the buffer alone (`Flow`).
-/

namespace Xv6

namespace Pipes

def Event.storedByte {T : Type} : Event T → Option Byte
  | .stored x => some x
  | _ => none

def Event.deliveredByte {T : Type} : Event T → Option Byte
  | .delivered x => some x
  | _ => none

/-- The bytes stored by all calls of `pipewrite`, in order. -/
def storedBytes {T : Type} (es : List (Event T)) : List Byte := es.filterMap Event.storedByte

/-- The bytes delivered by all calls of `piperead`, in order. -/
def deliveredBytes {T : Type} (es : List (Event T)) : List Byte :=
  es.filterMap Event.deliveredByte

inductive Flow {T : Type} (b b' : Buffer) : Option (Event T) → Prop
  | quiet {o : Option (Event T)} (data : b'.data = b.data) (nread : b'.nread = b.nread)
      (nwrite : b'.nwrite = b.nwrite) (stored : storedBytes o.toList = [])
      (delivered : deliveredBytes o.toList = []) : Flow b b' o
  | store (x : Byte) (room : b.full = false) (eq : b' = b.store x) : Flow b b' (some (.stored x))
  | deliver (some_left : b.empty = false) (eq : b' = { b with nread := b.nread + 1 }) :
      Flow b b' (some (.delivered b.front))

namespace State

variable {T : Type} [DecidableEq T] {s s' : State T} {t : T} {o : Option (Event T)}

omit [DecidableEq T] in
theorem flow_same (h : s'.pipe = s.pipe) : Flow s.pipe s'.pipe (none : Option (Event T)) :=
  .quiet (by rw [h]) (by rw [h]) (by rw [h]) rfl rfl

theorem acquire_flow {k : Pc} (h : s.acquire t k = some (s', o)) : Flow s.pipe s'.pipe o := by
  obtain ⟨-, hr⟩ := of_acquire h
  cases hr
  exact flow_same rfl

theorem wakeup_flow {c : Chan} {k : Pc} (h : s.wakeup t c k = some (s', o)) :
    Flow s.pipe s'.pipe o := by
  obtain ⟨-, hr⟩ := of_wakeup h
  cases hr
  exact flow_same rfl

theorem sleep_flow {k : Pc} (h : s.sleep t k = some (s', o)) : Flow s.pipe s'.pipe o := by
  obtain ⟨-, hr⟩ := of_sleep h
  cases hr
  exact flow_same rfl

theorem ret_flow {r : Int} (h : s.ret t r = some (s', o)) : Flow s.pipe s'.pipe o := by
  cases h
  exact .quiet rfl rfl rfl rfl rfl

theorem pipewrite_flow {src : Nat → Byte} {n : Int} {k : WriteAt}
    (h : s.pipewrite t src n k = some (s', o)) : Flow s.pipe s'.pipe o := by
  cases k with
  | acquire i => exact acquire_flow h
  | loop i stored =>
    dsimp only [pipewrite] at h
    split at h
    · split at h
      · split at h
        · exact ret_flow h
        · cases h
          exact flow_same rfl
      · next hroom =>
        cases h
        exact .store (src i) (Bool.not_eq_true _ ▸ hroom) rfl
    · cases h
      exact flow_same rfl
  | full _ | last => exact wakeup_flow h
  | sleep i => exact sleep_flow h
  | falling i =>
    cases h
    exact flow_same rfl
  | done => exact ret_flow h

theorem piperead_flow {n : Int} {k : ReadAt} (h : s.piperead t n k = some (s', o)) :
    Flow s.pipe s'.pipe o := by
  cases k with
  | acquire => exact acquire_flow h
  | test =>
    dsimp only [piperead] at h
    split at h
    · split at h
      · exact ret_flow h
      · cases h
        exact flow_same rfl
    · cases h
      exact flow_same rfl
  | sleep => exact sleep_flow h
  | falling =>
    cases h
    exact flow_same rfl
  | copy i =>
    dsimp only [piperead] at h
    split at h
    · next hc =>
      cases h
      exact .deliver hc.2 rfl
    · cases h
      exact flow_same rfl
  | last i => exact wakeup_flow h
  | done i => exact ret_flow h

theorem pipeclose_flow {e : End} {k : CloseAt} (h : s.pipeclose t e k = some (s', o)) :
    Flow s.pipe s'.pipe o := by
  cases k with
  | acquire => exact acquire_flow h
  | shut =>
    cases h
    cases e with
    | reader | writer => exact .quiet rfl rfl rfl rfl rfl
  | wakeup => exact wakeup_flow h
  | test =>
    dsimp only [pipeclose] at h
    split at h
    · cases h
      exact flow_same rfl
    · cases h
      exact flow_same rfl
  | free =>
    cases h
    exact .quiet rfl rfl rfl rfl rfl

theorem run_flow (h : s.run t = some (s', o)) : Flow s.pipe s'.pipe o := by
  unfold run at h
  split at h
  · cases h
  · exact pipewrite_flow h
  · exact piperead_flow h
  · exact pipeclose_flow h

variable [Fintype T] {a : Action T}

theorem close_pipe (s : State T) (t : T) (e : End) : (s.close t e).pipe = s.pipe := by
  unfold close
  dsimp only
  split
  · rfl
  · rfl

theorem next_flow (h : s.next a = some (s', o)) : Flow s.pipe s'.pipe o := by
  cases a with
  | run t =>
    dsimp only [next] at h
    split at h
    · exact run_flow h
    · cases h
  | kill t =>
    cases h
    exact flow_same rfl
  | close t e =>
    dsimp only [next] at h
    split at h
    · cases h
      exact flow_same (close_pipe s t e)
    · cases h
  | write t src n | read t n | dup t e | fork t u =>
    dsimp only [next] at h
    split at h
    · cases h
      exact flow_same rfl
    · cases h

end State

def Streams {T : Type} (es : List (Event T)) (b : Buffer) : Prop :=
  ∃ rest, storedBytes es = deliveredBytes es ++ rest ∧
    Cyclic.Holds b.data b.nread b.nwrite rest

section Step

variable {T : Type} {es : List (Event T)} {b b' : Buffer} {o : Option (Event T)}

theorem PIPESIZE_dvd : PIPESIZE.toNat ∣ 2 ^ 32 := by decide

theorem PIPESIZE_lt : PIPESIZE.toNat < 2 ^ 32 := by decide

theorem storedBytes_append (es es' : List (Event T)) :
    storedBytes (es ++ es') = storedBytes es ++ storedBytes es' :=
  List.filterMap_append

theorem deliveredBytes_append (es es' : List (Event T)) :
    deliveredBytes (es ++ es') = deliveredBytes es ++ deliveredBytes es' :=
  List.filterMap_append

theorem Streams.step (h : Streams es b) (hf : Flow b b' o) : Streams (es ++ o.toList) b' := by
  obtain ⟨rest, hs, hq⟩ := h
  unfold Streams
  rw [storedBytes_append, deliveredBytes_append]
  cases hf with
  | quiet data nread nwrite stored delivered =>
    refine ⟨rest, ?_, ?_⟩
    · rwa [stored, delivered, List.append_nil, List.append_nil]
    · rwa [data, nread, nwrite]
  | store x room eq =>
    have hlt : rest.length < PIPESIZE.toNat := by
      refine Nat.lt_of_le_of_ne hq.length_le fun hlen => ?_
      have hfull : b.nwrite = b.nread + PIPESIZE := (hq.full_iff PIPESIZE_lt).mpr hlen
      exact of_decide_eq_false room hfull
    subst eq
    refine ⟨rest ++ [x], ?_, hq.push PIPESIZE_dvd hlt x⟩
    change storedBytes es ++ [x] = (deliveredBytes es ++ []) ++ (rest ++ [x])
    rw [hs, List.append_nil, List.append_assoc]
  | deliver some_left eq =>
    have hne : rest ≠ [] := fun hnil =>
      of_decide_eq_false some_left ((hq.empty_iff PIPESIZE_lt).mpr hnil)
    obtain ⟨x, rest, rfl⟩ := List.exists_cons_of_ne_nil hne
    obtain ⟨hx, hq'⟩ := hq.pop
    subst eq
    refine ⟨rest, ?_, hq'⟩
    change storedBytes es ++ [] = (deliveredBytes es ++ [b.front]) ++ rest
    rw [hs, show b.front = x from hx, List.append_nil, List.append_assoc]
    rfl

end Step

section Runs

variable {T : Type} [Fintype T] [DecidableEq T]

theorem run_streams {tr : List (Action T × Option (Event T))} {s : State T}
    (h : Trace.Run State.Init (Trace.Next State.next) tr s) :
    Streams (Trace.events tr) s.pipe := by
  refine Trace.Run.history (I := fun tr s => Streams (Trace.events tr) s.pipe) ?_ ?_ h
  · intro s hs
    refine ⟨[], rfl, ?_⟩
    rw [hs.nread, hs.nwrite]
    exact .nil _ _
  · intro tr s l s' ih hstep
    rw [Trace.events_snoc]
    exact ih.step (State.next_flow hstep)

/-- After any run, at most `PIPESIZE` bytes are in the pipe, and the bytes stored are the
bytes delivered and then those in the cells from `nread` up to `nwrite`. -/
theorem pipe_stream_intact {tr : List (Action T × Option (Event T))} {s : State T}
    (h : Trace.Run State.Init (Trace.Next State.next) tr s) :
    (s.pipe.nwrite - s.pipe.nread).toNat ≤ PIPESIZE.toNat ∧
      storedBytes (Trace.events tr) = deliveredBytes (Trace.events tr) ++
        (List.range (s.pipe.nwrite - s.pipe.nread).toNat).map fun i =>
          s.pipe.data (Cyclic.cell PIPESIZE.toNat (s.pipe.nread + BitVec.ofNat 32 i)) := by
  obtain ⟨rest, hs, hq⟩ := run_streams h
  rw [hq.length_eq PIPESIZE_lt]
  refine ⟨hq.length_le, ?_⟩
  rw [hs]
  congr 1
  exact hq.eq_map

theorem pipe_stream_of_three : ∃ tr s,
    Trace.Run State.Init (Trace.Next (State.next (T := Fin 2))) tr s ∧
      storedBytes (Trace.events tr) = [7, 8, 9] ∧ deliveredBytes (Trace.events tr) = [7, 8] ∧
      storedBytes (Trace.events tr) = deliveredBytes (Trace.events tr) ++
        (List.range (s.pipe.nwrite - s.pipe.nread).toNat).map fun i =>
          s.pipe.data (Cyclic.cell PIPESIZE.toNat (s.pipe.nread + BitVec.ofNat 32 i)) := by
  obtain ⟨tr, s, hrun, hs, hd⟩ := Trace.exec_reaches (f := State.next) (start_init 0)
    ([.write 0 (fun i => BitVec.ofNat 8 (7 + i)) 3] ++ List.replicate 7 (.run 0) ++ [.read 1 2] ++
      List.replicate 5 (.run 1))
    (fun tr _ => storedBytes (Trace.events tr) = [7, 8, 9] ∧
      deliveredBytes (Trace.events tr) = [7, 8]) (by decide +kernel)
  exact ⟨tr, s, hrun, hs, hd, (pipe_stream_intact hrun).2⟩

end Runs

end Pipes

end Xv6
