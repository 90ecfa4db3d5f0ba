import Xv6.Log.Replay

/-!
# Crash atomicity

At every moment the log on disk stands for the disk after some of the transactions, all
of each: those whose `commit` has returned, and perhaps the last one. This is what a
crash leaves and what `recover_from_log`, with any number of crashes of its own, brings
home.
-/

namespace Xv6

namespace LogDisk

variable {s : LogDisk} {b : Nat} {x : Block} {rec : Bool} {tail : Nat}

/-! ## The phases of a commit and of a recovery -/

def after (s : LogDisk) (k : Nat) : Nat → Block := (s.txns.take k).foldl Redo.overlay s.base

/-- The log on disk stands for the first `k` transactions, among them those whose
`commit` has returned. -/
structure Sees (s : LogDisk) (k : Nat) : Prop where
  returned : s.returned ≤ k
  bound : k ≤ s.txns.length
  replay : ∀ {b}, Home s.log b → s.replay b = s.after k b

/-- In `commit`, before the header is written. -/
structure Writing (s : LogDisk) : Prop where
  head : s.head = []
  txns : ∃ ts, s.txns = ts ++ [s.txn] ∧ ts.length = s.returned
  sees : s.Sees s.returned

/-- What the log stands for once the header has been written, or after a crash. -/
def Settled (s : LogDisk) (rec : Bool) : Prop :=
  ∃ k, s.Sees k ∧ (rec = false → k = s.txns.length ∧ k = s.returned + 1)

def Stage (s : LogDisk) : Phase → Prop
  | .run => s.head = [] ∧ s.Sees s.txns.length ∧ s.returned = s.txns.length
  | .commit => s.Writing
  | .writeLog tail => s.Writing ∧ s.Copied tail
  | .writeHead => s.Writing ∧ s.Copied s.log.lh.length
  | .install rec tail => s.head = s.log.lh ∧ s.Settled rec ∧ s.Installed tail
  | .clear rec => s.head = s.log.lh ∧ s.Settled rec ∧ s.Installed s.log.lh.length
  | .eraseHead rec => s.log.lh = [] ∧ s.Settled rec ∧ s.replay = s.disk
  | .readHead => ∃ k, s.Sees k
  | .recovered => s.head = [] ∧ ∃ k, s.Sees k

def pinned (lh : List Nat) : Phase → List Nat
  | .run | .commit | .writeLog _ | .writeHead => lh
  | .install false tail => lh.drop tail
  | _ => []

structure At (s : LogDisk) (ph : Phase) : Prop where
  header : 0 < s.log.size
  listed : Listed s.log s.log.lh
  head : Listed s.log s.head
  cached : Cached s (pinned s.log.lh ph)
  stage : s.Stage ph

abbrev Inv (s : LogDisk) : Prop := At s s.phase

variable {ph : Phase}

theorem Stage.sees (h : s.Stage ph) : ∃ k, s.Sees k := by
  cases ph with
  | run => exact ⟨_, h.2.1⟩
  | commit => exact ⟨_, Writing.sees h⟩
  | writeLog | writeHead => exact ⟨_, h.1.sees⟩
  | install | clear | eraseHead =>
    obtain ⟨k, hk, -⟩ := h.2.1
    exact ⟨k, hk⟩
  | readHead => exact h
  | recovered => exact h.2

theorem Stage.congr {ph ph' : Phase} {cache : Nat → Option Buf}
    (hread : ∀ b, { s with cache := cache, phase := ph' }.bread b = s.bread b)
    (h : s.Stage ph) : { s with cache := cache, phase := ph' }.Stage ph := by
  have hcopied : ∀ {tail}, s.Copied tail →
      { s with cache := cache, phase := ph' }.Copied tail := by
    intro tail hc i b hi hb
    rw [hread]
    exact hc hi hb
  have hsees : ∀ {k}, s.Sees k → { s with cache := cache, phase := ph' }.Sees k :=
    fun hk => ⟨hk.returned, hk.bound, hk.replay⟩
  have hwriting : s.Writing → { s with cache := cache, phase := ph' }.Writing := by
    intro hw
    have htxn : { s with cache := cache, phase := ph' }.txn = s.txn := by
      unfold txn
      simp only [hread]
    refine ⟨hw.head, ?_, hsees hw.sees⟩
    rw [htxn]
    exact hw.txns
  cases ph with
  | run => exact ⟨h.1, hsees h.2.1, h.2.2⟩
  | commit => exact hwriting h
  | writeLog | writeHead => exact ⟨hwriting h.1, hcopied h.2⟩
  | install | clear | eraseHead =>
    obtain ⟨hl, ⟨k, hk, hrec⟩, hi⟩ := h
    exact ⟨hl, ⟨k, hsees hk, hrec⟩, hi⟩
  | readHead => exact h.imp fun k => hsees
  | recovered => exact ⟨h.1, h.2.imp fun k => hsees⟩

theorem At.enter (h : At s ph) : Inv { s with phase := ph } :=
  ⟨h.header, h.listed, h.head, ⟨h.cached.clean, h.cached.dirty⟩, h.stage.congr fun _ => rfl⟩

/-! ## Steps of a commit -/

theorem after_snoc {ts : List Txn} {t : Txn} (h : s.txns = ts ++ [t]) :
    s.after (ts.length + 1) = Redo.overlay (s.after ts.length) t := by
  unfold after
  rw [h, List.take_left, List.take_of_length_le (by simp), List.foldl_append]
  rfl

theorem Writing.writeLogBlock (h : s.Writing) (hl : Listed s.log s.log.lh)
    (hb : s.log.lh[tail]? = some b) : (s.writeLogBlock tail b).Writing := by
  have hin := hl.inside hb
  have hhead : (s.writeLogBlock tail b).head = [] := by
    rw [← h.head]
    unfold LogDisk.head LogDisk.writeLogBlock
    rw [bwrite_log, bwrite_disk, Function.update_of_ne (by rw [load_log]; omega)]
    rfl
  have htxn : (s.writeLogBlock tail b).txn = s.txn := by
    refine List.map_congr_left fun c hc => ?_
    have hne := hl.ne hb (hl.home c hc)
    rw [LogDisk.writeLogBlock, bread_bwrite_of_ne hne, bread_load]
  refine ⟨hhead, ?_, h.sees.returned, h.sees.bound, fun {c} hc => ?_⟩
  · rw [htxn]
    exact h.txns
  · rw [replay_of_head_nil hhead]
    have hsame := h.sees.replay hc
    rw [replay_of_head_nil h.head] at hsame
    have hdisk : (s.writeLogBlock tail b).disk c = s.disk c :=
      disk_bwrite_inside (s := s.load b) hc (by rw [load_log]; omega) hin
    exact hdisk.trans hsame

theorem Copied.writeLogBlock (h : s.Copied tail) (hl : Listed s.log s.log.lh)
    (hb : s.log.lh[tail]? = some b) : (s.writeLogBlock tail b).Copied (tail + 1) := by
  intro i c hi hc
  have hc' : s.log.lh[i]? = some c := hc
  have hread : (s.writeLogBlock tail b).bread c = s.bread c := by
    have hne := hl.ne hb (hl.home_get hc')
    rw [LogDisk.writeLogBlock, bread_bwrite_of_ne hne, bread_load]
  rw [hread]
  by_cases hit : i = tail
  · subst hit
    rw [hb] at hc'
    cases hc'
    exact Function.update_self _ _ _
  · have hdisk : (s.writeLogBlock tail b).disk (s.log.start + i + 1) =
        s.disk (s.log.start + i + 1) := Function.update_of_ne (by omega) _ _
    exact hdisk.trans (h (by omega) hc')

theorem Writing.writeHead (h : s.Writing) (hl : Listed s.log s.log.lh)
    (hc : s.Copied s.log.lh.length) : s.writeHead.Settled false := by
  obtain ⟨ts, htxns, hlen⟩ := h.txns
  have htotal : s.txns.length = s.returned + 1 := by
    rw [htxns, List.length_append, hlen]
    rfl
  refine ⟨s.returned + 1, ⟨Nat.le_succ _, htotal.ge, fun {b} hb => ?_⟩,
    fun _ => ⟨htotal.symm, rfl⟩⟩
  have hstart : s.writeHead.disk b = s.disk b :=
    disk_bwrite_inside hb (Nat.le_refl _) (by have := hl.length_lt; omega)
  have hold : s.disk b = s.after s.returned b := by
    rw [← replay_of_head_nil h.head]
    exact h.sees.replay hb
  have hafter : s.after (s.returned + 1) = Redo.overlay (s.after s.returned) s.txn := by
    rw [← hlen]
    exact after_snoc htxns
  calc s.writeHead.replay b
      = Redo.overlay s.writeHead.disk s.txn b := by rw [replay, logged_writeHead hl hc]
    _ = Redo.overlay (s.after s.returned) s.txn b := Redo.overlay_congr (hstart.trans hold)
    _ = s.after (s.returned + 1) b := by rw [hafter]

/-! ## Steps of a commit and of a recovery -/

section Install

variable (hl : Listed s.log s.log.lh) (hhead : s.head = s.log.lh)
  (hb : s.log.lh[tail]? = some b)
  (hread : s.bread (s.log.start + tail + 1) = s.disk (s.log.start + tail + 1))

include hhead hb hread in
theorem installed_mem_logged : (b, s.bread (s.log.start + tail + 1)) ∈ s.logged :=
  mem_logged.mpr ⟨tail, by rw [hhead]; exact hb, hread.symm⟩

include hl hb in
theorem head_installBlock : (s.installBlock tail b).head = s.head := by
  have hstart : s.log.start ≠ b :=
    ((hl.home_get hb).ne (Nat.le_refl _) (by have := hl.length_lt; omega)).symm
  unfold head LogDisk.installBlock
  rw [bwrite_log, bwrite_disk, load_log, load_disk, Function.update_of_ne hstart]

include hl hhead hb hread in
theorem Settled.installBlock (h : s.Settled rec) : (s.installBlock tail b).Settled rec := by
  obtain ⟨k, hk, hrec⟩ := h
  refine ⟨k, ⟨hk.returned, hk.bound, fun {c} hc => ?_⟩, hrec⟩
  have hsame : (s.installBlock tail b).replay = s.replay :=
    replay_bwrite (s := s.load _) (by rw [← hhead] at hl; exact hl)
      (installed_mem_logged hhead hb hread)
  rw [hsame]
  exact hk.replay hc

include hl hb hread in
theorem Installed.installBlock (h : s.Installed tail) :
    (s.installBlock tail b).Installed (tail + 1) := by
  intro i c hi hc
  have hc' : s.log.lh[i]? = some c := hc
  have hlog : (s.installBlock tail b).disk (s.log.start + i + 1) = s.disk (s.log.start + i + 1) :=
    Function.update_of_ne (hl.ne hc' (hl.home_get hb)).symm _ _
  by_cases hcb : c = b
  · subst hcb
    obtain ⟨_, hci⟩ := List.getElem?_eq_some_iff.mp hc'
    obtain ⟨_, hct⟩ := List.getElem?_eq_some_iff.mp hb
    have hit : i = tail := hl.nodup.getElem_inj_iff.mp (hci.trans hct.symm)
    subst hit
    refine Eq.trans ?_ hlog.symm
    exact (Function.update_self _ _ _).trans hread
  · have hne : i ≠ tail := by
      rintro rfl
      rw [hb] at hc'
      exact hcb (Option.some.inj hc').symm
    have hdisk : (s.installBlock tail b).disk c = s.disk c := Function.update_of_ne hcb _ _
    rw [hdisk, h (by omega) hc']
    exact hlog.symm

end Install

theorem Sees.erase {k : Nat} (h : s.Sees k) (hsize : 0 < s.log.size) (hlh : s.log.lh = [])
    (hr : s.replay = s.disk) : s.writeHead.head = [] ∧ s.writeHead.Sees k := by
  have hhead : s.writeHead.head = [] := by
    rw [head_writeHead (by rw [hlh]; exact .nil hsize), hlh]
  refine ⟨hhead, h.returned, h.bound, fun {b} hb => ?_⟩
  rw [replay_of_head_nil hhead]
  have hdisk : s.writeHead.disk b = s.disk b :=
    disk_bwrite_inside hb (Nat.le_refl _) (by omega)
  rw [hdisk, ← hr]
  exact h.replay hb

/-! ## Every step keeps the invariant -/

theorem Inv.of_init {sb : Superblock} (h : Init sb s) : Inv s := by
  have hsize : 0 < s.log.size := by
    rw [h.log]
    exact h.header
  have hlh : s.log.lh = [] := by rw [h.log]; rfl
  have hhead : s.head = [] := by
    have hn : s.head.length = 0 := by
      unfold LogDisk.head
      rw [Block.entries_length, h.log]
      exact h.head
    exact List.eq_nil_of_length_eq_zero hn
  refine ⟨hsize, by rw [hlh]; exact .nil hsize, by rw [hhead]; exact .nil hsize, ?_, ?_⟩
  · refine ⟨fun {b buf} hc _ => ?_, fun {b buf} hc _ => ?_⟩ <;>
    · rw [h.cache] at hc
      cases hc
  · rw [h.phase]
    refine ⟨hhead, ⟨?_, Nat.le_refl _, fun {b} _ => ?_⟩, ?_⟩
    · rw [h.returned]
      exact Nat.zero_le _
    · rw [replay_of_head_nil hhead, after, h.txns, h.base]
      rfl
    · rw [h.returned, h.txns, List.length_nil]

theorem Listed.record {l : Log} (h : Listed l l.lh) (hb : Home l b) (hroom : Room (l.record b)) :
    Listed (l.record b) (l.record b).lh := by
  refine ⟨Log.nodup_record h.nodup, fun c hc => ?_, hroom.1, hroom.2⟩
  unfold Home
  rw [Log.record_start, Log.record_size]
  rcases Log.mem_record.mp hc with hc | rfl
  · exact h.home c hc
  · exact hb

theorem At.logWrite (h : At s .run) (hb : Home s.log b) (hroom : Room (s.log.record b)) :
    At (s.logWrite b x) .run := by
  obtain ⟨hnil, hsees, hret⟩ := h.stage
  have hhead : (s.logWrite b x).head = [] := by
    rw [← hnil]
    unfold LogDisk.head LogDisk.logWrite
    rw [Log.record_start]
  have hsize : 0 < (s.logWrite b x).log.size := by
    refine Nat.lt_of_lt_of_eq h.header ?_
    exact (Log.record_size _ _).symm
  refine ⟨hsize, h.listed.record hb hroom, by rw [hhead]; exact .nil hsize,
    h.cached.logWrite, hhead, ⟨hsees.returned, hsees.bound, fun {c} hc => ?_⟩, hret⟩
  have hc' : Home s.log c := by
    unfold Home LogDisk.logWrite at hc
    rwa [Log.record_start, Log.record_size] at hc
  have hold := hsees.replay hc'
  rw [replay_of_head_nil hhead]
  rwa [replay_of_head_nil hnil] at hold

theorem At.commit (h : At s .run) : At { s with txns := s.txns ++ [s.txn] } .commit := by
  obtain ⟨hnil, hsees, hret⟩ := h.stage
  refine ⟨h.header, h.listed, h.head, ⟨h.cached.clean, h.cached.dirty⟩,
    hnil, ⟨s.txns, rfl, hret.symm⟩, Nat.le_refl _, ?_, fun {c} hc => ?_⟩
  · show s.returned ≤ (s.txns ++ [s.txn]).length
    rw [List.length_append]
    omega
  · have hold := hsees.replay hc
    unfold after at hold ⊢
    rw [List.take_length] at hold
    rwa [hret, List.take_left]

theorem At.returns_empty (h : At s .commit) (hlh : s.log.lh = []) :
    At { s with returned := s.returned + 1 } .run := by
  obtain ⟨hnil, ⟨ts, htxns, hlen⟩, hsees⟩ := h.stage
  have htotal : s.txns.length = s.returned + 1 := by
    rw [htxns, List.length_append, hlen]
    rfl
  refine ⟨h.header, h.listed, h.head, ⟨h.cached.clean, h.cached.dirty⟩,
    hnil, ⟨htotal.ge, Nat.le_refl _, fun {c} hc => ?_⟩, htotal.symm⟩
  have htxn : s.txn = [] := by rw [txn, hlh]; rfl
  have hafter : s.after s.txns.length = s.after s.returned := by
    rw [htotal, ← hlen, after_snoc htxns, htxn]
    rfl
  exact (hsees.replay hc).trans (congrFun hafter c).symm

theorem At.writeLogBlock (h : At s (.writeLog tail)) (hb : s.log.lh[tail]? = some b) :
    At (s.writeLogBlock tail b) (.writeLog (tail + 1)) := by
  obtain ⟨hw, hc⟩ := h.stage
  have hw' := hw.writeLogBlock h.listed hb
  refine ⟨h.header, h.listed, by rw [hw'.head]; exact .nil h.header, ?_,
    hw', hc.writeLogBlock h.listed hb⟩
  exact h.cached.load.bwrite fun c hc _ => hc

theorem At.writeHead (h : At s .writeHead) : At s.writeHead (.install false 0) := by
  obtain ⟨hw, hc⟩ := h.stage
  have hhead := head_writeHead h.listed
  refine ⟨h.header, h.listed, by rw [hhead]; exact h.listed, ?_,
    hhead, hw.writeHead h.listed hc, fun hi => absurd hi (Nat.not_lt_zero _)⟩
  exact h.cached.bwrite fun c hc _ => hc

theorem At.bread_inside {c : Nat} (h : At s ph) (hl : s.log.start ≤ c)
    (hu : c < s.log.start + s.log.size) : s.bread c = s.disk c := by
  refine h.cached.bread_eq fun hc => ?_
  have hmem : c ∈ s.log.lh := by
    unfold pinned at hc
    split at hc
    iterate 4 exact hc
    · exact List.mem_of_mem_drop hc
    · cases hc
  exact (h.listed.home c hmem).ne hl hu rfl

theorem At.installBlock (h : At s (.install rec tail)) (hb : s.log.lh[tail]? = some b) :
    At (s.installBlock tail b) (.install rec (tail + 1)) := by
  obtain ⟨hhead, hset, hinst⟩ := h.stage
  have hread := h.bread_inside (c := s.log.start + tail + 1) (by omega) (h.listed.inside hb)
  have hhead' := head_installBlock h.listed hb
  refine ⟨h.header, h.listed, by rw [hhead']; exact h.head, ?_, hhead'.trans hhead,
    hset.installBlock h.listed hhead hb hread, hinst.installBlock h.listed hb hread⟩
  refine h.cached.load.bwrite fun c hc hne => ?_
  cases rec with
  | true => exact hc
  | false =>
    obtain ⟨hlt, hget⟩ := List.getElem?_eq_some_iff.mp hb
    have hdrop : c ∈ s.log.lh.drop tail := hc
    rw [List.drop_eq_getElem_cons hlt, hget, List.mem_cons] at hdrop
    exact hdrop.resolve_left hne

theorem At.clear (h : At s (.clear rec)) :
    At { s with log := { s.log with lh := [] } } (.eraseHead rec) := by
  obtain ⟨hhead, ⟨k, hk, hrec⟩, hinst⟩ := h.stage
  have hr : s.replay = s.disk := replay_of_installed h.head.nodup hhead hinst
  exact ⟨h.header, .nil h.header,
    ⟨h.head.nodup, h.head.home, h.head.length_lt, h.head.length_le⟩,
    ⟨h.cached.clean, h.cached.dirty⟩, rfl, ⟨k, ⟨hk.returned, hk.bound, hk.replay⟩, hrec⟩, hr⟩

theorem At.returns (h : At s (.eraseHead false)) :
    At { s.writeHead with returned := s.returned + 1 } .run := by
  obtain ⟨hlh, ⟨k, hk, hrec⟩, hr⟩ := h.stage
  obtain ⟨hlen, hret⟩ := hrec rfl
  subst hlen
  obtain ⟨hhead, hsees⟩ := hk.erase h.header hlh hr
  have hcached : Cached s.writeHead s.log.lh := h.cached.bwrite fun c hc _ => by cases hc
  have hlisted : Listed s.log s.writeHead.head := hhead ▸ .nil h.header
  exact ⟨h.header, h.listed, hlisted, ⟨hcached.clean, hcached.dirty⟩,
    hhead, ⟨hret.ge, Nat.le_refl _, hsees.replay⟩, hret.symm⟩

theorem At.recovered (h : At s (.eraseHead true)) : At s.writeHead .recovered := by
  obtain ⟨hlh, ⟨k, hk, -⟩, hr⟩ := h.stage
  obtain ⟨hhead, hsees⟩ := hk.erase h.header hlh hr
  have hlisted : Listed s.log s.writeHead.head := hhead ▸ .nil h.header
  exact ⟨h.header, h.listed, hlisted, h.cached.bwrite fun c hc _ => hc, hhead, k, hsees⟩

theorem At.readHead (h : At s .readHead) :
    At { s.load s.log.start with log := { s.log with lh := (s.bread s.log.start).entries } }
      (.install true 0) := by
  obtain ⟨k, hk⟩ := h.stage
  have hread : (s.bread s.log.start).entries = s.head := by
    rw [h.bread_inside (Nat.le_refl _) (by have := h.header; omega)]
    rfl
  have hload := h.cached.load (b := s.log.start)
  rw [hread]
  refine ⟨h.header, ?_, ?_, ⟨hload.clean, hload.dirty⟩, rfl,
    ⟨k, ⟨hk.returned, hk.bound, hk.replay⟩, fun hf => by cases hf⟩,
    fun hi => absurd hi (Nat.not_lt_zero _)⟩ <;>
  exact ⟨h.head.nodup, h.head.home, h.head.length_lt, h.head.length_le⟩

variable {s' : LogDisk}

theorem At.turn (h : At s ph) (ht : s.turn ph = some s') : Inv s' := by
  cases ph with
  | run | recovered => cases ht
  | commit =>
    rw [LogDisk.turn] at ht
    split at ht
    · cases ht
      have hw : At s (.writeLog 0) :=
        ⟨h.header, h.listed, h.head, h.cached, h.stage, fun hi => absurd hi (Nat.not_lt_zero _)⟩
      exact hw.enter
    · next hlen =>
      cases ht
      exact (h.returns_empty (List.eq_nil_of_length_eq_zero (by omega))).enter
  | writeLog tail =>
    rw [LogDisk.turn] at ht
    split at ht
    · next b hb =>
      cases ht
      exact (h.writeLogBlock hb).enter
    · next hnone =>
      cases ht
      have hle := List.getElem?_eq_none_iff.mp hnone
      have hw : At s .writeHead := ⟨h.header, h.listed, h.head, h.cached, h.stage.1,
        fun hi hb => h.stage.2 (by omega) hb⟩
      exact hw.enter
  | writeHead =>
    cases ht
    exact h.writeHead.enter
  | install rec tail =>
    rw [LogDisk.turn] at ht
    split at ht
    · next b hb =>
      cases ht
      exact (h.installBlock hb).enter
    · next hnone =>
      cases ht
      have hle := List.getElem?_eq_none_iff.mp hnone
      have hpins : Cached s [] := by
        have hc := h.cached
        cases rec with
        | true => exact hc
        | false =>
          rwa [pinned, List.drop_eq_nil_of_le hle] at hc
      have hw : At s (.clear rec) := ⟨h.header, h.listed, h.head, hpins, h.stage.1, h.stage.2.1,
        fun hi hb => h.stage.2.2 (by omega) hb⟩
      exact hw.enter
  | clear rec =>
    cases ht
    exact h.clear.enter
  | eraseHead rec =>
    cases rec with
    | true =>
      cases ht
      exact h.recovered.enter
    | false =>
      cases ht
      exact h.returns.enter
  | readHead =>
    cases ht
    exact h.readHead.enter

theorem Inv.crash (h : Inv s) :
    Inv { s with cache := fun _ => none, log := { s.log with lh := [] }, phase := .readHead } := by
  obtain ⟨k, hk⟩ := h.stage.sees
  refine ⟨h.header, .nil h.header,
    ⟨h.head.nodup, h.head.home, h.head.length_lt, h.head.length_le⟩, ⟨?_, ?_⟩,
    k, hk.returned, hk.bound, hk.replay⟩ <;>
  · intro b buf hc
    cases hc

theorem At.boot (h : At s .recovered) :
    At { s with base := s.disk, txns := [], returned := 0 } .run := by
  obtain ⟨hhead, -⟩ := h.stage
  have hpins : Cached s s.log.lh := ⟨h.cached.clean, fun hc hd => by cases h.cached.dirty hc hd⟩
  refine ⟨h.header, h.listed, h.head, ⟨hpins.clean, hpins.dirty⟩, hhead,
    ⟨Nat.le_refl _, Nat.le_refl _, fun {b} _ => ?_⟩, rfl⟩
  exact congrFun (replay_of_head_nil hhead) b

theorem Inv.step {a : Act} (h : Inv s) (hs : s.step a = some s') : Inv s' := by
  cases a with
  | logWrite b x =>
    rw [LogDisk.step] at hs
    split at hs
    · next hc =>
      cases hs
      obtain ⟨hrun, hb, hroom⟩ := hc
      have hphase : (s.logWrite b x).phase = .run := hrun
      rw [Inv, hrun] at h
      rw [Inv, hphase]
      exact h.logWrite hb hroom
    · cases hs
  | commit =>
    rw [LogDisk.step] at hs
    split at hs
    · next hrun =>
      cases hs
      rw [Inv, hrun] at h
      exact h.commit.enter
    · cases hs
  | run => exact h.turn hs
  | load b =>
    cases hs
    exact ⟨h.header, h.listed, h.head, h.cached.load, h.stage.congr fun _ => bread_load ..⟩
  | evict b =>
    rw [LogDisk.step] at hs
    split at hs
    · next buf hc =>
      split at hs
      · cases hs
      · next hd =>
        cases hs
        have hd := Bool.eq_false_of_not_eq_true hd
        exact ⟨h.header, h.listed, h.head, h.cached.evict,
          h.stage.congr (h.cached.bread_evict hc hd)⟩
    · cases hs
  | crash =>
    cases hs
    exact h.crash
  | boot =>
    rw [LogDisk.step] at hs
    split at hs
    · next hrec =>
      cases hs
      rw [Inv, hrec] at h
      exact h.boot.enter
    · cases hs

theorem Run.inv {sb : Superblock} {tr : List (Act × Unit)} (h : Run sb tr s) : Inv s := by
  refine Trace.Run.invariant (I := Inv) (fun s hs => .of_init hs) ?_ h
  intro s l s' hi hs
  obtain ⟨s₁, hs₁, heq⟩ := Option.map_eq_some_iff.mp hs
  cases heq
  exact hi.step hs₁

/-! ## Recovery -/

/-- After `n` steps of its own `recover_from_log` has returned. -/
def Returns (s : LogDisk) (n : Nat) : Prop :=
  ∃ tr s', Trace.exec next s (List.replicate n .run) = some (tr, s') ∧ s'.phase = .recovered

theorem Returns.turn {n : Nat} (h : Returns s' n)
    (ht : s.turn s.phase = some s') : Returns s (n + 1) := by
  obtain ⟨tr, s₁, hexec, hrec⟩ := h
  refine ⟨(.run, ()) :: tr, s₁, ?_, hrec⟩
  have hnext : next s .run = some (s', ()) := by
    unfold next
    rw [step, ht]
    rfl
  rw [List.replicate_succ, Trace.exec, hnext]
  show (Trace.exec next s' (List.replicate n .run)).map _ = _
  rw [hexec]
  rfl

theorem returns_install {left : Nat} (hph : s.phase = .install true tail)
    (hleft : s.log.lh.length - tail = left) : Returns s (left + 3) := by
  induction left generalizing s tail with
  | zero =>
    have hnone : s.log.lh[tail]? = none := List.getElem?_eq_none_iff.mpr (by omega)
    have hdone : Returns { LogDisk.writeHead { s with log := { s.log with lh := [] }
                                                      phase := .eraseHead true } with
        phase := .recovered } 0 := ⟨[], _, rfl, rfl⟩
    have herase : Returns { s with log := { s.log with lh := [] }, phase := .eraseHead true } 1 :=
      hdone.turn rfl
    have hclear : Returns { s with phase := .clear true } 2 := herase.turn rfl
    refine hclear.turn ?_
    rw [hph, LogDisk.turn, hnone]
  | succ left ih =>
    have hlt : tail < s.log.lh.length := by omega
    have hrest : Returns { s.installBlock tail s.log.lh[tail] with
        phase := .install true (tail + 1) } (left + 3) := by
      refine ih rfl ?_
      show s.log.lh.length - (tail + 1) = left
      omega
    refine hrest.turn ?_
    rw [hph, LogDisk.turn, List.getElem?_eq_getElem hlt]

theorem returns_readHead (hph : s.phase = .readHead) : ∃ n, Returns s n := by
  have hinstall : Returns { s.load s.log.start with
      log := { s.log with lh := (s.bread s.log.start).entries }
      phase := .install true 0 } ((s.bread s.log.start).entries.length + 3) :=
    returns_install rfl rfl
  refine ⟨_, hinstall.turn ?_⟩
  rw [hph, LogDisk.turn]

/-- The log is empty, and the blocks outside it hold what the first transactions wrote,
all of each, up to one no earlier than the last whose `commit` returned. -/
structure AllOrNothing (s : LogDisk) : Prop where
  empty : (s.disk s.log.start).n = 0
  sees : ∃ k, s.returned ≤ k ∧ k ≤ s.txns.length ∧
    ∀ b, Home s.log b → s.disk b = s.after k b

theorem At.allOrNothing (h : At s .recovered) : AllOrNothing s := by
  obtain ⟨hhead, k, hk⟩ := h.stage
  refine ⟨?_, k, hk.returned, hk.bound, fun b hb => ?_⟩
  · rw [← Block.entries_length]
    exact List.length_eq_zero_iff.mpr hhead
  · rw [← replay_of_head_nil hhead]
    exact hk.replay hb

def fresh (sb : Superblock) : LogDisk where
  disk := fun _ _ => 0
  cache := fun _ => none
  log := initlog sb
  phase := .run
  base := fun _ _ => 0
  txns := []
  returned := 0

theorem fresh_init : Init Mkfs.sb (fresh Mkfs.sb) :=
  ⟨by decide, rfl, rfl, rfl, fun _ => rfl, rfl, rfl, rfl⟩

end LogDisk

end Xv6
