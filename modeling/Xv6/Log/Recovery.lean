import Xv6.Log.CommitSpec

/-
  Crash atomicity of the log.

  The writes of `commit` and of `recover_from_log` are those
  of a redo log, so a transaction is on disk as a whole or
  not at all, wherever a commit and the recoveries after it
  are cut.

  Key definitions include:
    * `LogArea.layout`
    * `Txn`
    * `Writes`

  The writes are given by:
    * `commit_writes`
    * `recoverFromLog_writes`

  The main result is `commit_crash_atomic`.
-/

open RedoLog List Xv6.Bcache

open Prog (wp)

-------
-- Programs With a Known List of Writes
-------

namespace Xv6

variable {P : Type} {vs ws : List (Nat × Block)} {r r' : Nat → Int} {s s' s₁ s₂ : Machine P}
variable {e : Stop} {b : Nat} {x : Block}

/- The writes `ws` were made; `r` are the references. -/
structure WroteAll (ws : List (Nat × Block)) (r : Nat → Int) (s s' : Machine P) : Prop where
  good : s'.Good
  content : s'.content = replay ws s.content
  disk : s'.disk = replay ws s.disk
  writes : s'.writes = s.writes ++ ws
  refs : s'.refs = r
  free : (∀ i, (s.cache.buf i).lock = none) → ∀ i, (s'.cache.buf i).lock = none

/- A thread that stopped after some of the writes `ws`. -/
def StoppedIn (ws : List (Nat × Block)) (s : Machine P) : Stop → Machine P → Prop :=
  fun _ s' => (∃ vs, vs <+: ws ∧ s'.writes = s.writes ++ vs) ∧ ¬ s.Idle

/-
  `m` makes the writes `ws`, or stops on the way; on an idle
  machine it does not stop.
-/
def Writes {α : Type} (m : BioM P α) (ws : List (Nat × Block)) (r : Nat → Int)
    (s : Machine P) : Prop :=
  wp m (fun _ s' => WroteAll ws r s s') (StoppedIn ws s) s

theorem WroteAll.idle (hWrote : WroteAll ws r s s') (hIdle : s.Idle) (hRefs : s.Idle → r = s.refs) :
    s'.Idle where
  free := hWrote.free hIdle.free
  refs := by
    intro b
    rw [hWrote.refs, hRefs hIdle]
    exact hIdle.refs b

theorem WroteAll.trans (h₁ : WroteAll ws r s s₁) (h₂ : WroteAll vs r' s₁ s₂) :
    WroteAll (ws ++ vs) r' s s₂ where
  good := h₂.good
  content := by rw [h₂.content, h₁.content, replay_append]
  disk := by rw [h₂.disk, h₁.disk, replay_append]
  writes := by rw [h₂.writes, h₁.writes, append_assoc]
  refs := h₂.refs
  free := fun hAll => h₂.free (h₁.free hAll)

/- A stop after the writes `ws` is a stop of the whole. -/
theorem WroteAll.stopped (hWrote : WroteAll ws r s s₁) (hRefs : s.Idle → r = s.refs)
    (hStop : StoppedIn vs s₁ e s₂) : StoppedIn (ws ++ vs) s e s₂ := by
  rcases hStop with ⟨⟨us, hPrefix, hWrites⟩, hBusy⟩
  refine ⟨⟨ws ++ us, ?_, ?_⟩, ?_⟩
  · exact (prefix_append_right_inj ws).mpr hPrefix
  · rw [hWrites, hWrote.writes, append_assoc]
  · intro hIdle
    exact hBusy (hWrote.idle hIdle hRefs)

/- A single write, as a list. -/
theorem Wrote.all (h : Wrote b x r s s') :
    WroteAll [(b, x)] r s s' where
  good := h.good
  content := h.content
  disk := h.disk
  writes := h.writes
  refs := h.refs
  free := h.free

theorem Stopped.stoppedIn (h : Stopped s e s') (ws : List (Nat × Block)) : StoppedIn ws s e s' :=
  ⟨⟨[], nil_prefix, by simpa using h.1⟩, h.2⟩

/- One program after another. -/
theorem Writes.bind {α β : Type} {m : BioM P α} {f : α → BioM P β} (hm : Writes m ws r s)
    (hRefs : s.Idle → r = s.refs) (hf : ∀ a s', WroteAll ws r s s' → Writes (f a) vs r' s') :
    Writes (m >>= f) (ws ++ vs) r' s := by
  unfold Writes at hm ⊢
  rw [Prog.wp_bind]
  apply Prog.wp_mono hm
  · intro a s₁ hWrote
    apply Prog.wp_mono (hf a s₁ hWrote)
    · intro _ s₂ hWrote'
      exact hWrote.trans hWrote'
    · intro e s₂ hStop
      exact hWrote.stopped hRefs hStop
  · rintro e s₁ ⟨⟨us, hPrefix, hWrites⟩, hBusy⟩
    refine ⟨⟨us, ?_, hWrites⟩, hBusy⟩
    exact hPrefix.trans (prefix_append ws vs)

/- A step that writes one block. -/
theorem writes_of_wrote {α : Type} {m : BioM P α}
    (h : wp m (fun _ s' => Wrote b x r s s') (Stopped s) s) : Writes m [(b, x)] r s := by
  apply Prog.wp_mono h
  · intro _ s' hWrote
    exact hWrote.all
  · intro e s' hStop
    exact hStop.stoppedIn _

/- A loop that makes one write in each round. -/
theorem writes_forFrom (body : Nat → BioM P Unit) (ws : List (Nat × Block)) (r : Nat → Nat → Int)
    (hGood : s.Good) (hStart : r 0 = s.refs) (hRefs : s.Idle → ∀ k, r k = s.refs)
    (hBody : ∀ k (hk : k < ws.length) s', WroteAll (ws.take k) (r k) s s' →
        wp (body k) (fun _ s'' => Wrote ws[k].1 ws[k].2 (r (k + 1)) s' s'')
          (Stopped s') s') : Writes (Prog.forFrom body 0 ws.length) ws (r ws.length) s := by
  have hLoop :=
    Prog.wp_forFrom body (fun k s' => WroteAll (ws.take k) (r k) s s')
      0 ws.length
      (by
        intro k s' _ hk hWrote
        have hkw : k < ws.length := by omega
        have hTake : ws.take (k + 1) = ws.take k ++ [ws[k]] := (take_append_getElem hkw).symm
        apply Prog.wp_mono (hBody k hkw s' hWrote)
        · intro _ s'' hNext
          rw [hTake]
          exact hWrote.trans hNext.all
        intro e s'' hStop
        have hStop' :=
          hWrote.stopped (fun h => hRefs h k) (hStop.stoppedIn (ws.drop k))
        rw [take_append_drop] at hStop'
        exact hStop')
      { good := hGood
        content := rfl
        disk := rfl
        writes := by simp
        refs := hStart.symm
        free := fun h => h }
  rw [Nat.zero_add] at hLoop
  apply Prog.wp_imp hLoop
  intro _ s' hWrote
  rw [take_length] at hWrote
  exact hWrote

-------
-- The Log Area and Its Transactions
-------

/- The log as a redo log. -/
abbrev LogArea.layout (L : LogArea) : RedoLog.Layout Nat Block where
  area := L.Area
  head := L.start
  slot := fun i => L.start + i + 1
  cap := L.size - 1
  listed := listed
  head_mem := by
    have := L.pos
    constructor <;> omega
  slot_mem := by
    intro i hi
    constructor <;> omega
  slot_ne_head := by
    intro i _
    omega
  slot_inj := by
    intro i j _ _ h
    omega

theorem LogArea.layout_head (L : LogArea) :
    L.layout.head = L.start := rfl

/- The contents of `log.lh` when a commit starts. -/
structure Txn (L : LogArea) where
  block : List Nat
  nonempty : 0 < block.length
  fits : block.length ≤ L.size - 1
  logsize : block.length ≤ LOGSIZE
  nodup : block.Nodup
  outside : ∀ b ∈ block, ¬ L.Area b
  int : ∀ b ∈ block, b < 2 ^ 32

theorem LogArea.listed_empty (L : LogArea) (x : Block) : L.layout.listed (putHead x []) = [] :=
  listed_putHead x [] (by decide) (by simp)

theorem Txn.listed_full {L : LogArea} (T : Txn L) (x : Block) :
    L.layout.listed (putHead x T.block) = T.block :=
  listed_putHead x T.block T.logsize T.int

-------
-- The Writes of a Commit
-------

variable {P : Type} [DecidableEq P] {L : LogArea} {p : P} {s : Machine P} {t : List Nat} {k : Nat}

/- `write_log` fills the slots with the cached contents. -/
theorem writeLog_writes (hGood : s.Good) (hCap : t.length ≤ L.size - 1)
    (hOut : ∀ b ∈ t, ¬ L.Area b) :
    Writes (writeLog L p t) (RedoLog.slotWrites L.layout t.length (fun i => s.content (t.getD i 0)))
      s.refs s := by
  unfold writeLog
  have hLoop :=
    writes_forFrom (writeLogBlock L p t) (slotWrites L.layout t.length
        (fun i => s.content (t.getD i 0)))
      (fun _ => s.refs) hGood rfl
      (fun _ _ => rfl)
      (by
        intro k hk s' hWrote
        have hkt : k < t.length := by simpa using hk
        have hMem : t.getD k 0 ∈ t := by
          rw [← getElem_eq_getD 0]
          exact getElem_mem hkt
        have hArea : ¬ L.Area (t.getD k 0) := hOut _ hMem
        have hSlot : L.Area (L.start + k + 1) := L.layout.slot_mem k (show k < L.size - 1 by omega)
        have hNe : L.start + k + 1 ≠ t.getD k 0 := by
          intro hEq
          exact hArea (hEq ▸ hSlot)
        have hHome : s'.content (t.getD k 0) = s.content (t.getD k 0) := by
          rw [hWrote.content]
          apply replay_of_not_mem
          intro w hw hEq
          rcases mem_slotWrites (mem_of_mem_take hw) with ⟨i, hi, rfl⟩
          apply hArea
          rw [← hEq]
          exact L.layout.slot_mem i (show i < L.size - 1 by omega)
        have hSpec := writeLogBlock_spec (p := p) L t k hWrote.good hNe
        rw [hHome, hWrote.refs] at hSpec
        simpa [slotWrites] using hSpec)
  simpa using hLoop

/- References after the first `k` blocks were installed. -/
def installedRefs (recovering : Bool) (t : List Nat) (r : Nat → Int) (k : Nat) : Nat → Int :=
  fun b =>
    if recovering = false ∧ b ∈ t.take k then r b - 1
    else r b

theorem getElem_not_mem_take (hNodup : t.Nodup) (hk : k < t.length) : t[k] ∉ t.take k := by
  intro hMem
  rw [mem_take_iff_getElem] at hMem
  rcases hMem with ⟨j, hj, hEq⟩
  have hjk := (hNodup.getElem_inj_iff).mp hEq
  omega

theorem installedRefs_succ
    (hNodup : t.Nodup) (recovering : Bool) (r : Nat → Int) (hk : k < t.length) :
    unpinned recovering t[k] (installedRefs recovering t r k) =
      installedRefs recovering t r (k + 1) := by
  have hNew := getElem_not_mem_take hNodup hk
  funext b
  have hMem : b ∈ t.take (k + 1) ↔ b ∈ t.take k ∨ b = t[k] := by
    rw [← take_append_getElem hk, mem_append, mem_singleton]
  cases recovering with
  | true => simp [unpinned, installedRefs]
  | false =>
    by_cases hb : b = t[k]
    · rw [hb] at hMem
      simp [unpinned, installedRefs, hb, hNew, hMem]
    · simp [unpinned, installedRefs, hb, hMem]

/-
  `install_trans` copies the slots home. In a commit it
  drops one reference of each block.
-/
theorem installTrans_writes (recovering : Bool) (hGood : s.Good) (hCap : t.length ≤ L.size - 1)
    (hNodup : t.Nodup) (hOut : ∀ b ∈ t, ¬ L.Area b)
    (hPin : recovering = false → ∀ b ∈ t, 1 ≤ s.refs b) :
    Writes (installTrans L p recovering t) (RedoLog.homeWrites t
        (fun i => s.content (L.start + i + 1)))
      (installedRefs recovering t s.refs t.length) s := by
  unfold installTrans
  have hLoop :=
    writes_forFrom (installBlock L p recovering t) (homeWrites t
        (fun i => s.content (L.start + i + 1)))
      (installedRefs recovering t s.refs) hGood
      (by
        funext b
        simp [installedRefs])
      (by
        intro hIdle k
        funext b
        rw [installedRefs, if_neg]
        rintro ⟨hRec, hb⟩
        have hPinned := hPin hRec b (mem_of_mem_take hb)
        rw [hIdle.refs b] at hPinned
        omega)
      (by
        intro k hk s' hWrote
        have hkt : k < t.length := by simpa using hk
        have hGet : t.getD k 0 = t[k] := (getElem_eq_getD 0).symm
        have hMem : t[k] ∈ t := getElem_mem hkt
        have hSlot : L.Area (L.start + k + 1) := L.layout.slot_mem k (show k < L.size - 1 by omega)
        have hNe : L.start + k + 1 ≠ t.getD k 0 := by
          rw [hGet]
          intro hEq
          exact hOut _ hMem (hEq ▸ hSlot)
        have hCopy : s'.content (L.start + k + 1) = s.content (L.start + k + 1) := by
          rw [hWrote.content]
          apply replay_of_not_mem
          intro w hw hEq
          apply hOut w.1
          · exact mem_homeWrites (mem_of_mem_take hw)
          · rw [hEq]
            exact hSlot
        have hRef : recovering = false → 1 ≤ s'.refs (t.getD k 0) := by
          intro hRec
          have hNew := getElem_not_mem_take hNodup hkt
          rw [hGet, hWrote.refs, installedRefs, if_neg]
          · exact hPin hRec _ hMem
          · exact fun h => hNew h.2
        have hSpec := installBlock_spec (p := p) L recovering t k hWrote.good hNe hRef
        rw [hCopy, hWrote.refs, hGet, installedRefs_succ hNodup _ _ hkt] at hSpec
        simpa [homeWrites] using hSpec)
  simpa using hLoop

/-
  A commit writes the slots, the full header, the homes and
  the empty header, and drops one reference of each block.
-/
theorem commit_writes (T : Txn L) (hGood : s.Good) (hPin : ∀ b ∈ T.block, 1 ≤ s.refs b) :
    Writes (commit L p T.block) (RedoLog.commitWrites L.layout T.block
        (fun i => s.content (T.block.getD i 0))
        (putHead (s.content L.start) T.block)
        (putHead (putHead (s.content L.start) T.block) []))
      (installedRefs false T.block s.refs T.block.length)
      s := by
  have hHead : L.Area L.start := L.layout.head_mem
  unfold commit
  rw [if_pos T.nonempty]
  unfold commitWrites
  apply Writes.bind (writeLog_writes hGood T.fits T.outside) (fun _ => rfl)
  intro _ s₁ hSlots
  have hHead₁ : s₁.content L.start = s.content L.start := by
    rw [hSlots.content]
    apply replay_of_not_mem
    intro w hw
    rcases mem_slotWrites hw with ⟨i, hi, rfl⟩
    exact L.layout.slot_ne_head i (Nat.lt_of_lt_of_le hi T.fits)
  have hSpec := writeHead_spec (p := p) L T.block hSlots.good
  rw [hHead₁, hSlots.refs] at hSpec
  apply Writes.bind (writes_of_wrote hSpec) (fun _ => hSlots.refs.symm)
  intro _ s₂ hFull
  -- The slots now hold the new contents.
  have hComm : RedoLog.Committed L.layout T.block (fun i => s.content (T.block.getD i 0))
        s.content s₂.content := by
    rw [hFull.content, hSlots.content]
    exact committed_of_head (T.listed_full _) T.fits
  have hInstall :=
    installTrans_writes (p := p) false hFull.good T.fits T.nodup T.outside (by
        intro _ b hb
        rw [hFull.refs]
        exact hPin b hb)
  have hSame : homeWrites T.block (fun i => s₂.content (L.start + i + 1)) =
        homeWrites T.block (fun i => s.content (T.block.getD i 0)) :=
    homeWrites_congr hComm.2.1
  rw [hSame, hFull.refs] at hInstall
  apply Writes.bind hInstall
  · intro hIdle
    -- A pinned block is a reference.
    have hPinned := hPin _ (getElem_mem T.nonempty)
    rw [← hFull.refs, hIdle.refs] at hPinned
    omega
  intro _ s₃ hHomes
  have hHead₃ : s₃.content L.start = putHead (s.content L.start) T.block := by
    rw [hHomes.content, replay_of_not_mem, hFull.content]
    · simp
    · intro w hw hEq
      apply T.outside w.1 (mem_homeWrites hw)
      rw [hEq]
      exact hHead
  have hClear := writeHead_spec (p := p) L [] hHomes.good
  rw [hHead₃, hHomes.refs] at hClear
  have hWrites := writes_of_wrote hClear
  unfold Writes at hWrites ⊢
  rw [Prog.wp_bind]
  apply Prog.wp_imp hWrites
  intro _ s₄ hEmpty
  rw [Prog.wp_pure]
  exact hEmpty

-------
-- The Writes of a Recovery
-------

/- The blocks that a header lists can be recovered. -/
structure Recoverable (L : LogArea) (x : Block) : Prop where
  nodup : (listed x).Nodup
  outside : ∀ b ∈ listed x, ¬ L.Area b
  fits : (listed x).length ≤ L.size - 1

theorem recoverWrites_eq (L : LogArea) (d : Disk) (x : Block) :
    RedoLog.recoverWrites L.layout d x = RedoLog.homeWrites (listed (d L.start))
          (fun i => d (L.start + i + 1)) ++
        [(L.start, x)] := rfl

/- The writes of a recovery are those of a redo log. -/
theorem recoverFromLog_writes {s : Machine P} (hGood : s.Good)
    (hHead : Recoverable L (s.content L.start)) :
    Writes (recoverFromLog L p) (RedoLog.recoverWrites L.layout s.content
        (putHead (s.content L.start) []))
      s.refs s := by
  have hArea : L.Area L.start := L.layout.head_mem
  unfold recoverFromLog
  -- Reading the header makes no write.
  have hRead : wp (readHead L p) (fun lh s' =>
          lh = listed (s.content L.start) ∧ WroteAll [] s.refs s s')
        (StoppedIn [] s) s := by
    apply Prog.wp_mono (readHead_spec L hGood)
    · rintro lh s₁ ⟨hList, hGood₁, hSame, hContent, hRefs, hFree⟩
      refine ⟨hList, ?_⟩
      exact
        { good := hGood₁
          content := by rw [hContent, replay_nil]
          disk := by rw [hSame.disk, replay_nil]
          writes := by rw [hSame.writes, append_nil]
          refs := hRefs
          free := hFree }
    · intro e s₁ hStop
      exact hStop.stoppedIn []
  unfold Writes
  rw [Prog.wp_bind]
  apply Prog.wp_mono hRead
  · rintro lh s₁ ⟨rfl, hZero⟩
    have hContent : s₁.content = s.content := by rw [hZero.content, replay_nil]
    have hInstall :=
      installTrans_writes (p := p) true hZero.good hHead.fits hHead.nodup hHead.outside
        (fun h => nomatch h)
    have hSameRefs : installedRefs true (listed (s.content L.start))
          s₁.refs (listed (s.content L.start)).length =
            s.refs := by
      rw [hZero.refs]
      funext b
      simp [installedRefs]
    rw [hSameRefs, hContent] at hInstall
    have hRest : Writes (do
            installTrans L p true (listed (s.content L.start))
            writeHead L p [])
          (recoverWrites L.layout s.content (putHead (s.content L.start) []))
          s.refs s₁ := by
      apply Writes.bind hInstall (fun _ => hZero.refs.symm)
      intro _ s₂ hHomes
      have hHead₂ : s₂.content L.start = s.content L.start := by
        rw [hHomes.content, replay_of_not_mem, hContent]
        intro w hw hEq
        apply hHead.outside w.1 (mem_homeWrites hw)
        rw [hEq]
        exact hArea
      have hClear := writeHead_spec (p := p) L [] hHomes.good
      rw [hHead₂, hHomes.refs] at hClear
      exact writes_of_wrote hClear
    apply Prog.wp_mono hRest
    · intro _ s₂ hWrote
      exact hZero.trans hWrote
    · intro e s₂ hStop
      exact hZero.stopped (fun _ => rfl) hStop
  · rintro e s₁ ⟨⟨vs, hPrefix, hWrites⟩, hBusy⟩
    refine ⟨⟨vs, ?_, hWrites⟩, hBusy⟩
    exact hPrefix.trans (prefix_append _ _)

end Xv6

-------
-- Booting
-------

namespace Xv6

variable {P : Type}

theorem binit_not_holds (b : Nat) (i : Slot) : ¬ (Bcache.binit : Bcache P).Holds b i := by
  rintro ⟨hDev, _⟩
  simp [binit] at hDev

theorem boot_disk (d : Disk) :
    (boot d : Machine P).disk = d := rfl

theorem boot_writes (d : Disk) :
    (boot d : Machine P).writes = [] := rfl

theorem boot_content (d : Disk) : (boot d : Machine P).content = d := by
  funext b
  exact content_of_not_holds ok_binit (binit_not_holds b)

theorem boot_idle (d : Disk) :
    (boot d : Machine P).Idle where
  free := fun _ => rfl
  refs := fun b => refs_of_not_holds ok_binit (binit_not_holds b)

theorem boot_good (d : Disk) :
    (boot d : Machine P).Good where
  ok := ok_binit
  clean := fun b _ => congrFun (boot_content d) b

variable [DecidableEq P] {L : LogArea} {p : P}

/- Recovery from a fresh boot returns. -/
theorem recoverFromLog_boot {d : Disk} (hHead : Recoverable L (d L.start)) :
    ∃ s' : Machine P, recoverFromLog L p (boot d) = (.ok (), s') ∧
        s'.writes = RedoLog.recoverWrites L.layout d (putHead (d L.start) []) ∧
        s'.disk = replay (RedoLog.recoverWrites L.layout d (putHead (d L.start) [])) d := by
  have hRun :=
    recoverFromLog_writes (p := p) (boot_good d)
      (by rw [boot_content]; exact hHead)
  rw [boot_content] at hRun
  rcases Prog.exists_ok_of_wp (Prog.wp_mono hRun (fun _ _ h => h)
        (fun _ _ hStop => hStop.2 (boot_idle d))) with
    ⟨_, s', hEq, hWrote⟩
  refine ⟨s', hEq, ?_, ?_⟩
  · rw [hWrote.writes, boot_writes, nil_append]
  · rw [hWrote.disk, boot_disk]

/- A recovery that is cut makes some of its writes. -/
theorem crash_recoverFromLog {d : Disk} (hHead : Recoverable L (d L.start)) (k : Nat) :
    crash (recoverFromLog L p) (boot d) k = replay ((RedoLog.recoverWrites L.layout d
          (putHead (d L.start) [])).take k) d := by
  rcases recoverFromLog_boot (p := p) hHead with
    ⟨s', hEq, hWrites, _⟩
  rw [crash, writesBefore, hEq, hWrites, boot_writes, boot_disk, length_nil, drop_zero]

-------
-- Crash Atomicity
-------

variable {s : Machine P} {d d₀ : Disk} {x : Block} {T : Txn L} {v : Nat → Block}

omit [DecidableEq P] in
/- A cut program has made a first part of its writes. -/
theorem Writes.writesBefore {α : Type} {m : BioM P α} {ws : List (Nat × Block)} {r : Nat → Int}
    (h : Writes m ws r s) (k : Nat) : ∃ j, writesBefore m s k = ws.take j := by
  have hFinal : ∃ vs, vs <+: ws ∧ (m s).2.writes = s.writes ++ vs := by
    apply Prog.wp_final (R := fun s' : Machine P => ∃ vs, vs <+: ws ∧ s'.writes = s.writes ++ vs)
    apply Prog.wp_mono h
    · intro _ s' hWrote
      exact ⟨ws, prefix_refl ws, hWrote.writes⟩
    · intro e s' hStop
      exact hStop.1
  rcases hFinal with ⟨vs, hPrefix, hWrites⟩
  refine ⟨min k vs.length, ?_⟩
  rw [Xv6.writesBefore, hWrites, drop_left, prefix_iff_eq_take.mp hPrefix, take_take]
  simp

/- What every cut recovery keeps holds before the last. -/
theorem crashes_invariant {I : Disk → Prop}
    (hStep : ∀ d k, I d → I (crash (recoverFromLog L p) (boot d) k))
    (hStart : I d) (ks : List Nat) : I (crashes L p d ks) := by
  induction ks generalizing d with
  | nil => exact hStart
  | cons k ks ih => exact ih (hStep d k hStart)

omit [DecidableEq P] in
theorem recoverable_of_nil (hNil : listed x = []) : Recoverable L x := by
  constructor <;> simp [hNil]

omit [DecidableEq P] in
theorem Txn.recoverable (T : Txn L) (hList : listed x = T.block) : Recoverable L x := by
  constructor
  · rw [hList]
    exact T.nodup
  · rw [hList]
    exact T.outside
  · rw [hList]
    exact T.fits

/- An undone transaction stays undone. -/
theorem crashes_old (hOld : RedoLog.Old L.layout d₀ d) (ks : List Nat) :
    RedoLog.Old L.layout d₀ (crashes L p d ks) := by
  apply crashes_invariant _ hOld
  intro d k hOld
  rw [crash_recoverFromLog (recoverable_of_nil hOld.1)]
  exact recover_take_old hOld (L.listed_empty _) k

/- The transaction is in the log or home. -/
def Durable (T : Txn L) (v : Nat → Block) (d₀ d : Disk) : Prop :=
  RedoLog.Committed L.layout T.block v d₀ d ∨
    RedoLog.Done L.layout T.block v d₀ d

omit [DecidableEq P] in
theorem Durable.recoverable (hDurable : Durable T v d₀ d) : Recoverable L (d L.start) := by
  rcases hDurable with hComm | hDone
  · exact T.recoverable hComm.1
  · exact recoverable_of_nil hDone.1

/- A committed transaction stays committed. -/
theorem crashes_durable (hDurable : Durable T v d₀ d) (ks : List Nat) :
    Durable T v d₀ (crashes L p d ks) := by
  apply crashes_invariant _ hDurable
  intro d k hDurable
  have hEmpty := L.listed_empty (d L.start)
  rw [crash_recoverFromLog hDurable.recoverable]
  rcases hDurable with hComm | hDone
  · exact recover_take_committed hComm T.nodup T.outside T.fits hEmpty k
  · exact Or.inr (recover_take_done hDone T.outside hEmpty k)

/- A recovery that completes empties the on-disk log. -/
theorem recoverFromLog_headN {s' : Machine P} (hHead : Recoverable L (d L.start))
    (hRun : recoverFromLog L p (boot d) = (.ok (), s')) : headN (s'.disk L.start) = 0 := by
  rcases recoverFromLog_boot (p := p) hHead with
    ⟨s'', hEq, _, hDisk⟩
  rw [hRun, Prod.mk.injEq] at hEq
  rw [hEq.2, hDisk, recoverWrites_eq, replay_append, replay_cons, replay_nil, Function.update_self,
    headN_putHead _ [] (by decide)]
  rfl

/- Recovery of an undone transaction changes nothing. -/
theorem recoverFromLog_old (hOld : RedoLog.Old L.layout d₀ d) :
    ∃ s' : Machine P, recoverFromLog L p (boot d) = (.ok (), s') ∧
        (∀ b, ¬ L.Area b → s'.disk b = d₀ b) ∧
        headN (s'.disk L.start) = 0 := by
  have hHead : Recoverable L (d L.start) := recoverable_of_nil hOld.1
  rcases recoverFromLog_boot (p := p) hHead with
    ⟨s', hRun, _, hDisk⟩
  refine ⟨s', hRun, ?_, recoverFromLog_headN hHead hRun⟩
  intro b hb
  have hAfter :=
    recover_take_old hOld (L.listed_empty (d L.start))
      (recoverWrites L.layout d (putHead (d L.start) [])).length
  rw [take_length] at hAfter
  rw [hDisk]
  exact hAfter.2 b hb

/- Recovery of a committed transaction completes it. -/
theorem recoverFromLog_durable (hDurable : Durable T v d₀ d) :
    ∃ s' : Machine P, recoverFromLog L p (boot d) = (.ok (), s') ∧
        RedoLog.Done L.layout T.block v d₀ s'.disk ∧
        headN (s'.disk L.start) = 0 := by
  have hHead := hDurable.recoverable
  rcases recoverFromLog_boot (p := p) hHead with
    ⟨s', hRun, _, hDisk⟩
  refine ⟨s', hRun, ?_, recoverFromLog_headN hHead hRun⟩
  have hEmpty := L.listed_empty (d L.start)
  rw [hDisk]
  rcases hDurable with hComm | hDone
  · exact recover_committed hComm T.nodup T.outside hEmpty
  have hAfter :=
    recover_take_done hDone T.outside hEmpty
      (recoverWrites L.layout d (putHead (d L.start) [])).length
  rw [take_length] at hAfter
  exact hAfter

/- A commit that is cut leaves one of the two cases. -/
theorem crash_commit (T : Txn L) (hGood : s.Good) (hPin : ∀ b ∈ T.block, 1 ≤ s.refs b)
    (hClean : headN (s.disk L.start) = 0) (k : Nat) :
    (RedoLog.Old L.layout s.disk (crash (commit L p T.block) s k) ∧
      ∀ w ∈ writesBefore (commit L p T.block) s k, w.1 ≠ L.start) ∨
      Durable T (fun i => s.content (T.block.getD i 0))
        s.disk (crash (commit L p T.block) s k) := by
  have hWrites := commit_writes (p := p) T hGood hPin
  rcases hWrites.writesBefore k with ⟨j, hj⟩
  rw [crash, hj]
  have hTake :=
    commit_take (v := fun i => s.content (T.block.getD i 0))
      (listed_of_headN_eq_zero hClean) T.nodup T.outside
      T.fits (T.listed_full (s.content L.start))
      (L.listed_empty (putHead (s.content L.start) T.block)) j
  by_cases hLen : j ≤ T.block.length
  · left
    refine ⟨hTake.1 hLen, ?_⟩
    intro w hw
    rw [commitWrites, take_append_of_le_length (by simpa using hLen)] at hw
    rcases mem_slotWrites (mem_of_mem_take hw)
      with ⟨i, hi, rfl⟩
    exact L.layout.slot_ne_head i (Nat.lt_of_lt_of_le hi T.fits)
  · right
    exact hTake.2 (by omega)

/-
  Cut a commit anywhere, cut any number of recoveries, and
  let one complete. The transaction is on disk as a whole or
  not at all, and it is there if the header was written.
-/
theorem commit_crash_atomic
    {s : Machine P}
    (T : Txn L)
    (hGood : s.Good)
    (hPin : ∀ b ∈ T.block, 1 ≤ s.refs b)
    (hClean : headN (s.disk L.start) = 0)
    (k : Nat)
    (ks : List Nat) :
    ∃ s' : Machine P,
      recoverFromLog L p
          (boot (crashes L p (crash (commit L p T.block) s k) ks)) =
        (.ok (), s') ∧
      ((∀ b ∈ T.block, s'.disk b = s.disk b) ∨
          ∀ b ∈ T.block, s'.disk b = s.content b) ∧
      ((∃ w ∈ writesBefore (commit L p T.block) s k, w.1 = L.start) →
        ∀ b ∈ T.block, s'.disk b = s.content b) ∧
      (∀ b, ¬ L.Area b → b ∉ T.block → s'.disk b = s.disk b) ∧
      headN (s'.disk L.start) = 0 := by
  rcases crash_commit T hGood hPin hClean k with
    ⟨hOld, hNoHead⟩ | hDurable
  · rcases recoverFromLog_old (p := p) (crashes_old (p := p) hOld ks) with
      ⟨s', hRun, hKeep, hHead⟩
    refine ⟨s', hRun, Or.inl ?_, ?_, ?_, hHead⟩
    · intro b hb
      exact hKeep b (T.outside b hb)
    · rintro ⟨w, hw, hStart⟩
      exact absurd hStart (hNoHead w hw)
    · intro b hb _
      exact hKeep b hb
  · rcases recoverFromLog_durable (p := p) (crashes_durable (p := p) hDurable ks) with
      ⟨s', hRun, ⟨_, hHomes, hFrame⟩, hHead⟩
    have hNew : ∀ b ∈ T.block, s'.disk b = s.content b := by
      intro b hb
      rcases getElem_of_mem hb with ⟨i, hi, rfl⟩
      rw [hHomes i hi, getElem_eq_getD (h := hi) 0]
    exact ⟨s', hRun, Or.inr hNew, fun _ => hNew, hFrame, hHead⟩

/- However often recovery is cut, in the end it redoes the log. -/
theorem recovery_is_idempotent
    (T : Txn L)
    (d₀ : Disk)
    (x : Block)
    (ks : List Nat) :
    let d := Function.update d₀ L.start (putHead x T.block)
    ∃ s' : Machine P,
      recoverFromLog L p (boot (crashes L p d ks)) = (.ok (), s') ∧
      (∀ i (hi : i < T.block.length),
        s'.disk T.block[i] = d (L.start + i + 1)) ∧
      (∀ b, ¬ L.Area b → b ∉ T.block → s'.disk b = d b) ∧
      headN (s'.disk L.start) = 0 := by
  intro d
  have hHead : d L.start = putHead x T.block := Function.update_self ..
  have hDurable : Durable T (fun i => d (L.start + i + 1)) d d :=
    .inl ⟨hHead ▸ T.listed_full x, fun _ _ => rfl, fun _ _ _ => rfl⟩
  obtain ⟨s', hRun, ⟨_, hHomes, hFrame⟩, hEmpty⟩ :=
    recoverFromLog_durable (p := p) (crashes_durable (p := p) hDurable ks)
  exact ⟨s', hRun, hHomes, hFrame, hEmpty⟩

/- Two buffers are pinned, for the blocks 50 and 51. -/
def twoPinned : Machine Unit where
  cache :=
    { Bcache.binit (P := Unit) with
      buf := fun i =>
        if i.1 < 2 then
          { valid := true
            dev := ROOTDEV
            blockno := 50 + i.1
            lock := none
            refcnt := 1
            data := fun _ => UInt8.ofNat (7 + i.1) }
        else Bcache.binit.buf i }
  disk := fun _ => Bytes.zero
  writes := []

theorem twoPinned_ok : twoPinned.cache.Ok where
  complete := by decide
  unique := by
    intro b i j hi hj
    have hBlock : ∀ i j, (twoPinned.cache.buf i).dev = ROOTDEV →
        (twoPinned.cache.buf j).dev = ROOTDEV →
        (twoPinned.cache.buf i).blockno =
          (twoPinned.cache.buf j).blockno → i = j := by
      decide +kernel
    exact hBlock i j hi.1 hj.1 (hi.2.trans hj.2.symm)
  nonneg := by decide
  foreign := by decide

theorem twoPinned_refs
    {b : Nat}
    {i : Slot}
    (h : twoPinned.cache.Holds b i) :
    twoPinned.refs b = 1 := by
  have hPinned : ∀ i, (twoPinned.cache.buf i).dev = ROOTDEV →
      (twoPinned.cache.buf i).refcnt = 1 := by
    decide
  exact (refs_of_holds twoPinned_ok h).trans
    (hPinned i h.1)

theorem twoPinned_good : twoPinned.Good where
  ok := twoPinned_ok
  clean := by
    intro b hZero
    refine content_of_not_holds twoPinned_ok ?_
    intro i hi
    have hOne := twoPinned_refs hi
    rw [Machine.refs, hZero] at hOne
    cases hOne

/-
  A commit of two blocks, cut when the header is written. The
  recovery is cut after its first block.
-/
theorem commit_crash_atomic_of_two_blocks :
    ∃ s' : Machine Unit,
      recoverFromLog ⟨2, 30, by decide⟩ () (boot
          (crashes ⟨2, 30, by decide⟩ ()
            (crash (commit ⟨2, 30, by decide⟩ () [50, 51])
              twoPinned 3) [1])) =
        (.ok (), s') ∧
      s'.disk 50 = (fun _ => 7) ∧
      s'.disk 51 = (fun _ => 8) ∧
      headN (s'.disk 2) = 0 := by
  have h₀ : twoPinned.cache.Holds 50 0 := ⟨rfl, rfl⟩
  have h₁ : twoPinned.cache.Holds 51 1 := ⟨rfl, rfl⟩
  have hHeader : ∃ w ∈ writesBefore
      (commit ⟨2, 30, by decide⟩ () [50, 51]) twoPinned 3,
      w.1 = 2 := by
    decide +kernel
  obtain ⟨s', hRun, _, hNew, _, hHead⟩ :=
    commit_crash_atomic
      (L := ⟨2, 30, by decide⟩)
      ⟨[50, 51], by decide, by decide, by decide, by decide,
        by simp [LogArea.Area], by decide⟩
      twoPinned_good
      (by simp [twoPinned_refs h₀, twoPinned_refs h₁])
      headN_zero 3 [1]
  refine ⟨s', hRun, ?_, ?_, hHead⟩
  · rw [hNew hHeader 50 (by decide)]
    exact content_of_holds twoPinned_ok h₀
  · rw [hNew hHeader 51 (by decide)]
    exact content_of_holds twoPinned_ok h₁

end Xv6
