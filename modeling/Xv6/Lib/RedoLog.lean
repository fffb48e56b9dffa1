import Mathlib.Data.List.Nodup

/-
  Crash safety of a redo log on a store of atomic cells.

  A transaction assigns new contents to a list of home
  cells. It is written in four parts: the new contents into
  the log slots, a header that lists the home cells, the new
  contents into the home cells, and an empty header.
  Recovery reads the header, copies the listed slots home
  and writes an empty header.

  A store that a crash leaves behind is in one of three
  phases relative to the transaction: `Old`, `Committed` or
  `Done`. Every prefix of the writes of a commit leads to
  one of them, and every prefix of the writes of a recovery
  keeps them.

  Key definitions include:
    * `replay`
    * `RedoLog.Layout`
    * `RedoLog.commitWrites`
    * `RedoLog.recoverWrites`
    * `RedoLog.Old`
    * `RedoLog.Committed`
    * `RedoLog.Done`

  The crash invariant is carried by:
    * `RedoLog.commit_take`
    * `RedoLog.recover_take_old`
    * `RedoLog.recover_take_committed`
    * `RedoLog.recover_committed`
    * `RedoLog.recover_take_done`
-/

open Function List

-------
-- Replaying Writes
-------

section Replay

variable {κ ν : Type} [DecidableEq κ]

/- Apply a list of writes, first to last. -/
def replay :
    List (κ × ν) → (κ → ν) → (κ → ν)
| [], d => d
| w :: ws, d => replay ws (update d w.1 w.2)

@[simp] theorem replay_nil (d : κ → ν) :
    replay [] d = d := rfl

@[simp] theorem replay_cons (w : κ × ν) (ws : List (κ × ν)) (d : κ → ν) :
    replay (w :: ws) d = replay ws (update d w.1 w.2) := rfl

theorem replay_append (ws vs : List (κ × ν)) (d : κ → ν) :
    replay (ws ++ vs) d = replay vs (replay ws d) := by
  induction ws generalizing d with
  | nil => rfl
  | cons w ws ih => exact ih _

/- Stores that agree on a cell still agree on it. -/
theorem replay_congr (ws : List (κ × ν)) {d d' : κ → ν} {x : κ} (hEq : d x = d' x) :
    replay ws d x = replay ws d' x := by
  induction ws generalizing d d' with
  | nil => exact hEq
  | cons w ws ih =>
    apply ih
    by_cases hx : x = w.1
    · rw [hx, update_self, update_self]
    · rw [update_of_ne hx, update_of_ne hx]
      exact hEq

/- A cell that no write addresses keeps its contents. -/
theorem replay_of_not_mem (ws : List (κ × ν)) (d : κ → ν) {x : κ} (hx : ∀ w ∈ ws, w.1 ≠ x) :
    replay ws d x = d x := by
  induction ws generalizing d with
  | nil => rfl
  | cons w ws ih =>
    rw [replay_cons, ih _ (fun v hv => hx v (by simp [hv]))]
    exact update_of_ne (hx w (by simp)).symm _ _

/- The only write to a cell determines its contents. -/
theorem replay_of_mem (ws : List (κ × ν)) (d : κ → ν) {w : κ × ν}
    (hNodup : (ws.map Prod.fst).Nodup) (hw : w ∈ ws) : replay ws d w.1 = w.2 := by
  induction ws generalizing d with
  | nil => cases hw
  | cons v vs ih =>
    rw [map_cons, nodup_cons] at hNodup
    rcases mem_cons.mp hw with rfl | hTail
    · rw [replay_cons, replay_of_not_mem]
      · exact update_self _ _ _
      · intro u hu hEq
        apply hNodup.1
        rw [← hEq]
        exact mem_map_of_mem hu
    · exact ih _ hNodup.2 hTail

end Replay

-------
-- The Log and Its Writes
-------

namespace RedoLog

variable {κ ν : Type} {v : Nat → ν} {w : κ × ν} {t : List κ}

/-
  Where the log lives. The header and the first `cap` slots
  are distinct cells of the log area.
-/
structure Layout (κ ν : Type) where
  area : κ → Prop
  head : κ
  slot : Nat → κ
  cap : Nat
  listed : ν → List κ
  head_mem : area head
  slot_mem : ∀ i, i < cap → area (slot i)
  slot_ne_head : ∀ i, i < cap → slot i ≠ head
  slot_inj : ∀ i j, i < cap → j < cap → slot i = slot j → i = j

/- Writes that fill the first `n` log slots. -/
def slotWrites (L : Layout κ ν) (n : Nat) (v : Nat → ν) : List (κ × ν) :=
  (List.range n).map (fun i => (L.slot i, v i))

/- Writes that copy the slots home. -/
def homeWrites (t : List κ) (v : Nat → ν) : List (κ × ν) := t.mapIdx (fun i b => (b, v i))

/- All writes of a commit, first to last. -/
def commitWrites (L : Layout κ ν) (t : List κ) (v : Nat → ν) (full empty : ν) : List (κ × ν) :=
  slotWrites L t.length v ++ (L.head, full) :: (homeWrites t v ++ [(L.head, empty)])

/- All writes of a recovery that starts on store `d`. -/
def recoverWrites (L : Layout κ ν) (d : κ → ν) (empty : ν) : List (κ × ν) :=
  homeWrites (L.listed (d L.head)) (fun i => d (L.slot i)) ++ [(L.head, empty)]

@[simp] theorem length_slotWrites (L : Layout κ ν) (n : Nat) (v : Nat → ν) :
    (slotWrites L n v).length = n := by
  simp [slotWrites]

@[simp] theorem length_homeWrites (t : List κ) (v : Nat → ν) :
    (homeWrites t v).length = t.length := by
  simp [homeWrites]

theorem take_slotWrites (L : Layout κ ν) (v : Nat → ν) (n k : Nat) :
    (slotWrites L n v).take k = slotWrites L (min k n) v := by
  simp [slotWrites, ← map_take]

theorem mem_slotWrites {L : Layout κ ν} {n : Nat} (hw : w ∈ slotWrites L n v) :
    ∃ i, i < n ∧ w = (L.slot i, v i) := by
  rcases mem_map.mp hw with ⟨i, hi, rfl⟩
  exact ⟨i, mem_range.mp hi, rfl⟩

theorem mem_homeWrites (hw : w ∈ homeWrites t v) : w.1 ∈ t := by
  rcases mem_mapIdx.mp hw with ⟨i, hi, rfl⟩
  exact getElem_mem hi

@[simp] theorem map_fst_homeWrites (t : List κ) (v : Nat → ν) :
    (homeWrites t v).map Prod.fst = t := by
  apply ext_getElem
  · simp
  · intro i h h'
    simp [homeWrites]

/- Only the values at the indices of `t` matter. -/
theorem homeWrites_congr {u : Nat → ν} (h : ∀ i, i < t.length → u i = v i) :
    homeWrites t u = homeWrites t v := by
  apply ext_getElem
  · simp
  · intro i hi hi'
    have hit : i < t.length := by simpa using hi
    simp [homeWrites, h i hit]

-------
-- Phases of a Store
-------

/- Outside the log and the transaction nothing changed. -/
def Frame (L : Layout κ ν) (t : List κ) (d₀ d : κ → ν) : Prop :=
  ∀ b, ¬ L.area b → b ∉ t → d b = d₀ b

/- The transaction has not happened. -/
def Old (L : Layout κ ν) (d₀ d : κ → ν) : Prop :=
  L.listed (d L.head) = [] ∧ ∀ b, ¬ L.area b → d b = d₀ b

/- The transaction is in the log, and perhaps partly home. -/
def Committed (L : Layout κ ν) (t : List κ) (v : Nat → ν) (d₀ d : κ → ν) : Prop :=
  L.listed (d L.head) = t ∧ (∀ i, i < t.length → d (L.slot i) = v i) ∧
    Frame L t d₀ d

/- The transaction is home and the log is empty. -/
def Done (L : Layout κ ν) (t : List κ) (v : Nat → ν) (d₀ d : κ → ν) : Prop :=
  L.listed (d L.head) = [] ∧ (∀ i (hi : i < t.length), d t[i] = v i) ∧
    Frame L t d₀ d

-------
-- Crashes During a Commit
-------

variable {κ ν : Type} [DecidableEq κ] {L : Layout κ ν} {t : List κ} {v : Nat → ν}
variable {d₀ d : κ → ν} {full empty : ν}

/- Filling slots keeps the store outside the log. -/
theorem old_of_slotWrites (hClean : L.listed (d₀ L.head) = []) {n : Nat} (hn : n ≤ L.cap) :
    Old L d₀ (replay (slotWrites L n v) d₀) := by
  constructor
  · rw [replay_of_not_mem]
    · exact hClean
    · intro w hw
      rcases mem_slotWrites hw with ⟨i, hi, rfl⟩
      exact L.slot_ne_head i (by omega)
  · intro b hb
    rw [replay_of_not_mem]
    intro w hw hEq
    rcases mem_slotWrites hw with ⟨i, hi, rfl⟩
    apply hb
    rw [← hEq]
    exact L.slot_mem i (by omega)

/- Once the header is written the transaction is committed. -/
theorem committed_of_head (hFull : L.listed full = t) (hCap : t.length ≤ L.cap) :
    Committed L t v d₀ (update (replay (slotWrites L t.length v) d₀) L.head full) := by
  refine ⟨by simp [hFull], ?_, ?_⟩
  · intro i hi
    rw [update_of_ne (L.slot_ne_head i (by omega))]
    have hMem : (L.slot i, v i) ∈ slotWrites L t.length v :=
      mem_map_of_mem (mem_range.mpr hi)
    refine replay_of_mem _ d₀ ?_ hMem
    rw [slotWrites, map_map]
    apply List.Nodup.map_on _ nodup_range
    intro a ha b hb hEq
    rw [mem_range] at ha hb
    exact L.slot_inj a b (by omega) (by omega) hEq
  · intro b hb _
    rw [update_of_ne, replay_of_not_mem]
    · intro w hw hEq
      rcases mem_slotWrites hw with ⟨i, hi, rfl⟩
      apply hb
      rw [← hEq]
      exact L.slot_mem i (by omega)
    · rintro rfl
      exact hb L.head_mem

/-
  Copying any part of the transaction home keeps it
  committed: the log area is not touched.
-/
theorem committed_of_homeWrites (hOut : ∀ b ∈ t, ¬ L.area b) (hCap : t.length ≤ L.cap)
    (hComm : Committed L t v d₀ d) {u : Nat → ν} (k : Nat) :
    Committed L t v d₀ (replay ((homeWrites t u).take k) d) := by
  have hKeep : ∀ b, b ∉ t → replay ((homeWrites t u).take k) d b = d b := by
    intro b hb
    apply replay_of_not_mem
    intro w hw hEq
    apply hb
    rw [← hEq]
    exact mem_homeWrites (mem_of_mem_take hw)
  rcases hComm with ⟨hHead, hSlots, hFrame⟩
  refine ⟨?_, ?_, ?_⟩
  · rw [hKeep _ (fun h => hOut _ h L.head_mem), hHead]
  · intro i hi
    rw [hKeep _ (fun h => hOut _ h (L.slot_mem i (by omega)))]
    exact hSlots i hi
  · intro b hb hbt
    rw [hKeep b hbt]
    exact hFrame b hb hbt

/- All copies home and an empty header complete it. -/
theorem done_of_homeWrites (hNodup : t.Nodup) (hOut : ∀ b ∈ t, ¬ L.area b)
    (hEmpty : L.listed empty = []) (hFrame : Frame L t d₀ d) :
    Done L t v d₀ (update (replay (homeWrites t v) d) L.head empty) := by
  refine ⟨by simp [hEmpty], ?_, ?_⟩
  · intro i hi
    have hMem : (t[i], v i) ∈ homeWrites t v := mem_mapIdx.mpr ⟨i, hi, rfl⟩
    rw [update_of_ne]
    · exact replay_of_mem _ d (by rw [map_fst_homeWrites]; exact hNodup) hMem
    · intro hEq
      exact hOut _ (getElem_mem hi) (hEq ▸ L.head_mem)
  · intro b hb hbt
    rw [update_of_ne, replay_of_not_mem]
    · exact hFrame b hb hbt
    · intro w hw hEq
      exact hbt (hEq ▸ mem_homeWrites hw)
    · rintro rfl
      exact hb L.head_mem

/- A commit that makes all its writes is done. -/
theorem commit_done (hNodup : t.Nodup) (hOut : ∀ b ∈ t, ¬ L.area b) (hCap : t.length ≤ L.cap)
    (hFull : L.listed full = t) (hEmpty : L.listed empty = []) :
    Done L t v d₀ (replay (commitWrites L t v full empty) d₀) := by
  have hComm : Committed L t v d₀ (update (replay (slotWrites L t.length v) d₀) L.head full) :=
    committed_of_head hFull hCap
  rw [commitWrites, replay_append, replay_cons, replay_append]
  exact done_of_homeWrites hNodup hOut hEmpty hComm.2.2

/-
  A commit cut after any number of writes: nothing happened
  up to the header write, and the transaction is committed
  or done after it.
-/
theorem commit_take (hClean : L.listed (d₀ L.head) = []) (hNodup : t.Nodup)
    (hOut : ∀ b ∈ t, ¬ L.area b) (hCap : t.length ≤ L.cap)
    (hFull : L.listed full = t) (hEmpty : L.listed empty = []) (k : Nat) :
    (k ≤ t.length → Old L d₀ (replay ((commitWrites L t v full empty).take k) d₀)) ∧
    (t.length < k → Committed L t v d₀ (replay ((commitWrites L t v full empty).take k) d₀) ∨
        Done L t v d₀ (replay ((commitWrites L t v full empty).take k) d₀)) := by
  constructor
  · intro hk
    rw [commitWrites, take_append_of_le_length (by simpa using hk), take_slotWrites]
    exact old_of_slotWrites hClean (by omega)
  intro hk
  obtain ⟨m, rfl⟩ : ∃ m, k = t.length + (m + 1) := ⟨k - t.length - 1, by omega⟩
  have hComm : Committed L t v d₀ (update (replay (slotWrites L t.length v) d₀) L.head full) :=
    committed_of_head hFull hCap
  have hTake : (commitWrites L t v full empty).take (t.length + (m + 1)) =
        slotWrites L t.length v ++ (L.head, full) :: (homeWrites t v ++
            [(L.head, empty)]).take m := by
    rw [commitWrites, take_append]
    simp [take_of_length_le]
  by_cases hm : m ≤ t.length
  · left
    rw [hTake, replay_append, take_append_of_le_length (by simpa using hm)]
    exact committed_of_homeWrites hOut hCap hComm m
  right
  rw [take_of_length_le (by
    simp [commitWrites]
    omega)]
  exact commit_done hNodup hOut hCap hFull hEmpty

-------
-- Crashes During a Recovery
-------

/- With an empty log, recovery only rewrites the header. -/
theorem replay_recover_take_of_clean
    (hClean : L.listed (d L.head) = []) (hEmpty : L.listed empty = []) (k : Nat) :
    L.listed (replay ((recoverWrites L d empty).take k) d L.head) = [] ∧
      ∀ b, ¬ L.area b → replay ((recoverWrites L d empty).take k) d b = d b := by
  have hWrites : recoverWrites L d empty = [(L.head, empty)] := by
    simp [recoverWrites, hClean, homeWrites]
  rw [hWrites]
  cases k with
  | zero => exact ⟨hClean, fun b _ => rfl⟩
  | succ k =>
    refine ⟨by simp [hEmpty], ?_⟩
    intro b hb
    simp only [take_succ_cons, take_nil]
    apply update_of_ne
    rintro rfl
    exact hb L.head_mem

theorem recover_take_old (hOld : Old L d₀ d) (hEmpty : L.listed empty = []) (k : Nat) :
    Old L d₀ (replay ((recoverWrites L d empty).take k) d) := by
  rcases replay_recover_take_of_clean hOld.1 hEmpty k with ⟨hHead, hKeep⟩
  exact ⟨hHead, fun b hb => (hKeep b hb).trans (hOld.2 b hb)⟩

theorem recover_take_done (hDone : Done L t v d₀ d) (hOut : ∀ b ∈ t, ¬ L.area b)
    (hEmpty : L.listed empty = []) (k : Nat) :
    Done L t v d₀ (replay ((recoverWrites L d empty).take k) d) := by
  rcases replay_recover_take_of_clean hDone.1 hEmpty k with ⟨hHead, hKeep⟩
  refine ⟨hHead, ?_, ?_⟩
  · intro i hi
    rw [hKeep _ (hOut _ (getElem_mem hi))]
    exact hDone.2.1 i hi
  · intro b hb hbt
    rw [hKeep b hb]
    exact hDone.2.2 b hb hbt

/- On a committed store recovery copies the transaction. -/
omit [DecidableEq κ] in
theorem recoverWrites_of_committed (hComm : Committed L t v d₀ d) :
    recoverWrites L d empty = homeWrites t v ++ [(L.head, empty)] := by
  rw [recoverWrites, hComm.1, homeWrites_congr hComm.2.1]

/- Recovery of a committed store, run to its end. -/
theorem recover_committed (hComm : Committed L t v d₀ d) (hNodup : t.Nodup)
    (hOut : ∀ b ∈ t, ¬ L.area b) (hEmpty : L.listed empty = []) :
    Done L t v d₀ (replay (recoverWrites L d empty) d) := by
  rw [recoverWrites_of_committed hComm, replay_append]
  exact done_of_homeWrites hNodup hOut hEmpty hComm.2.2

/- Recovery of a committed store, cut anywhere. -/
theorem recover_take_committed (hComm : Committed L t v d₀ d) (hNodup : t.Nodup)
    (hOut : ∀ b ∈ t, ¬ L.area b) (hCap : t.length ≤ L.cap)
    (hEmpty : L.listed empty = []) (k : Nat) :
    Committed L t v d₀ (replay ((recoverWrites L d empty).take k) d) ∨
      Done L t v d₀ (replay ((recoverWrites L d empty).take k) d) := by
  by_cases hk : k ≤ t.length
  · left
    rw [recoverWrites_of_committed hComm, take_append_of_le_length (by simpa using hk)]
    exact committed_of_homeWrites hOut hCap hComm k
  right
  rw [take_of_length_le]
  · exact recover_committed hComm hNodup hOut hEmpty
  · rw [recoverWrites_of_committed hComm]
    simp
    omega

end RedoLog
