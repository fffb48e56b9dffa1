import Xv6.Virtio.DiskSteps

/-
  Disk requests, over all runs of the driver and the device.

  The device moves a request from one list to the next, which
  does not change what is in flight.

  Main results are:
    * `VirtioInv.step`
    * `disk_requests_are_safe`
    * `disk_sleepers_are_served`
-/

open Function Xv6.VirtioDisk RingBuffer List Xv6.VirtioPc

-------
-- Steps Of The Device
-------

namespace Xv6

variable {T B : Type} [DecidableEq B] {s s' : VirtioDisk T B} {x : Nat} {r : DiskCall B}

/- What the device leaves alone. -/
structure VirtioDisk.DeviceStep (s s' : VirtioDisk T B) : Prop where
  pc : s'.pc = s.pc := by rfl
  lock : s'.lock = s.lock := by rfl
  owner : s'.owner = s.owner := by rfl
  free : s'.free = s.free := by rfl
  desc : s'.desc = s.desc := by rfl
  ops : s'.ops = s.ops := by rfl
  disk : s'.disk = s.disk := by rfl
  buf : ∀ i, (s'.info i).b = (s.info i).b := by intros; rfl
  data : s'.avail.data = s.avail.data := by rfl
  nwrite : s'.avail.nwrite = s.avail.nwrite := by rfl
  performed : s.performed.length ≤ s'.performed.length := by exact le_rfl

theorem VirtioInv.device (h : VirtioInv s) (d : VirtioDisk.DeviceStep s s')
    (hFlight : s'.flight.Perm s.flight) (hProgress : ∀ t, s'.Progress (s.pc t))
    (hStatus : ∀ x ∈ s'.complete, (s'.info x).status = 0)
    (hUsed : s.used.nread ≠ s.used.nwrite → s'.used.nread ≠ s'.used.nwrite ∧
        s'.used.front NUM = s.used.front NUM)
    (hOffered : s'.offered = s'.fetched ++ s'.avail.contents NUM)
    (hPushed : s'.pushed = s'.popped ++ s'.used.contents NUM) :
    VirtioInv s' where
  lock := by
    rw [d.pc, d.lock]
    exact h.lock
  owner := by
    rw [d.pc, d.owner]
    exact fun t r hr => (h.owner t r hr).imp_right (fun hLe => hLe.trans d.performed)
  owns := by
    rw [d.pc, d.free]
    exact h.owns
  formed := by
    intro t
    rw [d.pc]
    refine (h.formed t).frame (fun i _ => ?_)
    rw [d.desc, d.ops]
    exact ⟨rfl, rfl, d.buf i⟩
  progress := by
    rw [d.pc]
    exact hProgress
  nodup := hFlight.nodup_iff.mpr h.nodup
  sent := by
    intro x hx
    rw [d.pc, d.disk]
    exact h.sent x (hFlight.mem_iff.mp hx)
  status := hStatus
  slot := by
    rw [d.pc, d.data, d.nwrite]
    exact h.slot
  entry := by
    intro t id hPc
    rw [d.pc] at hPc
    obtain ⟨hSome, hFront⟩ := h.entry t id hPc
    obtain ⟨hSome', hFront'⟩ := hUsed hSome
    exact ⟨hSome', hFront'.trans hFront⟩
  offered := hOffered
  pushed := hPushed

/- The device reads an entry of the avail ring. -/
theorem VirtioInv.fetch (h : VirtioInv s) (hSome : s.avail.nread ≠ s.avail.nwrite) :
    VirtioInv
      { s with
        avail := s.avail.pop
        taken := s.avail.front NUM :: s.taken
        fetched := s.fetched ++ [s.avail.front NUM] } := by
  have hAvail : s.avail.contents NUM = s.avail.front NUM :: s.avail.pop.contents NUM := by
    refine contents_pop (by decide) ?_
    rw [Nat.pos_iff_ne_zero, Ne, unread_eq_zero_iff]
    exact hSome
  have hPending : (s.avail.pop.contents NUM ++ s.avail.front NUM :: s.taken).Perm s.pending := by
    unfold pending
    rw [hAvail]
    exact perm_middle
  refine h.device {} ?_ ?_ h.status (fun hUsed => ⟨hUsed, rfl⟩) ?_ h.pushed
  · exact hPending.append_right _
  · intro t
    exact (h.progress t).frame (fun _ _ => rfl) (fun _ _ => rfl)
      (fun _ _ _ => ⟨hPending.mem_iff.mpr, id⟩)
  · rw [h.offered, hAvail]
    simp

/- The device appends a request to the used ring. -/
theorem VirtioInv.complete (h : VirtioInv s) (hx : x ∈ s.done) :
    VirtioInv
      { s with
        done := s.done.erase x
        used := s.used.push NUM x
        pushed := s.pushed ++ [x] } := by
  have hRoom := h.used_room hx
  have hUsed := contents_push (by decide) (by decide) hRoom x
  have hComplete : (s.done.erase x ++ (s.used.push NUM x).contents NUM).Perm
        s.complete := by
    rw [hUsed, ← append_assoc]
    refine (perm_append_singleton x _).trans ?_
    exact (perm_cons_erase hx).symm.append_right _
  refine h.device {} ?_ ?_ ?_ ?_ h.offered ?_
  · exact hComplete.append_left _
  · intro t
    exact (h.progress t).frame (fun _ _ => rfl) (fun _ _ => rfl)
      (fun _ _ _ => ⟨id, hComplete.mem_iff.mpr⟩)
  · exact fun y hy => h.status y (hComplete.mem_iff.mp hy)
  · intro hSome
    have hPos : 0 < s.used.unread := by
      rw [Nat.pos_iff_ne_zero, Ne, unread_eq_zero_iff]
      exact hSome
    constructor
    · rw [Ne, ← unread_eq_zero_iff, unread_push (by decide) hRoom]
      omega
    · exact data_push (by decide) hRoom hPos x
  · rw [h.pushed, hUsed, append_assoc]

omit [DecidableEq B] in
/- The device finds the request in its chain. -/
theorem VirtioDisk.Formatted.chain {c : DescIdx} (h : s.Formatted r c) :
    s.chain c.i0 = some (r.op, c.i0) := by
  unfold VirtioDisk.chain
  rw [h.desc0]
  dsimp only
  rw [h.desc1]
  rw [h.desc2]
  dsimp only
  rw [h.ops, if_pos]
  · rfl
  · cases hType : r.type <;> simp [VirtqDesc.has]

/- The log of a call when one more request was performed. -/
theorem VirtioDisk.log_append {op : DiskOp B} (hPerformed : s'.performed = s.performed ++ [op])
    (hStart : r.start ≤ s.performed.length) :
    s'.log r = s.log r ++ if op.b = r.b then [op] else [] := by
  unfold log
  rw [hPerformed, drop_append_of_le_length hStart, filter_append, filter_singleton]
  simp

/- The device performs a request. -/
theorem VirtioInv.perform (h : VirtioInv s) (hx : x ∈ s.taken) :
    ∃ op j, s.chain x = some (op, j) ∧ VirtioInv
        { s with
          taken := s.taken.erase x
          done := x :: s.done
          info :=
            update s.info j
              { s.info j with status := 0 }
          performed := s.performed ++ [op] } := by
  have hMem : x ∈ s.pending := mem_append_right _ hx
  obtain ⟨u, r, c, hSent, rfl, hDisk⟩ := h.sent x (mem_append_left _ hMem)
  have hCall := call_of_sent hSent
  have hForm := h.formed u
  rw [formed_of_sent hSent] at hForm
  have hStage := h.progress u
  rw [progress_of_sent hSent] at hStage
  unfold VirtioDisk.Stage at hStage
  rw [if_pos hDisk] at hStage
  have hLog : s.log r = [] := by
    refine (hStage.resolve_right (fun hEq => ?_)).2
    exact (nodup_append.mp h.nodup).2.2 _ hMem _ hEq.1 rfl
  refine ⟨r.op, c.i0, hForm.chain, ?_⟩
  generalize hs' :
    { s with
      taken := s.taken.erase c.i0
      done := c.i0 :: s.done
      info :=
        update s.info c.i0
          { s.info c.i0 with status := 0 }
      performed := s.performed ++ [r.op] } = s'
  have hPerformed : s'.performed = s.performed ++ [r.op] := by
    subst hs'
    rfl
  have hPending : s'.pending = s.avail.contents NUM ++ s.taken.erase c.i0 := by
    subst hs'
    rfl
  have hComplete : s'.complete = c.i0 :: s.complete := by
    subst hs'
    rfl
  have hPerm : s.pending.Perm (c.i0 :: s'.pending) := by
    rw [hPending]
    refine .trans ?_ perm_middle
    exact (perm_cons_erase hx).append_left _
  have hHead : s'.info c.i0 =
      { s.info c.i0 with status := 0 } := by
    subst hs'
    exact update_self ..
  have hInfo (y : Nat) (hy : y ≠ c.i0) : s'.info y = s.info y := by
    subst hs'
    exact update_of_ne hy ..
  have hBuf (i : Nat) : (s'.info i).b = (s.info i).b := by
    by_cases hi : i = c.i0
    · rw [hi, hHead]
    · rw [hInfo i hi]
  have d : VirtioDisk.DeviceStep s s' := by
    subst hs'
    exact { buf := hBuf, performed := by simp }
  refine h.device d ?_ ?_ ?_ ?_ ?_ ?_
  · unfold flight
    rw [hComplete]
    refine perm_middle.trans ?_
    exact hPerm.symm.append_right _
  · intro v
    by_cases hvu : v = u
    · rw [hvu, progress_of_sent hSent]
      unfold VirtioDisk.Stage
      rw [d.disk, if_pos hDisk, hComplete, log_append hPerformed (h.owner u r hCall).2,
        hLog]
      exact .inr ⟨mem_cons_self, if_pos rfl⟩
    -- a request of another buffer
    refine (h.progress v).frame (fun _ _ => by rw [d.disk]) ?_ ?_
    · intro r' hr'
      rw [log_append hPerformed (h.owner v r' hr').2, if_neg, append_nil]
      exact (h.buf_ne hCall hr' hvu).symm
    intro r' c' hs
    have hne : c'.i0 ≠ c.i0 :=
      h.desc_ne (mem_held_of_sent hs) (mem_held_of_sent hSent) hvu
    rw [hComplete]
    refine ⟨fun hMem' => ?_, mem_cons_of_mem _⟩
    exact (mem_cons.mp (hPerm.mem_iff.mp hMem')).resolve_left hne
  · intro y hy
    by_cases hEq : y = c.i0
    · rw [hEq, hHead]
    · rw [hInfo y hEq]
      rw [hComplete] at hy
      exact h.status y ((mem_cons.mp hy).resolve_left hEq)
  · subst hs'
    exact fun hSome => ⟨hSome, rfl⟩
  · subst hs'
    exact h.offered
  · subst hs'
    exact h.pushed

-------
-- All Steps
-------

variable {T B : Type} [DecidableEq T] [DecidableEq B] {s s' : VirtioDisk T B} {t : T}

namespace VirtioInv

omit [DecidableEq T] in
/- The sleep-lock of a buffer that is not in a call. -/
theorem setOwner (h : VirtioInv s) {owner : B → Option T}
    (hOwner : ∀ t r, (s.pc t).call = some r → owner r.b = s.owner r.b) :
    VirtioInv { s with owner := owner } where
  lock := h.lock
  owner := by
    intro t r hr
    refine ⟨?_, (h.owner t r hr).2⟩
    rw [← (h.owner t r hr).1]
    exact hOwner t r hr
  owns := h.owns
  formed := fun t => (h.formed t).frame (fun _ _ => ⟨rfl, rfl, rfl⟩)
  progress := fun t =>
    (h.progress t).frame (fun _ _ => rfl) (fun _ _ => rfl) (fun _ _ _ => ⟨id, id⟩)
  nodup := h.nodup
  sent := h.sent
  status := h.status
  slot := h.slot
  entry := h.entry
  offered := h.offered
  pushed := h.pushed

/- A thread takes the lock. -/
theorem acquire (h : VirtioInv s) (hLock : s.lock = none) (t : T) :
    (virtioStep s (.acquire t)).Safe VirtioInv := by
  have hIdle (l : Option T) (u : T) (_ : u ≠ t) (hTrue : (s.pc u).locked = true) : l = s.lock := by
    rw [h.unlocked_of_none hLock u] at hTrue
    cases hTrue
  have hProg := h.progress t
  have hForm := h.formed t
  have hOwner := h.owner t
  unfold virtioStep
  dsimp only
  rw [if_pos hLock]
  cases hPc : s.pc t with
  | start r =>
      rw [hPc] at hProg hOwner
      exact h.move (hIdle _) (fun _ => rfl) hOwner
        (by rw [hPc]; rfl) (by rw [hPc]; rintro _ _ ⟨⟩) trivial
        hProg (by simp) (by simp)
  | woken r c =>
      rw [hPc] at hProg hForm hOwner
      exact h.move (hIdle _) (fun _ => rfl) hOwner (by rw [hPc]; rfl)
        (by rw [hPc]; exact fun _ _ hs _ => hs) hForm hProg
        (by simp) (by simp)
  | intrStart =>
      exact h.moveIdle (hIdle _) (fun _ => rfl) (by rw [hPc]; rfl) (by rw [hPc]; rfl)
        (.inr (.inr (.inl rfl)))
  | _ => trivial

theorem step (h : VirtioInv s) (a : VirtioAction T B) : (virtioStep s a).Safe VirtioInv := by
  cases a with
  | lockBuf t b =>
      unfold virtioStep
      dsimp only
      split
      · next hOut hFree =>
          refine h.setOwner (fun u r hr => ?_)
          refine update_of_ne ?_ ..
          rintro rfl
          rw [(h.owner u r hr).1] at hFree
          cases hFree
      · trivial
  | unlockBuf t b =>
      unfold virtioStep
      dsimp only
      split
      · next hOut =>
          split
          · next hHas =>
              refine h.setOwner (fun u r hr => ?_)
              refine update_of_ne ?_ ..
              rintro rfl
              rw [(h.owner u r hr).1] at hHas
              cases hHas
              rw [hOut] at hr
              cases hr
          · trivial
      · trivial
  | rw t b blockno type =>
      unfold virtioStep
      dsimp only
      split
      · next hOut =>
          split
          · next hHas => exact h.enter hOut hHas rfl
          · trivial
      · trivial
  | intr t =>
      unfold virtioStep
      dsimp only
      split
      · next hOut =>
          exact h.moveIdle (fun _ _ _ => rfl)
            (by rintro ⟨⟩) (by rw [hOut]; rfl) (by rw [hOut]; rfl)
            (.inr (.inl rfl))
      · trivial
  | acquire t =>
      by_cases hLock : s.lock = none
      · exact h.acquire hLock t
      · unfold virtioStep
        dsimp only
        rw [if_neg hLock]
        trivial
  | run t =>
      unfold virtioStep
      dsimp only
      split
      · next hLock => exact h.run hLock
      · trivial
  | kill t => exact h.kill t
  | fetch =>
      unfold virtioStep
      dsimp only
      split
      · trivial
      · next hSome => exact h.fetch hSome
  | perform x =>
      unfold virtioStep
      dsimp only
      split
      · next hx =>
          obtain ⟨op, j, hEq, hInv⟩ := h.perform hx
          rw [hEq]
          exact hInv
      · trivial
  | complete x =>
      unfold virtioStep
      dsimp only
      split
      · next hx => exact h.complete hx
      · trivial

end VirtioInv

omit [DecidableEq T] in
theorem virtioInv_start : VirtioInv (VirtioDisk.start : VirtioDisk T B) := by
  have hAvail : (start : VirtioDisk T B).avail.contents NUM = [] :=
    contents_of_eq NUM rfl
  have hUsed : (start : VirtioDisk T B).used.contents NUM = [] :=
    contents_of_eq NUM rfl
  have hPending : (start : VirtioDisk T B).pending = [] := by
    unfold pending
    rw [hAvail]
    rfl
  have hComplete : (start : VirtioDisk T B).complete = [] := by
    unfold complete
    rw [hUsed]
    rfl
  have hFlight : (start : VirtioDisk T B).flight = [] := by
    unfold flight
    rw [hPending, hComplete]
    rfl
  refine ⟨by rintro _ ⟨⟩, by rintro _ _ ⟨⟩, ⟨?_, ?_, ?_⟩, fun _ => trivial,
    fun _ => trivial, ?_, ?_, ?_, by rintro _ _ _ ⟨⟩, by rintro _ _ ⟨⟩, ?_, ?_⟩
  · intro t i hi
    cases hi
  · exact fun _ => nodup_nil
  · intro t u i hi
    cases hi
  · rw [hFlight]
    exact nodup_nil
  · rw [hFlight]
    simp
  · rw [hComplete]
    simp
  · rw [hAvail]
    rfl
  · rw [hUsed]
    rfl

theorem virtioInv_of_reach (hReach : virtioSystem.Reach System.Anything s) : VirtioInv s := by
  refine hReach.safe ?_ (fun s a h _ => h.step a)
  rintro _ rfl
  exact virtioInv_start

-------
-- Returns
-------

omit [DecidableEq T] [DecidableEq B] in
theorem VirtioDisk.freeDesc_next {i : Nat} (h : s.freeDesc i = .next s') (u : T) :
    s'.pc u = s.pc u ∨ s'.pc u = (s.pc u).wake := by
  unfold freeDesc at h
  split at h
  · cases h
  · split at h
    · cases h
    · cases h
      exact wakeup_cases _ _ u

omit [DecidableEq B] in
theorem VirtioDisk.Others.moves (h : VirtioDisk.Others t s s') {pc pc' : VirtioPc B}
    (hCall : pc'.call = pc.call) :
    VirtioDisk.Others t s (s'.setPc t pc') ∧ (((s'.setPc t pc').pc t).call = pc.call ∨
        ∃ r, pc = .leave r) := by
  rw [setPc_self]
  exact ⟨h.setPc pc', .inl hCall⟩

/- A step of a thread does not end the calls of others. -/
theorem VirtioDisk.run_cases {pc : VirtioPc B} (h : s.run t pc = .next s') :
    VirtioDisk.Others t s s' ∧ ((s'.pc t).call = pc.call ∨ ∃ r, pc = .leave r) := by
  cases pc with
  | alloc r =>
      unfold run at h
      rcases s.alloc3Desc_cases with
        ⟨c, free, hEq, -⟩ | ⟨x, hEq, hUndone, -⟩
      · rw [hEq] at h
        cases h
        exact VirtioDisk.Others.moves (fun _ _ => .inl rfl) rfl
      · rw [hEq] at h
        cases h
        exact VirtioDisk.Others.moves (fun u _ => hUndone.pc u) rfl
  | free r c i =>
      unfold run at h
      dsimp only at h
      cases hFree : s.freeDesc i with
      | next x =>
          rw [hFree] at h
          have hOthers : VirtioDisk.Others t s x := fun u _ => freeDesc_next hFree u
          split at h
          · cases h
            exact hOthers.moves rfl
          · cases h
            exact hOthers.moves rfl
      | _ =>
          rw [hFree] at h
          cases h
  | leave r =>
      cases h
      exact ⟨fun u hu => .inl (update_of_ne hu ..), .inr ⟨r, rfl⟩⟩
  | wait | intrLoop =>
      unfold run at h
      dsimp only at h
      split at h
      · cases h
        exact VirtioDisk.Others.moves (fun _ _ => .inl rfl) rfl
      · cases h
        exact VirtioDisk.Others.moves (fun _ _ => .inl rfl) rfl
  | intrEntry id =>
      unfold run at h
      dsimp only at h
      split at h
      · cases h
      split at h
      · cases h
      · cases h
        exact VirtioDisk.Others.moves (fun u _ => wakeup_cases _ _ u) rfl
  | format | offer | bump | clear | intrLeave =>
      cases h
      exact VirtioDisk.Others.moves (fun _ _ => .inl rfl) rfl
  | _ => cases h

/- A call ends at its last step. -/
theorem leave_of_return {a : VirtioAction T B} (h : virtioStep s a = .next s') {r : DiskCall B}
    (hCall : (s.pc t).call = some r) (hOut : (s'.pc t).call = none) : s.pc t = .leave r := by
  -- otherwise the thread would still be in its call
  by_contra hNot
  suffices hSame : (s'.pc t).call = (s.pc t).call by
    rw [hSame, hCall] at hOut
    cases hOut
  have hMoved {u : T} {pc : VirtioPc B} (x : VirtioDisk T B) (hx : x.pc = s.pc)
      (hu : u = t → pc.call = (s.pc t).call) :
      ((x.setPc u pc).pc t).call = (s.pc t).call := by
    by_cases hut : t = u
    · rw [← hut, setPc_self]
      exact hu hut.symm
    · rw [← hx]
      exact congrArg call (update_of_ne hut ..)
  have hBusy {u : T} (hu : s.pc u = .out) : u ≠ t := by
    rintro rfl
    rw [hu] at hCall
    cases hCall
  unfold virtioStep at h
  cases a with
  | unlockBuf u b =>
      dsimp only at h
      split at h
      · split at h
        · cases h
          rfl
        · cases h
      · cases h
  | rw u b blockno type =>
      dsimp only at h
      split at h
      · next hu =>
          split at h
          · cases h
            exact hMoved s rfl (absurd · (hBusy hu))
          · cases h
      · cases h
  | intr u =>
      dsimp only at h
      split at h
      · next hu =>
          cases h
          exact hMoved s rfl (absurd · (hBusy hu))
      · cases h
  | acquire u =>
      dsimp only at h
      split at h
      · split at h
        · next hu =>
            cases h
            exact hMoved _ rfl (by rintro rfl; rw [hu]; rfl)
        · next hu =>
            cases h
            exact hMoved _ rfl (by rintro rfl; rw [hu]; rfl)
        · next hu =>
            cases h
            exact hMoved _ rfl (by rintro rfl; rw [hu]; rfl)
        · cases h
      · cases h
  | run u =>
      dsimp only at h
      split at h
      · obtain ⟨hOthers, hSame⟩ := run_cases h
        by_cases hut : t = u
        · subst hut
          refine hSame.resolve_right (fun ⟨r', hr'⟩ => ?_)
          rw [hr'] at hCall
          cases hCall
          exact hNot hr'
        · exact hOthers.call hut
      · cases h
  | kill u =>
      cases h
      exact hMoved s rfl (by
        rintro rfl
        exact call_wake _)
  | fetch =>
      dsimp only at h
      split at h
      · cases h
      · cases h
        rfl
  | perform x =>
      dsimp only at h
      split at h
      · split at h
        · cases h
        · cases h
          rfl
      · cases h
  | _ =>
      dsimp only at h
      split at h
      · cases h
        rfl
      · cases h

-------
-- Disk Requests
-------

/- A request whose descriptors are formatted. -/
def VirtioPc.request : VirtioPc B → Option (DiskCall B × DescIdx)
| .offer r c => some (r, c)
| .bump r c => some (r, c)
| .wait r c => some (r, c)
| .sleepBuf r c => some (r, c)
| .woken r c => some (r, c)
| .clear r c => some (r, c)
| _ => none

omit [DecidableEq T] in
/- Such a request has three descriptors, in a chain. -/
theorem VirtioInv.request {s : VirtioDisk T B} (h : VirtioInv s) {t : T} {r : DiskCall B}
    {c : DescIdx} (hReq : (s.pc t).request = some (r, c)) :
    (s.pc t).held = c.toList ∧ c.toList.Nodup ∧ s.Formatted r c := by
  have hHeld : (s.pc t).held = c.toList := by
    cases hPc : s.pc t <;> rw [hPc] at hReq <;> cases hReq <;>
      rfl
  refine ⟨hHeld, hHeld ▸ h.owns.nodup t, ?_⟩
  have hForm := h.formed t
  cases hPc : s.pc t <;> rw [hPc] at hReq hForm <;>
    cases hReq <;> exact hForm

theorem disk_requests_are_safe
    {s : VirtioDisk T B}
    (hReach : virtioSystem.Reach System.Anything s) :
    -- no descriptor of a thread is free or another thread's
    (∀ t, ∀ i ∈ (s.pc t).held, i < NUM ∧ s.free i = false) ∧
    (∀ t u i, i ∈ (s.pc t).held → i ∈ (s.pc u).held → t = u) ∧
    -- a request has a chain of three
    (∀ t r c, (s.pc t).request = some (r, c) →
        (s.pc t).held = c.toList ∧ c.toList.Nodup ∧
        s.Formatted r c) ∧
    -- a call returns when its request was performed, once
    (∀ a s' t r, virtioStep s a = .next s' → (s.pc t).call = some r →
        (s'.pc t).call = none →
        s.log r = [r.op]) ∧
    -- used entries are consumed once, in their order
    s.pushed = s.popped ++ s.used.contents NUM ∧
    s.offered = s.fetched ++ s.avail.contents NUM ∧
    (∀ t id, s.pc t = .intrEntry id → ∃ u r c,
        (s.pc u).request = some (r, c) ∧ c.i0 = id ∧
        s.info id = { b := some r.b, status := 0 } ∧
        s.log r = [r.op]) ∧
    -- the slot to be written is not one to be read
    (∀ t r c, s.pc t = .offer r c → ∀ j < s.avail.unread,
        (s.avail.nread.toNat + j) % NUM ≠
          s.avail.nwrite.toNat % NUM) ∧
    (∀ x ∈ s.done, ∀ j < s.used.unread, (s.used.nread.toNat + j) % NUM ≠
        s.used.nwrite.toNat % NUM) ∧
    ∀ a e, virtioStep s a ≠ .fault e := by
  have h := virtioInv_of_reach hReach
  refine ⟨h.owns.bound, h.owns.disjoint, fun t r c => h.request, ?_, h.pushed, h.offered,
    ?_, ?_, ?_, ?_⟩
  · intro a s' t r hStep hCall hOut
    have hProg := h.progress t
    rw [leave_of_return hStep hCall hOut] at hProg
    exact hProg
  · intro t id hPc
    obtain ⟨hSome, hFront⟩ := h.entry t id hPc
    have hMem : id ∈ s.complete := by
      refine mem_append_right _ ?_
      rw [contents_pop (by decide) (by
        rw [Nat.pos_iff_ne_zero, Ne, unread_eq_zero_iff]
        exact hSome), hFront]
      exact mem_cons_self
    obtain ⟨u, r, c, hSent, hHead, -, hLog, hInfo⟩ := h.used_entry hMem
    refine ⟨u, r, c, ?_, hHead, hInfo, hLog⟩
    cases hu : s.pc u <;> rw [hu] at hSent <;> cases hSent <;>
      rfl
  · intro t r c hPc j hj
    have hRoom := (h.head_room (by rw [hPc]; exact mem_cons_self)
      (by rw [hPc]; rfl)).2
    exact cell_ne (by decide) hRoom hj
  · intro x hx j hj
    exact cell_ne (by decide) (h.used_room hx) hj
  · intro a e hFault
    have hSafe := h.step a
    rw [hFault] at hSafe
    exact hSafe

/- A block is read, from the first step to the last. -/
theorem disk_request_returns :
    ∃ (s s' : VirtioDisk Bool Unit) (r : DiskCall Unit), virtioSystem.Reach System.Anything s ∧
      virtioStep s (.run true) = .next s' ∧
      (s.pc true).call = some r ∧ (s'.pc true).call = none ∧
      s.log r = [{ type := .read, sector := 10, b := () }] := by
  have hRun : ∃ s s' : VirtioDisk Bool Unit, virtioSystem.run System.Anything start
            [.lockBuf true (), .rw true () 5 .read, .acquire true, .run true, .run true, .run true,
              .run true, .run true, .fetch, .perform 0,
              .complete 0, .intr false, .acquire false,
              .run false, .run false, .run false, .run false,
              .acquire true, .run true, .run true, .run true,
              .run true, .run true] = some s ∧
          virtioStep s (.run true) = .next s' ∧
          (s.pc true).call = some { b := (), blockno := 5, type := .read, start := 0 } ∧
          (s'.pc true).call = none :=
    ⟨_, _, rfl, rfl, rfl, rfl⟩
  obtain ⟨s, s', hRun, hStep, hCall, hOut⟩ := hRun
  have hReach : virtioSystem.Reach System.Anything s := System.reach_of_run (.init rfl) hRun
  exact ⟨s, s', _, hReach, hStep, hCall, hOut, (disk_requests_are_safe hReach).2.2.2.1
      _ s' true _ hStep hCall hOut⟩

-------
-- Sleepers
-------

omit [DecidableEq B] in
theorem VirtioPc.wake_ne {pc : VirtioPc B} {r : DiskCall B} {c : DescIdx} :
    pc.wake ≠ .sleepBuf r c := by
  cases pc <;> nofun

/- Who sleeps on a buffer waits for the device. -/
def VirtioDisk.Dozing (s : VirtioDisk T B) : Prop :=
  ∀ u r c, s.pc u = .sleepBuf r c → s.disk r.b = true

namespace VirtioDisk.Dozing

omit [DecidableEq B] in
theorem setPc (h : s.Dozing) {pc : VirtioPc B}
    (hPc : ∀ r c, pc = .sleepBuf r c → s.disk r.b = true) : (s.setPc t pc).Dozing := by
  intro u r c hu
  by_cases hut : u = t
  · subst hut
    exact hPc r c (by rw [← hu, setPc_self])
  · exact h u r c ((update_of_ne hut ..).symm.trans hu)

omit [DecidableEq T] [DecidableEq B] in
theorem woken (h : s.Dozing) (hPc : ∀ u, s'.pc u = s.pc u ∨ s'.pc u = (s.pc u).wake)
    (hDisk : s'.disk = s.disk) : s'.Dozing := by
  intro u r c hu
  rw [hDisk]
  rcases hPc u with hEq | hEq
  · exact h u r c (hEq.symm.trans hu)
  · exact absurd (hEq.symm.trans hu) wake_ne

theorem run {pc : VirtioPc B} (h : s.Dozing) (hNext : s.run t pc = .next s') : s'.Dozing := by
  unfold VirtioDisk.run at hNext
  cases pc with
  | alloc r =>
    rcases s.alloc3Desc_cases with ⟨c, free, hEq, -⟩ | ⟨x, hEq, hUndone, -⟩
    · rw [hEq] at hNext
      cases hNext
      exact h.setPc (by simp)
    · rw [hEq] at hNext
      cases hNext
      obtain ⟨desc, free, pc, rfl⟩ := hUndone.rest
      exact (h.woken hUndone.pc rfl).setPc (by simp)
  | format r c =>
    cases hNext
    refine setPc (fun u r' c' hu => ?_) (by simp)
    by_cases hb : r'.b = r.b
    · simp [formatDesc, hb]
    · exact (update_of_ne hb ..).trans (h u r' c' hu)
  | free r c i =>
    dsimp only at hNext
    cases hFree : s.freeDesc i with
    | next x =>
      have hx : x.Dozing := h.woken (freeDesc_next hFree) (by grind [freeDesc, wakeup])
      rw [hFree] at hNext
      cases hNext
      split <;> exact hx.setPc (by simp)
    | _ =>
      rw [hFree] at hNext
      cases hNext
  | wait r c =>
    dsimp only at hNext
    split at hNext
    · next hBusy =>
      cases hNext
      exact h.setPc (by rintro _ _ ⟨⟩; exact hBusy)
    · cases hNext
      exact h.setPc (by simp)
  | intrLoop =>
    dsimp only at hNext
    split at hNext <;> cases hNext <;> exact h.setPc (by simp)
  | intrEntry id =>
    dsimp only at hNext
    split at hNext
    · cases hNext
    split at hNext
    · cases hNext
    · next b _ =>
      cases hNext
      refine setPc (fun u r c hu => ?_) (by simp)
      -- all threads that sleep on this buffer are woken up
      change (if (s.pc u).onBuf b then (s.pc u).wake else s.pc u) = _ at hu
      split at hu
      · exact absurd hu wake_ne
      · next hOn =>
        have hb : r.b ≠ b := by simpa [hu, onBuf] using hOn
        exact (update_of_ne hb ..).trans (h u r c hu)
  | offer | bump | clear | leave | intrLeave =>
    cases hNext
    exact h.setPc (by simp)
  | _ => cases hNext

theorem step {a : VirtioAction T B} (h : s.Dozing) (hNext : virtioStep s a = .next s') :
    s'.Dozing := by
  unfold virtioStep at hNext
  cases a with
  | run t => exact h.run (Outcome.of_guard hNext).2
  | kill t =>
    cases hNext
    exact h.setPc (fun _ _ hPc => absurd hPc wake_ne)
  | _ =>
    dsimp only at hNext
    repeat' split at hNext
    all_goals cases hNext
    all_goals first | exact h | exact h.setPc (by simp)

end VirtioDisk.Dozing

/-
  A thread that sleeps until its block is there has a request
  in flight, whose end will wake it up.
-/
theorem disk_sleepers_are_served
    {s : VirtioDisk T B}
    (hReach : virtioSystem.Reach System.Anything s)
    {t : T}
    {r : DiskCall B}
    {c : DescIdx}
    (hPc : s.pc t = .sleepBuf r c) :
    s.disk r.b = true ∧ c.i0 ∈ s.flight := by
  have hDozing : s.Dozing := hReach.invariant (by rintro _ rfl _ _ _ ⟨⟩)
    (fun _ _ _ h _ hNext => h.step hNext)
  have hDisk := hDozing t r c hPc
  have hStage := (virtioInv_of_reach hReach).progress t
  rw [hPc, VirtioDisk.Progress, VirtioDisk.Stage, if_pos hDisk] at hStage
  exact ⟨hDisk, mem_append.mpr (hStage.imp And.left And.left)⟩

/- A reader sleeps until the device has read. -/
theorem disk_reader_is_served :
    ∃ (s : VirtioDisk Bool Unit) (r : DiskCall Unit) (c : DescIdx),
      s.pc true = .sleepBuf r c ∧ s.disk r.b = true ∧ c.i0 ∈ s.flight := by
  obtain ⟨s, hRun, r, c, hPc⟩ : ∃ s : VirtioDisk Bool Unit,
      virtioSystem.run System.Anything start
          [.lockBuf true (), .rw true () 5 .read, .acquire true, .run true, .run true, .run true,
            .run true, .run true] =
        some s ∧ ∃ r c, s.pc true = .sleepBuf r c :=
    ⟨_, rfl, _, _, rfl⟩
  exact ⟨s, r, c, hPc, disk_sleepers_are_served (System.reach_of_run (.init rfl) hRun) hPc⟩

end Xv6
