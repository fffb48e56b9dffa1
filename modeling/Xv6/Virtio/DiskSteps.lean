import Xv6.Virtio.DiskInv
import Mathlib.Data.List.Perm.Subperm

/-
  Every step of a thread keeps the invariant of the disk
  protocol, and does not fault.

  Main results are:
    * `VirtioInv.quiet`, for steps that the device does
      not notice
    * `VirtioInv.run`
-/

open Function Xv6.VirtioDisk List Xv6.VirtioPc

-------
-- Consequences Of The Invariant
-------

namespace Xv6

variable {T B : Type} [DecidableEq B] {s s' : VirtioDisk T B} {t u : T}

namespace VirtioInv

variable {i x : Nat}

/- At most one thread is between `acquire` and `release`. -/
theorem unlocked_of_ne (h : VirtioInv s) (hLock : s.lock = some t) (hne : u ≠ t) :
    (s.pc u).locked = false := by
  rw [Bool.eq_false_iff]
  intro hTrue
  rw [h.lock u hTrue] at hLock
  exact hne (Option.some.inj hLock)

/- What holds of a thread at its place. -/
theorem here (h : VirtioInv s) {pc : VirtioPc B} (hPc : s.pc t = pc) :
    (∀ r, pc.call = some r → s.owner r.b = some t ∧ r.start ≤ s.performed.length) ∧
      s.Formed pc ∧ s.Progress pc := by
  subst hPc
  exact ⟨h.owner t, h.formed t, h.progress t⟩

theorem unlocked_of_none (h : VirtioInv s) (hLock : s.lock = none) (u : T) :
    (s.pc u).locked = false := by
  rw [Bool.eq_false_iff]
  intro hTrue
  rw [h.lock u hTrue] at hLock
  cases hLock

/- A buffer is in one call. -/
theorem buf_ne (h : VirtioInv s) {r r' : DiskCall B} (ht : (s.pc t).call = some r)
    (hu : (s.pc u).call = some r') (hne : u ≠ t) : r'.b ≠ r.b := by
  intro hEq
  have hOwner := (h.owner u r' hu).1
  rw [hEq, (h.owner t r ht).1] at hOwner
  exact hne (Option.some.inj hOwner).symm

/- Requests in flight are descriptors. -/
theorem flight_lt (h : VirtioInv s) (hx : x ∈ s.flight) : x < NUM := by
  obtain ⟨u, r, c, hSent, rfl, _⟩ := h.sent x hx
  exact (h.owns.bound u _ (mem_held_of_sent hSent)).1

/- A descriptor of another thread is not in flight. -/
theorem not_mem_flight (h : VirtioInv s) (hi : i ∈ (s.pc t).held)
    (hNot : ∀ r c, (s.pc t).sent = some (r, c) → s.disk r.b = false) : i ∉ s.flight := by
  intro hMem
  obtain ⟨u, r, c, hSent, rfl, hDisk⟩ := h.sent i hMem
  have hEq := h.owns.disjoint t u _ hi (mem_held_of_sent hSent)
  subst hEq
  rw [hNot r c hSent] at hDisk
  cases hDisk

theorem length_le_of_lt {l : List Nat} (hNodup : l.Nodup) (hLt : ∀ x ∈ l, x < NUM) :
    l.length ≤ NUM := by
  have hSub : l ⊆ range NUM := fun x hx => mem_range.mpr (hLt x hx)
  have hLe := (subperm_of_subset hNodup hSub).length_le
  rwa [length_range] at hLe

/- The avail ring has room for one more request. -/
theorem avail_room (h : VirtioInv s) (hi : i < NUM) (hNot : i ∉ s.flight) :
    s.avail.unread < NUM := by
  have hLe := length_le_of_lt (nodup_cons.mpr ⟨hNot, h.nodup⟩) (by
      intro x hx
      rcases mem_cons.mp hx with rfl | hx
      · exact hi
      · exact h.flight_lt hx)
  rw [length_cons] at hLe
  unfold flight pending at hLe
  simp only [length_append, RingBuffer.length_contents] at hLe
  omega

/- The used ring has room for one more request. -/
theorem used_room (h : VirtioInv s) (hx : x ∈ s.done) : s.used.unread < NUM := by
  have hLe := length_le_of_lt h.nodup (fun _ => h.flight_lt)
  have hPos := length_pos_of_mem hx
  unfold flight complete at hLe
  simp only [length_append, RingBuffer.length_contents] at hLe
  omega

end VirtioInv

-------
-- Steps Of A Thread
-------

/- All threads but `t` are where they were, or woken up. -/
def VirtioDisk.Others (t : T) (s s' : VirtioDisk T B) : Prop :=
  ∀ u, u ≠ t → s'.pc u = s.pc u ∨ s'.pc u = (s.pc u).wake

namespace VirtioDisk.Others

variable (h : VirtioDisk.Others t s s') (hne : u ≠ t)
include h hne

omit [DecidableEq B] in
theorem held : (s'.pc u).held = (s.pc u).held := by rcases h u hne with hEq | hEq <;> simp [hEq]

omit [DecidableEq B] in
theorem sent : (s'.pc u).sent = (s.pc u).sent := by rcases h u hne with hEq | hEq <;> simp [hEq]

omit [DecidableEq B] in
theorem call : (s'.pc u).call = (s.pc u).call := by rcases h u hne with hEq | hEq <;> simp [hEq]

omit [DecidableEq B] in
theorem locked : (s'.pc u).locked = (s.pc u).locked := by
  rcases h u hne with hEq | hEq <;> simp [hEq]

omit [DecidableEq B] in
theorem formed (x : VirtioDisk T B) : x.Formed (s'.pc u) ↔ x.Formed (s.pc u) := by
  rcases h u hne with hEq | hEq <;> simp [hEq]

theorem progress (x : VirtioDisk T B) : x.Progress (s'.pc u) ↔ x.Progress (s.pc u) := by
  rcases h u hne with hEq | hEq <;> simp [hEq]

omit [DecidableEq B] in
theorem bump {r : DiskCall B} {c : DescIdx} (hPc : s'.pc u = .bump r c) : s.pc u = .bump r c := by
  rcases h u hne with hEq | hEq
  · rw [← hEq, hPc]
  · rw [hEq] at hPc
    exact eq_bump_of_wake hPc

omit [DecidableEq B] in
theorem entry {id : Nat} (hPc : s'.pc u = .intrEntry id) : s.pc u = .intrEntry id := by
  rcases h u hne with hEq | hEq
  · rw [← hEq, hPc]
  · rw [hEq] at hPc
    exact eq_intrEntry_of_wake hPc

end VirtioDisk.Others

/-
  What a step of thread `t` leaves alone: the other threads,
  their descriptors and, unless `t` has the lock, the lock and
  the rings.
-/
structure VirtioDisk.ThreadStep (t : T) (pc : VirtioPc B) (s s' : VirtioDisk T B) : Prop where
  place : s'.pc t = pc := by exact update_self ..
  others : VirtioDisk.Others t s s' := by
    exact fun u hu => .inl (update_of_ne hu ..)
  idle : ∀ u, u ≠ t → (s.pc u).locked = true →
    s'.lock = s.lock ∧ s'.avail = s.avail ∧ s'.used = s.used
  lock : pc.locked = true → s'.lock = some t
  owner : ∀ u r, u ≠ t → (s.pc u).call = some r →
    s'.owner r.b = s.owner r.b := by intros; rfl
  call : ∀ r, pc.call = some r →
    s'.owner r.b = some t ∧ r.start ≤ s.performed.length
  performed : s'.performed = s.performed := by rfl
  chain : ∀ u, u ≠ t → ∀ i ∈ (s.pc u).held,
    s'.desc i = s.desc i ∧ s'.ops i = s.ops i ∧ s'.info i = s.info i := by
      exact fun _ _ _ _ => ⟨rfl, rfl, rfl⟩

theorem VirtioInv.thread [DecidableEq T] {pc : VirtioPc B} (h : VirtioInv s)
    (d : VirtioDisk.ThreadStep t pc s s')
    (hOwns : OwnsDesc (update (fun u => (s.pc u).held) t pc.held) s'.free)
    (hFormed : s'.Formed pc) (hProgress : ∀ u, s'.Progress (s'.pc u)) (hNodup : s'.flight.Nodup)
    (hSent : ∀ x ∈ s'.flight, ∃ u r c, (s'.pc u).sent = some (r, c) ∧ c.i0 = x ∧ s'.disk r.b = true)
    (hStatus : ∀ x ∈ s'.complete, (s'.info x).status = 0)
    (hSlot : ∀ r c, pc = .bump r c → s'.avail.data (s'.avail.nwrite.toNat % NUM) = c.i0)
    (hEntry : ∀ id, pc = .intrEntry id → s'.used.nread ≠ s'.used.nwrite ∧ s'.used.front NUM = id)
    (hOffered : s'.offered = s'.fetched ++ s'.avail.contents NUM)
    (hPushed : s'.pushed = s'.popped ++ s'.used.contents NUM) : VirtioInv s' := by
  obtain rfl := d.place
  exact
    { lock := by
        intro u hu
        by_cases hut : u = t
        · rw [hut] at hu ⊢
          exact d.lock hu
        · rw [d.others.locked hut] at hu
          rw [(d.idle u hut hu).1]
          exact h.lock u hu
      owner := by
        intro u r hr
        rw [d.performed]
        by_cases hut : u = t
        · rw [hut] at hr ⊢
          exact d.call r hr
        · rw [d.others.call hut] at hr
          rw [d.owner u r hut hr]
          exact h.owner u r hr
      owns := by
        have hEq : (fun u => (s'.pc u).held) = update (fun u => (s.pc u).held) t
              (s'.pc t).held := by
          funext u
          by_cases hut : u = t
          · rw [hut, update_self]
          · rw [update_of_ne hut, d.others.held hut]
        rw [hEq]
        exact hOwns
      formed := by
        intro u
        by_cases hut : u = t
        · rw [hut]
          exact hFormed
        · rw [d.others.formed hut]
          refine (h.formed u).frame (fun i hi => ?_)
          obtain ⟨hDesc, hOps, hInfo⟩ := d.chain u hut i hi
          exact ⟨hDesc, hOps, by rw [hInfo]⟩
      progress := hProgress
      nodup := hNodup
      sent := hSent
      status := hStatus
      slot := by
        intro u r c hPc
        by_cases hut : u = t
        · rw [hut] at hPc
          exact hSlot r c hPc
        · have hOld := d.others.bump hut hPc
          rw [(d.idle u hut (by rw [hOld]; rfl)).2.1]
          exact h.slot u r c hOld
      entry := by
        intro u id hPc
        by_cases hut : u = t
        · rw [hut] at hPc
          exact hEntry id hPc
        · have hOld := d.others.entry hut hPc
          rw [(d.idle u hut (by rw [hOld]; rfl)).2.2]
          exact h.entry u id hOld
      offered := hOffered
      pushed := hPushed }

/- A step of a thread that the device does not notice. -/
structure VirtioDisk.Quiet (t : T) (pc : VirtioPc B) (s s' : VirtioDisk T B) : Prop
    extends VirtioDisk.ThreadStep t pc s s' where
  avail : s'.avail.contents NUM = s.avail.contents NUM := by rfl
  used : s'.used = s.used := by rfl
  taken : s'.taken = s.taken := by rfl
  done : s'.done = s.done := by rfl
  offered : s'.offered = s.offered := by rfl
  fetched : s'.fetched = s.fetched := by rfl
  pushed : s'.pushed = s.pushed := by rfl
  popped : s'.popped = s.popped := by rfl
  disk : ∀ u r, u ≠ t → (s.pc u).call = some r →
    s'.disk r.b = s.disk r.b := by intros; rfl
  own : ∀ r c, (s.pc t).sent = some (r, c) → s.disk r.b = true →
      pc.sent = some (r, c) ∧ s'.disk r.b = true ∧ s'.info c.i0 = s.info c.i0

theorem VirtioInv.quiet [DecidableEq T] (h : VirtioInv s) (t : T) (pc : VirtioPc B)
    (q : VirtioDisk.Quiet t pc s s')
    (hOwns : OwnsDesc (update (fun u => (s.pc u).held) t pc.held) s'.free)
    (hFormed : s'.Formed pc) (hProgress : s'.Progress pc)
    (hSlot : ∀ r c, pc = .bump r c → s'.avail.data (s'.avail.nwrite.toNat % NUM) = c.i0)
    (hEntry : ∀ id, pc = .intrEntry id → s.used.nread ≠ s.used.nwrite ∧ s.used.front NUM = id) :
    VirtioInv s' := by
  have hPending : s'.pending = s.pending := by
    unfold pending
    rw [q.avail, q.taken]
  have hComplete : s'.complete = s.complete := by
    unfold complete
    rw [q.done, q.used]
  have hFlight : s'.flight = s.flight := by
    unfold flight
    rw [hPending, hComplete]
  -- a request in flight belongs to a thread that goes on
  have hSent : ∀ x ∈ s.flight, (s'.info x = s.info x) ∧
      ∃ u r c, (s'.pc u).sent = some (r, c) ∧ c.i0 = x ∧ s'.disk r.b = true := by
    intro x hx
    obtain ⟨u, r, c, hSent, rfl, hDisk⟩ := h.sent x hx
    by_cases hu : u = t
    · subst hu
      obtain ⟨hSent', hDisk', hInfo⟩ := q.own r c hSent hDisk
      refine ⟨hInfo, u, r, c, ?_, rfl, hDisk'⟩
      rw [q.place, hSent']
    · have hCall := call_of_sent hSent
      refine ⟨(q.chain u hu _ (mem_held_of_sent hSent)).2.2, u, r, c, ?_, rfl, ?_⟩
      · rw [q.others.sent hu, hSent]
      · rw [q.disk u r hu hCall, hDisk]
  refine h.thread q.toThreadStep hOwns hFormed ?_ ?_ ?_ ?_ hSlot ?_ ?_ ?_
  · intro u
    by_cases hut : u = t
    · rw [hut, q.place]
      exact hProgress
    rw [q.others.progress hut]
    refine (h.progress u).frame (fun r => q.disk u r hut) (fun r _ => ?_) ?_
    · unfold log
      rw [q.performed]
    · intro r c _
      rw [hPending, hComplete]
      exact ⟨id, id⟩
  · rw [hFlight]
    exact h.nodup
  · rw [hFlight]
    exact fun x hx => (hSent x hx).2
  · rw [hComplete]
    intro x hx
    rw [(hSent x (mem_append_right _ hx)).1]
    exact h.status x hx
  · rw [q.used]
    exact hEntry
  · rw [q.offered, q.fetched, q.avail]
    exact h.offered
  · rw [q.pushed, q.popped, q.used]
    exact h.pushed

-------
-- Quiet Steps
-------

variable [DecidableEq T] {r : DiskCall B} {c : DescIdx}

namespace VirtioDisk

omit [DecidableEq B] in
@[simp] theorem setPc_self (pc : VirtioPc B) : (s.setPc t pc).pc t = pc := update_self ..

omit [DecidableEq B] in
theorem Others.setPc (h : Others t s s') (pc : VirtioPc B) : Others t s (s'.setPc t pc) := by
  intro u hu
  have hEq : (s'.setPc t pc).pc u = s'.pc u := update_of_ne hu ..
  rw [hEq]
  exact h u hu

end VirtioDisk

namespace VirtioInv

variable {l : Option T} {pc : VirtioPc B}

omit [DecidableEq T] in
/- No other thread has the lock. -/
theorem idle (h : VirtioInv s) (hLock : s.lock = some t) {P : Prop} (u : T) (hne : u ≠ t)
    (hTrue : (s.pc u).locked = true) : P := by
  rw [h.unlocked_of_ne hLock hne] at hTrue
  cases hTrue

/- The descriptors when a thread keeps those it has. -/
theorem owns_same (h : VirtioInv s) {l : List Nat} (hHeld : l = (s.pc t).held) :
    OwnsDesc (update (fun u => (s.pc u).held) t l) s.free := by
  rw [hHeld, update_eq_self]
  exact h.owns

/-
  A thread goes from one place to another with what it has,
  and may take or release the lock.
-/
theorem move (h : VirtioInv s) (hIdle : ∀ u, u ≠ t → (s.pc u).locked = true → l = s.lock)
    (hLock : pc.locked = true → l = some t)
    (hCall : ∀ r, pc.call = some r → s.owner r.b = some t ∧ r.start ≤ s.performed.length)
    (hHeld : pc.held = (s.pc t).held)
    (hSent : ∀ r c, (s.pc t).sent = some (r, c) → s.disk r.b = true → pc.sent = some (r, c))
    (hFormed : s.Formed pc) (hProgress : s.Progress pc)
    (hSlot : ∀ r c, pc = .bump r c → s.avail.data (s.avail.nwrite.toNat % NUM) = c.i0)
    (hEntry : ∀ id, pc = .intrEntry id → s.used.nread ≠ s.used.nwrite ∧ s.used.front NUM = id) :
    VirtioInv ({ s with lock := l }.setPc t pc) := by
  have q : VirtioDisk.Quiet t pc s ({ s with lock := l }.setPc t pc) :=
    { idle := fun u hu hTrue => ⟨hIdle u hu hTrue, rfl, rfl⟩
      lock := hLock
      call := hCall
      own := fun r c hs hd => ⟨hSent r c hs hd, hd, rfl⟩ }
  refine h.quiet t pc q (h.owns_same hHeld) ?_ ?_ hSlot hEntry
  · exact hFormed.frame (fun _ _ => ⟨rfl, rfl, rfl⟩)
  · exact hProgress.frame (fun _ _ => rfl) (fun _ _ => rfl) (fun _ _ _ => ⟨id, id⟩)

/- `kill`. -/
theorem kill (h : VirtioInv s) (t : T) : VirtioInv (s.setPc t (s.pc t).wake) := by
  refine h.move (fun _ _ _ => rfl) ?_ ?_ ?_ ?_ ?_ ?_ ?_ ?_
  · rw [locked_wake]
    exact h.lock t
  · rw [call_wake]
    exact h.owner t
  · rw [held_wake]
  · intro r c hs _
    rw [sent_wake, hs]
  · rw [formed_wake]
    exact h.formed t
  · rw [progress_wake]
    exact h.progress t
  · exact fun r c hEq => h.slot t r c (eq_bump_of_wake hEq)
  · exact fun id hEq => h.entry t id (eq_intrEntry_of_wake hEq)

/- A call begins, with a buffer that its thread has locked. -/
theorem enter (h : VirtioInv s) (hPc : s.pc t = .out) (hOwner : s.owner r.b = some t)
    (hStart : r.start = s.performed.length) : VirtioInv (s.setPc t (.start r)) := by
  refine h.move (fun _ _ _ => rfl) (by rintro ⟨⟩) ?_
    (by rw [hPc]; rfl) ?_ trivial ?_ (by simp) (by simp)
  · rintro _ ⟨⟩
    exact ⟨hOwner, hStart.le⟩
  · rw [hPc]
    rintro _ _ ⟨⟩
  · change s.log r = []
    unfold log
    rw [hStart, drop_length, filter_nil]

/- Any place of a thread that has no request. -/
theorem moveIdle (h : VirtioInv s) (hIdle : ∀ u, u ≠ t → (s.pc u).locked = true → l = s.lock)
    (hLock : pc.locked = true → l = some t) (hHeld : (s.pc t).held = [])
    (hSent : (s.pc t).sent = none)
    (hOut : pc = .out ∨ pc = .intrStart ∨ pc = .intrLoop ∨
      pc = .intrLeave ∨ pc = .intrEntry (s.used.front NUM) ∧ s.used.nread ≠ s.used.nwrite) :
    VirtioInv ({ s with lock := l }.setPc t pc) := by
  have hSent' (r : DiskCall B) (c : DescIdx) (hs : (s.pc t).sent = some (r, c)) {P : Prop} : P := by
    rw [hSent] at hs
    cases hs
  have hRest : pc.call = none ∧ pc.held = [] ∧
      s.Formed pc ∧ s.Progress pc ∧ (∀ r c, pc ≠ .bump r c) ∧
      (∀ id, pc = .intrEntry id → s.used.nread ≠ s.used.nwrite ∧ s.used.front NUM = id) := by
    rcases hOut with rfl | rfl | rfl | rfl | ⟨rfl, hSome⟩
    · exact ⟨rfl, rfl, trivial, trivial, by simp, by simp⟩
    · exact ⟨rfl, rfl, trivial, trivial, by simp, by simp⟩
    · exact ⟨rfl, rfl, trivial, trivial, by simp, by simp⟩
    · exact ⟨rfl, rfl, trivial, trivial, by simp, by simp⟩
    · refine ⟨rfl, rfl, trivial, trivial, by simp, ?_⟩
      rintro _ ⟨⟩
      exact ⟨hSome, rfl⟩
  obtain ⟨hCall, hEmpty, hFormed, hProgress, hBump, hEntry⟩ := hRest
  refine h.move hIdle hLock ?_ (by rw [hEmpty, hHeld]) ?_ hFormed hProgress ?_ hEntry
  · intro r hr
    rw [hCall] at hr
    cases hr
  · exact fun r c hs _ => hSent' r c hs
  · exact fun r c hEq => absurd hEq (hBump r c)

end VirtioInv

end Xv6

-------
-- Descriptors
-------

namespace Xv6

variable {T B : Type} {s : VirtioDisk T B}

namespace VirtioDisk

variable {i : Nat} {s' : VirtioDisk T B} {free : Nat → Bool}

theorem allocDesc_some (h : s.allocDesc = some (i, s')) :
    i < NUM ∧ s.free i = true ∧ s' = { s with free := update s.free i false } := by
  unfold allocDesc at h
  cases hFind : (range NUM).find? s.free with
  | none =>
    rw [hFind] at h
    cases h
  | some j =>
    rw [hFind] at h
    cases h
    exact ⟨mem_range.mp (mem_of_find?_eq_some hFind), find?_some hFind, rfl⟩

theorem wakeup_cases (s : VirtioDisk T B) (sleeps : VirtioPc B → Bool) (u : T) :
    (s.wakeup sleeps).pc u = s.pc u ∨ (s.wakeup sleeps).pc u = (s.pc u).wake := by
  unfold wakeup
  dsimp only
  split
  · exact .inr rfl
  · exact .inl rfl

theorem freeDesc_eq (hLt : i < NUM) (hUsed : s.free i = false) :
    s.freeDesc i = .next ({ s with
        desc := update s.desc i .zero
        free := update s.free i true
        }.wakeup VirtioPc.onFree) := by
  unfold freeDesc
  rw [if_neg (Nat.not_le.mpr hLt), hUsed]
  rfl

/-
  The states of an allocation that is taken back: descriptors
  that are free were cleared, and threads may have been woken
  up.
-/
structure Undone (s s' : VirtioDisk T B) : Prop where
  rest : ∃ desc free pc, s' = { s with desc := desc, free := free, pc := pc }
  desc : ∀ i, s.free i = false → s'.desc i = s.desc i
  pc : ∀ u, s'.pc u = s.pc u ∨ s'.pc u = (s.pc u).wake

theorem Undone.taken (s : VirtioDisk T B) (free : Nat → Bool) : Undone s { s with free := free } :=
  ⟨⟨_, _, _, rfl⟩, fun _ _ => rfl, fun _ => .inl rfl⟩

theorem Undone.freeDesc (h : Undone s s') (hLt : i < NUM) (hFree : s.free i = true)
    (hUsed : s'.free i = false) :
    ∃ s'', s'.freeDesc i = .next s'' ∧ Undone s s'' ∧ s''.free = update s'.free i true := by
  refine ⟨_, freeDesc_eq hLt hUsed, ⟨?_, ?_, ?_⟩, rfl⟩
  · obtain ⟨desc, free, pc, rfl⟩ := h.rest
    exact ⟨_, _, _, rfl⟩
  · intro j hj
    rw [← h.desc j hj]
    refine update_of_ne ?_ ..
    rintro rfl
    rw [hFree] at hj
    cases hj
  · intro u
    rcases wakeup_cases
        { s' with
          desc := update s'.desc i .zero
          free := update s'.free i true }
        onFree u with hEq | hEq
    · rw [hEq]
      exact h.pc u
    · rw [hEq]
      rcases h.pc u with hOld | hOld
      · exact .inr (by rw [hOld])
      · exact .inr (by rw [hOld, wake_wake])

/- A descriptor that is taken and given back. -/
theorem update_free_back (hFree : free i = true) :
    update (update free i false) i true =
      free := by
  rw [update_idem, ← hFree, update_eq_self]

/- What is free after one descriptor was taken. -/
theorem free_of_update {j : Nat} (h : update free i false j = true) : j ≠ i ∧ free j = true := by
  have hne : j ≠ i := by
    rintro rfl
    rw [update_self] at h
    cases h
  rw [update_of_ne hne] at h
  exact ⟨hne, h⟩

/- Three free descriptors are taken, or none. -/
theorem alloc3Desc_cases (s : VirtioDisk T B) :
    (∃ c free, s.alloc3Desc = .next (some c, { s with free := free }) ∧ c.toList.Nodup ∧
      (∀ i ∈ c.toList, i < NUM ∧ s.free i = true) ∧
      ∀ i, free i = (s.free i && !c.toList.contains i)) ∨
    (∃ s', s.alloc3Desc = .next (none, s') ∧ Undone s s' ∧ s'.free = s.free) := by
  unfold alloc3Desc
  cases h0 : s.allocDesc with
  | none => exact .inr ⟨s, rfl, .taken s s.free, rfl⟩
  | some x0 =>
    obtain ⟨i0, s₀⟩ := x0
    obtain ⟨hLt0, hFree0, rfl⟩ := allocDesc_some h0
    dsimp only
    cases h1 : allocDesc
        { s with free := update s.free i0 false } with
    | none =>
      right
      obtain ⟨s', hEq, hUndone, hFree⟩ :=
        (Undone.taken s (update s.free i0 false)).freeDesc hLt0 hFree0 (update_self ..)
      rw [hEq]
      refine ⟨s', rfl, hUndone, ?_⟩
      rw [hFree]
      exact update_free_back hFree0
    | some x1 =>
      obtain ⟨i1, s₁⟩ := x1
      obtain ⟨hLt1, hFree1, rfl⟩ := allocDesc_some h1
      obtain ⟨h10, hFree1⟩ := free_of_update hFree1
      dsimp only
      cases h2 : allocDesc
          { s with
            free := update (update s.free i0 false) i1 false } with
      | none =>
        right
        obtain ⟨s₂, hEq, hUndone, hFree⟩ :=
          (Undone.taken s (update (update s.free i0 false) i1 false)).freeDesc hLt0 hFree0 (by
              dsimp only
              rw [update_of_ne h10.symm, update_self])
        dsimp only at hFree
        obtain ⟨s', hEq', hUndone', hFree'⟩ :=
          hUndone.freeDesc hLt1 hFree1 (by
            rw [hFree, update_of_ne h10, update_self])
        rw [hEq, Outcome.bind_next, hEq']
        refine ⟨s', rfl, hUndone', ?_⟩
        -- both are free again
        rw [hFree', hFree]
        funext i
        grind
      | some x2 =>
        obtain ⟨i2, s₂⟩ := x2
        obtain ⟨hLt2, hFree2, rfl⟩ := allocDesc_some h2
        obtain ⟨h21, hFree2⟩ := free_of_update hFree2
        obtain ⟨h20, hFree2⟩ := free_of_update hFree2
        left
        refine ⟨⟨i0, i1, i2⟩, _, rfl, ?_, ?_, ?_⟩
        · simp [DescIdx.toList, Ne.symm h10, Ne.symm h20, Ne.symm h21]
        · simp [DescIdx.toList, hLt0, hLt1, hLt2, hFree0, hFree1, hFree2]
        · intro i
          simp only [DescIdx.toList]
          grind

end VirtioDisk

-------
-- A Request
-------

variable {T B : Type} [DecidableEq T] [DecidableEq B] {s s' : VirtioDisk T B} {t u : T}
variable {r : DiskCall B} {c : DescIdx}

namespace VirtioInv

omit [DecidableEq T] in
/- Another thread has other descriptors. -/
theorem desc_ne (h : VirtioInv s) {i j : Nat} (hi : i ∈ (s.pc u).held)
    (hj : j ∈ (s.pc t).held) (hne : u ≠ t) : i ≠ j := by
  rintro rfl
  exact hne (h.owns.disjoint u t i hi hj)

section

variable (h : VirtioInv s) (hLock : s.lock = some t)
include h hLock

theorem alloc_some (hPc : s.pc t = .alloc r) {free : Nat → Bool} (hNodup : c.toList.Nodup)
    (hFree : ∀ i ∈ c.toList, i < NUM ∧ s.free i = true)
    (hFree' : ∀ i, free i = (s.free i && !c.toList.contains i)) :
    VirtioInv ({ s with free := free }.setPc t (.format r c)) := by
  obtain ⟨hOwner, _, hProg⟩ := h.here hPc
  refine h.quiet t (.format r c) ?_ ?_ ?_ ?_ ?_ ?_
  · exact
      { idle := h.idle hLock
        lock := fun _ => hLock
        call := hOwner
        own := by rw [hPc]; rintro _ _ ⟨⟩ }
  · exact h.owns.take hNodup hFree hFree'
  · trivial
  · exact hProg
  · simp
  · simp

theorem alloc_none (hPc : s.pc t = .alloc r) (hUndone : s.Undone s') (hFree : s'.free = s.free) :
    VirtioInv ({ s' with lock := none }.setPc t (.sleepFree r)) := by
  obtain ⟨hOwner, _, hProg⟩ := h.here hPc
  obtain ⟨⟨desc, free, pc, rfl⟩, hDesc, hOthers⟩ := hUndone
  dsimp only at hFree hDesc hOthers
  subst hFree
  refine h.quiet t (.sleepFree r) ?_ ?_ ?_ ?_ ?_ ?_
  · exact
      { others := VirtioDisk.Others.setPc (fun u _ => hOthers u) _
        idle := h.idle hLock
        lock := by rintro ⟨⟩
        call := hOwner
        chain := fun u _ i hi => ⟨hDesc i (h.owns.bound u i hi).2, rfl, rfl⟩
        own := by rw [hPc]; rintro _ _ ⟨⟩ }
  · exact h.owns_same (by rw [hPc]; rfl)
  · trivial
  · exact hProg
  · simp
  · simp

theorem format (hPc : s.pc t = .format r c) :
    VirtioInv ((s.formatDesc r c).setPc t (.offer r c)) := by
  obtain ⟨hOwner, _, hProg⟩ := h.here hPc
  have hHeld : (s.pc t).held = c.toList := by rw [hPc]; rfl
  have hNodup := h.owns.nodup t
  rw [hHeld] at hNodup
  simp only [DescIdx.toList, nodup_cons, mem_cons, not_or] at hNodup
  obtain ⟨⟨h01, h02⟩, h12, -⟩ := hNodup
  refine h.quiet t (.offer r c) ?_ ?_ ?_ ?_ ?_ ?_
  · exact
      { idle := h.idle hLock
        lock := fun _ => hLock
        call := hOwner
        chain := by
          intro u hu i hi
          have hne {j : Nat} (hj : j ∈ c.toList) : i ≠ j :=
            h.desc_ne hi (by rw [hHeld]; exact hj) hu
          have h0 := hne (j := c.i0) (by simp [DescIdx.toList])
          have h1 := hne (j := c.i1) (by simp [DescIdx.toList])
          have h2 := hne (j := c.i2) (by simp [DescIdx.toList])
          simp [setPc, formatDesc, h0, h1, h2]
        disk := fun u r' hu hr' => update_of_ne (h.buf_ne (by rw [hPc]; rfl) hr' hu) ..
        own := by rw [hPc]; rintro _ _ ⟨⟩ }
  · exact h.owns_same hHeld.symm
  · refine ⟨?_, ?_, ?_, ?_, ?_⟩ <;>
      simp [setPc, formatDesc, h01, h02, h12]
  · exact ⟨hProg, update_self ..⟩
  · simp
  · simp

end

omit [DecidableEq T] in
/- The head of a new request is not yet in flight. -/
theorem head_room (h : VirtioInv s) (hHead : c.i0 ∈ (s.pc t).held)
    (hSent : (s.pc t).sent = none) : c.i0 ∉ s.flight ∧ s.avail.unread < NUM := by
  have hNot := h.not_mem_flight hHead (by
    intro r' c' hs
    rw [hSent] at hs
    cases hs)
  exact ⟨hNot, h.avail_room (h.owns.bound t _ hHead).1 hNot⟩

section

variable (h : VirtioInv s) (hLock : s.lock = some t)
include h hLock

theorem offer (hPc : s.pc t = .offer r c) :
    VirtioInv ({ s with avail := s.avail.store NUM c.i0 }.setPc t (.bump r c)) := by
  obtain ⟨hOwner, hForm, hProg⟩ := h.here hPc
  have hRoom := (h.head_room (by rw [hPc]; exact mem_cons_self)
    (by rw [hPc]; rfl)).2
  refine h.quiet t (.bump r c) ?_ ?_ ?_ ?_ ?_ ?_
  · exact
      { idle := h.idle hLock
        lock := fun _ => hLock
        call := hOwner
        avail := RingBuffer.contents_store (by decide) hRoom _
        own := by rw [hPc]; rintro _ _ ⟨⟩ }
  · exact h.owns_same (by rw [hPc]; rfl)
  · exact VirtioDisk.Formed.frame
      (show s.Formed (.bump r c) from hForm) (fun _ _ => ⟨rfl, rfl, rfl⟩)
  · exact hProg
  · rintro _ _ ⟨⟩
    exact update_self ..
  · simp

theorem bump (hPc : s.pc t = .bump r c) :
    VirtioInv ({ s with
        avail := s.avail.advance
        offered := s.offered ++ [c.i0] }.setPc t (.wait r c)) := by
  obtain ⟨hOwner, hForm, hProg⟩ := h.here hPc
  obtain ⟨hNew, hRoom⟩ := h.head_room (by rw [hPc]; exact mem_cons_self)
    (by rw [hPc]; rfl)
  have hAvail : s.avail.advance.contents NUM = s.avail.contents NUM ++ [c.i0] :=
    RingBuffer.contents_advance (by decide) (by decide) hRoom (h.slot t r c hPc)
  generalize hs' : ({ s with
      avail := s.avail.advance
      offered := s.offered ++ [c.i0] }.setPc t (.wait r c)) = s'
  have d : VirtioDisk.ThreadStep t (.wait r c) s s' := by
    subst hs'
    exact
      { idle := h.idle hLock
        lock := fun _ => hLock
        call := hOwner }
  have hPending : s'.pending = s.avail.contents NUM ++ [c.i0] ++ s.taken := by
    subst hs'
    exact congrArg (· ++ s.taken) hAvail
  have hComplete : s'.complete = s.complete := by
    subst hs'
    rfl
  have hPerm : s'.flight.Perm (c.i0 :: s.flight) := by
    unfold flight
    rw [hPending, hComplete]
    unfold pending
    simp only [append_assoc]
    exact perm_middle
  refine h.thread d ?_ ?_ ?_ ?_ ?_ ?_ (by simp) (by simp) ?_ ?_
  · subst hs'
    exact h.owns_same (by rw [hPc]; rfl)
  · subst hs'
    exact VirtioDisk.Formed.frame
      (show s.Formed (.wait r c) from hForm) (fun _ _ => ⟨rfl, rfl, rfl⟩)
  · intro u
    by_cases hut : u = t
    · rw [hut, d.place]
      have hDisk : s'.disk r.b = true := by
        subst hs'
        exact hProg.2
      have hLog : s'.log r = [] := by
        subst hs'
        exact hProg.1
      change s'.Stage r c
      unfold VirtioDisk.Stage
      rw [if_pos hDisk, hPending]
      exact .inl ⟨by simp, hLog⟩
    · rw [d.others.progress hut]
      refine (h.progress u).frame ?_ ?_ ?_
      · subst hs'
        exact fun _ _ => rfl
      · subst hs'
        exact fun _ _ => rfl
      · intro r' c' _
        rw [hPending, hComplete]
        refine ⟨fun hMem => ?_, id⟩
        rcases mem_append.mp hMem with hMem | hMem
        · exact mem_append_left _ (mem_append_left _ hMem)
        · exact mem_append_right _ hMem
  · rw [hPerm.nodup_iff, nodup_cons]
    exact ⟨hNew, h.nodup⟩
  · intro x hx
    rcases mem_cons.mp (hPerm.mem_iff.mp hx) with rfl | hx
    · refine ⟨t, r, c, by rw [d.place]; rfl, rfl, ?_⟩
      subst hs'
      exact hProg.2
    obtain ⟨u, r', c', hSent, hHead, hDisk⟩ := h.sent x hx
    have hut : u ≠ t := by
      rintro rfl
      rw [hPc] at hSent
      cases hSent
    refine ⟨u, r', c', ?_, hHead, ?_⟩
    · rw [d.others.sent hut, hSent]
    · subst hs'
      exact hDisk
  · subst hs'
    exact h.status
  · subst hs'
    change s.offered ++ [c.i0] = s.fetched ++ s.avail.advance.contents NUM
    rw [hAvail, ← append_assoc, ← h.offered]
  · subst hs'
    exact h.pushed

/- The thread finds the request finished, or sleeps. -/
theorem wait (hPc : s.pc t = .wait r c) :
    VirtioInv (if s.disk r.b then
        { s with lock := none }.setPc t (.sleepBuf r c)
      else s.setPc t (.clear r c)) := by
  obtain ⟨hOwner, hForm, hProg⟩ := h.here hPc
  split
  · refine h.move (h.idle hLock) (by rintro ⟨⟩) hOwner (by rw [hPc]; rfl)
      ?_ hForm hProg (by simp) (by simp)
    rw [hPc]
    exact fun _ _ hs _ => hs
  next hFalse =>
    refine h.move (fun _ _ _ => rfl)
      (fun _ => hLock) hOwner (by rw [hPc]; rfl) ?_ hForm ?_
      (by simp) (by simp)
    · rw [hPc]
      rintro _ _ ⟨⟩ hTrue
      exact absurd hTrue hFalse
    · change s.Stage r c at hProg
      unfold VirtioDisk.Stage at hProg
      rw [if_neg hFalse] at hProg
      exact hProg

theorem clear (hPc : s.pc t = .clear r c) :
    VirtioInv ({ s with
        info :=
          update s.info c.i0
            { s.info c.i0 with b := none }
        }.setPc t (.free r c c.i0)) := by
  obtain ⟨hOwner, hForm, hProg⟩ := h.here hPc
  have hHeld : (s.pc t).held = c.toList := by rw [hPc]; rfl
  have hNodup := h.owns.nodup t
  rw [hHeld] at hNodup
  have hLinks : s.Links c c.i0 := VirtioDisk.Formatted.links hForm hNodup
  refine h.quiet t (.free r c c.i0) ?_ ?_ hLinks hProg (by simp) (by simp)
  · exact
      { idle := h.idle hLock
        lock := fun _ => hLock
        call := hOwner
        chain := by
          intro u hu i hi
          have hne := h.desc_ne hi (by rw [hHeld]; exact mem_cons_self) hu
          exact ⟨rfl, rfl, update_of_ne hne ..⟩
        own := by rw [hPc]; rintro _ _ ⟨⟩ }
  · refine h.owns_same ?_
    rw [hHeld]
    exact if_pos rfl

/- One descriptor of a chain is freed. -/
theorem free {i : Nat} (hPc : s.pc t = .free r c i) :
    ∃ s', s.freeDesc i = .next s' ∧ VirtioInv (if (s.desc i).has VRING_DESC_F_NEXT then
          s'.setPc t (.free r c (s.desc i).next)
        else s'.setPc t (.leave r)) := by
  obtain ⟨hOwner, hLinks, hProg⟩ := h.here hPc
  have hHeld : (s.pc t).held = c.rest i := by rw [hPc]; rfl
  have hMem : i ∈ (s.pc t).held := by
    rw [hHeld]
    rcases VirtioDisk.Links.next hLinks with ⟨_, hRest, _⟩ | ⟨_, hRest⟩
    · rw [hRest]
      exact mem_cons_self
    · rw [hRest]
      exact mem_cons_self
  obtain ⟨hLt, hUsed⟩ := h.owns.bound t i hMem
  refine ⟨_, freeDesc_eq hLt hUsed, ?_⟩
  generalize hx : ({ s with
      desc := update s.desc i .zero
      free := update s.free i true
      }.wakeup onFree) = x
  have hOthers : VirtioDisk.Others t s x := by
    subst hx
    exact fun u _ => wakeup_cases _ _ u
  have hQuiet (pc : VirtioPc B) (hCall : ∀ r', pc.call = some r' → r' = r) :
      VirtioDisk.Quiet t pc s (x.setPc t pc) := by
    subst hx
    exact
      { others := hOthers.setPc _
        idle := h.idle hLock
        lock := fun _ => hLock
        call := by
          intro r' hr'
          rw [hCall r' hr']
          exact hOwner r rfl
        chain := fun u hu j hj =>
          ⟨update_of_ne (h.desc_ne hj hMem hu) .., rfl, rfl⟩
        own := by rw [hPc]; rintro _ _ ⟨⟩ }
  have hLog : x.log r = [r.op] := by
    subst hx
    exact hProg
  rcases VirtioDisk.Links.next hLinks with ⟨hNext, hRest, hLinks'⟩ | ⟨hNext, hRest⟩
  · rw [if_pos hNext]
    refine h.quiet t (.free r c (s.desc i).next)
      (hQuiet _ (by rintro _ ⟨⟩; rfl)) ?_ ?_ hLog (by simp) (by simp)
    · subst hx
      exact h.owns.give (hHeld.trans hRest)
    -- the rest of the chain is still linked
    have hne : ∀ j ∈ c.rest (s.desc i).next, j ≠ i := by
      intro j hj
      have hNodup := h.owns.nodup t
      rw [hHeld, hRest, nodup_cons] at hNodup
      rintro rfl
      exact hNodup.1 hj
    refine VirtioDisk.Formed.frame (show s.Formed (.free r c (s.desc i).next) from hLinks') ?_
    subst hx
    exact fun j hj => ⟨update_of_ne (hne j hj) .., rfl, rfl⟩
  · rw [if_neg (by rw [hNext]; decide)]
    refine h.quiet t (.leave r) (hQuiet _ (by rintro _ ⟨⟩; rfl)) ?_ trivial hLog (by simp) (by simp)
    subst hx
    exact h.owns.give (hHeld.trans hRest)

end

end VirtioInv

-------
-- The Interrupt Handler
-------

namespace VirtioInv

omit [DecidableEq T] in
/- A used entry is the head of a request that was done. -/
theorem used_entry (h : VirtioInv s) {x : Nat} (hx : x ∈ s.complete) :
    ∃ u r c, (s.pc u).sent = some (r, c) ∧ c.i0 = x ∧ s.disk r.b = true ∧ s.log r = [r.op] ∧
      s.info x = { b := some r.b, status := 0 } := by
  obtain ⟨u, r, c, hSent, rfl, hDisk⟩ := h.sent x (mem_append_right _ hx)
  have hForm := h.formed u
  rw [formed_of_sent hSent] at hForm
  have hStage := h.progress u
  rw [progress_of_sent hSent] at hStage
  unfold VirtioDisk.Stage at hStage
  rw [if_pos hDisk] at hStage
  have hNot : c.i0 ∉ s.pending := fun hMem => (nodup_append.mp h.nodup).2.2 _ hMem _ hx rfl
  have hLog : s.log r = [r.op] := (hStage.resolve_left (fun hEq => hNot hEq.1)).2
  refine ⟨u, r, c, hSent, rfl, hDisk, hLog, ?_⟩
  rw [← hForm.buf, ← h.status c.i0 hx]

theorem intrEntry (h : VirtioInv s) (hLock : s.lock = some t) {id : Nat}
    (hPc : s.pc t = .intrEntry id) :
    ∃ b, s.info id = { b := some b, status := 0 } ∧ VirtioInv (({ s with
          disk := update s.disk b false
          used := s.used.pop
          popped := s.popped ++ [id]
          }.wakeup (VirtioPc.onBuf b)).setPc t .intrLoop) := by
  obtain ⟨hSome, hFront⟩ := h.entry t id hPc
  have hUsed : s.used.contents NUM = id :: s.used.pop.contents NUM := by
    rw [← hFront]
    refine RingBuffer.contents_pop (by decide) ?_
    rw [Nat.pos_iff_ne_zero, Ne, RingBuffer.unread_eq_zero_iff]
    exact hSome
  have hPerm : s.flight.Perm (id :: (s.pending ++ (s.done ++ s.used.pop.contents NUM))) := by
    unfold flight complete
    rw [hUsed, ← append_assoc, ← append_assoc]
    exact perm_middle
  have hNodup := h.nodup
  rw [hPerm.nodup_iff, nodup_cons] at hNodup
  have hMem : id ∈ s.complete := by
    unfold complete
    rw [hUsed]
    simp
  obtain ⟨v, r, c, hSent, hHead, hDisk, hLog, hInfo⟩ := h.used_entry hMem
  have hCall := call_of_sent hSent
  refine ⟨r.b, hInfo, ?_⟩
  generalize hs' : (({ s with
      disk := update s.disk r.b false
      used := s.used.pop
      popped := s.popped ++ [id]
      }.wakeup (onBuf r.b)).setPc t .intrLoop) = s'
  have hDisk' : s'.disk = update s.disk r.b false := by
    subst hs'
    rfl
  have hLog' (r' : DiskCall B) : s'.log r' = s.log r' := by
    subst hs'
    rfl
  have hPending : s'.pending = s.pending := by
    subst hs'
    rfl
  have hComplete : s'.complete = s.done ++ s.used.pop.contents NUM := by
    subst hs'
    rfl
  have hSub : ∀ x ∈ s'.complete, x ∈ s.complete := by
    rw [hComplete]
    unfold complete
    rw [hUsed]
    intro x hx
    rcases mem_append.mp hx with hx | hx
    · exact mem_append_left _ hx
    · exact mem_append_right _ (mem_cons_of_mem _ hx)
  have d : VirtioDisk.ThreadStep t .intrLoop s s' := by
    subst hs'
    exact
      { others := VirtioDisk.Others.setPc (fun u _ => wakeup_cases _ _ u) _
        idle := h.idle hLock
        lock := fun _ => hLock
        call := by rintro _ ⟨⟩ }
  refine h.thread d ?_ trivial ?_ ?_ ?_ ?_ (by simp) (by simp) ?_ ?_
  · subst hs'
    exact h.owns_same (by rw [hPc]; rfl)
  · intro u
    by_cases hut : u = t
    · rw [hut, d.place]
      trivial
    rw [d.others.progress hut]
    by_cases huv : u = v
    · -- the owner will see that its request is done
      rw [huv, progress_of_sent hSent]
      unfold VirtioDisk.Stage
      rw [hDisk', update_self, if_neg (by decide), hLog', hLog]
    refine (h.progress u).frame ?_ (fun r' _ => hLog' r') ?_
    · intro r' hr'
      rw [hDisk']
      exact update_of_ne (h.buf_ne hCall hr' huv) ..
    intro r' c' hs
    rw [hPending]
    refine ⟨fun hx => hx, fun hx => ?_⟩
    have hne : c'.i0 ≠ id := by
      rw [← hHead]
      exact h.desc_ne (mem_held_of_sent hs) (mem_held_of_sent hSent) huv
    rw [hComplete]
    unfold complete at hx
    rw [hUsed] at hx
    rcases mem_append.mp hx with hx | hx
    · exact mem_append_left _ hx
    · exact mem_append_right _ ((mem_cons.mp hx).resolve_left hne)
  · unfold flight
    rw [hPending, hComplete]
    exact hNodup.2
  · intro x hx
    unfold flight at hx
    rw [hPending, hComplete] at hx
    obtain ⟨u, r', c', hs, rfl, hd⟩ := h.sent x (hPerm.mem_iff.mpr (mem_cons_of_mem _ hx))
    have huv : u ≠ v := by
      rintro rfl
      rw [hSent] at hs
      cases hs
      rw [hHead] at hx
      exact hNodup.1 hx
    have hut : u ≠ t := by
      rintro rfl
      rw [hPc] at hs
      cases hs
    refine ⟨u, r', c', ?_, rfl, ?_⟩
    · rw [d.others.sent hut, hs]
    · rw [hDisk', update_of_ne (h.buf_ne hCall (call_of_sent hs) huv), hd]
  · intro x hx
    have hOld := h.status x (hSub x hx)
    subst hs'
    exact hOld
  · subst hs'
    exact h.offered
  · subst hs'
    change s.pushed = s.popped ++ [id] ++ s.used.pop.contents NUM
    rw [h.pushed, hUsed, append_assoc, singleton_append]

/- A step of the thread that holds the lock. -/
theorem run (h : VirtioInv s) (hLock : s.lock = some t) : (s.run t (s.pc t)).Safe VirtioInv := by
  cases hPc : s.pc t with
  | alloc r =>
    unfold VirtioDisk.run
    rcases s.alloc3Desc_cases with
      ⟨c, free, hEq, hNodup, hFree, hFree'⟩ |
      ⟨s', hEq, hUndone, hFree⟩
    · rw [hEq]
      exact h.alloc_some hLock hPc hNodup hFree hFree'
    · rw [hEq]
      exact h.alloc_none hLock hPc hUndone hFree
  | format r c => exact h.format hLock hPc
  | offer r c => exact h.offer hLock hPc
  | bump r c => exact h.bump hLock hPc
  | wait r c =>
    have hWait := h.wait hLock hPc
    unfold VirtioDisk.run
    dsimp only
    split at hWait
    · next hDisk =>
        rw [if_pos hDisk]
        exact hWait
    · next hDisk =>
        rw [if_neg hDisk]
        exact hWait
  | clear r c => exact h.clear hLock hPc
  | free r c i =>
    obtain ⟨s', hEq, hInv⟩ := h.free hLock hPc
    unfold VirtioDisk.run
    dsimp only
    rw [hEq]
    exact hInv
  | leave | intrLeave =>
    exact h.moveIdle (h.idle hLock) (by rintro ⟨⟩) (by rw [hPc]; rfl) (by rw [hPc]; rfl) (.inl rfl)
  | intrLoop =>
    have hHeld : (s.pc t).held = [] := by rw [hPc]; rfl
    have hSent : (s.pc t).sent = none := by rw [hPc]; rfl
    unfold VirtioDisk.run
    dsimp only
    split
    · exact h.moveIdle (fun _ _ _ => rfl) (fun _ => hLock) hHeld hSent
        (.inr (.inr (.inr (.inl rfl))))
    · next hSome =>
        exact h.moveIdle (fun _ _ _ => rfl) (fun _ => hLock) hHeld hSent
          (.inr (.inr (.inr (.inr ⟨rfl, hSome⟩))))
  | intrEntry id =>
    obtain ⟨b, hInfo, hInv⟩ := h.intrEntry hLock hPc
    unfold VirtioDisk.run
    dsimp only
    rw [hInfo]
    exact hInv
  | _ => trivial

end VirtioInv

end Xv6
