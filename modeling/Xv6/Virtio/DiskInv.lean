import Xv6.Virtio.Disk

/-
  The protocol of disk requests.

  A request moves from the avail ring to the device and from
  there to the used ring; its thread keeps the descriptors
  until it has seen the request finished. The invariant says
  what each thread owns and how far its request is.

  Key definitions include:
    * `VirtioPc.held`
    * `VirtioDisk.flight`
    * `VirtioDisk.Formed`, `VirtioDisk.Progress`
    * `VirtioInv`
-/

open Function

-------
-- What A Thread Owns
-------

namespace Xv6

variable {T B : Type}

/- A chain from one of its descriptors on. -/
def DescIdx.rest (c : DescIdx) (i : Nat) : List Nat :=
  if i = c.i0 then c.toList
  else if i = c.i1 then [c.i1, c.i2]
  else [c.i2]

theorem DescIdx.mem_rest_i2 (c : DescIdx) (i : Nat) : c.i2 ∈ c.rest i := by
  unfold DescIdx.rest DescIdx.toList
  split
  · simp
  · split <;> simp

theorem DescIdx.mem_rest_i1 {c : DescIdx} {i : Nat} (h : i = c.i0 ∨ i = c.i1) :
    c.i1 ∈ c.rest i := by
  unfold DescIdx.rest DescIdx.toList
  split
  · simp
  · next hne => simp [h.resolve_left hne]

namespace VirtioPc

variable {pc : VirtioPc B} {r : DiskCall B} {c : DescIdx}

/- The descriptors that a thread owns. -/
def held : VirtioPc B → List Nat
| .format _ c => c.toList
| .offer _ c => c.toList
| .bump _ c => c.toList
| .wait _ c => c.toList
| .sleepBuf _ c => c.toList
| .woken _ c => c.toList
| .clear _ c => c.toList
| .free _ c i => c.rest i
| _ => []

/- A request that was given to the device. -/
def sent : VirtioPc B → Option (DiskCall B × DescIdx)
| .wait r c => some (r, c)
| .sleepBuf r c => some (r, c)
| .woken r c => some (r, c)
| _ => none

@[simp] theorem held_wake (pc : VirtioPc B) : pc.wake.held = pc.held := by cases pc <;> rfl

@[simp] theorem sent_wake (pc : VirtioPc B) : pc.wake.sent = pc.sent := by cases pc <;> rfl

@[simp] theorem call_wake (pc : VirtioPc B) : pc.wake.call = pc.call := by cases pc <;> rfl

@[simp] theorem locked_wake (pc : VirtioPc B) : pc.wake.locked = pc.locked := by cases pc <;> rfl

/- Only sleeping threads are elsewhere after `wakeup`. -/
theorem eq_bump_of_wake (h : pc.wake = .bump r c) : pc = .bump r c := by
  cases pc <;> cases h
  rfl

theorem eq_intrEntry_of_wake {id : Nat} (h : pc.wake = .intrEntry id) : pc = .intrEntry id := by
  cases pc <;> cases h
  rfl

@[simp] theorem wake_wake (pc : VirtioPc B) : pc.wake.wake = pc.wake := by cases pc <;> rfl

/- A thread with a request is in its call. -/
theorem call_of_sent (h : pc.sent = some (r, c)) : pc.call = some r := by
  cases pc <;> cases h <;> rfl

theorem mem_held_of_sent (h : pc.sent = some (r, c)) : c.i0 ∈ pc.held := by
  cases pc <;> cases h <;> exact List.mem_cons_self

end VirtioPc

/- Descriptors have one owner, or are free. -/
structure OwnsDesc (held : T → List Nat) (free : Nat → Bool) : Prop where
  bound : ∀ t, ∀ i ∈ held t, i < NUM ∧ free i = false
  nodup : ∀ t, (held t).Nodup
  disjoint : ∀ t u i, i ∈ held t → i ∈ held u → t = u

namespace OwnsDesc

variable [DecidableEq T] {held : T → List Nat} {free : Nat → Bool} {t : T} {l : List Nat}

/- A thread takes free descriptors. -/
theorem take (h : OwnsDesc held free) (hNodup : l.Nodup)
    (hFree : ∀ i ∈ l, i < NUM ∧ free i = true) {free' : Nat → Bool}
    (hFree' : ∀ i, free' i = (free i && !l.contains i)) :
    OwnsDesc (update held t l) free' where
  bound := by
    intro u i hi
    rw [hFree']
    by_cases hu : u = t
    · rw [hu, update_self] at hi
      exact ⟨(hFree i hi).1, by simp [hi]⟩
    · rw [update_of_ne hu] at hi
      have hOld := h.bound u i hi
      exact ⟨hOld.1, by simp [hOld.2]⟩
  nodup := by
    intro u
    by_cases hu : u = t
    · rw [hu, update_self]
      exact hNodup
    · rw [update_of_ne hu]
      exact h.nodup u
  disjoint := by
    have hOther (u : T) (i : Nat) (hi : i ∈ held u) : i ∉ l := by
      intro hl
      have hOld := (h.bound u i hi).2
      rw [(hFree i hl).2] at hOld
      cases hOld
    intro u v i hu hv
    by_cases hut : u = t
    · by_cases hvt : v = t
      · rw [hut, hvt]
      · rw [hut, update_self] at hu
        rw [update_of_ne hvt] at hv
        exact absurd hu (hOther v i hv)
    · rw [update_of_ne hut] at hu
      by_cases hvt : v = t
      · rw [hvt, update_self] at hv
        exact absurd hv (hOther u i hu)
      · rw [update_of_ne hvt] at hv
        exact h.disjoint u v i hu hv

/- A thread gives back its first descriptor. -/
theorem give (h : OwnsDesc held free) {i : Nat} (hHeld : held t = i :: l) :
    OwnsDesc (update held t l) (update free i true) := by
  have hNodup := h.nodup t
  rw [hHeld, List.nodup_cons] at hNodup
  have hSub (u : T) (j : Nat) (hj : j ∈ update held t l u) : j ∈ held u ∧ j ≠ i := by
    by_cases hu : u = t
    · rw [hu, update_self] at hj
      rw [hu, hHeld]
      refine ⟨List.mem_cons_of_mem i hj, ?_⟩
      rintro rfl
      exact hNodup.1 hj
    · rw [update_of_ne hu] at hj
      refine ⟨hj, ?_⟩
      rintro rfl
      exact hu (h.disjoint u t j hj (by rw [hHeld]; exact List.mem_cons_self))
  refine ⟨?_, ?_, ?_⟩
  · intro u j hj
    obtain ⟨hOld, hne⟩ := hSub u j hj
    rw [update_of_ne hne]
    exact h.bound u j hOld
  · intro u
    by_cases hu : u = t
    · rw [hu, update_self]
      exact hNodup.2
    · rw [update_of_ne hu]
      exact h.nodup u
  · intro u v j hu hv
    exact h.disjoint u v j (hSub u j hu).1 (hSub v j hv).1

end OwnsDesc

-------
-- How Far A Request Is
-------

variable {T B : Type} [DecidableEq B]

namespace VirtioDisk

/- The requests that the device has still to perform. -/
def pending (s : VirtioDisk T B) : List Nat := s.avail.contents NUM ++ s.taken

/- The requests whose end the driver has not yet seen. -/
def complete (s : VirtioDisk T B) : List Nat := s.done ++ s.used.contents NUM

def flight (s : VirtioDisk T B) : List Nat := s.pending ++ s.complete

/- What the device did with the buffer since a call. -/
def log (s : VirtioDisk T B) (r : DiskCall B) : List (DiskOp B) :=
  (s.performed.drop r.start).filter (fun op => op.b = r.b)

/- The descriptors say what the call wants. -/
structure Formatted (s : VirtioDisk T B) (r : DiskCall B) (c : DescIdx) : Prop where
  ops : s.ops c.i0 = { type := r.type, sector := r.sector }
  desc0 : s.desc c.i0 =
    { addr := .ops c.i0
      len := 16
      flags := VRING_DESC_F_NEXT
      next := c.i1 }
  desc1 : s.desc c.i1 =
    { addr := .data r.b
      len := 1024
      flags := (if r.type = .write then 0 else VRING_DESC_F_WRITE) ||| VRING_DESC_F_NEXT
      next := c.i2 }
  desc2 : s.desc c.i2 =
    { addr := .status c.i0
      len := 1
      flags := VRING_DESC_F_WRITE
      next := 0 }
  buf : (s.info c.i0).b = some r.b

/- The rest of a chain that is being freed. -/
def Links (s : VirtioDisk T B) (c : DescIdx) (i : Nat) : Prop :=
  c.toList.Nodup ∧
  (i = c.i0 ∨ i = c.i1 ∨ i = c.i2) ∧
  (i = c.i0 → (s.desc c.i0).has VRING_DESC_F_NEXT = true ∧
      (s.desc c.i0).next = c.i1) ∧
  (i = c.i0 ∨ i = c.i1 →
      (s.desc c.i1).has VRING_DESC_F_NEXT = true ∧
        (s.desc c.i1).next = c.i2) ∧
  (s.desc c.i2).has VRING_DESC_F_NEXT = false

/- The descriptors of a thread. -/
def Formed (s : VirtioDisk T B) : VirtioPc B → Prop
| .offer r c => s.Formatted r c
| .bump r c => s.Formatted r c
| .wait r c => s.Formatted r c
| .sleepBuf r c => s.Formatted r c
| .woken r c => s.Formatted r c
| .clear r c => s.Formatted r c
| .free _ c i => s.Links c i
| _ => True

/- A request was given to the device. -/
def Stage (s : VirtioDisk T B) (r : DiskCall B) (c : DescIdx) : Prop :=
  if s.disk r.b then
    c.i0 ∈ s.pending ∧ s.log r = [] ∨ c.i0 ∈ s.complete ∧ s.log r = [r.op]
  else s.log r = [r.op]

/- The request of a thread. -/
def Progress (s : VirtioDisk T B) : VirtioPc B → Prop
| .start r => s.log r = []
| .alloc r => s.log r = []
| .sleepFree r => s.log r = []
| .format r _ => s.log r = []
| .offer r _ => s.log r = [] ∧ s.disk r.b = true
| .bump r _ => s.log r = [] ∧ s.disk r.b = true
| .wait r c => s.Stage r c
| .sleepBuf r c => s.Stage r c
| .woken r c => s.Stage r c
| .clear r _ => s.log r = [r.op]
| .free r _ _ => s.log r = [r.op]
| .leave r => s.log r = [r.op]
| _ => True

variable {s : VirtioDisk T B}

omit [DecidableEq B] in
@[simp] theorem formed_wake (s : VirtioDisk T B) (pc : VirtioPc B) :
    s.Formed pc.wake ↔ s.Formed pc := by
  cases pc <;> exact Iff.rfl

@[simp] theorem progress_wake (s : VirtioDisk T B) (pc : VirtioPc B) :
    s.Progress pc.wake ↔ s.Progress pc := by
  cases pc <;> exact Iff.rfl

theorem progress_of_sent {pc : VirtioPc B} {r : DiskCall B} {c : DescIdx}
    (h : pc.sent = some (r, c)) : s.Progress pc ↔ s.Stage r c := by
  cases pc <;> cases h <;> exact Iff.rfl

omit [DecidableEq B] in
theorem formed_of_sent {pc : VirtioPc B} {r : DiskCall B} {c : DescIdx}
    (h : pc.sent = some (r, c)) : s.Formed pc ↔ s.Formatted r c := by
  cases pc <;> cases h <;> exact Iff.rfl

section Frame

variable {s s' : VirtioDisk T B} {pc : VirtioPc B}

variable {c : DescIdx} {r : DiskCall B}

omit [DecidableEq B] in
theorem Formatted.frame (h : s.Formatted r c)
    (hSame : ∀ i ∈ c.toList, s'.desc i = s.desc i ∧
      s'.ops i = s.ops i ∧ (s'.info i).b = (s.info i).b) : s'.Formatted r c := by
  have h0 := hSame c.i0 (by simp [DescIdx.toList])
  have h1 := hSame c.i1 (by simp [DescIdx.toList])
  have h2 := hSame c.i2 (by simp [DescIdx.toList])
  refine ⟨?_, ?_, ?_, ?_, ?_⟩
  · rw [h0.2.1, h.ops]
  · rw [h0.1, h.desc0]
  · rw [h1.1, h.desc1]
  · rw [h2.1, h.desc2]
  · rw [h0.2.2, h.buf]

omit [DecidableEq B] in
theorem Formatted.links (h : s.Formatted r c)
    (hNodup : c.toList.Nodup) : s.Links c c.i0 := by
  refine ⟨hNodup, .inl rfl, fun _ => ?_, fun _ => ?_, ?_⟩
  · rw [h.desc0]
    exact ⟨by simp [VirtqDesc.has], rfl⟩
  · rw [h.desc1]
    refine ⟨?_, rfl⟩
    unfold VirtqDesc.has
    dsimp only
    split <;> rfl
  · rw [h.desc2]
    simp [VirtqDesc.has]

omit [DecidableEq B] in
/- One step along a chain that is being freed. -/
theorem Links.next {i : Nat} (h : s.Links c i) :
    ((s.desc i).has VRING_DESC_F_NEXT = true ∧ c.rest i = i :: c.rest (s.desc i).next ∧
      s.Links c (s.desc i).next) ∨
    ((s.desc i).has VRING_DESC_F_NEXT = false ∧ c.rest i = [i]) := by
  obtain ⟨hNodup, hi, hFirst, hSecond, hLast⟩ := h
  have hAll := hNodup
  simp only [DescIdx.toList, List.nodup_cons, List.mem_cons,
    List.not_mem_nil, or_false, not_or] at hAll
  obtain ⟨⟨h01, h02⟩, h12, -⟩ := hAll
  rcases hi with rfl | rfl | rfl
  · left
    obtain ⟨hNext, hEq⟩ := hFirst rfl
    rw [hEq]
    refine ⟨hNext, ?_, hNodup, .inr (.inl rfl),
      fun hc => absurd hc.symm h01, fun _ => hSecond (.inl rfl),
      hLast⟩
    simp [DescIdx.rest, DescIdx.toList, Ne.symm h01]
  · left
    obtain ⟨hNext, hEq⟩ := hSecond (.inr rfl)
    rw [hEq]
    refine ⟨hNext, ?_, hNodup, .inr (.inr rfl), fun hc => absurd hc.symm h02, ?_, hLast⟩
    · simp [DescIdx.rest, Ne.symm h01, Ne.symm h02, Ne.symm h12]
    · rintro (hc | hc)
      · exact absurd hc.symm h02
      · exact absurd hc.symm h12
  · right
    refine ⟨hLast, ?_⟩
    simp [DescIdx.rest, Ne.symm h02, Ne.symm h12]

omit [DecidableEq B] in
/- A thread's chain depends on what it owns only. -/
theorem Formed.frame (h : s.Formed pc)
    (hSame : ∀ i ∈ pc.held, s'.desc i = s.desc i ∧
      s'.ops i = s.ops i ∧ (s'.info i).b = (s.info i).b) : s'.Formed pc := by
  cases pc with
  | offer | bump | wait | sleepBuf | woken | clear => exact Formatted.frame h hSame
  | free r c i =>
    obtain ⟨hNodup, hi, hFirst, hSecond, hLast⟩ := h
    refine ⟨hNodup, hi, fun hEq => ?_, fun hEq => ?_, ?_⟩
    · rw [(hSame c.i0 (by
        simp [VirtioPc.held, DescIdx.rest, hEq, DescIdx.toList])).1]
      exact hFirst hEq
    · rw [(hSame c.i1 (DescIdx.mem_rest_i1 hEq)).1]
      exact hSecond hEq
    · rw [(hSame c.i2 (c.mem_rest_i2 i)).1]
      exact hLast
  | _ => trivial

theorem Stage.frame (h : s.Stage r c)
    (hDisk : s'.disk r.b = s.disk r.b) (hLog : s'.log r = s.log r)
    (hPending : c.i0 ∈ s.pending → c.i0 ∈ s'.pending)
    (hComplete : c.i0 ∈ s.complete → c.i0 ∈ s'.complete) : s'.Stage r c := by
  unfold Stage at h ⊢
  rw [hDisk, hLog]
  split
  · next hTrue =>
      rw [if_pos hTrue] at h
      exact h.imp (And.imp_left hPending) (And.imp_left hComplete)
  · next hFalse =>
      rw [if_neg hFalse] at h
      exact h

/- A thread's progress depends on its own request only. -/
theorem Progress.frame (h : s.Progress pc)
    (hDisk : ∀ r, pc.call = some r → s'.disk r.b = s.disk r.b)
    (hLog : ∀ r, pc.call = some r → s'.log r = s.log r)
    (hSent : ∀ r c, pc.sent = some (r, c) → (c.i0 ∈ s.pending → c.i0 ∈ s'.pending) ∧
        (c.i0 ∈ s.complete → c.i0 ∈ s'.complete)) : s'.Progress pc := by
  cases pc with
  | start r | alloc r | sleepFree r | format r c | clear r c | free r c i | leave r =>
    exact (hLog r rfl).trans h
  | offer r c | bump r c => exact ⟨(hLog r rfl).trans h.1, (hDisk r rfl).trans h.2⟩
  | wait r c | sleepBuf r c | woken r c =>
    exact Stage.frame h (hDisk r rfl) (hLog r rfl) (hSent r c rfl).1 (hSent r c rfl).2
  | _ => trivial

end Frame

end VirtioDisk

-------
-- The Invariant
-------

structure VirtioInv (s : VirtioDisk T B) : Prop where
  lock : ∀ t, (s.pc t).locked = true → s.lock = some t
  owner : ∀ t r, (s.pc t).call = some r →
    s.owner r.b = some t ∧ r.start ≤ s.performed.length
  owns : OwnsDesc (fun t => (s.pc t).held) s.free
  formed : ∀ t, s.Formed (s.pc t)
  progress : ∀ t, s.Progress (s.pc t)
  nodup : s.flight.Nodup
  sent : ∀ h ∈ s.flight, ∃ t r c,
    (s.pc t).sent = some (r, c) ∧ c.i0 = h ∧ s.disk r.b = true
  status : ∀ h ∈ s.complete, (s.info h).status = 0
  slot : ∀ t r c, s.pc t = .bump r c →
    s.avail.data (s.avail.nwrite.toNat % NUM) = c.i0
  entry : ∀ t id, s.pc t = .intrEntry id →
    s.used.nread ≠ s.used.nwrite ∧ s.used.front NUM = id
  offered : s.offered = s.fetched ++ s.avail.contents NUM
  pushed : s.pushed = s.popped ++ s.used.contents NUM

end Xv6
