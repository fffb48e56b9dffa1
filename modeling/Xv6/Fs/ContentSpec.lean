import Xv6.Fs.TruncSpec

/-
  Reading and writing the contents of a file, as bytes.

  Main rules are:
    * `readi_rule`
    * `writei_rule`
-/

open Prog (wp wp_bind wp_edit wp_ite wp_pure wp_read)

open Function

-------
-- Bytes of a File
-------

namespace Xv6

namespace File

/- The byte at offset `o`; zero where nothing is mapped. -/
def byte (f : File) (o : Nat) : UInt8 := ((f.blocks (o / BSIZE)).getD Bytes.zero).byte (o % BSIZE)

/- The bytes from offset `off` up to `off + n`. -/
def read (f : File) (off n : Nat) : List UInt8 := (List.range n).map (fun k => f.byte (off + k))

@[simp] theorem length_read (f : File) (off n : Nat) : (f.read off n).length = n := by simp [read]

@[simp] theorem read_zero (f : File) (off : Nat) : f.read off 0 = [] := rfl

theorem read_append (f : File) (off m n : Nat) :
    f.read off m ++ f.read (off + m) n = f.read off (m + n) := by
  simp only [read, List.range_add, List.map_append, List.map_map]
  congr
  funext k
  simp [Nat.add_assoc]

/- A part of one block. -/
theorem slice_eq_read {f : File} {off m : Nat} {x : Block} (hx : f.blocks (off / BSIZE) = some x)
    (hm : off % BSIZE + m ≤ BSIZE) : x.slice (off % BSIZE) m = f.read off m := by
  apply List.ext_getElem
  · simp
  intro k hk hk'
  have hkm : k < m := by simpa using hk
  have hBlock : (off + k) / BSIZE = off / BSIZE := by
    simp only [BSIZE] at hm ⊢
    omega
  have hOff : (off + k) % BSIZE = off % BSIZE + k := by
    simp only [BSIZE] at hm ⊢
    omega
  simp [read, byte, hBlock, hOff, hx]

/- The bytes after one block has been written. -/
theorem byte_write (f : File) (off : Nat) (l : List UInt8)
    (hl : off % BSIZE + l.length ≤ BSIZE) (o : Nat) :
    byte
        { f with
          blocks :=
            update f.blocks (off / BSIZE) (some (((f.blocks (off / BSIZE)).getD
                  Bytes.zero).splice (off % BSIZE) l)) } o =
      if h : off ≤ o ∧ o < off + l.length then l[o - off]
      else f.byte o := by
  unfold byte
  dsimp only
  by_cases hBlock : o / BSIZE = off / BSIZE
  · rw [hBlock, update_self, Option.getD_some]
    split
    · have hPos : o % BSIZE = off % BSIZE + (o - off) := by
        simp only [BSIZE] at hBlock ⊢
        omega
      rw [hPos, Bytes.byte_splice_of_inside _ _ _ _ hl]
    · rename_i h
      rw [Bytes.byte_splice_of_outside]
      simp only [BSIZE] at hBlock h ⊢
      omega
  · rw [update_of_ne hBlock, dif_neg]
    intro h
    apply hBlock
    simp only [BSIZE] at hl ⊢
    omega

end File

-------
-- Reading
-------

section Read

variable {sb : Superblock} {i : Nat} {s : Fs} {v : View File} {copyout : Nat → Bool}
variable {Q : Int × List UInt8 → Fs → Prop} {E : Halt → Fs → Prop}

/- `bmap` finds the blocks of a file. -/
theorem bmap_within {Q : Nat → Fs → Prop} (h : At sb none s v) (hValid : v.valid i = true)
    {off : Nat} (hOff : off < (v.file i).size.toNat)
    (hQ : ∀ a, a ≠ 0 → (v.file i).blocks (off / BSIZE) = some (s.disk a) → Q a s) :
    wp (bmap sb i (off / BSIZE)) Q E s := by
  have hShaped : (v.file i).Shaped := by
    rw [← h.file]
    exact h.inv.shaped i (by simp)
  have hMul : off / BSIZE * BSIZE ≤ off := Nat.div_mul_le_self off BSIZE
  have hbn : off / BSIZE < MAXFILE := by
    have hMax := hShaped.1
    rw [Nat.div_lt_iff_lt_mul (by decide)]
    omega
  have hSome := hShaped.2 (off / BSIZE) (by omega)
  rw [h.blocks_eq hValid hbn] at hSome
  have hOwn : ownOf (s.ino sb) s.disk (i, pos (off / BSIZE)) ≠ 0 := by
    intro hZero
    rw [hZero] at hSome
    cases hSome
  apply bmap_of_mapped h hValid hbn hOwn
  apply hQ _ hOwn
  rw [h.blocks_eq hValid hbn, blockAt_of_ne _ hOwn]

theorem readiLoop_rule (h : At sb none s v) (hValid : v.valid i = true) {fuel off left : Nat}
    {dst : List UInt8} (hFuel : left ≤ fuel) (hSize : off + left ≤ (v.file i).size.toNat)
    (hDone : Q ((dst.length + left : Nat), dst ++ (v.file i).read off left) s)
    (hFail : ∀ t dst', copyout t = false → Q (-1, dst') s) :
    wp (readiLoop sb i copyout fuel off left dst) Q E s := by
  induction fuel generalizing off left dst with
  | zero =>
    have hLeft : left = 0 := Nat.le_zero.mp hFuel
    subst hLeft
    rw [readiLoop]
    simpa using hDone
  | succ fuel ih =>
    rw [readiLoop]
    by_cases hLeft : left = 0
    · subst hLeft
      simpa using hDone
    have hMod : off % BSIZE < BSIZE := Nat.mod_lt off (by decide)
    rw [if_neg hLeft, wp_bind]
    apply bmap_within h hValid (by omega)
    intro addr hAddr hBlock
    rw [if_neg hAddr, wp_bind, wp_read, wp_ite]
    constructor
    · intro _
      have hSlice :=
        File.slice_eq_read hBlock (m := min left (BSIZE - off % BSIZE)) (by omega)
      rw [hSlice]
      apply ih (by omega) (by omega)
      have hSum : min left (BSIZE - off % BSIZE) + (left - min left (BSIZE - off % BSIZE)) =
            left := by
        omega
      rw [List.append_assoc, File.read_append, List.length_append, File.length_read,
        Nat.add_assoc, hSum]
      exact hDone
    · intro hCopy
      rw [wp_pure]
      exact hFail _ _ (by simpa using hCopy)

/-
  `readi` changes nothing. It returns the bytes up to the
  end of the file, unless a copy fails.
-/
theorem readi_rule (h : At sb none s v) (hValid : v.valid i = true) (off n : BitVec 32)
    (hShort : (v.file i).size < off ∨ off + n < off → Q (0, []) s)
    (hDone : off.toNat ≤ (v.file i).size.toNat → Q ((min n.toNat
              ((v.file i).size.toNat - off.toNat) : Nat),
          (v.file i).read off.toNat (min n.toNat ((v.file i).size.toNat - off.toNat))) s)
    (hFail : ∀ t dst, copyout t = false → Q (-1, dst) s) :
    wp (readi sb i copyout off n) Q E s := by
  unfold readi
  rw [wp_bind, wp_read, ← h.size_eq hValid, wp_ite]
  constructor
  · intro hc
    rw [wp_pure]
    exact hShort hc
  intro hc
  rw [not_or] at hc
  have hOff' : off.toNat ≤ (v.file i).size.toNat := by bv_omega
  have hLen : (if (v.file i).size < off + n
        then (v.file i).size - off else n).toNat =
        min n.toNat ((v.file i).size.toNat - off.toNat) := by
    split
    · bv_omega
    · bv_omega
  dsimp only
  rw [hLen]
  apply readiLoop_rule h hValid (Nat.le_refl _)
  · omega
  · simpa using hDone hOff'
  · exact hFail

end Read

-------
-- Writing
-------

theorem View.allocated_setFile (sb : Superblock) (v : View File) {i : Nat} {f : File}
    (hType : f.type = (v.file i).type) : (v.setFile i f).allocated sb = v.allocated sb := by
  have hEq (j : Nat) : ((v.setFile i f).file j).type = (v.file j).type := by
    rw [setFile_file]
    by_cases hji : j = i
    · rw [hji, update_self, hType]
    · rw [update_of_ne hji]
  unfold allocated
  simp only [hEq]

theorem View.full_setFile {sb : Superblock} {v : View File} {i : Nat} {f : File}
    (hType : f.type = (v.file i).type) (hFull : (v.setFile i f).Full sb) : v.Full sb := by
  unfold Full at hFull ⊢
  rwa [allocated_setFile sb v hType] at hFull

/-
  The contents `f'` come from `f` by writing the bytes from
  `off` up to `last`, without a change of the size. Of the
  bytes after `last` it says something only in case `c`.
-/
structure Extends (f f' : File) (off last : Nat) (src : Nat → UInt8) (c : Prop) : Prop where
  sameMeta : f' = { f with blocks := f'.blocks }
  mapped : ∀ bn, (f.blocks bn).isSome = true → (f'.blocks bn).isSome = true
  covered : ∀ bn, bn * BSIZE < last → (f'.blocks bn).isSome = true
  bytes : ∀ o, c ∨ o < last →
    f'.byte o = if off ≤ o ∧ o < last then src (o - off) else f.byte o

/-
  Why a write ends before `last`: no block can be mapped
  there, or a copy fails.
-/
def Stops (sb : Superblock) (v : View File) (i last : Nat) (copyin : Nat → Option Nat) : Prop :=
  v.Full sb ∧ (v.file i).blocks (last / BSIZE) = none ∨ ∃ t, copyin t ≠ none

theorem length_srcBytes (src : Nat → UInt8) (tot m : Nat) : (srcBytes src tot m).length = m := by
  simp [srcBytes]

theorem getElem_srcBytes
    (src : Nat → UInt8) (tot m k : Nat) (hk : k < (srcBytes src tot m).length) :
    (srcBytes src tot m)[k] = src (tot + k) := by
  simp [srcBytes]

section Write

variable {sb : Superblock} {i : Nat} {s : Fs} {v : View File}
variable {src : Nat → UInt8} {copyin : Nat → Option Nat} {E : Halt → Fs → Prop}

/- Nothing has been written. -/
theorem Extends.refl {f : File} {off : Nat}
    (hMapped : ∀ bn, bn * BSIZE < off → (f.blocks bn).isSome = true) :
    Extends f f off off src c where
  sameMeta := rfl
  mapped := fun _ h => h
  covered := hMapped
  bytes := fun o _ => by rw [if_neg (by omega)]

/- The block of one round, after the bytes are copied. -/
def File.putChunk (f : File) (off : Nat) (l : List UInt8) : File :=
  { f with
    blocks :=
      update f.blocks (off / BSIZE) (some (((f.blocks (off / BSIZE)).getD
            Bytes.zero).splice (off % BSIZE) l)) }

theorem File.putChunk_mapped (f : File) (off : Nat) (l : List UInt8) {bn : Nat}
    (h : (f.blocks bn).isSome = true ∨ bn = off / BSIZE) :
    ((f.putChunk off l).blocks bn).isSome = true := by
  unfold putChunk
  dsimp only
  by_cases hbn : bn = off / BSIZE
  · rw [hbn, update_self]
    rfl
  · rw [update_of_ne hbn]
    exact h.resolve_right hbn

/- One round of the loop followed by the rest of it. -/
theorem Extends.cons {f f' : File} {off m last : Nat} (hm : off % BSIZE + m ≤ BSIZE)
    (hLast : off + m ≤ last)
    (h : Extends (f.putChunk off (srcBytes src 0 m)) f'
        (off + m) last (fun k => src (m + k)) c) : Extends f f' off last src c where
  sameMeta := h.sameMeta
  mapped := fun bn hbn => h.mapped bn (f.putChunk_mapped off _ (.inl hbn))
  covered := h.covered
  bytes := fun o ho => by
    have hChunk := f.byte_write off (srcBytes src 0 m) (by rwa [length_srcBytes]) o
    rw [h.bytes o ho]
    by_cases hHigh : off + m ≤ o ∧ o < last
    · rw [if_pos hHigh, if_pos (by omega)]
      congr 1
      omega
    rw [if_neg hHigh]
    refine hChunk.trans ?_
    simp only [length_srcBytes, getElem_srcBytes, Nat.zero_add]
    by_cases hLow : off ≤ o ∧ o < off + m
    · rw [dif_pos hLow, if_pos (by omega)]
    · rw [dif_neg hLow, if_neg (by omega)]

/- Copying bytes into a block that has been mapped. -/
theorem At.putChunk {off a : Nat}
    (h : At sb (some i) s (v.setFile i ((v.file i).ensure (off / BSIZE))))
    (hValid : v.valid i = true) (hbn : off / BSIZE < MAXFILE) (ha : a ≠ 0)
    (hOwn : ownOf (s.ino sb) s.disk (i, pos (off / BSIZE)) = a) (l : List UInt8) :
    At sb (some i) (s.setBlock a ((s.disk a).splice (off % BSIZE) l))
      (v.setFile i ((v.file i).putChunk off l)) := by
  have hBlock := h.blocks_eq hValid hbn
  rw [View.setFile_file, update_self, hOwn, blockAt_of_ne _ ha, File.ensure_blocks] at hBlock
  have hDisk := (Option.some.inj hBlock).symm
  subst hOwn
  have hWrite :=
    h.write hValid hbn ha (((s.disk (ownOf (s.ino sb) s.disk
        (i, pos (off / BSIZE)))).splice (off % BSIZE) l))
  rw [View.setFile_setFile, View.setFile_file, update_self] at hWrite
  rw [hDisk] at hWrite ⊢
  unfold File.ensure at hWrite
  rw [update_idem] at hWrite
  exact hWrite

/- Blocks that are missing after a round were missing. -/
theorem File.putChunk_none {f : File} {off : Nat} {l : List UInt8} {bn : Nat}
    (h : (f.putChunk off l).blocks bn = none) : f.blocks bn = none := by
  cases hbn : f.blocks bn with
  | none => rfl
  | some x =>
    have hSome : ((f.putChunk off l).blocks bn).isSome = true :=
      f.putChunk_mapped off l (.inl (by rw [hbn]; rfl))
    rw [h] at hSome
    cases hSome

/- Where a write can end, seen from the round before. -/
theorem chunk_end {off left last : Nat} {l : List UInt8}
    (h : last = off + min left (BSIZE - off % BSIZE) + (left - min left (BSIZE - off % BSIZE)) ∨
        Stops sb (v.setFile i ((v.file i).putChunk off l)) i last copyin ∧
          last ≤ off + min left (BSIZE - off % BSIZE) + (left - min left (BSIZE - off % BSIZE)) ∧
          (last = off + min left (BSIZE - off % BSIZE) ∨ last % BSIZE = 0)) :
    last = off + left ∨ Stops sb v i last copyin ∧ last ≤ off + left ∧
        (last = off ∨ last % BSIZE = 0) := by
  rcases h with hAll | ⟨hStops, hLe, hAt⟩
  · left
    omega
  have hStops' : Stops sb v i last copyin := by
    rcases hStops with ⟨hFull, hNone⟩ | hCopy
    · have hType : ((v.file i).putChunk off l).type = (v.file i).type := rfl
      rw [View.setFile_file, update_self] at hNone
      exact .inl ⟨View.full_setFile hType hFull, File.putChunk_none hNone⟩
    · exact .inr hCopy
  rcases hAt with hFirst | hBlock
  · by_cases hLeft : left ≤ BSIZE - off % BSIZE
    · left
      omega
    · refine .inr ⟨hStops', by omega, .inr ?_⟩
      simp only [BSIZE] at hFirst hLeft ⊢
      omega
  · exact .inr ⟨hStops', by omega, .inr hBlock⟩

theorem writeiLoop_rule {Q : Nat × Nat → Fs → Prop} (h : At sb (some i) s v)
    (hValid : v.valid i = true) {fuel off tot left : Nat} (hFuel : left ≤ fuel)
    (hMax : off + left ≤ MAXFILE * BSIZE)
    (hMapped : ∀ bn, bn * BSIZE < off → ((v.file i).blocks bn).isSome = true)
    (hQ : ∀ s' f' last, At sb (some i) s' (v.setFile i f') →
        Extends (v.file i) f' off last (fun k => src (tot + k))
          ((∀ t, copyin t = none) ∨ last = off + left) →
        off ≤ last →
        last = off + left ∨ Stops sb v i last copyin ∧ last ≤ off + left ∧
            (last = off ∨ last % BSIZE = 0) →
        Q (last, tot + (last - off)) s') :
    wp (writeiLoop sb i src copyin fuel off tot left) Q E s := by
  induction fuel generalizing s v off tot left with
  | zero =>
    have hLeft : left = 0 := Nat.le_zero.mp hFuel
    subst hLeft
    rw [writeiLoop, wp_pure]
    have hEnd :=
      hQ s (v.file i) off (by rwa [View.setFile_self]) (.refl hMapped) (Nat.le_refl _) (.inl rfl)
    rwa [Nat.sub_self] at hEnd
  | succ fuel ih =>
    rw [writeiLoop]
    -- leaving the loop without a further change
    have hEnd {s' : Fs} (h' : At sb (some i) s' v) (hWhy : left = 0 ∨ Stops sb v i off copyin) :
        Q (off, tot) s' := by
      have hEnd := hQ s' (v.file i) off (by rwa [View.setFile_self]) (.refl hMapped) (Nat.le_refl _)
      rw [Nat.sub_self] at hEnd
      apply hEnd
      rcases hWhy with hLeft | hStops
      · exact .inl (by omega)
      · exact .inr ⟨hStops, by omega, .inl rfl⟩
    by_cases hLeft : left = 0
    · rw [if_pos hLeft, wp_pure]
      exact hEnd h (.inl hLeft)
    have hbn : off / BSIZE < MAXFILE := by
      rw [Nat.div_lt_iff_lt_mul (by decide)]
      omega
    rw [if_neg hLeft, wp_bind]
    apply bmap_rule h hValid hbn
    · intro a s₁ ha h₁ hOwn
      have hMod : off % BSIZE < BSIZE := Nat.mod_lt off (by decide)
      rw [if_neg ha]
      cases hCopy : copyin tot with
      | some k =>
        rw [wp_bind, wp_edit, wp_pure]
        have hEnd :=
          hQ _ _ off (h₁.putChunk hValid hbn ha hOwn (srcBytes src tot (min k (min left
                    (BSIZE - off % BSIZE)))))
            { sameMeta := rfl
              mapped := fun bn hbn => File.putChunk_mapped _ _ _ (.inl hbn)
              covered := fun bn hbn => File.putChunk_mapped _ _ _ (.inl (hMapped bn hbn))
              bytes := fun o ho => by
                have hLow : o < off := by
                  rcases ho with (hAll | hEq) | hLow
                  · rw [hAll tot] at hCopy
                    cases hCopy
                  · omega
                  · exact hLow
                refine ((v.file i).byte_write off _ ?_ o).trans ?_
                · rw [length_srcBytes]
                  omega
                · rw [dif_neg (by omega), if_neg (by omega)] }
            (Nat.le_refl _)
            (.inr ⟨.inr ⟨tot, by simp [hCopy]⟩, by omega, .inl rfl⟩)
        rw [Nat.sub_self] at hEnd
        exact hEnd
      | none =>
        rw [wp_bind, wp_edit]
        have h₂ :=
          h₁.putChunk hValid hbn ha hOwn (srcBytes src tot (min left (BSIZE - off % BSIZE)))
        apply ih h₂ hValid (by omega) (by omega)
        · intro bn hbn'
          rw [View.setFile_file, update_self]
          apply File.putChunk_mapped
          by_cases hLow : bn * BSIZE < off
          · exact .inl (hMapped bn hLow)
          · right
            simp only [BSIZE] at hbn' hLow ⊢
            omega
        intro s' f' last h' hExt hLow hWhy
        rw [View.setFile_setFile] at h'
        have hEnd :=
          hQ s' f' last h' (Extends.cons (by omega) hLow
              (by simpa [srcBytes, Nat.add_assoc] using hExt))
            (by omega)
            (chunk_end hWhy)
        have hTot : tot + min left (BSIZE - off % BSIZE) + (last - (off +
                  min left (BSIZE - off % BSIZE))) =
              tot + (last - off) := by
          omega
        rw [hTot]
        exact hEnd
    · intro s₁ hFull hNone h₁
      rw [if_pos rfl, wp_pure]
      exact hEnd h₁ (.inr (.inl ⟨hFull, hNone⟩))

/-
  The file `f'` comes from `f` by writing the bytes from
  `off` up to `last`.
-/
structure FileWritten (f f' : File) (off last : Nat) (src : Nat → UInt8) (c : Prop) : Prop where
  sameMeta : f' = { f with blocks := f'.blocks, size := f'.size }
  size : f'.size.toNat = max f.size.toNat last
  shaped : f'.Shaped
  bytes : ∀ o, c ∨ o < last →
    f'.byte o = if off ≤ o ∧ o < last then src (o - off) else f.byte o

/-
  `writei` refuses a write outside the largest file. It
  otherwise writes up to some `last`, and everything unless
  a copy fails or the disk may be full.
-/
theorem writei_rule {Q : Int → Fs → Prop} (h : At sb none s v) (hValid : v.valid i = true)
    (off n : BitVec 32)
    (hRefuse : (v.file i).size < off ∨ off + n < off ∨ MAXFILE * BSIZE < (off + n).toNat → Q (-1) s)
    (hDone : ∀ s' f' last, off.toNat ≤ (v.file i).size.toNat →
        off.toNat + n.toNat ≤ MAXFILE * BSIZE →
        At sb none s' (v.setFile i f') →
        FileWritten (v.file i) f' off.toNat last src
          ((∀ t, copyin t = none) ∨ last = off.toNat + n.toNat) →
        off.toNat ≤ last →
        last = off.toNat + n.toNat ∨ Stops sb v i last copyin ∧ last ≤ off.toNat + n.toNat ∧
            (last = off.toNat ∨ last % BSIZE = 0) →
        Q ((last - off.toNat : Nat) : Int) s') : wp (writei sb i src copyin off n) Q E s := by
  have hShaped : (v.file i).Shaped := by
    rw [← h.file]
    exact h.inv.shaped i (by simp)
  unfold writei
  rw [wp_bind, wp_read, ← h.size_eq hValid, wp_ite]
  constructor
  · intro hc
    rw [wp_pure]
    exact hRefuse (by tauto)
  intro hc
  rw [not_or] at hc
  have hOff' : off.toNat ≤ (v.file i).size.toNat := by bv_omega
  have hSum : (off + n).toNat = off.toNat + n.toNat := by bv_omega
  rw [wp_ite]
  constructor
  · intro hBig
    rw [wp_pure]
    exact hRefuse (.inr (.inr hBig))
  intro hBig
  rw [wp_bind]
  apply writeiLoop_rule (h.dirty i) hValid (Nat.le_refl _) (by omega)
    (fun bn hbn => hShaped.2 bn (by omega))
  intro s₁ f₁ last h₁ hExt hLow hWhy
  rw [wp_bind, wp_edit, wp_bind]
  have hLast : last ≤ MAXFILE * BSIZE := by
    rcases hWhy with hAll | hStop
    · omega
    · omega
  have hSize₁ : f₁.size = (v.file i).size := by rw [hExt.sameMeta]
  have hCopy : (s₁.copy i).size = (v.file i).size := by
    have hEq := h₁.size_eq hValid
    rw [View.setFile_file, update_self, hSize₁] at hEq
    exact hEq.symm
  have hMax32 : (BitVec.ofNat 32 (max (v.file i).size.toNat last)).toNat =
        max (v.file i).size.toNat last := by
    exact Nat.mod_eq_of_lt (by omega)
  -- the inode after its size has been adjusted
  have h₂ : At sb (some i) (if (s₁.copy i).size.toNat < last then
          s₁.setCopy i
            { s₁.copy i with
              size := BitVec.ofNat 32 last }
        else s₁)
        (v.setFile i
          { f₁ with
            size := BitVec.ofNat 32 (max (v.file i).size.toNat last) }) := by
    rw [hCopy]
    by_cases hGrow : (v.file i).size.toNat < last
    · have hSet := h₁.setSize hValid (BitVec.ofNat 32 last)
      rw [View.setFile_setFile, View.setFile_file, update_self] at hSet
      rw [if_pos hGrow, Nat.max_eq_right (Nat.le_of_lt hGrow)]
      exact hSet
    · rw [if_neg hGrow, Nat.max_eq_left (Nat.le_of_not_lt hGrow),
        BitVec.ofNat_toNat, ← hSize₁]
      exact h₁
  have hShaped₂ : File.Shaped
        { f₁ with
          size := BitVec.ofNat 32 (max (v.file i).size.toNat last) } := by
    constructor
    · rw [hMax32]
      exact Nat.max_le.mpr ⟨hShaped.1, hLast⟩
    intro bn hbn
    rw [hMax32] at hbn
    by_cases hNew : bn * BSIZE < last
    · exact hExt.covered bn hNew
    · exact hExt.mapped bn (hShaped.2 bn (by omega))
  apply iupdate_rule h₂ hValid
  · rw [View.setFile_file, update_self]
    exact hShaped₂
  intro s₃ h₃ _
  rw [wp_pure, Nat.zero_add]
  refine hDone s₃ _ last hOff' (by omega) h₃ ?_ hLow hWhy
  exact
    { sameMeta := by rw [hExt.sameMeta]
      size := hMax32
      shaped := hShaped₂
      bytes := fun o ho => by
        have hByte := hExt.bytes o ho
        simp only [Nat.zero_add] at hByte
        exact hByte }

end Write

end Xv6
