import OsSim.MemoryPaging
import Mathlib.Tactic.Ring

/-!
# Copying a page between devices

`__swap_cp_page` copies 256 bytes, from and to multiples of 256, while a frame
has 4096 bytes at a multiple of 4096. What it writes is computed for every
address, and so are the contents for which that is a copy of the frame.
-/

namespace OsSim.MemoryCopy

open MemoryWords MemoryDevice MemoryPaging

variable {uninit : Addr → Byte}

/-- Byte `j` of frame `f`. -/
def frameByte (mp : MemphyStruct) (f j : ℕ) : Byte :=
  mp.storage (BitVec.ofNat 64 (f * paging64Pagesz + j))

/-- Byte `i` of the 256 bytes that `__swap_cp_page` takes for frame `f`. -/
def windowByte (mp : MemphyStruct) (f i : ℕ) : Byte :=
  mp.storage (BitVec.ofNat 64 (f * pagingPagesz + i))

/-- The frames in the free list that `init_memphy` builds for a device of this size. -/
def FormatFrame (mp : MemphyStruct) (f : Addr) : Prop :=
  f ∈ (initMemphy mp.maxsz mp.rdmflg).freeFpList

/-- Frame `d` of the destination is afterwards what frame `s` of the source is, and
no other byte has changed. Only the destination can change. -/
structure CopiesFrame (mpsrc mpdst mpdst' : MemphyStruct) (s d : ℕ) : Prop where
  /-- All 4096 bytes are copied. -/
  copied : ∀ j < paging64Pagesz, frameByte mpdst' d j = frameByte mpsrc s j
  /-- The bytes of the other frames stay. -/
  others : ∀ a : Addr, a.toNat / paging64Pagesz ≠ d → mpdst'.storage a = mpdst.storage a

/-- The contents for which copying 256 bytes makes no difference: what is not written
is already there, and what is written is what should be there. -/
structure CopyIdle (mpsrc mpdst : MemphyStruct) (s d : ℕ) : Prop where
  /-- The bytes of the destination frame that are not written. -/
  unwritten : ∀ j < paging64Pagesz, ¬(d = 0 ∧ j < pagingPagesz) →
    frameByte mpdst d j = frameByte mpsrc s j
  /-- The 256 bytes that are written, into frame 0 or before the frame. -/
  written : ∀ i < pagingPagesz,
    windowByte mpsrc s i = if d = 0 then frameByte mpsrc s i else windowByte mpdst d i

/-- A formatted frame lies in the device. -/
theorem FormatFrame.lt {mp : MemphyStruct} {f : Addr} (h : FormatFrame mp f) :
    (f.toNat + 1) * paging64Pagesz ≤ mp.maxsz.toNat := by
  obtain ⟨n, hn, hl⟩ := initMemphy_freeFpList mp.maxsz mp.rdmflg
  unfold FormatFrame at h
  rw [hl] at h
  obtain ⟨k, hk, rfl⟩ := List.mem_map.mp h
  have hkn := List.mem_range.mp hk
  have hv : (BitVec.ofNat 64 k).toNat ≤ k := by
    rw [BitVec.toNat_ofNat]
    exact Nat.mod_le _ _
  unfold paging64Pagesz at hn ⊢
  omega

/-- The addresses of the loop, with the products not wrapping. -/
theorem copyAddr_eq (f : Addr) (i : ℕ) : f * BitVec.ofNat 64 pagingPagesz + BitVec.ofNat 64 i =
    BitVec.ofNat 64 (f.toNat * pagingPagesz + i) := by
  apply BitVec.eq_of_toNat_eq
  simp only [BitVec.toNat_add, BitVec.toNat_mul, BitVec.toNat_ofNat, pagingPagesz]
  omega

/-- The first `n` iterations write the first `n` bytes of the window. -/
theorem swapCpPageLoop_storage {mpsrc mpdst : MemphyStruct} {s d : Addr}
    (hs : mpsrc.rdmflg = true) (hd : mpdst.rdmflg = true)
    (hsrc : (s.toNat + 1) * paging64Pagesz ≤ mpsrc.maxsz.toNat)
    (hdst : (d.toNat + 1) * paging64Pagesz ≤ mpdst.maxsz.toNat) {n : ℕ} (hn : n ≤ pagingPagesz) :
    (swapCpPageLoop uninit mpsrc s d n mpdst).rdmflg = true ∧
      (swapCpPageLoop uninit mpsrc s d n mpdst).maxsz = mpdst.maxsz ∧
      ∀ a : Addr, (swapCpPageLoop uninit mpsrc s d n mpdst).storage a =
        if d.toNat * pagingPagesz ≤ a.toNat ∧ a.toNat < d.toNat * pagingPagesz + n then
          windowByte mpsrc s.toNat (a.toNat - d.toNat * pagingPagesz)
        else mpdst.storage a := by
  induction n with
  | zero =>
    refine ⟨hd, rfl, fun a => ?_⟩
    rw [if_neg (by omega)]
    rfl
  | succ n ih =>
    obtain ⟨hr, hm, hst⟩ := ih (by omega)
    have hsmax := mpsrc.maxsz.isLt
    have hdmax := mpdst.maxsz.isLt
    unfold pagingPagesz at hn
    unfold paging64Pagesz at hsrc hdst
    have hread : memphyRead mpsrc (BitVec.ofNat 64 (s.toNat * pagingPagesz + n)) =
        some (windowByte mpsrc s.toNat n) := by
      refine memphyRead_eq_some hs ?_
      rw [BitVec.lt_def, BitVec.toNat_ofNat, pagingPagesz]
      omega
    have hadr : (BitVec.ofNat 64 (d.toNat * pagingPagesz + n) : Addr).toNat =
        d.toNat * pagingPagesz + n := by
      rw [BitVec.toNat_ofNat, pagingPagesz]
      omega
    rw [swapCpPageLoop]
    rw [copyAddr_eq, copyAddr_eq, hread, Option.getD_some, memphyWrite_eq_some hr, Option.getD_some]
    · refine ⟨hr, hm, fun a => ?_⟩
      dsimp only
      by_cases ha : a = BitVec.ofNat 64 (d.toNat * pagingPagesz + n)
      · subst ha
        rw [Function.update_self, hadr, if_pos (by omega), Nat.add_sub_cancel_left]
      · have hne : a.toNat ≠ d.toNat * pagingPagesz + n := fun h =>
          ha (BitVec.eq_of_toNat_eq (h.trans hadr.symm))
        rw [Function.update_of_ne ha, hst a]
        split_ifs <;> first | rfl | omega
    · rw [hm, BitVec.lt_def, hadr, pagingPagesz]
      omega

/-- What `__swap_cp_page` leaves at every address of the destination. -/
theorem swapCpPage_storage {mpsrc mpdst : MemphyStruct} {s d : Addr}
    (hs : mpsrc.rdmflg = true) (hd : mpdst.rdmflg = true) (hfs : FormatFrame mpsrc s)
    (hfd : FormatFrame mpdst d) (a : Addr) :
    (swapCpPage uninit mpsrc s mpdst d).storage a =
      if d.toNat * pagingPagesz ≤ a.toNat ∧ a.toNat < d.toNat * pagingPagesz + pagingPagesz then
        windowByte mpsrc s.toNat (a.toNat - d.toNat * pagingPagesz)
      else mpdst.storage a := by
  unfold swapCpPage
  exact (swapCpPageLoop_storage hs hd hfs.lt hfd.lt (Nat.le_refl pagingPagesz)).2.2 a

section formatted

variable {mpsrc mpdst : MemphyStruct} {s d : Addr} (hs : mpsrc.rdmflg = true)
  (hd : mpdst.rdmflg = true) (hfs : FormatFrame mpsrc s) (hfd : FormatFrame mpdst d)

/-- The addresses of window and frame, with the sums not wrapping. -/
theorem FormatFrame.addr_toNat {mp : MemphyStruct} {f : Addr} (h : FormatFrame mp f) :
    (∀ j < paging64Pagesz, (BitVec.ofNat 64 (f.toNat * paging64Pagesz + j) : Addr).toNat =
      f.toNat * paging64Pagesz + j) ∧
    ∀ i < pagingPagesz, (BitVec.ofNat 64 (f.toNat * pagingPagesz + i) : Addr).toNat =
      f.toNat * pagingPagesz + i := by
  have hmax := h.lt
  have hlt := mp.maxsz.isLt
  unfold paging64Pagesz at *
  unfold pagingPagesz
  constructor
  · intro j hj
    rw [BitVec.toNat_ofNat]
    omega
  · intro i hi
    rw [BitVec.toNat_ofNat]
    omega

/-- In frame 0 window and frame start together. -/
theorem frameByte_zero (mp : MemphyStruct) (j : ℕ) : frameByte mp 0 j = windowByte mp 0 j := by
  unfold frameByte windowByte
  rw [Nat.zero_mul, Nat.zero_mul]

include hs hd hfs hfd

/-- The window of the destination is the window of the source. -/
theorem windowByte_swapCpPage {i : ℕ} (hi : i < pagingPagesz) :
    windowByte (swapCpPage uninit mpsrc s mpdst d) d.toNat i = windowByte mpsrc s.toNat i := by
  unfold windowByte
  rw [swapCpPage_storage hs hd hfs hfd, hfd.addr_toNat.2 i hi, if_pos (by omega),
    Nat.add_sub_cancel_left]
  rfl

/-- No byte outside of the window changes. -/
theorem storage_swapCpPage_of_not {a : Addr}
    (h : ¬(d.toNat * pagingPagesz ≤ a.toNat ∧ a.toNat < d.toNat * pagingPagesz + pagingPagesz)) :
    (swapCpPage uninit mpsrc s mpdst d).storage a = mpdst.storage a := by
  rw [swapCpPage_storage hs hd hfs hfd, if_neg h]

/-- Only in frame 0 does the window meet the frame. -/
theorem frameByte_swapCpPage {j : ℕ} (hj : j < paging64Pagesz)
    (h : ¬(d.toNat = 0 ∧ j < pagingPagesz)) :
    frameByte (swapCpPage uninit mpsrc s mpdst d) d.toNat j = frameByte mpdst d.toNat j := by
  refine storage_swapCpPage_of_not hs hd hfs hfd fun hin => h ?_
  rw [hfd.addr_toNat.1 j hj] at hin
  unfold pagingPagesz paging64Pagesz at *
  omega

/-- Copying a window is copying a frame for the idle contents and for no others. -/
theorem swapCpPage_copiesFrame_iff :
    CopiesFrame mpsrc mpdst (swapCpPage uninit mpsrc s mpdst d) s.toNat d.toNat ↔
      CopyIdle mpsrc mpdst s.toNat d.toNat := by
  constructor
  · rintro ⟨hcopied, hothers⟩
    refine ⟨fun j hj hnot => ?_, fun i hi => ?_⟩
    · rw [← hcopied j hj, frameByte_swapCpPage hs hd hfs hfd hj hnot]
    · have hw := @windowByte_swapCpPage uninit _ _ _ _ hs hd hfs hfd i hi
      rw [← hw]
      split
      · next h0 =>
        have hi' : i < paging64Pagesz := hi.trans (by decide)
        rw [← hcopied i hi', h0, frameByte_zero]
      · next h0 =>
        -- past frame 0 the window lies before the frame
        refine hothers _ ?_
        rw [hfd.addr_toNat.2 i hi]
        unfold pagingPagesz paging64Pagesz at *
        omega
  · rintro ⟨hunwritten, hwritten⟩
    refine ⟨fun j hj => ?_, fun a ha => ?_⟩
    · by_cases hin : d.toNat = 0 ∧ j < pagingPagesz
      · have hw := @windowByte_swapCpPage uninit _ _ _ _ hs hd hfs hfd j hin.2
        rw [hwritten j hin.2, if_pos hin.1, hin.1, ← frameByte_zero] at hw
        rw [hin.1]
        exact hw
      · rw [frameByte_swapCpPage hs hd hfs hfd hj hin]
        exact hunwritten j hj hin
    · by_cases hin : d.toNat * pagingPagesz ≤ a.toNat ∧
          a.toNat < d.toNat * pagingPagesz + pagingPagesz
      · have h0 : d.toNat ≠ 0 := by
          unfold pagingPagesz at hin
          unfold paging64Pagesz at ha
          omega
        rw [swapCpPage_storage hs hd hfs hfd, if_pos hin, hwritten _ (by omega), if_neg h0]
        unfold windowByte
        rw [Nat.add_sub_of_le hin.1, BitVec.ofNat_toNat, BitVec.setWidth_eq]
      · exact storage_swapCpPage_of_not hs hd hfs hfd hin

end formatted

/-! ## Two devices of two frames -/

/-- A device of two frames whose bytes all agree. -/
def twoFrames (b : Byte) : MemphyStruct := {initMemphy 8192 true with storage := fun _ => b}

theorem formatFrame_twoFrames (b : Byte) :
    FormatFrame (twoFrames b) 0 ∧ FormatFrame (twoFrames b) 1 := by
  have hm : (twoFrames b).maxsz = 8192 := initMemphy_maxsz 8192 true
  have hr : (twoFrames b).rdmflg = true := rfl
  unfold FormatFrame
  rw [hm, hr]
  decide

/-- Frame 0 of one device to frame 1 of another one with other bytes: the frame is not
copied. -/
theorem swapCpPage_not_copiesFrame : ¬ ∀ (uninit : Addr → Byte) (mpsrc mpdst : MemphyStruct)
    (s d : Addr), mpsrc.rdmflg = true → mpdst.rdmflg = true → FormatFrame mpsrc s →
      FormatFrame mpdst d →
        CopiesFrame mpsrc mpdst (swapCpPage uninit mpsrc s mpdst d) s.toNat d.toNat := by
  intro h
  obtain ⟨hs, _⟩ := formatFrame_twoFrames 7
  obtain ⟨_, hd⟩ := formatFrame_twoFrames 0
  have hc := (h (fun _ => 0) (twoFrames 7) (twoFrames 0) 0 1 rfl rfl hs hd).copied 0 (by decide)
  rw [frameByte_swapCpPage (s := 0) rfl rfl hs hd (by decide) (by decide)] at hc
  exact absurd hc (by decide)

/-- A source that holds 7 in frame 0 and 3 elsewhere. -/
def sourceFrame : MemphyStruct :=
  {twoFrames 3 with storage := fun x => if x.toNat < 4096 then 7 else 3}

/-- A destination that holds 7 in frame 1 and where the window of frame 1 lies, and 5
elsewhere. -/
def destinationFrame : MemphyStruct :=
  {twoFrames 5 with
    storage := fun x => if 256 ≤ x.toNat ∧ x.toNat < 512 ∨ 4096 ≤ x.toNat then 7 else 5}

/-- What should be copied from frame 0 to frame 1 is there, and so is what the window of
frame 1 gets. -/
theorem copyIdle_frames : CopyIdle sourceFrame destinationFrame 0 1 := by
  have hsrc : ∀ x < 4096, sourceFrame.storage (BitVec.ofNat 64 x) = 7 := fun x hx => by
    refine if_pos ?_
    rw [BitVec.toNat_ofNat]
    omega
  have hdst : ∀ x, 256 ≤ x ∧ x < 512 ∨ 4096 ≤ x ∧ x < 8192 →
      destinationFrame.storage (BitVec.ofNat 64 x) = 7 := fun x hx => by
    refine if_pos ?_
    rw [BitVec.toNat_ofNat]
    omega
  refine ⟨fun j hj _ => ?_, fun i hi => ?_⟩
  · unfold frameByte paging64Pagesz at *
    rw [hsrc _ (by omega), hdst _ (by omega)]
  · rw [if_neg (by decide)]
    unfold windowByte pagingPagesz at *
    rw [hsrc _ (by omega), hdst _ (by omega)]

/-- Between two devices that differ outside the frames the copy is exact. -/
theorem swapCpPage_copiesFrame_iff_frames :
    sourceFrame.storage 5000 ≠ destinationFrame.storage 5000 ∧
      sourceFrame.storage 600 ≠ destinationFrame.storage 600 ∧
      CopiesFrame sourceFrame destinationFrame
        (swapCpPage (fun _ => 0) sourceFrame 0 destinationFrame 1) (0 : Addr).toNat
        (1 : Addr).toNat := by
  have hs : FormatFrame sourceFrame 0 := (formatFrame_twoFrames 3).1
  have hd : FormatFrame destinationFrame 1 := (formatFrame_twoFrames 5).2
  exact ⟨by decide, by decide, (swapCpPage_copiesFrame_iff rfl rfl hs hd).mpr copyIdle_frames⟩

end OsSim.MemoryCopy
