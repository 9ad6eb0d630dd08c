import OsSim.MemoryInstruction
import Mathlib.Data.Fintype.Card

/-!
# Reclaiming the frames of a process

`free_pcb_memph` goes over `PAGING_MAX_PGN` entries, a bound of the 256-byte paging,
of the first-level directory. It pushes one frame for every one of them, far more than
a page table of 512 entries can name. A word read behind the directory is a parameter:
`none` stands for an access that traps.
-/

namespace OsSim.MemoryReclaim

open MemoryWords MemoryDevice MemoryPageTable MemoryMapping MemoryPaging MemoryInstruction

/-- `PAGING_MAX_PGN`: the pages of 256 bytes of a 22-bit bus. -/
def pagingMaxPgn : ℕ := (2 ^ 22 + pagingPagesz - 1) / pagingPagesz

variable (beyond : ℕ → Option Addr)

/-- `caller->mm->pgd[pagenum]`; a `NULL` directory traps. -/
def pgdWord (pgd : Option Directory) (pagenum : ℕ) : Option Addr :=
  match pgd with
  | none => none
  | some dir => if h : pagenum < 512 then some (dir ⟨pagenum, h⟩) else beyond pagenum

/-- The body of the loop of `free_pcb_memph` for one entry. -/
def reclaimEntry (c : ProcMem) (pte : UInt) : ProcMem :=
  if pagingPagePresent pte then {c with mram := memphyPutFreefp c.mram (toAddr (pagingFpn pte))}
  else {c with activeMswp := memphyPutFreefp c.activeMswp (toAddr (pagingSwp pte))}

/-- The first iterations of that loop. -/
def freePcbMemphLoop (c : ProcMem) : ℕ → Option ProcMem
  | 0 => some c
  | pagenum + 1 => do
    let c ← freePcbMemphLoop c pagenum
    let pte ← pgdWord beyond c.mm.pgd pagenum
    some (reclaimEntry c (pte.setWidth 32))

/-- `free_pcb_memph`. -/
def freePcbMemph (c : ProcMem) : Option ProcMem := freePcbMemphLoop beyond c pagingMaxPgn

/-- The number of free frames of both devices. -/
def freeFrames (c : ProcMem) : ℕ := c.mram.freeFpList.length + c.activeMswp.freeFpList.length

/-- Every entry gives up one frame, whatever it holds. -/
theorem freeFrames_reclaimEntry (c : ProcMem) (pte : UInt) :
    freeFrames (reclaimEntry c pte) = freeFrames c + 1 := by
  unfold reclaimEntry freeFrames memphyPutFreefp
  split <;> simp only [List.length_cons] <;> omega

variable {beyond}

/-- The loop of `free_pcb_memph` pushes one frame in each iteration. -/
theorem freeFrames_loop {c c' : ProcMem} {n : ℕ} (h : freePcbMemphLoop beyond c n = some c') :
    freeFrames c' = freeFrames c + n := by
  induction n generalizing c' with
  | zero =>
    cases h
    rfl
  | succ n ih =>
    simp only [freePcbMemphLoop, Option.bind_eq_bind, Option.bind_eq_some_iff] at h
    obtain ⟨d, hd, pte, _, he⟩ := h
    cases he
    rw [freeFrames_reclaimEntry, ih hd]
    omega

/-- Nothing but the two free lists changes. -/
theorem freePcbMemphLoop_mm {c c' : ProcMem} {n : ℕ} (h : freePcbMemphLoop beyond c n = some c') :
    c'.mm = c.mm := by
  induction n generalizing c' with
  | zero =>
    cases h
    rfl
  | succ n ih =>
    simp only [freePcbMemphLoop, Option.bind_eq_bind, Option.bind_eq_some_iff] at h
    obtain ⟨d, hd, pte, _, he⟩ := h
    cases he
    rw [← ih hd]
    unfold reclaimEntry
    split <;> rfl

/-- Within the directory a process that has mapped nothing gives frame zero of swap back
once for every entry. -/
theorem freePcbMemphLoop_initMm (mram activeMswp : MemphyStruct) (listed : Bool) {n : ℕ}
    (hn : n ≤ 512) : freePcbMemphLoop beyond ⟨initMm, mram, activeMswp, listed⟩ n =
      some ⟨initMm, mram, {activeMswp with
        freeFpList := List.replicate n 0 ++ activeMswp.freeFpList}, listed⟩ := by
  induction n with
  | zero => rfl
  | succ n ih =>
    have hword : pgdWord beyond initMm.pgd n = some 0 := by
      change (if h : n < 512 then some (callocDirectory ⟨n, h⟩) else beyond n) = some 0
      rw [dif_pos (by omega)]
      rfl
    have hzero : pagingPagePresent ((0 : Addr).setWidth 32) = false := by decide
    have hswp : toAddr (pagingSwp ((0 : Addr).setWidth 32)) = 0 := by decide
    simp only [freePcbMemphLoop, ih (by omega), hword, Option.bind_eq_bind, Option.bind_some,
      reclaimEntry, hzero, hswp, memphyPutFreefp, List.replicate_succ, List.cons_append]
    rfl

/-- The frame of swap an entry names. -/
def entrySwapFrame (e : Addr) : Addr := (pagingSwp (e.setWidth 32)).setWidth 64

/-- The frame of RAM an entry names. -/
def entryRamFrame (e : Addr) : Addr := (pagingFpn (e.setWidth 32)).setWidth 64

/-- A list holds the frames that the entries of a kind name, each once. -/
structure ListsFrames (mm : MmStruct) (kind : Addr → Prop) (frame : Addr → Addr)
    (frames : List Addr) : Prop where
  /-- No frame occurs twice. -/
  nodup : frames.Nodup
  /-- The frames are those of the entries. -/
  mem : ∀ f, f ∈ frames ↔ ∃ i, kind (mm.entry i) ∧ frame (mm.entry i) = f

/-- `free_pcb_memph` returns and has added to either free list exactly the frames the
process owns: of RAM those of present entries that are not swapped, of swap those of
swapped ones. -/
def Reclaims (beyond : ℕ → Option Addr) (c : ProcMem) : Prop :=
  ∃ c' ram swp, freePcbMemph beyond c = some c' ∧
    c'.mram.freeFpList.Perm (ram ++ c.mram.freeFpList) ∧
    c'.activeMswp.freeFpList.Perm (swp ++ c.activeMswp.freeFpList) ∧
    ListsFrames c.mm Resident entryRamFrame ram ∧ ListsFrames c.mm Swapped entrySwapFrame swp

/-- Entries of a kind name at most as many frames as there are such entries. -/
theorem ListsFrames.length_le {mm : MmStruct} {kind : Addr → Prop} [DecidablePred kind]
    {frame : Addr → Addr} {frames : List Addr} (h : ListsFrames mm kind frame frames) :
    frames.length ≤ (Finset.univ.filter fun i => kind (mm.entry i)).card := by
  rw [← List.toFinset_card_of_nodup h.nodup]
  have hsub : frames.toFinset ⊆
      (Finset.univ.filter fun i => kind (mm.entry i)).image fun i => frame (mm.entry i) := by
    intro f hf
    obtain ⟨i, hi, he⟩ := (h.mem f).mp (List.mem_toFinset.mp hf)
    exact Finset.mem_image.mpr ⟨i, Finset.mem_filter.mpr ⟨Finset.mem_univ i, hi⟩, he⟩
  exact (Finset.card_le_card hsub).trans Finset.card_image_le

/-- A page table names at most 512 frames, in RAM and swap together. -/
theorem owned_le (mm : MmStruct) {ram swp : List Addr}
    (hram : ListsFrames mm Resident entryRamFrame ram)
    (hswp : ListsFrames mm Swapped entrySwapFrame swp) : ram.length + swp.length ≤ 512 := by
  have hdisj : Disjoint (Finset.univ.filter fun i => Resident (mm.entry i))
      (Finset.univ.filter fun i => Swapped (mm.entry i)) := by
    rw [Finset.disjoint_filter]
    exact fun i _ hr hs => hr.2 hs
  have hcard := Finset.card_le_univ ((Finset.univ.filter fun i => Resident (mm.entry i)) ∪
    (Finset.univ.filter fun i => Swapped (mm.entry i)))
  rw [Finset.card_union_of_disjoint hdisj, Fintype.card_fin] at hcard
  have h1 := hram.length_le
  have h2 := hswp.length_le
  omega

/-- The loop pushes more frames than a page table can name. -/
theorem too_many_frames (beyond : ℕ → Option Addr) (c : ProcMem) : ¬Reclaims beyond c := by
  rintro ⟨c', ram, swp, hfree, hram, hswp, howned, hswapped⟩
  have hcount := freeFrames_loop hfree
  have hmax : pagingMaxPgn = 16384 := rfl
  have hle := owned_le c.mm howned hswapped
  unfold freeFrames at hcount
  rw [hram.length_eq, hswp.length_eq, List.length_append, List.length_append] at hcount
  omega

/-- `free_pcb_memph` reclaims what the process owns in no state of a process, whatever is
read behind the directory. -/
theorem never_reclaims (beyond : ℕ → Option Addr) (c : ProcMem) : ¬Reclaims beyond c :=
  too_many_frames beyond c

/-- A fresh process over two frames of RAM and no swap, where the first word behind the
directory traps. -/
theorem not_reclaims_boot : ¬Reclaims (fun _ => none) (bootMem 8192 0) :=
  too_many_frames _ _

end OsSim.MemoryReclaim
