import OsSim.MemorySwap
import OsSim.MemoryBytes

/-!
# What a failed page fault leaves

`pg_getpage` takes a victim off the replacement list before it asks the swap device
for a frame. A failure therefore leaves everything but the last page of that list,
which is lost if there was one.
-/

namespace OsSim.MemoryFault

open MemoryWords MemoryDevice MemoryPageTable MemoryMapping MemoryPaging MemoryLibrary
open MemoryEffects MemoryInstruction MemoryBytes MemorySwap RunSteps

variable {uninit : Addr → Byte}

/-- Page table, replacement list, free frames and bytes of both devices are as before. -/
structure MemoryIntact (c c' : ProcMem) : Prop where
  /-- The directories of all levels. -/
  directories : c'.mm.pgd = c.mm.pgd ∧ c'.mm.p4d = c.mm.p4d ∧ c'.mm.pud = c.mm.pud ∧
    c'.mm.pmd = c.mm.pmd ∧ c'.mm.pt = c.mm.pt
  /-- `fifo_pgn`. -/
  fifoPgn : c'.mm.fifoPgn = c.mm.fifoPgn
  /-- The free lists of RAM and swap. -/
  freeFpList : c'.mram.freeFpList = c.mram.freeFpList ∧
    c'.activeMswp.freeFpList = c.activeMswp.freeFpList
  /-- The contents of RAM and swap. -/
  storage : c'.mram.storage = c.mram.storage ∧ c'.activeMswp.storage = c.activeMswp.storage

/-- No frame can be had for a page: it is not resident, RAM is exhausted, and there is
no victim or no swap frame for one. -/
def Unservable (c : ProcMem) (pgn : CInt) : Prop :=
  ¬Present (c.mm.entry (ptIndex (toAddr pgn))) ∧ c.mram.freeFpList = [] ∧
    (c.mm.fifoPgn = [] ∨ c.activeMswp.freeFpList = [])

/-- An access finds a frame or fails, and it fails exactly on an unservable page. -/
theorem accessPage_eq_false {c : ProcMem} {pgn : CInt} :
    (accessPage c.mm c.mram.freeFpList c.activeMswp.freeFpList (toAddr pgn)).1 = false ↔
      Unservable c pgn := by
  unfold accessPage Unservable
  by_cases hp : Present (c.mm.entry (ptIndex (toAddr pgn)))
  · rw [if_pos hp]
    simp [hp]
  · rw [if_neg hp]
    cases hf : c.mram.freeFpList with
    | cons f rest => simp
    | nil =>
      cases hv : findVictimPage c.mm.fifoPgn with
      | none => simp [hp, findVictimPage_eq_none.mp hv]
      | some r =>
        have hne : c.mm.fifoPgn ≠ [] := by
          intro he
          rw [findVictimPage_eq_none.mpr he] at hv
          cases hv
        cases hs : c.activeMswp.freeFpList with
        | nil => simp [hp]
        | cons s rest => simp [hne]

/-- `pg_getpage` returns -1 exactly on an unservable page. -/
theorem pgGetpage_eq_none {c : ProcMem} {pgn : CInt} :
    (pgGetpage uninit c pgn).1 = none ↔ Unservable c pgn := by
  rw [(pgGetpage_eq c pgn).1, ← accessPage_eq_false]
  unfold accessResult
  cases (accessPage c.mm c.mram.freeFpList c.activeMswp.freeFpList (toAddr pgn)).1 <;> simp

/-- On an unservable page `pg_getpage` drops the last page of the replacement list and
changes nothing else. -/
theorem pgGetpage_of_unservable {c : ProcMem} {pgn : CInt} (h : Unservable c pgn) :
    (pgGetpage uninit c pgn).2 = {c with mm := {c.mm with fifoPgn := c.mm.fifoPgn.dropLast}} := by
  obtain ⟨hp, hf, hor⟩ := h
  rw [pgGetpage_of_not_present uninit hp]
  obtain ⟨f, rest, _, hcons, _⟩ | ⟨_, hv, he⟩ | ⟨v, fifo, _, hv, _, he⟩ |
    ⟨v, fifo, s, rest, _, _, hv, hs, _⟩ := faultPage_cases uninit c pgn
  · rw [hf] at hcons
    cases hcons
  · rw [he, hv, List.dropLast_nil, ← hv]
  · rw [he, hv, List.dropLast_concat]
  · rw [hv, hs] at hor
    simp at hor

/-- A failure is clean: the memory is as before whenever `pg_getpage` returns -1. -/
def FailsIntact (uninit : Addr → Byte) (c : ProcMem) (pgn : CInt) : Prop :=
  (pgGetpage uninit c pgn).1 = none → MemoryIntact c (pgGetpage uninit c pgn).2

/-- The page is not resident, RAM is exhausted, and a victim is there that the swap
device has no frame for. -/
def DropsVictim (c : ProcMem) (pgn : CInt) : Prop :=
  ¬Present (c.mm.entry (ptIndex (toAddr pgn))) ∧ c.mram.freeFpList = [] ∧
    c.mm.fifoPgn ≠ [] ∧ c.activeMswp.freeFpList = []

/-- A dropped victim is missing from the list afterwards. -/
theorem not_failsIntact {c : ProcMem} {pgn : CInt} (h : DropsVictim c pgn) :
    ¬FailsIntact uninit c pgn := by
  intro hclean
  obtain ⟨hp, hf, hv, hs⟩ := h
  have hno : Unservable c pgn := ⟨hp, hf, Or.inr hs⟩
  have hlist := (hclean (pgGetpage_eq_none.mpr hno)).fifoPgn
  rw [pgGetpage_of_unservable hno] at hlist
  have hlen := congrArg List.length hlist
  have hpos := List.length_pos_iff.mpr hv
  simp only [List.length_dropLast] at hlen
  omega

/-- Failures are clean except where a victim is dropped. -/
theorem failsIntact_iff (uninit : Addr → Byte) (c : ProcMem) (pgn : CInt) :
    FailsIntact uninit c pgn ↔ ¬DropsVictim c pgn := by
  refine ⟨fun hclean hdrop => not_failsIntact hdrop hclean, fun hn hnone => ?_⟩
  have hno : Unservable c pgn := pgGetpage_eq_none.mp hnone
  have hnil : c.mm.fifoPgn = [] := by
    by_contra hv
    exact hn ⟨hno.1, hno.2.1, hv, hno.2.2.resolve_left hv⟩
  rw [pgGetpage_of_unservable hno, hnil]
  exact ⟨⟨rfl, rfl, rfl, rfl, rfl⟩, hnil.symm, ⟨rfl, rfl⟩, rfl, rfl⟩

/-- Two frames of RAM and no swap: the access to the third of three pages fails, and the
first one is never a victim again. -/
theorem not_failsIntact_reachable : ¬∀ c : ProcMem,
    Reachable Booted (MemStep fun _ => 0) c → ∀ pgn, FailsIntact (fun _ => 0) c pgn := by
  intro h
  obtain ⟨c, hrun, hf⟩ := exists_run_of_map (fun _ _ => True)
    (memStep_of_memNext fun _ => 0) (bootMem 8192 0) threePages
    (fun c => (decide (Present (c.mm.entry 2)), c.mram.freeFpList, c.mm.fifoPgn,
      c.activeMswp.freeFpList)) (false, [], [1, 0], []) rfl
  simp only [Prod.mk.injEq, decide_eq_false_iff_not] at hf
  obtain ⟨hp, hr, hv, hs⟩ := hf
  have hreach : Reachable Booted (MemStep fun _ => 0) c := ⟨_, _, ⟨_, _, rfl⟩, hrun.unguard⟩
  have hdrop : DropsVictim c 2 := ⟨hp, hr, by rw [hv]; exact List.cons_ne_nil _ _, hs⟩
  exact not_failsIntact hdrop (h c hreach 2)

end OsSim.MemoryFault
