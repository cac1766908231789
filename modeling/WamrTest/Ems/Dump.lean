import WamrTest.Ems.Client

/-!
# What `gci_dump` shows

The walk over the chunks of a heap that `gci_dump` prints. On a consistent heap it prints each
chunk once and ends at the end of the pool, so what holds of the chunks can be read off its lines.
-/

namespace WamrTest.Ems

open Arena BitField ByteMemory

def hmuJo : BitVec 32 := 3#32

/-- The letter for a type, the one of the line before for a type that has none. -/
def hmuInuse (ut : BitVec 32) (mark : Bool) (inuse : Char) : Char :=
  if ut = hmuVo then 'V'
  else if ut = hmuJo then if mark then 'J' else 'j'
  else if ut = hmuFc then 'F'
  else inuse

structure DumpLine where
  index : ℕ
  offset : ℤ
  ut : BitVec 32
  pinuse : Bool
  mark : Bool
  inuse : Char
  objSize : ℤ

def dumpLine (h : Heap) (cur : ℤ) (i : ℕ) (inuse : Char) : DumpLine :=
  let header := h.header cur
  let ut := hmuGetUt header
  let mark := getBit header 28
  { index := i, offset := cur - h.baseAddr, ut, pinuse := hmuGetPinuse header, mark
    inuse := hmuInuse ut mark inuse, objSize := hmuGetSize header - hmuSize }

/-- The loop of `gci_dump` from `cur` on, and whether it found the heap corrupted. -/
def gciDumpLoop (h : Heap) : ℕ → ℤ → ℕ → Char → List DumpLine × Bool
  | 0, _, _, _ => ([], false)
  | fuel+1, cur, i, inuse =>
    if cur < h.endAddr then
      let size := hmuGetSize (h.header cur)
      if size = 0 ∨ h.endAddr - cur < size then ([], true)
      else
        let line := dumpLine h cur i inuse
        let (lines, corrupted) := gciDumpLoop h fuel (cur + size) (i + 1) line.inuse
        (line :: lines, corrupted)
    else ([], cur ≠ h.endAddr)

/-- Each chunk has at least 8 bytes, so the heap's size is fuel enough. -/
def gciDump (h : Heap) : List DumpLine × Heap :=
  let (lines, corrupted) := gciDumpLoop h (h.currentSize.toNat + 1) h.baseAddr 0 'U'
  (lines, if corrupted then h.corrupted else h)

def DumpLine.block (line : DumpLine) : Block := ⟨line.objSize + hmuSize, line.inuse = 'F'⟩

def DumpLine.obj (h : Heap) (line : DumpLine) : ℤ := h.baseAddr + line.offset + hmuSize

section Walk

variable {h : Heap} {a : ℤ} {prev : Option ℤ} {bs : List Block} {fuel i : ℕ} {inuse : Char}

private theorem dumpLine_inuse {b : Block} (hb : ChunkAt h.mem a prev b) :
    (dumpLine h a i inuse).inuse = if b.free then 'F' else 'V' := by
  have hut : hmuGetUt (h.header a) = if b.free then hmuFc else hmuVo := hb.ut
  have hfree (mark : Bool) : hmuInuse hmuFc mark inuse = 'F' := rfl
  have hused (mark : Bool) : hmuInuse hmuVo mark inuse = 'V' := rfl
  simp only [dumpLine,hut]
  split
  · exact hfree _
  · exact hused _

private theorem dumpLine_block {b : Block} (hb : ChunkAt h.mem a prev b) : (dumpLine h a i inuse).block = b := by
  have hsize : hmuGetSize (h.header a) = b.size := hb.size
  rw [DumpLine.block,dumpLine_inuse hb]
  obtain ⟨s,f⟩ := b
  cases f <;> simpa [dumpLine] using hsize

private theorem gciDumpLoop_eq (hl : Layout h.mem a prev bs) (hend : a + total bs = h.endAddr)
    (hfuel : bs.length < fuel) :
    ∃ lines, gciDumpLoop h fuel a i inuse = (lines, false) ∧
      lines.map (fun l => (h.baseAddr + l.offset, l.block)) = place a bs ∧
      ∀ l ∈ lines, l.inuse = if l.block.free then 'F' else 'V' := by
  induction bs generalizing a prev fuel i inuse with
  | nil =>
    rw [total_nil,add_zero] at hend
    cases fuel with
    | zero => exact absurd hfuel (Nat.not_lt_zero _)
    | succ fuel => exact ⟨[],by simp [gciDumpLoop,hend],rfl,nofun⟩
  | cons b bs ih =>
    obtain ⟨hb,hrest⟩ := hl
    have hmin := hb.smallest
    have hnonneg := total_nonneg hrest.pos
    rw [total_cons] at hend
    cases fuel with
    | zero => exact absurd hfuel (Nat.not_lt_zero _)
    | succ fuel =>
      have hfuel' := Nat.lt_of_succ_lt_succ hfuel
      obtain ⟨lines,hloop,hlines,hinuse⟩ := ih hrest (by omega) hfuel'
      have hsize : hmuGetSize (h.header a) = b.size := hb.size
      refine ⟨dumpLine h a i inuse::lines,?_,?_,?_⟩
      · simp only [gciDumpLoop,hsize]
        rw [if_pos (by omega),if_neg (by omega),hloop]
      · rw [List.map_cons,hlines,place,dumpLine_block hb]
        simp [dumpLine]
      · intro l hmem
        rcases List.mem_cons.mp hmem with rfl | hmem
        · rw [dumpLine_block hb]
          exact dumpLine_inuse hb
        · exact hinuse l hmem

/-- The dump of a consistent heap goes through its chunks and finds nothing wrong. -/
theorem gciDump_eq (hc : Consistent h bs) :
    (gciDump h).2 = h ∧
      (gciDump h).1.map (fun l => (h.baseAddr + l.offset, l.block)) = place h.baseAddr bs ∧
      ∀ l ∈ (gciDump h).1, l.inuse = if l.block.free then 'F' else 'V' := by
  have hend : h.baseAddr + total bs = h.endAddr := by rw [hc.total,Heap.endAddr]
  have hlen := length_le_total hc.layout.pos
  rw [hc.total] at hlen
  have hfuel : bs.length < h.currentSize.toNat + 1 := by omega
  obtain ⟨lines,hloop,hlines,hinuse⟩ := gciDumpLoop_eq hc.layout hend hfuel
  rw [gciDump,hloop]
  exact ⟨rfl,hlines,hinuse⟩

def blocks (h : Heap) : List Block := (gciDump h).1.map DumpLine.block

theorem blocks_eq (hc : Consistent h bs) : blocks h = bs := by
  have hlines := congrArg (List.map Prod.snd) (gciDump_eq hc).2.1
  rw [map_snd_place,List.map_map] at hlines
  exact hlines

end Walk

end WamrTest.Ems
