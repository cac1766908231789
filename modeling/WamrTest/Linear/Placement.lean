import WamrTest.Linear.Memory

/-!
# Where the app heap goes

`memory_instantiate` adds the app heap's pages with 32-bit arithmetic. None of it wraps around: the
heap lies in the memory, apart from what the module uses, or the module is refused.
-/

namespace WamrTest.Linear

def pagesOf (size : ℕ) : ℕ := (size + 65535) / 65536

def WASMMemory.size (memory : WASMMemory) : ℕ := memory.numBytesPerPage.toNat * memory.initPageCount.toNat

def Placement.size (p : Placement) : ℕ := p.numBytesPerPage.toNat * p.initPageCount.toNat

/-- Where an app heap goes. -/
inductive HeapPlace
  | behindPage
  | onlyPage
  | beforeHeapBase
  | newPages

def heapPlace (module : Module) (memory : WASMMemory) : HeapPlace :=
  if memory.initPageCount = memory.maxPageCount ∧ memory.initPageCount = 1 then .behindPage
  else if memory.initPageCount = memory.maxPageCount ∧ memory.initPageCount = 0 then .onlyPage
  else if module.auxHeapBaseGlobalIndex ≠ uint32Max ∧ module.auxHeapBase.toNat < memory.size % 2 ^ 32 then
    .beforeHeapBase
  else .newPages

def heapStart (module : Module) (memory : WASMMemory) : ℕ :=
  match heapPlace module memory with
  | .behindPage => memory.numBytesPerPage.toNat
  | .onlyPage => 0
  | .beforeHeapBase => module.auxHeapBase.toNat
  | .newPages => memory.size

/-- New pages go to the heap, less a KB. -/
def heapGiven (module : Module) (memory : WASMMemory) (heapSize : ℕ) : ℕ :=
  match heapPlace module memory with
  | .newPages => 65536 * pagesOf heapSize - 1024
  | _ => heapSize

def addedPages (module : Module) (memory : WASMMemory) (heapSize : ℕ) : ℕ :=
  match heapPlace module memory with
  | .behindPage => 0
  | .onlyPage => 1
  | .beforeHeapBase => pagesOf (module.auxHeapBase.toNat + heapSize + 1024) - pagesOf module.auxHeapBase.toNat
  | .newPages => pagesOf heapSize

/-- The bytes of a memory that has an app heap of some size. -/
def grownSize (module : Module) (memory : WASMMemory) (heapSize : ℕ) : ℕ :=
  match heapPlace module memory with
  | .behindPage => memory.numBytesPerPage.toNat + heapSize
  | .onlyPage => heapSize
  | _ => min (65536 * (memory.initPageCount.toNat + addedPages module memory heapSize)) (2 ^ 32 - 1)

def TooLarge (module : Module) (memory : WASMMemory) (heapSize : ℕ) : Prop :=
  match heapPlace module memory with
  | .behindPage => 2 ^ 32 ≤ memory.numBytesPerPage.toNat + heapSize
  | _ => 0 < heapSize ∧ 65536 < memory.initPageCount.toNat + addedPages module memory heapSize

/-- A heap behind the module's memory, or between its data and the heap base that the module is told. -/
structure Apart (module : Module) (memory : WASMMemory) (p : Placement) : Prop where
  above : p.auxHeapBase = none → memory.size ≤ p.heapOffset.toNat
  before : ∀ b, p.auxHeapBase = some b → p.heapOffset = module.auxHeapBase ∧
    p.heapOffset.toNat + p.heapSize.toNat ≤ b.toNat ∧ b.toNat + 1023 ≤ p.size

structure Placed (module : Module) (memory : WASMMemory) (heapSize : ℕ) (p : Placement) : Prop where
  none : heapSize = 0 → p.heapSize.toNat = 0
  offset : 0 < heapSize → p.heapOffset.toNat = heapStart module memory
  given : 0 < heapSize → p.heapSize.toNat = heapGiven module memory heapSize
  inside : 0 < heapSize → p.heapOffset.toNat + p.heapSize.toNat ≤ p.size
  apart : 0 < heapSize → Apart module memory p
  grown : 0 < heapSize → p.size = grownSize module memory heapSize
  kept : memory.size ≤ p.size
  pages : p.initPageCount ≤ p.maxPageCount ∧ p.maxPageCount ≤ defaultMaxPages
  growable : p.initPageCount ≠ p.maxPageCount → p.numBytesPerPage = defaultNumBytesPerPage
  bound : p.size ≤ 2 ^ 32

theorem defaultNumBytesPerPage_toNat : defaultNumBytesPerPage.toNat = 65536 := rfl

theorem defaultMaxPages_toNat : defaultMaxPages.toNat = 65536 := rfl

theorem uint32Max_toNat : uint32Max.toNat = 4294967295 := rfl

private theorem kb_toNat : kb.toNat = 1024 := rfl

theorem one_toNat : (1 : UInt32).toNat = 1 := rfl

section Insertion

variable {a h n : UInt32}

private theorem bytesToPageEnd_toNat (a : UInt32) :
    (bytesToPageEnd a defaultNumBytesPerPage).toNat = pagesOf a.toNat * 65536 - a.toNat := by
  have hmod : (a % defaultNumBytesPerPage).toNat = a.toNat % 65536 := UInt32.toNat_mod _ _
  have hn := defaultNumBytesPerPage_toNat
  unfold bytesToPageEnd pagesOf
  simp only
  split
  next hz =>
    rw [hz] at hmod
    rw [UInt32.sub_self]
    change 0 = _ at hmod
    change 0 = _
    omega
  next hz =>
    have hne : (a % defaultNumBytesPerPage).toNat ≠ 0 := fun h0 => hz (UInt32.toNat_inj.mp h0)
    rw [UInt32.toNat_sub_of_le _ _ (UInt32.le_iff_toNat_le.mpr (by omega))]
    omega

/-- The last page of the memory has a KB left behind the new heap base. -/
theorem insertBeforeHeapBase_spec (hh : h.toNat ≤ 2 ^ 29) (hpos : 0 < h.toNat) :
    ∃ b, insertBeforeHeapBase defaultNumBytesPerPage a h =
        ⟨defaultNumBytesPerPage, a, h,
          UInt32.ofNat (pagesOf (a.toNat + h.toNat + 1024) - pagesOf a.toNat), some b⟩ ∧
      (pagesOf (a.toNat + h.toNat + 1024) ≤ 65536 → a.toNat + h.toNat ≤ b.toNat ∧
        b.toNat + 1024 ≤ pagesOf (a.toNat + h.toNat + 1024) * 65536) := by
  have ha := a.toNat_lt
  have hn := defaultNumBytesPerPage_toNat
  have hstart := bytesToPageEnd_toNat a
  have hend := bytesToPageEnd_toNat (a + h)
  have hinc : ((h - bytesToPageEnd a defaultNumBytesPerPage + defaultNumBytesPerPage - 1) /
      defaultNumBytesPerPage).toNat = pagesOf (a.toNat + h.toNat) - pagesOf a.toNat := by
    rw [UInt32.toNat_div,UInt32.toNat_sub,UInt32.toNat_add,UInt32.toNat_sub,hstart,hn,one_toNat]
    unfold pagesOf
    omega
  have hsum : (a + h).toNat = (a.toNat + h.toNat) % 2 ^ 32 := UInt32.toNat_add _ _
  have hraised : (a + h + kb).toNat = (a.toNat + h.toNat + 1024) % 2 ^ 32 := by
    rw [UInt32.toNat_add,hsum,kb_toNat]
    omega
  unfold insertBeforeHeapBase
  simp only
  split
  next hlt =>
    rw [UInt32.lt_iff_toNat_lt,hend,hsum,kb_toNat] at hlt
    have hcount : (h - bytesToPageEnd a defaultNumBytesPerPage + defaultNumBytesPerPage - 1) /
        defaultNumBytesPerPage + 1 =
        UInt32.ofNat (pagesOf (a.toNat + h.toNat + 1024) - pagesOf a.toNat) := by
      apply UInt32.toNat_inj.mp
      rw [UInt32.toNat_add,hinc,UInt32.toNat_ofNat',one_toNat]
      unfold pagesOf at hlt ⊢
      omega
    refine ⟨a + h + kb,by rw [hcount],?_⟩
    intro hmax
    rw [hraised]
    unfold pagesOf at hlt hmax ⊢
    omega
  next hle =>
    rw [UInt32.lt_iff_toNat_lt,hend,hsum,kb_toNat] at hle
    have hcount : (h - bytesToPageEnd a defaultNumBytesPerPage + defaultNumBytesPerPage - 1) /
        defaultNumBytesPerPage =
        UInt32.ofNat (pagesOf (a.toNat + h.toNat + 1024) - pagesOf a.toNat) := by
      apply UInt32.toNat_inj.mp
      rw [hinc,UInt32.toNat_ofNat']
      unfold pagesOf at hle ⊢
      omega
    refine ⟨a + h,by rw [hcount],?_⟩
    intro hmax
    rw [hsum]
    unfold pagesOf at hle hmax ⊢
    omega

/-- A KB less than the new pages, which may be less than what was asked for. -/
theorem insertBeforeNewPage_spec (hh : h.toNat ≤ 2 ^ 29) (hpos : 0 < h.toNat) :
    insertBeforeNewPage defaultNumBytesPerPage n h =
      ⟨defaultNumBytesPerPage, UInt32.ofNat (65536 * n.toNat), UInt32.ofNat (65536 * pagesOf h.toNat - 1024),
        UInt32.ofNat (pagesOf h.toNat), none⟩ := by
  have hn := defaultNumBytesPerPage_toNat
  have hinc : ((h + defaultNumBytesPerPage - 1) / defaultNumBytesPerPage).toNat = pagesOf h.toNat := by
    rw [UInt32.toNat_div,UInt32.toNat_sub,UInt32.toNat_add,hn,one_toNat]
    unfold pagesOf
    omega
  have hpages : 0 < pagesOf h.toNat ∧ 65536 * pagesOf h.toNat < 2 ^ 32 := by
    unfold pagesOf
    omega
  have hsize : (defaultNumBytesPerPage * ((h + defaultNumBytesPerPage - 1) / defaultNumBytesPerPage)).toNat =
      65536 * pagesOf h.toNat := by
    rw [UInt32.toNat_mul,hinc,hn,Nat.mod_eq_of_lt hpages.2]
  have hcount : (h + defaultNumBytesPerPage - 1) / defaultNumBytesPerPage = UInt32.ofNat (pagesOf h.toNat) := by
    apply UInt32.toNat_inj.mp
    rw [hinc,UInt32.toNat_ofNat']
    omega
  have hoffset : defaultNumBytesPerPage * n = UInt32.ofNat (65536 * n.toNat) := by
    apply UInt32.toNat_inj.mp
    rw [UInt32.toNat_mul,UInt32.toNat_ofNat',hn]
  have hleft : defaultNumBytesPerPage * ((h + defaultNumBytesPerPage - 1) / defaultNumBytesPerPage) - kb =
      UInt32.ofNat (65536 * pagesOf h.toNat - 1024) := by
    apply UInt32.toNat_inj.mp
    rw [UInt32.toNat_sub_of_le _ _ (UInt32.le_iff_toNat_le.mpr (by rw [hsize,kb_toNat]; omega)),hsize,
      UInt32.toNat_ofNat',kb_toNat]
    omega
  have hgt : defaultNumBytesPerPage * ((h + defaultNumBytesPerPage - 1) / defaultNumBytesPerPage) > 0 := by
    rw [gt_iff_lt,UInt32.lt_iff_toNat_lt,hsize]
    exact Nat.mul_pos (by omega) hpages.1
  unfold insertBeforeNewPage
  simp only
  rw [if_pos hgt,hleft,hoffset,hcount]

end Insertion

private theorem WASMMemory.limits (memory : WASMMemory) :
    memory.initPageCount.toNat ≤ memory.maxPageCount.toNat ∧ memory.maxPageCount.toNat ≤ 65536 := by
  rcases memory.loaded with ⟨-,hle,hmax⟩ | ⟨heq,hmax⟩
  · exact ⟨UInt32.le_iff_toNat_le.mp hle,UInt32.le_iff_toNat_le.mp hmax⟩
  · have hone := UInt32.le_iff_toNat_le.mp hmax
    rw [one_toNat] at hone
    rw [heq]
    omega

section Growth

variable {module : Module} {memory : WASMMemory} {heapSize : UInt32}

/-- What the two insertions between pages have in common, as long as there are at most 65536 pages. -/
structure Grows (module : Module) (memory : WASMMemory) (heapSize : ℕ) (i : Inserted) (inc : ℕ) : Prop where
  few : inc ≤ 8194
  count : i.incPageCount.toNat = inc
  bytes : i.numBytesPerPage = defaultNumBytesPerPage
  given : i.heapSize.toNat = heapGiven module memory heapSize
  offset : memory.initPageCount.toNat + inc ≤ 65536 → i.heapOffset.toNat = heapStart module memory
  inside : memory.initPageCount.toNat + inc ≤ 65536 →
    i.heapOffset.toNat + i.heapSize.toNat + 1024 ≤ 65536 * (memory.initPageCount.toNat + inc)
  above : memory.initPageCount.toNat + inc ≤ 65536 → i.auxHeapBase = none → memory.size ≤ i.heapOffset.toNat
  before : memory.initPageCount.toNat + inc ≤ 65536 → ∀ b, i.auxHeapBase = some b →
    i.heapOffset = module.auxHeapBase ∧ i.heapOffset.toNat + i.heapSize.toNat ≤ b.toNat ∧
    b.toNat + 1024 ≤ 65536 * (memory.initPageCount.toNat + inc)
  grown : inc = 0 → memory.initPageCount.toNat < 65536
  total : grownSize module memory heapSize = min (65536 * (memory.initPageCount.toNat + inc)) (2 ^ 32 - 1)

private theorem insertPages_spec {i : Inserted} {inc : ℕ} (hg : Grows module memory heapSize.toNat i inc)
    (hbytes : memory.numBytesPerPage = defaultNumBytesPerPage) (hpos : 0 < heapSize.toNat) :
    (insertPages memory i = .error insertFailed ∧ 65536 < memory.initPageCount.toNat + inc) ∨
      ∃ p, insertPages memory i = .ok p ∧ Placed module memory heapSize.toNat p ∧
        memory.initPageCount.toNat + inc ≤ 65536 := by
  obtain ⟨hfew,hcount,hpage,hgiven,hoffset,hinside,habove,hbefore,hgrown,htotal⟩ := hg
  obtain ⟨hinit,hmax⟩ := memory.limits
  have hsize : memory.size = 65536 * memory.initPageCount.toNat := by
    rw [WASMMemory.size,hbytes,defaultNumBytesPerPage_toNat]
  have hinit' : (memory.initPageCount + i.incPageCount).toNat = memory.initPageCount.toNat + inc := by
    rw [UInt32.toNat_add,hcount]
    omega
  have hmax' : (memory.maxPageCount + i.incPageCount).toNat = memory.maxPageCount.toNat + inc := by
    rw [UInt32.toNat_add,hcount]
    omega
  have hpages := defaultMaxPages_toNat
  unfold insertPages
  simp only
  split
  next hgt =>
    left
    rw [gt_iff_lt,UInt32.lt_iff_toNat_lt,hinit',hpages] at hgt
    exact ⟨rfl,hgt⟩
  next hgt =>
    rw [gt_iff_lt,UInt32.lt_iff_toNat_lt,hinit',hpages] at hgt
    have hle : memory.initPageCount.toNat + inc ≤ 65536 := by omega
    have hinside' := hinside hle
    have habove' := habove hle
    have hbefore' := hbefore hle
    right
    split
    next heq =>
      have hfull : memory.initPageCount.toNat + inc = 65536 := by rw [← hinit',heq,hpages]
      have hfullSize : Placement.size ⟨uint32Max, 1, 1, i.heapOffset, i.heapSize, i.auxHeapBase⟩ = 4294967295 := by
        simp only [Placement.size,uint32Max_toNat,one_toNat]
      refine ⟨_,rfl,?_,hle⟩
      constructor
      · omega
      · exact fun _ => hoffset hle
      · exact fun _ => hgiven
      · intro _
        rw [hfullSize]
        dsimp only
        omega
      · intro _
        constructor
        · exact habove'
        · intro b hb
          obtain ⟨hoff,hend,hroom⟩ := hbefore' b hb
          refine ⟨hoff,hend,?_⟩
          rw [hfullSize]
          omega
      · intro _
        rw [hfullSize,htotal]
        omega
      · rw [hfullSize]
        omega
      · change (1 : UInt32) ≤ 1 ∧ (1 : UInt32) ≤ defaultMaxPages
        decide
      · exact fun hne => absurd rfl hne
      · rw [hfullSize]
        omega
    next hne =>
      refine ⟨_,rfl,?_,hle⟩
      generalize hmaxPages : (if memory.maxPageCount + i.incPageCount > defaultMaxPages then defaultMaxPages
        else memory.maxPageCount + i.incPageCount) = maxPageCount
      have hgrownSize : Placement.size ⟨i.numBytesPerPage, memory.initPageCount + i.incPageCount, maxPageCount,
          i.heapOffset, i.heapSize, i.auxHeapBase⟩ = 65536 * (memory.initPageCount.toNat + inc) := by
        simp only [Placement.size,hpage,defaultNumBytesPerPage_toNat,hinit']
      constructor
      · omega
      · exact fun _ => hoffset hle
      · exact fun _ => hgiven
      · intro _
        rw [hgrownSize]
        dsimp only
        omega
      · intro _
        constructor
        · exact habove'
        · intro b hb
          obtain ⟨hoff,hend,hroom⟩ := hbefore' b hb
          refine ⟨hoff,hend,?_⟩
          rw [hgrownSize]
          omega
      · intro _
        have hsome : memory.initPageCount.toNat + inc ≠ 65536 := by
          rw [← hinit',← hpages]
          exact mt UInt32.toNat_inj.mp hne
        rw [hgrownSize,htotal]
        omega
      · rw [hgrownSize]
        omega
      · simp only [UInt32.le_iff_toNat_le,hinit',hpages]
        rw [← hmaxPages]
        split
        next => omega
        next hle' =>
          rw [gt_iff_lt,UInt32.lt_iff_toNat_lt,hmax',hpages] at hle'
          omega
      · exact fun _ => hpage
      · rw [hgrownSize]
        omega

private theorem insertHeap_beforeHeapBase (hplace : heapPlace module memory = .beforeHeapBase)
    (hbase : module.auxHeapBase.toNat < memory.size % 2 ^ 32) (hbytes : memory.size = 65536 * memory.initPageCount.toNat)
    (hh : heapSize.toNat ≤ 2 ^ 29) (hpos : 0 < heapSize.toNat) :
    Grows module memory heapSize.toNat (insertBeforeHeapBase defaultNumBytesPerPage module.auxHeapBase heapSize)
      (addedPages module memory heapSize.toNat) := by
  obtain ⟨hinit,hmax⟩ := memory.limits
  have haux := module.auxHeapBase.toNat_lt
  obtain ⟨b,hb,hroom⟩ := insertBeforeHeapBase_spec (a := module.auxHeapBase) hh hpos
  rw [hb]
  unfold addedPages
  simp only [hplace]
  constructor
  · unfold pagesOf
    omega
  · rw [UInt32.toNat_ofNat']
    unfold pagesOf
    omega
  · rfl
  · simp only [heapGiven,hplace]
  · intro _
    simp only [heapStart,hplace]
  · intro hle
    unfold pagesOf at hle ⊢
    dsimp only
    omega
  · intro _ hno
    exact absurd hno (by simp)
  · intro hle c hc
    have hc' := Option.some.inj hc
    subst hc'
    have hpages : pagesOf (module.auxHeapBase.toNat + heapSize.toNat + 1024) ≤ 65536 := by
      unfold pagesOf at hle ⊢
      omega
    obtain ⟨hend,hkb⟩ := hroom hpages
    refine ⟨rfl,hend,hkb.trans ?_⟩
    unfold pagesOf at hle ⊢
    omega
  · omega
  · simp only [grownSize,addedPages,hplace]

private theorem insertHeap_newPages (hplace : heapPlace module memory = .newPages)
    (hbytes : memory.size = 65536 * memory.initPageCount.toNat) (hh : heapSize.toNat ≤ 2 ^ 29)
    (hpos : 0 < heapSize.toNat) :
    Grows module memory heapSize.toNat (insertBeforeNewPage defaultNumBytesPerPage memory.initPageCount heapSize)
      (addedPages module memory heapSize.toNat) := by
  rw [insertBeforeNewPage_spec hh hpos]
  have hcount : 0 < pagesOf heapSize.toNat ∧ pagesOf heapSize.toNat ≤ 8192 := by
    unfold pagesOf
    omega
  have hstart (hle : memory.initPageCount.toNat + pagesOf heapSize.toNat ≤ 65536) :
      (UInt32.ofNat (65536 * memory.initPageCount.toNat)).toNat = memory.size := by
    rw [UInt32.toNat_ofNat',hbytes]
    omega
  have hgiven : (UInt32.ofNat (65536 * pagesOf heapSize.toNat - 1024)).toNat =
      65536 * pagesOf heapSize.toNat - 1024 := by
    rw [UInt32.toNat_ofNat']
    omega
  unfold addedPages
  simp only [hplace]
  constructor
  · omega
  · rw [UInt32.toNat_ofNat']
    omega
  · rfl
  · simp only [heapGiven,hplace,hgiven]
  · intro hle
    simp only [heapStart,hplace,hstart hle]
  · intro hle
    rw [hstart hle,hgiven]
    omega
  · intro hle _
    exact (hstart hle).ge
  · intro _ c hc
    exact absurd hc (by simp)
  · omega
  · simp only [grownSize,addedPages,hplace]

theorem Module.heapSize_le (module : Module) (heapSize : UInt32) :
    (module.heapSize heapSize).toNat ≤ heapSize.toNat := by
  unfold Module.heapSize
  split
  next => exact Nat.zero_le _
  next => exact le_rfl

private theorem placed_behindPage {h : UInt32} (hplace : heapPlace module memory = .behindPage)
    (hone : memory.initPageCount = memory.maxPageCount ∧ memory.initPageCount = 1)
    (hfits : memory.numBytesPerPage.toNat + h.toNat < 2 ^ 32) :
    Placed module memory h.toNat ⟨memory.numBytesPerPage + h, memory.initPageCount, memory.maxPageCount,
      memory.numBytesPerPage, h, none⟩ := by
  obtain ⟨heq,hinit⟩ := hone
  have hsize : memory.size = memory.numBytesPerPage.toNat := by
    rw [WASMMemory.size,hinit,one_toNat,Nat.mul_one]
  have hsize' : Placement.size ⟨memory.numBytesPerPage + h, memory.initPageCount, memory.maxPageCount,
      memory.numBytesPerPage, h, none⟩ = memory.numBytesPerPage.toNat + h.toNat := by
    simp only [Placement.size,UInt32.toNat_add,hinit,one_toNat]
    omega
  constructor
  · exact id
  · intro _
    simp only [heapStart,hplace]
  · intro _
    simp only [heapGiven,hplace]
  · intro _
    rw [hsize']
  · intro _
    constructor
    · intro _
      exact hsize.le
    · intro b hb
      exact absurd hb (by simp)
  · intro _
    simp only [hsize',grownSize,hplace]
  · rw [hsize']
    omega
  · change memory.initPageCount ≤ memory.maxPageCount ∧ memory.maxPageCount ≤ defaultMaxPages
    rw [← heq,hinit]
    decide
  · exact fun hne => absurd heq hne
  · rw [hsize']
    exact hfits.le

private theorem placed_onlyPage {h : UInt32} (hplace : heapPlace module memory = .onlyPage)
    (hnone : memory.initPageCount = 0) : Placed module memory h.toNat ⟨h, 1, 1, 0, h, none⟩ := by
  have hsize : memory.size = 0 := by
    rw [WASMMemory.size,hnone]
    rfl
  have hsize' : Placement.size ⟨h, 1, 1, 0, h, none⟩ = h.toNat := by
    simp only [Placement.size,one_toNat,Nat.mul_one]
  constructor
  · exact id
  · intro _
    simp only [heapStart,hplace]
    rfl
  · intro _
    simp only [heapGiven,hplace]
  · intro _
    rw [hsize']
    exact (Nat.zero_add _).le
  · intro _
    constructor
    · intro _
      rw [hsize]
      exact Nat.zero_le _
    · intro b hb
      exact absurd hb (by simp)
  · intro _
    simp only [hsize',grownSize,hplace]
  · rw [hsize,hsize']
    exact Nat.zero_le _
  · change (1 : UInt32) ≤ 1 ∧ (1 : UInt32) ≤ defaultMaxPages
    decide
  · exact fun hne => absurd rfl hne
  · rw [hsize']
    exact h.toNat_lt.le

theorem WASMMemory.size_le (memory : WASMMemory) : memory.size ≤ 2 ^ 32 := by
  obtain ⟨hinit,hmax⟩ := memory.limits
  have hn := memory.numBytesPerPage.toNat_lt
  rw [WASMMemory.size]
  rcases memory.loaded with ⟨hbytes,-⟩ | ⟨-,hone⟩
  · rw [hbytes,defaultNumBytesPerPage_toNat]
    omega
  · rw [UInt32.le_iff_toNat_le,one_toNat] at hone
    calc memory.numBytesPerPage.toNat * memory.initPageCount.toNat
        ≤ memory.numBytesPerPage.toNat * 1 := Nat.mul_le_mul_left _ (by omega)
      _ ≤ 2 ^ 32 := by omega

private theorem placed_unchanged {heapOffset h : UInt32} (hnone : h.toNat = 0) :
    Placed module memory h.toNat
      ⟨memory.numBytesPerPage, memory.initPageCount, memory.maxPageCount, heapOffset, h, none⟩ := by
  obtain ⟨hinit,hmax⟩ := memory.limits
  constructor
  · exact id
  · exact fun hlt => absurd hnone hlt.ne'
  · exact fun hlt => absurd hnone hlt.ne'
  · exact fun hlt => absurd hnone hlt.ne'
  · exact fun hlt => absurd hnone hlt.ne'
  · exact fun hlt => absurd hnone hlt.ne'
  · exact le_rfl
  · exact ⟨UInt32.le_iff_toNat_le.mpr hinit,UInt32.le_iff_toNat_le.mpr hmax⟩
  · intro hne
    rcases memory.loaded with ⟨hbytes,-⟩ | ⟨heq,-⟩
    · exact hbytes
    · exact absurd heq hne
  · exact memory.size_le

theorem numBytesPerPage_eq (hone : ¬ (memory.initPageCount = memory.maxPageCount ∧ memory.initPageCount = 1))
    (hnone : ¬ (memory.initPageCount = memory.maxPageCount ∧ memory.initPageCount = 0)) :
    memory.numBytesPerPage = defaultNumBytesPerPage := by
  rcases memory.loaded with ⟨hbytes,-⟩ | ⟨heq,hmax⟩
  · exact hbytes
  · rw [← heq,UInt32.le_iff_toNat_le,one_toNat] at hmax
    rcases Nat.le_one_iff_eq_zero_or_eq_one.mp hmax with h0 | h1
    · exact absurd ⟨heq,UInt32.toNat_inj.mp h0⟩ hnone
    · exact absurd ⟨heq,UInt32.toNat_inj.mp h1⟩ hone

private theorem insertHeap_spec (module : Module)
    (hone : ¬ (memory.initPageCount = memory.maxPageCount ∧ memory.initPageCount = 1))
    (hnone : ¬ (memory.initPageCount = memory.maxPageCount ∧ memory.initPageCount = 0))
    (hh : heapSize.toNat ≤ 2 ^ 29) (hpos : 0 < heapSize.toNat) :
    Grows module memory heapSize.toNat (insertHeap module memory heapSize)
      (addedPages module memory heapSize.toNat) := by
  have hn := numBytesPerPage_eq hone hnone
  have hbytes : memory.size = 65536 * memory.initPageCount.toNat := by
    rw [WASMMemory.size,hn,defaultNumBytesPerPage_toNat]
  have hproduct : (memory.numBytesPerPage * memory.initPageCount).toNat = memory.size % 2 ^ 32 :=
    UInt32.toNat_mul _ _
  unfold insertHeap
  rw [if_neg hnone]
  simp only [UInt32.lt_iff_toNat_lt,hproduct]
  rw [hn]
  split
  next hbase =>
    have hplace : heapPlace module memory = .beforeHeapBase := by
      unfold heapPlace
      rw [if_neg hone,if_neg hnone,if_pos hbase]
    exact insertHeap_beforeHeapBase hplace hbase.2 hbytes hh hpos
  next hbase =>
    have hplace : heapPlace module memory = .newPages := by
      unfold heapPlace
      rw [if_neg hone,if_neg hnone,if_neg hbase]
    exact insertHeap_newPages hplace hbytes hh hpos

theorem tooLarge_iff {h : ℕ} (hplace : heapPlace module memory ≠ .behindPage) :
    TooLarge module memory h ↔
      0 < h ∧ 65536 < memory.initPageCount.toNat + addedPages module memory h := by
  unfold TooLarge
  cases hcase : heapPlace module memory with
  | behindPage => exact absurd hcase hplace
  | onlyPage => rfl
  | beforeHeapBase => rfl
  | newPages => rfl

/-- Either the heap has its place, or the module is refused as the memory would pass 4 GB. -/
theorem placeHeap_spec (module : Module) (memory : WASMMemory) (hh : heapSize.toNat ≤ 2 ^ 29) :
    (placeHeap module memory heapSize = .error insertFailed ∧
        TooLarge module memory (module.heapSize heapSize).toNat) ∨
      ∃ p, placeHeap module memory heapSize = .ok p ∧
        Placed module memory (module.heapSize heapSize).toNat p ∧
        ¬ TooLarge module memory (module.heapSize heapSize).toNat := by
  have hle := (module.heapSize_le heapSize).trans hh
  unfold placeHeap
  simp only
  generalize module.heapSize heapSize = h at *
  split
  next hone =>
    have hplace : heapPlace module memory = .behindPage := if_pos hone
    have hn := memory.numBytesPerPage.toNat_lt
    have hwrap : memory.numBytesPerPage + h < h ↔ TooLarge module memory h.toNat := by
      simp only [TooLarge,hplace]
      rw [UInt32.lt_iff_toNat_lt,UInt32.toNat_add]
      omega
    split
    next hlt => exact .inl ⟨rfl,hwrap.mp hlt⟩
    next hge =>
      have hfits := mt hwrap.mpr hge
      refine .inr ⟨_,rfl,placed_behindPage hplace hone ?_,hfits⟩
      simp only [TooLarge,hplace,not_le] at hfits
      exact hfits
  next hone =>
    have hplace : heapPlace module memory ≠ .behindPage := by
      unfold heapPlace
      rw [if_neg hone]
      split
      next => simp
      next => split <;> simp
    rw [tooLarge_iff hplace]
    split
    next hpos =>
      rw [gt_iff_lt,UInt32.lt_iff_toNat_lt] at hpos
      by_cases hnone : memory.initPageCount = memory.maxPageCount ∧ memory.initPageCount = 0
      · have honly : heapPlace module memory = .onlyPage := by
          unfold heapPlace
          rw [if_neg hone,if_pos hnone]
        have hresult : insertPages memory (insertHeap module memory h) = .ok ⟨h, 1, 1, 0, h, none⟩ := by
          unfold insertPages insertHeap
          rw [← hnone.1,hnone.2]
          rfl
        refine .inr ⟨_,hresult,placed_onlyPage honly hnone.2,?_⟩
        rw [hnone.2]
        simp [addedPages,honly]
      · rcases insertPages_spec (insertHeap_spec module hone hnone hle hpos)
          (numBytesPerPage_eq hone hnone) hpos with ⟨herr,hlarge⟩ | ⟨p,hp,hplaced,hfew⟩
        · exact .inl ⟨herr,hpos,hlarge⟩
        · exact .inr ⟨p,hp,hplaced,fun hlarge => absurd hlarge.2 (not_lt.mpr hfew)⟩
    next hpos =>
      rw [gt_iff_lt,UInt32.lt_iff_toNat_lt] at hpos
      exact .inr ⟨_,rfl,placed_unchanged (Nat.eq_zero_of_not_pos hpos),fun hlarge => hpos hlarge.1⟩

end Growth

end WamrTest.Linear
