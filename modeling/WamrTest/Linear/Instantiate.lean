import WamrTest.Linear.Placement

/-!
# Instantiated memories

When `memory_instantiate` succeeds, and the instance it then leaves.
-/

namespace WamrTest.Linear

open Ems

def MemoryInstance.size (m : MemoryInstance) : ℕ := m.numBytesPerPage.toNat * m.curPageCount.toNat

theorem checkHeapSize_le (heapSize : UInt32) : (checkHeapSize heapSize).toNat ≤ 2 ^ 29 := by
  have hmax : appHeapSizeMax.toNat = 2 ^ 29 := rfl
  unfold checkHeapSize
  simp only
  split
  next => exact hmax.le
  next hle =>
    rw [gt_iff_lt,UInt32.lt_iff_toNat_lt,hmax] at hle
    exact not_lt.mp hle

/-- The bytes that the module gets for its app heap, as `wasm_instantiate` is asked for `heapSize`. -/
def Module.appHeapSize (module : Module) (heapSize : UInt32) : ℕ :=
  (module.heapSize (checkHeapSize heapSize)).toNat

section RoundUp

variable (os : Os) (size : ℕ)

theorem Os.le_roundUp : size ≤ os.roundUp size := by
  have hpos := os.pageSize_pos
  have hmod := Nat.div_add_mod' (size + os.pageSize - 1) os.pageSize
  have hlt := Nat.mod_lt (size + os.pageSize - 1) hpos
  unfold Os.roundUp
  omega

private theorem Os.roundUp_lt : os.roundUp size < size + os.pageSize := by
  have hpos := os.pageSize_pos
  have hle := Nat.div_mul_le_self (size + os.pageSize - 1) os.pageSize
  unfold Os.roundUp
  omega

private theorem Os.dvd_roundUp : os.pageSize ∣ os.roundUp size := Nat.dvd_mul_left _ _

theorem Os.roundUp_of_dvd {size : ℕ} (h : os.pageSize ∣ size) : os.roundUp size = size := by
  have hpos := os.pageSize_pos
  obtain ⟨k,rfl⟩ := h
  unfold Os.roundUp
  rw [Nat.add_sub_assoc hpos,Nat.mul_add_div hpos,Nat.div_eq_of_lt (by omega),Nat.add_zero,Nat.mul_comm]

theorem Os.pageSize_le : os.pageSize ≤ 65536 := Nat.le_of_dvd (by decide) os.pageSize_max

private theorem Os.dvd_four_gigabytes : os.pageSize ∣ 2 ^ 32 := os.pageSize_max.trans ⟨65536,rfl⟩

theorem Os.roundUp_le {size : ℕ} (h : size ≤ 2 ^ 32) : os.roundUp size ≤ 2 ^ 32 := by
  by_contra hlt
  have hsub : os.pageSize ∣ os.roundUp size - 2 ^ 32 := Nat.dvd_sub (os.dvd_roundUp size) os.dvd_four_gigabytes
  have hle := Nat.le_of_dvd (by omega) hsub
  have hbound := os.roundUp_lt size
  omega

/-- The rounded size is 4 GB for the sizes that are less than a page below it. -/
theorem Os.roundUp_eq_iff {size : ℕ} (h : size ≤ 2 ^ 32) : os.roundUp size = 2 ^ 32 ↔ 2 ^ 32 < size + os.pageSize := by
  constructor
  · intro heq
    rw [← heq]
    exact os.roundUp_lt size
  · intro hlt
    apply le_antisymm (os.roundUp_le h)
    by_contra hne
    have hsub : os.pageSize ∣ 2 ^ 32 - os.roundUp size := Nat.dvd_sub os.dvd_four_gigabytes (os.dvd_roundUp size)
    have hle := Nat.le_of_dvd (by omega) hsub
    have hbound := os.le_roundUp size
    omega

end RoundUp

section Results

variable {os : Os} {module : Module} {memory : WASMMemory} {heapSize : UInt32} {m : MemoryInstance}
  {heapBase : Option UInt32}

/-- What `gc_init_with_struct_and_pool` asks of a pool. -/
theorem gcInit_isSome_iff (mem : ByteMemory.Mem UInt8) {structBuf : ℤ} (hstruct : 8 ∣ structBuf)
    (poolBuf poolBufSize : ℤ) :
    (gcInitWithStructAndPool mem structBuf poolBuf poolBufSize).isSome ↔ poolBuf % 8 = 0 ∧ 256 ≤ poolBufSize := by
  unfold gcInitWithStructAndPool
  simp only
  rw [if_neg (not_not.mpr (Int.emod_eq_zero_of_dvd hstruct))]
  split
  next hne => simp [hne]
  next heq =>
    split
    next hlt =>
      simp only [Option.isSome_none,Bool.false_eq_true,false_iff,not_and,not_le]
      exact fun _ => hlt
    next hge =>
      simp only [Option.isSome_some,true_iff]
      exact ⟨not_not.mp heq,not_lt.mp hge⟩

theorem memoryInstantiate_ok (h : memoryInstantiate os module memory (checkHeapSize heapSize) = .ok (m, heapBase)) :
    ∃ p memoryData structBuf heap, os.mmap = some memoryData ∧ Placed module memory (module.appHeapSize heapSize) p ∧
      m = p.instantiate memoryData (UInt32.ofNat (os.roundUp p.size)) heap ∧ heapBase = p.auxHeapBase ∧
      (0 < p.heapSize.toNat ∧ heap = gcInitWithStructAndPool os.mem structBuf m.heapData p.heapSize.toNat ∧ heap.isSome ∨
        p.heapSize.toNat = 0 ∧ heap = none) := by
  unfold memoryInstantiate at h
  rcases placeHeap_spec module memory (checkHeapSize_le heapSize) with
    ⟨herr,-⟩ | ⟨p,hp,hplaced,-⟩
  · rw [herr] at h
    exact absurd h (by simp)
  rw [hp] at h
  simp only at h
  cases hmap : os.mmap with
  | none =>
    rw [hmap] at h
    exact absurd h (by simp)
  | some memoryData =>
    rw [hmap] at h
    simp only at h
    split at h
    next => exact absurd h (by simp)
    next =>
      split at h
      next hpos =>
        rw [gt_iff_lt,UInt32.lt_iff_toNat_lt] at hpos
        cases hstruct : os.heapStruct with
        | none =>
          rw [hstruct] at h
          exact absurd h (by simp)
        | some structBuf =>
          rw [hstruct] at h
          simp only at h
          cases hinit : gcInitWithStructAndPool os.mem structBuf (memoryData + p.heapOffset.toNat)
            p.heapSize.toNat with
          | none =>
            rw [hinit] at h
            exact absurd h (by simp)
          | some heap =>
            rw [hinit] at h
            obtain ⟨rfl,rfl⟩ := Prod.mk.inj (Except.ok.inj h)
            exact ⟨p,memoryData,structBuf,some heap,rfl,hplaced,rfl,rfl,.inl ⟨hpos,hinit.symm,rfl⟩⟩
      next hpos =>
        rw [gt_iff_lt,UInt32.lt_iff_toNat_lt] at hpos
        obtain ⟨rfl,rfl⟩ := Prod.mk.inj (Except.ok.inj h)
        exact ⟨p,memoryData,0,none,rfl,hplaced,rfl,rfl,.inr ⟨Nat.eq_zero_of_not_pos hpos,rfl⟩⟩

theorem heapGiven_pos (module : Module) (memory : WASMMemory) {h : ℕ} (hpos : 0 < h) :
    0 < heapGiven module memory h := by
  have hpages : 0 < 65536 * pagesOf h - 1024 := by
    unfold pagesOf
    omega
  unfold heapGiven
  split
  · exact hpages
  · exact hpos

/-- The app heap of an instance lies in its memory, apart from what the module uses. -/
structure AppHeap (module : Module) (memory : WASMMemory) (heapSize : ℕ) (m : MemoryInstance)
    (heapBase : Option UInt32) : Prop where
  start : m.heapData = m.memoryData + heapStart module memory
  size : m.heapDataEnd = m.heapData + heapGiven module memory heapSize
  total : m.size = grownSize module memory heapSize
  inside : m.heapDataEnd ≤ m.memoryData + m.size
  above : heapBase = none → m.memoryData + memory.size ≤ m.heapData
  before : ∀ b, heapBase = some b → m.heapData = m.memoryData + module.auxHeapBase.toNat ∧
    m.heapDataEnd ≤ m.memoryData + b.toNat ∧ b.toNat + 1023 ≤ m.size

structure Instantiated (os : Os) (module : Module) (memory : WASMMemory) (heapSize : ℕ) (m : MemoryInstance)
    (heapBase : Option UInt32) : Prop where
  heap : 0 < heapSize → AppHeap module memory heapSize m heapBase
  handle : m.heapHandle.isSome ↔ 0 < heapSize
  kept : memory.size ≤ m.size
  bound : m.size ≤ 2 ^ 32
  pages : m.curPageCount ≤ m.maxPageCount ∧ m.maxPageCount ≤ defaultMaxPages
  growable : m.curPageCount ≠ m.maxPageCount → m.numBytesPerPage = defaultNumBytesPerPage
  dataSize : m.memoryDataSize.toNat = os.roundUp m.size % 2 ^ 32
  dataEnd : m.memoryDataEnd = m.memoryData + m.memoryDataSize.toNat

theorem instantiated (h : memoryInstantiate os module memory (checkHeapSize heapSize) = .ok (m, heapBase)) :
    Instantiated os module memory (module.appHeapSize heapSize) m heapBase := by
  obtain ⟨p,memoryData,_,heap,-,hplaced,rfl,rfl,hheap⟩ := memoryInstantiate_ok h
  have hhandle : heap.isSome ↔ 0 < module.appHeapSize heapSize := by
    constructor
    · intro hsome
      by_contra hzero
      rcases hheap with ⟨hpos,-⟩ | ⟨-,rfl⟩
      · exact absurd (hplaced.none (Nat.eq_zero_of_not_pos hzero)) hpos.ne'
      · exact absurd hsome (by simp)
    · intro hpos
      rcases hheap with ⟨-,-,hsome⟩ | ⟨hzero,-⟩
      · exact hsome
      · exact absurd ((hplaced.given hpos).symm.trans hzero) (heapGiven_pos module memory hpos).ne'
  constructor
  · intro hpos
    have hoffset := hplaced.offset hpos
    have hgiven := hplaced.given hpos
    have hsize := heapGiven_pos module memory hpos
    have hinside := hplaced.inside hpos
    have hapart := hplaced.apart hpos
    constructor
    · simp only [Placement.instantiate,hoffset]
    · simp only [Placement.instantiate,hgiven]
    · exact hplaced.grown hpos
    · change memoryData + p.heapOffset.toNat + p.heapSize.toNat ≤ memoryData + p.size
      omega
    · intro hnone
      have habove := hapart.above hnone
      change memoryData + memory.size ≤ memoryData + p.heapOffset.toNat
      omega
    · intro b hb
      obtain ⟨hbase,hend,hroom⟩ := hapart.before b hb
      refine ⟨by simp only [Placement.instantiate,hbase],?_,hroom⟩
      change memoryData + p.heapOffset.toNat + p.heapSize.toNat ≤ memoryData + b.toNat
      omega
  · exact hhandle
  · exact hplaced.kept
  · exact hplaced.bound
  · exact hplaced.pages
  · exact hplaced.growable
  · exact UInt32.toNat_ofNat'
  · rfl

/-- The operating system grants what `memory_instantiate` asks for. -/
structure Os.Grants (os : Os) : Prop where
  mmap : os.mmap.isSome
  mprotect : os.mprotect
  heapStruct : os.heapStruct.isSome

/-- What the allocator asks of the heap's place. -/
def Usable (module : Module) (memory : WASMMemory) (heapSize : ℕ) : Prop :=
  8 ∣ heapStart module memory ∧ 256 ≤ heapGiven module memory heapSize

theorem memoryInstantiate_cases (hg : os.Grants) (module : Module) (memory : WASMMemory) (heapSize : UInt32) :
    let result := memoryInstantiate os module memory (checkHeapSize heapSize)
    let size := module.appHeapSize heapSize
    TooLarge module memory size ∧ result = .error insertFailed ∨
      ¬ TooLarge module memory size ∧ 0 < size ∧ ¬ Usable module memory size ∧
        result = .error "init app heap failed" ∨
      ¬ TooLarge module memory size ∧ (0 < size → Usable module memory size) ∧
        ∃ m heapBase, result = .ok (m, heapBase) := by
  obtain ⟨hmap,hprotect,hstruct⟩ := hg
  obtain ⟨memoryData,hmapped⟩ := Option.isSome_iff_exists.mp hmap
  obtain ⟨structBuf,hstructBuf⟩ := Option.isSome_iff_exists.mp hstruct
  have halign := ((Int.natCast_dvd_natCast.mpr os.pageSize_min).trans (os.mapped _ hmapped).2)
  simp only
  unfold memoryInstantiate
  rcases placeHeap_spec module memory (checkHeapSize_le heapSize) with
    ⟨herr,hlarge⟩ | ⟨p,hp,hplaced,hfits⟩
  · left
    rw [herr]
    exact ⟨hlarge,rfl⟩
  right
  rw [← Module.appHeapSize] at hplaced hfits
  have hinit (hpos : 0 < module.appHeapSize heapSize) :
      (gcInitWithStructAndPool os.mem structBuf (memoryData + p.heapOffset.toNat) p.heapSize.toNat).isSome ↔
        Usable module memory (module.appHeapSize heapSize) := by
    rw [gcInit_isSome_iff os.mem (os.heapStruct_aligned _ hstructBuf),hplaced.offset hpos,hplaced.given hpos,Usable]
    omega
  rw [hp]
  simp only [hmapped,hprotect,hstructBuf,not_true_eq_false,if_false]
  split
  next hpos =>
    rw [gt_iff_lt,UInt32.lt_iff_toNat_lt] at hpos
    have hsome : 0 < module.appHeapSize heapSize := by
      by_contra hzero
      exact absurd (hplaced.none (Nat.eq_zero_of_not_pos hzero)) hpos.ne'
    cases hcase : gcInitWithStructAndPool os.mem structBuf (memoryData + p.heapOffset.toNat) p.heapSize.toNat with
    | none =>
      rw [hcase] at hinit
      exact .inl ⟨hfits,hsome,mt (hinit hsome).mpr (by simp),rfl⟩
    | some heap =>
      rw [hcase] at hinit
      exact .inr ⟨hfits,fun _ => (hinit hsome).mp rfl,_,_,rfl⟩
  next hpos =>
    rw [gt_iff_lt,UInt32.lt_iff_toNat_lt] at hpos
    have hnone : ¬ 0 < module.appHeapSize heapSize := by
      intro hsome
      have hgiven := heapGiven_pos module memory hsome
      rw [← hplaced.given hsome] at hgiven
      exact hpos hgiven
    exact .inr ⟨hfits,fun hsome => absurd hsome hnone,_,_,rfl⟩

/-- When `memory_instantiate` succeeds, and what it then leaves. -/
theorem instantiate_outcome (hg : os.Grants) (module : Module) (memory : WASMMemory) (heapSize : UInt32) :
    let result := memoryInstantiate os module memory (checkHeapSize heapSize)
    let size := module.appHeapSize heapSize
    TooLarge module memory size ∧ result = .error insertFailed ∨
      ¬ TooLarge module memory size ∧ 0 < size ∧ ¬ Usable module memory size ∧
        result = .error "init app heap failed" ∨
      ¬ TooLarge module memory size ∧ (0 < size → Usable module memory size) ∧
        ∃ m heapBase, result = .ok (m, heapBase) ∧ Instantiated os module memory size m heapBase := by
  rcases memoryInstantiate_cases hg module memory heapSize with hlarge | hunusable | ⟨hfits,husable,m,heapBase,h⟩
  · exact .inl hlarge
  · exact .inr (.inl hunusable)
  · exact .inr (.inr ⟨hfits,husable,m,heapBase,h,instantiated h⟩)

end Results

/-- An operating system that maps memories at address 65536, with the heap's structure below. -/
def sampleOs : Os where
  pageSize := 4096
  mmap := some 65536
  mprotect := true
  heapStruct := some 4096
  mem := fun _ => 0
  pageSize_pos := by decide
  pageSize_min := by decide
  pageSize_max := by decide
  mapped := by
    intro a ha
    obtain rfl := Option.some.inj ha
    decide
  heapStruct_aligned := by
    intro a ha
    obtain rfl := Option.some.inj ha
    decide

/-- The program's module, which exports none of what `memory_instantiate` asks for. -/
def appModule : Module := ⟨uint32Max, uint32Max, uint32Max, 0⟩

/-- The memory of `--initial-memory=2147483648`. -/
def appMemory : WASMMemory := ⟨defaultNumBytesPerPage, 32768, defaultMaxPages, .inl ⟨rfl, by decide, by decide⟩⟩

theorem instantiate_outcome_app :
    let result := memoryInstantiate sampleOs appModule appMemory (checkHeapSize 8192)
    let size := appModule.appHeapSize 8192
    TooLarge appModule appMemory size ∧ result = .error insertFailed ∨
      ¬ TooLarge appModule appMemory size ∧ 0 < size ∧ ¬ Usable appModule appMemory size ∧
        result = .error "init app heap failed" ∨
      ¬ TooLarge appModule appMemory size ∧ (0 < size → Usable appModule appMemory size) ∧
        ∃ m heapBase, result = .ok (m, heapBase) ∧ Instantiated sampleOs appModule appMemory size m heapBase :=
  instantiate_outcome ⟨rfl,rfl,rfl⟩ appModule appMemory 8192

end WamrTest.Linear
