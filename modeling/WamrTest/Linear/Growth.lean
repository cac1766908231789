import WamrTest.Linear.Instantiate

/-!
# Growing a memory

`wasm_enlarge_memory` after `memory_instantiate`. What lies in the memory stays where it is, except
that a memory instantiated with the full 4 GB has a size of 0 and is of no use to the host.
-/

namespace WamrTest.Linear

open Transition

section Enlarge

variable {m m' : MemoryInstance} {mprotect : Bool} {inc : UInt32}

/-- The memory after it was grown, by what the module asked for or up to 4 GB less a byte. -/
structure Enlarged (m m' : MemoryInstance) (inc : UInt32) : Prop where
  memoryData : m'.memoryData = m.memoryData
  heapData : m'.heapData = m.heapData
  heapDataEnd : m'.heapDataEnd = m.heapDataEnd
  heapHandle : m'.heapHandle = m.heapHandle
  size : m'.size = min (m.numBytesPerPage.toNat * (m.curPageCount.toNat + inc.toNat)) uint32Max.toNat
  dataSize : m'.memoryDataSize.toNat = m'.size
  dataEnd : m'.memoryDataEnd = m'.memoryData + m'.memoryDataSize.toNat
  pages : m'.curPageCount ≤ m'.maxPageCount ∧ m'.maxPageCount ≤ m.maxPageCount

private theorem wasmEnlargeMemory_spec (m : MemoryInstance) (mprotect : Bool) (inc : UInt32) :
    inc = 0 ∧ wasmEnlargeMemory mprotect m inc = (m, true) ∨
      0 < inc.toNat ∧ ¬ (m.curPageCount.toNat + inc.toNat ≤ m.maxPageCount.toNat ∧ mprotect) ∧
        wasmEnlargeMemory mprotect m inc = (m, false) ∨
      0 < inc.toNat ∧ m.curPageCount.toNat + inc.toNat ≤ m.maxPageCount.toNat ∧ mprotect ∧
        ∃ m', wasmEnlargeMemory mprotect m inc = (m', true) ∧ Enlarged m m' inc := by
  have hsum : (inc + m.curPageCount).toNat = (inc.toNat + m.curPageCount.toNat) % 2 ^ 32 := UInt32.toNat_add _ _
  have hinc := inc.toNat_lt
  have hcur := m.curPageCount.toNat_lt
  have hmax := m.maxPageCount.toNat_lt
  have hfull := uint32Max_toNat
  unfold wasmEnlargeMemory
  simp only
  split
  next hz =>
    rw [UInt32.le_iff_toNat_le] at hz
    exact .inl ⟨UInt32.toNat_inj.mp (Nat.le_zero.mp hz),rfl⟩
  next hpos =>
    rw [UInt32.le_iff_toNat_le] at hpos
    replace hpos : 0 < inc.toNat := not_le.mp hpos
    right
    split
    next hbad =>
      rw [gt_iff_lt,UInt32.lt_iff_toNat_lt,UInt32.lt_iff_toNat_lt,hsum] at hbad
      exact .inl ⟨hpos,fun hfits => by omega,rfl⟩
    next hgood =>
      rw [gt_iff_lt,UInt32.lt_iff_toNat_lt,UInt32.lt_iff_toNat_lt,hsum] at hgood
      -- no overflow, as the sum is not below the pages there are
      have hle : m.curPageCount.toNat + inc.toNat ≤ m.maxPageCount.toNat := by omega
      have htotal : (inc + m.curPageCount).toNat = m.curPageCount.toNat + inc.toNat := by
        rw [hsum]
        omega
      split
      next hprotect => exact .inl ⟨hpos,fun hfits => hprotect hfits.2,rfl⟩
      next hprotect =>
        right
        refine ⟨hpos,hle,not_not.mp hprotect,?_⟩
        rw [htotal]
        split
        next hbig =>
          refine ⟨_,rfl,?_⟩
          constructor
          · rfl
          · rfl
          · rfl
          · rfl
          · rw [min_eq_right hbig.le,MemoryInstance.size,one_toNat,Nat.mul_one]
          · rw [MemoryInstance.size,one_toNat,Nat.mul_one]
          · rfl
          · refine ⟨UInt32.le_refl _,UInt32.le_iff_toNat_le.mpr ?_⟩
            rw [one_toNat]
            omega
        next hsmall =>
          have hfits := not_lt.mp hsmall
          have hsize : m.numBytesPerPage.toNat * (m.curPageCount.toNat + inc.toNat) < 2 ^ 32 := by omega
          refine ⟨_,rfl,?_⟩
          constructor
          · rfl
          · rfl
          · rfl
          · rfl
          · rw [min_eq_left hfits,MemoryInstance.size,htotal]
          · rw [UInt32.toNat_ofNat',Nat.mod_eq_of_lt hsize,MemoryInstance.size,htotal]
          · simp only [UInt32.toNat_ofNat',Nat.mod_eq_of_lt hsize]
          · refine ⟨UInt32.le_iff_toNat_le.mpr ?_,UInt32.le_refl _⟩
            rw [htotal]
            exact hle

/-- A later instance, where what was in the memory is still where it was. -/
structure Kept (m m' : MemoryInstance) : Prop where
  memoryData : m'.memoryData = m.memoryData
  heapData : m'.heapData = m.heapData
  heapDataEnd : m'.heapDataEnd = m.heapDataEnd
  dataSize : m.memoryDataSize.toNat ≤ m'.memoryDataSize.toNat

theorem Kept.refl (m : MemoryInstance) : Kept m m := ⟨rfl,rfl,rfl,le_rfl⟩

theorem Kept.trans {m'' : MemoryInstance} (h : Kept m m') (h' : Kept m' m'') : Kept m m'' :=
  ⟨h'.memoryData.trans h.memoryData,h'.heapData.trans h.heapData,h'.heapDataEnd.trans h.heapDataEnd,
    h.dataSize.trans h'.dataSize⟩

/-- The size is exact as long as the memory can grow. -/
structure Sized (m : MemoryInstance) : Prop where
  pages : m.curPageCount ≤ m.maxPageCount
  dataEnd : m.memoryDataEnd = m.memoryData + m.memoryDataSize.toNat
  exact : m.curPageCount ≠ m.maxPageCount → m.memoryDataSize.toNat = m.size

theorem Enlarged.kept (he : Enlarged m m' inc) (hs : Sized m)
    (hroom : m.curPageCount.toNat + inc.toNat ≤ m.maxPageCount.toNat) (hpos : 0 < inc.toNat) :
    Kept m m' ∧ Sized m' := by
  have hne : m.curPageCount ≠ m.maxPageCount := by
    intro heq
    rw [heq] at hroom
    omega
  have hexact := hs.exact hne
  have hlt := m.memoryDataSize.toNat_lt
  have hmono : m.size ≤ m.numBytesPerPage.toNat * (m.curPageCount.toNat + inc.toNat) :=
    Nat.mul_le_mul_left _ (Nat.le_add_right _ _)
  refine ⟨⟨he.memoryData,he.heapData,he.heapDataEnd,?_⟩,he.pages.1,he.dataEnd,fun _ => he.dataSize⟩
  rw [he.dataSize,he.size,uint32Max_toNat]
  omega

def grow (m : MemoryInstance) (call : Bool × UInt32) : MemoryInstance := (wasmEnlargeMemory call.1 m call.2).1

theorem grow_kept (hs : Sized m) (call : Bool × UInt32) : Kept m (grow m call) ∧ Sized (grow m call) := by
  obtain ⟨mprotect,inc⟩ := call
  rcases wasmEnlargeMemory_spec m mprotect inc with ⟨-,hsame⟩ | ⟨-,-,hsame⟩ | ⟨hpos,hroom,-,m',hgrown,he⟩
  · rw [grow,hsame]
    exact ⟨.refl m,hs⟩
  · rw [grow,hsame]
    exact ⟨.refl m,hs⟩
  · rw [grow,hgrown]
    exact he.kept hs hroom hpos

theorem grow_heapHandle (m : MemoryInstance) (call : Bool × UInt32) : (grow m call).heapHandle = m.heapHandle := by
  obtain ⟨mprotect,inc⟩ := call
  rcases wasmEnlargeMemory_spec m mprotect inc with ⟨-,hsame⟩ | ⟨-,-,hsame⟩ | ⟨-,-,-,m',hgrown,he⟩
  · rw [grow,hsame]
  · rw [grow,hsame]
  · rw [grow,hgrown]
    exact he.heapHandle

private theorem run_grow_kept (hs : Sized m) (calls : List (Bool × UInt32)) :
    Kept m (run grow m calls) ∧ Sized (run grow m calls) := by
  apply run_invariant (P := fun m' => Kept m m' ∧ Sized m')
  · intro m' call hm'
    obtain ⟨hkept,hsized⟩ := grow_kept hm'.2 call
    exact ⟨hm'.1.trans hkept,hsized⟩
  · exact ⟨.refl m,hs⟩

private theorem run_grow_eq (hmax : m.curPageCount = m.maxPageCount) (calls : List (Bool × UInt32)) :
    run grow m calls = m := by
  apply run_invariant (P := fun m' => m' = m)
  · intro m' call hm'
    obtain ⟨mprotect,inc⟩ := call
    rw [hm']
    rcases wasmEnlargeMemory_spec m mprotect inc with ⟨-,hsame⟩ | ⟨-,-,hsame⟩ | ⟨hpos,hroom,-⟩
    · rw [grow,hsame]
    · rw [grow,hsame]
    · rw [hmax] at hroom
      omega
  · rfl

end Enlarge

section Addresses

variable {m : MemoryInstance}

theorem validateAppAddr_iff (m : MemoryInstance) (appOffset size : UInt32) :
    validateAppAddr m appOffset size ↔ appOffset.toNat + size.toNat ≤ m.memoryDataSize.toNat := by
  have hfull := uint32Max_toNat
  have hsize := size.toNat_lt
  have hlt := m.memoryDataSize.toNat_lt
  have hsub : (uint32Max - size).toNat = uint32Max.toNat - size.toNat :=
    UInt32.toNat_sub_of_le _ _ (UInt32.le_iff_toNat_le.mpr (by omega))
  unfold validateAppAddr
  split
  next hgt =>
    rw [gt_iff_lt,UInt32.lt_iff_toNat_lt,hsub] at hgt
    simp only [Bool.false_eq_true,false_iff,not_le]
    omega
  next hle =>
    rw [gt_iff_lt,UInt32.lt_iff_toNat_lt,hsub] at hle
    have hsum : (appOffset + size).toNat = appOffset.toNat + size.toNat := by
      rw [UInt32.toNat_add]
      omega
    rw [decide_eq_true_iff,UInt32.le_iff_toNat_le,hsum]

theorem addr_roundTrip (hs : Sized m) (appOffset : UInt32) (h : appOffset.toNat < m.memoryDataSize.toNat) :
    addrAppToNative m appOffset = m.memoryData + appOffset.toNat ∧
      addrNativeToApp m (m.memoryData + appOffset.toNat) = appOffset := by
  have hend := hs.dataEnd
  have hsub : m.memoryData + appOffset.toNat - m.memoryData = appOffset.toNat := by omega
  refine ⟨if_pos (by omega),?_⟩
  rw [addrNativeToApp,if_pos (by omega),hsub,Int.toNat_natCast,UInt32.ofNat_toNat]

end Addresses

section Results

variable {os : Os} {module : Module} {memory : WASMMemory} {heapSize : UInt32} {m : MemoryInstance}
  {heapBase : Option UInt32}

theorem Instantiated.size_eq {h : ℕ} (hi : Instantiated os module memory h m heapBase)
    (hne : m.curPageCount ≠ m.maxPageCount) : m.size + 65536 ≤ 2 ^ 32 ∧ m.memoryDataSize.toNat = m.size := by
  obtain ⟨hpages,hmax⟩ := hi.pages
  have hcur : m.curPageCount.toNat ≠ m.maxPageCount.toNat := mt UInt32.toNat_inj.mp hne
  rw [UInt32.le_iff_toNat_le] at hpages hmax
  rw [defaultMaxPages_toNat] at hmax
  have hsize : m.size = 65536 * m.curPageCount.toNat := by
    rw [MemoryInstance.size,hi.growable hne,defaultNumBytesPerPage_toNat]
  have hdvd : os.pageSize ∣ m.size := by
    rw [hsize]
    exact os.pageSize_max.mul_right _
  refine ⟨by omega,?_⟩
  rw [hi.dataSize,os.roundUp_of_dvd hdvd]
  omega

theorem Instantiated.sized {h : ℕ} (hi : Instantiated os module memory h m heapBase) : Sized m :=
  ⟨hi.pages.1,hi.dataEnd,fun hne => (hi.size_eq hne).2⟩

/-- The host reaches every byte of a memory, now and after the memory was grown, unless rounding its
size up to whole pages gives the 4 GB that 32 bits cannot hold. -/
theorem instantiated_reached (h : memoryInstantiate os module memory (checkHeapSize heapSize) = .ok (m, heapBase))
    (calls : List (Bool × UInt32)) :
    let m' := run grow m calls
    if 2 ^ 32 < m.size + os.pageSize then
      ∀ appOffset size addr, (validateAppAddr m' appOffset size ↔ appOffset.toNat + size.toNat = 0) ∧
        addrAppToNative m' appOffset = 0 ∧ addrNativeToApp m' addr = 0
    else ∀ appOffset : UInt32, appOffset.toNat < m.size →
      addrAppToNative m' appOffset = m.memoryData + appOffset.toNat ∧
        addrNativeToApp m' (m.memoryData + appOffset.toNat) = appOffset ∧
        ∀ size : UInt32, appOffset.toNat + size.toNat ≤ m.size → validateAppAddr m' appOffset size := by
  have hi := instantiated h
  have hs := hi.sized
  simp only
  split
  next hfull =>
    have hsize : m.memoryDataSize.toNat = 0 := by
      rw [hi.dataSize,(os.roundUp_eq_iff hi.bound).mpr hfull,Nat.mod_self]
    have hmax : m.curPageCount = m.maxPageCount := by
      by_contra hne
      have hle := (hi.size_eq hne).1
      have hpage := os.pageSize_le
      omega
    have hend := hs.dataEnd
    rw [run_grow_eq hmax]
    intro appOffset size addr
    refine ⟨?_,if_neg (by omega),if_neg (by omega)⟩
    rw [validateAppAddr_iff,hsize,Nat.le_zero]
  next hfits =>
    obtain ⟨hkept,hsized⟩ := run_grow_kept hs calls
    have hround : os.roundUp m.size < 2 ^ 32 := by
      have hle := os.roundUp_le hi.bound
      have hne := mt (os.roundUp_eq_iff hi.bound).mp hfits
      omega
    have hle := os.le_roundUp m.size
    have hsize := hi.dataSize
    rw [Nat.mod_eq_of_lt hround] at hsize
    have hmono := hkept.dataSize
    intro appOffset hlt
    obtain ⟨hnative,happ⟩ := addr_roundTrip hsized appOffset (by omega)
    rw [hkept.memoryData] at hnative happ
    refine ⟨hnative,happ,?_⟩
    intro size hin
    rw [validateAppAddr_iff]
    omega

end Results

/-- A memory that has all 65536 pages from the start. -/
def fullMemory : WASMMemory := ⟨defaultNumBytesPerPage, 65536, 65536, .inl ⟨rfl, by decide, by decide⟩⟩

def fullInstance : MemoryInstance := Placement.instantiate ⟨65536, 65536, 65536, 0, 0, none⟩ 65536 0 none

theorem instantiated_reached_full :
    let m' := run grow fullInstance [(true, 1)]
    if 2 ^ 32 < fullInstance.size + sampleOs.pageSize then
      ∀ appOffset size addr, (validateAppAddr m' appOffset size ↔ appOffset.toNat + size.toNat = 0) ∧
        addrAppToNative m' appOffset = 0 ∧ addrNativeToApp m' addr = 0
    else ∀ appOffset : UInt32, appOffset.toNat < fullInstance.size →
      addrAppToNative m' appOffset = fullInstance.memoryData + appOffset.toNat ∧
        addrNativeToApp m' (fullInstance.memoryData + appOffset.toNat) = appOffset ∧
        ∀ size : UInt32, appOffset.toNat + size.toNat ≤ fullInstance.size → validateAppAddr m' appOffset size := by
  have h : memoryInstantiate sampleOs appModule fullMemory (checkHeapSize 0) = .ok (fullInstance, none) := rfl
  exact instantiated_reached h [(true, 1)]

end WamrTest.Linear
