import WamrTest.Linear.Memory
import WamrTest.Loader.Sections

/-!
# The memory section

From the bytes of the section to the memory that an instance is made of.
-/

namespace WamrTest.Loader

open Leb128 Linear

/-- `load_memory`. -/
def loadLimits (buf : List UInt8) : Except String (WASMMemory × List UInt8) := do
  let (flags, p) ← readLebUint32 buf
  if buf.length - p.length > 1 then .error tooLong
  else if flags > 1 then .error tooLarge
  else do
    let (initPageCount, p) ← readLebUint32 p
    if initPageCount > defaultMaxPages then .error memorySizeError
    else if flags &&& 1 ≠ 0 then do
      let (maxPageCount, p) ← readLebUint32 p
      let memory ← loadMemory initPageCount (some maxPageCount)
      .ok (memory, p)
    else do
      let memory ← loadMemory initPageCount none
      .ok (memory, p)

def loadMemories : ℕ → List UInt8 → Except String (List WASMMemory × List UInt8)
  | 0, p => .ok ([], p)
  | n+1, p => do
    let (memory, p) ← loadLimits p
    let (memories, p) ← loadMemories n p
    .ok (memory::memories, p)

def sizeofWASMMemory : ℕ := 16

/-- `load_memory_section`; there is memory for the array if its size is not out of range. -/
def loadMemorySection (importMemoryCount : UInt32) (buf : List UInt8) : Except String (List WASMMemory) := do
  let (memoryCount, p) ← readLebUint32 buf
  if importMemoryCount + memoryCount > 1 then .error "multiple memories"
  else if sizeofWASMMemory * memoryCount.toNat ≥ uint32Max.toNat then .error "allocate memory failed"
  else do
    let (memories, p) ← loadMemories memoryCount.toNat p
    if p ≠ [] then .error "section size mismatch" else .ok memories

/-- Some bytes are the limits of a memory. -/
inductive Limits (memory : WASMMemory) : List UInt8 → Prop
  | unlimited {init : List UInt8} (hinit : LebKind.uint32.Encodes init)
      (h : loadMemory (UInt32.ofNat (unsigned init)) none = .ok memory) : Limits memory (0::init)
  | limited {init max : List UInt8} (hinit : LebKind.uint32.Encodes init) (hmax : LebKind.uint32.Encodes max)
      (h : loadMemory (UInt32.ofNat (unsigned init)) (some (UInt32.ofNat (unsigned max))) = .ok memory) :
      Limits memory (1::(init ++ max))

section Parsing

variable {memory : WASMMemory} {memories : List WASMMemory} {buf rest : List UInt8}

private theorem readLebUint32_append {bs : List UInt8} (h : LebKind.uint32.Encodes bs) (rest : List UInt8) :
    readLebUint32 (bs ++ rest) = .ok (UInt32.ofNat (unsigned bs), rest) := by
  have hlt : unsigned bs < 2 ^ 32 := h.fits
  refine readLebUint32_iff.mpr ⟨bs,rfl,h,?_⟩
  rw [UInt32.toNat_ofNat']
  omega

private theorem readLebUint32_ok {v : UInt32} (h : readLebUint32 buf = .ok (v, rest)) :
    ∃ bs, buf = bs ++ rest ∧ LebKind.uint32.Encodes bs ∧ v = UInt32.ofNat (unsigned bs) := by
  obtain ⟨bs,heq,hbs,hv⟩ := readLebUint32_iff.mp h
  exact ⟨bs,heq,hbs,by rw [← hv,UInt32.ofNat_toNat]⟩

private theorem encodes_flag {b : UInt8} (h : b.toNat < 128) :
    LebKind.uint32.Encodes [b] ∧ unsigned [b] = b.toNat := by
  have hvalue : unsigned [b] = b.toNat := by
    simp only [unsigned]
    omega
  refine ⟨⟨.last h,?_,?_⟩,hvalue⟩
  · rw [List.length_singleton]
    decide
  · change unsigned [b] < 2 ^ 32
    omega

/-- Too many pages are an error, whatever follows. -/
theorem loadMemory_init {initPageCount : UInt32} {declared : Option UInt32}
    (h : loadMemory initPageCount declared = .ok memory) : ¬ initPageCount > defaultMaxPages := by
  intro hgt
  unfold loadMemory at h
  rw [dif_pos hgt] at h
  exact absurd h (by simp)

private theorem readLebUint32_flag {b : UInt8} (h : b.toNat < 128) (rest : List UInt8) :
    readLebUint32 (b::rest) = .ok (UInt32.ofNat b.toNat, rest) := by
  obtain ⟨hbs,hvalue⟩ := encodes_flag h
  have hread := readLebUint32_append hbs rest
  rwa [hvalue,List.singleton_append] at hread

private theorem loadLimits_complete {bs : List UInt8} (h : Limits memory bs) (rest : List UInt8) :
    loadLimits (bs ++ rest) = .ok (memory, rest) := by
  cases h with
  | @unlimited init hinit h =>
    unfold loadLimits
    rw [List.cons_append,readLebUint32_flag (by decide)]
    simp only [bind,Except.bind,readLebUint32_append hinit rest,if_neg (loadMemory_init h),h]
    rw [if_neg (by rw [List.length_cons]; omega)]
    rfl
  | @limited init max hinit hmax h =>
    unfold loadLimits
    rw [List.cons_append,readLebUint32_flag (by decide),List.append_assoc]
    simp only [bind,Except.bind,readLebUint32_append hinit,readLebUint32_append hmax rest,
      if_neg (loadMemory_init h),h]
    rw [if_neg (by rw [List.length_cons]; omega)]
    rfl

private theorem loadLimits_sound (h : loadLimits buf = .ok (memory, rest)) :
    ∃ bs, buf = bs ++ rest ∧ Limits memory bs := by
  obtain ⟨⟨flags,p⟩,hflags,h⟩ := Fallible.bind_ok h
  simp only at h
  split at h
  next => exact absurd h (by simp)
  next hlong =>
    split at h
    next => exact absurd h (by simp)
    next hlarge =>
      obtain ⟨⟨init,p'⟩,hinit,h⟩ := Fallible.bind_ok h
      simp only at h
      split at h
      next => exact absurd h (by simp)
      next =>
        obtain ⟨leb,rfl,hleb,rfl⟩ := readLebUint32_ok hflags
        obtain ⟨bs,rfl,hbs,rfl⟩ := readLebUint32_ok hinit
        have hpos := hleb.leb.length_pos
        obtain ⟨b,rfl⟩ : ∃ b, leb = [b] := List.length_eq_one_iff.mp (by rw [List.length_append] at hlong; omega)
        have hb : b.toNat < 128 := (unsigned_top hleb.leb (rfl : [b].getLast? = some b)).1
        rw [(encodes_flag hb).2,gt_iff_lt,UInt32.lt_iff_toNat_lt,UInt32.toNat_ofNat'] at hlarge
        change ¬ 1 < b.toNat % 2 ^ 32 at hlarge
        have hflag : b = 0 ∨ b = 1 := by
          rw [← UInt8.toNat_inj,← UInt8.toNat_inj]
          change b.toNat = 0 ∨ b.toNat = 1
          omega
        rcases hflag with rfl | rfl
        · rw [if_neg (by decide)] at h
          obtain ⟨memory',hmemory,h⟩ := Fallible.bind_ok h
          obtain ⟨rfl,rfl⟩ := Prod.mk.inj (Except.ok.inj h)
          exact ⟨0::bs,rfl,.unlimited hbs hmemory⟩
        · rw [if_pos (by decide)] at h
          obtain ⟨⟨max,p''⟩,hmax,h⟩ := Fallible.bind_ok h
          obtain ⟨bs',rfl,hbs',rfl⟩ := readLebUint32_ok hmax
          obtain ⟨memory',hmemory,h⟩ := Fallible.bind_ok h
          obtain ⟨rfl,rfl⟩ := Prod.mk.inj (Except.ok.inj h)
          exact ⟨1::(bs ++ bs'),by simp,.limited hbs hbs' hmemory⟩

private theorem loadMemories_iff {n : ℕ} : loadMemories n buf = .ok (memories, rest) ↔ memories.length = n ∧
    ∃ chunks, List.Forall₂ Limits memories chunks ∧ buf = chunks.flatten ++ rest := by
  constructor
  · intro h
    induction n generalizing buf memories with
    | zero =>
      obtain ⟨rfl,rfl⟩ := Prod.mk.inj (Except.ok.inj h)
      exact ⟨rfl,[],.nil,rfl⟩
    | succ n ih =>
      obtain ⟨⟨memory,p⟩,hfirst,h⟩ := Fallible.bind_ok h
      obtain ⟨⟨tail,p'⟩,htail,h⟩ := Fallible.bind_ok h
      obtain ⟨rfl,rfl⟩ := Prod.mk.inj (Except.ok.inj h)
      obtain ⟨bs,rfl,hbs⟩ := loadLimits_sound hfirst
      obtain ⟨rfl,chunks,hchunks,rfl⟩ := ih htail
      exact ⟨rfl,bs::chunks,.cons hbs hchunks,by rw [List.flatten_cons,List.append_assoc]⟩
  · rintro ⟨rfl,chunks,hchunks,rfl⟩
    induction hchunks with
    | nil => rfl
    | @cons memory bs memories chunks hbs _ ih =>
      rw [List.flatten_cons,List.append_assoc,List.length_cons,loadMemories,loadLimits_complete hbs]
      simp only [bind,Except.bind,ih]

/-- A memory section is accepted if and only if it is the number of its memories and their limits,
and there is no more than one memory in all. -/
theorem loadMemorySection_iff {importMemoryCount : UInt32} (himport : importMemoryCount ≤ 1) :
    loadMemorySection importMemoryCount buf = .ok memories ↔
      importMemoryCount.toNat + memories.length ≤ 1 ∧ ∃ leb chunks, LebKind.uint32.Encodes leb ∧
        unsigned leb = memories.length ∧ List.Forall₂ Limits memories chunks ∧ buf = leb ++ chunks.flatten := by
  have hsize : sizeofWASMMemory = 16 := rfl
  have hmax : uint32Max.toNat = 2 ^ 32 - 1 := rfl
  rw [UInt32.le_iff_toNat_le] at himport
  change importMemoryCount.toNat ≤ 1 at himport
  constructor
  · intro h
    obtain ⟨⟨count,p⟩,hcount,h⟩ := Fallible.bind_ok h
    simp only at h
    split at h
    next => exact absurd h (by simp)
    next hone =>
      split at h
      next => exact absurd h (by simp)
      next halloc =>
        obtain ⟨⟨loaded,p'⟩,hloaded,h⟩ := Fallible.bind_ok h
        simp only at h
        split at h
        next => exact absurd h (by simp)
        next hend =>
          obtain rfl := Except.ok.inj h
          obtain rfl := not_not.mp hend
          obtain ⟨leb,rfl,hleb,hvalue⟩ := readLebUint32_iff.mp hcount
          obtain ⟨hlen,chunks,hchunks,rfl⟩ := loadMemories_iff.mp hloaded
          rw [gt_iff_lt,UInt32.lt_iff_toNat_lt,UInt32.toNat_add] at hone
          change ¬ 1 < _ at hone
          rw [hsize,hmax] at halloc
          refine ⟨by omega,leb,chunks,hleb,by omega,hchunks,by rw [List.append_nil]⟩
  · rintro ⟨hone,leb,chunks,hleb,hvalue,hchunks,rfl⟩
    have hcount : (UInt32.ofNat (unsigned leb)).toNat = memories.length := by
      rw [UInt32.toNat_ofNat',hvalue]
      omega
    have hloaded : loadMemories memories.length chunks.flatten = .ok (memories, []) :=
      loadMemories_iff.mpr ⟨rfl,chunks,hchunks,by rw [List.append_nil]⟩
    unfold loadMemorySection
    rw [readLebUint32_append hleb]
    simp only [bind,Except.bind,hcount,hloaded]
    rw [if_neg,if_neg,if_neg (by simp)]
    · rw [hsize,hmax]
      omega
    · rw [gt_iff_lt,UInt32.lt_iff_toNat_lt,UInt32.toNat_add,hcount]
      change ¬ 1 < _
      omega

/-- The section of a module linked with `--initial-memory=2147483648`. -/
theorem loadMemorySection_single :
    let memory : WASMMemory := ⟨defaultNumBytesPerPage, 32768, defaultMaxPages, .inl ⟨rfl, by decide, by decide⟩⟩
    (0 : UInt32).toNat + [memory].length ≤ 1 ∧ ∃ leb chunks, LebKind.uint32.Encodes leb ∧
      unsigned leb = [memory].length ∧ List.Forall₂ Limits [memory] chunks ∧
        [1, 0, 0x80, 0x80, 2] = leb ++ chunks.flatten := by
  intro memory
  have h : loadMemorySection 0 [1, 0, 0x80, 0x80, 2] = .ok [memory] := rfl
  exact (loadMemorySection_iff (by decide)).mp h

end Parsing

end WamrTest.Loader
