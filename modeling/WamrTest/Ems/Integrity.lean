import WamrTest.Ems.Chunks

/-!
# The state of a heap between two calls

The pool is tiled by its chunks, the lists hold exactly the free ones, and the counters agree with
them.
-/

namespace WamrTest.Ems

open Arena ByteMemory

structure Consistent (h : Heap) (bs : List Block) : Prop where
  layout : Layout h.mem h.baseAddr none bs
  total : total bs = h.currentSize
  size : h.currentSize < 2 ^ 30
  positive : 0 < h.baseAddr
  aligned : (h.baseAddr + hmuSize) % 8 = 0
  kfc : Kfc h (FreeAt h.baseAddr bs)
  intact : h.isHeapCorrupted = false
  free : h.totalFreeSize = freeTotal bs
  used : h.currentSize - h.totalFreeSize ≤ h.highmarkSize
  highmark : h.highmarkSize ≤ h.currentSize

/-- What chunks in use hold behind their headers is kept, but for the chunk at `freed`. -/
def Keeps (a : ℤ) (bs : List Block) (freed : Option ℤ) (m m' : Mem UInt8) : Prop :=
  ∀ y c, (y, c) ∈ place a bs → c.free = false → freed ≠ some y → SameOn (y + 4) (y + c.size) m m'

section Layout

variable {h : Heap} {m m' : Mem UInt8} {a x s : ℤ} {prev : Option ℤ} {bs p q mid : List Block}

theorem Layout.aligned (hl : Layout m a prev bs) {b : Block} (hx : (x, b) ∈ place a bs) : 8 ∣ x - a := by
  induction bs generalizing a prev with
  | nil => exact absurd hx List.not_mem_nil
  | cons c bs ih =>
    rcases List.mem_cons.mp hx with heq | hx
    · obtain ⟨rfl,-⟩ := Prod.mk.inj heq
      simp
    · have hrest := ih hl.2 hx
      have hc := hl.1.fits.aligned
      omega

theorem Layout.regions (hl : Layout h.mem h.baseAddr none bs) (htotal : total bs = h.currentSize)
    (hsize : h.currentSize < 2 ^ 30) : Regions h (FreeAt h.baseAddr bs) := by
  refine ⟨?_,?_,?_,?_,hsize⟩
  · intro x s hx
    have hbounds := place_bounds hl.pos hx
    rw [Heap.endAddr,← htotal]
    exact hbounds
  · intro x s hx
    obtain ⟨_,hchunk⟩ := hl.chunkAt hx
    exact hchunk.smallest
  · intro x s hx
    obtain ⟨_,hchunk⟩ := hl.chunkAt hx
    exact hchunk.fits
  · intro x s y t hx hy
    rcases place_disjoint hl.pos hx hy with ⟨heq,hblock⟩ | hover
    · exact .inl ⟨heq,congrArg Block.size hblock⟩
    · exact .inr hover

theorem Layout.replace (hl : Layout m a none (p ++ mid))
    (hbefore : ∀ z, a ≤ z → z < a + Arena.total p → Outside (FreeAt a p) z → m' z = m z)
    (hmid : Layout m' (a + Arena.total p) (lastPrev none p) q) : Layout m' a none (p ++ q) :=
  layout_append.mpr ⟨(layout_append.mp hl).1.interiors hbefore nofun,hmid⟩

/-- Writes into free chunks, and into the header of the chunk behind the one at `x`. -/
theorem Layout.keeps (hl : Layout m a none bs) (hx : (x, ⟨s, true⟩) ∈ place a bs)
    (hsame : ∀ z, Outside (FreeAt a bs) z → z < x ∨ x + s + 4 ≤ z → m' z = m z) (freed : Option ℤ) :
    Keeps a bs freed m m' := by
  intro y c hy hused _ z hz hz'
  apply hsame z (hl.outside_used hy hused (by omega) hz')
  rcases place_disjoint hl.pos hx hy with ⟨-,heq⟩ | hover | hover
  · exact absurd (congrArg Block.free heq) (by simp [hused])
  · simp only at hover
    omega
  · omega

theorem Keeps.trans {m'' : Mem UInt8} {freed : Option ℤ} (hk : Keeps a bs freed m m')
    (hk' : Keeps a bs freed m' m'') : Keeps a bs freed m m'' :=
  fun y c hy hused hne => (hk y c hy hused hne).trans (hk' y c hy hused hne)

end Layout

/-- At most the header at `next` is changed, and it is if `next` lies in the heap. -/
structure Touched (h h' : Heap) (next : ℤ) (f : BitVec 32 → BitVec 32) : Prop where
  record : SameRecord h h'
  kfcNormalList : h'.kfcNormalList = h.kfcNormalList
  kfcTree : h'.kfcTree = h.kfcTree
  mem : ∀ z, z < next ∨ next + 4 ≤ z → h'.mem z = h.mem z
  header : h.HmuIsInHeap next → load32 h'.mem next = f (load32 h.mem next)

theorem touched (h : Heap) (next : ℤ) (f : BitVec 32 → BitVec 32) :
    Touched h (if h.HmuIsInHeap next then h.setHeader next f else h) next f := by
  by_cases hin : h.HmuIsInHeap next
  · rw [if_pos hin]
    exact ⟨⟨rfl,rfl,rfl,rfl,rfl,rfl⟩,rfl,rfl,fun z hz => store32_outside _ _ hz,fun _ => load32_store32 _ _ _⟩
  · rw [if_neg hin]
    exact ⟨.refl h,rfl,rfl,fun _ _ => rfl,fun hc => absurd hc hin⟩

theorem Kfc.touch {h h' : Heap} {F : ℤ → ℤ → Prop} {next : ℤ} {f : BitVec 32 → BitVec 32} (hk : Kfc h F)
    (hmin : ∀ a s, F a s → 16 ≤ s) (ht : Touched h h' next f)
    (hfar : ∀ a s, F a s → a + s ≤ next ∨ next ≤ a) : Kfc h' F := by
  apply hk.congr hmin ht.kfcNormalList ht.kfcTree ht.record.kfcTreeRoot
  intro a s hF z hz hz'
  have hover := hfar a s hF
  exact ht.mem z (by omega)

section Consistent

variable {h : Heap} {bs : List Block}

theorem Consistent.regions (hc : Consistent h bs) : Regions h (FreeAt h.baseAddr bs) :=
  hc.layout.regions hc.total hc.size

theorem Consistent.align (hc : Consistent h bs) {x : ℤ} {b : Block} (hx : (x, b) ∈ place h.baseAddr bs) :
    (x + hmuSize) % 8 = 0 := by
  have hdvd := hc.layout.aligned hx
  have haligned := hc.aligned
  omega

theorem Consistent.freeTotal_bounds (hc : Consistent h bs) :
    0 ≤ h.totalFreeSize ∧ h.totalFreeSize ≤ h.currentSize := by
  rw [hc.free,← hc.total]
  exact Arena.freeTotal_bounds hc.layout.pos

theorem Consistent.write (hc : Consistent h bs) {m : Mem UInt8} {x s u v : ℤ} (hx : UsedAt h.baseAddr bs x s)
    (hu : x + hmuSize ≤ u) (hv : v ≤ x + s) (hsame : ∀ z, z < u ∨ v ≤ z → m z = h.mem z) :
    Consistent { h with mem := m } bs := by
  rw [hmuSize] at hu
  have hlayout : Layout m h.baseAddr none bs := hc.layout.write hx rfl hu hv hsame
  have hkfc : Kfc { h with mem := m } (FreeAt h.baseAddr bs) := by
    refine Kfc.congr hc.kfc hc.regions.smallest rfl rfl rfl ?_
    intro a t hF z hz hz'
    apply hsame
    rcases place_disjoint hc.layout.pos hF hx with ⟨-,heq⟩ | hover
    · exact absurd (congrArg Block.free heq) (by simp)
    · simp only at hover
      omega
  exact ⟨hlayout,hc.total,hc.size,hc.positive,hc.aligned,hkfc,hc.intact,hc.free,hc.used,hc.highmark⟩

end Consistent

private theorem load32_memset_zero (mem : Mem UInt8) {a b : ℤ} {n : ℕ} (h : a ≤ b ∧ b + 4 ≤ a + n) :
    load32 (memset mem a 0 n) b = 0#32 := by
  have hzero (z : ℤ) (hz : b ≤ z ∧ z < b + 4) : memset mem a 0 n z = 0 := if_pos (by omega)
  rw [load32,hzero b (by omega),hzero (b + 1) (by omega),hzero (b + 2) (by omega),hzero (b + 3) (by omega)]
  rfl

/-- What `gc_init_internal` writes: a header, and the node right below the root. -/
theorem gcInitInternal_mem (mem : Mem UInt8) (root base size : ℤ) :
    load32 (gcInitInternal mem root base size).mem base =
        hmuMarkPinuse (hmuSetSize size (hmuSetUt hmuFc 0#32)) ∧
      NodeAt (gcInitInternal mem root base size).mem base size none none root := by
  have hzero {i : ℤ} (h : 0 ≤ i) (h' : i ≤ 28) : load32 (memset mem base 0 32) (base + i) = 0#32 :=
    load32_memset_zero mem (by omega)
  have hlink {i : ℤ} (h : 8 ≤ i) (h' : i ≤ 24) : load64 (memset mem base 0 32) (base + i) = 0#64 := by
    rw [load64,add_assoc,hzero (by omega) (by omega),hzero (by omega) (by omega)]
    rfl
  have hnode : NodeAt (memset mem base 0 32) base 0 none none 0 :=
    ⟨hzero (by decide) (by decide),hlink (by decide) (by decide),hlink (by decide) (by decide),
      hlink (by decide) (by decide)⟩
  have hhead := hzero (i := 0) le_rfl (by decide)
  rw [add_zero] at hhead
  have hkeep (m : Mem UInt8) (word : BitVec 32) : SameOn (base + 4) (base + 32) m (store32 m base word) :=
    sameOn_store32 m word (.inr le_rfl)
  simp only [gcInitInternal,Heap.setHeader,Heap.header]
  constructor
  · rw [setSize,load32_store32_of_disjoint _ _ (by omega),setParent,load32_store64_of_disjoint _ _ (by omega)]
    simp only [load32_store32,hhead]
  · exact ((hnode.congr (((hkeep _ _).trans (hkeep _ _)).trans (hkeep _ _))).setParent root).setSize size

/-- `gc_init_internal` leaves one free chunk, in the tree. -/
theorem gcInitInternal_consistent (mem : Mem UInt8) (root : ℤ) {base size : ℤ} (hbase : 0 < base)
    (halign : (base + hmuSize) % 8 = 0) (hsize : hmuFcNormalMaxSize ≤ size) (hfits : Fits size) :
    Consistent (gcInitInternal mem root base size) [⟨size, true⟩] := by
  have hmin : (16 : ℤ) ≤ size := le_trans (by decide) hsize
  obtain ⟨hheader,hnode⟩ := gcInitInternal_mem mem root base size
  have hfc : hmuFc.toNat < 2 ^ 2 := by decide
  refine ⟨⟨⟨?_,?_,?_,by simp,by simp,hmin,hfits⟩,trivial⟩,?_,hfits.lt,hbase,halign,
    ⟨?_,?_,?_,?_,hnode,trivial,trivial⟩,rfl,?_,?_,?_⟩
  · change hmuGetSize (load32 (gcInitInternal mem root base size).mem base) = size
    rw [hheader,hmuGetSize_markPinuse,hmuGetSize_setSize _ hfits]
  · change hmuGetUt (load32 (gcInitInternal mem root base size).mem base) = _
    rw [hheader,hmuGetUt_markPinuse,hmuGetUt_setSize _ hfits,hmuGetUt_setUt _ hfc]
    rfl
  · change hmuGetPinuse (load32 (gcInitInternal mem root base size).mem base) = _
    rw [hheader,hmuGetPinuse_markPinuse]
    rfl
  · simp [gcInitInternal,Heap.setHeader]
  · intro i
    refine ⟨[],rfl,List.nodup_nil,?_⟩
    intro x
    constructor
    · intro hx
      exact absurd hx List.not_mem_nil
    · rintro ⟨hx,hlt⟩
      rw [freeAt_cons] at hx
      rcases hx with ⟨-,heq⟩ | hx
      · have hi := congrArg Block.size heq
        simp only at hi
        omega
      · exact absurd hx not_freeAt_nil
  · exact List.pairwise_singleton _ _
  · exact List.nodup_singleton base
  · intro x s
    change (x, s) ∈ [(base, size)] ↔ FreeAt base _ x s ∧ _
    rw [List.mem_singleton,Prod.mk.injEq,freeAt_cons]
    constructor
    · rintro ⟨rfl,rfl⟩
      exact ⟨.inl ⟨rfl,rfl⟩,hsize⟩
    · rintro ⟨⟨rfl,heq⟩ | hx,-⟩
      · exact ⟨rfl,(congrArg Block.size heq).symm⟩
      · exact absurd hx not_freeAt_nil
  · simp [gcInitInternal,Heap.setHeader]
  · simp [gcInitInternal,Heap.setHeader]
  · simp [gcInitInternal,Heap.setHeader]
    omega

end WamrTest.Ems
