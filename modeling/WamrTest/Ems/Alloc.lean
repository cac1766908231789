import WamrTest.Ems.BestFit
import WamrTest.Ems.Integrity

/-!
# Allocation

`gc_alloc_vo` takes a best fit, keeps the heap consistent and every object as it is, or leaves the
heap unchanged.
-/

namespace WamrTest.Ems

open Arena ByteMemory

section Take

variable {h : Heap} {x t : ℤ}

private theorem takeHmu_mem (h : Heap) (x t : ℤ) :
    (takeHmu h x t).mem = store32 h.mem x (hmuSetSize t (h.header x)) := rfl

private theorem takeHmu_counters (hfree : t ≤ h.totalFreeSize) (ht : 0 ≤ t) (hle : h.totalFreeSize ≤ h.currentSize)
    (hsize : h.currentSize < 2 ^ 30) (hhigh : h.highmarkSize ≤ h.currentSize) :
    (takeHmu h x t).totalFreeSize = h.totalFreeSize - t ∧
      h.currentSize - (h.totalFreeSize - t) ≤ (takeHmu h x t).highmarkSize ∧
      (takeHmu h x t).highmarkSize ≤ h.currentSize := by
  have htotal : (h.totalFreeSize - t) % 2 ^ 32 = h.totalFreeSize - t := Int.emod_eq_of_lt (by omega) (by omega)
  have hused : (h.currentSize - (h.totalFreeSize - t)) % 2 ^ 32 = h.currentSize - (h.totalFreeSize - t) :=
    Int.emod_eq_of_lt (by omega) (by omega)
  simp only [takeHmu,Heap.setHeader,htotal,hused]
  refine ⟨trivial,?_⟩
  split <;> omega

end Take

/-- `alloc_hmu` has taken `t` bytes of a free chunk behind `p`; its header still says free. -/
structure Divided (h h' : Heap) (p : List Block) (t : ℤ) (rest q : List Block) : Prop where
  baseAddr : h'.baseAddr = h.baseAddr
  currentSize : h'.currentSize = h.currentSize
  isHeapCorrupted : h'.isHeapCorrupted = h.isHeapCorrupted
  mem : ∀ z, Outside (FreeAt h.baseAddr p) z → Outside (FreeAt (h.baseAddr + total p + t + total rest) q) z →
    z < h.baseAddr + total p ∨ h.baseAddr + total p + t + total rest + 4 ≤ z → h'.mem z = h.mem z
  header : h'.header (h.baseAddr + total p) = hmuSetSize t (h.header (h.baseAddr + total p))
  layout : Layout h'.mem (h.baseAddr + total p + t) none (rest ++ q)
  kfc : Kfc h' (FreeAt h.baseAddr (p ++ ⟨t, false⟩::(rest ++ q)))
  totalFreeSize : h'.totalFreeSize = h.totalFreeSize - t
  used : h.currentSize - h'.totalFreeSize ≤ h'.highmarkSize
  highmark : h'.highmarkSize ≤ h.currentSize

section Divide

variable {h h₁ : Heap} {m m' : Mem UInt8} {p q : List Block} {prev : Option ℤ} {n s x : ℤ}

private theorem Consistent.le_free (hc : Consistent h (p ++ ⟨s, true⟩::q)) : s ≤ h.totalFreeSize := by
  have hpos := hc.layout.pos
  have hp := Arena.freeTotal_bounds fun b hb => hpos b (List.mem_append_left _ hb)
  have hq := Arena.freeTotal_bounds fun b hb => hpos b (List.mem_append_right p (List.mem_cons_of_mem _ hb))
  rw [hc.free,freeTotal_append,freeTotal_cons,if_pos rfl]
  simp only
  omega

/-- The chunk at `x` is unlinked and nothing else is done yet. -/
structure Taken (h h₁ : Heap) (p : List Block) (s : ℤ) (q : List Block) (x : ℤ) : Prop where
  consistent : Consistent h (p ++ ⟨s, true⟩::q)
  addr : h.baseAddr + total p = x
  unlinked : Unlinked h h₁ (FreeAt h.baseAddr (p ++ ⟨s, true⟩::q)) x

abbrev Others (h : Heap) (p : List Block) (s : ℤ) (q : List Block) (x : ℤ) (b t : ℤ) : Prop :=
  FreeAt h.baseAddr (p ++ ⟨s, true⟩::q) b t ∧ b ≠ x

theorem Taken.place (ht : Taken h h₁ p s q x) : (x, ⟨s, true⟩) ∈ place h.baseAddr (p ++ ⟨s, true⟩::q) := by
  rw [← ht.addr]
  exact mem_place_middle h.baseAddr p ⟨s, true⟩ q

theorem Taken.layout (ht : Taken h h₁ p s q x) : Layout h.mem x (lastPrev none p) (⟨s, true⟩::q) := by
  rw [← ht.addr]
  exact (layout_append.mp ht.consistent.layout).2

theorem Taken.bounds (ht : Taken h h₁ p s q x) : h.baseAddr ≤ x ∧ x + s + total q = h.endAddr := by
  have htotal := ht.consistent.total
  have haddr := ht.addr
  have hbounds := place_bounds ht.consistent.layout.pos ht.place
  rw [total_append,total_cons] at htotal
  simp only at htotal
  rw [Heap.endAddr]
  omega

theorem Taken.regions (ht : Taken h h₁ p s q x) : Regions h₁ (Others h p s q x) :=
  ht.consistent.regions.sub (fun _ _ hF => hF.1) ht.unlinked.record

theorem Taken.far (ht : Taken h h₁ p s q x) {b t : ℤ} (hF : Others h p s q x b t) : b + t ≤ x ∨ x + s ≤ b := by
  rcases place_disjoint ht.consistent.layout.pos hF.1 ht.place with ⟨heq,-⟩ | hover
  · exact absurd heq hF.2
  · exact hover

private theorem Taken.others_iff (ht : Taken h h₁ p s q x) {b t : ℤ} :
    Others h p s q x b t ↔ FreeAt h.baseAddr p b t ∨ FreeAt (x + s) q b t := by
  have hothers := freeAt_others (a := h.baseAddr) (x := b) (s := t) ht.consistent.layout.pos
  rw [ht.addr] at hothers
  exact hothers

theorem Taken.outside (ht : Taken h h₁ p s q x) {z : ℤ} (hp : Outside (FreeAt h.baseAddr p) z)
    (hq : Outside (FreeAt (x + s) q) z) : Outside (Others h p s q x) z := by
  intro b t hF
  rcases ht.others_iff.mp hF with hF | hF
  · exact hp b t hF
  · exact hq b t hF

theorem Taken.mem (ht : Taken h h₁ p s q x) {z : ℤ} (hz : Outside (Others h p s q x) z)
    (hx : z < x + 4 ∨ x + s - 4 ≤ z) : h₁.mem z = h.mem z := by
  apply ht.unlinked.mem
  intro b t hF
  by_cases hb : b = x
  · subst hb
    have hsize := congrArg Block.size (place_inj ht.consistent.layout.pos hF ht.place)
    simp only at hsize
    omega
  · exact hz b t ⟨hF,hb⟩

private theorem Taken.outside_before (ht : Taken h h₁ p s q x) {z : ℤ} (hz : x ≤ z) :
    Outside (FreeAt h.baseAddr p) z := by
  apply (layout_append.mp ht.consistent.layout).1.outside_arena
  rw [ht.addr]
  exact .inr hz

theorem Taken.outside_header (ht : Taken h h₁ p s q x) {z : ℤ} (hz : x ≤ z) (hz' : z < x + 4) :
    Outside (Others h p s q x) z :=
  (ht.consistent.layout.outside_header ht.place hz hz').mono fun _ _ hF => hF.1

private theorem Taken.header_mem (ht : Taken h h₁ p s q x) {z : ℤ} (hz : x ≤ z) (hz' : z < x + 4) :
    h₁.mem z = h.mem z :=
  ht.mem (ht.outside_header hz hz') (.inl hz')

private theorem Taken.next_header (ht : Taken h h₁ p s q x) (hne : q ≠ []) :
    load32 h₁.mem (x + s) = load32 h.mem (x + s) := by
  obtain ⟨b,q,rfl⟩ := List.exists_cons_of_ne_nil hne
  have hsame : SameOn (x + s) (x + s + 4) h.mem h₁.mem := by
    intro z hz hz'
    have hq := ht.layout.2.outside_header (x := x + s) List.mem_cons_self hz hz'
    exact ht.mem (ht.outside (ht.outside_before (by have hmin := ht.layout.1.smallest; simp only at hmin; omega)) hq)
      (.inr (by omega))
  exact hsame.load32 le_rfl le_rfl

private theorem Taken.fresh_rest (ht : Taken h h₁ p s q x) (hn : 16 ≤ n) (h8 : 8 ∣ n) (hle : n + 16 ≤ s) :
    Fresh h₁ (Others h p s q x) (x + n) (s - n) := by
  have hbounds := ht.bounds
  have hq := total_nonneg ht.layout.2.pos
  have hlt := ht.layout.1.fits.lt
  have hdvd := ht.layout.1.fits.aligned
  simp only at hlt hdvd
  refine ⟨?_,by omega,⟨by omega,by omega,by omega⟩,?_⟩
  · rw [Heap.endAddr,ht.unlinked.record.baseAddr,ht.unlinked.record.currentSize,← Heap.endAddr]
    omega
  · intro b t hF
    have hover := ht.far hF
    omega

theorem Layout.rest (hl : Layout m x prev (⟨s, true⟩::q)) (hrest : ChunkAt m' (x + n) none ⟨s - n, true⟩)
    (hout : ∀ z, x + s ≤ z → Outside (FreeAt (x + s) q) z → m' z = m z)
    (hfoot : load32 m' (x + s - 4) = BitVec.ofInt 32 (s - n)) :
    Layout m' (x + n) none (⟨s - n, true⟩::q) := by
  have hq := hl.2
  have hend : x + n + (s - n) = x + s := by omega
  refine ⟨hrest,?_⟩
  rw [asPrev_free]
  simp only [asPrev_free,hend] at hq ⊢
  cases q with
  | nil => trivial
  | cons b q =>
    have hsame : SameOn (x + s) (x + s + 4) m m' :=
      fun z hz hz' => hout z hz (hq.outside_header List.mem_cons_self hz hz')
    have hload := hsame.load32 le_rfl le_rfl
    apply hq.changePrev
    · intro z hz _ hz'
      exact hout z (by omega) hz'
    · rw [hload]
    · rw [hload]
    · rw [hload]
    · rw [hload,hq.1.pinuse]
      rfl
    · intro t ht
      rw [← Option.some.inj ht]
      exact ⟨hfoot,(hq.1.prev s rfl).2⟩

theorem Layout.next (hl : Layout m x prev (⟨s, true⟩::q))
    (hout : ∀ z, x + s + 4 ≤ z → Outside (FreeAt (x + s) q) z → m' z = m z)
    (hnext : q ≠ [] → load32 m' (x + s) = hmuMarkPinuse (load32 m (x + s))) : Layout m' (x + s) none q := by
  cases q with
  | nil => trivial
  | cons b q =>
    have hload := hnext (by simp)
    apply hl.2.changePrev
    · intro z hz _ hz'
      exact hout z (by simpa using hz) hz'
    · rw [hload,hmuGetSize_markPinuse]
    · rw [hload,hmuGetUt_markPinuse]
    · rw [hload,hmuIsVoFreed_markPinuse]
    · rw [hload,hmuGetPinuse_markPinuse]
      rfl
    · exact nofun

private theorem Taken.counters (ht : Taken h h₁ p s q x) {h₂ : Heap} (hrec : SameRecord h h₂) {t : ℤ} (h0 : 0 ≤ t)
    (hle : t ≤ s) :
    (takeHmu h₂ x t).totalFreeSize = h.totalFreeSize - t ∧
      h.currentSize - (takeHmu h₂ x t).totalFreeSize ≤ (takeHmu h₂ x t).highmarkSize ∧
      (takeHmu h₂ x t).highmarkSize ≤ h.currentSize := by
  have hc := ht.consistent
  have hfree := hc.le_free
  have hcounters := takeHmu_counters (h := h₂) (x := x) (t := t) (by rw [hrec.totalFreeSize]; omega) h0
    (by rw [hrec.totalFreeSize,hrec.currentSize]; exact hc.freeTotal_bounds.2)
    (by rw [hrec.currentSize]; exact hc.size) (by rw [hrec.highmarkSize,hrec.currentSize]; exact hc.highmark)
  rw [hrec.totalFreeSize,hrec.currentSize] at hcounters
  rw [hcounters.1]
  exact ⟨rfl,hcounters.2⟩

theorem Taken.split (ht : Taken h h₁ p s q x) (hn : 16 ≤ n) (h8 : 8 ∣ n) (hle : n + 16 ≤ s) :
    ∃ h', allocIn h₁ x n s true = (h', some x) ∧ Divided h h' p n [⟨s - n, true⟩] q := by
  have hfresh := ht.fresh_rest hn h8 hle
  obtain ⟨h₂,hadd,hadded⟩ := gciAddFc_spec ht.unlinked.kfc ht.regions hfresh
  have hadded_header := hadded.header
  simp only [allocIn,if_true,hadd]
  generalize hh₃ : h₂.setHeader (x + n) hmuMarkPinuse = h₃
  have hmem₃ : h₃.mem = store32 h₂.mem (x + n) (hmuMarkPinuse (h₂.header (x + n))) := by rw [← hh₃]; rfl
  have hrec₃ : SameRecord h h₃ := by
    rw [← hh₃]
    exact ht.unlinked.record.trans (hadded.record.trans ⟨rfl,rfl,rfl,rfl,rfl,rfl⟩)
  -- both headers are written, and what `gci_add_fc` wrote
  have hout (z : ℤ) (hother : Outside (Others h p s q x) z) (hz : z < x ∨ x + s ≤ z) :
      (takeHmu h₃ x n).mem z = h.mem z := by
    rw [takeHmu_mem,store32_outside _ _ (by omega),hmem₃,store32_outside _ _ (by omega),
      hadded.mem z hother (by omega),ht.mem hother (by omega)]
  have hkeep : h₃.header x = h.header x := by
    have hsame : SameOn x (x + 4) h.mem h₃.mem := by
      intro z hz hz'
      rw [hmem₃,store32_outside _ _ (by omega),hadded.mem z (ht.outside_header hz hz') (by omega),
        ht.header_mem hz hz']
    exact hsame.load32 le_rfl le_rfl
  have hrest : load32 (takeHmu h₃ x n).mem (x + n) =
      hmuMarkPinuse (hmuSetSize (s - n) (hmuSetUt hmuFc (h₁.header (x + n)))) := by
    rw [takeHmu_mem,load32_store32_of_disjoint _ _ (by omega),hmem₃,load32_store32,hadded_header]
  have hfoot : load32 (takeHmu h₃ x n).mem (x + s - 4) = BitVec.ofInt 32 (s - n) := by
    rw [takeHmu_mem,load32_store32_of_disjoint _ _ (by omega),hmem₃,
      load32_store32_of_disjoint _ _ (by omega),← hadded.footer]
    congr 1
    omega
  have hchunk : ChunkAt (takeHmu h₃ x n).mem (x + n) none ⟨s - n, true⟩ := by
    refine ⟨?_,?_,?_,by simp,by simp,hfresh.smallest,hfresh.fits⟩
    · rw [hrest,hmuGetSize_markPinuse,hmuGetSize_setSize _ hfresh.fits]
    · rw [hrest,hmuGetUt_markPinuse,hmuGetUt_setSize _ hfresh.fits,hmuGetUt_setUt _ (by decide)]
      rfl
    · rw [hrest,hmuGetPinuse_markPinuse]
      rfl
  have hkfc : Kfc (takeHmu h₃ x n) fun b t => Others h p s q x b t ∨ (b = x + n ∧ t = s - n) := by
    apply hadded.kfc.congr
    · rintro b t (hF | ⟨-,rfl⟩)
      · exact ht.regions.smallest b t hF
      · exact hfresh.smallest
    · rw [← hh₃]
      rfl
    · rw [← hh₃]
      rfl
    · rw [← hh₃]
      rfl
    · intro b t hF z hz hz'
      have hover : b + t ≤ x ∨ x + n ≤ b := by
        rcases hF with hF | ⟨rfl,-⟩
        · have hfar := ht.far hF
          omega
        · exact .inr le_rfl
      have hrest : b + t ≤ x ∨ b = x + n ∨ x + s ≤ b := by
        rcases hF with hF | ⟨rfl,-⟩
        · have hfar := ht.far hF
          omega
        · exact .inr (.inl rfl)
      rw [takeHmu_mem,store32_outside _ _ (by omega),hmem₃,store32_outside _ _ (by omega)]
  obtain ⟨htotal,hused,hhigh⟩ := ht.counters hrec₃ (t := n) (by omega) (by omega)
  refine ⟨_,rfl,hrec₃.baseAddr,hrec₃.currentSize,hrec₃.isHeapCorrupted,?_,?_,?_,?_,htotal,hused,hhigh⟩
  · intro z hp hq hz
    simp only [ht.addr,total_cons,total_nil] at hq hz
    exact hout z (ht.outside hp (by rwa [show x + n + (s - n + 0) = x + s by omega] at hq)) (by omega)
  · rw [ht.addr,Heap.header,takeHmu_mem,load32_store32,hkeep]
  · rw [ht.addr]
    exact ht.layout.rest hchunk (fun z hz hq => hout z (ht.outside (ht.outside_before (by omega)) hq) (.inr hz)) hfoot
  · apply hkfc.iff
    intro b t
    have hend : x + n + (s - n) = x + s := by omega
    rw [ht.others_iff,freeAt_append,freeAt_cons,List.singleton_append,freeAt_cons,ht.addr]
    simp only [Block.mk.injEq,Bool.false_eq_true,and_false,false_or,and_true,hend,eq_comm (a := s - n)]
    tauto

theorem Taken.whole (ht : Taken h h₁ p s q x) :
    ∃ h', allocIn h₁ x n s false = (h', some x) ∧ Divided h h' p s [] q := by
  have hmin := ht.layout.1.smallest
  simp only at hmin
  have hbounds := ht.bounds
  have htouched := touched h₁ (x + s) hmuMarkPinuse
  simp only [allocIn,Bool.false_eq_true,if_false]
  generalize (if h₁.HmuIsInHeap (x + s) then h₁.setHeader (x + s) hmuMarkPinuse else h₁) = h₂ at *
  -- there is a next chunk unless this one is the last
  have hin (hne : q ≠ []) : h₁.HmuIsInHeap (x + s) := by
    have hq := total_pos ht.layout.2.pos hne
    rw [Heap.HmuIsInHeap,Heap.endAddr,ht.unlinked.record.baseAddr,ht.unlinked.record.currentSize,
      ← Heap.endAddr]
    omega
  have hrec₂ : SameRecord h h₂ := ht.unlinked.record.trans htouched.record
  have hout (z : ℤ) (hother : Outside (Others h p s q x) z) (hz : z < x ∨ x + s + 4 ≤ z) :
      (takeHmu h₂ x s).mem z = h.mem z := by
    rw [takeHmu_mem,store32_outside _ _ (by omega),htouched.mem z (by omega),ht.mem hother (by omega)]
  have hkeep : h₂.header x = h.header x := by
    have hsame : SameOn x (x + 4) h.mem h₂.mem := by
      intro z hz hz'
      rw [htouched.mem z (by omega),ht.header_mem hz hz']
    exact hsame.load32 le_rfl le_rfl
  have hnext (hne : q ≠ []) : load32 (takeHmu h₂ x s).mem (x + s) = hmuMarkPinuse (load32 h.mem (x + s)) := by
    rw [takeHmu_mem,load32_store32_of_disjoint _ _ (by omega),htouched.header (hin hne),ht.next_header hne]
  have hkfc : Kfc (takeHmu h₂ x s) (Others h p s q x) := by
    have hkfc₂ : Kfc h₂ (Others h p s q x) := by
      apply ht.unlinked.kfc.touch ht.regions.smallest htouched
      intro b t hF
      have hover := ht.far hF
      omega
    have hlist : (takeHmu h₂ x s).kfcNormalList = h₂.kfcNormalList := rfl
    apply hkfc₂.congr ht.regions.smallest hlist rfl rfl
    intro b t hF z hz hz'
    have hover := ht.far hF
    rw [takeHmu_mem,store32_outside _ _ (by omega)]
  obtain ⟨htotal,hused,hhigh⟩ := ht.counters hrec₂ (t := s) (by omega) le_rfl
  refine ⟨_,rfl,hrec₂.baseAddr,hrec₂.currentSize,hrec₂.isHeapCorrupted,?_,?_,?_,?_,htotal,hused,hhigh⟩
  · intro z hp hq hz
    simp only [ht.addr,total_nil,add_zero] at hq hz
    exact hout z (ht.outside hp hq) hz
  · rw [ht.addr,Heap.header,takeHmu_mem,load32_store32,hkeep]
  · rw [ht.addr]
    exact ht.layout.next (fun z hz hq => hout z (ht.outside (ht.outside_before (by omega)) hq) (by omega)) hnext
  · apply hkfc.iff
    intro b t
    rw [ht.others_iff,freeAt_append,freeAt_cons,List.nil_append,ht.addr]
    simp

private theorem setVo_mem (h : Heap) (x : ℤ) :
    (setVo h x).mem = store32 h.mem x (hmuUnfreeVo (hmuSetUt hmuVo (h.header x))) := by
  simp only [setVo,Heap.setHeader,Heap.header,load32_store32]
  funext z
  unfold store32
  split <;> rfl

private theorem Divided.outside_rest {h' : Heap} {t z : ℤ} {rest : List Block} (hd : Divided h h' p t rest q)
    (hz : z < h.baseAddr + total p + t) : Outside (FreeAt (h.baseAddr + total p + t + total rest) q) z := by
  obtain ⟨hrest,hq⟩ := layout_append.mp hd.layout
  have hnonneg := total_nonneg hrest.pos
  exact hq.outside_arena (.inl (by omega))

/-- The chunk that `alloc_hmu` divided is handed out, with bytes written behind its header. -/
theorem Divided.consistent {h₂ h' : Heap} {t : ℤ} {rest : List Block} (hd : Divided h h₂ p t rest q)
    (hc : Consistent h (p ++ ⟨s, true⟩::q)) (ht : Fits t) (hmin : 16 ≤ t) (hsum : t + total rest = s)
    (hrest : freeTotal rest = total rest) (hset : h' = { setVo h₂ (h.baseAddr + total p) with mem := h'.mem })
    (hheader : load32 h'.mem (h.baseAddr + total p) = load32 (setVo h₂ (h.baseAddr + total p)).mem (h.baseAddr + total p))
    (hmem : ∀ z, z < h.baseAddr + total p ∨ h.baseAddr + total p + t ≤ z → h'.mem z = h₂.mem z) :
    Consistent h' (p ++ ⟨t, false⟩::(rest ++ q)) := by
  have hbase : h'.baseAddr = h.baseAddr := by rw [hset]; exact hd.baseAddr
  have hsize : h'.currentSize = h.currentSize := by rw [hset]; exact hd.currentSize
  have htotalFree : h'.totalFreeSize = h.totalFreeSize - t := by rw [hset]; exact hd.totalFreeSize
  have hhighmark : h'.highmarkSize = h₂.highmarkSize := by rw [hset]; rfl
  have hl := (layout_append.mp hc.layout).2
  have hsum' : total p + (t + total (rest ++ q)) = h.currentSize := by
    rw [← hc.total,total_append,total_append,total_cons]
    simp only
    omega
  have hfits := hl.1.fits
  generalize hx : h.baseAddr + total p = x at *
  have hword : load32 h'.mem x = hmuUnfreeVo (hmuSetUt hmuVo (hmuSetSize t (h.header x))) := by
    have hdivided := hd.header
    rw [hx] at hdivided
    rw [hheader,setVo_mem,load32_store32,hdivided]
  have hvo : hmuVo.toNat < 2 ^ 2 := by decide
  have hlayout : Layout h'.mem h.baseAddr none (p ++ ⟨t, false⟩::(rest ++ q)) := by
    refine hc.layout.replace ?_ ?_
    · intro z _ hz hp
      rw [hx] at hz
      rw [hmem z (.inl hz),hd.mem z hp (hd.outside_rest (by omega)) (.inl (by rw [hx]; exact hz))]
    · rw [hx]
      constructor
      · refine ⟨?_,?_,?_,?_,?_,hmin,ht⟩
        · rw [hword,hmuGetSize_unfreeVo,hmuGetSize_setUt _ hvo,hmuGetSize_setSize _ ht]
        · rw [hword,hmuGetUt_unfreeVo,hmuGetUt_setUt _ hvo]
          rfl
        · rw [hword,hmuGetPinuse_unfreeVo,hmuGetPinuse_setUt _ hvo,hmuGetPinuse_setSize _ ht]
          exact hl.1.pinuse
        · intro u hu
          exact absurd (hl.1.prev u hu).2 (by simp)
        · intro _
          rw [hword,hmuIsVoFreed_unfreeVo]
      · have hlayout := hd.layout
        rw [hx] at hlayout
        apply hlayout.sameOn
        intro z hz _
        exact hmem z (.inr hz)
  have hplace := mem_place_middle h.baseAddr p ⟨t, false⟩ (rest ++ q)
  rw [hx] at hplace
  refine ⟨hbase ▸ hlayout,?_,hsize ▸ hc.size,hbase ▸ hc.positive,hbase ▸ hc.aligned,?_,?_,?_,?_,?_⟩
  · rw [hsize,← hsum',total_append,total_cons]
  · rw [hbase]
    apply hd.kfc.congr
    · intro b u hF
      obtain ⟨_,hchunk⟩ := hlayout.chunkAt hF
      exact hchunk.smallest
    · rw [hset]
      rfl
    · rw [hset]
      rfl
    · rw [hset]
      rfl
    · intro b u hF z hz hz'
      apply hmem
      rcases place_disjoint hlayout.pos hF hplace with ⟨-,heq⟩ | hover
      · exact absurd (congrArg Block.free heq) (by simp)
      · simp only at hover
        omega
  · rw [hset]
    exact hd.isHeapCorrupted.trans hc.intact
  · have hfree := hc.free
    rw [freeTotal_append,freeTotal_cons,if_pos rfl] at hfree
    rw [freeTotal_append,freeTotal_cons,freeTotal_append,if_neg (by simp),htotalFree,hrest,hfree]
    simp only
    omega
  · have hused := hd.used
    rw [hd.totalFreeSize] at hused
    rw [hsize,htotalFree,hhighmark]
    exact hused
  · rw [hsize,hhighmark]
    exact hd.highmark

end Divide

/-- The size of the chunk that an object of `size` bytes needs. -/
def totSize (size : UInt32) : ℤ := max gcSmallestSize ((size.toNat + 11) / 8 * 8)

theorem totSize_bounds (size : UInt32) :
    16 ≤ totSize size ∧ 8 ∣ totSize size ∧ (size.toNat : ℤ) + 4 ≤ totSize size := by
  rw [totSize,smallestSize_eq]
  omega

private theorem allocHmu_max (h : Heap) (n : ℤ) : allocHmu h n = allocHmu h (max gcSmallestSize n) := by
  rcases lt_or_ge n gcSmallestSize with hlt | hle
  · rw [max_eq_left hlt.le,allocHmu,allocHmu]
    simp only [if_pos hlt,lt_irrefl,if_false]
  · rw [max_eq_right hle]

/-- An object of `size` bytes was given the head `t` of the free chunk of `s` bytes behind `p`, a
best fit. -/
structure Allocated (h h' : Heap) (bs : List Block) (size : UInt32) (p : List Block) (s t : ℤ)
    (rest q : List Block) : Prop where
  split : bs = p ++ ⟨s, true⟩::q
  fits : totSize size ≤ s
  least : ∀ b ∈ bs, b.free = true → totSize size ≤ b.size → s ≤ b.size
  carve : carve gcSmallestSize (totSize size) s = ⟨t, false⟩::rest
  result : gcAllocVo h size = (h', some (h.baseAddr + total p + hmuSize))
  consistent : Consistent h' (p ++ ⟨t, false⟩::(rest ++ q))
  baseAddr : h'.baseAddr = h.baseAddr
  currentSize : h'.currentSize = h.currentSize
  keeps : Keeps h.baseAddr bs none h.mem h'.mem
  padding : ∀ z, h.baseAddr + total p + hmuSize + size.toNat ≤ z → z < h.baseAddr + total p + t →
    h'.mem z = 0

section Result

variable {h h₂ : Heap} {bs : List Block} {size : UInt32}

/-- Sizes near `2^32`, where the sum with the header wraps, fail like any size that is too large. -/
theorem gcAllocVo_wraps (hlarge : 2 ^ 32 - 12 < size.toNat) : gcAllocVo h size = (h, none) := by
  have hlt := size.toNat_lt
  have hwraps : gcAlign8 ((hmuSize + size.toNat) % 2 ^ 32) < size.toNat := by
    unfold gcAlign8 hmuSize
    omega
  exact if_pos hwraps

private theorem gcAllocVo_eq (hc : Consistent h bs) (hsmall : size.toNat ≤ 2 ^ 32 - 12) :
    gcAllocVo h size = finishVo size.toNat (hmuSize + size.toNat) (allocHmu h (totSize size)) := by
  have hsum : (hmuSize + (size.toNat : ℤ)) % 2 ^ 32 = hmuSize + size.toNat := by
    rw [hmuSize]
    omega
  have htot : gcAlign8 (hmuSize + size.toNat) = (size.toNat + 11) / 8 * 8 := by
    rw [gcAlign8,hmuSize]
    omega
  unfold gcAllocVo
  simp only [hsum,htot]
  rw [if_neg (by omega),if_neg (by rw [hc.intact]; decide),allocHmu_max,totSize]

theorem Divided.allocated {p rest q : List Block} {s t : ℤ} (hd : Divided h h₂ p t rest q)
    (hc : Consistent h (p ++ ⟨s, true⟩::q)) (hsmall : size.toNat ≤ 2 ^ 32 - 12) (hfits : totSize size ≤ s)
    (hleast : ∀ b ∈ p ++ ⟨s, true⟩::q, b.free = true → totSize size ≤ b.size → s ≤ b.size)
    (hcarve : carve gcSmallestSize (totSize size) s = ⟨t, false⟩::rest) (ht : Fits t) (hle : totSize size ≤ t)
    (halloc : allocHmu h (totSize size) = (h₂, some (h.baseAddr + total p))) :
    ∃ h', Allocated h h' (p ++ ⟨s, true⟩::q) size p s t rest q := by
  obtain ⟨hmin,-,hobj⟩ := totSize_bounds size
  have hsum : t + total rest = s := by
    have htotal := total_carve gcSmallestSize (totSize size) s
    rw [hcarve,total_cons] at htotal
    exact htotal
  have hrest : freeTotal rest = total rest := by
    unfold Arena.carve at hcarve
    split at hcarve
    · rw [← (List.cons.inj hcarve).2]
      simp
    · rw [← (List.cons.inj hcarve).2]
      rfl
  have hpos := (layout_append.mp hd.layout).1.pos
  have hnonneg := total_nonneg hpos
  have hresult := gcAllocVo_eq hc hsmall
  rw [halloc] at hresult
  have hsize : hmuGetSize (h₂.header (h.baseAddr + total p)) = t := by
    rw [hd.header,hmuGetSize_setSize _ ht]
  simp only [finishVo,hsize,hmuSize] at hresult
  have hplace := mem_place_middle h.baseAddr p ⟨s, true⟩ q
  generalize hx : h.baseAddr + total p = x at *
  generalize hh' : ({ setVo h₂ x with
    mem := memset (setVo h₂ x).mem (x + 4 + size.toNat) 0 (t - (4 + size.toNat)).toNat } : Heap) = h' at hresult
  have hmem : h'.mem = memset (setVo h₂ x).mem (x + 4 + size.toNat) 0 (t - (4 + size.toNat)).toNat := by
    rw [← hh']
  have hbytes (z : ℤ) (hz : z < x ∨ x + t ≤ z) : h'.mem z = h₂.mem z := by
    rw [hmem,memset,if_neg (by omega),setVo_mem,store32_outside _ _ (by omega)]
  have hheader : load32 h'.mem x = load32 (setVo h₂ x).mem x := by
    rw [hmem]
    exact (sameOn_memset (b := x + 4) _ 0 (.inl (by omega))).load32 le_rfl le_rfl
  refine ⟨h',rfl,hfits,hleast,hcarve,?_,?_,?_,?_,?_,?_⟩
  · rw [hx]
    exact hresult
  · apply hd.consistent hc ht (by omega) hsum hrest
    · rw [hx,← hh']
    · rw [hx]
      exact hheader
    · rw [hx]
      exact hbytes
  · rw [← hh']
    exact hd.baseAddr
  · rw [← hh']
    exact hd.currentSize
  · apply hc.layout.keeps hplace
    intro z hout hz
    have hp : Outside (FreeAt h.baseAddr p) z := hout.mono fun b u hF => freeAt_append.mpr (.inl hF)
    have hq : Outside (FreeAt (x + t + total rest) q) z := by
      rw [add_assoc,hsum]
      refine hout.mono fun b u hF => freeAt_append.mpr (.inr (freeAt_cons.mpr (.inr ?_)))
      rwa [hx]
    rw [hbytes z (by omega),hd.mem z hp (by rwa [hx]) (by rw [hx]; omega)]
  · intro z hz hz'
    rw [hx,hmuSize] at hz
    rw [hx] at hz'
    rw [hmem,memset,if_pos (by omega)]

/-- `gc_alloc_vo` gives a best fit, or changes nothing as no free chunk is large enough. -/
theorem gcAllocVo_spec (hc : Consistent h bs) (size : UInt32) :
    ((∀ b ∈ bs, b.free = true → b.size < totSize size) ∧ gcAllocVo h size = (h, none)) ∨
      ∃ h' p s t rest q, Allocated h h' bs size p s t rest q := by
  obtain ⟨hmin,h8,hobj⟩ := totSize_bounds size
  -- a free block is a free chunk of the layout
  have hfreeAt (b : Block) (hb : b ∈ bs) (hfree : b.free = true) : ∃ x, FreeAt h.baseAddr bs x b.size := by
    obtain ⟨p,q,rfl⟩ := List.append_of_mem hb
    obtain ⟨s,f⟩ := b
    simp only at hfree
    subst hfree
    exact ⟨_,mem_place_middle h.baseAddr p ⟨s, true⟩ q⟩
  by_cases hsmall : size.toNat ≤ 2 ^ 32 - 12
  · rcases allocHmu_spec hc.kfc hc.regions (fun x s hF => hc.align hF) hmin h8 with
      ⟨hnone,halloc⟩ | ⟨x,s,h₁,hpicked⟩
    · left
      rw [gcAllocVo_eq hc hsmall,halloc]
      refine ⟨?_,rfl⟩
      intro b hb hfree
      obtain ⟨x,hF⟩ := hfreeAt b hb hfree
      exact hnone x b.size hF
    · right
      obtain ⟨p,q,rfl,hx⟩ := exists_split hpicked.best.mem
      have htaken : Taken h h₁ p s q x := ⟨hc,hx.symm,hpicked.unlinked⟩
      have hfits := htaken.layout.1.fits
      have hle := hpicked.best.fits
      have hleast : ∀ b ∈ p ++ ⟨s, true⟩::q, b.free = true → totSize size ≤ b.size → s ≤ b.size := by
        intro b hb hfree hbig
        obtain ⟨y,hF⟩ := hfreeAt b hb hfree
        exact hpicked.best.least y b.size hF hbig
      have halloc := hpicked.alloc
      by_cases hsplit : totSize size + gcSmallestSize ≤ s
      · rw [decide_eq_true hsplit] at halloc
        rw [smallestSize_eq] at hsplit
        obtain ⟨h₂,hdivide,hdivided⟩ := htaken.split hmin h8 hsplit
        rw [hdivide,hx] at halloc
        have hcarve : carve gcSmallestSize (totSize size) s =
            [⟨totSize size, false⟩, ⟨s - totSize size, true⟩] := if_pos hsplit
        have hlt := hfits.lt
        simp only at hlt
        obtain ⟨h',hallocated⟩ :=
          hdivided.allocated hc hsmall hle hleast hcarve ⟨by omega,by omega,h8⟩ le_rfl halloc
        exact ⟨h',p,s,_,_,q,hallocated⟩
      · rw [decide_eq_false hsplit] at halloc
        obtain ⟨h₂,hdivide,hdivided⟩ := htaken.whole
        rw [hdivide,hx] at halloc
        have hcarve : carve gcSmallestSize (totSize size) s = [⟨s, false⟩] := if_neg hsplit
        obtain ⟨h',hallocated⟩ := hdivided.allocated hc hsmall hle hleast hcarve hfits hle halloc
        exact ⟨h',p,s,_,_,q,hallocated⟩
  · left
    refine ⟨?_,gcAllocVo_wraps (by omega)⟩
    intro b hb hfree
    obtain ⟨x,hF⟩ := hfreeAt b hb hfree
    have hbounds := place_bounds hc.layout.pos hF
    have hsize := hc.size
    have htotal := hc.total
    simp only at hbounds
    omega

end Result

end WamrTest.Ems
