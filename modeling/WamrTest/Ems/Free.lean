import WamrTest.Ems.Integrity

/-!
# Freeing

`gc_free_vo` joins a chunk with the free chunks before and behind it, keeps the heap consistent and
every other object as it is.
-/

namespace WamrTest.Ems

open Arena ByteMemory

/-- Free chunks are being unlinked; `G` are those that are still listed. -/
structure Joining (h h' : Heap) (bs : List Block) (G : ℤ → ℤ → Prop) : Prop where
  record : SameRecord h h'
  total : total bs = h.currentSize
  size : h.currentSize < 2 ^ 30
  layout : Layout h'.mem h.baseAddr none bs
  kfc : Kfc h' G
  listed : ∀ a s, G a s → FreeAt h.baseAddr bs a s
  mem : ∀ z, Outside (FreeAt h.baseAddr bs) z → h'.mem z = h.mem z

section Join

variable {h h' : Heap} {bs p q : List Block} {a s x : ℤ} {G : ℤ → ℤ → Prop}

theorem Joining.regions (hj : Joining h h' bs G) : Regions h' G := by
  have hl : Layout h'.mem h'.baseAddr none bs := by
    rw [hj.record.baseAddr]
    exact hj.layout
  have hreg := hl.regions (by rw [hj.record.currentSize]; exact hj.total) (by rw [hj.record.currentSize]; exact hj.size)
  rw [hj.record.baseAddr] at hreg
  exact hreg.sub hj.listed (.refl h')

theorem Joining.inHeap (hj : Joining h h' bs G) {b : Block} (hx : (x, b) ∈ place h.baseAddr bs) :
    h'.HmuIsInHeap x := by
  have hbounds := place_bounds hj.layout.pos hx
  have hpos := hj.layout.pos b (mem_of_place hx)
  have htotal := hj.total
  rw [Heap.HmuIsInHeap,Heap.endAddr,hj.record.baseAddr,hj.record.currentSize]
  omega

private theorem Joining.weaken (hj : Joining h h' bs G) (hnot : ∀ t, ¬ G a t) :
    Joining h h' bs fun b t => G b t ∧ b ≠ a := by
  refine ⟨hj.record,hj.total,hj.size,hj.layout,?_,fun b t hG => hj.listed b t hG.1,hj.mem⟩
  apply hj.kfc.iff
  intro b t
  constructor
  · exact fun hG => hG.1
  · intro hG
    refine ⟨hG,?_⟩
    rintro rfl
    exact hnot t hG

private theorem Joining.unlink (hj : Joining h h' bs G) (hG : G a s) :
    hmuGetUt (h'.header a) = hmuFc ∧ hmuGetSize (h'.header a) = s ∧
      ∃ h'', unlinkHmu h' a = (h'', true) ∧ Joining h h'' bs fun b t => G b t ∧ b ≠ a := by
  have hplace := hj.listed a s hG
  obtain ⟨_,hchunk⟩ := hj.layout.chunkAt hplace
  obtain ⟨h'',hunlink,hu⟩ := unlinkHmu_spec hj.kfc hj.regions hG hchunk.ut hchunk.size
  refine ⟨hchunk.ut,hchunk.size,h'',hunlink,hj.record.trans hu.record,hj.total,hj.size,?_,hu.kfc,
    fun b t hb => hj.listed b t hb.1,?_⟩
  · exact hj.layout.interiors (fun z _ _ hz => hu.mem z (hz.mono hj.listed)) nofun
  · intro z hz
    rw [hu.mem z (hz.mono hj.listed),hj.mem z hz]

theorem splitFree_reverse (p : List Block) :
    (∃ p₁ u, p = p₁ ++ [⟨u, true⟩] ∧ splitFree p.reverse = (u, p₁.reverse)) ∨
      (splitFree p.reverse = (0, p.reverse) ∧ lastPrev none p = none) := by
  induction p using List.reverseRecOn with
  | nil => exact .inr ⟨rfl,rfl⟩
  | append_singleton p b _ =>
    obtain ⟨u,f⟩ := b
    rw [List.reverse_append]
    cases f with
    | true => exact .inl ⟨p,u,rfl,rfl⟩
    | false => exact .inr ⟨rfl,lastPrev_append none p _⟩

private theorem lastPrev_of_free {m : Mem UInt8} {prev : Option ℤ} {u : ℤ} {rest : List Block}
    (hl : Layout m a prev (p ++ ⟨u, true⟩::rest)) : lastPrev prev p = none := by
  cases hprev : lastPrev prev p with
  | none => rfl
  | some v => exact absurd ((layout_append.mp hl).2.1.prev v hprev).2 (by simp)

theorem Joining.prev (hj : Joining h h' (p ++ ⟨s, false⟩::q) (FreeAt h.baseAddr (p ++ ⟨s, false⟩::q)))
    (hx : h.baseAddr + Arena.total p = x) :
    ∃ h'' p₁ pre, p = p₁ ++ pre ∧ OneFree pre ∧ splitFree p.reverse = (Arena.total pre, p₁.reverse) ∧
      lastPrev none p₁ = none ∧
      joinPrev h' x s = (h'', some (h.baseAddr + Arena.total p₁, s + Arena.total pre)) ∧
      Joining h h'' (p ++ ⟨s, false⟩::q) fun b t =>
        FreeAt h.baseAddr (p ++ ⟨s, false⟩::q) b t ∧ b ≠ h.baseAddr + Arena.total p₁ := by
  have hl := (layout_append.mp hj.layout).2
  rw [hx] at hl
  have hpinuse : hmuGetPinuse (h'.header x) = (lastPrev none p).isNone := hl.1.pinuse
  rw [joinPrev,hpinuse]
  rcases splitFree_reverse p with ⟨p₁,u,rfl,hsplit⟩ | ⟨hsplit,hlast⟩
  · have hlayout := hj.layout
    rw [List.append_assoc,List.singleton_append] at hlayout
    have hx₁ : x - u = h.baseAddr + Arena.total p₁ := by
      rw [← hx,total_append,total_cons,total_nil]
      simp only
      omega
    have hplace : (h.baseAddr + Arena.total p₁, (⟨u, true⟩ : Block)) ∈
        place h.baseAddr (p₁ ++ [⟨u, true⟩] ++ ⟨s, false⟩::q) := by
      rw [List.append_assoc,List.singleton_append]
      exact mem_place_middle _ _ _ _
    obtain ⟨hut,hsize,h'',hunlink,hjoin⟩ := hj.unlink hplace
    have hfits := hj.regions.fits _ _ hplace
    have hlt := hfits.lt
    have hnonneg := hfits.nonneg
    have hfoot : (h'.header (x - 4)).toInt = u := by
      rw [Heap.header,(hl.1.prev u (by rw [lastPrev_append]; rfl)).1]
      exact toInt_ofInt (by omega) (by omega)
    have hin := hj.inHeap hplace
    refine ⟨h'',p₁,[⟨u, true⟩],rfl,.inr ⟨u,rfl⟩,?_,lastPrev_of_free hlayout,?_,hjoin⟩
    · rw [hsplit]
      simp
    · rw [lastPrev_append,asPrev_free]
      simp only [Option.isNone_some,Bool.false_eq_true,if_false,hfoot,hx₁,hut,hin,and_self,if_true,hsize,
        hunlink]
      simp
  · rw [hlast]
    refine ⟨h',p,[],(List.append_nil p).symm,.inl rfl,hsplit,hlast,?_,?_⟩
    · simp [hx]
    · apply hj.weaken
      intro t hF
      have heq := place_inj hj.layout.pos hF (mem_place_middle h.baseAddr p ⟨s, false⟩ q)
      exact absurd (congrArg Block.free heq) (by simp)

/-- The chunk behind is joined and unlinked if it is free. -/
theorem Joining.next {y hmu size : ℤ} (hj : Joining h h' (p ++ q) G) (hy : h.baseAddr + Arena.total p = y)
    (hmu_next : hmu + size = y) (hG : ∀ t, FreeAt h.baseAddr (p ++ q) y t → G y t) :
    ∃ h'' post q₂, q = post ++ q₂ ∧ OneFree post ∧ splitFree q = (Arena.total post, q₂) ∧
      (∀ b, q₂.head? = some b → b.free = false) ∧
      joinNext h' hmu size = (h'', some (size + Arena.total post)) ∧
      Joining h h'' (p ++ q) fun b t => G b t ∧ b ≠ y := by
  have hl := (layout_append.mp hj.layout).2
  rw [joinNext,hmu_next]
  rcases splitFree_cases q with ⟨u,q₂,rfl,hsplit⟩ | ⟨hsplit,hhead⟩
  · have hplace := mem_place_middle h.baseAddr p ⟨u, true⟩ q₂
    rw [hy] at hplace
    obtain ⟨hut,hsize,h'',hunlink,hjoin⟩ := hj.unlink (hG u hplace)
    have hin := hj.inHeap hplace
    refine ⟨h'',[⟨u, true⟩],q₂,rfl,.inr ⟨u,rfl⟩,?_,?_,?_,hjoin⟩
    · rw [hsplit]
      simp
    · intro b hb
      cases q₂ with
      | nil => exact absurd hb (by simp)
      | cons c q₂ =>
        rw [← Option.some.inj hb]
        exact (hl.2.1.prev u rfl).2
    · simp only [hut,hin,and_self,if_true,hsize,hunlink]
      simp
  · have hnot (t : ℤ) : ¬ FreeAt h.baseAddr (p ++ q) y t := by
      intro hF
      rw [freeAt_append] at hF
      rcases hF with hF | hF
      · have hp : ∀ b ∈ p, 0 < b.size := fun b hb => hj.layout.pos b (List.mem_append_left _ hb)
        have hbounds := place_bounds hp hF
        have hpos := hp _ (mem_of_place hF)
        simp only at hbounds hpos
        omega
      · cases q with
        | nil => exact absurd hF not_freeAt_nil
        | cons b q =>
          have hb := hhead b rfl
          have hplace := mem_place_middle h.baseAddr p b q
          rw [hy] at hplace
          have heq := place_inj hj.layout.pos (by rw [place_append]; exact List.mem_append_right _ hF) hplace
          exact absurd (congrArg Block.free heq) (by simp [hb])
    refine ⟨h',[],q,rfl,.inl rfl,hsplit,hhead,?_,hj.weaken fun t hGt => hnot t (hj.listed y t hGt)⟩
    have hout : ¬ (h'.HmuIsInHeap y ∧ hmuGetUt (h'.header y) = hmuFc) := by
      rintro ⟨hin,hut⟩
      cases q with
      | nil =>
        have htotal := hj.total
        rw [List.append_nil] at htotal
        rw [Heap.HmuIsInHeap,Heap.endAddr,hj.record.baseAddr,hj.record.currentSize] at hin
        omega
      | cons b q =>
        rw [hy] at hl
        have hvo : hmuGetUt (h'.header y) = hmuVo := by
          rw [Heap.header,hl.1.ut,hhead b rfl]
          rfl
        rw [hvo] at hut
        exact absurd hut (by decide)
    rw [if_neg hout]
    simp

end Join

section Merge

variable {h h₂ : Heap} {p mid q : List Block} {freed x : ℤ} {G : ℤ → ℤ → Prop}

private theorem Layout.total_dvd {m : Mem UInt8} {a : ℤ} {prev : Option ℤ} (hl : Layout m a prev mid) :
    8 ∣ Arena.total mid := by
  induction mid generalizing a prev with
  | nil => exact dvd_zero 8
  | cons b mid ih =>
    rw [total_cons]
    exact Int.dvd_add hl.1.fits.aligned (ih hl.2)

private theorem Layout.le_total {m : Mem UInt8} {a : ℤ} {prev : Option ℤ} (hl : Layout m a prev mid)
    (hne : mid ≠ []) :
    16 ≤ Arena.total mid := by
  cases mid with
  | nil => exact absurd rfl hne
  | cons b mid =>
    have hmin := hl.1.smallest
    have hnonneg := total_nonneg hl.2.pos
    rw [total_cons]
    omega

/-- The chunks in the middle are about to become one. -/
structure Merging (h h₂ : Heap) (p mid q : List Block) (freed : ℤ) (G : ℤ → ℤ → Prop) : Prop where
  joining : Joining h h₂ (p ++ (mid ++ q)) G
  nonempty : mid ≠ []
  given : ∀ y c, (y, c) ∈ place (h.baseAddr + Arena.total p) mid → c.free = false → y = freed
  before : lastPrev none p = none
  behind : ∀ b, q.head? = some b → b.free = false
  listed : ∀ b t, G b t ↔
    FreeAt h.baseAddr p b t ∨ FreeAt (h.baseAddr + Arena.total p + Arena.total mid) q b t

private theorem Merging.layouts (hm : Merging h h₂ p mid q freed G) : Layout h₂.mem h.baseAddr none p ∧
    Layout h₂.mem (h.baseAddr + Arena.total p) none mid ∧
    Layout h₂.mem (h.baseAddr + Arena.total p + Arena.total mid) (lastPrev none mid) q := by
  obtain ⟨hp,hrest⟩ := layout_append.mp hm.joining.layout
  rw [hm.before] at hrest
  obtain ⟨hmid,hq⟩ := layout_append.mp hrest
  exact ⟨hp,hmid,hq⟩

private theorem Merging.end_eq (hm : Merging h h₂ p mid q freed G) :
    h.baseAddr + Arena.total p + Arena.total mid + Arena.total q = h₂.endAddr := by
  have htotal := hm.joining.total
  rw [total_append,total_append] at htotal
  rw [Heap.endAddr,hm.joining.record.baseAddr,hm.joining.record.currentSize]
  omega

theorem Merging.far (hm : Merging h h₂ p mid q freed G) {b t : ℤ} (hG : G b t) :
    h.baseAddr ≤ b ∧ b + t ≤ h.baseAddr + Arena.total p ∨
      h.baseAddr + Arena.total p + Arena.total mid ≤ b := by
  obtain ⟨hp,-,hq⟩ := hm.layouts
  rcases (hm.listed b t).mp hG with hF | hF
  · exact .inl (place_bounds hp.pos hF)
  · exact .inr (place_bounds hq.pos hF).1

theorem Merging.fresh (hm : Merging h h₂ p mid q freed G) :
    Fresh h₂ G (h.baseAddr + Arena.total p) (Arena.total mid) := by
  obtain ⟨hp,hmid,hq⟩ := hm.layouts
  have hmin := hmid.le_total hm.nonempty
  have hpn := total_nonneg hp.pos
  have hqn := total_nonneg hq.pos
  have hend := hm.end_eq
  have hsize := hm.joining.size
  refine ⟨?_,hmin,⟨by omega,?_,hmid.total_dvd⟩,?_⟩
  · rw [hm.joining.record.baseAddr]
    omega
  · rw [Heap.endAddr,hm.joining.record.baseAddr,hm.joining.record.currentSize] at hend
    omega
  · intro b t hG
    have hover := hm.far hG
    omega

/-- The chunks in the middle are one free chunk, and the next chunk knows. -/
structure Merged (h h' : Heap) (p : List Block) (s : ℤ) (q bs : List Block) (freed : ℤ) : Prop where
  record : SameRecord h h'
  layout : Layout h'.mem h.baseAddr none (p ++ ⟨s, true⟩::q)
  kfc : Kfc h' (FreeAt h.baseAddr (p ++ ⟨s, true⟩::q))
  keeps : Keeps h.baseAddr bs (some freed) h.mem h'.mem

/-- Behind the links of a free chunk nothing is written, and a chunk of the tree has its node. -/
structure Inside (h h' : Heap) (G : ℤ → ℤ → Prop) (a s : ℤ) : Prop where
  kept : ∀ z, a + linkEnd s ≤ z → z < a + s - 4 → h'.mem z = h.mem z
  node : hmuFcNormalMaxSize ≤ s → ∃ parent, NodeAt h'.mem a s none none parent ∧
    (parent = h.kfcTreeRoot ∨ ∃ t, G parent t ∧ hmuFcNormalMaxSize ≤ t)

theorem Merging.outside (hm : Merging h h₂ p mid q freed G) {z : ℤ} (hp : Outside (FreeAt h.baseAddr p) z)
    (hq : Outside (FreeAt (h.baseAddr + Arena.total p + Arena.total mid) q) z) : Outside G z := by
  intro b t hG
  rcases (hm.listed b t).mp hG with hF | hF
  · exact hp b t hF
  · exact hq b t hF

/-- What is written when a chunk of `s` bytes at `x` is listed and the chunks `q` behind it are told. -/
structure Rewritten (h₂ h₄ : Heap) (G : ℤ → ℤ → Prop) (x s : ℤ) (q : List Block) : Prop where
  mem : ∀ z, Outside G z → z < x ∨ x + s + 4 ≤ z → h₄.mem z = h₂.mem z
  header : load32 h₄.mem x = hmuSetSize s (hmuSetUt hmuFc (h₂.header x))
  footer : load32 h₄.mem (x + s - 4) = BitVec.ofInt 32 s
  next : q ≠ [] → load32 h₄.mem (x + s) = hmuUnmarkPinuse (load32 h₂.mem (x + s))

private theorem Merging.outside_before (hm : Merging h h₂ p mid q freed G) {z : ℤ}
    (hz : h.baseAddr + Arena.total p ≤ z) : Outside (FreeAt h.baseAddr p) z :=
  hm.layouts.1.outside_arena (.inr hz)

private theorem Merging.rewritten {h₃ h₄ : Heap} (hm : Merging h h₂ p mid q freed G)
    (hadded : Added h₂ h₃ G (h.baseAddr + Arena.total p) (Arena.total mid))
    (ht : Touched h₃ h₄ (h.baseAddr + Arena.total p + Arena.total mid) hmuUnmarkPinuse) :
    Rewritten h₂ h₄ G (h.baseAddr + Arena.total p) (Arena.total mid) q := by
  obtain ⟨-,-,hq⟩ := hm.layouts
  have hmin := hm.fresh.smallest
  have hbefore {z : ℤ} := hm.outside_before (z := z)
  have houtside {z : ℤ} := hm.outside (z := z)
  have hend := hm.end_eq
  have hbounds := hm.fresh.bounds
  generalize h.baseAddr + Arena.total p = x at *
  generalize Arena.total mid = s at *
  have hword (b : ℤ) (hb : b + 4 ≤ x + s) : load32 h₄.mem b = load32 h₃.mem b := by
    have hsame : SameOn b (b + 4) h₃.mem h₄.mem := fun z hz hz' => ht.mem z (by omega)
    exact hsame.load32 le_rfl le_rfl
  refine ⟨?_,?_,?_,?_⟩
  · intro z hG hz
    rw [ht.mem z (by omega),hadded.mem z hG (by omega)]
  · rw [hword x (by omega)]
    exact hadded.header
  · rw [hword _ (by omega)]
    exact hadded.footer
  · intro hne
    have hin : h₃.HmuIsInHeap (x + s) := by
      have hpos := total_pos hq.pos hne
      have hend₃ : h₃.endAddr = h₂.endAddr := by
        rw [Heap.endAddr,Heap.endAddr,hadded.record.baseAddr,hadded.record.currentSize]
      rw [Heap.HmuIsInHeap,hend₃,hadded.record.baseAddr]
      omega
    obtain ⟨b,q',rfl⟩ := List.exists_cons_of_ne_nil hne
    have hsame : SameOn (x + s) (x + s + 4) h₂.mem h₃.mem := by
      intro z hz hz'
      exact hadded.mem z (houtside (hbefore (by omega)) (hq.outside_header List.mem_cons_self hz hz')) (.inr hz)
    rw [ht.header hin,hsame.load32 le_rfl le_rfl]

private theorem Merging.layout {h₄ : Heap} (hm : Merging h h₂ p mid q freed G)
    (hw : Rewritten h₂ h₄ G (h.baseAddr + Arena.total p) (Arena.total mid) q) :
    Layout h₄.mem h.baseAddr none (p ++ ⟨Arena.total mid, true⟩::q) := by
  obtain ⟨-,hmid,hq⟩ := hm.layouts
  have hfits := hm.fresh.fits
  have hmin := hm.fresh.smallest
  have hbefore {z : ℤ} := hm.outside_before (z := z)
  have hafter {z : ℤ} (hz : z < h.baseAddr + Arena.total p + Arena.total mid) := hq.outside_arena (.inl hz)
  have hpinuse : hmuGetPinuse (h₂.header (h.baseAddr + Arena.total p)) = true := by
    cases hmid' : mid with
    | nil => exact absurd hmid' hm.nonempty
    | cons b rest =>
      rw [hmid'] at hmid
      exact hmid.1.pinuse
  refine hm.joining.layout.replace ?_ ?_
  · intro z _ hz hzp
    exact hw.mem z (hm.outside hzp (hafter (by omega))) (.inl hz)
  rw [hm.before]
  constructor
  · refine ⟨?_,?_,?_,by simp,by simp,hmin,hfits⟩
    · rw [hw.header,hmuGetSize_setSize _ hfits]
    · rw [hw.header,hmuGetUt_setSize _ hfits,hmuGetUt_setUt _ (by decide)]
      rfl
    · rw [hw.header,hmuGetPinuse_setSize _ hfits,hmuGetPinuse_setUt _ (by decide),hpinuse]
      rfl
  · have hbehind := hm.behind
    cases q with
    | nil => trivial
    | cons b q =>
      have hload := hw.next (by simp)
      apply hq.changePrev
      · intro z hz _ hzq
        exact hw.mem z (hm.outside (hbefore (by omega)) hzq) (.inr hz)
      · rw [hload,hmuGetSize_unmarkPinuse]
      · rw [hload,hmuGetUt_unmarkPinuse]
      · rw [hload,hmuIsVoFreed_unmarkPinuse]
      · rw [hload,hmuGetPinuse_unmarkPinuse]
        rfl
      · intro t hst
        rw [← Option.some.inj hst]
        exact ⟨hw.footer,hbehind b rfl⟩

private theorem Merging.keeps {h₄ : Heap} (hm : Merging h h₂ p mid q freed G)
    (hw : Rewritten h₂ h₄ G (h.baseAddr + Arena.total p) (Arena.total mid) q) :
    Keeps h.baseAddr (p ++ (mid ++ q)) (some freed) h.mem h₄.mem := by
  obtain ⟨hp,-,hq⟩ := hm.layouts
  intro y c hy hused hne z hz hz'
  have hzout := hm.joining.layout.outside_used hy hused (by omega) hz'
  rw [← hm.joining.mem z hzout]
  apply hw.mem z (hzout.mono hm.joining.listed)
  rw [place_append,place_append] at hy
  rcases List.mem_append.mp hy with hy | hy
  · have hbounds := place_bounds hp.pos hy
    omega
  · rcases List.mem_append.mp hy with hy | hy
    · exact absurd (congrArg some (hm.given y c hy hused).symm) hne
    · have hbounds := place_bounds hq.pos hy
      omega

private theorem Merging.kfc {h₃ h₄ : Heap} (hm : Merging h h₂ p mid q freed G)
    (hadded : Added h₂ h₃ G (h.baseAddr + Arena.total p) (Arena.total mid))
    (ht : Touched h₃ h₄ (h.baseAddr + Arena.total p + Arena.total mid) hmuUnmarkPinuse) :
    Kfc h₄ (FreeAt h.baseAddr (p ++ ⟨Arena.total mid, true⟩::q)) := by
  have hkfc : Kfc h₄ fun b t => G b t ∨ (b = h.baseAddr + Arena.total p ∧ t = Arena.total mid) := by
    refine hadded.kfc.touch (hm.fresh.regions hm.joining.regions).smallest ht ?_
    rintro b t (hG | ⟨rfl,rfl⟩)
    · have hover := hm.far hG
      have hmin := hm.fresh.smallest
      omega
    · exact .inl le_rfl
  apply hkfc.iff
  intro b t
  rw [hm.listed b t,freeAt_append,freeAt_cons]
  simp only [Block.mk.injEq,and_true,eq_comm (a := Arena.total mid)]
  tauto

theorem Merging.merge (hm : Merging h h₂ p mid q freed G) :
    ∃ h₃, gciAddFc h₂ (h.baseAddr + Arena.total p) (Arena.total mid) = (h₃, true) ∧
      ∀ h₄, Touched h₃ h₄ (h.baseAddr + Arena.total p + Arena.total mid) hmuUnmarkPinuse →
        Merged h h₄ p (Arena.total mid) q (p ++ (mid ++ q)) freed ∧
          Inside h₂ h₄ G (h.baseAddr + Arena.total p) (Arena.total mid) := by
  obtain ⟨h₃,hadd,hadded⟩ := gciAddFc_spec hm.joining.kfc hm.joining.regions hm.fresh
  refine ⟨h₃,hadd,?_⟩
  intro h₄ ht
  have hw := hm.rewritten hadded ht
  have hmin := hm.fresh.smallest
  refine ⟨⟨hm.joining.record.trans (hadded.record.trans ht.record),hm.layout hw,hm.kfc hadded ht,hm.keeps hw⟩,?_,?_⟩
  · intro z hz hz'
    have hlink : 0 ≤ linkEnd (Arena.total mid) := by
      unfold linkEnd
      split <;> decide
    rw [ht.mem z (by omega),hadded.inner z hz hz']
  · intro hbig
    obtain ⟨parent,hnode,hparent⟩ := hadded.node hbig
    rw [normalMaxSize_eq] at hbig
    refine ⟨parent,hnode.congr ?_,hparent⟩
    exact fun z hz hz' => ht.mem z (by omega)

end Merge

/-- What is left of the header at `x` where its chunk has joined the free chunk of `u` bytes before it. The
links of the `joined` bytes may reach over it: the right child, which is null, or the parent, which is the root
or a chunk of `F`. -/
structure Remains (h h' : Heap) (F : ℤ → ℤ → Prop) (x u joined : ℤ) : Prop where
  kept : linkEnd joined ≤ u → h'.header x = h.header x
  right : hmuFcNormalMaxSize ≤ joined → u = 16 → h'.header x = 0#32
  parent : hmuFcNormalMaxSize ≤ joined → u = 24 → h'.header (x - 4) = 0#32 ∧
    ∃ parent, h'.header x = (pointer (some parent)).setWidth 32 ∧
      (parent = h'.kfcTreeRoot ∨ ∃ t, F parent t ∧ hmuFcNormalMaxSize ≤ t)

/-- The object behind `p` is given back. -/
structure Freed (h h' : Heap) (p : List Block) (s : ℤ) (q : List Block) : Prop where
  result : gcFreeVo h (h.baseAddr + total p + hmuSize) = (h', gcSuccess)
  consistent : Consistent h' (release p s q)
  baseAddr : h'.baseAddr = h.baseAddr
  currentSize : h'.currentSize = h.currentSize
  kfcTreeRoot : h'.kfcTreeRoot = h.kfcTreeRoot
  keeps : Keeps h.baseAddr (p ++ ⟨s, false⟩::q) (some (h.baseAddr + total p)) h.mem h'.mem
  remains : ∀ u, lastPrev none p = some u →
    Remains h h' (FreeAt h.baseAddr (release p s q)) (h.baseAddr + total p) u (u + s + (splitFree q).1)

section Result

variable {h h₂ : Heap} {p p₁ pre q post q₂ : List Block} {s x : ℤ}

theorem Inside.remains {h' : Heap} {F G : ℤ → ℤ → Prop} {a u joined : ℤ} (hi : Inside h₂ h' G a joined)
    (hx : x = a + u) (hend : u + 8 ≤ joined) (hheader : h₂.header x = h.header x)
    (hroot : h'.kfcTreeRoot = h₂.kfcTreeRoot) (hF : ∀ b t, G b t → F b t) : Remains h h' F x u joined := by
  subst hx
  refine ⟨?_,?_,?_⟩
  · intro hle
    have hsame : SameOn (a + u) (a + u + 4) h₂.mem h'.mem := fun z hz hz' => hi.kept z (by omega) (by omega)
    rw [← hheader]
    exact hsame.load32 le_rfl le_rfl
  · rintro hbig rfl
    obtain ⟨parent,hnode,-⟩ := hi.node hbig
    rw [Heap.header,← load64_setWidth,hnode.right]
    rfl
  · rintro hbig rfl
    obtain ⟨parent,hnode,hparent⟩ := hi.node hbig
    have hhigh : a + 24 - 4 = a + 16 + 4 := by omega
    refine ⟨?_,parent,?_,?_⟩
    · rw [Heap.header,hhigh,← load64_extractLsb',hnode.right]
      rfl
    · rw [Heap.header,← load64_setWidth,hnode.parent]
    · rw [hroot]
      rcases hparent with hparent | ⟨t,hG,ht⟩
      · exact .inl hparent
      · exact .inr ⟨t,hF parent t hG,ht⟩

private theorem listed_iff (hpos : ∀ b ∈ p₁ ++ (pre ++ ⟨s, false⟩::post ++ q₂), 0 < b.size) (hpre : OneFree pre)
    (hpost : OneFree post) (hbehind : ∀ b, q₂.head? = some b → b.free = false) {a b t : ℤ} :
    (FreeAt a (p₁ ++ (pre ++ ⟨s, false⟩::post ++ q₂)) b t ∧ b ≠ a + total p₁) ∧
        b ≠ a + total p₁ + total pre + s ↔
      FreeAt a p₁ b t ∨ FreeAt (a + total p₁ + total (pre ++ ⟨s, false⟩::post)) q₂ b t := by
  have hp : ∀ b ∈ p₁, 0 < b.size := fun b hb => hpos b (List.mem_append_left _ hb)
  have hmid : ∀ b ∈ pre ++ ⟨s, false⟩::post, 0 < b.size :=
    fun b hb => hpos b (List.mem_append_right _ (List.mem_append_left _ hb))
  have hq : ∀ b ∈ q₂, 0 < b.size :=
    fun b hb => hpos b (List.mem_append_right _ (List.mem_append_right _ hb))
  have hs := hmid ⟨s, false⟩ (List.mem_append_right _ List.mem_cons_self)
  have hpren := total_nonneg fun b hb => hmid b (List.mem_append_left _ hb)
  have hpostn := total_nonneg fun b hb => hmid b (List.mem_append_right _ (List.mem_cons_of_mem _ hb))
  simp only at hs
  rw [freeAt_append,freeAt_append,freeAt_append,freeAt_cons]
  constructor
  · rintro ⟨⟨hF | ((hF | ⟨-,heq⟩ | hF) | hF),hne⟩,hne'⟩
    · exact .inl hF
    · exact absurd (hpre.eq_of_place hF).1 hne
    · exact absurd (congrArg Block.free heq) (by simp)
    · exact absurd (hpost.eq_of_place hF).1 hne'
    · exact .inr hF
  · rintro (hF | hF)
    · have hbounds := place_bounds hp hF
      have ht := hp _ (mem_of_place hF)
      simp only at hbounds ht
      exact ⟨⟨.inl hF,by omega⟩,by omega⟩
    · have hlt := hF.lt hq hbehind
      rw [total_append,total_cons] at hlt
      simp only at hlt
      exact ⟨⟨.inr (.inr hF),by omega⟩,by omega⟩

private theorem release_eq (s : ℤ) (hp : splitFree p.reverse = (total pre, p₁.reverse))
    (hq : splitFree q = (total post, q₂)) :
    release p s q = p₁ ++ ⟨s + total pre + total post, true⟩::q₂ := by
  have hcomm : total pre + s + total post = s + total pre + total post := by omega
  rw [release,hp,hq,List.reverse_reverse,hcomm]

theorem Merged.consistent {h₀ : Heap} (hm : Merged h₀ h₂ p₁ (s + total pre + total post) q₂ (p ++ ⟨s, false⟩::q) x)
    (hc : Consistent h (p ++ ⟨s, false⟩::q)) (hset : h₀ = { h with totalFreeSize := h.totalFreeSize + s })
    (hp : splitFree p.reverse = (total pre, p₁.reverse)) (hq : splitFree q = (total post, q₂)) :
    Consistent h₂ (release p s q) := by
  have hs := hc.layout.pos ⟨s, false⟩ (List.mem_append_right _ List.mem_cons_self)
  simp only at hs
  have hrelease := release_eq s hp hq
  have htotal := total_release p s q
  have hfree := freeTotal_release p s q
  have hold := hc.free
  have hsum := hc.total
  have hused := hc.used
  have hhigh := hc.highmark
  rw [freeTotal_append,freeTotal_cons,if_neg (by simp)] at hold
  rw [total_append,total_cons] at hsum
  simp only at hsum
  have hbase : h₂.baseAddr = h.baseAddr := by rw [hm.record.baseAddr,hset]
  have hsize : h₂.currentSize = h.currentSize := by rw [hm.record.currentSize,hset]
  have htotalFree : h₂.totalFreeSize = h.totalFreeSize + s := by rw [hm.record.totalFreeSize,hset]
  have hhighmark : h₂.highmarkSize = h.highmarkSize := by rw [hm.record.highmarkSize,hset]
  have hbase₀ : h₀.baseAddr = h.baseAddr := by rw [hset]
  have hlayout := hm.layout
  have hkfc := hm.kfc
  rw [hbase₀,← hrelease] at hlayout hkfc
  refine ⟨hbase ▸ hlayout,?_,hsize ▸ hc.size,hbase ▸ hc.positive,hbase ▸ hc.aligned,hbase ▸ hkfc,?_,?_,?_,?_⟩
  · rw [htotal,hsize]
    omega
  · rw [hm.record.isHeapCorrupted,hset]
    exact hc.intact
  · rw [htotalFree,hfree]
    omega
  · rw [hsize,htotalFree,hhighmark]
    omega
  · rw [hsize,hhighmark]
    exact hhigh

private theorem merging_of_joining {h₀ : Heap} (hj : Joining h₀ h₂ (p₁ ++ (pre ++ ⟨s, false⟩::post ++ q₂)) fun b t =>
      (FreeAt h₀.baseAddr (p₁ ++ (pre ++ ⟨s, false⟩::post ++ q₂)) b t ∧ b ≠ h₀.baseAddr + total p₁) ∧
        b ≠ h₀.baseAddr + total p₁ + total pre + s)
    (hpre : OneFree pre) (hpost : OneFree post) (hlast : lastPrev none p₁ = none)
    (hbehind : ∀ b, q₂.head? = some b → b.free = false) (hx : h₀.baseAddr + total p₁ + total pre = x) :
    Merging h₀ h₂ p₁ (pre ++ ⟨s, false⟩::post) q₂ x fun b t =>
      (FreeAt h₀.baseAddr (p₁ ++ (pre ++ ⟨s, false⟩::post ++ q₂)) b t ∧ b ≠ h₀.baseAddr + total p₁) ∧
        b ≠ h₀.baseAddr + total p₁ + total pre + s := by
  refine ⟨hj,by simp,?_,hlast,hbehind,fun b t => listed_iff hj.layout.pos hpre hpost hbehind⟩
  intro y c hy hused
  rw [place_append,place] at hy
  rcases List.mem_append.mp hy with hy | hy
  · exact absurd (hpre.eq_of_place hy).2 (by simp [hused])
  · rcases List.mem_cons.mp hy with heq | hy
    · exact (Prod.mk.inj heq).1.trans hx
    · exact absurd (hpost.eq_of_place hy).2 (by simp [hused])

private theorem total_of_lastPrev (hpre : OneFree pre) (hlast : lastPrev none p₁ = none) {u : ℤ}
    (hu : lastPrev none (p₁ ++ pre) = some u) : total pre = u := by
  rcases hpre with rfl | ⟨v,rfl⟩
  · rw [List.append_nil,hlast] at hu
    exact absurd hu (by simp)
  · rw [lastPrev_append,asPrev_free] at hu
    rw [← Option.some.inj hu]
    simp

private theorem Consistent.counted (hc : Consistent h (p ++ ⟨s, false⟩::q)) :
    (h.totalFreeSize + s) % 2 ^ 32 = h.totalFreeSize + s := by
  have hpos := hc.layout.pos
  have hs := hpos ⟨s, false⟩ (List.mem_append_right p List.mem_cons_self)
  have hp := Arena.freeTotal_bounds fun b hb => hpos b (List.mem_append_left _ hb)
  have hq := Arena.freeTotal_bounds fun b hb => hpos b (List.mem_append_right p (List.mem_cons_of_mem _ hb))
  have hfree := hc.free
  have htotal := hc.total
  have hsize := hc.size
  rw [freeTotal_append,freeTotal_cons,if_neg (by simp)] at hfree
  rw [total_append,total_cons] at htotal
  simp only at hs htotal
  exact Int.emod_eq_of_lt (by omega) (by omega)

theorem gcFreeVo_spec (hc : Consistent h (p ++ ⟨s, false⟩::q)) : ∃ h', Freed h h' p s q := by
  have hl := (layout_append.mp hc.layout).2
  have hplace := mem_place_middle h.baseAddr p ⟨s, false⟩ q
  have hbounds := place_bounds hc.layout.pos hplace
  have hmin := hl.1.smallest
  have htotal := hc.total
  have hpositive := hc.positive
  have hsize := hc.size
  simp only at hbounds hmin
  have hsum := hc.counted
  generalize hx : h.baseAddr + total p = x at *
  generalize hh₀ : ({ h with totalFreeSize := h.totalFreeSize + s } : Heap) = h₀
  have hbase₀ : h₀.baseAddr = h.baseAddr := by rw [← hh₀]
  have hstart : Joining h₀ h₀ (p ++ ⟨s, false⟩::q) (FreeAt h₀.baseAddr (p ++ ⟨s, false⟩::q)) := by
    rw [← hh₀]
    exact ⟨.refl _,htotal,hsize,hc.layout,hc.kfc.congr hc.regions.smallest rfl rfl rfl fun _ _ _ => .refl _ _ _,
      fun _ _ hF => hF,fun _ _ => rfl⟩
  have hx₀ : h₀.baseAddr + total p = x := by rw [hbase₀]; exact hx
  obtain ⟨h₁,p₁,pre,hp,hpre,hsplitp,hlast,hprev,hj₁⟩ := hstart.prev hx₀
  rw [hbase₀] at hprev hj₁
  have htotalp : total p = total p₁ + total pre := by rw [hp,total_append]
  have hpren : 0 ≤ total pre := by
    apply total_nonneg
    intro b hb
    apply hc.layout.pos b
    rw [hp]
    exact List.mem_append_left _ (List.mem_append_right _ hb)
  rw [List.append_cons] at hj₁
  have hy : h₀.baseAddr + total (p ++ [⟨s, false⟩]) = x + s := by
    rw [hbase₀,total_append,total_cons,total_nil]
    simp only
    omega
  have hmu_next : h.baseAddr + total p₁ + (s + total pre) = x + s := by omega
  obtain ⟨h₂,post,q₂,hq,hpost,hsplitq,hbehind,hnext,hj₂⟩ := hj₁.next hy hmu_next
    fun t hF => ⟨by rwa [hbase₀] at hF,by omega⟩
  -- the chunks that become one
  have hblocks : p ++ [⟨s, false⟩] ++ q = p₁ ++ (pre ++ ⟨s, false⟩::post ++ q₂) := by
    rw [hp,hq]
    simp
  have hmem₂ := hj₂.mem
  rw [← List.append_cons,hbase₀,← hh₀] at hmem₂
  rw [hblocks] at hj₂
  have hy₂ : x + s = h₀.baseAddr + total p₁ + total pre + s := by omega
  rw [← hbase₀,hy₂] at hj₂
  have hmerging := merging_of_joining hj₂ hpre hpost hlast hbehind (x := x) (by omega)
  obtain ⟨h₃,hadd,hmerge⟩ := hmerging.merge
  have hmid : total (pre ++ ⟨s, false⟩::post) = s + total pre + total post := by
    rw [total_append,total_cons]
    simp only
    omega
  rw [hbase₀,hmid] at hadd hmerge
  obtain ⟨hmerged,hinside⟩ := hmerge _ (touched h₃ _ _)
  generalize hh₄ : (if h₃.HmuIsInHeap (h.baseAddr + total p₁ + (s + total pre + total post)) then
    h₃.setHeader (h.baseAddr + total p₁ + (s + total pre + total post)) hmuUnmarkPinuse else h₃) = h₄
    at hmerged hinside
  rw [← hblocks,← List.append_cons] at hmerged
  have hroot : h₄.kfcTreeRoot = h.kfcTreeRoot := by rw [hmerged.record.kfcTreeRoot,← hh₀]
  refine ⟨h₄,?_,?_,hmerged.record.baseAddr.trans hbase₀,?_,hroot,?_,?_⟩
  · have hin : h.HmuIsInHeap x := by
      rw [Heap.HmuIsInHeap,Heap.endAddr]
      omega
    have hut : hmuGetUt (h.header x) = hmuVo := hl.1.ut
    have hunfreed : hmuIsVoFreed (h.header x) = false := hl.1.unfreed rfl
    have hgetSize : hmuGetSize (h.header x) = s := hl.1.size
    have hne : x + hmuSize ≠ 0 := by
      rw [hmuSize]
      omega
    rw [hx]
    unfold gcFreeVo
    simp only [add_sub_cancel_right]
    rw [if_neg hne,if_neg (by rw [hc.intact]; decide),if_neg (not_not.mpr hin),if_neg (not_not.mpr hut),
      if_neg (by rw [hunfreed]; decide)]
    simp only [hgetSize,hsum,hh₀,hprev,hnext,hadd,hh₄]
  · exact hmerged.consistent hc hh₀.symm hsplitp hsplitq
  · rw [hmerged.record.currentSize,← hh₀]
  · have hkeeps := hmerged.keeps
    rw [← hh₀] at hkeeps
    rw [hx]
    exact hkeeps
  · intro u hu
    rw [hp] at hu
    have hpreu := total_of_lastPrev hpre hlast hu
    have hpostn : 0 ≤ total post := by
      apply total_nonneg
      intro b hb
      apply hc.layout.pos b
      rw [hq]
      exact List.mem_append_right _ (List.mem_cons_of_mem _ (List.mem_append_left _ hb))
    have hheader : h₂.header x = h.header x := by
      have hsame : SameOn x (x + 4) h.mem h₂.mem := by
        intro z hz hz'
        exact hmem₂ z (hc.layout.outside_header hplace hz hz')
      exact hsame.load32 le_rfl le_rfl
    have hsplit : (splitFree q).1 = total post := by rw [hsplitq]
    have hjoined : u + s + total post = s + total pre + total post := by omega
    rw [hx,hsplit,hjoined]
    refine hinside.remains (by omega) (by omega) hheader ?_ ?_
    · rw [hroot,hj₂.record.kfcTreeRoot,← hh₀]
    · intro b t hG
      rw [release_eq s hsplitp hsplitq]
      rw [← hbase₀] at hG
      rcases (hmerging.listed b t).mp hG with hF | hF
      · rw [hbase₀] at hF
        exact freeAt_append.mpr (.inl hF)
      · rw [hbase₀,hmid] at hF
        exact freeAt_append.mpr (.inr (freeAt_cons.mpr (.inr hF)))

end Result

end WamrTest.Ems
