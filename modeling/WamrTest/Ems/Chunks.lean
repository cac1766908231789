import WamrTest.Ems.Kfc
import WamrTest.Framework.Arena

/-!
# The chunks of a heap

What the pool looks like between two calls: chunks without a gap between them, each header with
the size and the type of its chunk and with the bit for the chunk before. A free chunk ends with
its size and is followed by a chunk in use.
-/

namespace WamrTest.Ems

open Arena ByteMemory

/-- The size of a chunk as the next one finds it, if it is free. -/
def asPrev (b : Block) : Option ℤ := if b.free then some b.size else none

structure ChunkAt (m : Mem UInt8) (a : ℤ) (prev : Option ℤ) (b : Block) : Prop where
  size : hmuGetSize (load32 m a) = b.size
  ut : hmuGetUt (load32 m a) = if b.free then hmuFc else hmuVo
  pinuse : hmuGetPinuse (load32 m a) = prev.isNone
  prev : ∀ s, prev = some s → load32 m (a - 4) = BitVec.ofInt 32 s ∧ b.free = false
  unfreed : b.free = false → hmuIsVoFreed (load32 m a) = false
  smallest : 16 ≤ b.size
  fits : Fits b.size

def Layout (m : Mem UInt8) : ℤ → Option ℤ → List Block → Prop
  | _, _, [] => True
  | a, prev, b::bs => ChunkAt m a prev b ∧ Layout m (a + b.size) (asPrev b) bs

/-- What the chunk after the blocks finds before it. -/
def lastPrev : Option ℤ → List Block → Option ℤ
  | prev, [] => prev
  | _, b::bs => lastPrev (asPrev b) bs

variable {m m' : Mem UInt8} {a x u v : ℤ} {prev prev' : Option ℤ} {b : Block} {bs p q : List Block}

@[simp] theorem asPrev_free (s : ℤ) : asPrev ⟨s, true⟩ = some s := rfl

@[simp] theorem asPrev_used (s : ℤ) : asPrev ⟨s, false⟩ = none := rfl

theorem layout_append : Layout m a prev (p ++ q) ↔
    Layout m a prev p ∧ Layout m (a + total p) (lastPrev prev p) q := by
  induction p generalizing a prev with
  | nil => simp [Layout,lastPrev]
  | cons b p ih => simp [Layout,lastPrev,ih,and_assoc,add_assoc]

theorem lastPrev_append (prev : Option ℤ) (p : List Block) (b : Block) :
    lastPrev prev (p ++ [b]) = asPrev b := by
  induction p generalizing prev with
  | nil => rfl
  | cons c p ih => exact ih (asPrev c)

theorem Layout.pos (h : Layout m a prev bs) : ∀ b ∈ bs, 0 < b.size := by
  induction bs generalizing a prev with
  | nil => exact nofun
  | cons c bs ih =>
    intro b hb
    rcases List.mem_cons.mp hb with rfl | hb
    · have hmin := h.1.smallest
      omega
    · exact ih h.2 b hb

theorem Layout.chunkAt (h : Layout m a prev bs) (hx : (x, b) ∈ place a bs) : ∃ prev, ChunkAt m x prev b := by
  obtain ⟨p,q,rfl,rfl⟩ := exists_split hx
  exact ⟨_,(layout_append.mp h).2.1⟩

theorem Layout.coalesced (h : Layout m a prev bs) : Coalesced bs := by
  induction bs generalizing a prev with
  | nil => exact List.isChain_nil
  | cons b bs ih =>
    cases bs with
    | nil => exact List.isChain_singleton b
    | cons c bs =>
      refine List.isChain_cons_cons.mpr ⟨?_,ih h.2⟩
      intro hb
      have hprev : asPrev b = some b.size := by simp [asPrev,hb]
      exact (h.2.1.prev b.size hprev).2

/-- The words that matter are the headers and the sizes at the ends of free chunks. -/
theorem Layout.congr (h : Layout m a prev bs) (hheader : ∀ x b, (x, b) ∈ place a bs → load32 m' x = load32 m x)
    (hfree : ∀ x b, (x, b) ∈ place a bs → b.free = true → load32 m' (x + b.size - 4) = load32 m (x + b.size - 4))
    (hprev : prev.isSome → load32 m' (a - 4) = load32 m (a - 4)) : Layout m' a prev bs := by
  induction bs generalizing a prev with
  | nil => trivial
  | cons b bs ih =>
    obtain ⟨hb,hrest⟩ := h
    have hhead := hheader a b List.mem_cons_self
    constructor
    · refine ⟨?_,?_,?_,?_,?_,hb.smallest,hb.fits⟩
      · rw [hhead,hb.size]
      · rw [hhead,hb.ut]
      · rw [hhead,hb.pinuse]
      · intro s hs
        rw [hprev (by simp [hs])]
        exact hb.prev s hs
      · rw [hhead]
        exact hb.unfreed
    · apply ih hrest
      · intro x c hx
        exact hheader x c (List.mem_cons_of_mem _ hx)
      · intro x c hx
        exact hfree x c (List.mem_cons_of_mem _ hx)
      · intro hsome
        have hfreeb : b.free = true := by
          by_contra hne
          simp [asPrev,hne] at hsome
        exact hfree a b List.mem_cons_self hfreeb

section Outside

variable {z : ℤ} {F G : ℤ → ℤ → Prop}

theorem Outside.mono (hz : Outside F z) (hsub : ∀ b t, G b t → F b t) : Outside G z :=
  fun b t hG => hz b t (hsub b t hG)

theorem Layout.outside_header (h : Layout m a prev bs) (hx : (x, b) ∈ place a bs) (hz : x ≤ z) (hz' : z < x + 4) :
    Outside (FreeAt a bs) z := by
  intro y t hy
  obtain ⟨_,hb⟩ := h.chunkAt hx
  have hmin := hb.smallest
  rcases place_disjoint h.pos hx hy with ⟨rfl,-⟩ | hover | hover
  · exact .inl hz'
  · exact .inl (by omega)
  · simp only at hover
    exact .inr (by omega)

private theorem Layout.outside_footer (h : Layout m a prev bs) (hx : (x, b) ∈ place a bs) (hz : x + b.size - 4 ≤ z)
    (hz' : z < x + b.size) : Outside (FreeAt a bs) z := by
  intro y t hy
  obtain ⟨_,hb⟩ := h.chunkAt hx
  have hmin := hb.smallest
  rcases place_disjoint h.pos hx hy with ⟨rfl,rfl⟩ | hover | hover
  · exact .inr hz
  · exact .inl (by omega)
  · simp only at hover
    exact .inr (by omega)

theorem Layout.outside_used (h : Layout m a prev bs) (hx : (x, b) ∈ place a bs) (hused : b.free = false)
    (hz : x ≤ z) (hz' : z < x + b.size) : Outside (FreeAt a bs) z := by
  intro y t hy
  rcases place_disjoint h.pos hx hy with ⟨-,rfl⟩ | hover | hover
  · exact absurd hused (by simp)
  · exact .inl (by omega)
  · simp only at hover
    exact .inr (by omega)

theorem Layout.outside_arena (h : Layout m a prev bs) (hz : z < a ∨ a + total bs ≤ z) : Outside (FreeAt a bs) z := by
  intro y t hy
  have hbounds := place_bounds h.pos hy
  simp only at hbounds
  omega

end Outside

/-- Writes into the insides of free chunks leave the chunks as they are. -/
theorem Layout.interiors (h : Layout m a prev bs)
    (hsame : ∀ z, a ≤ z → z < a + total bs → Outside (FreeAt a bs) z → m' z = m z)
    (hprev : prev.isSome → load32 m' (a - 4) = load32 m (a - 4)) : Layout m' a prev bs := by
  refine h.congr ?_ ?_ hprev
  · intro x b hx
    have hbounds := place_bounds h.pos hx
    obtain ⟨_,hb⟩ := h.chunkAt hx
    have hmin := hb.smallest
    have hon : SameOn x (x + 4) m m' :=
      fun z hz hz' => hsame z (by omega) (by omega) (h.outside_header hx hz hz')
    exact hon.load32 le_rfl le_rfl
  · intro x b hx _
    have hbounds := place_bounds h.pos hx
    obtain ⟨_,hb⟩ := h.chunkAt hx
    have hmin := hb.smallest
    have hon : SameOn (x + b.size - 4) (x + b.size) m m' :=
      fun z hz hz' => hsame z (by omega) (by omega) (h.outside_footer hx hz hz')
    exact hon.load32 le_rfl (by omega)

theorem Layout.sameOn (h : Layout m a none bs) (hsame : SameOn a (a + total bs) m m') : Layout m' a none bs :=
  h.interiors (fun z hz hz' _ => hsame z hz hz') nofun

theorem Layout.write (h : Layout m a none bs) (hx : (x, b) ∈ place a bs) (hused : b.free = false) (hu : x + 4 ≤ u)
    (hv : v ≤ x + b.size) (hsame : ∀ z, z < u ∨ v ≤ z → m' z = m z) : Layout m' a none bs := by
  obtain ⟨_,hb⟩ := h.chunkAt hx
  have hmin := hb.smallest
  have keep {y : ℤ} (hy : y + 4 ≤ u ∨ v ≤ y) : load32 m' y = load32 m y := by
    have hon : SameOn y (y + 4) m m' := fun z hz hz' => hsame z (by omega)
    exact hon.load32 le_rfl le_rfl
  refine h.congr ?_ ?_ nofun
  · intro y c hy
    obtain ⟨_,hc⟩ := h.chunkAt hy
    have hminc := hc.smallest
    apply keep
    rcases place_disjoint h.pos hx hy with ⟨rfl,rfl⟩ | hbefore | hafter
    · exact .inl hu
    · exact .inr (by omega)
    · exact .inl (by omega)
  · intro y c hy hfree
    obtain ⟨_,hc⟩ := h.chunkAt hy
    have hminc := hc.smallest
    apply keep
    rcases place_disjoint h.pos hx hy with ⟨rfl,rfl⟩ | hbefore | hafter
    · exact absurd hused (by simp [hfree])
    · exact .inr (by omega)
    · exact .inl (by omega)

theorem Layout.changePrev (h : Layout m a prev (b::bs))
    (hsame : ∀ z, a + 4 ≤ z → z < a + total (b::bs) → Outside (FreeAt a (b::bs)) z → m' z = m z)
    (hsize : hmuGetSize (load32 m' a) = hmuGetSize (load32 m a))
    (hut : hmuGetUt (load32 m' a) = hmuGetUt (load32 m a))
    (hunfreed : hmuIsVoFreed (load32 m' a) = hmuIsVoFreed (load32 m a))
    (hpinuse : hmuGetPinuse (load32 m' a) = prev'.isNone)
    (hprev : ∀ s, prev' = some s → load32 m' (a - 4) = BitVec.ofInt 32 s ∧ b.free = false) :
    Layout m' a prev' (b::bs) := by
  have hall := h
  obtain ⟨hb,hrest⟩ := h
  have hmin := hb.smallest
  have hnonneg := total_nonneg hrest.pos
  rw [total_cons] at hsame
  refine ⟨⟨by rw [hsize,hb.size],by rw [hut,hb.ut],hpinuse,hprev,by rw [hunfreed]; exact hb.unfreed,
    hb.smallest,hb.fits⟩,hrest.interiors ?_ ?_⟩
  · intro z hz hz' hout
    apply hsame z (by omega) (by omega)
    rintro y t hy
    rcases List.mem_cons.mp hy with heq | hy
    · obtain ⟨rfl,rfl⟩ := Prod.mk.inj heq
      simp only at hz
      exact .inr (by omega)
    · exact hout y t hy
  · intro _
    have hon : SameOn (a + b.size - 4) (a + b.size) m m' := fun z hz hz' =>
      hsame z (by omega) (by omega) (hall.outside_footer (x := a) List.mem_cons_self hz hz')
    exact hon.load32 le_rfl (by omega)

end WamrTest.Ems
