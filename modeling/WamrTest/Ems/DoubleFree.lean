import WamrTest.Ems.Session

/-!
# Giving an object back twice

The bit that is to mark a freed object is tested by `gc_free_vo` and set nowhere. A second call is
noticed only by the type in the header. When the chunk joins the free chunk before it the header is
left behind, unless the node of a large chunk is written over it.
-/

namespace WamrTest.Ems

open Arena ByteMemory Transition

/-- A header as of an object in use. -/
def SaysUsed (header : BitVec 32) : Prop := hmuGetUt header = hmuVo ∧ hmuIsVoFreed header = false

instance (header : BitVec 32) : Decidable (SaysUsed header) :=
  inferInstanceAs (Decidable (hmuGetUt header = hmuVo ∧ hmuIsVoFreed header = false))

/-- The header of an object once its chunk has joined the free chunk of `prev` bytes before it to one of
`joined` bytes, whose node has the given parent. -/
def leftHeader (header : BitVec 32) (prev joined parent : ℤ) : BitVec 32 :=
  if linkEnd joined ≤ prev then header
  else if prev = 16 then 0#32
  else (pointer (some parent)).setWidth 32

section Totals

private theorem unlinkNormal_totalFreeSize (h : Heap) (nodeIdx : ℕ) (hmu : ℤ) (fuel : ℕ) (nodePrev node : Option ℤ) :
    (unlinkNormal h nodeIdx hmu fuel nodePrev node).1.totalFreeSize = h.totalFreeSize := by
  induction fuel generalizing nodePrev node with
  | zero => rfl
  | succ fuel ih =>
    cases node with
    | none => rfl
    | some node =>
      rw [unlinkNormal]
      split
      · rfl
      · simp only
        split
        · cases nodePrev <;> rfl
        · exact ih _ _

private theorem removeTreeNode_totalFreeSize (h : Heap) (p : ℤ) :
    (removeTreeNode h p).1.totalFreeSize = h.totalFreeSize := by
  unfold removeTreeNode
  split
  · rfl
  · split
    · rfl
    · split <;> rfl

private theorem unlinkHmu_totalFreeSize (h : Heap) (hmu : ℤ) :
    (unlinkHmu h hmu).1.totalFreeSize = h.totalFreeSize := by
  unfold unlinkHmu
  split
  · rfl
  · simp only
    split
    · exact unlinkNormal_totalFreeSize h _ _ _ _ _
    · exact removeTreeNode_totalFreeSize h hmu

private theorem gciAddFc_totalFreeSize (h : Heap) (hmu size : ℤ) :
    (gciAddFc h hmu size).1.totalFreeSize = h.totalFreeSize := by
  unfold gciAddFc
  simp only
  split
  · split <;> rfl
  · split <;> rfl

private theorem joinPrev_totalFreeSize (h : Heap) (hmu size : ℤ) :
    (joinPrev h hmu size).1.totalFreeSize = h.totalFreeSize := by
  unfold joinPrev
  split
  · rfl
  · simp only
    split
    · have hunlink := unlinkHmu_totalFreeSize h (hmu - (h.header (hmu - 4)).toInt)
      split
      next heq => rwa [heq] at hunlink
      next heq => rwa [heq] at hunlink
    · rfl

private theorem joinNext_totalFreeSize (h : Heap) (hmu size : ℤ) :
    (joinNext h hmu size).1.totalFreeSize = h.totalFreeSize := by
  unfold joinNext
  simp only
  split
  · have hunlink := unlinkHmu_totalFreeSize h (hmu + size)
    split
    next heq => rwa [heq] at hunlink
    next heq => rwa [heq] at hunlink
  · rfl

/-- A header that says in use is believed: the size in it counts as free. -/
theorem gcFreeVo_totalFreeSize {h : Heap} {obj : ℤ} (hobj : obj ≠ 0) (hintact : h.isHeapCorrupted = false)
    (hin : h.HmuIsInHeap (obj - hmuSize)) (hused : SaysUsed (h.header (obj - hmuSize))) :
    (gcFreeVo h obj).1.totalFreeSize = (h.totalFreeSize + hmuGetSize (h.header (obj - hmuSize))) % 2 ^ 32 := by
  unfold gcFreeVo
  simp only
  rw [if_neg hobj,if_neg (by rw [hintact]; decide),if_neg (not_not.mpr hin),if_neg (not_not.mpr hused.1),
    if_neg (by rw [hused.2]; decide)]
  generalize hmuGetSize (h.header (obj - hmuSize)) = s
  generalize hcounted : ({ h with totalFreeSize := (h.totalFreeSize + s) % 2 ^ 32 } : Heap) = h₀
  have h₀total : h₀.totalFreeSize = (h.totalFreeSize + s) % 2 ^ 32 := by rw [← hcounted]
  have hprev := joinPrev_totalFreeSize h₀ (obj - hmuSize) s
  rw [h₀total] at hprev
  split
  next heq => rwa [heq] at hprev
  next h₁ hmu size heq =>
    rw [heq] at hprev
    have hnext := joinNext_totalFreeSize h₁ hmu size
    rw [hprev] at hnext
    split
    next heq => rwa [heq] at hnext
    next h₂ size heq =>
      rw [heq] at hnext
      have hadd := gciAddFc_totalFreeSize h₂ hmu size
      rw [hnext] at hadd
      split
      next heq => rwa [heq] at hadd
      next h₃ heq =>
        rw [heq] at hadd
        simp only
        split <;> exact hadd

end Totals

section Twice

variable {h h' : Heap} {p q : List Block} {s u obj : ℤ}

private theorem gcFreeVo_rejects (hobj : obj ≠ 0) (hintact : h.isHeapCorrupted = false)
    (hin : h.HmuIsInHeap (obj - hmuSize))
    (hused : ¬ SaysUsed (h.header (obj - hmuSize))) : gcFreeVo h obj = (h, gcError) := by
  unfold gcFreeVo
  simp only
  rw [if_neg hobj,if_neg (by rw [hintact]; decide),if_neg (not_not.mpr hin)]
  by_cases hut : hmuGetUt (h.header (obj - hmuSize)) = hmuVo
  · have hfreed : hmuIsVoFreed (h.header (obj - hmuSize)) = true := by
      rw [← Bool.not_eq_false]
      exact fun hunfreed => hused ⟨hut,hunfreed⟩
    rw [if_neg (not_not.mpr hut),if_pos hfreed]
  · rw [if_pos hut]

/-- A size of 0 in the header does not count, but the chunk is listed. -/
theorem gcFreeVo_empty (hobj : obj ≠ 0) (hintact : h.isHeapCorrupted = false) (hin : h.HmuIsInHeap (obj - hmuSize))
    (hused : SaysUsed (h.header (obj - hmuSize))) (hsize : hmuGetSize (h.header (obj - hmuSize)) = 0)
    (hprev : h.header (obj - hmuSize - 4) = 0#32) : (gcFreeVo h obj).2 = gcSuccess := by
  unfold gcFreeVo
  simp only
  rw [if_neg hobj,if_neg (by rw [hintact]; decide),if_neg (not_not.mpr hin),if_neg (not_not.mpr hused.1),
    if_neg (by rw [hused.2]; decide),hsize]
  generalize hx : obj - hmuSize = x at *
  generalize hh₀ : ({ h with totalFreeSize := (h.totalFreeSize + 0) % 2 ^ 32 } : Heap) = h₀
  have hheader (y : ℤ) : h₀.header y = h.header y := by rw [← hh₀]; rfl
  have hfc : ¬ (h₀.HmuIsInHeap x ∧ hmuGetUt (h₀.header x) = hmuFc) := by
    rw [hheader,hused.1]
    exact fun hc => absurd hc.2 (by decide)
  have hjoinPrev : joinPrev h₀ x 0 = (h₀, some (x, 0)) := by
    have hself : x - (h₀.header (x - 4)).toInt = x := by
      rw [hheader,hprev]
      exact sub_zero x
    rw [joinPrev,hself]
    split
    · rfl
    · exact if_neg hfc
  have hjoinNext : joinNext h₀ x 0 = (h₀, some 0) := by
    rw [joinNext,add_zero]
    exact if_neg hfc
  have hadd : (gciAddFc h₀ x 0).2 = true := by
    have hin₀ : h₀.HmuIsInHeap x := by rw [← hh₀]; exact hin
    unfold gciAddFc
    simp only
    rw [if_pos (by decide)]
    split
    next hout => exact absurd hin₀ hout
    next => rfl
  rw [hjoinPrev]
  simp only [hjoinNext]
  cases hresult : gciAddFc h₀ x 0 with
  | mk h₁ ok =>
    rw [hresult] at hadd
    simp only at hadd
    rw [hadd]

private theorem gcFreeVo_accepts (hfree : 0 ≤ h.totalFreeSize ∧ h.totalFreeSize < 2 ^ 30) (hobj : obj ≠ 0)
    (hintact : h.isHeapCorrupted = false) (hin : h.HmuIsInHeap (obj - hmuSize))
    (hused : SaysUsed (h.header (obj - hmuSize)))
    (hprev : hmuGetSize (h.header (obj - hmuSize)) = 0 → h.header (obj - hmuSize - 4) = 0#32) :
    gcFreeVo h obj ≠ (h, gcError) ∧
      (gcFreeVo h obj).1.totalFreeSize = h.totalFreeSize + hmuGetSize (h.header (obj - hmuSize)) := by
  have hcount := gcFreeVo_totalFreeSize hobj hintact hin hused
  have hbounds := hmuGetSize_bounds (h.header (obj - hmuSize))
  rw [Int.emod_eq_of_lt (by omega) (by omega)] at hcount
  refine ⟨?_,hcount⟩
  intro heq
  rcases eq_or_ne (hmuGetSize (h.header (obj - hmuSize))) 0 with hzero | hpos
  · have hsuccess := gcFreeVo_empty hobj hintact hin hused hzero (hprev hzero)
    rw [heq] at hsuccess
    exact absurd hsuccess (show ¬ gcError = gcSuccess by decide)
  · rw [heq] at hcount
    simp only at hcount
    omega

private theorem Freed.header_of_used (hf : Freed h h' p s q) (hprev : lastPrev none p = none) :
    hmuGetUt (h'.header (h.baseAddr + total p)) = hmuFc := by
  have hsplit : splitFree p.reverse = (0, p.reverse) := by
    rcases splitFree_reverse p with ⟨p₁,u,rfl,-⟩ | ⟨hsplit,-⟩
    · rw [lastPrev_append] at hprev
      exact absurd hprev (by simp)
    · exact hsplit
  have hlayout := hf.consistent.layout
  rw [release,hsplit,List.reverse_reverse,hf.baseAddr] at hlayout
  exact (layout_append.mp hlayout).2.1.ut

private theorem exists_prev {m : Mem UInt8} {a : ℤ} {rest : List Block} (hl : Layout m a none (p ++ rest))
    (hprev : lastPrev none p = some u) :
    ∃ p₁, p = p₁ ++ [⟨u, true⟩] ∧ splitFree p.reverse = (u, p₁.reverse) ∧ 16 ≤ u ∧ Fits u := by
  rcases splitFree_reverse p with ⟨p₁,v,hp,hsplit⟩ | ⟨-,hlast⟩
  · rw [hp,lastPrev_append] at hprev
    have hv : v = u := Option.some.inj hprev
    subst hv
    rw [hp,List.append_assoc,List.singleton_append] at hl
    have hchunk := (layout_append.mp hl).2.1
    exact ⟨p₁,hp,hsplit,hchunk.smallest,hchunk.fits⟩
  · rw [hlast] at hprev
    exact absurd hprev (by simp)

/-- The chunk of `u` bytes before is free: where the new chunk is, and what is left of the header. -/
theorem Freed.header_of_free (hf : Freed h h' p s q) (hc : Consistent h (p ++ ⟨s, false⟩::q))
    (hprev : lastPrev none p = some u) :
    ∃ parent, (parent = h'.kfcTreeRoot ∨ ∃ t, FreeAt h.baseAddr (release p s q) parent t ∧ hmuFcNormalMaxSize ≤ t) ∧
      h'.header (h.baseAddr + total p) = leftHeader (h.header (h.baseAddr + total p)) u
        (hmuGetSize (h'.header (h.baseAddr + total p - u))) parent ∧
      (SaysUsed (h'.header (h.baseAddr + total p)) → hmuGetSize (h'.header (h.baseAddr + total p)) = 0 →
        h'.header (h.baseAddr + total p - 4) = 0#32) := by
  have hremains := hf.remains u hprev
  have hchunk := (layout_append.mp hc.layout).2.1
  obtain ⟨p₁,hp,hsplit,hu16,hu⟩ := exists_prev hc.layout hprev
  have hu8 := hu.aligned
  have hlayout := hf.consistent.layout
  rw [release,hsplit,List.reverse_reverse,hf.baseAddr] at hlayout
  have haddr : h.baseAddr + total p - u = h.baseAddr + total p₁ := by
    rw [hp,total_append,total_cons,total_nil]
    simp only
    omega
  have hjoined : hmuGetSize (h'.header (h.baseAddr + total p - u)) = u + s + (splitFree q).1 := by
    rw [haddr]
    exact (layout_append.mp hlayout).2.1.size
  have hpos := hchunk.smallest
  simp only at hpos
  have hsize : hmuGetSize (h.header (h.baseAddr + total p)) = s := hchunk.size
  rw [hjoined]
  generalize u + s + (splitFree q).1 = joined at hremains
  by_cases hkept : linkEnd joined ≤ u
  · refine ⟨h'.kfcTreeRoot,.inl rfl,?_,?_⟩
    · rw [leftHeader,if_pos hkept,hremains.kept hkept]
    · intro _ hzero
      rw [hremains.kept hkept,hsize] at hzero
      omega
  · have hbig : hmuFcNormalMaxSize ≤ joined := by
      by_contra hsmall
      rw [linkEnd,if_pos (not_le.mp hsmall)] at hkept
      omega
    have hsmall : u < 32 := by
      rw [linkEnd,if_neg (not_lt.mpr hbig)] at hkept
      omega
    by_cases h16 : u = 16
    · refine ⟨h'.kfcTreeRoot,.inl rfl,?_,?_⟩
      · rw [leftHeader,if_neg hkept,if_pos h16,hremains.right hbig h16]
      · rw [hremains.right hbig h16]
        exact fun hused => absurd hused (by decide)
    · obtain ⟨hzero,parent,hheader,hparent⟩ := hremains.parent hbig (by omega)
      refine ⟨parent,hparent,?_,fun _ _ => hzero⟩
      rw [leftHeader,if_neg hkept,if_neg h16,hheader]

end Twice

def largeHeap : Heap := gcInitInternal (fun _ => 0) (2048 + offsetofKfcTreeRoot) 12 1016

def largeCalls : List Call := [.malloc 10, .malloc 300, .malloc 10, .free 16]

private theorem largeSession : Session (fun _ => 0) 2048 8 1024 largeHeap largeCalls :=
  ⟨rfl,by decide,by decide,by decide +kernel⟩

private theorem largeSession_live :
    (run Client.step (.start largeHeap) largeCalls).live 32 = some 300 := by decide +kernel

end WamrTest.Ems
