import WamrTest.Ems.Kfc

/-!
# The chunk that `alloc_hmu` takes

The lists of chunks below 248 bytes are searched in the order of their sizes and the tree for its
least size that is large enough, so the two together find a smallest chunk of all that are large
enough.
-/

namespace WamrTest.Ems

open LinkedList SearchTree

variable {h : Heap} {F : ℤ → ℤ → Prop} {n x s : ℤ}

theorem smallestSize_eq : gcSmallestSize = 16 := rfl

private theorem findNormal_none (hfind : findNormal h n = none) (hsmall : n < hmuFcNormalMaxSize) {i : ℕ}
    (hi : (n / 8).toNat ≤ i) (hlt : i < hmuNormalNodeCnt) : h.kfcNormalList i = none := by
  rw [findNormal,if_pos hsmall,List.findSome?_eq_none_iff] at hfind
  have hmem : i ∈ List.range' (n / 8).toNat (hmuNormalNodeCnt - (n / 8).toNat) :=
    List.mem_range'_1.mpr ⟨hi,by omega⟩
  exact Option.map_eq_none_iff.mp (hfind i hmem)

private theorem findNormal_some {i : ℕ} {p : ℤ} (hfind : findNormal h n = some (i, p)) :
    h.kfcNormalList i = some p ∧ n < hmuFcNormalMaxSize ∧ (n / 8).toNat ≤ i ∧
      ∀ j, (n / 8).toNat ≤ j → j < i → h.kfcNormalList j = none := by
  rw [findNormal] at hfind
  split at hfind
  next hsmall =>
    obtain ⟨before,j,after,hsplit,hj,hbefore⟩ := List.findSome?_eq_some_iff.mp hfind
    obtain ⟨q,hq,heq⟩ := Option.map_eq_some_iff.mp hj
    obtain ⟨rfl,rfl⟩ := Prod.mk.inj heq
    have hsorted := List.pairwise_lt_range' (s := (n / 8).toNat) (n := hmuNormalNodeCnt - (n / 8).toNat)
    rw [hsplit,List.pairwise_append,List.pairwise_cons] at hsorted
    have hmem (k : ℕ) : k ∈ before ++ j::after ↔
        (n / 8).toNat ≤ k ∧ k < (n / 8).toNat + (hmuNormalNodeCnt - (n / 8).toNat) := by
      rw [← hsplit]
      exact List.mem_range'_1
    have hjmem := (hmem j).mp (List.mem_append_right _ List.mem_cons_self)
    refine ⟨hq,hsmall,hjmem.1,?_⟩
    intro k hk hkj
    rcases List.mem_append.mp ((hmem k).mpr ⟨hk,by omega⟩) with hkb | hka
    · exact Option.map_eq_none_iff.mp (hbefore k hkb)
    · rcases List.mem_cons.mp hka with rfl | hka
      · exact absurd hkj (lt_irrefl k)
      · exact absurd (hsorted.2.1.1 k hka) (by omega)
  next => exact absurd hfind (by simp)

private theorem Kfc.not_of_none (hk : Kfc h F) {i : ℕ} (hnone : h.kfcNormalList i = none)
    (hsmall : (i : ℤ) * 8 < hmuFcNormalMaxSize) (a : ℤ) : ¬ F a (i * 8) := by
  intro hF
  obtain ⟨l,hchain,-,hl⟩ := hk.normal i
  have ha := (hl a).mpr ⟨hF,hsmall⟩
  cases l with
  | nil => exact absurd ha List.not_mem_nil
  | cons b l => exact absurd (hchain.1.symm.trans hnone) (by simp)

private theorem Kfc.le_of_none (hk : Kfc h F) (hr : Regions h F) {i : ℕ}
    (hnone : ∀ j, (n / 8).toNat ≤ j → j < i → h.kfcNormalList j = none) (hF : F x s) (hle : n ≤ s)
    (hsmall : s < hmuFcNormalMaxSize) : (i : ℤ) * 8 ≤ s := by
  obtain ⟨k,hk8⟩ := (hr.fits x s hF).aligned
  have hmin := hr.smallest x s hF
  by_contra hlt
  have hidx : (((s / 8).toNat : ℕ) : ℤ) * 8 = s := by omega
  have hempty := hnone (s / 8).toNat (by omega) (by omega)
  refine hk.not_of_none hempty (by omega) x ?_
  rw [hidx]
  exact hF

/-- A smallest of the chunks of at least `n` bytes. -/
structure BestFit (F : ℤ → ℤ → Prop) (n x s : ℤ) : Prop where
  mem : F x s
  fits : n ≤ s
  least : ∀ y t, F y t → n ≤ t → s ≤ t

/-- The chunk is unlinked and then divided. -/
structure Picked (h h' : Heap) (F : ℤ → ℤ → Prop) (n x s : ℤ) : Prop where
  best : BestFit F n x s
  unlinked : Unlinked h h' F x
  alloc : allocHmu h n = allocIn h' x n s (n + gcSmallestSize ≤ s)

private theorem Kfc.pickList (hk : Kfc h F) (hr : Regions h F) (halign : ∀ a s, F a s → (a + hmuSize) % 8 = 0)
    (hn : 16 ≤ n) (h8 : 8 ∣ n) {i : ℕ} (hfind : findNormal h n = some (i, x)) :
    ∃ h', Picked h h' F n x (i * 8) := by
  obtain ⟨hhead,hsmall,hle,hbefore⟩ := findNormal_some hfind
  obtain ⟨l,hchain,-,hl⟩ := hk.normal i
  obtain ⟨hF,hi⟩ := (hl x).mp (hchain.mem_of_head hhead)
  have hin := hr.inHeap hF
  have hidx : (((i : ℤ) * 8) / 8).toNat = i := by omega
  -- the list is left by its head, as `unlink_hmu` would
  obtain ⟨h',hunlink,hunlinked⟩ := hk.unlinkList hr hF hi
  rw [hidx,hhead,unlinkNormal,if_neg (not_not.mpr hin)] at hunlink
  simp only [if_true] at hunlink
  have hpop := (Prod.mk.inj hunlink).1
  have hnot : i = (n / 8).toNat → ¬ n + gcSmallestSize ≤ i * 8 := by
    rw [smallestSize_eq]
    omega
  have hsplit : decide (i ≠ (n / 8).toNat ∧ n + gcSmallestSize ≤ i * 8) =
      decide (n + gcSmallestSize ≤ (i : ℤ) * 8) := by
    rw [decide_eq_decide]
    exact ⟨fun hc => hc.2,fun hc => ⟨fun heq => hnot heq hc,hc⟩⟩
  refine ⟨h',⟨hF,by omega,?_⟩,hunlinked,?_⟩
  · intro y t hFy hnt
    by_cases ht : t < hmuFcNormalMaxSize
    · exact hk.le_of_none hr hbefore hFy hnt ht
    · omega
  · rw [allocHmu]
    simp only [if_neg (show ¬ n < gcSmallestSize by rw [smallestSize_eq]; omega),hfind]
    rw [if_neg (not_not.mpr hin),if_neg (not_not.mpr (halign x _ hF)),hpop,hsplit]

/-- `alloc_hmu` finds a best fit, or changes nothing. -/
theorem allocHmu_spec (hk : Kfc h F) (hr : Regions h F) (halign : ∀ a s, F a s → (a + hmuSize) % 8 = 0)
    (hn : 16 ≤ n) (h8 : 8 ∣ n) :
    ((∀ x s, F x s → s < n) ∧ allocHmu h n = (h, none)) ∨ ∃ x s h', Picked h h' F n x s := by
  cases hfind : findNormal h n with
  | some found =>
    obtain ⟨i,x⟩ := found
    obtain ⟨h',hpicked⟩ := hk.pickList hr halign hn h8 hfind
    exact .inr ⟨x,_,h',hpicked⟩
  | none =>
    have hlarge (x s : ℤ) (hF : F x s) (hle : n ≤ s) : hmuFcNormalMaxSize ≤ s := by
      by_contra hsmall
      have hempty : ∀ j, (n / 8).toNat ≤ j → j < hmuNormalNodeCnt → h.kfcNormalList j = none :=
        fun j hj hlt => findNormal_none hfind (by omega) hj hlt
      have hcnt := hk.le_of_none hr hempty hF hle (not_le.mp hsmall)
      rw [normalMaxSize_eq] at hsmall
      have h32 : hmuNormalNodeCnt = 32 := rfl
      omega
    have hsearch := findTreeNode_eq (hk.items_inHeap hr) n none
    have halloc := allocHmu.eq_def h n
    simp only [if_neg (show ¬ n < gcSmallestSize by rw [smallestSize_eq]; omega),hfind,hsearch] at halloc
    have hbest := KeyTree.best_spec hk.sorted (k := n) none
    cases hfound : h.kfcTree.best n none with
    | none =>
      rw [hfound] at hbest halloc
      refine .inl ⟨?_,halloc⟩
      intro x s hF
      by_contra hle
      have hmem := (hk.tree x s).mpr ⟨hF,hlarge x s hF (not_lt.mp hle)⟩
      exact hle (hbest.2 _ hmem)
    | some found =>
      obtain ⟨x,s⟩ := found
      rw [hfound] at hbest halloc
      obtain ⟨hmem,hle,hleast⟩ := hbest.resolve_left (fun hc => absurd hc.1 (by simp))
      obtain ⟨hF,hbig⟩ := (hk.tree x s).mp hmem
      obtain ⟨h',hremove,hunlinked⟩ := hk.unlinkTree hr hF hbig
      refine .inr ⟨x,s,h',⟨⟨hF,hle,?_⟩,hunlinked,?_⟩⟩
      · intro y t hFy hnt
        exact hleast (y, t) ((hk.tree y t).mpr ⟨hFy,hlarge y t hFy hnt⟩) hnt
      · simp only [hremove] at halloc
        exact halloc

end WamrTest.Ems
