import Mathlib.Data.Int.Interval
import WamrTest.Ems.Nodes

/-!
# Where free chunks are listed

`kfc_normal_list` and the tree hold exactly a given set of chunks. Adding and unlinking a chunk
change the set as they should, and write only into the chunks of the set.
-/

namespace WamrTest.Ems

open ByteMemory LinkedList SearchTree

theorem normalMaxSize_eq : hmuFcNormalMaxSize = 248 := rfl

/-- Chunks, by address and size, that lie in the heap and do not overlap. -/
structure Regions (h : Heap) (F : ℤ → ℤ → Prop) : Prop where
  bounds : ∀ a s, F a s → h.baseAddr ≤ a ∧ a + s ≤ h.endAddr
  smallest : ∀ a s, F a s → 16 ≤ s
  fits : ∀ a s, F a s → Fits s
  disjoint : ∀ a s b t, F a s → F b t → (a = b ∧ s = t) ∨ a + s ≤ b ∨ b + t ≤ a
  size : h.currentSize < 2 ^ 30

structure Kfc (h : Heap) (F : ℤ → ℤ → Prop) : Prop where
  normal : ∀ i : ℕ, ∃ l, Chain (getHmuNormalNodeNext h.mem) (h.kfcNormalList i) l ∧ l.Nodup ∧
    ∀ a, a ∈ l ↔ F a (i * 8) ∧ (i : ℤ) * 8 < hmuFcNormalMaxSize
  sorted : h.kfcTree.Sorted
  nodup : h.kfcTree.items.Nodup
  tree : ∀ a s, (a, s) ∈ h.kfcTree.entries ↔ F a s ∧ hmuFcNormalMaxSize ≤ s
  nodes : NodesAt h.mem h.kfcTreeRoot h.kfcTree

/-- A byte that no link of a chunk lies in. -/
def Outside (F : ℤ → ℤ → Prop) (z : ℤ) : Prop := ∀ a s, F a s → z < a + 4 ∨ a + s - 4 ≤ z

/-- Everything but the bytes and the lists of free chunks is the same. -/
structure SameRecord (h h' : Heap) : Prop where
  baseAddr : h'.baseAddr = h.baseAddr
  currentSize : h'.currentSize = h.currentSize
  kfcTreeRoot : h'.kfcTreeRoot = h.kfcTreeRoot
  isHeapCorrupted : h'.isHeapCorrupted = h.isHeapCorrupted
  highmarkSize : h'.highmarkSize = h.highmarkSize
  totalFreeSize : h'.totalFreeSize = h.totalFreeSize

section Next

variable {m m' : Mem UInt8} {a b : ℤ}

private theorem getNext_congr (h : load32 m' (a + 4) = load32 m (a + 4)) :
    getHmuNormalNodeNext m' a = getHmuNormalNodeNext m a := by
  rw [getHmuNormalNodeNext,getHmuNormalNodeNext,h]

private theorem getNext_setNext (m : Mem UInt8) {a : ℤ} {next : Option ℤ}
    (h : ∀ b, next = some b → b ≠ a ∧ -2 ^ 31 ≤ b - a ∧ b - a < 2 ^ 31) :
    getHmuNormalNodeNext (setHmuNormalNodeNext m a next) a = next := by
  cases next with
  | none => simp [getHmuNormalNodeNext,setHmuNormalNodeNext]
  | some b =>
    obtain ⟨hne,hlow,hhigh⟩ := h b rfl
    simp only [getHmuNormalNodeNext,setHmuNormalNodeNext,load32_store32,toInt_ofInt hlow hhigh]
    rw [if_neg (by omega),add_sub_cancel]

private theorem setNext_outside (m : Mem UInt8) (next : Option ℤ) {z : ℤ} (h : z < a + 4 ∨ a + 8 ≤ z) :
    setHmuNormalNodeNext m a next z = m z := by
  cases next <;> exact store32_outside m _ (by omega)

private theorem load32_setNext (m : Mem UInt8) (next : Option ℤ) (h : b + 4 ≤ a + 4 ∨ a + 8 ≤ b) :
    load32 (setHmuNormalNodeNext m a next) b = load32 m b := by
  cases next <;> exact load32_store32_of_disjoint m _ (by omega)

end Next

theorem findTreeNode_eq {h : Heap} {t : KfcTree} (hin : ∀ a ∈ t.items, h.HmuIsInHeap a) (size : ℤ)
    (last : Option (ℤ × ℤ)) :
    findTreeNode h size t last = some (t.best size last) := by
  induction t generalizing last with
  | nil => rfl
  | node l a s r ihl ihr =>
    rw [KeyTree.items_node] at hin
    have ha := hin a (List.mem_append_right _ List.mem_cons_self)
    rw [findTreeNode,KeyTree.best,if_neg (not_not.mpr ha)]
    split
    · exact ihr (fun c hc => hin c (List.mem_append_right _ (List.mem_cons_of_mem a hc))) last
    · exact ihl (fun c hc => hin c (List.mem_append_left _ hc)) _

/-- The loop of `unlink_hmu` ends at the node it looks for. -/
theorem unlinkNormal_eq (h : Heap) (nodeIdx : ℕ) {hmu : ℤ} {p q : List ℤ} {fuel : ℕ}
    {nodePrev node : Option ℤ} (hchain : Chain (getHmuNormalNodeNext h.mem) node (p ++ hmu::q))
    (hnot : hmu ∉ p) (hin : ∀ a ∈ p ++ hmu::q, h.HmuIsInHeap a) (hfuel : p.length < fuel) :
    unlinkNormal h nodeIdx hmu fuel nodePrev node =
      let next := getHmuNormalNodeNext h.mem hmu
      match p.getLast?.or nodePrev with
      | none => ({ h with kfcNormalList := Function.update h.kfcNormalList nodeIdx next }, true)
      | some prev => ({ h with mem := setHmuNormalNodeNext h.mem prev next }, true) := by
  induction p generalizing fuel nodePrev node with
  | nil =>
    obtain ⟨hnode,-⟩ := hchain
    have hhmu := hin hmu List.mem_cons_self
    cases fuel with
    | zero => exact absurd hfuel (Nat.not_lt_zero _)
    | succ fuel =>
      rw [hnode,unlinkNormal,if_neg (not_not.mpr hhmu)]
      simp only [if_true]
      cases nodePrev <;> rfl
  | cons a p ih =>
    obtain ⟨hnode,hrest⟩ := hchain
    have ha := hin a List.mem_cons_self
    have hne : a ≠ hmu := fun heq => hnot (heq ▸ List.mem_cons_self)
    cases fuel with
    | zero => exact absurd hfuel (Nat.not_lt_zero _)
    | succ fuel =>
      have hnot' : hmu ∉ p := fun hmem => hnot (List.mem_cons_of_mem a hmem)
      have hin' : ∀ c ∈ p ++ hmu::q, h.HmuIsInHeap c := fun c hc => hin c (List.mem_cons_of_mem a hc)
      rw [hnode,unlinkNormal,if_neg (not_not.mpr ha)]
      simp only [if_neg hne]
      rw [ih hrest hnot' hin' (Nat.lt_of_succ_lt_succ hfuel)]
      cases p with
      | nil => rfl
      | cons b p => simp [List.getLast?_cons]

section Operations

variable {h h' : Heap} {F : ℤ → ℤ → Prop} {a s : ℤ}

theorem SameRecord.refl (h : Heap) : SameRecord h h := ⟨rfl,rfl,rfl,rfl,rfl,rfl⟩

theorem SameRecord.trans {h'' : Heap} (hr : SameRecord h h') (hr' : SameRecord h' h'') : SameRecord h h'' :=
  ⟨hr'.baseAddr.trans hr.baseAddr,hr'.currentSize.trans hr.currentSize,
    hr'.kfcTreeRoot.trans hr.kfcTreeRoot,hr'.isHeapCorrupted.trans hr.isHeapCorrupted,
    hr'.highmarkSize.trans hr.highmarkSize,hr'.totalFreeSize.trans hr.totalFreeSize⟩

theorem Regions.inHeap (hr : Regions h F) (hF : F a s) : h.HmuIsInHeap a := by
  have hbounds := hr.bounds a s hF
  have hmin := hr.smallest a s hF
  exact ⟨hbounds.1,by omega⟩

theorem Regions.size_eq {t : ℤ} (hr : Regions h F) (hF : F a s) (hF' : F a t) : s = t := by
  have hmin := hr.smallest a s hF
  have hmin' := hr.smallest a t hF'
  rcases hr.disjoint a s a t hF hF' with ⟨-,heq⟩ | hover | hover
  · exact heq
  · omega
  · omega

private theorem Regions.without (hr : Regions h F) (hF : F a s) {b t : ℤ} (hne : t ≠ s) : F b t ∧ b ≠ a ↔ F b t := by
  refine ⟨And.left,fun hFb => ⟨hFb,?_⟩⟩
  rintro rfl
  exact hne (hr.size_eq hFb hF)

theorem Regions.sub {G : ℤ → ℤ → Prop} (hr : Regions h F) (hsub : ∀ a s, G a s → F a s)
    (hrecord : SameRecord h h') : Regions h' G := by
  have hend : h'.endAddr = h.endAddr := by rw [Heap.endAddr,Heap.endAddr,hrecord.baseAddr,hrecord.currentSize]
  refine ⟨?_,?_,?_,?_,?_⟩
  · intro a s hG
    rw [hrecord.baseAddr,hend]
    exact hr.bounds a s (hsub a s hG)
  · intro a s hG
    exact hr.smallest a s (hsub a s hG)
  · intro a s hG
    exact hr.fits a s (hsub a s hG)
  · intro a s b t hG hG'
    exact hr.disjoint a s b t (hsub a s hG) (hsub b t hG')
  · rw [hrecord.currentSize]
    exact hr.size

theorem Kfc.items_inHeap (hk : Kfc h F) (hr : Regions h F) : ∀ a ∈ h.kfcTree.items, h.HmuIsInHeap a := by
  intro a ha
  obtain ⟨⟨b,s⟩,hmem,rfl⟩ := List.mem_map.mp ha
  exact hr.inHeap ((hk.tree b s).mp hmem).1

/-- A list none of whose links changes, for a set without another chunk of its size. -/
theorem Kfc.normal_congr (hk : Kfc h F) {G : ℤ → ℤ → Prop} {next : ℤ → Option ℤ} (i : ℕ)
    (hnext : ∀ b, F b (i * 8) → (i : ℤ) * 8 < hmuFcNormalMaxSize → next b = getHmuNormalNodeNext h.mem b)
    (hG : ∀ b, (i : ℤ) * 8 < hmuFcNormalMaxSize → (G b (i * 8) ↔ F b (i * 8))) :
    ∃ l, Chain next (h.kfcNormalList i) l ∧ l.Nodup ∧ ∀ b, b ∈ l ↔ G b (i * 8) ∧ (i : ℤ) * 8 < hmuFcNormalMaxSize := by
  obtain ⟨l,hchain,hnodup,hl⟩ := hk.normal i
  refine ⟨l,?_,hnodup,?_⟩
  · apply hchain.congr
    intro b hb
    exact hnext b ((hl b).mp hb).1 ((hl b).mp hb).2
  · intro b
    rw [hl b]
    exact and_congr_left fun hlt => (hG b hlt).symm

/-- The set is all that matters of the set. -/
theorem Kfc.iff {G : ℤ → ℤ → Prop} (hk : Kfc h F) (hiff : ∀ a s, G a s ↔ F a s) : Kfc h G := by
  refine ⟨?_,hk.sorted,hk.nodup,?_,hk.nodes⟩
  · exact fun i => hk.normal_congr i (fun _ _ _ => rfl) fun a _ => hiff a _
  · intro a s
    rw [hk.tree a s,hiff a s]

theorem Kfc.item (hk : Kfc h F) (ha : a ∈ h.kfcTree.items) : ∃ s, F a s ∧ hmuFcNormalMaxSize ≤ s := by
  obtain ⟨⟨b,s⟩,hmem,rfl⟩ := List.mem_map.mp ha
  exact ⟨s,(hk.tree b s).mp hmem⟩

theorem Kfc.apart (hk : Kfc h F) (hr : Regions h F) : h.kfcTree.items.Pairwise Apart := by
  apply hk.nodup.pairwise_of_forall_ne
  intro a ha b hb hne
  obtain ⟨s,hFa,hs⟩ := hk.item ha
  obtain ⟨t,hFb,ht⟩ := hk.item hb
  rw [normalMaxSize_eq] at hs ht
  rcases hr.disjoint a s b t hFa hFb with ⟨heq,-⟩ | hover | hover
  · exact absurd heq hne
  · exact .inl (by omega)
  · exact .inr (by omega)

/-- All links lie in the chunks of the set. -/
theorem Kfc.congr (hk : Kfc h F) (hmin : ∀ a s, F a s → 16 ≤ s) (hlist : h'.kfcNormalList = h.kfcNormalList)
    (htree : h'.kfcTree = h.kfcTree) (hroot : h'.kfcTreeRoot = h.kfcTreeRoot)
    (hmem : ∀ a s, F a s → SameOn (a + 4) (a + s - 4) h.mem h'.mem) : Kfc h' F := by
  refine ⟨?_,htree ▸ hk.sorted,htree ▸ hk.nodup,htree ▸ hk.tree,?_⟩
  · intro i
    rw [hlist]
    refine hk.normal_congr i (fun b hFb _ => ?_) fun _ _ => Iff.rfl
    have hminb := hmin b _ hFb
    exact getNext_congr ((hmem b _ hFb).load32 le_rfl (by omega))
  · rw [htree,hroot]
    apply hk.nodes.congr
    intro a ha
    obtain ⟨s,hFa,hs⟩ := hk.item ha
    rw [normalMaxSize_eq] at hs
    exact (hmem a s hFa).mono le_rfl (by omega)

private theorem length_le_currentSize {l : List ℤ} (hnodup : l.Nodup) (hin : ∀ a ∈ l, h.HmuIsInHeap a) :
    l.length ≤ h.currentSize.toNat := by
  have hsub : l.toFinset ⊆ Finset.Ico h.baseAddr h.endAddr := by
    intro a ha
    exact Finset.mem_Ico.mpr (hin a (List.mem_toFinset.mp ha))
  have hcard := Finset.card_le_card hsub
  rw [List.toFinset_card_of_nodup hnodup,Int.card_Ico,Heap.endAddr,add_sub_cancel_left] at hcard
  exact hcard

private theorem Regions.getNext_of_ne (hr : Regions h F) (hF : F a s) {b t : ℤ} (hFb : F b t) (hne : b ≠ a)
    (m : Mem UInt8) (next : Option ℤ) :
    getHmuNormalNodeNext (setHmuNormalNodeNext m a next) b = getHmuNormalNodeNext m b := by
  have hmin := hr.smallest a s hF
  have hmin' := hr.smallest b t hFb
  apply getNext_congr
  apply load32_setNext
  rcases hr.disjoint a s b t hF hFb with ⟨heq,-⟩ | hover | hover
  · exact absurd heq.symm hne
  · omega
  · omega

/-- The distance of two chunks fits in a link. -/
private theorem Regions.getNext_self (hr : Regions h F) (hF : F a s) (m : Mem UInt8) {next : Option ℤ}
    (hnext : ∀ b, next = some b → b ≠ a ∧ ∃ t, F b t) :
    getHmuNormalNodeNext (setHmuNormalNodeNext m a next) a = next := by
  apply getNext_setNext
  intro b hb
  obtain ⟨hne,t,hFb⟩ := hnext b hb
  have hbounds := hr.bounds a s hF
  have hbounds' := hr.bounds b t hFb
  have hmin := hr.smallest a s hF
  have hmin' := hr.smallest b t hFb
  have hsize := hr.size
  unfold Heap.endAddr at hbounds hbounds'
  exact ⟨hne,by omega,by omega⟩

/-- A chunk leaves the set; at most links in chunks of the set are written. -/
structure Unlinked (h h' : Heap) (F : ℤ → ℤ → Prop) (a : ℤ) : Prop where
  record : SameRecord h h'
  kfc : Kfc h' fun b t => F b t ∧ b ≠ a
  mem : ∀ z, Outside F z → h'.mem z = h.mem z

theorem Relinked.outside {m m' : Mem UInt8} {as : List ℤ} (hm : Relinked as m m')
    (has : ∀ a ∈ as, ∃ s, F a s ∧ hmuFcNormalMaxSize ≤ s) {z : ℤ} (hz : Outside F z) : m' z = m z := by
  apply hm
  intro a ha
  obtain ⟨s,hFa,hs⟩ := has a ha
  rw [normalMaxSize_eq] at hs
  have hout := hz a s hFa
  omega

theorem Relinked.next {m m' : Mem UInt8} {as : List ℤ} (hm : Relinked as m m')
    (has : ∀ a ∈ as, ∃ s, F a s ∧ hmuFcNormalMaxSize ≤ s) (hr : Regions h F) (hF : F a s)
    (hsmall : s < hmuFcNormalMaxSize) : load32 m' (a + 4) = load32 m (a + 4) := by
  have hmin := hr.smallest a s hF
  have hsame : SameOn (a + 4) (a + 8) m m' := by
    intro z hz hz'
    apply hm
    intro b hb
    obtain ⟨t,hFb,ht⟩ := has b hb
    rw [normalMaxSize_eq] at ht hsmall
    rcases hr.disjoint a s b t hF hFb with ⟨-,heq⟩ | hover | hover <;> omega
  exact hsame.load32 le_rfl (by omega)

theorem Kfc.unlinkTree (hk : Kfc h F) (hr : Regions h F) (hF : F a s) (hbig : hmuFcNormalMaxSize ≤ s) :
    ∃ h', removeTreeNode h a = (h', true) ∧ Unlinked h h' F a := by
  have hmem : a ∈ h.kfcTree.items := List.mem_map.mpr ⟨(a, s),(hk.tree a s).mpr ⟨hF,hbig⟩,rfl⟩
  have hentries := KeyTree.erase_entries hk.nodup a
  obtain ⟨m',hremove,hnodes,hm⟩ := removeTreeNode_spec hmem (hk.apart hr) hk.nodes (hk.items_inHeap hr)
  have hitems (b : ℤ) (hb : b ∈ h.kfcTree.items) : ∃ t, F b t ∧ hmuFcNormalMaxSize ≤ t := hk.item hb
  refine ⟨_,hremove,⟨rfl,rfl,rfl,rfl,rfl,rfl⟩,⟨?_,?_,?_,?_,hnodes⟩,fun z hz => hm.outside hitems hz⟩
  · intro i
    exact hk.normal_congr (G := fun b t => F b t ∧ b ≠ a) i
      (fun b hFb hlt => getNext_congr (hm.next hitems hr hFb hlt)) fun b hlt => hr.without hF (by omega)
  · change (h.kfcTree.erase a).Sorted
    rw [KeyTree.Sorted,hentries]
    exact hk.sorted.filter _
  · change ((h.kfcTree.erase a).entries.map Prod.fst).Nodup
    rw [hentries]
    exact hk.nodup.sublist (List.filter_sublist.map _)
  · intro b t
    change (b, t) ∈ (h.kfcTree.erase a).entries ↔ _
    rw [hentries,List.mem_filter,hk.tree b t,and_right_comm]
    simp

theorem Kfc.unlinkList (hk : Kfc h F) (hr : Regions h F) (hF : F a s) (hsmall : s < hmuFcNormalMaxSize) :
    ∃ h', unlinkNormal h (s / 8).toNat a (h.currentSize.toNat + 1) none (h.kfcNormalList (s / 8).toNat) =
      (h', true) ∧ Unlinked h h' F a := by
  obtain ⟨k,hk8⟩ := (hr.fits a s hF).aligned
  have hmin := hr.smallest a s hF
  have hidx : (((s / 8).toNat : ℕ) : ℤ) * 8 = s := by omega
  generalize (s / 8).toNat = i at hidx
  obtain ⟨l,hchain,hnodup,hl⟩ := hk.normal i
  have ha : a ∈ l := (hl a).mpr ⟨hidx ▸ hF,hidx ▸ hsmall⟩
  obtain ⟨p,q,rfl⟩ := List.append_of_mem ha
  obtain ⟨-,-,hpq⟩ := List.nodup_append.mp hnodup
  have hap : a ∉ p := fun hp => hpq a hp a List.mem_cons_self rfl
  have hin : ∀ b ∈ p ++ a::q, h.HmuIsInHeap b := fun b hb => hr.inHeap ((hl b).mp hb).1
  have hlen := length_le_currentSize hnodup hin
  rw [List.length_append,List.length_cons] at hlen
  rw [unlinkNormal_eq h i hchain hap hin (by omega),Option.or_none]
  have hthis (b : ℤ) : b ∈ p ++ q ↔ (F b (i * 8) ∧ b ≠ a) ∧ (i : ℤ) * 8 < hmuFcNormalMaxSize := by
    have herase : (p ++ a::q).erase a = p ++ q := by rw [List.erase_append_right _ hap,List.erase_cons_head]
    rw [← herase,hnodup.mem_erase_iff,hl b,and_comm,and_right_comm]
  have hsub : (p ++ q).Nodup := hnodup.sublist ((List.sublist_cons_self a q).append_left p)
  have htree (b t : ℤ) : (b, t) ∈ h.kfcTree.entries ↔ (F b t ∧ b ≠ a) ∧ hmuFcNormalMaxSize ≤ t := by
    rw [hk.tree b t]
    exact and_congr_left fun hle => (hr.without hF (by omega)).symm
  cases hlast : p.getLast? with
  | none =>
    have hp : p = [] := List.getLast?_eq_none_iff.mp hlast
    subst hp
    refine ⟨_,rfl,⟨rfl,rfl,rfl,rfl,rfl,rfl⟩,⟨?_,hk.sorted,hk.nodup,htree,hk.nodes⟩,fun _ _ => rfl⟩
    intro j
    by_cases hj : j = i
    · subst hj
      refine ⟨q,?_,hsub,hthis⟩
      simp only [Function.update_self]
      exact hchain.2
    · simp only [Function.update_of_ne hj]
      exact hk.normal_congr (G := fun b t => F b t ∧ b ≠ a) j (fun _ _ _ => rfl) fun b _ => hr.without hF (by omega)
  | some prev =>
    have hprev : prev ∈ p := List.mem_of_getLast? hlast
    have hne : p ≠ [] := by
      rintro rfl
      exact absurd hprev List.not_mem_nil
    have hFprev := ((hl prev).mp (List.mem_append_left _ hprev)).1
    have hself : getHmuNormalNodeNext (setHmuNormalNodeNext h.mem prev (getHmuNormalNodeNext h.mem a)) prev =
        getHmuNormalNodeNext h.mem a := by
      apply hr.getNext_self hFprev
      intro b hb
      obtain ⟨mid,hmid,-⟩ := hchain.append
      have hbq : b ∈ q := hmid.2.mem_of_head hb
      refine ⟨?_,_,((hl b).mp (List.mem_append_right _ (List.mem_cons_of_mem a hbq))).1⟩
      rintro rfl
      exact hpq b hprev b (List.mem_cons_of_mem a hbq) rfl
    have hminprev := hr.smallest _ _ hFprev
    have hnodes : NodesAt (setHmuNormalNodeNext h.mem prev (getHmuNormalNodeNext h.mem a)) h.kfcTreeRoot
        h.kfcTree := by
      apply hk.nodes.congr
      intro b hb z hz hz'
      obtain ⟨t,hFb,ht⟩ := hk.item hb
      rw [normalMaxSize_eq] at ht hsmall
      apply setNext_outside
      rcases hr.disjoint _ _ _ _ hFprev hFb with ⟨-,heq⟩ | hover | hover <;> omega
    have hmem (z : ℤ) (hz : Outside F z) :
        setHmuNormalNodeNext h.mem prev (getHmuNormalNodeNext h.mem a) z = h.mem z := by
      have hout := hz _ _ hFprev
      exact setNext_outside _ _ (by omega)
    refine ⟨_,rfl,⟨rfl,rfl,rfl,rfl,rfl,rfl⟩,⟨?_,hk.sorted,hk.nodup,htree,hnodes⟩,hmem⟩
    intro j
    by_cases hj : j = i
    · subst hj
      refine ⟨p ++ q,?_,hsub,hthis⟩
      rw [← if_neg (c := p = []) (t := getHmuNormalNodeNext h.mem a) hne (e := h.kfcNormalList j)]
      apply hchain.remove hnodup
      · intro b hb
        rw [← Option.some.inj (hlast.symm.trans hb)]
        exact hself
      · intro b hb hbne
        refine hr.getNext_of_ne hFprev ((hl b).mp hb).1 ?_ _ _
        intro heq
        exact hbne (by rw [hlast,heq])
    · refine hk.normal_congr (G := fun b t => F b t ∧ b ≠ a) j (fun b hFb _ => hr.getNext_of_ne hFprev hFb ?_ _ _)
        fun b _ => hr.without hF (by omega)
      rintro rfl
      have heq := hr.size_eq hFprev hFb
      omega

theorem unlinkHmu_spec (hk : Kfc h F) (hr : Regions h F) (hF : F a s)
    (hut : hmuGetUt (h.header a) = hmuFc) (hsize : hmuGetSize (h.header a) = s) :
    ∃ h', unlinkHmu h a = (h', true) ∧ Unlinked h h' F a := by
  rw [unlinkHmu,if_neg (not_not.mpr hut)]
  simp only [hsize]
  by_cases hsmall : s < hmuFcNormalMaxSize
  · rw [if_pos hsmall]
    exact hk.unlinkList hr hF hsmall
  · rw [if_neg hsmall]
    exact hk.unlinkTree hr hF (not_lt.mp hsmall)

/-- Where the links of a free chunk end. -/
def linkEnd (s : ℤ) : ℤ := if s < hmuFcNormalMaxSize then 8 else 32

/-- A chunk comes into the set. Its header, its links and its last word are written, and at most links in
chunks of the set. -/
structure Added (h h' : Heap) (F : ℤ → ℤ → Prop) (a s : ℤ) : Prop where
  record : SameRecord h h'
  kfc : Kfc h' fun b t => F b t ∨ (b = a ∧ t = s)
  mem : ∀ z, Outside F z → z < a ∨ a + s ≤ z → h'.mem z = h.mem z
  inner : ∀ z, a + linkEnd s ≤ z → z < a + s - 4 → h'.mem z = h.mem z
  header : h'.header a = hmuSetSize s (hmuSetUt hmuFc (h.header a))
  footer : load32 h'.mem (a + s - 4) = BitVec.ofInt 32 s
  node : hmuFcNormalMaxSize ≤ s → ∃ parent, NodeAt h'.mem a s none none parent ∧
    (parent = h.kfcTreeRoot ∨ ∃ t, F parent t ∧ hmuFcNormalMaxSize ≤ t)

/-- A chunk of its own, that may come into the set. -/
structure Fresh (h : Heap) (F : ℤ → ℤ → Prop) (a s : ℤ) : Prop where
  bounds : h.baseAddr ≤ a ∧ a + s ≤ h.endAddr
  smallest : 16 ≤ s
  fits : Fits s
  disjoint : ∀ b t, F b t → b + t ≤ a ∨ a + s ≤ b

theorem Fresh.ne {b t : ℤ} (hf : Fresh h F a s) (hr : Regions h F) (hF : F b t) : b ≠ a := by
  have hmin := hf.smallest
  have hmin' := hr.smallest b t hF
  rcases hf.disjoint b t hF with hover | hover <;> omega

theorem Fresh.inHeap (hf : Fresh h F a s) : h.HmuIsInHeap a := by
  have hbounds := hf.bounds
  have hmin := hf.smallest
  exact ⟨hbounds.1,by omega⟩

theorem Fresh.regions (hf : Fresh h F a s) (hr : Regions h F) : Regions h fun b t => F b t ∨ (b = a ∧ t = s) := by
  refine ⟨?_,?_,?_,?_,hr.size⟩
  · rintro b t (hFb | ⟨rfl,rfl⟩)
    · exact hr.bounds b t hFb
    · exact hf.bounds
  · rintro b t (hFb | ⟨rfl,rfl⟩)
    · exact hr.smallest b t hFb
    · exact hf.smallest
  · rintro b t (hFb | ⟨rfl,rfl⟩)
    · exact hr.fits b t hFb
    · exact hf.fits
  · rintro b t c u (hFb | ⟨rfl,rfl⟩) (hFc | ⟨rfl,rfl⟩)
    · exact hr.disjoint b t c u hFb hFc
    · exact .inr (hf.disjoint b t hFb)
    · exact .inr (hf.disjoint c u hFc).symm
    · exact .inl ⟨rfl,rfl⟩

/-- What `gci_add_fc` writes before it lists the chunk. -/
def freeMem (h : Heap) (a s : ℤ) : Mem UInt8 :=
  store32 (store32 h.mem a (hmuSetSize s (hmuSetUt hmuFc (h.header a)))) (a + s - 4) (BitVec.ofInt 32 s)

private theorem setFreeSize_eq (h : Heap) (a : ℤ) (hs : Fits s) :
    hmuSetFreeSize ((h.setHeader a (hmuSetUt hmuFc)).setHeader a (hmuSetSize s)) a =
      { h with mem := freeMem h a s } := by
  have hmem : store32 (store32 h.mem a (hmuSetUt hmuFc (h.header a))) a =
      fun word => store32 h.mem a word := by
    funext word z
    unfold store32
    split <;> rfl
  simp only [hmuSetFreeSize,Heap.setHeader,Heap.header,load32_store32,hmuGetSize_setSize _ hs,freeMem]
  rw [← Heap.header,hmem]

private theorem freeMem_outside (h : Heap) {z : ℤ} (hs : 16 ≤ s)
    (hz : z < a ∨ a + 4 ≤ z ∧ z < a + s - 4 ∨ a + s ≤ z) : freeMem h a s z = h.mem z := by
  rw [freeMem,store32_outside _ _ (by omega),store32_outside _ _ (by omega)]

private theorem load32_freeMem_header (h : Heap) (hs : 16 ≤ s) :
    load32 (freeMem h a s) a = hmuSetSize s (hmuSetUt hmuFc (h.header a)) := by
  rw [freeMem,load32_store32_of_disjoint _ _ (by omega),load32_store32]

private theorem load32_freeMem_of_disjoint {b : ℤ} (h : Heap) (hs : 16 ≤ s) (hb : b + 4 ≤ a ∨ a + s ≤ b) :
    load32 (freeMem h a s) b = load32 h.mem b := by
  have hsame : SameOn b (b + 4) h.mem (freeMem h a s) :=
    fun z hz hz' => freeMem_outside h hs (by omega)
  exact hsame.load32 le_rfl le_rfl

/-- What it writes before a chunk of the tree gets its place there. -/
def nodeMem (h : Heap) (a s : ℤ) : Mem UInt8 := clearLinks (setSize (freeMem h a s) a s) a

private theorem nodeMem_outside (h : Heap) {z : ℤ} (hz : z < a + 4 ∨ a + 32 ≤ z) :
    nodeMem h a s z = freeMem h a s z := by
  rw [nodeMem,relinked_clearLinks z (by simp only [List.forall_mem_singleton]; omega),setSize,
    store32_outside _ _ (by omega)]

private theorem nodeAt_nodeMem (h : Heap) (a s : ℤ) : NodeAt (nodeMem h a s) a s none none 0 :=
  nodeAt_clearLinks (load32_store32 _ _ _)

private theorem Fresh.outside (hf : Fresh h F a s) (hr : Regions h F) {z : ℤ} (hz : a ≤ z) (hz' : z < a + s) :
    Outside F z := by
  intro b t hFb
  have hover := hf.disjoint b t hFb
  have hmin := hr.smallest b t hFb
  omega

private theorem Fresh.sameOn_nodeMem (hf : Fresh h F a s) (hr : Regions h F) (hbig : hmuFcNormalMaxSize ≤ s)
    {b t : ℤ} (hFb : F b t) : SameOn b (b + t) h.mem (nodeMem h a s) := by
  intro z hz hz'
  have hover := hf.disjoint b t hFb
  have hmin := hr.smallest b t hFb
  rw [normalMaxSize_eq] at hbig
  rw [nodeMem_outside h (by omega),freeMem_outside h hf.smallest (by omega)]

private theorem Fresh.apart (hf : Fresh h F a s) (hk : Kfc h F) (hbig : hmuFcNormalMaxSize ≤ s) :
    ∀ b ∈ h.kfcTree.items, Apart b a := by
  intro b hb
  obtain ⟨t,hFb,ht⟩ := hk.item hb
  rw [normalMaxSize_eq] at hbig ht
  rcases hf.disjoint b t hFb with hover | hover
  · exact .inl (by omega)
  · exact .inr (by omega)

private theorem Fresh.nodes (hf : Fresh h F a s) (hk : Kfc h F) (hr : Regions h F) (hbig : hmuFcNormalMaxSize ≤ s) :
    NodesAt (nodeMem h a s) h.kfcTreeRoot h.kfcTree := by
  apply hk.nodes.congr
  intro b hb
  obtain ⟨t,hFb,ht⟩ := hk.item hb
  rw [normalMaxSize_eq] at ht
  exact (hf.sameOn_nodeMem hr hbig hFb).mono (by omega) (by omega)

private theorem Kfc.nodup_insert (hk : Kfc h F) (hr : Regions h F) (hf : Fresh h F a s) :
    (h.kfcTree.insert a s).items.Nodup := by
  change ((h.kfcTree.insert a s).entries.map Prod.fst).Nodup
  rw [((KeyTree.insert_perm a s h.kfcTree).map Prod.fst).nodup_iff,List.map_cons,List.nodup_cons]
  refine ⟨?_,hk.nodup⟩
  intro hmem
  obtain ⟨⟨b,t⟩,hentry,hb⟩ := List.mem_map.mp hmem
  exact hf.ne hr ((hk.tree b t).mp hentry).1 hb

private theorem Kfc.mem_insert (hk : Kfc h F) (hbig : hmuFcNormalMaxSize ≤ s) (b t : ℤ) :
    (b, t) ∈ (h.kfcTree.insert a s).entries ↔ (F b t ∨ (b = a ∧ t = s)) ∧ hmuFcNormalMaxSize ≤ t := by
  rw [(KeyTree.insert_perm a s h.kfcTree).mem_iff,List.mem_cons,hk.tree b t,Prod.mk.injEq]
  constructor
  · rintro (⟨hb,ht⟩ | ⟨hFb,hle⟩)
    · exact ⟨.inr ⟨hb,ht⟩,by omega⟩
    · exact ⟨.inl hFb,hle⟩
  · rintro ⟨hFb | ⟨hb,ht⟩,hle⟩
    · exact .inr ⟨hFb,hle⟩
    · exact .inl ⟨hb,ht⟩

/-- Hanging a node into a slot writes into that node and the one of the slot. -/
private theorem hang_outside {m : Mem UInt8} {slot : Slot} {z : ℤ} (hz : Outside F z) (hza : z < a + 8 ∨ a + 32 ≤ z)
    (hslot : ∀ b ∈ slot.nodes, ∃ t, F b t ∧ hmuFcNormalMaxSize ≤ t) : hang h m slot a z = m z := by
  apply relinked_hang
  intro b hb
  rw [List.mem_append,List.mem_singleton] at hb
  rcases hb with hb | rfl
  · obtain ⟨t,hFb,ht⟩ := hslot b hb
    rw [normalMaxSize_eq] at ht
    have hout := hz b t hFb
    omega
  · exact hza

private theorem Kfc.addTree (hk : Kfc h F) (hr : Regions h F) (hf : Fresh h F a s) (hbig : hmuFcNormalMaxSize ≤ s) :
    ∃ slot, insertTreeNode { h with mem := freeMem h a s } a s .root h.kfcTree = some (h.kfcTree.insert a s, slot) ∧
      Added h { h with mem := hang h (nodeMem h a s) slot a, kfcTree := h.kfcTree.insert a s } F a s := by
  have hs : 248 ≤ s := hbig
  have hapart := hf.apart hk hbig
  have hspread : Spread .root h.kfcTree := hk.apart hr
  obtain ⟨slot,hinsert,hwhere,hlinked⟩ := insertTreeNode_spec (h := { h with mem := freeMem h a s })
    (m := nodeMem h a s) hspread (hf.nodes hk hr hbig) (hk.items_inHeap hr) hapart (nodeAt_nodeMem h a s)
  have hsub : slot.nodes ⊆ h.kfcTree.items := by
    rcases hwhere with ⟨-,rfl⟩ | ⟨hsub,-⟩
    · exact List.nil_subset _
    · exact hsub
  have hslot : ∀ b ∈ slot.nodes, ∃ t, F b t ∧ hmuFcNormalMaxSize ≤ t := fun b hb => hk.item (hsub hb)
  have hhead : SameOn a (a + 4) (freeMem h a s) (hang h (nodeMem h a s) slot a) := fun z hz hz' =>
    (hang_outside (hf.outside hr hz (by omega)) (by omega) hslot).trans (nodeMem_outside h (by omega))
  have hrest : SameOn (a + 32) (a + s) (freeMem h a s) (hang h (nodeMem h a s) slot a) := fun z hz hz' =>
    (hang_outside (hf.outside hr (by omega) hz') (by omega) hslot).trans (nodeMem_outside h (by omega))
  refine ⟨slot,hinsert,⟨rfl,rfl,rfl,rfl,rfl,rfl⟩,
    ⟨?_,hk.sorted.insert a s,hk.nodup_insert hr hf,hk.mem_insert hbig,hlinked⟩,?_,?_,?_,?_,?_⟩
  · intro i
    refine hk.normal_congr (G := fun b t => F b t ∨ (b = a ∧ t = s)) i (fun b hFb hlt => getNext_congr ?_)
      fun b _ => or_iff_left (by omega)
    have hmin := hr.smallest b _ hFb
    have hover := hf.disjoint b _ hFb
    calc load32 (hang h (nodeMem h a s) slot a) (b + 4)
      _ = load32 (slot.set (nodeMem h a s) (some a)) (b + 4) := load32_store64_of_disjoint _ _ (by omega)
      _ = load32 (nodeMem h a s) (b + 4) := (relinked_set slot _).next hslot hr hFb hlt
      _ = load32 h.mem (b + 4) := (hf.sameOn_nodeMem hr hbig hFb).load32 (by omega) (by omega)
  · intro z hz hza
    exact (hang_outside hz (by omega) hslot).trans
      ((nodeMem_outside h (by omega)).trans (freeMem_outside h hf.smallest (by omega)))
  · intro z hz hz'
    rw [linkEnd,if_neg (not_lt.mpr hbig)] at hz
    exact (hrest z hz (by omega)).trans (freeMem_outside h hf.smallest (by omega))
  · exact (hhead.load32 le_rfl le_rfl).trans (load32_freeMem_header h hf.smallest)
  · exact (hrest.load32 (by omega) (by omega)).trans (load32_store32 _ _ _)
  · intro _
    have hset : NodeAt (slot.set (nodeMem h a s) (some a)) a s none none 0 :=
      (nodeAt_nodeMem h a s).congr ((relinked_set slot _).sameOn fun b hb => hapart b (hsub hb))
    refine ⟨slot.parent h,hset.setParent _,?_⟩
    cases slot with
    | root => exact .inl rfl
    | left p => exact .inr (hslot p List.mem_cons_self)
    | right p => exact .inr (hslot p List.mem_cons_self)

private theorem Kfc.addList (hk : Kfc h F) (hr : Regions h F) (hf : Fresh h F a s) (hsmall : s < hmuFcNormalMaxSize) :
    Added h
      { h with
        mem := setHmuNormalNodeNext (freeMem h a s) a (h.kfcNormalList (s / 8).toNat)
        kfcNormalList := Function.update h.kfcNormalList (s / 8).toNat (some a) } F a s := by
  obtain ⟨k,hk8⟩ := hf.fits.aligned
  have hmin := hf.smallest
  have hidx : (((s / 8).toNat : ℕ) : ℤ) * 8 = s := by omega
  generalize (s / 8).toNat = i at hidx
  obtain ⟨l,hchain,hnodup,hl⟩ := hk.normal i
  have hr' := hf.regions hr
  have hother (b t : ℤ) (hFb : F b t) :
      getHmuNormalNodeNext (setHmuNormalNodeNext (freeMem h a s) a (h.kfcNormalList i)) b =
        getHmuNormalNodeNext h.mem b := by
    have hminb := hr.smallest b t hFb
    have hover := hf.disjoint b t hFb
    rw [hr'.getNext_of_ne (.inr ⟨rfl,rfl⟩) (.inl hFb) (hf.ne hr hFb)]
    exact getNext_congr (load32_freeMem_of_disjoint h hmin (by omega))
  have hself : getHmuNormalNodeNext (setHmuNormalNodeNext (freeMem h a s) a (h.kfcNormalList i)) a =
      h.kfcNormalList i := by
    apply hr'.getNext_self (.inr ⟨rfl,rfl⟩)
    intro b hb
    have hFb := ((hl b).mp (hchain.mem_of_head hb)).1
    exact ⟨hf.ne hr hFb,_,.inl hFb⟩
  have hnodes : NodesAt (setHmuNormalNodeNext (freeMem h a s) a (h.kfcNormalList i)) h.kfcTreeRoot h.kfcTree := by
    apply hk.nodes.congr
    intro b hb z hz hz'
    obtain ⟨t,hFb,ht⟩ := hk.item hb
    rw [normalMaxSize_eq] at ht
    have hover := hf.disjoint b t hFb
    rw [setNext_outside _ _ (by omega),freeMem_outside h hmin (by omega)]
  refine ⟨⟨rfl,rfl,rfl,rfl,rfl,rfl⟩,⟨?_,hk.sorted,hk.nodup,?_,hnodes⟩,?_,?_,?_,?_,
    fun hbig => absurd hsmall (not_lt.mpr hbig)⟩
  · intro j
    by_cases hj : j = i
    · subst hj
      refine ⟨a::l,?_,?_,?_⟩
      · simp only [Function.update_self]
        apply hchain.cons hself
        intro b hb
        exact hother b _ ((hl b).mp hb).1
      · refine List.nodup_cons.mpr ⟨?_,hnodup⟩
        intro ha
        exact hf.ne hr ((hl a).mp ha).1 rfl
      · intro b
        rw [List.mem_cons,hl b]
        constructor
        · rintro (rfl | ⟨hFb,hlt⟩)
          · exact ⟨.inr ⟨rfl,hidx⟩,by omega⟩
          · exact ⟨.inl hFb,hlt⟩
        · rintro ⟨hFb | ⟨hb,-⟩,hlt⟩
          · exact .inr ⟨hFb,hlt⟩
          · exact .inl hb
    · simp only [Function.update_of_ne hj]
      exact hk.normal_congr (G := fun b t => F b t ∨ (b = a ∧ t = s)) j (fun b hFb _ => hother b _ hFb)
        fun b _ => or_iff_left (by omega)
  · intro b t
    change (b, t) ∈ h.kfcTree.entries ↔ _
    rw [hk.tree b t]
    exact and_congr_left fun hle => (or_iff_left (by omega)).symm
  · intro z _ hz
    change setHmuNormalNodeNext (freeMem h a s) a (h.kfcNormalList i) z = h.mem z
    rw [setNext_outside _ _ (by omega),freeMem_outside h hmin (by omega)]
  · intro z hz hz'
    rw [linkEnd,if_pos hsmall] at hz
    change setHmuNormalNodeNext (freeMem h a s) a (h.kfcNormalList i) z = h.mem z
    rw [setNext_outside _ _ (by omega),freeMem_outside h hmin (by omega)]
  · change load32 (setHmuNormalNodeNext (freeMem h a s) a (h.kfcNormalList i)) a = _
    rw [load32_setNext _ _ (by omega),load32_freeMem_header h hmin]
  · change load32 (setHmuNormalNodeNext (freeMem h a s) a (h.kfcNormalList i)) (a + s - 4) = _
    rw [load32_setNext _ _ (by omega)]
    exact load32_store32 _ _ _

theorem gciAddFc_spec (hk : Kfc h F) (hr : Regions h F) (hf : Fresh h F a s) :
    ∃ h', gciAddFc h a s = (h', true) ∧ Added h h' F a s := by
  rw [gciAddFc,setFreeSize_eq h a hf.fits]
  simp only
  by_cases hsmall : s < hmuFcNormalMaxSize
  · have hin : ({ h with mem := freeMem h a s } : Heap).HmuIsInHeap a := hf.inHeap
    rw [if_pos hsmall,if_neg (not_not.mpr hin)]
    exact ⟨_,rfl,hk.addList hr hf hsmall⟩
  · obtain ⟨slot,hinsert,hadded⟩ := hk.addTree hr hf (not_lt.mp hsmall)
    rw [if_neg hsmall,hinsert]
    exact ⟨_,rfl,hadded⟩

end Operations

end WamrTest.Ems
