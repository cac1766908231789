import WamrTest.Ems.Heap

/-!
# The nodes of the tree

What `gci_add_fc` and `remove_tree_node` write into the chunks from 248 bytes on. In each chunk of the
tree stand its size and the addresses of its neighbours there, so the tree is what the source reads.
-/

namespace WamrTest.Ems

open ByteMemory SearchTree

structure NodeAt (m : Mem UInt8) (a s : ℤ) (left right : Option ℤ) (parent : ℤ) : Prop where
  size : load32 m (a + 4) = BitVec.ofInt 32 s
  left : load64 m (a + 8) = pointer left
  right : load64 m (a + 16) = pointer right
  parent : load64 m (a + 24) = pointer (some parent)

/-- The nodes of a tree whose top has the given parent. -/
def NodesAt (m : Mem UInt8) : ℤ → KfcTree → Prop
  | _, .nil => True
  | parent, .node l a s r => NodeAt m a s l.top r.top parent ∧ NodesAt m a l ∧ NodesAt m a r

def Apart (a b : ℤ) : Prop := a + 32 ≤ b ∨ b + 32 ≤ a

/-- At most the pointers in the nodes of the list are written. -/
def Relinked (as : List ℤ) (m m' : Mem UInt8) : Prop := ∀ z, (∀ a ∈ as, z < a + 8 ∨ a + 32 ≤ z) → m' z = m z

def Slot.nodes : Slot → List ℤ
  | .root => []
  | .left parent => [parent]
  | .right parent => [parent]

section Stores

variable {m m' m'' : Mem UInt8} {a b s parent : ℤ} {left right : Option ℤ} {as bs : List ℤ} {t : KfcTree}

theorem Apart.symm (h : Apart a b) : Apart b a := Or.symm h

theorem Apart.ne (h : Apart a b) : a ≠ b := by
  rintro rfl
  rcases h with h | h <;> omega

theorem Relinked.trans (h : Relinked as m m') (h' : Relinked as m' m'') : Relinked as m m'' :=
  fun z hz => (h' z hz).trans (h z hz)

theorem Relinked.mono (h : Relinked as m m') (hsub : as ⊆ bs) : Relinked bs m m' :=
  fun z hz => h z fun a ha => hz a (hsub ha)

theorem Relinked.sameOn (h : Relinked as m m') (hb : ∀ a ∈ as, Apart a b) : SameOn (b + 4) (b + 32) m m' := by
  intro z hz hz'
  apply h
  intro a ha
  rcases hb a ha with hab | hba <;> omega

private theorem relinked_store {i : ℤ} (word : BitVec 64) (h : 8 ≤ i) (h' : i ≤ 24) :
    Relinked [a] m (store64 m (a + i) word) := by
  intro z hz
  have ha := hz a List.mem_cons_self
  exact store64_outside m word (by omega)

theorem relinked_clearLinks : Relinked [a] m (clearLinks m a) :=
  ((relinked_store _ (by decide) (by decide)).trans (relinked_store _ (by decide) (by decide))).trans
    (relinked_store _ (by decide) (by decide))

private theorem relinked_adopt : Relinked t.items m (adopt m parent t.top) := by
  cases t with
  | nil => exact fun _ _ => rfl
  | node l b k r =>
    apply (relinked_store _ (by decide) (by decide)).mono
    simp [KeyTree.items_node]

theorem relinked_set (slot : Slot) (p : Option ℤ) : Relinked slot.nodes m (slot.set m p) := by
  cases slot with
  | root => exact fun _ _ => rfl
  | left => exact relinked_store _ (by decide) (by decide)
  | right => exact relinked_store _ (by decide) (by decide)

theorem Relinked.set (h : Relinked as m m') (slot : Slot) (p : Option ℤ) :
    Relinked as (slot.set m p) (slot.set m' p) := by
  intro z hz
  cases slot with
  | root => exact h z hz
  | left => exact store64_congr _ (h z hz)
  | right => exact store64_congr _ (h z hz)

theorem NodeAt.congr (h : NodeAt m a s left right parent) (hsame : SameOn (a + 4) (a + 32) m m') :
    NodeAt m' a s left right parent := by
  refine ⟨?_,?_,?_,?_⟩
  · rw [hsame.load32 le_rfl (by omega),h.size]
  · rw [hsame.load64 (by omega) (by omega),h.left]
  · rw [hsame.load64 (by omega) (by omega),h.right]
  · rw [hsame.load64 (by omega) (by omega),h.parent]

theorem NodesAt.congr (h : NodesAt m parent t) (hsame : ∀ a ∈ t.items, SameOn (a + 4) (a + 32) m m') :
    NodesAt m' parent t := by
  induction t generalizing parent with
  | nil => trivial
  | node l a s r ihl ihr =>
    rw [KeyTree.items_node] at hsame
    obtain ⟨ha,hl,hr⟩ := h
    refine ⟨ha.congr (hsame a (by simp)),ihl hl ?_,ihr hr ?_⟩
    · exact fun b hb => hsame b (List.mem_append_left _ hb)
    · exact fun b hb => hsame b (List.mem_append_right _ (List.mem_cons_of_mem a hb))

theorem NodesAt.relinked (h : NodesAt m parent t) (hm : Relinked as m m')
    (hapart : ∀ a ∈ as, ∀ b ∈ t.items, Apart a b) : NodesAt m' parent t :=
  h.congr fun b hb => hm.sameOn fun a ha => hapart a ha b hb

theorem NodeAt.setLeft (h : NodeAt m a s left right parent) (p : Option ℤ) :
    NodeAt (Ems.setLeft m a p) a s p right parent := by
  refine ⟨?_,load64_store64 _ _ _,?_,?_⟩
  · rw [Ems.setLeft,load32_store64_of_disjoint _ _ (by omega),h.size]
  · rw [Ems.setLeft,load64_store64_of_disjoint _ _ (by omega),h.right]
  · rw [Ems.setLeft,load64_store64_of_disjoint _ _ (by omega),h.parent]

theorem NodeAt.setRight (h : NodeAt m a s left right parent) (p : Option ℤ) :
    NodeAt (Ems.setRight m a p) a s left p parent := by
  refine ⟨?_,?_,load64_store64 _ _ _,?_⟩
  · rw [Ems.setRight,load32_store64_of_disjoint _ _ (by omega),h.size]
  · rw [Ems.setRight,load64_store64_of_disjoint _ _ (by omega),h.left]
  · rw [Ems.setRight,load64_store64_of_disjoint _ _ (by omega),h.parent]

theorem NodeAt.setParent (h : NodeAt m a s left right parent) (p : ℤ) :
    NodeAt (Ems.setParent m a (some p)) a s left right p := by
  refine ⟨?_,?_,?_,load64_store64 _ _ _⟩
  · rw [Ems.setParent,load32_store64_of_disjoint _ _ (by omega),h.size]
  · rw [Ems.setParent,load64_store64_of_disjoint _ _ (by omega),h.left]
  · rw [Ems.setParent,load64_store64_of_disjoint _ _ (by omega),h.right]

theorem NodeAt.setSize (h : NodeAt m a s left right parent) (size : ℤ) :
    NodeAt (Ems.setSize m a size) a size left right parent := by
  have hsame : SameOn (a + 8) (a + 32) m (Ems.setSize m a size) := sameOn_store32 m _ (by omega)
  refine ⟨load32_store32 _ _ _,?_,?_,?_⟩
  · rw [hsame.load64 (by omega) (by omega),h.left]
  · rw [hsame.load64 (by omega) (by omega),h.right]
  · rw [hsame.load64 (by omega) (by omega),h.parent]

theorem Relinked.size (h : Relinked as m m') (hb : ∀ a ∈ as, a = b ∨ Apart a b) :
    load32 m' (b + 4) = load32 m (b + 4) := by
  have hsame : SameOn (b + 4) (b + 8) m m' := by
    intro z hz hz'
    apply h
    intro a ha
    rcases hb a ha with rfl | hab | hba <;> omega
  exact hsame.load32 le_rfl (by omega)

private theorem nodeAt_links (hsize : load32 m (a + 4) = BitVec.ofInt 32 s) (left right : Option ℤ) (parent : ℤ) :
    NodeAt (setRight (setLeft (setParent m a (some parent)) a left) a right) a s left right parent := by
  refine ⟨?_,?_,load64_store64 _ _ _,?_⟩
  · rw [setRight,load32_store64_of_disjoint _ _ (by omega),setLeft,load32_store64_of_disjoint _ _ (by omega),
      setParent,load32_store64_of_disjoint _ _ (by omega),hsize]
  · rw [setRight,load64_store64_of_disjoint _ _ (by omega),setLeft,load64_store64]
  · rw [setRight,load64_store64_of_disjoint _ _ (by omega),setLeft,load64_store64_of_disjoint _ _ (by omega),
      setParent,load64_store64]

theorem NodesAt.adopt (h : NodesAt m parent t) (hapart : t.items.Pairwise Apart) (p : ℤ) :
    NodesAt (adopt m p t.top) p t := by
  cases t with
  | nil => trivial
  | node l a s r =>
    rw [KeyTree.items_node,List.pairwise_append,List.pairwise_cons] at hapart
    obtain ⟨-,⟨har,-⟩,hla⟩ := hapart
    obtain ⟨ha,hl,hr⟩ := h
    have hm : Relinked [a] m (setParent m a (some p)) := relinked_store _ (by decide) (by decide)
    refine ⟨ha.setParent p,hl.relinked hm ?_,hr.relinked hm ?_⟩
    · intro b hb c hc
      rw [List.mem_singleton.mp hb]
      exact (hla c hc a List.mem_cons_self).symm
    · intro b hb c hc
      rw [List.mem_singleton.mp hb]
      exact har c hc

/-- The stores by which a node comes to stand above two trees. -/
theorem NodesAt.takeChildren {l r : KfcTree} {p : ℤ} (hs : (a::(l.items ++ r.items)).Pairwise Apart)
    (hsize : load32 m (a + 4) = BitVec.ofInt 32 s) (hl : NodesAt m p l) (hr : NodesAt m p r)
    (hm' : m' = Ems.adopt (Ems.adopt
      (Ems.setRight (Ems.setLeft (Ems.setParent m a (some parent)) a l.top) a r.top) a l.top) a r.top) :
    NodesAt m' parent (.node l a s r) ∧ Relinked (a::(l.items ++ r.items)) m m' := by
  obtain ⟨ha,hlr⟩ := List.pairwise_cons.mp hs
  obtain ⟨hll,hrr,hacross⟩ := List.pairwise_append.mp hlr
  have hal : ∀ b ∈ l.items, Apart a b := fun b hb => ha b (List.mem_append_left _ hb)
  have har : ∀ b ∈ r.items, Apart a b := fun b hb => ha b (List.mem_append_right _ hb)
  generalize hm₁ : Ems.setRight (Ems.setLeft (Ems.setParent m a (some parent)) a l.top) a r.top = m₁ at hm'
  have hlinks : Relinked [a] m m₁ := by
    rw [← hm₁]
    exact ((relinked_store _ (by decide) (by decide)).trans (relinked_store _ (by decide) (by decide))).trans
      (relinked_store _ (by decide) (by decide))
  have hadoptl : Relinked l.items m₁ (Ems.adopt m₁ a l.top) := relinked_adopt
  have hadoptr : Relinked r.items (Ems.adopt m₁ a l.top) m' := hm' ▸ relinked_adopt
  have hnode : NodeAt m₁ a s l.top r.top parent := hm₁ ▸ nodeAt_links hsize l.top r.top parent
  have hl₁ : NodesAt m₁ p l := hl.relinked hlinks (by simpa using hal)
  have hr₁ : NodesAt m₁ p r := hr.relinked hlinks (by simpa using har)
  constructor
  · refine ⟨hnode.congr ?_,(hl₁.adopt hll a).relinked hadoptr ?_,?_⟩
    · exact (hadoptl.sameOn fun b hb => (hal b hb).symm).trans (hadoptr.sameOn fun b hb => (har b hb).symm)
    · exact fun b hb c hc => (hacross c hc b hb).symm
    · rw [hm']
      exact (hr₁.relinked hadoptl hacross).adopt hrr a
  · have hsub (as : List ℤ) (has : as ⊆ l.items ++ r.items) : as ⊆ a::(l.items ++ r.items) :=
      List.Subset.trans has (List.subset_cons_self a _)
    refine ((hlinks.mono ?_).trans (hadoptl.mono (hsub _ (List.subset_append_left _ _)))).trans
      (hadoptr.mono (hsub _ (List.subset_append_right _ _)))
    exact List.cons_subset_cons a (List.nil_subset _)

end Stores

/-- The node `p` of size `s` is in a slot of the tree at `slot₀`, above the subtrees `l` and `r`. -/
inductive Sits (p s : ℤ) (slot : Slot) (l r : KfcTree) : Slot → KfcTree → Prop
  | here : Sits p s slot l r slot (.node l p s r)
  | left {slot₀ : Slot} {L R : KfcTree} {b k : ℤ} (h : Sits p s slot l r (.left b) L) :
    Sits p s slot l r slot₀ (.node L b k R)
  | right {slot₀ : Slot} {L R : KfcTree} {b k : ℤ} (h : Sits p s slot l r (.right b) R) :
    Sits p s slot l r slot₀ (.node L b k R)

/-- The nodes of the tree, and the one that it hangs from, do not overlap. -/
def Spread (slot : Slot) (t : KfcTree) : Prop := (slot.nodes ++ t.items).Pairwise Apart

section Positions

variable {h : Heap} {m m' : Mem UInt8} {p s b k : ℤ} {slot slot₀ : Slot} {l r t t' L R : KfcTree}

theorem Spread.nodup (hs : Spread slot t) : t.items.Nodup := (List.pairwise_append.mp hs).2.1.imp Apart.ne

theorem Spread.left (hs : Spread slot (.node L b k R)) : Spread (.left b) L := by
  rw [Spread,KeyTree.items_node,List.pairwise_append,List.pairwise_append] at hs
  obtain ⟨-,⟨hL,-,hLR⟩,-⟩ := hs
  exact List.pairwise_cons.mpr ⟨fun a ha => (hLR a ha b List.mem_cons_self).symm,hL⟩

theorem Spread.right (hs : Spread slot (.node L b k R)) : Spread (.right b) R := by
  rw [Spread,KeyTree.items_node,List.pairwise_append,List.pairwise_append] at hs
  exact hs.2.1.2.1

private theorem Spread.across (hs : Spread slot (.node L b k R)) : ∀ a ∈ b::L.items, ∀ c ∈ R.items, Apart a c := by
  rw [Spread,KeyTree.items_node,List.pairwise_append,List.pairwise_append,List.pairwise_cons] at hs
  obtain ⟨-,⟨-,⟨hb,-⟩,hLR⟩,-⟩ := hs
  intro a ha c hc
  rcases List.mem_cons.mp ha with rfl | ha
  · exact hb c hc
  · exact hLR a ha c (List.mem_cons_of_mem b hc)

private theorem Spread.not_right (hs : Spread slot (.node L b k R)) (hp : p ∈ L.items) : b ≠ p ∧ p ∉ R.items := by
  refine ⟨?_,fun hR => (hs.across p (List.mem_cons_of_mem b hp) p hR).ne rfl⟩
  rintro rfl
  exact (List.nodup_cons.mp (hs.left.imp Apart.ne)).1 hp

private theorem Spread.not_left (hs : Spread slot (.node L b k R)) (hp : p ∈ R.items) : b ≠ p ∧ p ∉ L.items :=
  ⟨(hs.across b List.mem_cons_self p hp).ne,fun hL => (hs.across p (List.mem_cons_of_mem b hL) p hp).ne rfl⟩

theorem Sits.mem (h : Sits p s slot l r slot₀ t) : (p, s) ∈ t.entries := by
  induction h with
  | here => simp [KeyTree.entries]
  | left _ ih => exact List.mem_append_left _ ih
  | right _ ih => exact List.mem_append_right _ (List.mem_cons_of_mem _ ih)

private theorem Sits.mem_items (h : Sits p s slot l r slot₀ t) : p ∈ t.items := List.mem_map.mpr ⟨_,h.mem,rfl⟩

private theorem Sits.under (h : Sits p s slot l r slot₀ t) : p::(l.items ++ r.items) ⊆ t.items := by
  induction h with
  | here =>
    rw [KeyTree.items_node]
    exact List.perm_middle.symm.subset
  | left _ ih =>
    rw [KeyTree.items_node]
    exact List.Subset.trans ih (List.subset_append_left _ _)
  | right _ ih =>
    rw [KeyTree.items_node]
    exact List.Subset.trans ih (List.subset_append_of_subset_right _ (List.subset_cons_self _ _))

private theorem Sits.slot_subset (h : Sits p s slot l r slot₀ t) : slot.nodes ⊆ slot₀.nodes ++ t.items := by
  induction h with
  | here => exact List.subset_append_left _ _
  | left _ ih =>
    rw [KeyTree.items_node]
    intro a ha
    have hmem := ih ha
    simp only [Slot.nodes,List.mem_append,List.mem_cons,List.not_mem_nil,or_false] at hmem ⊢
    tauto
  | right _ ih =>
    rw [KeyTree.items_node]
    intro a ha
    have hmem := ih ha
    simp only [Slot.nodes,List.mem_append,List.mem_cons,List.not_mem_nil,or_false] at hmem ⊢
    tauto

theorem Sits.apart (h : Sits p s slot l r slot₀ t) (hs : Spread slot₀ t) :
    (slot.nodes ++ p::(l.items ++ r.items)).Pairwise Apart := by
  induction h with
  | here =>
    rw [Spread,KeyTree.items_node] at hs
    refine (List.Perm.pairwise_iff (fun h => Apart.symm h) ?_).mpr hs
    exact List.perm_middle.symm.append_left _
  | left _ ih => exact ih hs.left
  | right _ ih => exact ih hs.right

private theorem Sits.nodesAt (hsit : Sits p s slot l r slot₀ t) (hn : NodesAt m (slot₀.parent h) t) :
    NodeAt m p s l.top r.top (slot.parent h) ∧ NodesAt m p l ∧ NodesAt m p r := by
  induction hsit with
  | here => exact hn
  | left _ ih => exact ih hn.2.1
  | right _ ih => exact ih hn.2.2

private theorem exists_sits (hp : p ∈ t.items) (slot₀ : Slot) : ∃ s slot l r, Sits p s slot l r slot₀ t := by
  induction t generalizing slot₀ with
  | nil => exact absurd hp List.not_mem_nil
  | node L b k R ihL ihR =>
    rw [KeyTree.items_node,List.mem_append,List.mem_cons] at hp
    rcases hp with hL | rfl | hR
    · obtain ⟨s,slot,l,r,hsit⟩ := ihL hL (.left b)
      exact ⟨s,slot,l,r,.left hsit⟩
    · exact ⟨k,slot₀,L,R,.here⟩
    · obtain ⟨s,slot,l,r,hsit⟩ := ihR hR (.right b)
      exact ⟨s,slot,l,r,.right hsit⟩

private theorem locate_of_not_mem (hp : p ∉ t.items) (slot₀ : Slot) : locate p slot₀ t = none := by
  induction t generalizing slot₀ with
  | nil => rfl
  | node L b k R ihL ihR =>
    rw [KeyTree.items_node,List.mem_append,List.mem_cons,not_or,not_or] at hp
    rw [locate,if_neg (Ne.symm hp.2.1),ihL hp.1,ihR hp.2.2]
    rfl

theorem Sits.locate (h : Sits p s slot l r slot₀ t) (hs : Spread slot₀ t) :
    locate p slot₀ t = some (slot, l, r) := by
  induction h with
  | here => exact if_pos rfl
  | left h ih =>
    rw [Ems.locate,if_neg (hs.not_right h.mem_items).1,ih hs.left]
    rfl
  | right h ih =>
    obtain ⟨hne,hL⟩ := hs.not_left h.mem_items
    rw [Ems.locate,if_neg hne,locate_of_not_mem hL,ih hs.right]
    rfl

private theorem Sits.graft_left (h : Sits p s slot l r (.left b) L) (hs : Spread slot₀ (.node L b k R))
    (t : KfcTree) :
    (KeyTree.node L b k R).graft p t = .node (L.graft p t) b k R := by
  obtain ⟨hne,hR⟩ := hs.not_right h.mem_items
  rw [KeyTree.graft,if_neg hne,KeyTree.graft_of_not_mem hR]

private theorem Sits.graft_right (h : Sits p s slot l r (.right b) R) (hs : Spread slot₀ (.node L b k R))
    (t : KfcTree) :
    (KeyTree.node L b k R).graft p t = .node L b k (R.graft p t) := by
  obtain ⟨hne,hL⟩ := hs.not_left h.mem_items
  rw [KeyTree.graft,if_neg hne,KeyTree.graft_of_not_mem hL]

private theorem Sits.graft_erase (h : Sits p s slot l r slot₀ t) (hs : Spread slot₀ t) :
    t.graft p (KeyTree.join l r) = t.erase p := by
  induction h with
  | here => rw [KeyTree.graft,KeyTree.erase,if_pos rfl,if_pos rfl]
  | left h ih =>
    obtain ⟨hne,hR⟩ := hs.not_right h.mem_items
    rw [h.graft_left hs,KeyTree.erase,if_neg hne,ih hs.left,KeyTree.erase_of_not_mem hR]
  | right h ih =>
    obtain ⟨hne,hL⟩ := hs.not_left h.mem_items
    rw [h.graft_right hs,KeyTree.erase,if_neg hne,ih hs.right,KeyTree.erase_of_not_mem hL]

/-- Only the top of a tree is in the slot of the tree. -/
theorem Sits.top (h : Sits p s slot l r slot₀ t) (hs : Spread slot₀ t) (t' : KfcTree) :
    (slot = slot₀ ∧ (t.graft p t').top = t'.top) ∨ (slot.nodes ⊆ t.items ∧ (t.graft p t').top = t.top) := by
  cases h with
  | here => exact .inl ⟨rfl,by rw [KeyTree.graft,if_pos rfl]⟩
  | left h =>
    refine .inr ⟨List.Subset.trans h.slot_subset ?_,by rw [h.graft_left hs]; rfl⟩
    rw [KeyTree.items_node]
    exact List.cons_subset.mpr ⟨by simp,List.subset_append_left _ _⟩
  | right h =>
    refine .inr ⟨List.Subset.trans h.slot_subset ?_,by rw [h.graft_right hs]; rfl⟩
    rw [KeyTree.items_node]
    exact List.subset_append_right _ _

/-- What is written when another tree comes into a slot: the slot, and pointers of the nodes that were below. -/
def Regrafted (slot : Slot) (p : ℤ) (l r t' : KfcTree) (m m' : Mem UInt8) : Prop :=
  Relinked (p::(l.items ++ r.items)) (slot.set m t'.top) m'

theorem Regrafted.relinked (hm : Regrafted slot p l r t' m m') :
    Relinked (slot.nodes ++ p::(l.items ++ r.items)) m m' :=
  ((relinked_set slot t'.top).mono (List.subset_append_left _ _)).trans
    (Relinked.mono hm (List.subset_append_right _ _))

private theorem Sits.nodeAt_above {parent : ℤ} {left right : Option ℤ} (hsit : Sits p s slot l r slot₀ t)
    (hs : Spread slot₀ t)
    (hslot : slot₀.nodes = [b]) (hb : NodeAt m b k left right parent) (hm : Regrafted slot p l r t' m m') :
    (slot = slot₀ → ∀ left right, NodeAt (slot₀.set m t'.top) b k left right parent → NodeAt m' b k left right parent) ∧
      (slot.nodes ⊆ t.items → NodeAt m' b k left right parent) := by
  have hapart : ∀ a ∈ t.items, Apart a b := by
    intro a ha
    rw [Spread,hslot] at hs
    exact ((List.pairwise_cons.mp hs).1 a ha).symm
  constructor
  · rintro rfl left right hset
    exact hset.congr (Relinked.sameOn hm fun a ha => hapart a (hsit.under ha))
  · intro hnodes
    refine hb.congr (hm.relinked.sameOn fun a ha => hapart a ?_)
    rcases List.mem_append.mp ha with ha | ha
    · exact hnodes ha
    · exact hsit.under ha

/-- The rest of the tree stands. -/
theorem Sits.graft (hsit : Sits p s slot l r slot₀ t) (hs : Spread slot₀ t) (hn : NodesAt m (slot₀.parent h) t)
    (hsub : NodesAt m' (slot.parent h) t') (hm : Regrafted slot p l r t' m m') :
    NodesAt m' (slot₀.parent h) (t.graft p t') := by
  induction hsit with
  | here =>
    rw [KeyTree.graft,if_pos rfl]
    exact hsub
  | @left slot₀ L R b k hsit ih =>
    rw [hsit.graft_left hs]
    obtain ⟨hb,hL,hR⟩ := hn
    obtain ⟨hhere,hbelow⟩ := hsit.nodeAt_above hs.left rfl hb hm
    have hin : slot.nodes ++ p::(l.items ++ r.items) ⊆ b::L.items :=
      List.append_subset.mpr ⟨hsit.slot_subset,List.Subset.trans hsit.under (List.subset_cons_self b _)⟩
    refine ⟨?_,ih hs.left hL,hR.relinked (hm.relinked.mono hin) hs.across⟩
    rcases hsit.top hs.left t' with ⟨hslot,htop⟩ | ⟨hslot,htop⟩
    · rw [htop]
      exact hhere hslot _ _ (hb.setLeft t'.top)
    · rw [htop]
      exact hbelow hslot
  | @right slot₀ L R b k hsit ih =>
    rw [hsit.graft_right hs]
    obtain ⟨hb,hL,hR⟩ := hn
    obtain ⟨hhere,hbelow⟩ := hsit.nodeAt_above hs.right rfl hb hm
    have hin : slot.nodes ++ p::(l.items ++ r.items) ⊆ b::R.items :=
      List.append_subset.mpr ⟨hsit.slot_subset,List.Subset.trans hsit.under (List.subset_cons_self b _)⟩
    refine ⟨?_,hL.relinked (hm.relinked.mono hin) ?_,ih hs.right hR⟩
    · rcases hsit.top hs.right t' with ⟨hslot,htop⟩ | ⟨hslot,htop⟩
      · rw [htop]
        exact hhere hslot _ _ (hb.setRight t'.top)
      · rw [htop]
        exact hbelow hslot
    · intro a ha c hc
      rcases List.mem_cons.mp ha with rfl | ha
      · exact ((List.pairwise_cons.mp hs.left).1 c hc)
      · exact (hs.across c (List.mem_cons_of_mem b hc) a ha).symm

end Positions

section Removal

variable {h : Heap} {m : Mem UInt8} {p : ℤ} {slot slot₀ : Slot} {l r t child : KfcTree}

private theorem topInHeap_of_forall (hin : ∀ a ∈ t.items, h.HmuIsInHeap a) : TopInHeap h t :=
  fun a ha => hin a (KeyTree.mem_entries_of_top ha)

private theorem moveUp_spec (hs : (slot.nodes ++ p::child.items).Pairwise Apart) (hn : NodesAt m p child)
    (hin : ∀ a ∈ child.items, h.HmuIsInHeap a) : ∃ m', moveUp h slot p m child = (m', some child) ∧
      NodesAt m' (slot.parent h) child ∧ Relinked (p::child.items) (slot.set m child.top) m' := by
  obtain ⟨-,hchild,hslot⟩ := List.pairwise_append.mp hs
  obtain ⟨hp,hchild⟩ := List.pairwise_cons.mp hchild
  refine ⟨_,if_pos (topInHeap_of_forall hin),?_,?_⟩
  · have hset : NodesAt (slot.set m child.top) p child :=
      hn.relinked (relinked_set slot _) fun a ha b hb => hslot a ha b (List.mem_cons_of_mem p hb)
    refine (hset.adopt hchild (slot.parent h)).relinked relinked_clearLinks ?_
    intro a ha b hb
    rw [List.mem_singleton.mp ha]
    exact hp b hb
  · exact (relinked_adopt.mono (List.subset_cons_self p _)).trans
      (relinked_clearLinks.mono (List.cons_subset_cons p (List.nil_subset _)))

/-- The predecessor is the last node of the tree, and its left subtree moves up. -/
theorem removePredecessor_eq (hne : t ≠ .nil) (hs : Spread slot₀ t) (hin : ∀ a ∈ t.items, h.HmuIsInHeap a) :
    ∃ q s slot l, Sits q s slot l .nil slot₀ t ∧ t.removeLast = some (t.graft q l, q, s) ∧
      ∀ m, removePredecessor h slot₀ m t =
        ((moveUp h slot q m l).1, (moveUp h slot q m l).2.map fun l => (t.graft q l, q, s)) := by
  induction t generalizing slot₀ with
  | nil => exact absurd rfl hne
  | node l a s r _ ihr =>
    rw [KeyTree.items_node] at hin
    have ha := hin a (List.mem_append_right _ List.mem_cons_self)
    cases r with
    | nil =>
      refine ⟨a,s,slot₀,l,.here,?_,?_⟩
      · rw [KeyTree.graft,if_pos rfl]
        rfl
      · intro m
        rw [removePredecessor,if_neg (not_not.mpr ha)]
        simp only [KeyTree.graft,if_true]
    | node rl b sb rr =>
      obtain ⟨q,sq,slot,lq,hsit,hlast,hremove⟩ := ihr (by simp) hs.right
        fun c hc => hin c (List.mem_append_right _ (List.mem_cons_of_mem a hc))
      refine ⟨q,sq,slot,lq,.right hsit,?_,?_⟩
      · rw [hsit.graft_right hs,KeyTree.removeLast,hlast]
        rfl
      · intro m
        rw [removePredecessor,if_neg (not_not.mpr ha),hremove]
        simp only [Option.map_map,Function.comp_def,hsit.graft_right hs]

private theorem items_of_removeLast {q s : ℤ} (hne : t ≠ .nil) (hlast : t.removeLast = some (child, q, s)) :
    t.items = child.items ++ [q] := by
  obtain ⟨t',c,k,hlast',hentries⟩ := KeyTree.removeLast_entries hne
  obtain ⟨rfl,rfl,rfl⟩ : t' = child ∧ c = q ∧ k = s := by simpa [hlast] using hlast'.symm
  rw [KeyTree.items,hentries,List.map_append]
  rfl

private theorem removePredecessor_spec (hne : t ≠ .nil) (hs : Spread slot₀ t) (hn : NodesAt m (slot₀.parent h) t)
    (hin : ∀ a ∈ t.items, h.HmuIsInHeap a) :
    ∃ m' t' q s, removePredecessor h slot₀ m t = (m', some (t', q, s)) ∧ t.removeLast = some (t', q, s) ∧
      NodesAt m' (slot₀.parent h) t' ∧ Relinked (slot₀.nodes ++ t.items) m m' ∧
      load32 m' (q + 4) = BitVec.ofInt 32 s := by
  obtain ⟨q,s,slot,l,hsit,hlast,hremove⟩ := removePredecessor_eq hne hs hin
  obtain ⟨hq,hl,-⟩ := hsit.nodesAt hn
  have hunder := hsit.under
  have hapart := hsit.apart hs
  have hitems : l.items ++ (KeyTree.nil : KfcTree).items = l.items := List.append_nil _
  rw [hitems] at hunder hapart
  obtain ⟨m',hmove,hsub,hm⟩ := moveUp_spec (h := h) hapart hl
    fun a ha => hin a (hunder (List.mem_cons_of_mem q ha))
  have hgraft : Regrafted slot q l .nil l m m' := by
    rw [Regrafted,hitems]
    exact hm
  have hall := hgraft.relinked
  rw [hitems] at hall
  refine ⟨m',_,q,s,?_,hlast,hsit.graft hs hn hsub hgraft,hall.mono ?_,?_⟩
  · rw [hremove,hmove]
    rfl
  · exact List.append_subset.mpr ⟨hsit.slot_subset,List.Subset.trans hunder (List.subset_append_right _ _)⟩
  · obtain ⟨-,hbelow,hslot⟩ := List.pairwise_append.mp hapart
    rw [hall.size,hq.size]
    intro a ha
    rcases List.mem_append.mp ha with ha | ha
    · exact .inr (hslot a ha q List.mem_cons_self)
    · rcases List.mem_cons.mp ha with rfl | ha
      · exact .inl rfl
      · exact .inr ((List.pairwise_cons.mp hbelow).1 a ha).symm

/-- What takes the place of a node is linked as it should be, and only nodes below the slot are. -/
theorem replaceNode_spec (hs : (slot.nodes ++ p::(l.items ++ r.items)).Pairwise Apart) (hl : NodesAt m p l)
    (hr : NodesAt m p r) (hin : ∀ a ∈ l.items ++ r.items, h.HmuIsInHeap a) :
    ∃ m', replaceNode h slot p m l r = (m', some (KeyTree.join l r)) ∧
      NodesAt m' (slot.parent h) (KeyTree.join l r) ∧ Regrafted slot p l r (KeyTree.join l r) m m' := by
  cases l with
  | nil => exact moveUp_spec hs hr hin
  | node ll a s lr =>
    cases r with
    | nil =>
      have hitems : (KeyTree.node ll a s lr).items ++ (KeyTree.nil : KfcTree).items = (KeyTree.node ll a s lr).items :=
        List.append_nil _
      unfold Regrafted
      rw [hitems] at hs hin ⊢
      exact moveUp_spec hs hl hin
    | node rl b sb rr =>
      have hne : KeyTree.node ll a s lr ≠ .nil := by simp
      have hb := hin b (List.mem_append_right _ (by simp [KeyTree.items_node]))
      have hjoin (l' : KfcTree) (q sq : ℤ) (hlast : (KeyTree.node ll a s lr).removeLast = some (l', q, sq)) :
          KeyTree.join (.node ll a s lr) (.node rl b sb rr) = .node l' q sq (.node rl b sb rr) := by
        rw [KeyTree.join,hlast]
        · simp
        · simp
      generalize hL : KeyTree.node ll a s lr = l at *
      generalize hR : KeyTree.node rl b sb rr = r at *
      obtain ⟨-,hbelow,hslot⟩ := List.pairwise_append.mp hs
      obtain ⟨hp,hlr⟩ := List.pairwise_cons.mp hbelow
      have hspread : Spread (.left p) l :=
        List.pairwise_cons.mpr ⟨fun a ha => hp a (List.mem_append_left _ ha),(List.pairwise_append.mp hlr).1⟩
      obtain ⟨m₁,l',q,sq,hremove,hlast,hl',hm₁,hsize⟩ := removePredecessor_spec (h := h) (m := m) hne hspread hl
        fun a ha => hin a (List.mem_append_left _ ha)
      -- the items of the left subtree are those that stay and the predecessor
      have hperm : (l.items ++ r.items).Perm (q::(l'.items ++ r.items)) := by
        rw [items_of_removeLast hne hlast,List.append_assoc]
        exact List.perm_middle
      have hmem {d : ℤ} (hd : d ∈ q::(l'.items ++ r.items)) : d ∈ l.items ++ r.items := hperm.mem_iff.mpr hd
      have hset : Relinked slot.nodes m₁ (slot.set m₁ (some q)) := relinked_set slot _
      have hr₁ : NodesAt m₁ p r := by
        refine hr.relinked hm₁ fun a ha d hd => ?_
        rcases List.mem_cons.mp ha with rfl | ha
        · exact hp d (List.mem_append_right _ hd)
        · exact (List.pairwise_append.mp hlr).2.2 a ha d hd
      have hkept (t : KfcTree) (ht : t.items ⊆ l'.items ++ r.items) (hn : NodesAt m₁ p t) :
          NodesAt (slot.set m₁ (some q)) p t := by
        refine hn.relinked hset fun a ha d hd => hslot a ha d (List.mem_cons_of_mem p ?_)
        exact hmem (List.mem_cons_of_mem q (ht hd))
      have hsize' : load32 (slot.set m₁ (some q)) (q + 4) = BitVec.ofInt 32 sq := by
        rw [hset.size fun a ha => .inr (hslot a ha q (List.mem_cons_of_mem p (hmem List.mem_cons_self))),hsize]
      generalize hm₂ : adopt (adopt (setRight (setLeft (setParent (slot.set m₁ (some q)) q (some (slot.parent h)))
        q l'.top) q r.top) q l'.top) q r.top = m₂
      obtain ⟨hnodes,hrelinked⟩ : NodesAt m₂ (slot.parent h) (.node l' q sq r) ∧
          Relinked (q::(l'.items ++ r.items)) (slot.set m₁ (some q)) m₂ :=
        NodesAt.takeChildren ((hperm.pairwise_iff Apart.symm).mp hlr) hsize'
          (hkept l' (List.subset_append_left _ _) hl') (hkept r (List.subset_append_right _ _) hr₁) hm₂.symm
      rw [hjoin _ _ _ hlast]
      refine ⟨clearLinks m₂ p,?_,hnodes.relinked relinked_clearLinks ?_,?_⟩
      · have htop : TopInHeap h l' :=
          topInHeap_of_forall fun a ha => hin a (hmem (List.mem_cons_of_mem q (List.mem_append_left _ ha)))
        subst hL hR hm₂
        rw [replaceNode,hremove]
        simp only
        rw [if_neg (not_not.mpr htop),if_neg (not_not.mpr hb)]
        rfl
      · intro a ha d hd
        rw [KeyTree.items_node] at hd
        rw [List.mem_singleton.mp ha]
        exact hp d (hmem (List.perm_middle.mem_iff.mp hd))
      · have hset' : Relinked (p::(l.items ++ r.items)) (slot.set m (some q)) (slot.set m₁ (some q)) :=
          (hm₁.set slot (some q)).mono (List.cons_subset_cons p (List.subset_append_left _ _))
        have hsub : q::(l'.items ++ r.items) ⊆ p::(l.items ++ r.items) :=
          fun d hd => List.mem_cons_of_mem p (hmem hd)
        exact (hset'.trans (hrelinked.mono hsub)).trans
          (relinked_clearLinks.mono (List.cons_subset_cons p (List.nil_subset _)))

/-- `remove_tree_node` leaves the nodes of the tree without `p`, and writes only pointers of nodes. -/
theorem removeTreeNode_spec (hp : p ∈ h.kfcTree.items) (hs : h.kfcTree.items.Pairwise Apart)
    (hn : NodesAt h.mem h.kfcTreeRoot h.kfcTree) (hin : ∀ a ∈ h.kfcTree.items, h.HmuIsInHeap a) :
    ∃ m', removeTreeNode h p = ({ h with mem := m', kfcTree := h.kfcTree.erase p }, true) ∧
      NodesAt m' h.kfcTreeRoot (h.kfcTree.erase p) ∧ Relinked h.kfcTree.items h.mem m' := by
  obtain ⟨s,slot,l,r,hsit⟩ := exists_sits hp .root
  obtain ⟨-,hl,hr⟩ := hsit.nodesAt (h := h) hn
  have hslot : slot.InHeap h := by
    have hsub := hsit.slot_subset
    cases slot with
    | root => trivial
    | left a => exact hin a (hsub List.mem_cons_self)
    | right a => exact hin a (hsub List.mem_cons_self)
  obtain ⟨m',hreplace,hsub,hm⟩ := replaceNode_spec (h := h) (hsit.apart hs) hl hr
    fun a ha => hin a (hsit.under (List.mem_cons_of_mem p ha))
  refine ⟨m',?_,?_,hm.relinked.mono (List.append_subset.mpr ⟨hsit.slot_subset,hsit.under⟩)⟩
  · rw [removeTreeNode,hsit.locate hs]
    simp only
    rw [if_neg (not_or.mpr ⟨not_not.mpr (hin p hp),not_not.mpr hslot⟩),hreplace]
    simp only [hsit.graft_erase hs]
  · rw [← hsit.graft_erase hs]
    exact hsit.graft (h := h) hs hn hsub hm

end Removal

section Insertion

variable {h : Heap} {m : Mem UInt8} {hmu size : ℤ} {slot slot₀ : Slot} {t : KfcTree}

theorem nodeAt_clearLinks {a s : ℤ} (hsize : load32 m (a + 4) = BitVec.ofInt 32 s) :
    NodeAt (clearLinks m a) a s none none 0 := by
  refine ⟨?_,load64_store64 _ _ _,?_,?_⟩
  · rw [clearLinks,setLeft,load32_store64_of_disjoint _ _ (by omega),setRight,
      load32_store64_of_disjoint _ _ (by omega),setParent,load32_store64_of_disjoint _ _ (by omega),hsize]
  · rw [clearLinks,setLeft,load64_store64_of_disjoint _ _ (by omega),setRight,load64_store64]
  · rw [clearLinks,setLeft,load64_store64_of_disjoint _ _ (by omega),setRight,
      load64_store64_of_disjoint _ _ (by omega),setParent,load64_store64]
    rfl

def hang (h : Heap) (m : Mem UInt8) (slot : Slot) (hmu : ℤ) : Mem UInt8 :=
  setParent (slot.set m (some hmu)) hmu (some (slot.parent h))

theorem relinked_hang (h : Heap) (m : Mem UInt8) (slot : Slot) (hmu : ℤ) :
    Relinked (slot.nodes ++ [hmu]) m (hang h m slot hmu) :=
  ((relinked_set slot _).mono (List.subset_append_left _ _)).trans
    ((relinked_store _ (by decide) (by decide)).mono (List.subset_append_right _ _))

theorem NodeAt.hang {a s parent : ℤ} {left right : Option ℤ} (hapart : Apart a hmu)
    (hset : NodeAt (slot.set m (some hmu)) a s left right parent) :
    NodeAt (hang h m slot hmu) a s left right parent := by
  have hm : Relinked [hmu] (slot.set m (some hmu)) (Ems.hang h m slot hmu) := relinked_store _ (by decide) (by decide)
  refine hset.congr (hm.sameOn ?_)
  intro b hb
  rw [List.mem_singleton.mp hb]
  exact hapart.symm

private theorem NodeAt.hang_below {a s parent : ℤ} {left right : Option ℤ} (ha : NodeAt m a s left right parent)
    (hslot : ∀ b ∈ slot.nodes, Apart b a) (hapart : Apart a hmu) :
    NodeAt (Ems.hang h m slot hmu) a s left right parent := by
  refine ha.congr ((relinked_hang h m slot hmu).sameOn ?_)
  intro b hb
  rw [List.mem_append,List.mem_singleton] at hb
  rcases hb with hb | rfl
  · exact hslot b hb
  · exact hapart.symm

private theorem NodesAt.hang_beside {parent : ℤ} (hn : NodesAt m parent t)
    (hslot : ∀ b ∈ slot.nodes, ∀ c ∈ t.items, Apart b c)
    (hapart : ∀ c ∈ t.items, Apart c hmu) : NodesAt (hang h m slot hmu) parent t := by
  apply hn.relinked (relinked_hang h m slot hmu)
  intro b hb c hc
  rw [List.mem_append,List.mem_singleton] at hb
  rcases hb with hb | rfl
  · exact hslot b hb c hc
  · exact (hapart c hc).symm

/-- A new node in a slot below `slot₀` is linked as it should be. -/
theorem insertTreeNode_spec (hs : Spread slot₀ t) (hn : NodesAt m (slot₀.parent h) t)
    (hin : ∀ a ∈ t.items, h.HmuIsInHeap a) (hapart : ∀ a ∈ slot₀.nodes ++ t.items, Apart a hmu)
    (hnew : NodeAt m hmu size none none 0) :
    ∃ slot, insertTreeNode h hmu size slot₀ t = some (t.insert hmu size, slot) ∧
      (t = .nil ∧ slot = slot₀ ∨ slot.nodes ⊆ t.items ∧ (t.insert hmu size).top = t.top) ∧
      NodesAt (hang h m slot hmu) (slot₀.parent h) (t.insert hmu size) := by
  induction t generalizing slot₀ with
  | nil =>
    refine ⟨slot₀,rfl,.inl ⟨rfl,rfl⟩,?_,trivial,trivial⟩
    have hset : NodeAt (slot₀.set m (some hmu)) hmu size none none 0 :=
      hnew.congr ((relinked_set slot₀ _).sameOn fun a ha => hapart a (List.mem_append_left _ ha))
    exact hset.setParent (slot₀.parent h)
  | node l a k r ihl ihr =>
    obtain ⟨ha,hl,hr⟩ := hn
    have hina := hin a (by simp [KeyTree.items_node])
    have hahmu := hapart a (by simp [KeyTree.items_node])
    rw [KeyTree.items_node] at hin hapart ⊢
    have hlhmu : ∀ b ∈ l.items, Apart b hmu :=
      fun b hb => hapart b (List.mem_append_right _ (List.mem_append_left _ hb))
    have hrhmu : ∀ b ∈ r.items, Apart b hmu :=
      fun b hb => hapart b (List.mem_append_right _ (List.mem_append_right _ (List.mem_cons_of_mem a hb)))
    have hal : ∀ b ∈ l.items, Apart a b := (List.pairwise_cons.mp hs.left).1
    have har : ∀ b ∈ r.items, Apart a b := (List.pairwise_cons.mp hs.right).1
    rw [insertTreeNode,KeyTree.insert,if_neg (not_not.mpr hina)]
    by_cases hlt : k < size
    · obtain ⟨slot,hinsert,hwhere,hr'⟩ := ihr hs.right hr
        (fun b hb => hin b (List.mem_append_right _ (List.mem_cons_of_mem a hb)))
        (List.forall_mem_cons.mpr ⟨hahmu,hrhmu⟩)
      have hslot : slot.nodes ⊆ a::r.items := by
        rcases hwhere with ⟨-,rfl⟩ | ⟨hsub,-⟩
        · exact List.cons_subset_cons a (List.nil_subset _)
        · exact List.Subset.trans hsub (List.subset_cons_self a _)
      rw [if_pos hlt,if_pos hlt,hinsert]
      refine ⟨slot,rfl,.inr ⟨List.Subset.trans hslot (List.subset_append_right _ _),rfl⟩,?_,?_,hr'⟩
      · rcases hwhere with ⟨rfl,rfl⟩ | ⟨hsub,htop⟩
        · exact (ha.setRight (some hmu)).hang hahmu
        · rw [htop]
          exact ha.hang_below (fun b hb => (har b (hsub hb)).symm) hahmu
      · refine hl.hang_beside ?_ hlhmu
        intro b hb c hc
        rcases List.mem_cons.mp (hslot hb) with rfl | hb
        · exact hal c hc
        · exact (hs.across c (List.mem_cons_of_mem a hc) b hb).symm
    · obtain ⟨slot,hinsert,hwhere,hl'⟩ := ihl hs.left hl
        (fun b hb => hin b (List.mem_append_left _ hb)) (List.forall_mem_cons.mpr ⟨hahmu,hlhmu⟩)
      have hslot : slot.nodes ⊆ a::l.items := by
        rcases hwhere with ⟨-,rfl⟩ | ⟨hsub,-⟩
        · exact List.cons_subset_cons a (List.nil_subset _)
        · exact List.Subset.trans hsub (List.subset_cons_self a _)
      rw [if_neg hlt,if_neg hlt,hinsert]
      refine ⟨slot,rfl,.inr ⟨?_,rfl⟩,?_,hl',?_⟩
      · apply List.Subset.trans hslot
        exact List.cons_subset.mpr ⟨List.mem_append_right _ List.mem_cons_self,List.subset_append_left _ _⟩
      · rcases hwhere with ⟨rfl,rfl⟩ | ⟨hsub,htop⟩
        · exact (ha.setLeft (some hmu)).hang hahmu
        · rw [htop]
          exact ha.hang_below (fun b hb => (hal b (hsub hb)).symm) hahmu
      · exact hr.hang_beside (fun b hb c hc => hs.across b (hslot hb) c hc) hrhmu

end Insertion

end WamrTest.Ems
