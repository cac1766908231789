import Mathlib

/-!
# Search trees with repeated keys

A binary tree of items, each with a key, in the order of its in-order list: insertion, removal of
an item by way of its predecessor, and the search for the least key that is large enough.
-/

namespace SearchTree

inductive KeyTree (α κ : Type)
  | nil
  | node (left : KeyTree α κ) (item : α) (key : κ) (right : KeyTree α κ)

namespace KeyTree

variable {α κ : Type}

def entries : KeyTree α κ → List (α × κ)
  | .nil => []
  | .node l a k r => entries l ++ (a, k)::entries r

def items (t : KeyTree α κ) : List α := t.entries.map Prod.fst

theorem items_node (l : KeyTree α κ) (a : α) (k : κ) (r : KeyTree α κ) :
    (node l a k r).items = l.items ++ a::r.items := by
  simp [items,entries]

def top : KeyTree α κ → Option α
  | .nil => none
  | .node _ a _ _ => some a

def Sorted [LE κ] (t : KeyTree α κ) : Prop := t.entries.Pairwise fun x y => x.2 ≤ y.2

private theorem sorted_node [LE κ] {l r : KeyTree α κ} {a : α} {k : κ} :
    (node l a k r).Sorted ↔ l.Sorted ∧ r.Sorted ∧ (∀ x ∈ l.entries, x.2 ≤ k) ∧
      (∀ y ∈ r.entries, k ≤ y.2) ∧ ∀ x ∈ l.entries, ∀ y ∈ r.entries, x.2 ≤ y.2 := by
  simp only [Sorted,entries,List.pairwise_append,List.pairwise_cons,List.forall_mem_cons]
  constructor
  · rintro ⟨hl,⟨hk,hr⟩,hlr⟩
    exact ⟨hl,hr,fun x hx => (hlr x hx).1,hk,fun x hx => (hlr x hx).2⟩
  · rintro ⟨hl,hr,hlk,hk,hlr⟩
    exact ⟨hl,⟨hk,hr⟩,fun x hx => ⟨hlk x hx,hlr x hx⟩⟩

theorem mem_entries_of_top {t : KeyTree α κ} {a : α} (h : t.top = some a) : a ∈ t.items := by
  cases t with
  | nil => exact absurd h (by simp [top])
  | node l b k r =>
    have hb : b = a := Option.some.inj h
    simp [items,entries,hb]

/-- The tree without its last item, and that item. -/
def removeLast : KeyTree α κ → Option (KeyTree α κ × α × κ)
  | .nil => none
  | .node l a k .nil => some (l, a, k)
  | .node l a k (.node rl b kb rr) =>
    (removeLast (.node rl b kb rr)).map fun (r, x) => (.node l a k r, x)

/-- What takes the place of a node: its only child, or its predecessor in the order. -/
def join : KeyTree α κ → KeyTree α κ → KeyTree α κ
  | .nil, r => r
  | l, .nil => l
  | l, r =>
    match removeLast l with
    | none => r
    | some (l, a, k) => .node l a k r

theorem removeLast_entries {t : KeyTree α κ} (h : t ≠ .nil) :
    ∃ t' a k, removeLast t = some (t', a, k) ∧ t.entries = t'.entries ++ [(a, k)] := by
  induction t with
  | nil => exact absurd rfl h
  | node l a k r _ ihr =>
    cases r with
    | nil => exact ⟨l,a,k,rfl,rfl⟩
    | node rl b kb rr =>
      obtain ⟨r,c,kc,hremove,hentries⟩ := ihr (by simp)
      refine ⟨.node l a k r,c,kc,?_,?_⟩
      · rw [removeLast,hremove]
        rfl
      · rw [entries,hentries,entries,List.append_assoc]
        rfl

private theorem join_entries (l r : KeyTree α κ) : (join l r).entries = l.entries ++ r.entries := by
  cases l with
  | nil => rfl
  | node ll a k lr =>
    cases r with
    | nil => exact (List.append_nil _).symm
    | node rl b kb rr =>
      obtain ⟨t,c,kc,hremove,hentries⟩ := removeLast_entries (t := .node ll a k lr) (by simp)
      rw [hentries,join,hremove]
      · simp [entries]
      · simp
      · simp

section Order

variable [LinearOrder κ]

/-- A new item goes before the items of its own key. -/
def insert (a : α) (k : κ) : KeyTree α κ → KeyTree α κ
  | .nil => .node .nil a k .nil
  | .node l b kb r => if kb < k then .node l b kb (insert a k r) else .node (insert a k l) b kb r

/-- The item with the least key that is at least `k`, `found` if there is none. -/
def best (k : κ) : KeyTree α κ → Option (α × κ) → Option (α × κ)
  | .nil, found => found
  | .node l a ka r, found => if ka < k then best k r found else best k l (some (a, ka))

private theorem insert_entries {a : α} {k : κ} (t : KeyTree α κ) :
    ∃ p q, t.entries = p ++ q ∧ (insert a k t).entries = p ++ (a, k)::q ∧
      (t.Sorted → (∀ x ∈ p, x.2 < k) ∧ ∀ x ∈ q, k ≤ x.2) := by
  induction t with
  | nil => exact ⟨[],[],rfl,rfl,fun _ => ⟨nofun,nofun⟩⟩
  | node l b kb r ihl ihr =>
    by_cases hlt : kb < k
    · obtain ⟨p,q,hsplit,hinsert,hsorted⟩ := ihr
      refine ⟨l.entries ++ (b, kb)::p,q,?_,?_,?_⟩
      · simp [entries,hsplit]
      · simp [insert,hlt,entries,hinsert]
      · intro h
        obtain ⟨-,hr,hle,-,-⟩ := sorted_node.mp h
        obtain ⟨hp,hq⟩ := hsorted hr
        refine ⟨?_,hq⟩
        intro x hx
        rcases List.mem_append.mp hx with hx | hx
        · exact (hle x hx).trans_lt hlt
        · rcases List.mem_cons.mp hx with rfl | hx
          · exact hlt
          · exact hp x hx
    · obtain ⟨p,q,hsplit,hinsert,hsorted⟩ := ihl
      refine ⟨p,q ++ (b, kb)::r.entries,?_,?_,?_⟩
      · simp [entries,hsplit]
      · simp [insert,hlt,entries,hinsert]
      · intro h
        obtain ⟨hl,-,-,hb,-⟩ := sorted_node.mp h
        obtain ⟨hp,hq⟩ := hsorted hl
        refine ⟨hp,?_⟩
        intro x hx
        rcases List.mem_append.mp hx with hx | hx
        · exact hq x hx
        · rcases List.mem_cons.mp hx with rfl | hx
          · exact not_lt.mp hlt
          · exact (not_lt.mp hlt).trans (hb x hx)

theorem insert_perm (a : α) (k : κ) (t : KeyTree α κ) : (insert a k t).entries.Perm ((a, k)::t.entries) := by
  obtain ⟨p,q,hsplit,hinsert,-⟩ := insert_entries (a := a) (k := k) t
  rw [hinsert,hsplit]
  exact List.perm_middle

theorem Sorted.insert {t : KeyTree α κ} (h : t.Sorted) (a : α) (k : κ) : (t.insert a k).Sorted := by
  obtain ⟨p,q,hsplit,hinsert,hbounds⟩ := insert_entries (a := a) (k := k) t
  obtain ⟨hp,hq⟩ := hbounds h
  rw [Sorted,hsplit,List.pairwise_append] at h
  obtain ⟨hpp,hqq,hpq⟩ := h
  rw [Sorted,hinsert,List.pairwise_append,List.pairwise_cons]
  refine ⟨hpp,⟨hq,hqq⟩,?_⟩
  intro x hx y hy
  rcases List.mem_cons.mp hy with rfl | hy
  · exact (hp x hx).le
  · exact hpq x hx y hy

theorem best_spec {k : κ} {t : KeyTree α κ} (hsorted : t.Sorted) (found : Option (α × κ)) :
    match best k t found with
    | none => found = none ∧ ∀ x ∈ t.entries, x.2 < k
    | some y => (some y = found ∧ ∀ x ∈ t.entries, x.2 < k) ∨
        (y ∈ t.entries ∧ k ≤ y.2 ∧ ∀ x ∈ t.entries, k ≤ x.2 → y.2 ≤ x.2) := by
  induction t generalizing found with
  | nil => cases found <;> simp [best,entries]
  | node l a ka r ihl ihr =>
    obtain ⟨hl,hrr,hla,hr,hlr⟩ := sorted_node.mp hsorted
    rw [best,entries]
    by_cases hlt : ka < k
    · -- all of the left subtree is too small as well
      have hsmall : ∀ x ∈ l.entries, x.2 < k :=
        fun x hx => (hla x hx).trans_lt hlt
      have hall (hrest : ∀ x ∈ r.entries, x.2 < k) : ∀ x ∈ l.entries ++ (a, ka)::r.entries, x.2 < k := by
        intro x hx
        rcases List.mem_append.mp hx with hx | hx
        · exact hsmall x hx
        · rcases List.mem_cons.mp hx with rfl | hx
          · exact hlt
          · exact hrest x hx
      have ih := ihr hrr found
      rw [if_pos hlt]
      cases hbest : best k r found with
      | none =>
        rw [hbest] at ih
        exact ⟨ih.1,hall ih.2⟩
      | some y =>
        rw [hbest] at ih
        rcases ih with ⟨heq,hrest⟩ | ⟨hmem,hle,hleast⟩
        · exact .inl ⟨heq,hall hrest⟩
        · refine .inr ⟨List.mem_append_right _ (List.mem_cons_of_mem _ hmem),hle,?_⟩
          intro x hx hkx
          rcases List.mem_append.mp hx with hx | hx
          · exact absurd (hsmall x hx) (not_lt.mpr hkx)
          · rcases List.mem_cons.mp hx with rfl | hx
            · exact absurd hlt (not_lt.mpr hkx)
            · exact hleast x hx hkx
    · have hge : k ≤ ka := not_lt.mp hlt
      have ih := ihl hl (some (a, ka))
      rw [if_neg hlt]
      cases hbest : best k l (some (a, ka)) with
      | none =>
        rw [hbest] at ih
        exact absurd ih.1 (by simp)
      | some y =>
        rw [hbest] at ih
        right
        rcases ih with ⟨heq,hrest⟩ | ⟨hmem,hle,hleast⟩
        · have hy : y = (a, ka) := Option.some.inj heq
          rw [hy]
          refine ⟨List.mem_append_right _ List.mem_cons_self,hge,?_⟩
          intro x hx hkx
          rcases List.mem_append.mp hx with hx | hx
          · exact absurd (hrest x hx) (not_lt.mpr hkx)
          · rcases List.mem_cons.mp hx with rfl | hx
            · exact le_rfl
            · exact hr x hx
        · refine ⟨List.mem_append_left _ hmem,hle,?_⟩
          intro x hx hkx
          rcases List.mem_append.mp hx with hx | hx
          · exact hleast x hx hkx
          · rcases List.mem_cons.mp hx with rfl | hx
            · exact hla y hmem
            · exact hlr y hmem x hx

end Order

section Erase

variable [DecidableEq α]

def erase (a : α) : KeyTree α κ → KeyTree α κ
  | .nil => .nil
  | .node l b k r => if b = a then join l r else .node (erase a l) b k (erase a r)

/-- The tree with another one in place of an item and its subtrees. -/
def graft (a : α) : KeyTree α κ → KeyTree α κ → KeyTree α κ
  | .nil, _ => .nil
  | .node l b k r, t => if b = a then t else .node (graft a l t) b k (graft a r t)

theorem graft_of_not_mem {t : KeyTree α κ} {a : α} (h : a ∉ t.items) (t' : KeyTree α κ) : t.graft a t' = t := by
  induction t with
  | nil => rfl
  | node l b k r ihl ihr =>
    rw [items_node,List.mem_append,List.mem_cons,not_or,not_or] at h
    obtain ⟨hl,hb,hr⟩ := h
    rw [graft,if_neg (Ne.symm hb),ihl hl,ihr hr]

theorem erase_of_not_mem {t : KeyTree α κ} {a : α} (h : a ∉ t.items) : erase a t = t := by
  induction t with
  | nil => rfl
  | node l b k r ihl ihr =>
    rw [items_node,List.mem_append,List.mem_cons,not_or,not_or] at h
    obtain ⟨hl,hb,hr⟩ := h
    rw [erase,if_neg (Ne.symm hb),ihl hl,ihr hr]

theorem erase_entries {t : KeyTree α κ} (h : t.items.Nodup) (a : α) :
    (erase a t).entries = t.entries.filter fun x => x.1 ≠ a := by
  induction t with
  | nil => rfl
  | node l b k r ihl ihr =>
    unfold items at *
    rw [entries,List.map_append,List.map_cons,List.nodup_append,List.nodup_cons] at h
    obtain ⟨hl,⟨hb,hr⟩,hdisjoint⟩ := h
    rw [erase,entries,List.filter_append]
    by_cases heq : b = a
    · subst heq
      have hkeepl : l.entries.filter (fun x => x.1 ≠ b) = l.entries := by
        rw [List.filter_eq_self]
        intro x hx
        have hne := hdisjoint x.1 (List.mem_map_of_mem hx) b List.mem_cons_self
        simpa using hne
      have hkeepr : r.entries.filter (fun x => x.1 ≠ b) = r.entries := by
        rw [List.filter_eq_self]
        intro x hx
        have hne : x.1 ≠ b := by
          intro hxb
          exact hb (List.mem_map.mpr ⟨x,hx,hxb⟩)
        simpa using hne
      rw [if_pos rfl,join_entries,hkeepl,List.filter_cons_of_neg (by simp),hkeepr]
    · rw [if_neg heq,entries,ihl hl,ihr hr,List.filter_cons_of_pos (by simpa using heq)]

end Erase

end KeyTree

end SearchTree
