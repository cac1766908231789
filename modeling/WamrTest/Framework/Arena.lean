import Mathlib.Algebra.BigOperators.Group.List.Basic
import Mathlib.Algebra.Order.Ring.Int
import Mathlib.Data.List.Chain

/-!
# Arenas

An arena is an interval cut into blocks that are free or in use. Blocks lie at the sum of the sizes
before them. `carve` takes what is asked for from a free block, `release` gives a block back and
joins it with its free neighbours; free blocks that never touch add up to one block once nothing
is in use.
-/

namespace Arena

structure Block where
  size : ℤ
  free : Bool
deriving DecidableEq

def total (bs : List Block) : ℤ := (bs.map Block.size).sum

def freeTotal (bs : List Block) : ℤ := total (bs.filter Block.free)

/-- The blocks with their addresses. -/
def place : ℤ → List Block → List (ℤ × Block)
  | _, [] => []
  | a, b::bs => (a, b)::place (a + b.size) bs

/-- No two free blocks touch. -/
def Coalesced (bs : List Block) : Prop := bs.IsChain fun b c => b.free = true → c.free = false

/-- `n` of the `s` bytes of a free block, unless the rest would be smaller than `least`. -/
def carve (least n s : ℤ) : List Block :=
  if n + least ≤ s then [⟨n, false⟩, ⟨s - n, true⟩] else [⟨s, false⟩]

/-- The size of a free block at the head, and the blocks after it. -/
def splitFree : List Block → ℤ × List Block
  | ⟨s, true⟩::bs => (s, bs)
  | bs => (0, bs)

/-- The blocks around a block of size `s` that is given back. -/
def release (p : List Block) (s : ℤ) (q : List Block) : List Block :=
  (splitFree p.reverse).2.reverse ++
    ⟨(splitFree p.reverse).1 + s + (splitFree q).1, true⟩::(splitFree q).2

variable {a x y : ℤ} {b c : Block} {bs p q : List Block}

@[simp] theorem total_nil : total [] = 0 := rfl

@[simp] theorem total_cons (b : Block) (bs : List Block) : total (b::bs) = b.size + total bs := by
  simp [total]

@[simp] theorem total_append (p q : List Block) : total (p ++ q) = total p + total q := by
  simp [total]

@[simp] theorem freeTotal_nil : freeTotal [] = 0 := rfl

@[simp] theorem freeTotal_cons (b : Block) (bs : List Block) :
    freeTotal (b::bs) = (if b.free then b.size else 0) + freeTotal bs := by
  by_cases h : b.free <;> simp [freeTotal,h]

@[simp] theorem freeTotal_append (p q : List Block) : freeTotal (p ++ q) = freeTotal p + freeTotal q := by
  simp [freeTotal]

@[simp] theorem place_append (a : ℤ) (p q : List Block) :
    place a (p ++ q) = place a p ++ place (a + total p) q := by
  induction p generalizing a with
  | nil => simp [place]
  | cons b p ih => simp [place,ih,add_assoc]

@[simp] theorem map_snd_place (a : ℤ) (bs : List Block) : (place a bs).map Prod.snd = bs := by
  induction bs generalizing a with
  | nil => rfl
  | cons b bs ih => simp [place,ih]

theorem exists_split (h : (x, b) ∈ place a bs) : ∃ p q, bs = p ++ b::q ∧ x = a + total p := by
  induction bs generalizing a with
  | nil => exact absurd h List.not_mem_nil
  | cons c bs ih =>
    rcases List.mem_cons.mp h with heq | hmem
    · obtain ⟨rfl,rfl⟩ := Prod.mk.inj heq
      exact ⟨[],bs,rfl,by simp⟩
    · obtain ⟨p,q,hsplit,hx⟩ := ih hmem
      refine ⟨c::p,q,by rw [hsplit,List.cons_append],?_⟩
      rw [hx,total_cons,add_assoc]

theorem mem_of_place (h : (x, b) ∈ place a bs) : b ∈ bs := by
  obtain ⟨p,q,rfl,-⟩ := exists_split h
  exact List.mem_append_right _ List.mem_cons_self

theorem mem_place_middle (a : ℤ) (p : List Block) (b : Block) (q : List Block) :
    (a + total p, b) ∈ place a (p ++ b::q) := by
  rw [place_append]
  exact List.mem_append_right _ List.mem_cons_self

section Positive

theorem total_nonneg (h : ∀ b ∈ bs, 0 < b.size) : 0 ≤ total bs := by
  induction bs with
  | nil => exact le_rfl
  | cons b bs ih =>
    have hb := h b List.mem_cons_self
    have hrest := ih fun c hc => h c (List.mem_cons_of_mem b hc)
    rw [total_cons]
    omega

theorem total_pos (h : ∀ b ∈ bs, 0 < b.size) (hne : bs ≠ []) : 0 < total bs := by
  cases bs with
  | nil => exact absurd rfl hne
  | cons b bs =>
    have hb := h b List.mem_cons_self
    have hrest := total_nonneg fun c hc => h c (List.mem_cons_of_mem b hc)
    rw [total_cons]
    omega

theorem length_le_total (h : ∀ b ∈ bs, 0 < b.size) : (bs.length : ℤ) ≤ total bs := by
  induction bs with
  | nil => exact le_rfl
  | cons b bs ih =>
    have hb := h b List.mem_cons_self
    have hrest := ih fun c hc => h c (List.mem_cons_of_mem b hc)
    rw [List.length_cons,total_cons]
    push_cast
    omega

theorem freeTotal_bounds (h : ∀ b ∈ bs, 0 < b.size) : 0 ≤ freeTotal bs ∧ freeTotal bs ≤ total bs := by
  induction bs with
  | nil => exact ⟨le_rfl,le_rfl⟩
  | cons b bs ih =>
    have hb := h b List.mem_cons_self
    obtain ⟨hlow,hhigh⟩ := ih fun c hc => h c (List.mem_cons_of_mem b hc)
    rw [freeTotal_cons,total_cons]
    split <;> omega

theorem place_bounds (h : ∀ b ∈ bs, 0 < b.size) (hx : (x, b) ∈ place a bs) :
    a ≤ x ∧ x + b.size ≤ a + total bs := by
  obtain ⟨p,q,rfl,rfl⟩ := exists_split hx
  have hp : 0 ≤ total p := total_nonneg fun c hc => h c (List.mem_append_left _ hc)
  have hq : 0 ≤ total q :=
    total_nonneg fun c hc => h c (List.mem_append_right _ (List.mem_cons_of_mem b hc))
  rw [total_append,total_cons]
  omega

theorem place_disjoint (h : ∀ b ∈ bs, 0 < b.size) (hx : (x, b) ∈ place a bs)
    (hy : (y, c) ∈ place a bs) : (x = y ∧ b = c) ∨ x + b.size ≤ y ∨ y + c.size ≤ x := by
  induction bs generalizing a with
  | nil => exact absurd hx List.not_mem_nil
  | cons d bs ih =>
    have hrest : ∀ b ∈ bs, 0 < b.size := fun e he => h e (List.mem_cons_of_mem d he)
    rcases List.mem_cons.mp hx with heqx | hx
    · obtain ⟨rfl,rfl⟩ := Prod.mk.inj heqx
      rcases List.mem_cons.mp hy with heqy | hy
      · obtain ⟨rfl,rfl⟩ := Prod.mk.inj heqy
        exact .inl ⟨rfl,rfl⟩
      · exact .inr (.inl (place_bounds hrest hy).1)
    · rcases List.mem_cons.mp hy with heqy | hy
      · obtain ⟨rfl,rfl⟩ := Prod.mk.inj heqy
        exact .inr (.inr (place_bounds hrest hx).1)
      · exact ih hrest hx hy

theorem place_pairwise (h : ∀ b ∈ bs, 0 < b.size) : (place a bs).Pairwise fun x y => x.1 < y.1 := by
  induction bs generalizing a with
  | nil => exact List.Pairwise.nil
  | cons b bs ih =>
    have hrest : ∀ c ∈ bs, 0 < c.size := fun c hc => h c (List.mem_cons_of_mem b hc)
    refine List.pairwise_cons.mpr ⟨?_,ih hrest⟩
    intro y hy
    have hbounds := place_bounds hrest hy
    have hb := h b List.mem_cons_self
    simp only
    omega

theorem place_inj (h : ∀ b ∈ bs, 0 < b.size) (hx : (x, b) ∈ place a bs) (hy : (x, c) ∈ place a bs) :
    b = c := by
  have hb := h b (mem_of_place hx)
  have hc := h c (mem_of_place hy)
  rcases place_disjoint h hx hy with ⟨-,heq⟩ | hover | hover
  · exact heq
  · omega
  · omega

end Positive

section Free

variable {s : ℤ}

def FreeAt (a : ℤ) (bs : List Block) (x s : ℤ) : Prop := (x, ⟨s, true⟩) ∈ place a bs

theorem freeAt_append : FreeAt a (p ++ q) x s ↔ FreeAt a p x s ∨ FreeAt (a + total p) q x s := by
  rw [FreeAt,place_append,List.mem_append]
  rfl

theorem freeAt_cons : FreeAt a (b::bs) x s ↔ (x = a ∧ b = ⟨s, true⟩) ∨ FreeAt (a + b.size) bs x s := by
  rw [FreeAt,place,List.mem_cons,Prod.mk.injEq,eq_comm (b := b)]
  rfl

@[simp] theorem not_freeAt_nil : ¬ FreeAt a [] x s := List.not_mem_nil

theorem freeAt_others (h : ∀ c ∈ p ++ b::q, 0 < c.size) :
    FreeAt a (p ++ b::q) x s ∧ x ≠ a + total p ↔ FreeAt a p x s ∨ FreeAt (a + total p + b.size) q x s := by
  have hp : ∀ c ∈ p, 0 < c.size := fun c hc => h c (List.mem_append_left _ hc)
  have hq : ∀ c ∈ q, 0 < c.size :=
    fun c hc => h c (List.mem_append_right _ (List.mem_cons_of_mem b hc))
  have hb := h b (List.mem_append_right _ List.mem_cons_self)
  rw [freeAt_append,freeAt_cons]
  constructor
  · rintro ⟨hx | ⟨heq,-⟩ | hx,hne⟩
    · exact .inl hx
    · exact absurd heq hne
    · exact .inr hx
  · rintro (hx | hx)
    · have hbounds := place_bounds hp hx
      have hs := hp ⟨s, true⟩ (mem_of_place hx)
      simp only at hbounds hs
      exact ⟨.inl hx,by omega⟩
    · have hbounds := place_bounds hq hx
      exact ⟨.inr (.inr hx),by omega⟩

theorem FreeAt.lt (hF : FreeAt a bs x s) (h : ∀ b ∈ bs, 0 < b.size)
    (hhead : ∀ b, bs.head? = some b → b.free = false) : a < x := by
  cases bs with
  | nil => exact absurd hF not_freeAt_nil
  | cons b bs =>
    have hb := h b List.mem_cons_self
    rcases freeAt_cons.mp hF with ⟨-,heq⟩ | hF
    · exact absurd (hhead b rfl) (by simp [heq])
    · have hbounds := place_bounds (fun c hc => h c (List.mem_cons_of_mem b hc)) hF
      omega

end Free

/-- Without a block in use there is one block only. -/
theorem Coalesced.eq_singleton (h : Coalesced bs) (hne : bs ≠ []) (hfree : ∀ b ∈ bs, b.free = true) :
    bs = [⟨total bs, true⟩] := by
  cases bs with
  | nil => exact absurd rfl hne
  | cons b bs =>
    have hb := hfree b List.mem_cons_self
    cases bs with
    | nil =>
      obtain ⟨s,f⟩ := b
      simp only at hb
      simp [hb]
    | cons c bs =>
      have hc := hfree c (List.mem_cons_of_mem b List.mem_cons_self)
      unfold Coalesced at h
      rw [List.isChain_cons_cons] at h
      exact absurd (h.1 hb) (by simp [hc])

theorem splitFree_cases (bs : List Block) :
    (∃ s q, bs = ⟨s, true⟩::q ∧ splitFree bs = (s, q)) ∨
      (splitFree bs = (0, bs) ∧ ∀ b, bs.head? = some b → b.free = false) := by
  cases bs with
  | nil => exact .inr ⟨rfl,nofun⟩
  | cons b bs =>
    obtain ⟨s,f⟩ := b
    cases f with
    | true => exact .inl ⟨s,bs,rfl,rfl⟩
    | false =>
      refine .inr ⟨rfl,?_⟩
      intro c hc
      rw [← Option.some.inj hc]

theorem total_carve (least n s : ℤ) : total (carve least n s) = s := by
  unfold carve
  split <;> simp

theorem carve_rest {least n s t : ℤ} {rest : List Block} (h : carve least n s = ⟨t, false⟩::rest) :
    ∀ b ∈ rest, b.free = true := by
  unfold carve at h
  split at h
  · rw [← (List.cons.inj h).2]
    simp
  · rw [← (List.cons.inj h).2]
    exact nofun

theorem le_of_carve {least n s t : ℤ} {rest : List Block} (h : carve least n s = ⟨t, false⟩::rest)
    (hle : n ≤ s) : n ≤ t := by
  unfold carve at h
  split at h
  · exact (congrArg Block.size (List.cons.inj h).1).le
  · exact hle.trans (congrArg Block.size (List.cons.inj h).1).le

private theorem total_splitFree (bs : List Block) : (splitFree bs).1 + total (splitFree bs).2 = total bs := by
  rcases splitFree_cases bs with ⟨s,q,rfl,h⟩ | ⟨h,-⟩
  · simp [h]
  · simp [h]

private theorem total_reverse (bs : List Block) : total bs.reverse = total bs := by
  rw [total,total,List.map_reverse,List.sum_reverse]

theorem total_release (p : List Block) (s : ℤ) (q : List Block) :
    total (release p s q) = total p + s + total q := by
  have hp := total_splitFree p.reverse
  have hq := total_splitFree q
  rw [total_reverse] at hp
  rw [release,total_append,total_cons,total_reverse]
  simp only
  omega

private theorem freeTotal_splitFree (bs : List Block) :
    (splitFree bs).1 + freeTotal (splitFree bs).2 = freeTotal bs := by
  rcases splitFree_cases bs with ⟨s,q,rfl,h⟩ | ⟨h,-⟩
  · simp [h]
  · simp [h]

theorem freeTotal_release (p : List Block) (s : ℤ) (q : List Block) :
    freeTotal (release p s q) = freeTotal p + s + freeTotal q := by
  have hp := freeTotal_splitFree p.reverse
  have hq := freeTotal_splitFree q
  have hreverse : freeTotal p.reverse = freeTotal p := by
    rw [freeTotal,List.filter_reverse,total_reverse]
    rfl
  rw [hreverse] at hp
  have hback : freeTotal (splitFree p.reverse).2.reverse = freeTotal (splitFree p.reverse).2 := by
    rw [freeTotal,List.filter_reverse,total_reverse]
    rfl
  rw [release,freeTotal_append,freeTotal_cons,if_pos rfl,hback]
  simp only
  omega

/-- No block or one free block. -/
def OneFree (bs : List Block) : Prop := bs = [] ∨ ∃ s, bs = [⟨s, true⟩]

theorem OneFree.eq_of_place (h : OneFree bs) (hx : (x, b) ∈ place a bs) : x = a ∧ b.free = true := by
  rcases h with rfl | ⟨s,rfl⟩
  · exact absurd hx List.not_mem_nil
  · obtain ⟨rfl,rfl⟩ := Prod.mk.inj (List.mem_singleton.mp hx)
    exact ⟨rfl,rfl⟩

private theorem splitFree_spec (bs : List Block) :
    ∃ pre, OneFree pre ∧ bs = pre ++ (splitFree bs).2 ∧ total pre = (splitFree bs).1 := by
  rcases splitFree_cases bs with ⟨s,q,rfl,h⟩ | ⟨h,-⟩
  · exact ⟨[⟨s, true⟩],.inr ⟨s,rfl⟩,by simp [h],by simp [h]⟩
  · exact ⟨[],.inl rfl,by simp [h],by simp [h]⟩

theorem OneFree.reverse (h : OneFree bs) : bs.reverse = bs := by
  rcases h with rfl | ⟨s,rfl⟩ <;> rfl

section Used

variable {s t : ℤ} {rest : List Block}

def UsedAt (a : ℤ) (bs : List Block) (x s : ℤ) : Prop := (x, ⟨s, false⟩) ∈ place a bs

theorem usedAt_append : UsedAt a (p ++ q) x s ↔ UsedAt a p x s ∨ UsedAt (a + total p) q x s := by
  rw [UsedAt,place_append,List.mem_append]
  rfl

theorem usedAt_cons : UsedAt a (b::bs) x s ↔ (x = a ∧ b = ⟨s, false⟩) ∨ UsedAt (a + b.size) bs x s := by
  rw [UsedAt,place,List.mem_cons,Prod.mk.injEq,eq_comm (b := b)]
  rfl

theorem not_usedAt_of_free (h : ∀ b ∈ bs, b.free = true) : ¬ UsedAt a bs x s := by
  intro hx
  exact absurd (h _ (mem_of_place hx)) (by simp)

theorem OneFree.not_usedAt (h : OneFree bs) : ¬ UsedAt a bs x s :=
  fun hx => absurd (h.eq_of_place hx).2 (by simp)

theorem usedAt_cut (hrest : ∀ b ∈ rest, b.free = true) (hsum : t + total rest = s) {u : ℤ} :
    UsedAt a (p ++ ⟨t, false⟩::(rest ++ q)) x u ↔
      UsedAt a (p ++ ⟨s, true⟩::q) x u ∨ (x = a + total p ∧ u = t) := by
  have hq : a + total p + t + total rest = a + total p + s := by omega
  rw [usedAt_append,usedAt_append,usedAt_cons,usedAt_cons,usedAt_append]
  simp only [hq,not_usedAt_of_free hrest,Block.mk.injEq,Bool.true_eq_false,and_false,and_true,false_or,
    eq_comm (a := t)]
  tauto

theorem usedAt_release (h : ∀ b ∈ p ++ ⟨s, false⟩::q, 0 < b.size) {u : ℤ} :
    UsedAt a (release p s q) x u ↔ UsedAt a (p ++ ⟨s, false⟩::q) x u ∧ x ≠ a + total p := by
  obtain ⟨pre,hpre,hp,htp⟩ := splitFree_spec p.reverse
  obtain ⟨post,hpost,hq,htq⟩ := splitFree_spec q
  have hp' : p = (splitFree p.reverse).2.reverse ++ pre := by
    rw [← hpre.reverse,← List.reverse_append,← hp,List.reverse_reverse]
  have hpos : ∀ b ∈ p, 0 < b.size := fun b hb => h b (List.mem_append_left _ hb)
  have hqos : ∀ b ∈ q, 0 < b.size := fun b hb => h b (List.mem_append_right p (List.mem_cons_of_mem _ hb))
  have hs := h ⟨s, false⟩ (List.mem_append_right _ List.mem_cons_self)
  simp only at hs
  have htotal : total p = total (splitFree p.reverse).2.reverse + total pre := by
    rw [← total_append,← hp']
  have hfirst : UsedAt a p x u ↔ UsedAt a (splitFree p.reverse).2.reverse x u := by
    conv_lhs => rw [hp']
    rw [usedAt_append]
    simp [hpre.not_usedAt]
  have hlast : UsedAt (a + total p + s) q x u ↔ UsedAt (a + total p + s + total post) (splitFree q).2 x u := by
    conv_lhs => rw [hq]
    rw [usedAt_append]
    simp [hpost.not_usedAt]
  have haddr : a + total (splitFree p.reverse).2.reverse + ((splitFree p.reverse).1 + s + (splitFree q).1) =
      a + total p + s + total post := by omega
  rw [release,usedAt_append,usedAt_cons,usedAt_append,usedAt_cons]
  simp only [haddr,← hfirst,← hlast,Block.mk.injEq,Bool.true_eq_false,and_false,false_or,and_true]
  constructor
  · rintro (hx | hx)
    · have hbounds := place_bounds hpos hx
      have hu := hpos _ (mem_of_place hx)
      simp only at hbounds hu
      exact ⟨.inl hx,by omega⟩
    · have hbounds := place_bounds hqos hx
      exact ⟨.inr (.inr hx),by omega⟩
  · rintro ⟨hx | ⟨hx,-⟩ | hx,hne⟩
    · exact .inl hx
    · exact absurd hx hne
    · exact .inr hx

end Used

end Arena
