import WamrTest.Interp.Simulation

/-!
# How the loader rewrites a `br_table`

The depths are written into a byte each, over the numbers they are read from, or into a list of their own
when one of them needs more than a byte. Search and interpreter then see the rewritten bytes.
-/

namespace WamrTest.Interp

open Leb128 Loader

def unknownLabel : String := "unknown label, unexpected end of section or function"

def allocateFailed : String := "allocate memory failed"

/-- `offsetof(BrTableCache, br_depths)`, behind two pointers and `br_count`. -/
def offsetofBrDepths : ℕ := 20

/-- What `loader_malloc` does not refuse for `br_depths`; there is memory for it. The number of labels is a
`uint32`. -/
def HasRoom (count : UInt32) : Prop := offsetofBrDepths + 4 * (count + 1).toNat < 4294967295

instance (count : UInt32) : Decidable (HasRoom count) := inferInstanceAs (Decidable (_ < _))

inductive TableFault
  | message (text : String)
  | outside

/-- `wasm_loader_check_br`, but for the types. -/
def checkBr (cspNum depth : UInt32) : Bool := ¬ cspNum < depth + 1

/-- The type of the block at `frame_csp - depth - 1` is read, which the stack need not have. -/
def checkBranchBlock (cspNum : UInt32) (p : List UInt8) : Except TableFault (UInt32 × List UInt8) := do
  let (depth, p) ← (Loader.readLebUint32 p).mapError .message
  if checkBr cspNum depth then
    if depth < cspNum then .ok (depth, p) else .error .outside
  else .error (.message unknownLabel)

/-- The loop over the labels: what has been written from `p_depth_begin` on, and `br_depths`. -/
def rewriteLoop (cspNum count : UInt32) : ℕ → List UInt8 → List UInt8 → Option (List UInt32) →
    Except TableFault (List UInt8 × Option (List UInt32) × List UInt8)
  | 0, p, written, brDepths => .ok (written, brDepths, p)
  | n+1, p, written, brDepths => do
    let (depth, p) ← checkBranchBlock cspNum p
    match brDepths with
    | some brDepths => rewriteLoop cspNum count n p written (some (brDepths ++ [depth]))
    | none =>
      if depth > 255 then
        if ¬ HasRoom count then .error (.message allocateFailed)
        -- the room is none at all when the number of labels wraps
        else if count + 1 = 0 then .error .outside
        else rewriteLoop cspNum count n p written (some (written.map UInt8.toUInt32 ++ [depth]))
      else rewriteLoop cspNum count n p (written ++ [depth.toUInt8]) none

structure Rewritten where
  opcode : UInt8
  bytes : List UInt8
  brDepths : Option (List UInt32)

/-- From behind the opcode on; the bytes that are not written are set to `nop`. -/
def rewriteBrTable (cspNum : UInt32) (p : List UInt8) : Except TableFault (Rewritten × List UInt8) := do
  let (count, pDepthBegin) ← (Loader.readLebUint32 p).mapError .message
  let (written, brDepths, rest) ← rewriteLoop cspNum count (count.toNat + 1) pDepthBegin [] none
  let kept := p.take (p.length - pDepthBegin.length)
  let size := pDepthBegin.length - rest.length
  match brDepths with
  | none => .ok (⟨opBrTable, kept ++ (written ++ List.replicate (size - written.length) opNop), none⟩, rest)
  | some brDepths => .ok (⟨extOpBrTableCache, kept ++ List.replicate size opNop, some brDepths⟩, rest)

section Rewriting

variable {cspNum brCount : UInt32} {count : Leb32} {targets : List Leb32}

def labelBytes (targets : List Leb32) : List UInt8 := targets.flatMap Leb32.bytes

private theorem labelBytes_cons_append (t : Leb32) (targets : List Leb32) (p : List UInt8) :
    labelBytes (t::targets) ++ p = t.bytes ++ (labelBytes targets ++ p) := by
  rw [labelBytes,labelBytes,List.flatMap_cons,List.append_assoc]

theorem Leb32.load (l : Leb32) (p : List UInt8) : Loader.readLebUint32 (l.bytes ++ p) = .ok (l.value, p) :=
  readLebUint32_iff.mpr ⟨l.bytes,rfl,l.encodes,l.value_eq⟩

/-- The sum wraps for the last of all depths, and so it passes. -/
theorem checkBr_iff (cspNum depth : UInt32) : checkBr cspNum depth = true ↔ depth < cspNum ∨ depth = 4294967295 := by
  have hcsp := cspNum.toNat_lt
  have hdepth := depth.toNat_lt
  have hone : (1 : UInt32).toNat = 1 := rfl
  have hmax : (4294967295 : UInt32).toNat = 4294967295 := rfl
  have hsum : (depth + 1).toNat = (depth.toNat + 1) % 2 ^ 32 := UInt32.toNat_add depth 1
  unfold checkBr
  rw [decide_eq_true_iff,UInt32.lt_iff_toNat_lt,UInt32.lt_iff_toNat_lt,← UInt32.toNat_inj,hsum,hmax]
  omega

private theorem checkBranchBlock_label {l : Leb32} (h : l.value < cspNum) (p : List UInt8) :
    checkBranchBlock cspNum (l.bytes ++ p) = .ok (l.value, p) := by
  have hcheck := (checkBr_iff cspNum l.value).mpr (.inl h)
  rw [checkBranchBlock,l.load]
  simp only [Except.mapError,bind,Except.bind,hcheck,h,if_true]

private theorem checkBranchBlock_last {l : Leb32} (h : l.value = 4294967295) (p : List UInt8) :
    checkBranchBlock cspNum (l.bytes ++ p) = .error .outside := by
  have hcheck := (checkBr_iff cspNum l.value).mpr (.inr h)
  have hcsp := cspNum.toNat_lt
  have hmax : (4294967295 : UInt32).toNat = 4294967295 := rfl
  have hnot : ¬ l.value < cspNum := by
    rw [UInt32.lt_iff_toNat_lt,h,hmax]
    omega
  rw [checkBranchBlock,l.load]
  simp only [Except.mapError,bind,Except.bind,hcheck,hnot,if_true,if_false]

/-- What the check of a label can do: it takes a label, or the last of all depths leads it outside. -/
theorem checkBranchBlock_cases (cspNum : UInt32) (p : List UInt8) :
    (∃ (l : Leb32) (rest : List UInt8), p = l.bytes ++ rest ∧ l.value < cspNum) ∨
      (∃ (l : Leb32) (rest : List UInt8), p = l.bytes ++ rest ∧ l.value = 4294967295) ∨
        ∃ text, checkBranchBlock cspNum p = .error (.message text) := by
  cases hread : Loader.readLebUint32 p with
  | error text =>
    refine .inr (.inr ⟨text,?_⟩)
    rw [checkBranchBlock,hread]
    rfl
  | ok r =>
    obtain ⟨bs,rfl,hbs,hvalue⟩ := readLebUint32_iff.mp hread
    by_cases hcheck : checkBr cspNum r.1 = true
    · rcases (checkBr_iff cspNum r.1).mp hcheck with hlt | hlast
      · exact .inl ⟨⟨bs,r.1,hbs,hvalue⟩,r.2,rfl,hlt⟩
      · exact .inr (.inl ⟨⟨bs,r.1,hbs,hvalue⟩,r.2,rfl,hlast⟩)
    · refine .inr (.inr ⟨unknownLabel,?_⟩)
      rw [checkBranchBlock,hread]
      simp only [Except.mapError,bind,Except.bind,hcheck]
      rfl

private theorem hasRoom_of_wrap (h : brCount + 1 = 0) : HasRoom brCount := by
  rw [HasRoom,h]
  decide

/-- What one turn of the loop does with a label: it goes on, with `br_depths` from the first label of more
than a byte on, or it stops at that label. -/
theorem rewriteLoop_succ {l : Leb32} (h : l.value < cspNum) (n : ℕ) (p written : List UInt8)
    (brDepths : Option (List UInt32)) :
    (∃ written' brDepths', (brDepths'.isSome ↔ brDepths.isSome ∨ 255 < l.value) ∧
      (brDepths'.isSome → brDepths.isSome ∨ (HasRoom brCount ∧ brCount + 1 ≠ 0)) ∧
      rewriteLoop cspNum brCount (n + 1) (l.bytes ++ p) written brDepths =
        rewriteLoop cspNum brCount n p written' brDepths') ∨
      (brDepths = none ∧ 255 < l.value ∧ ¬ HasRoom brCount ∧
        rewriteLoop cspNum brCount (n + 1) (l.bytes ++ p) written brDepths = .error (.message allocateFailed)) ∨
      (brDepths = none ∧ 255 < l.value ∧ brCount + 1 = 0 ∧
        rewriteLoop cspNum brCount (n + 1) (l.bytes ++ p) written brDepths = .error .outside) := by
  rw [rewriteLoop,checkBranchBlock_label h]
  cases brDepths with
  | some brDepths => exact .inl ⟨written,some (brDepths ++ [l.value]),by simp,fun _ => .inl rfl,rfl⟩
  | none =>
    simp only [bind,Except.bind]
    by_cases hwide : 255 < l.value
    · by_cases hroom : HasRoom brCount
      · by_cases hwrap : brCount + 1 = 0
        · exact .inr (.inr ⟨trivial,hwide,hwrap,by rw [if_pos hwide,if_neg (not_not.mpr hroom),if_pos hwrap]⟩)
        · refine .inl ⟨written,some (written.map UInt8.toUInt32 ++ [l.value]),by simp [hwide],
            fun _ => .inr ⟨hroom,hwrap⟩,?_⟩
          rw [if_pos hwide,if_neg (not_not.mpr hroom),if_neg hwrap]
      · exact .inr (.inl ⟨trivial,hwide,hroom,by rw [if_pos hwide,if_pos hroom]⟩)
    · refine .inl ⟨written ++ [l.value.toUInt8],none,by simp [hwide],fun h => absurd h (by simp),?_⟩
      rw [if_neg hwide]

/-- There is room for the labels: each takes a byte, or `br_depths` has been got or can be. -/
def Stored (brCount : UInt32) (brDepths : Option (List UInt32)) (targets : List Leb32) : Prop :=
  brDepths.isSome ∨ (∀ t ∈ targets, t.value ≤ 255) ∨ HasRoom brCount

private theorem stored_none : Stored brCount none targets ↔ (∀ t ∈ targets, t.value ≤ 255) ∨ HasRoom brCount :=
  or_iff_right (by simp)

theorem Stored.next {l : Leb32} {brDepths brDepths' : Option (List UInt32)}
    (h : Stored brCount brDepths (l::targets)) (hsome : brDepths'.isSome ↔ brDepths.isSome ∨ 255 < l.value) :
    Stored brCount brDepths' targets := by
  rcases h with hgot | hbytes | hroom
  · exact .inl (hsome.mpr (.inl hgot))
  · exact .inr (.inl fun t ht => hbytes t (List.mem_cons_of_mem l ht))
  · exact .inr (.inr hroom)

private theorem Stored.back {l : Leb32} {brDepths brDepths' : Option (List UInt32)}
    (h : Stored brCount brDepths' targets) (hsome : brDepths'.isSome ↔ brDepths.isSome ∨ 255 < l.value)
    (hgot : brDepths'.isSome → brDepths.isSome ∨ (HasRoom brCount ∧ brCount + 1 ≠ 0)) :
    Stored brCount brDepths (l::targets) := by
  by_cases hnext : brDepths'.isSome
  · exact (hgot hnext).imp id fun hroom => .inr hroom.1
  · rcases h with h | hbytes | hroom
    · exact absurd h hnext
    · have hsmall : ¬ 255 < l.value := fun hwide => hnext (hsome.mpr (.inr hwide))
      exact .inr (.inl (List.forall_mem_cons.mpr ⟨UInt32.not_lt.mp hsmall,hbytes⟩))
    · exact .inr (.inr hroom)

private theorem rewriteLoop_sound {n : ℕ} {p rest written written' : List UInt8}
    {brDepths brDepths' : Option (List UInt32)}
    (h : rewriteLoop cspNum brCount n p written brDepths = .ok (written', brDepths', rest)) :
    ∃ targets : List Leb32, targets.length = n ∧ p = labelBytes targets ++ rest ∧
      (∀ t ∈ targets, t.value < cspNum) ∧ Stored brCount brDepths targets := by
  induction n generalizing p written brDepths with
  | zero =>
    obtain ⟨-,h⟩ := Prod.mk.inj (Except.ok.inj h)
    obtain ⟨-,rfl⟩ := Prod.mk.inj h
    exact ⟨[],rfl,rfl,List.forall_mem_nil _,.inr (.inl (List.forall_mem_nil _))⟩
  | succ n ih =>
    rcases checkBranchBlock_cases cspNum p with ⟨l,p',rfl,hlt⟩ | ⟨l,p',rfl,hlast⟩ | ⟨text,hcheck⟩
    · rcases rewriteLoop_succ hlt n p' written brDepths with
        ⟨written₁,brDepths₁,hsome,hgot,hnext⟩ | ⟨-,-,-,hnext⟩ | ⟨-,-,-,hnext⟩
      · rw [hnext] at h
        obtain ⟨targets,rfl,rfl,hlabels,hstored⟩ := ih h
        exact ⟨l::targets,rfl,(labelBytes_cons_append l targets rest).symm,
          List.forall_mem_cons.mpr ⟨hlt,hlabels⟩,hstored.back hsome hgot⟩
      · rw [hnext] at h
        exact absurd h (by simp)
      · rw [hnext] at h
        exact absurd h (by simp)
    · rw [rewriteLoop,checkBranchBlock_last hlast] at h
      exact absurd h (by simp [bind,Except.bind])
    · rw [rewriteLoop,hcheck] at h
      exact absurd h (by simp [bind,Except.bind])

/-- What leads the loop outside behind labels that it has taken. -/
def Leads (cspNum brCount : UInt32) (brDepths : Option (List UInt32)) (targets : List Leb32) (last : Leb32) : Prop :=
  (last.value = 4294967295 ∧ Stored brCount brDepths targets) ∨
    (brCount + 1 = 0 ∧ 255 < last.value ∧ last.value < cspNum)

private theorem rewriteLoop_leaves {n : ℕ} {p written : List UInt8} {brDepths : Option (List UInt32)}
    (h : rewriteLoop cspNum brCount n p written brDepths = .error .outside) :
    ∃ (targets : List Leb32) (last : Leb32) (rest : List UInt8), targets.length < n ∧
      p = labelBytes targets ++ (last.bytes ++ rest) ∧ (∀ t ∈ targets, t.value < cspNum) ∧
        Leads cspNum brCount brDepths targets last := by
  induction n generalizing p written brDepths with
  | zero => exact absurd h (by simp [rewriteLoop])
  | succ n ih =>
    rcases checkBranchBlock_cases cspNum p with ⟨l,p',rfl,hlt⟩ | ⟨l,p',rfl,hlast⟩ | ⟨text,hcheck⟩
    · rcases rewriteLoop_succ hlt n p' written brDepths with
        ⟨written₁,brDepths₁,hsome,hgot,hnext⟩ | ⟨-,-,-,hnext⟩ | ⟨-,hwide,hwrap,-⟩
      · rw [hnext] at h
        obtain ⟨targets,last,rest,hlen,rfl,hlabels,hlead⟩ := ih h
        have hbytes := labelBytes_cons_append l targets (last.bytes ++ rest)
        have hall : ∀ t ∈ l::targets, t.value < cspNum := List.forall_mem_cons.mpr ⟨hlt,hlabels⟩
        exact ⟨l::targets,last,rest,Nat.succ_lt_succ hlen,hbytes.symm,hall,
          hlead.imp_left fun hlast => ⟨hlast.1,hlast.2.back hsome hgot⟩⟩
      · rw [hnext] at h
        exact absurd h (by simp)
      · exact ⟨[],l,p',Nat.succ_pos n,rfl,List.forall_mem_nil _,.inr ⟨hwrap,hwide,hlt⟩⟩
    · exact ⟨[],l,p',Nat.succ_pos n,rfl,List.forall_mem_nil _,.inl ⟨hlast,.inr (.inl (List.forall_mem_nil _))⟩⟩
    · rw [rewriteLoop,hcheck] at h
      exact absurd h (by simp [bind,Except.bind])

private theorem rewriteLoop_outside {n : ℕ} {last : Leb32} (hlen : targets.length < n)
    (hlabels : ∀ t ∈ targets, t.value < cspNum) (rest written : List UInt8) {brDepths : Option (List UInt32)}
    (hlead : Leads cspNum brCount brDepths targets last) (hcache : brDepths.isSome → brCount + 1 ≠ 0) :
    rewriteLoop cspNum brCount n (labelBytes targets ++ (last.bytes ++ rest)) written brDepths = .error .outside := by
  induction targets generalizing n written brDepths with
  | nil =>
    obtain ⟨n,rfl⟩ := Nat.exists_eq_succ_of_ne_zero (Nat.ne_of_gt hlen)
    rw [labelBytes,List.flatMap_nil,List.nil_append]
    rcases hlead with ⟨hlast,-⟩ | ⟨hwrap,hwide,hlt⟩
    · rw [rewriteLoop,checkBranchBlock_last hlast]
      rfl
    · rcases rewriteLoop_succ hlt n rest written brDepths with
        ⟨written₁,brDepths₁,hsome,hgot,-⟩ | ⟨-,-,hroom,-⟩ | ⟨-,-,-,hnext⟩
      · rcases hgot (hsome.mpr (.inr hwide)) with hold | hnew
        · exact absurd hwrap (hcache hold)
        · exact absurd hwrap hnew.2
      · exact absurd (hasRoom_of_wrap hwrap) hroom
      · exact hnext
  | cons t targets ih =>
    obtain ⟨n,rfl⟩ := Nat.exists_eq_succ_of_ne_zero (Nat.ne_of_gt (Nat.zero_lt_of_lt hlen))
    have hlabels' : ∀ u ∈ targets, u.value < cspNum := fun u hu => hlabels u (List.mem_cons_of_mem _ hu)
    rw [labelBytes_cons_append]
    rcases rewriteLoop_succ (hlabels t List.mem_cons_self) n (labelBytes targets ++ (last.bytes ++ rest)) written
      brDepths with ⟨written₁,brDepths₁,hsome,hgot,hnext⟩ | ⟨hnone,hwide,hroom,-⟩ | ⟨-,-,-,hnext⟩
    · have hcache' : brDepths₁.isSome → brCount + 1 ≠ 0 := fun h => (hgot h).elim hcache And.right
      have hlead' : Leads cspNum brCount brDepths₁ targets last :=
        hlead.imp_left fun hlast => ⟨hlast.1,hlast.2.next hsome⟩
      exact hnext.trans (ih (Nat.lt_of_succ_lt_succ hlen) hlabels' written₁ hlead' hcache')
    · -- a label that is refused has neither been stored nor can it be
      exfalso
      rcases hlead with ⟨-,hgot | hbytes | hhas⟩ | ⟨hwrap,-,-⟩
      · rw [hnone] at hgot
        exact absurd hgot (by simp)
      · exact UInt32.not_lt.mpr (hbytes t List.mem_cons_self) hwide
      · exact hroom hhas
      · exact hroom (hasRoom_of_wrap hwrap)
    · exact hnext

private theorem rewriteLoop_cached (hlabels : ∀ t ∈ targets, t.value < cspNum) (written rest : List UInt8)
    (brDepths : List UInt32) :
    rewriteLoop cspNum brCount targets.length (labelBytes targets ++ rest) written (some brDepths) =
      .ok (written, some (brDepths ++ targets.map Leb32.value), rest) := by
  induction targets generalizing brDepths with
  | nil => simp [rewriteLoop,labelBytes]
  | cons t targets ih =>
    have hcheck := checkBranchBlock_label (hlabels t List.mem_cons_self) (labelBytes targets ++ rest)
    have hrest := ih (fun u hu => hlabels u (List.mem_cons_of_mem _ hu)) (brDepths ++ [t.value])
    rw [labelBytes_cons_append,List.length_cons,rewriteLoop,hcheck]
    rw [List.append_assoc] at hrest
    exact hrest

private theorem rewriteLoop_bytes (hlabels : ∀ t ∈ targets, t.value < cspNum) (hbytes : ∀ t ∈ targets, t.value ≤ 255)
    (written rest : List UInt8) : rewriteLoop cspNum brCount targets.length (labelBytes targets ++ rest) written none =
      .ok (written ++ targets.map fun t => t.value.toUInt8, none, rest) := by
  induction targets generalizing written with
  | nil => simp [rewriteLoop,labelBytes]
  | cons t targets ih =>
    have hcheck := checkBranchBlock_label (hlabels t List.mem_cons_self) (labelBytes targets ++ rest)
    have hbyte := UInt32.not_lt.mpr (hbytes t List.mem_cons_self)
    have hrest := ih (fun u hu => hlabels u (List.mem_cons_of_mem _ hu))
      (fun u hu => hbytes u (List.mem_cons_of_mem _ hu)) (written ++ [t.value.toUInt8])
    rw [labelBytes_cons_append,List.length_cons,rewriteLoop,hcheck]
    simp only [bind,Except.bind,gt_iff_lt,hbyte,if_false]
    rw [List.append_assoc] at hrest
    exact hrest

private theorem rewriteLoop_refused {brDepths : Option (List UInt32)} (hlabels : ∀ t ∈ targets, t.value < cspNum)
    (hstored : ¬ Stored brCount brDepths targets) (written rest : List UInt8) :
    rewriteLoop cspNum brCount targets.length (labelBytes targets ++ rest) written brDepths =
      .error (.message allocateFailed) := by
  induction targets generalizing written brDepths with
  | nil => exact absurd (.inr (.inl (List.forall_mem_nil _))) hstored
  | cons t targets ih =>
    have hlabels' : ∀ u ∈ targets, u.value < cspNum := fun u hu => hlabels u (List.mem_cons_of_mem _ hu)
    rw [labelBytes_cons_append]
    rcases rewriteLoop_succ (hlabels t List.mem_cons_self) targets.length (labelBytes targets ++ rest) written
      brDepths with ⟨written₁,brDepths₁,hsome,hgot,hnext⟩ | ⟨-,-,-,hnext⟩ | ⟨-,-,hwrap,-⟩
    · exact hnext.trans (ih hlabels' (fun h => hstored (h.back hsome hgot)) written₁)
    · exact hnext
    · exact absurd (.inr (.inr (hasRoom_of_wrap hwrap))) hstored

private theorem rewriteLoop_wide (hroom : HasRoom brCount) (hwrap : brCount + 1 ≠ 0)
    (hlabels : ∀ t ∈ targets, t.value < cspNum)
    (hwide : ¬ ∀ t ∈ targets, t.value ≤ 255) (written rest : List UInt8) :
    ∃ written', rewriteLoop cspNum brCount targets.length (labelBytes targets ++ rest) written none =
      .ok (written', some (written.map UInt8.toUInt32 ++ targets.map Leb32.value), rest) := by
  induction targets generalizing written with
  | nil => exact absurd (fun t ht => absurd ht List.not_mem_nil) hwide
  | cons t targets ih =>
    have hcheck := checkBranchBlock_label (hlabels t List.mem_cons_self) (labelBytes targets ++ rest)
    have hlabels' : ∀ u ∈ targets, u.value < cspNum := fun u hu => hlabels u (List.mem_cons_of_mem _ hu)
    rw [labelBytes_cons_append,List.length_cons,rewriteLoop,hcheck]
    simp only [bind,Except.bind]
    by_cases hbyte : t.value > 255
    · rw [if_pos hbyte,if_neg (not_not.mpr hroom),if_neg hwrap]
      refine ⟨written,(rewriteLoop_cached hlabels' written rest _).trans ?_⟩
      rw [List.append_assoc]
      rfl
    · rw [if_neg hbyte]
      have hwide' : ¬ ∀ u ∈ targets, u.value ≤ 255 := by
        intro hall
        apply hwide
        intro u hu
        rcases List.mem_cons.mp hu with rfl | hu
        · exact UInt32.not_lt.mp hbyte
        · exact hall u hu
      have hback : t.value.toUInt8.toUInt32 = t.value := by
        have hle : ¬ (255 : UInt32).toNat < t.value.toNat := mt UInt32.lt_iff_toNat_lt.mpr hbyte
        have hbound : (255 : UInt32).toNat = 255 := rfl
        apply UInt32.toNat_inj.mp
        rw [UInt8.toNat_toUInt32,UInt32.toNat_toUInt8]
        omega
      obtain ⟨written',hrest⟩ := ih hlabels' hwide' (written ++ [t.value.toUInt8])
      rw [List.map_append,List.append_assoc] at hrest
      simp only [List.map_cons,List.map_nil,hback] at hrest
      exact ⟨written',hrest⟩

private theorem length_le_labelBytes (targets : List Leb32) : targets.length ≤ (labelBytes targets).length := by
  induction targets with
  | nil => exact le_rfl
  | cons t targets ih =>
    have hpos := t.encodes.leb.length_pos
    change targets.length + 1 ≤ (t.bytes ++ labelBytes targets).length
    rw [List.length_append]
    omega

def rewritten (count : Leb32) (targets : List Leb32) : Rewritten :=
  if ∀ t ∈ targets, t.value ≤ 255 then
    ⟨opBrTable, count.bytes ++ ((targets.map fun t => t.value.toUInt8) ++
      List.replicate ((labelBytes targets).length - targets.length) opNop), none⟩
  else ⟨extOpBrTableCache, count.bytes ++ List.replicate (labelBytes targets).length opNop,
    some (targets.map Leb32.value)⟩

private theorem rewriteBrTable_spec (hlen : targets.length = count.value.toNat + 1) (hsize : targets.length < 2 ^ 32)
    (hlabels : ∀ t ∈ targets, t.value < cspNum) (rest : List UInt8) :
    rewriteBrTable cspNum (count.bytes ++ (labelBytes targets ++ rest)) =
      if (∀ t ∈ targets, t.value ≤ 255) ∨ HasRoom count.value then .ok (rewritten count targets, rest)
      else .error (.message allocateFailed) := by
  have hkept : (count.bytes ++ (labelBytes targets ++ rest)).take
      ((count.bytes ++ (labelBytes targets ++ rest)).length - (labelBytes targets ++ rest).length) = count.bytes := by
    rw [List.length_append,Nat.add_sub_cancel,List.take_left]
  have hbehind : (labelBytes targets ++ rest).length - rest.length = (labelBytes targets).length := by
    rw [List.length_append,Nat.add_sub_cancel]
  have hwrap : count.value + 1 ≠ 0 := by
    have hone : (1 : UInt32).toNat = 1 := rfl
    have hzero : (0 : UInt32).toNat = 0 := rfl
    rw [ne_eq,← UInt32.toNat_inj,UInt32.toNat_add,hone,hzero]
    omega
  unfold rewriteBrTable
  rw [count.load]
  simp only [Except.mapError,bind,Except.bind,← hlen,hkept]
  by_cases hbytes : ∀ t ∈ targets, t.value ≤ 255
  · rw [rewriteLoop_bytes hlabels hbytes,if_pos (.inl hbytes)]
    simp only [List.nil_append,List.length_map,hbehind]
    rw [rewritten,if_pos hbytes]
  · by_cases hroom : HasRoom count.value
    · obtain ⟨written,hloop⟩ := rewriteLoop_wide hroom hwrap hlabels hbytes [] rest
      rw [hloop,if_pos (.inr hroom)]
      simp only [List.map_nil,List.nil_append,hbehind]
      rw [rewritten,if_neg hbytes]
    · have hstored : ¬ Stored count.value none targets := fun h => (stored_none.mp h).elim hbytes hroom
      rw [rewriteLoop_refused hlabels hstored [] rest,if_neg (fun h => h.elim hbytes hroom)]

private theorem rewriteBrTable_sound {p rest : List UInt8} {r : Rewritten}
    (h : rewriteBrTable cspNum p = .ok (r, rest)) :
    ∃ (count : Leb32) (targets : List Leb32), targets.length = count.value.toNat + 1 ∧
      p = count.bytes ++ (labelBytes targets ++ rest) ∧ (∀ t ∈ targets, t.value < cspNum) ∧
        ((∀ t ∈ targets, t.value ≤ 255) ∨ HasRoom count.value) := by
  obtain ⟨⟨count,begin⟩,hcount,hbody⟩ := Fallible.bind_ok h
  obtain ⟨⟨written,brDepths,rest'⟩,hloop,hresult⟩ := Fallible.bind_ok hbody
  obtain ⟨bs,hbytes,hbs,hvalue⟩ := readLebUint32_iff.mp (Fallible.mapError_ok hcount)
  obtain ⟨targets,hlen,hbegin,hlabels,hstored⟩ := rewriteLoop_sound hloop
  have hrest : rest' = rest := by
    cases brDepths with
    | none => exact (Prod.mk.inj (Except.ok.inj hresult)).2
    | some brDepths => exact (Prod.mk.inj (Except.ok.inj hresult)).2
  rw [← hrest,hbytes,hbegin]
  exact ⟨⟨bs,count,hbs,hvalue⟩,targets,hlen,rfl,hlabels,stored_none.mp hstored⟩

private theorem rewriteBrTable_leaves {p : List UInt8} (h : rewriteBrTable cspNum p = .error .outside) :
    ∃ (count : Leb32) (targets : List Leb32) (last : Leb32) (rest : List UInt8),
      targets.length ≤ count.value.toNat ∧ p = count.bytes ++ (labelBytes targets ++ (last.bytes ++ rest)) ∧
        (∀ t ∈ targets, t.value < cspNum) ∧ Leads cspNum count.value none targets last := by
  rcases Fallible.bind_error h with hread | ⟨⟨count,begin⟩,hcount,hbody⟩
  · obtain ⟨text,-,htext⟩ := Fallible.mapError_error hread
    exact absurd htext (by simp)
  · obtain ⟨bs,hbytes,hbs,hvalue⟩ := readLebUint32_iff.mp (Fallible.mapError_ok hcount)
    rcases Fallible.bind_error hbody with hloop | ⟨⟨written,brDepths,rest⟩,-,hresult⟩
    · obtain ⟨targets,last,rest,hlen,hbegin,hlabels,hlead⟩ := rewriteLoop_leaves hloop
      rw [hbytes,hbegin]
      exact ⟨⟨bs,count,hbs,hvalue⟩,targets,last,rest,Nat.le_of_lt_succ hlen,rfl,hlabels,hlead⟩
    · cases brDepths with
      | none => exact absurd hresult (by simp)
      | some brDepths => exact absurd hresult (by simp)

/-- A table is taken if and only if each of its depths is that of a label, and each takes a byte or there is
room for them. The check goes outside of the stack of blocks at the last of all depths, and of `br_depths` when
the number of depths wraps. -/
theorem rewriteBrTable_outcome (cspNum : UInt32) (p rest : List UInt8) (hp : p.length < 2 ^ 32) :
    ((∃ r, rewriteBrTable cspNum p = .ok (r, rest)) ↔ ∃ (count : Leb32) (targets : List Leb32),
      targets.length = count.value.toNat + 1 ∧ p = count.bytes ++ (labelBytes targets ++ rest) ∧
        (∀ t ∈ targets, t.value < cspNum) ∧ ((∀ t ∈ targets, t.value ≤ 255) ∨ HasRoom count.value)) ∧
    (rewriteBrTable cspNum p = .error .outside ↔
      ∃ (count : Leb32) (targets : List Leb32) (last : Leb32) (rest : List UInt8),
        targets.length ≤ count.value.toNat ∧ p = count.bytes ++ (labelBytes targets ++ (last.bytes ++ rest)) ∧
          (∀ t ∈ targets, t.value < cspNum) ∧
            ((last.value = 4294967295 ∧ ((∀ t ∈ targets, t.value ≤ 255) ∨ HasRoom count.value)) ∨
              (count.value + 1 = 0 ∧ 255 < last.value ∧ last.value < cspNum))) := by
  refine ⟨⟨?_,?_⟩,?_,?_⟩
  · rintro ⟨r,h⟩
    exact rewriteBrTable_sound h
  · rintro ⟨count,targets,hlen,rfl,hlabels,hstored⟩
    have hsize : targets.length < 2 ^ 32 := by
      have hle := length_le_labelBytes targets
      rw [List.length_append,List.length_append] at hp
      omega
    exact ⟨_,(rewriteBrTable_spec hlen hsize hlabels rest).trans (if_pos hstored)⟩
  · intro h
    obtain ⟨count,targets,last,rest,hlen,hbytes,hlabels,hlead⟩ := rewriteBrTable_leaves h
    exact ⟨count,targets,last,rest,hlen,hbytes,hlabels,hlead.imp_left (And.imp_right stored_none.mp)⟩
  · rintro ⟨count,targets,last,rest,hlen,rfl,hlabels,hcause⟩
    have hlead : Leads cspNum count.value none targets last := hcause.imp_left (And.imp_right stored_none.mpr)
    have noCache : (none : Option (List UInt32)).isSome → count.value + 1 ≠ 0 := fun h => absurd h (by simp)
    have hloop := rewriteLoop_outside (Nat.lt_succ_of_le hlen) hlabels rest [] hlead noCache
    rw [rewriteBrTable,count.load]
    simp only [Except.mapError,bind,Except.bind]
    rw [hloop]

def tableCount : Leb32 :=
  ⟨[1], 1, ⟨.last (by decide), by decide, (by decide : unsigned [1] < 2 ^ 32)⟩, rfl⟩

def lastLabel : Leb32 :=
  ⟨[0xff, 0xff, 0xff, 0xff, 0x0f], 4294967295, ⟨.more (by decide) (.more (by decide) (.more (by decide) (.more
    (by decide) (.last (by decide))))), by decide, (by decide : unsigned [0xff, 0xff, 0xff, 0xff, 0x0f] < 2 ^ 32)⟩, rfl⟩

theorem rewriteBrTable_outcome_last : rewriteBrTable 1 [1, 0, 0xff, 0xff, 0xff, 0xff, 0x0f] = .error .outside :=
  (rewriteBrTable_outcome 1 [1, 0, 0xff, 0xff, 0xff, 0xff, 0x0f] [] (by decide)).2.mpr
    ⟨tableCount,[outermost],lastLabel,[],by decide,rfl,by decide,.inl ⟨rfl,.inr (by decide)⟩⟩

private theorem length_rewritten (count : Leb32) (targets : List Leb32) :
    (rewritten count targets).bytes.length = count.bytes.length + (labelBytes targets).length := by
  have hle := length_le_labelBytes targets
  unfold rewritten
  split
  next =>
    simp only [List.length_append,List.length_map,List.length_replicate]
    omega
  next => rw [List.length_append,List.length_replicate]

/-- The table of a branch to labels that need no more than a byte. -/
def byteTable (count : Leb32) (targets : List Leb32) (hlen : targets.length = count.value.toNat + 1)
    (hsize : targets.length < 2 ^ 32) : BrTable where
  count := count
  depths := targets.map fun t => t.value.toUInt8
  padding := (labelBytes targets).length - targets.length
  length_depths := by rw [List.length_map,hlen]
  count_lt := by omega

private theorem blockScan_rewritten {c : Code} {depth elseAddr : ℕ} (hlen : targets.length = count.value.toNat + 1)
    (hsize : targets.length < 2 ^ 32) (p : List UInt8) :
    blockScan c ((rewritten count targets).opcode::((rewritten count targets).bytes ++ p)) depth elseAddr =
      blockScan c p depth elseAddr := by
  unfold rewritten
  split
  next => exact (byteTable count targets hlen hsize).blockScan p
  next =>
    apply blockScan_padded (n := (labelBytes targets).length)
    simp only
    rw [List.append_assoc]
    change (do let p ← Interp.skipOperands extOpBrTableCache _; Except.ok (Token.plain, p)) = _
    rw [skipOperands,if_neg (by decide),if_pos rfl,readUnchecked,count.load]
    simp only [bind,Except.bind]
    cases skipNops (List.replicate (labelBytes targets).length opNop ++ p) <;> rfl

end Rewriting

section Branching

variable {σ : Type} {f : Function σ} {a : Activation σ} {lidx : UInt32} {count target : Leb32}
  {targets : List Leb32} {p rest : List UInt8} {r : Rewritten} {stack : List UInt32}

private theorem step_byteTable (hlen : targets.length = count.value.toNat + 1) (hsize : targets.length < 2 ^ 32)
    (hbytes : ∀ t ∈ targets, t.value ≤ 255)
    (hcode : (byteTable count targets hlen hsize).encode ++ p <:+ f.code.bytes)
    (hip : a.ip = f.code.addr ((byteTable count targets hlen hsize).encode ++ p)) (hstack : a.stack = lidx::stack)
    (htarget : targets[min lidx.toNat count.value.toNat]? = some target) :
    step f a = popCspN f { a with stack := stack } target.value.toNat := by
  have hmem : target ∈ targets := List.mem_of_getElem? htarget
  have hle := UInt32.le_iff_toNat_le.mp (hbytes target hmem)
  have hbound : (255 : UInt32).toNat = 255 := rfl
  have hdepth : (byteTable count targets hlen hsize).depths[min lidx.toNat count.value.toNat]? =
      some target.value.toUInt8 := by
    rw [byteTable,List.getElem?_map,htarget]
    rfl
  have hbyte : target.value.toUInt8.toNat = target.value.toNat := by
    rw [UInt32.toNat_toUInt8]
    omega
  rw [step_brTable hip hcode hstack hdepth,hbyte]

private theorem step_cached (hlen : targets.length = count.value.toNat + 1)
    (hcode : extOpBrTableCache::p <:+ f.code.bytes) (hip : a.ip = f.code.addr (extOpBrTableCache::p))
    (hnode : f.brTableCacheList.find? (fun node => node.brTableOpAddr = a.ip) =
      some ⟨a.ip, targets.map Leb32.value⟩)
    (hstack : a.stack = lidx::stack) (htarget : targets[min lidx.toNat count.value.toNat]? = some target) :
    step f a = if lidx ≤ count.value then popCspN f { a with stack := stack } target.value.toNat else .outside := by
  have hstep := step_control hip hcode rfl
  simp only [handle,hnode,hstack,List.getElem?_map] at hstep
  by_cases hle : lidx ≤ count.value
  · have hmin : min lidx.toNat count.value.toNat = lidx.toNat := Nat.min_eq_left (UInt32.le_iff_toNat_le.mp hle)
    rw [hmin] at htarget
    rw [htarget] at hstep
    rw [if_pos hle]
    exact hstep
  · have hlt : targets.length ≤ lidx.toNat := by
      have hnot := mt UInt32.le_iff_toNat_le.mpr hle
      omega
    rw [List.getElem?_eq_none hlt] at hstep
    rw [if_neg hle]
    exact hstep

/-- The rewritten `br_table` branches as the table says, but for an index behind a table with a depth of
more than a byte: there the interpreter reads behind `br_depths`. It is as long as before, and the search
for the end of a block goes on behind it. -/
theorem brTable_rewritten (f : Function σ) (cspNum : UInt32) (count : Leb32) (targets : List Leb32)
    (hlen : targets.length = count.value.toNat + 1)
    (hsize : targets.length < 2 ^ 32) (hlabels : ∀ t ∈ targets, t.value < cspNum)
    (hrewrite : rewriteBrTable cspNum (count.bytes ++ (labelBytes targets ++ rest)) = .ok (r, rest))
    (hcode : r.opcode::(r.bytes ++ rest) <:+ f.code.bytes) (hip : a.ip = f.code.addr (r.opcode::(r.bytes ++ rest)))
    (hnode : f.brTableCacheList.find? (fun node => node.brTableOpAddr = a.ip) =
      r.brDepths.map fun brDepths => ⟨a.ip, brDepths⟩)
    (hstack : a.stack = lidx::stack) (htarget : targets[min lidx.toNat count.value.toNat]? = some target) :
    step f a = (if (∀ t ∈ targets, t.value ≤ 255) ∨ lidx ≤ count.value then
        popCspN f { a with stack := stack } target.value.toNat else .outside) ∧
      r.bytes.length = count.bytes.length + (labelBytes targets).length ∧
      ∀ depth elseAddr, blockScan f.code (r.opcode::(r.bytes ++ rest)) depth elseAddr =
        blockScan f.code rest depth elseAddr := by
  rw [rewriteBrTable_spec hlen hsize hlabels rest] at hrewrite
  obtain rfl : rewritten count targets = r := by
    split at hrewrite
    next => exact (Prod.mk.inj (Except.ok.inj hrewrite)).1
    next => exact absurd hrewrite (by simp)
  constructor
  · by_cases hbytes : ∀ t ∈ targets, t.value ≤ 255
    · rw [rewritten,if_pos hbytes] at hcode hip
      rw [if_pos (.inl hbytes)]
      exact step_byteTable hlen hsize hbytes hcode hip hstack htarget
    · rw [rewritten,if_neg hbytes] at hcode hip hnode
      rw [step_cached hlen hcode hip hnode hstack htarget]
      by_cases hle : lidx ≤ count.value
      · rw [if_pos hle,if_pos (.inr hle)]
      · rw [if_neg hle,if_neg (fun h => h.elim hbytes hle)]
  · refine ⟨length_rewritten count targets,?_⟩
    intro depth elseAddr
    exact blockScan_rewritten hlen hsize rest

def farLabel : Leb32 :=
  ⟨[0xac, 2], 300, ⟨.more (by decide) (.last (by decide)), by decide, (by decide : unsigned [0xac, 2] < 2 ^ 32)⟩, rfl⟩

/-- A table of two labels, of which the second is 300 blocks away. -/
def farFunction : Function Unit where
  code := ⟨128, [extOpBrTableCache, 1, opNop, opNop, opNop, opEnd], by decide⟩
  wasmTypes := fun _ => ⟨0, 0⟩
  brTableCacheList := [⟨128, [0, 300]⟩]
  retCellNum := 0
  operate := fun _ state _ => .error ("unsupported opcode", state)
  searches := fun _ _ _ => []

def farBlocks : List Label := List.replicate 300 ⟨130, 131, 0, 0⟩ ++ [⟨128, 133, 0, 0⟩]

/-- The index of the second label branches to the outermost block, the one behind it leaves `br_depths`. -/
theorem brTable_rewritten_far :
    step farFunction ⟨128, (), [1], farBlocks, Cache.empty⟩ = .go ⟨133, (), [], [⟨128, 133, 0, 0⟩], Cache.empty⟩ ∧
      step farFunction ⟨128, (), [2], farBlocks, Cache.empty⟩ = .outside ∧
      [1, opNop, opNop, opNop].length = 1 + 3 ∧
      ∀ depth elseAddr, blockScan farFunction.code farFunction.code.bytes depth elseAddr =
        blockScan farFunction.code [opEnd] depth elseAddr := by
  obtain ⟨hlast,hlen,hscan⟩ := brTable_rewritten (a := ⟨128, (), [1], farBlocks, Cache.empty⟩)
    (r := ⟨extOpBrTableCache, [1, opNop, opNop, opNop], some [0, 300]⟩) farFunction 400 tableCount
    [outermost, farLabel] rfl (by decide) (by decide) rfl List.suffix_rfl rfl rfl rfl rfl
  obtain ⟨hbehind,-⟩ := brTable_rewritten (a := ⟨128, (), [2], farBlocks, Cache.empty⟩)
    (r := ⟨extOpBrTableCache, [1, opNop, opNop, opNop], some [0, 300]⟩) farFunction 400 tableCount
    [outermost, farLabel] rfl (by decide) (by decide) rfl List.suffix_rfl rfl rfl rfl rfl
  exact ⟨hlast,hbehind,hlen,hscan⟩

end Branching

end WamrTest.Interp
