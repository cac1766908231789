import Mathlib.Data.List.Forall2
import WamrTest.Framework.Encoding
import WamrTest.Loader.Leb

/-!
# The sections of a module

`load` checks the header and `create_sections` takes the rest apart, before any section is looked at.
-/

namespace WamrTest.Loader

open Leb128 Encoding

def wasmMagicNumber : ℕ := 0x6d736100

def wasmCurrentVersion : ℕ := 1

def sectionTypeUser : UInt8 := 0

/-- The types in the order that the sections must have; 12 is that of the data count. -/
def sectionIds : List UInt8 := [0, 1, 2, 3, 4, 5, 6, 7, 8, 9, 12, 10, 11]

def getSectionIndex (sectionType : UInt8) : UInt8 :=
  match sectionIds.findIdx? (sectionType == ·) with
  | some i => UInt8.ofNat i
  | none => 255

/-- `WASMSection`. -/
structure Section where
  sectionType : UInt8
  sectionBody : List UInt8
deriving DecidableEq

def unexpectedContent : String := "unexpected content after last section or junk after last section"

private theorem readLebUint32_shorter {buf rest : List UInt8} {v : UInt32} (h : readLebUint32 buf = .ok (v, rest)) :
    rest.length < buf.length := by
  obtain ⟨bs,rfl,hbs,-⟩ := readLebUint32_iff.mp h
  have hpos := hbs.leb.length_pos
  rw [List.length_append]
  omega

/-- The loop of `create_sections`. -/
def createSections (lastSectionIndex : UInt8) (p : List UInt8) : Except String (List Section) :=
  match p with
  | [] => .ok []
  | sectionType::p =>
    let sectionIndex := getSectionIndex sectionType
    if sectionIndex = 255 then .error "invalid section id"
    else if sectionType ≠ sectionTypeUser ∧ lastSectionIndex ≠ 255 ∧ sectionIndex ≤ lastSectionIndex then
      .error unexpectedContent
    else match _h : readLebUint32 p with
      | .error e => .error e
      | .ok (sectionSize, rest) =>
        if rest.length < sectionSize.toNat then .error "unexpected end"
        else match createSections (if sectionType ≠ sectionTypeUser then sectionIndex else lastSectionIndex)
            (rest.drop sectionSize.toNat) with
          | .error e => .error e
          | .ok sections => .ok (⟨sectionType, rest.take sectionSize.toNat⟩ :: sections)
termination_by p.length
decreasing_by
  have hlt := readLebUint32_shorter _h
  simp only [List.length_drop,List.length_cons]
  omega

/-- `load`, up to the contents of the sections. -/
def load (buf : List UInt8) : Except String (List Section) :=
  if buf.length < 4 then .error "unexpected end"
  else if readWord (buf.take 4) ≠ wasmMagicNumber then .error "magic header not detected"
  else if (buf.drop 4).length < 4 then .error "unexpected end"
  else if readWord ((buf.drop 4).take 4) ≠ wasmCurrentVersion then .error "unknown binary version"
  else createSections 255 (buf.drop 8)

def Section.Encodes (s : Section) (bs : List UInt8) : Prop :=
  s.sectionType ∈ sectionIds ∧ ∃ leb, LebKind.uint32.Encodes leb ∧ unsigned leb = s.sectionBody.length ∧
    bs = s.sectionType::(leb ++ s.sectionBody)

/-- The sections that are not custom come once each and in order, behind those of some index. -/
def InOrder (lastSectionIndex : UInt8) (sections : List Section) : Prop :=
  (∀ s ∈ sections, s.sectionType ≠ sectionTypeUser →
      lastSectionIndex = 255 ∨ lastSectionIndex < getSectionIndex s.sectionType) ∧
    (sections.filter (·.sectionType ≠ sectionTypeUser)).Pairwise
      fun s t => getSectionIndex s.sectionType < getSectionIndex t.sectionType

section Order

variable {sectionType : UInt8} {last : UInt8} {s : Section} {sections : List Section}

private theorem getSectionIndex_ne (sectionType : UInt8) :
    getSectionIndex sectionType ≠ 255 ↔ sectionType ∈ sectionIds := by
  have hall : ∀ k : Fin 256, getSectionIndex (UInt8.ofFin k) ≠ 255 ↔ UInt8.ofFin k ∈ sectionIds := by decide +kernel
  exact hall sectionType.toFin

private theorem inOrder_custom (h : s.sectionType = sectionTypeUser) :
    InOrder last (s::sections) ↔ InOrder last sections := by
  unfold InOrder
  rw [List.filter_cons_of_neg (by simp [h]),List.forall_mem_cons]
  simp [h]

private theorem inOrder_cons (h : s.sectionType ∈ sectionIds) (hs : s.sectionType ≠ sectionTypeUser) :
    InOrder last (s::sections) ↔ (last = 255 ∨ last < getSectionIndex s.sectionType) ∧
      InOrder (getSectionIndex s.sectionType) sections := by
  have hindex := (getSectionIndex_ne s.sectionType).mpr h
  unfold InOrder
  rw [List.filter_cons_of_pos (by simp [hs]),List.forall_mem_cons,List.pairwise_cons]
  constructor
  · rintro ⟨⟨hfirst,hrest⟩,hbehind,hordered⟩
    refine ⟨hfirst hs,?_,hordered⟩
    intro t ht htype
    exact .inr (hbehind t (List.mem_filter.mpr ⟨ht,by simpa using htype⟩))
  · rintro ⟨hfirst,hrest,hordered⟩
    have hbehind : ∀ t ∈ sections, t.sectionType ≠ sectionTypeUser →
        getSectionIndex s.sectionType < getSectionIndex t.sectionType :=
      fun t ht htype => (hrest t ht htype).resolve_left hindex
    refine ⟨⟨fun _ => hfirst,?_⟩,?_,hordered⟩
    · intro t ht htype
      rcases hfirst with hlast | hlast
      · exact .inl hlast
      · exact .inr (UInt8.lt_trans hlast (hbehind t ht htype))
    · intro t ht
      obtain ⟨hmem,htype⟩ := List.mem_filter.mp ht
      exact hbehind t hmem (by simpa using htype)

end Order

section Parsing

variable {last : UInt8} {p : List UInt8} {sections : List Section}

private theorem createSections_sound (h : createSections last p = .ok sections) :
    InOrder last sections ∧ ∃ chunks, List.Forall₂ Section.Encodes sections chunks ∧ p = chunks.flatten := by
  induction hn : p.length using Nat.strong_induction_on generalizing p last sections with
  | _ n ih =>
    cases p with
    | nil =>
      rw [createSections] at h
      obtain rfl := Except.ok.inj h
      exact ⟨⟨by simp,by simp⟩,[],.nil,rfl⟩
    | cons sectionType p =>
      rw [createSections] at h
      split at h
      next => exact absurd h (by simp)
      next hindex =>
        split at h
        next => exact absurd h (by simp)
        next horder =>
          split at h
          next => exact absurd h (by simp)
          next size rest hread =>
            split at h
            next => exact absurd h (by simp)
            next hroom =>
              split at h
              next => exact absurd h (by simp)
              next tail htail =>
                obtain rfl := Except.ok.inj h
                have hmem := (getSectionIndex_ne sectionType).mp hindex
                have hshorter := readLebUint32_shorter hread
                obtain ⟨leb,rfl,hleb,hsize⟩ := readLebUint32_iff.mp hread
                rw [List.length_cons] at hn
                obtain ⟨hordered,chunks,hchunks,heq⟩ := ih _ (by rw [List.length_drop]; omega) htail rfl
                refine ⟨?_,(sectionType::(leb ++ rest.take size.toNat))::chunks,.cons ⟨hmem,leb,hleb,?_,rfl⟩ hchunks,?_⟩
                · by_cases htype : sectionType = sectionTypeUser
                  · rw [if_neg (not_not.mpr htype)] at hordered
                    exact (inOrder_custom htype).mpr hordered
                  · rw [if_pos htype] at hordered
                    refine (inOrder_cons hmem htype).mpr ⟨?_,hordered⟩
                    by_cases hlast : last = 255
                    · exact .inl hlast
                    · exact .inr (UInt8.not_le.mp fun hle => horder ⟨htype,hlast,hle⟩)
                · rw [List.length_take,← hsize]
                  omega
                · rw [List.flatten_cons,← heq,List.cons_append,List.append_assoc,List.take_append_drop]

private theorem createSections_complete {chunks : List (List UInt8)}
    (h : List.Forall₂ Section.Encodes sections chunks)
    (horder : InOrder last sections) : createSections last chunks.flatten = .ok sections := by
  induction h generalizing last with
  | nil => rw [List.flatten_nil,createSections]
  | @cons s chunk sections chunks hs hrest ih =>
    obtain ⟨hmem,leb,hleb,hsize,rfl⟩ := hs
    have hindex := (getSectionIndex_ne s.sectionType).mpr hmem
    have hlt : unsigned leb < 2 ^ 32 := hleb.fits
    have hread : readLebUint32 (leb ++ (s.sectionBody ++ chunks.flatten)) =
        .ok (UInt32.ofNat s.sectionBody.length, s.sectionBody ++ chunks.flatten) := by
      refine readLebUint32_iff.mpr ⟨leb,rfl,hleb,?_⟩
      rw [UInt32.toNat_ofNat',hsize]
      omega
    have hnat : (UInt32.ofNat s.sectionBody.length).toNat = s.sectionBody.length := by
      rw [UInt32.toNat_ofNat']
      omega
    rw [List.flatten_cons,List.cons_append,List.append_assoc,createSections]
    rw [if_neg hindex,if_neg]
    · split
      next e herr =>
        rw [hread] at herr
        exact absurd herr (by simp)
      next size rest hok =>
        rw [hread] at hok
        obtain ⟨rfl,rfl⟩ := Prod.mk.inj (Except.ok.inj hok)
        rw [hnat,if_neg (by rw [List.length_append]; omega),List.drop_left,List.take_left,ih]
        by_cases htype : s.sectionType = sectionTypeUser
        · rw [if_neg (not_not.mpr htype)]
          exact (inOrder_custom htype).mp horder
        · rw [if_pos htype]
          exact ((inOrder_cons hmem htype).mp horder).2
    · rintro ⟨htype,hlast,hle⟩
      rcases ((inOrder_cons hmem htype).mp horder).1 with heq | hlt
      · exact hlast heq
      · exact absurd hle (UInt8.not_le.mpr hlt)

def header : List UInt8 := word 4 wasmMagicNumber ++ word 4 wasmCurrentVersion

private theorem word_readWord (bytes : List UInt8) : word bytes.length (readWord bytes) = bytes := by
  induction bytes with
  | nil => rfl
  | cons b bytes ih =>
    have hb := b.toNat_lt
    have hread : readWord (b::bytes) = b.toNat + 256 * readWord bytes := rfl
    have hhead : UInt8.ofNat (b.toNat + 256 * readWord bytes) = b := by
      apply UInt8.toNat_inj.mp
      rw [UInt8.toNat_ofNat']
      omega
    have htail : (b.toNat + 256 * readWord bytes) / 256 = readWord bytes := by omega
    rw [List.length_cons,word,hread,hhead,htail,ih]

private theorem readWord_eq_iff {bytes : List UInt8} {n v : ℕ} (hlen : bytes.length = n) (hv : v < 256 ^ n) :
    readWord bytes = v ↔ bytes = word n v := by
  constructor
  · rintro rfl
    rw [← hlen,word_readWord]
  · rintro rfl
    exact readWord_word hv

private theorem load_sound {buf : List UInt8} (h : load buf = .ok sections) : InOrder 255 sections ∧
    ∃ chunks, List.Forall₂ Section.Encodes sections chunks ∧ buf = header ++ chunks.flatten := by
  unfold load at h
  split at h
  next => exact absurd h (by simp)
  next hfirst =>
    split at h
    next => exact absurd h (by simp)
    next hmagic =>
      split at h
      next => exact absurd h (by simp)
      next hsecond =>
        split at h
        next => exact absurd h (by simp)
        next hversion =>
          obtain ⟨horder,chunks,hchunks,heq⟩ := createSections_sound h
          rw [List.length_drop] at hsecond
          have htake : (buf.take 4).length = 4 := by rw [List.length_take]; omega
          have htake' : ((buf.drop 4).take 4).length = 4 := by rw [List.length_take,List.length_drop]; omega
          rw [not_not,readWord_eq_iff htake (by decide)] at hmagic
          rw [not_not,readWord_eq_iff htake' (by decide)] at hversion
          have hdrop : buf.drop 8 = (buf.drop 4).drop 4 := by rw [List.drop_drop]
          refine ⟨horder,chunks,hchunks,?_⟩
          rw [header,← hmagic,← hversion,← heq,hdrop,List.append_assoc,List.take_append_drop,List.take_append_drop]

private theorem load_complete {chunks : List (List UInt8)} (horder : InOrder 255 sections)
    (hchunks : List.Forall₂ Section.Encodes sections chunks) : load (header ++ chunks.flatten) = .ok sections := by
  have hload : load (header ++ chunks.flatten) = createSections 255 chunks.flatten := rfl
  rw [hload,createSections_complete hchunks horder]

/-- `load` takes a buffer for a list of sections if and only if it is the header and their bytes, the
sections that are not custom in order and without repetition. -/
theorem load_iff (buf : List UInt8) (sections : List Section) :
    load buf = .ok sections ↔ InOrder 255 sections ∧
      ∃ chunks, List.Forall₂ Section.Encodes sections chunks ∧ buf = header ++ chunks.flatten := by
  constructor
  · exact load_sound
  · rintro ⟨horder,chunks,hchunks,rfl⟩
    exact load_complete horder hchunks

end Parsing

end WamrTest.Loader
