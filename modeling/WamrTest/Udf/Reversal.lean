import WamrTest.Framework.Utf8
import WamrTest.Udf.Route

/-!
# Reversing a name

`str_reverse` reverses the bytes up to the first `NUL`, but a name is a string of characters that
may hold a U+0000 and characters of several bytes.
-/

namespace WamrTest

open ByteMemory MachineInt Proto3 Utf8

/-- The proto3 encoding of a `Person` with any bytes for its name. -/
def personRequest (name : List UInt8) : List UInt8 :=
  Wire.emitAll (if name = [] then [] else [⟨1, .lengthDelimited, Wire.prefixed name⟩])

private theorem length_le_personRequest (name : List UInt8) : name.length ≤ (personRequest name).length := by
  by_cases h : name = []
  · simp [h]
  · rw [personRequest,if_neg h,Wire.emitAll_cons,Wire.emitAll_nil,List.append_nil,
      Wire.Record.emit_length (by decide : 1 < 16),Wire.prefixed_length]
    omega

private theorem unpack_personRequest {name : List UInt8} (h : name.length < 2 ^ 32) :
    unpack personDescriptor (personRequest name) = some (Person.message ⟨some name, []⟩) := by
  by_cases hne : name = []
  · subst hne
    rfl
  · have hwell : ∀ r ∈ ([⟨1, .lengthDelimited, Wire.prefixed name⟩] : List Wire.Record),
        r.WellFormed := by
      intro r hr
      rw [List.mem_singleton.mp hr]
      exact Wire.wellFormed_prefixed (by decide) (by decide) h
    have hcontent := FieldType.content_prefixed h
    rw [personRequest,if_neg hne,unpack,Wire.records_emitAll hwell]
    change some (Person.message ⟨some (FieldType.content (Wire.prefixed name)), []⟩) = _
    rw [hcontent]

private theorem zero_not_mem_reverse (name : List UInt8) : 0 ∉ (CString.chars (some name)).reverse := by
  rw [List.mem_reverse]
  exact CString.not_mem_chars (some name)

private theorem reverse_pack_length (name : List UInt8) :
    (Person.message ⟨some (CString.chars (some name)).reverse, []⟩).pack.length ≤
      (personRequest name).length := by
  have hchars : (CString.chars (some name)).length ≤ name.length := (List.takeWhile_sublist _).length_le
  rw [person_pack_length _ rfl,CString.chars_of_not_mem (zero_not_mem_reverse name),Wire.prefixed_length,
    List.length_reverse]
  by_cases hne : name = []
  · subst hne
    exact le_rfl
  · have hvarint := Encoding.varint_length_mono hchars 5
    rw [personRequest,if_neg hne,Wire.emitAll_cons,Wire.emitAll_nil,List.append_nil,
      Wire.Record.emit_length (by decide : 1 < 16),Wire.prefixed_length]
    split <;> omega

/-- The name of the response is the reversed part of the name before its first `NUL`. -/
theorem strReverse_name {name : List UInt8} (hlen : (personRequest name).length < 2 ^ 31)
    (g : Guest Unit) (buf : Mem UInt8)
    (hbuf : slice buf 0 (personRequest name).length = personRequest name) :
    ∃ response, Responds g (strReverse wireFormat g buf (Int32.ofNat (personRequest name).length))
        response ∧
      unpack personDescriptor response =
        some (Person.message ⟨some (CString.chars (some name)).reverse, []⟩) := by
  have hname := length_le_personRequest name
  have hsize := reverse_pack_length name
  have hbody := strReverseBody_chars (hname.trans_lt hlen)
  have hunpack := wireFormat_unpack (unpack_personRequest (show name.length < 2 ^ 32 by omega)) g.heap
  refine ⟨(Person.message ⟨some (CString.chars (some name)).reverse, []⟩).pack,?_,?_⟩
  · rw [strReverse,sizeT_ofNat (by decide) hlen,hbuf]
    exact responds_serve (hsize.trans_lt hlen) hunpack hbody
  · rw [unpack_person rfl (by omega),CString.chars_of_not_mem (zero_not_mem_reverse name)]

private theorem reverse_chars_iff (cs : List Char) :
    (∃ cs', (CString.chars (some (encode cs))).reverse = encode cs' ∧ cs'.Perm cs) ↔
      ∀ c ∈ cs, IsAscii c ∧ c ≠ Char.ofNat 0 := by
  constructor
  · intro h
    obtain ⟨cs',hcs',hperm⟩ := h
    have hnul : Char.ofNat 0 ∉ cs := by
      intro hmem
      have hzero := zero_mem_encode.mpr (hperm.mem_iff.mpr hmem)
      rw [← hcs',List.mem_reverse] at hzero
      exact CString.not_mem_chars _ hzero
    rw [CString.chars_of_not_mem (mt zero_mem_encode.mp hnul)] at hcs'
    have hascii := (reverse_encode_iff cs).mp ⟨cs',hcs'⟩
    intro c hc
    refine ⟨hascii c hc,?_⟩
    intro hz
    exact hnul (hz ▸ hc)
  · intro h
    have hnul : Char.ofNat 0 ∉ cs := fun hmem => (h _ hmem).2 rfl
    refine ⟨cs.reverse,?_,cs.reverse_perm⟩
    rw [CString.chars_of_not_mem (mt zero_mem_encode.mp hnul)]
    exact reverse_encode fun c hc => (h c hc).1

/-- The response to any proto3 string carries a proto3 string of the same characters if and only if
they are all ASCII and none is U+0000. -/
theorem strReverse_string (cs : List Char) (g : Guest Unit) (buf : Mem UInt8)
    (hlen : (personRequest (encode cs)).length < 2 ^ 31)
    (hbuf : slice buf 0 (personRequest (encode cs)).length = personRequest (encode cs)) :
    ∃ response name,
      Responds g (strReverse wireFormat g buf (Int32.ofNat (personRequest (encode cs)).length))
        response ∧
      unpack personDescriptor response = some (Person.message ⟨some name, []⟩) ∧
      ((∃ cs', name = encode cs' ∧ cs'.Perm cs) ↔ ∀ c ∈ cs, IsAscii c ∧ c ≠ Char.ofNat 0) := by
  obtain ⟨response,hresponds,hunpack⟩ := strReverse_name hlen g buf hbuf
  exact ⟨response,_,hresponds,hunpack,reverse_chars_iff cs⟩

/-- The two bytes of U+00E9 come back in the wrong order, and of a name with a U+0000 in the middle
only the first letter comes back. -/
theorem strReverse_not_string :
    let g : Guest Unit := ⟨fun _ => 0, ()⟩
    personRequest (encode [Char.ofNat 233]) = [10, 2, 195, 169] ∧
      (strReverse wireFormat g (ofList 0 [10, 2, 195, 169]) 4).1 = .ok 4 ∧
      slice (strReverse wireFormat g (ofList 0 [10, 2, 195, 169]) 4).2.out 0 4 = [10, 2, 169, 195] ∧
      (¬ ∃ cs, [169, 195] = encode cs) ∧
      personRequest (encode [Char.ofNat 97, Char.ofNat 0, Char.ofNat 98]) = [10, 3, 97, 0, 98] ∧
      slice (strReverse wireFormat g (ofList 0 [10, 3, 97, 0, 98]) 5).2.out 0 3 = [10, 1, 97] := by
  intro g
  refine ⟨by decide,by decide,by decide,?_,by decide,by decide⟩
  intro h
  obtain ⟨cs,hcs⟩ := h
  exact absurd (head_encode hcs.symm) (by decide)

theorem strReverse_string_sample :
    ∃ response name,
      Responds ⟨fun _ => 0, ()⟩ (strReverse wireFormat ⟨fun _ => 0, ()⟩ (ofList 0 [10, 2, 97, 98]) 4)
        response ∧
      unpack personDescriptor response = some (Person.message ⟨some name, []⟩) ∧
      ∃ cs', name = encode cs' ∧ cs'.Perm [Char.ofNat 97, Char.ofNat 98] := by
  obtain ⟨response,name,hresponds,hunpack,hiff⟩ :=
    strReverse_string [Char.ofNat 97, Char.ofNat 98] ⟨fun _ => 0, ()⟩ (ofList 0 [10, 2, 97, 98])
      (by decide) (by decide)
  have hplain : ∀ c ∈ [Char.ofNat 97, Char.ofNat 98], IsAscii c ∧ c ≠ Char.ofNat 0 :=
    List.forall_mem_cons.mpr ⟨⟨by decide,by decide⟩,
      List.forall_mem_singleton.mpr ⟨by decide,by decide⟩⟩
  exact ⟨response,name,hresponds,hunpack,hiff.mpr hplain⟩

end WamrTest
