import WamrTest.Framework.Wire
import Mathlib.Algebra.Order.Ring.Int
import Mathlib.Data.List.TakeWhile

/-!
# Proto3 messages

Messages described by field descriptors, as a descriptor-driven C library packs and unpacks them.
A string is a pointer that may be `NULL` to the bytes stored before the terminator, and is packed
up to its first `NUL`. Fields with their default value are left out; a repeated double is one
packed record; a field that is absent when unpacking keeps its default; records of unknown fields
are kept and packed again.
-/

namespace Proto3

open Encoding Wire

/-- A double is an opaque pattern of 64 bits. -/
structure Double where
  bits : UInt64
deriving DecidableEq

instance : Zero Double := ⟨⟨0⟩⟩

/-- An operation of IEEE arithmetic on bit patterns. -/
def Double.ieee (op : Float → Float → Float) (x y : Double) : Double :=
  ⟨(op (Float.ofBits x.bits) (Float.ofBits y.bits)).toBits⟩

inductive FieldType
  | int32
  | double
  | string
  | repeatedString
  | packedDouble
deriving DecidableEq

structure FieldDescriptor where
  name : String
  id : ℕ
  type : FieldType
deriving DecidableEq

structure MessageDescriptor where
  name : String
  fields : List FieldDescriptor
deriving DecidableEq

/-- A string member, `none` being the `NULL` pointer. -/
abbrev CString := Option (List UInt8)

/-- The bytes of a string up to its terminator. -/
def CString.chars : CString → List UInt8
  | none => []
  | some s => s.takeWhile (· ≠ 0)

namespace FieldType

@[reducible] def Value : FieldType → Type
  | .int32 => Int32
  | .double => Double
  | .string => CString
  | .repeatedString => List CString
  | .packedDouble => List Double

def init : (t : FieldType) → t.Value
  | .int32 => (0 : Int32)
  | .double => (0 : Double)
  | .string => (some [] : CString)
  | .repeatedString => ([] : List CString)
  | .packedDouble => ([] : List Double)

def extend (v : Int32) : ℕ := (v.toInt % 2 ^ 64).toNat

def packDouble (v : Double) : List UInt8 := word 8 v.bits.toNat

def unpackDouble (bytes : List UInt8) : Double := ⟨UInt64.ofNat (readWord bytes)⟩

def stringRecord (id : ℕ) (s : CString) : Record := ⟨id, .lengthDelimited, prefixed s.chars⟩

def records (id : ℕ) : (t : FieldType) → t.Value → List Record
  | .int32, (v : Int32) => if v = 0 then [] else [⟨id, .varint, varint 10 (extend v)⟩]
  | .double, (v : Double) => if v = 0 then [] else [⟨id, .fixed64, packDouble v⟩]
  | .string, (s : CString) => if s.chars = [] then [] else [stringRecord id s]
  | .repeatedString, (ss : List CString) => ss.map (stringRecord id)
  | .packedDouble, (vs : List Double) =>
    if vs = [] then [] else [⟨id, .lengthDelimited, prefixed (vs.flatMap packDouble)⟩]

def content (data : List UInt8) : List UInt8 := ((readVarint 5 data).map Prod.snd).getD []

def unpackDoubles : ℕ → List UInt8 → List Double
  | 0, _ => []
  | n+1, bytes => unpackDouble (bytes.take 8) :: unpackDoubles n (bytes.drop 8)

/-- Set or extend a value by a record; `none` if the record does not suit the type. -/
def merge : (t : FieldType) → t.Value → Record → Option t.Value
  | .int32, _, ⟨_, .varint, data⟩ =>
    (readVarint 10 data).map fun (v, _) => Int32.ofInt v
  | .double, _, ⟨_, .fixed64, data⟩ => some (unpackDouble data)
  | .string, _, ⟨_, .lengthDelimited, data⟩ => some (some (content data) : CString)
  | .repeatedString, (ss : List CString), ⟨_, .lengthDelimited, data⟩ =>
    some (ss ++ [some (content data)] : List CString)
  | .packedDouble, (vs : List Double), ⟨_, .lengthDelimited, data⟩ =>
    if (content data).length % 8 = 0 then
      some (vs ++ unpackDoubles ((content data).length / 8) (content data) : List Double)
    else none
  | .packedDouble, (vs : List Double), ⟨_, .fixed64, data⟩ =>
    some (vs ++ [unpackDouble data] : List Double)
  | _, _, _ => none

/-- What is left of a value after a round trip: strings end at their first `NUL`, and a `NULL`
string comes back empty. -/
def normalize : (t : FieldType) → t.Value → t.Value
  | .string, (s : CString) => (some s.chars : CString)
  | .repeatedString, (ss : List CString) => (ss.map fun s => some s.chars : List CString)
  | .int32, v => v
  | .double, v => v
  | .packedDouble, v => v

end FieldType

@[reducible] def Members : List FieldDescriptor → Type
  | [] => Unit
  | f::fs => f.type.Value × Members fs

namespace Members

def init : (fs : List FieldDescriptor) → Members fs
  | [] => ()
  | f::fs => (f.type.init, init fs)

def records : (fs : List FieldDescriptor) → Members fs → List Record
  | [], _ => []
  | f::fs, (v, ms) => f.type.records f.id v ++ records fs ms

/-- The record goes to the field with its number, if there is one. -/
def merge : (fs : List FieldDescriptor) → Members fs → Record → Option (Members fs)
  | [], ms, _ => some ms
  | f::fs, (v, ms), r =>
    if f.id = r.tag then (f.type.merge v r).map (·, ms) else (merge fs ms r).map (v, ·)

def normalize : (fs : List FieldDescriptor) → Members fs → Members fs
  | [], ms => ms
  | f::fs, (v, ms) => (f.type.normalize v, normalize fs ms)

end Members

/-- The members of a message and the records of fields its descriptor does not know. -/
structure Message (d : MessageDescriptor) where
  members : Members d.fields
  unknownFields : List Record

namespace Message

variable {d : MessageDescriptor}

def init (d : MessageDescriptor) : Message d := ⟨Members.init d.fields, []⟩

/-- The bytes of a message: its fields in the order of the descriptor, then the unknown ones. -/
def pack (m : Message d) : List UInt8 :=
  emitAll (Members.records d.fields m.members ++ m.unknownFields)

def merge (m : Message d) (r : Record) : Option (Message d) :=
  if d.fields.any (·.id = r.tag) then
    (Members.merge d.fields m.members r).map fun members => { m with members }
  else some { m with unknownFields := m.unknownFields ++ [r] }

end Message

/-- The message the bytes encode; `none` if they are not a well-formed message of the type. -/
def unpack (d : MessageDescriptor) (bytes : List UInt8) : Option (Message d) :=
  match records bytes with
  | none => none
  | some rs => rs.foldlM Message.merge (Message.init d)

theorem CString.chars_of_not_mem {s : List UInt8} (h : 0 ∉ s) : CString.chars (some s) = s := by
  rw [CString.chars,List.takeWhile_eq_self_iff]
  intro b hb
  simp only [ne_eq,decide_not,Bool.not_eq_eq_eq_not,Bool.not_true,decide_eq_false_iff_not]
  rintro rfl
  exact h hb

theorem CString.not_mem_chars (s : CString) : 0 ∉ s.chars := by
  cases s with
  | none => exact List.not_mem_nil
  | some s =>
    intro h
    have hne := List.mem_takeWhile_imp h
    simp at hne

namespace FieldType

private theorem extend_lt (v : Int32) : extend v < 2 ^ 64 := by
  unfold extend
  omega

private theorem ofInt_extend (v : Int32) : Int32.ofInt (extend v) = v := by
  have hlow := v.le_toInt
  have hhigh := v.toInt_lt
  apply Int32.toInt_inj.mp
  rw [Int32.toInt_ofInt,extend,Int.toNat_of_nonneg (by omega)]
  change (v.toInt % 2 ^ 64).bmod (2 ^ 32) = v.toInt
  rw [← Int.emod_bmod,Int.emod_emod_of_dvd v.toInt (by decide : ((2 ^ 32 : ℕ) : ℤ) ∣ 2 ^ 64),
    Int.emod_bmod]
  exact Int.bmod_eq_of_le_mul_two (by omega) (by omega)

private theorem prefixed_length_lt {c : List UInt8} {n : ℕ} (h : (prefixed c).length < n) : c.length < n := by
  rw [prefixed,List.length_append] at h
  omega

theorem content_prefixed {c : List UInt8} (h : c.length < 2 ^ 32) : content (prefixed c) = c := by
  have hread := readVarint_prefixed h []
  rw [List.append_nil,List.append_nil] at hread
  rw [content,hread]
  rfl

@[simp] theorem packDouble_length (v : Double) : (packDouble v).length = 8 := word_length 8 _

private theorem unpackDouble_packDouble (v : Double) : unpackDouble (packDouble v) = v := by
  have hlt : v.bits.toNat < 256 ^ 8 := v.bits.toNat_lt
  rw [unpackDouble,packDouble,readWord_word hlt,UInt64.ofNat_toNat]

theorem packDoubles_length (vs : List Double) : (vs.flatMap packDouble).length = 8 * vs.length := by
  induction vs with
  | nil => rfl
  | cons v vs ih =>
    rw [List.flatMap_cons,List.length_append,ih,packDouble_length,List.length_cons]
    omega

private theorem unpackDoubles_packDoubles (vs : List Double) :
    unpackDoubles vs.length (vs.flatMap packDouble) = vs := by
  induction vs with
  | nil => rfl
  | cons v vs ih =>
    have hlen := packDouble_length v
    rw [List.flatMap_cons,List.length_cons,unpackDoubles,List.take_left' hlen,List.drop_left' hlen,
      unpackDouble_packDouble,ih]

private theorem tag_of_mem_records {id : ℕ} {t : FieldType} {v : t.Value} {r : Record}
    (h : r ∈ t.records id v) : r.tag = id := by
  cases t with
  | repeatedString =>
    obtain ⟨s,-,rfl⟩ := List.mem_map.mp h
    rfl
  | int32 | double | string | packedDouble =>
    simp only [records,List.mem_ite_nil_left,List.mem_singleton] at h
    rw [h.2]
    try rfl

theorem wellFormed_records {id : ℕ} (hp : 0 < id) (hl : id < 2 ^ 29) {t : FieldType} {v : t.Value}
    (hfit : ∀ r ∈ t.records id v, r.data.length < 2 ^ 32) :
    ∀ r ∈ t.records id v, r.WellFormed := by
  intro r hr
  have hlen := hfit r hr
  cases t with
  | int32 =>
    simp only [records,List.mem_ite_nil_left,List.mem_singleton] at hr
    rw [hr.2]
    exact wellFormed_varint hp hl (extend_lt _)
  | double =>
    simp only [records,List.mem_ite_nil_left,List.mem_singleton] at hr
    rw [hr.2]
    exact wellFormed_fixed64 hp hl _
  | string =>
    simp only [records,List.mem_ite_nil_left,List.mem_singleton] at hr
    rw [hr.2] at hlen ⊢
    exact wellFormed_prefixed hp hl (prefixed_length_lt hlen)
  | repeatedString =>
    obtain ⟨s,-,rfl⟩ := List.mem_map.mp hr
    exact wellFormed_prefixed hp hl (prefixed_length_lt hlen)
  | packedDouble =>
    simp only [records,List.mem_ite_nil_left,List.mem_singleton] at hr
    rw [hr.2] at hlen ⊢
    exact wellFormed_prefixed hp hl (prefixed_length_lt hlen)

private theorem merge_stringRecords (id : ℕ) (ss acc : List CString)
    (hfit : ∀ r ∈ ss.map (stringRecord id), r.data.length < 2 ^ 32) :
    (ss.map (stringRecord id)).foldlM (merge .repeatedString) acc =
      some (acc ++ ss.map fun s => some s.chars) := by
  induction ss generalizing acc with
  | nil => simp
  | cons s ss ih =>
    simp only [List.map_cons,List.forall_mem_cons] at hfit
    obtain ⟨hs,hss⟩ := hfit
    have hcontent := content_prefixed (prefixed_length_lt hs)
    simp only [List.map_cons,List.foldlM_cons]
    rw [stringRecord,merge,hcontent]
    change (ss.map (stringRecord id)).foldlM (merge .repeatedString) (acc ++ [some s.chars]) = _
    rw [ih _ hss,List.append_assoc]
    rfl

theorem merge_records {id : ℕ} {t : FieldType} {v : t.Value}
    (hfit : ∀ r ∈ t.records id v, r.data.length < 2 ^ 32) :
    (t.records id v).foldlM t.merge t.init = some (t.normalize v) := by
  cases t with
  | int32 =>
    by_cases h : v = (0 : Int32)
    · simp [records,h,init,normalize]
    · have hread : readVarint 10 (varint 10 (extend v) ++ []) = some (extend v, []) :=
        readVarint_varint (n := 9) (by have := extend_lt v; omega) (by omega) (by omega) []
      rw [List.append_nil] at hread
      simp [records,h,merge,hread,ofInt_extend,normalize]
  | double =>
    by_cases h : v = (0 : Double)
    · simp [records,h,init,normalize]
    · simp [records,h,merge,unpackDouble_packDouble,normalize]
  | string =>
    by_cases h : CString.chars v = []
    · simp [records,h,init,normalize]
    · simp only [records,if_neg h,List.mem_singleton,forall_eq] at hfit
      simp [records,h,merge,stringRecord,content_prefixed (prefixed_length_lt hfit),normalize]
  | repeatedString =>
    exact merge_stringRecords id v [] hfit
  | packedDouble =>
    by_cases h : v = ([] : List Double)
    · simp [records,h,init,normalize]
    · simp only [records,if_neg h,List.mem_singleton,forall_eq] at hfit ⊢
      have hlen := packDoubles_length v
      simp only [List.foldlM_cons,List.foldlM_nil,merge,content_prefixed (prefixed_length_lt hfit),hlen,
        Nat.mul_mod_right,if_true,Nat.mul_div_cancel_left _ (by decide : 0 < 8),unpackDoubles_packDoubles]
      rfl

end FieldType
private theorem length_data_le {rs : List Record} {r : Record} (h : r ∈ rs) :
    r.data.length ≤ (emitAll rs).length := by
  obtain ⟨pre,post,rfl⟩ := List.append_of_mem h
  rw [emitAll_append,emitAll_cons,Record.emit]
  simp only [List.length_append]
  omega

/-- Field numbers are distinct and have at most 29 bits. -/
structure WellNumbered (fs : List FieldDescriptor) : Prop where
  id : ∀ f ∈ fs, 0 < f.id ∧ f.id < 2 ^ 29
  nodup : (fs.map FieldDescriptor.id).Nodup

instance (fs : List FieldDescriptor) : Decidable (WellNumbered fs) :=
  decidable_of_iff ((∀ f ∈ fs, 0 < f.id ∧ f.id < 2 ^ 29) ∧ (fs.map FieldDescriptor.id).Nodup)
    ⟨fun h => ⟨h.1,h.2⟩,fun h => ⟨h.1,h.2⟩⟩

namespace Members

private theorem tag_mem_records {fs : List FieldDescriptor} {ms : Members fs} {r : Record}
    (h : r ∈ records fs ms) : r.tag ∈ fs.map FieldDescriptor.id := by
  induction fs with
  | nil => exact absurd h List.not_mem_nil
  | cons f fs ih =>
    obtain ⟨v,ms⟩ := ms
    rw [List.map_cons,List.mem_cons]
    rcases List.mem_append.mp h with h | h
    · exact .inl (FieldType.tag_of_mem_records h)
    · exact .inr (ih h)

theorem wellFormed_records {fs : List FieldDescriptor} (hfs : WellNumbered fs) {ms : Members fs}
    (hfit : ∀ r ∈ records fs ms, r.data.length < 2 ^ 32) : ∀ r ∈ records fs ms, r.WellFormed := by
  induction fs with
  | nil =>
    intro r hr
    exact absurd hr List.not_mem_nil
  | cons f fs ih =>
    obtain ⟨v,ms⟩ := ms
    obtain ⟨hid,hnodup⟩ := hfs
    simp only [records,List.forall_mem_append,List.forall_mem_cons] at hid hfit ⊢
    exact ⟨FieldType.wellFormed_records hid.1.1 hid.1.2 hfit.1,
      ih ⟨hid.2,hnodup.of_cons⟩ hfit.2⟩

private theorem foldlM_merge_head (f : FieldDescriptor) (fs : List FieldDescriptor) (v : f.type.Value)
    (ms : Members fs) {rs : List Record} (h : ∀ r ∈ rs, r.tag = f.id) :
    rs.foldlM (merge (f::fs)) (v, ms) = (rs.foldlM f.type.merge v).map (·, ms) := by
  induction rs generalizing v with
  | nil => rfl
  | cons r rs ih =>
    simp only [List.forall_mem_cons] at h
    simp only [List.foldlM_cons,merge,h.1,if_true]
    cases f.type.merge v r with
    | none => rfl
    | some v' => exact ih v' h.2

private theorem foldlM_merge_tail (f : FieldDescriptor) (fs : List FieldDescriptor) (v : f.type.Value)
    (ms : Members fs) {rs : List Record} (h : ∀ r ∈ rs, r.tag ≠ f.id) :
    rs.foldlM (merge (f::fs)) (v, ms) = (rs.foldlM (merge fs) ms).map (v, ·) := by
  induction rs generalizing ms with
  | nil => rfl
  | cons r rs ih =>
    simp only [List.forall_mem_cons] at h
    simp only [List.foldlM_cons,merge,if_neg (Ne.symm h.1)]
    cases merge fs ms r with
    | none => rfl
    | some ms' => exact ih ms' h.2

theorem merge_records {fs : List FieldDescriptor} (hn : (fs.map FieldDescriptor.id).Nodup)
    {ms : Members fs} (hfit : ∀ r ∈ records fs ms, r.data.length < 2 ^ 32) :
    (records fs ms).foldlM (merge fs) (init fs) = some (normalize fs ms) := by
  induction fs with
  | nil => rfl
  | cons f fs ih =>
    obtain ⟨v,ms⟩ := ms
    obtain ⟨hnot,hnodup⟩ := List.nodup_cons.mp hn
    simp only [records,List.forall_mem_append] at hfit
    have hhead := foldlM_merge_head f fs f.type.init (init fs)
      (fun r hr => FieldType.tag_of_mem_records (v := v) hr)
    have htail := foldlM_merge_tail f fs (f.type.normalize v) (init fs)
      (fun r (hr : r ∈ records fs ms) he => hnot (he ▸ tag_mem_records hr))
    rw [FieldType.merge_records hfit.1] at hhead
    rw [ih hnodup hfit.2] at htail
    simp only [records,init,List.foldlM_append,hhead,normalize]
    exact htail

end Members

namespace Message

variable {d : MessageDescriptor}

def normalize (m : Message d) : Message d := { m with members := Members.normalize d.fields m.members }

private theorem foldlM_merge_known (m : Message d) {rs : List Record}
    (h : ∀ r ∈ rs, r.tag ∈ d.fields.map FieldDescriptor.id) :
    rs.foldlM merge m =
      (rs.foldlM (Members.merge d.fields) m.members).map fun members => { m with members } := by
  induction rs generalizing m with
  | nil => rfl
  | cons r rs ih =>
    simp only [List.forall_mem_cons] at h
    have hany : d.fields.any (·.id = r.tag) = true := by
      obtain ⟨f,hf,he⟩ := List.mem_map.mp h.1
      exact List.any_eq_true.mpr ⟨f,hf,decide_eq_true he⟩
    simp only [List.foldlM_cons,merge,hany,if_true]
    cases Members.merge d.fields m.members r with
    | none => rfl
    | some members => exact ih { m with members } h.2

end Message

theorem unpack_pack {d : MessageDescriptor} (hd : WellNumbered d.fields) {m : Message d}
    (hknown : m.unknownFields = []) (hfit : m.pack.length < 2 ^ 32) :
    unpack d m.pack = some m.normalize := by
  have hdata : ∀ r ∈ Members.records d.fields m.members, r.data.length < 2 ^ 32 := by
    intro r hr
    exact (length_data_le (List.mem_append_left _ hr)).trans_lt hfit
  have hrecords := records_emitAll (Members.wellFormed_records hd hdata)
  rw [Message.pack,hknown,List.append_nil,unpack,hrecords]
  simp only
  rw [Message.foldlM_merge_known _ (fun r hr => Members.tag_mem_records hr),Message.init,
    Members.merge_records hd.nodup hdata,Option.map_some,Message.normalize,hknown]

end Proto3
