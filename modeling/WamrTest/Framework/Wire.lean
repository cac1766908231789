import WamrTest.Framework.Encoding

/-!
# Records of the protobuf wire format

A message on the wire is a sequence of records: a varint key made of a field number and a wire
type, and the raw bytes of the value. A parser splits the bytes into records before it looks at
any field.
-/

namespace Wire

open Encoding

inductive WireType
  | varint
  | fixed64
  | lengthDelimited
  | fixed32
deriving DecidableEq

def WireType.code : WireType → ℕ
  | .varint => 0
  | .fixed64 => 1
  | .lengthDelimited => 2
  | .fixed32 => 5

/-- The wire types a parser accepts; groups are not among them. -/
def WireType.ofCode : ℕ → Option WireType
  | 0 => some .varint
  | 1 => some .fixed64
  | 2 => some .lengthDelimited
  | 5 => some .fixed32
  | _ => none

/-- The `data` of a varint or a length-delimited record includes the varint itself or the
length in front of the content. -/
structure Record where
  tag : ℕ
  wireType : WireType
  data : List UInt8
deriving DecidableEq

def Record.emit (r : Record) : List UInt8 := varint 5 (8 * r.tag + r.wireType.code) ++ r.data

def emitAll (rs : List Record) : List UInt8 := rs.flatMap Record.emit

def prefixed (content : List UInt8) : List UInt8 := varint 5 content.length ++ content

def dataLength : WireType → List UInt8 → Option ℕ
  | .varint, bytes => (readVarint 10 bytes).map fun (_, rest) => bytes.length - rest.length
  | .fixed64, _ => some 8
  | .lengthDelimited, bytes =>
    (readVarint 5 bytes).map fun (n, rest) => bytes.length - rest.length + n
  | .fixed32, _ => some 4

def scan (bytes : List UInt8) : Option (Record × List UInt8) :=
  match readVarint 5 bytes with
  | none => none
  | some (key, rest) =>
    match WireType.ofCode (key % 8) with
    | none => none
    | some wireType =>
      match dataLength wireType rest with
      | none => none
      | some n =>
        if key / 8 = 0 ∨ rest.length < n then none
        else some (⟨key / 8, wireType, rest.take n⟩, rest.drop n)

def scanAll : ℕ → List UInt8 → Option (List Record)
  | _, [] => some []
  | 0, _ => none
  | fuel+1, bytes =>
    match scan bytes with
    | none => none
    | some (r, rest) => (scanAll fuel rest).map (r :: ·)

/-- Every record takes at least one byte, so the bytes themselves bound the number of records. -/
def records (bytes : List UInt8) : Option (List Record) := scanAll bytes.length bytes

/-- A field number of at most 29 bits, and data that ends where its wire type says. -/
structure Record.WellFormed (r : Record) : Prop where
  tag_pos : 0 < r.tag
  tag_lt : r.tag < 2 ^ 29
  data : ∀ rest, dataLength r.wireType (r.data ++ rest) = some r.data.length

private theorem WireType.ofCode_code (w : WireType) (tag : ℕ) :
    WireType.ofCode ((8 * tag + w.code) % 8) = some w ∧ (8 * tag + w.code) / 8 = tag := by
  have hlt : w.code < 8 := by cases w <;> decide
  refine ⟨?_,by omega⟩
  rw [show (8 * tag + w.code) % 8 = w.code by omega]
  cases w <;> rfl

theorem wellFormed_varint {tag : ℕ} (hp : 0 < tag) (hl : tag < 2 ^ 29) {v : ℕ} (hv : v < 2 ^ 64) :
    Record.WellFormed ⟨tag, .varint, varint 10 v⟩ := by
  refine ⟨hp,hl,?_⟩
  intro rest
  have hread : readVarint 10 (varint 10 v ++ rest) = some (v, rest) :=
    readVarint_varint (n := 9) (by omega) (by omega) (by omega) rest
  simp [dataLength,hread]

theorem wellFormed_fixed64 {tag : ℕ} (hp : 0 < tag) (hl : tag < 2 ^ 29) (v : ℕ) :
    Record.WellFormed ⟨tag, .fixed64, word 8 v⟩ := ⟨hp,hl,fun _ => by simp [dataLength]⟩

theorem readVarint_prefixed {content : List UInt8} (h : content.length < 2 ^ 32)
    (rest : List UInt8) :
    readVarint 5 (prefixed content ++ rest) = some (content.length, content ++ rest) := by
  rw [prefixed,List.append_assoc]
  exact readVarint_varint (n := 4) (by omega) (by omega) (by omega) _

theorem wellFormed_prefixed {tag : ℕ} (hp : 0 < tag) (hl : tag < 2 ^ 29) {content : List UInt8}
    (h : content.length < 2 ^ 32) :
    Record.WellFormed ⟨tag, .lengthDelimited, prefixed content⟩ := by
  refine ⟨hp,hl,?_⟩
  intro rest
  simp only [dataLength,readVarint_prefixed h rest,Option.map_some]
  simp [prefixed]

theorem Record.emit_length {r : Record} (h : r.tag < 16) : r.emit.length = 1 + r.data.length := by
  have hcode : r.wireType.code ≤ 5 := by cases r.wireType <;> decide
  have hkey : 8 * r.tag + r.wireType.code < 128 := by omega
  simp [Record.emit,varint,hkey,Nat.add_comm]

theorem prefixed_length (content : List UInt8) :
    (prefixed content).length = (varint 5 content.length).length + content.length := by
  rw [prefixed,List.length_append]

private theorem Record.emit_ne_nil (r : Record) : r.emit ≠ [] := by
  have h := varint_length_pos (by decide : 0 < 5) (8 * r.tag + r.wireType.code)
  intro he
  rw [Record.emit,List.append_eq_nil_iff] at he
  simp [he.1] at h

private theorem scan_emit {r : Record} (h : r.WellFormed) (rest : List UInt8) :
    scan (r.emit ++ rest) = some (r, rest) := by
  obtain ⟨hp,hl,hdata⟩ := h
  obtain ⟨hwire,htag⟩ := r.wireType.ofCode_code r.tag
  have hcode : r.wireType.code < 8 := by cases r.wireType <;> decide
  have hkey : readVarint 5 (varint 5 (8 * r.tag + r.wireType.code) ++ (r.data ++ rest)) =
      some (8 * r.tag + r.wireType.code, r.data ++ rest) :=
    readVarint_varint (n := 4) (by omega) (by omega) (by omega) (r.data ++ rest)
  rw [scan,Record.emit,List.append_assoc,hkey]
  simp only [hwire,hdata,htag]
  rw [if_neg (by simp; omega)]
  simp

@[simp] theorem emitAll_nil : emitAll [] = [] := rfl

@[simp] theorem emitAll_cons (r : Record) (rs : List Record) :
    emitAll (r::rs) = r.emit ++ emitAll rs := List.flatMap_cons

@[simp] theorem emitAll_append (rs rs' : List Record) :
    emitAll (rs ++ rs') = emitAll rs ++ emitAll rs' := List.flatMap_append

private theorem scanAll_emitAll {rs : List Record} (h : ∀ r ∈ rs, r.WellFormed) {fuel : ℕ}
    (hf : rs.length ≤ fuel) : scanAll fuel (emitAll rs) = some rs := by
  induction rs generalizing fuel with
  | nil => simp [emitAll,scanAll]
  | cons r rs ih =>
    cases fuel with
    | zero => simp at hf
    | succ fuel =>
      have hscan := scan_emit (h r List.mem_cons_self) (emitAll rs)
      have hrest := ih (fun r' hr => h r' (List.mem_cons_of_mem r hr)) (Nat.le_of_succ_le_succ hf)
      have hne : r.emit ++ emitAll rs ≠ [] := by simp [r.emit_ne_nil]
      rw [emitAll_cons,scanAll,hscan]
      · simp [hrest]
      · exact hne

private theorem length_le_emitAll (rs : List Record) : rs.length ≤ (emitAll rs).length := by
  induction rs with
  | nil => simp
  | cons r rs ih =>
    have h := List.length_pos_of_ne_nil r.emit_ne_nil
    rw [emitAll_cons,List.length_append,List.length_cons]
    omega

theorem records_emitAll {rs : List Record} (h : ∀ r ∈ rs, r.WellFormed) :
    records (emitAll rs) = some rs := scanAll_emitAll h (length_le_emitAll rs)

end Wire
