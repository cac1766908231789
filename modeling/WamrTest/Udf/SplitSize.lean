import WamrTest.Udf.Route
import WamrTest.Udf.Split
import WamrTest.Ring.Host

/-!
# Split responses

A `Spliter` response has a header for every token where the request has one for all of them. The
entry point packs it into `out` without asking how long it is.
-/

namespace WamrTest

open Encoding Fields Proto3

/-- What an entry of a repeated string takes: a tag byte, the length and the bytes. -/
def elementSize (s : CString) : ℕ := 1 + (Wire.prefixed s.chars).length

private theorem emitAll_strings (data : List CString) :
    (Wire.emitAll (data.map (FieldType.stringRecord 1))).length = (data.map elementSize).sum := by
  induction data with
  | nil => rfl
  | cons s data ih =>
    rw [List.map_cons,Wire.emitAll_cons,List.length_append,ih,List.map_cons,List.sum_cons,
      Wire.Record.emit_length (by decide : 1 < 16)]
    rfl

private theorem spliter_pack_length (data : List CString) :
    (Spliter.message ⟨data, []⟩).pack.length = (data.map elementSize).sum := by
  rw [← emitAll_strings]
  simp only [Message.pack,Spliter.message,spliterDescriptor,Members.records,FieldType.records,
    List.append_nil]

private theorem varint_length_small {v : ℕ} (h : v < 128) : (varint 5 v).length = 1 := by
  simp [varint,h]

private theorem varint_length_medium {v : ℕ} (h : 128 ≤ v) (h' : v < 128 ^ 2) : (varint 5 v).length = 2 := by
  have hlarge : ¬ v < 128 := not_lt.mpr h
  have hrest : v / 128 < 128 := by omega
  simp [varint,hlarge,hrest]

def kept (tokens : List (List UInt8)) : List (List UInt8) := tokens.filter (· ≠ Kernel.exclude)

/-- Two bytes for each token, a third for each long one, and the bytes of the tokens themselves. -/
def splitSize (tokens : List (List UInt8)) : ℕ :=
  2 * tokens.length + ((kept tokens).map List.length).sum +
    (kept tokens).countP (128 ≤ ·.length)

private theorem elementSize_keep {token : List UInt8} (hz : 0 ∉ token) (hlen : token.length < 128 ^ 2)
    (tokens : List (List UInt8)) :
    elementSize (Kernel.keep token) + splitSize tokens = splitSize (token::tokens) := by
  unfold splitSize
  by_cases hex : token = Kernel.exclude
  · have hkept : kept (token::tokens) = kept tokens := List.filter_cons_of_neg (by simpa using hex)
    rw [hkept,Kernel.keep,if_pos hex,List.length_cons]
    change 2 + _ = _
    omega
  · have hkept : kept (token::tokens) = token :: kept tokens :=
      List.filter_cons_of_pos (by simpa using hex)
    rw [hkept,Kernel.keep,if_neg hex,elementSize,CString.chars_of_not_mem hz,Wire.prefixed_length,
      List.map_cons,List.sum_cons,List.length_cons,List.countP_cons]
    by_cases hlong : 128 ≤ token.length
    · rw [varint_length_medium hlong hlen,if_pos (by simpa using hlong)]
      omega
    · rw [varint_length_small (not_le.mp hlong),if_neg (by simpa using hlong)]
      omega

private theorem keep_pack_length {tokens : List (List UInt8)}
    (h : ∀ token ∈ tokens, 0 ∉ token ∧ token.length < 128 ^ 2) :
    (Spliter.message ⟨tokens.map Kernel.keep, []⟩).pack.length = splitSize tokens := by
  rw [spliter_pack_length]
  induction tokens with
  | nil => rfl
  | cons token tokens ih =>
    have hrest := ih fun t ht => h t (List.mem_cons_of_mem token ht)
    obtain ⟨hz,hlen⟩ := h token List.mem_cons_self
    rw [List.map_cons,List.map_cons,List.sum_cons,hrest,elementSize_keep hz hlen]

private theorem splitSize_le (tokens : List (List UInt8)) :
    splitSize tokens ≤ 3 * tokens.length + (tokens.map List.length).sum := by
  have hsum : ((kept tokens).map List.length).sum ≤ (tokens.map List.length).sum :=
    (List.filter_sublist.map List.length).sum_le_sum (fun _ _ => Nat.zero_le _)
  have hlong : (kept tokens).countP (128 ≤ ·.length) ≤ (kept tokens).length := List.countP_le_length
  have hkept : (kept tokens).length ≤ tokens.length := List.length_filter_le _ _
  unfold splitSize
  omega

private theorem take_words_le (s : List UInt8) (n : ℕ) :
    ((words Kernel.sep s).take n).length ≤ s.length ∧
      (((words Kernel.sep s).take n).map List.length).sum ≤ s.length := by
  have hsum : (((words Kernel.sep s).take n).map List.length).sum ≤
      ((words Kernel.sep s).map List.length).sum :=
    ((List.take_sublist n _).map List.length).sum_le_sum (fun _ _ => Nat.zero_le _)
  have hwords := words_sum_le (a := Kernel.sep) s
  have hcount : ((words Kernel.sep s).take n).length ≤
      (((words Kernel.sep s).take n).map List.length).sum := by
    have hpos : ∀ k ∈ ((words Kernel.sep s).take n).map List.length, 1 ≤ k := by
      intro k hk
      obtain ⟨token,htoken,rfl⟩ := List.mem_map.mp hk
      exact List.length_pos_iff.mpr (ne_nil_of_mem_words (List.mem_of_mem_take htoken))
    have hcard := List.length_le_sum_of_one_le _ hpos
    rwa [List.length_map] at hcard
  omega

private theorem request_length {s : List UInt8} (hs : 0 ∉ s) :
    (Spliter.message ⟨[some s], []⟩).pack.length = 1 + ((varint 5 s.length).length + s.length) := by
  rw [spliter_pack_length,List.map_singleton,List.sum_singleton,elementSize,Wire.prefixed_length,
    CString.chars_of_not_mem hs]

private theorem entries_packed {s : List UInt8} (hs : 0 ∉ s) {n : ℕ} (hn : n ≤ (words Kernel.sep s).length)
    (hlen : (Spliter.message ⟨[some s], []⟩).pack.length ≤ buffMaxLen) :
    let data := ((words Kernel.sep s).take n).map Kernel.keep
    Kernel.entries s n = .ok data ∧
      (Spliter.message ⟨data, []⟩).pack.length = splitSize ((words Kernel.sep s).take n) ∧
      unpack spliterDescriptor (Spliter.message ⟨data, []⟩).pack =
        some (Spliter.message ⟨data.map fun s => some s.chars, []⟩) := by
  intro data
  have hchars := CString.chars_of_not_mem hs
  have hsize := request_length hs
  unfold buffMaxLen at hlen
  have htokens : ∀ token ∈ (words Kernel.sep s).take n, 0 ∉ token ∧ token.length < 128 ^ 2 := by
    intro token htoken
    have hsub := sublist_of_mem_words (List.mem_of_mem_take htoken)
    have hle := hsub.length_le
    exact ⟨fun hz => hs (hsub.subset hz),by omega⟩
  have hpack : (Spliter.message ⟨data, []⟩).pack.length = splitSize ((words Kernel.sep s).take n) :=
    keep_pack_length htokens
  have hle := splitSize_le ((words Kernel.sep s).take n)
  obtain ⟨hcount,hsum⟩ := take_words_le s n
  refine ⟨?_,hpack,unpack_spliter rfl (by omega)⟩
  rw [Kernel.entries_eq (by rwa [hchars]),hchars]

/-- For a string that fits the request buffer, the message with an entry for each of the first `n` tokens
fits the response buffer if and only if two bytes for each entry, one more for each token of 128 bytes or
more and the bytes of the tokens that are not excluded do. -/
theorem spliter_response_fits (s : List UInt8) (hs : 0 ∉ s) (n : ℕ) (hn : n ≤ (words Kernel.sep s).length)
    (request : List UInt8) (hrequest : spliterPack ⟨_, (Spliter.message ⟨[some s], []⟩)⟩ = .ok request)
    (hlen : request.length ≤ buffMaxLen) :
    ∃ data response, Kernel.entries s n = .ok data ∧
      spliterPack ⟨_, (Spliter.message ⟨data, []⟩)⟩ = .ok response ∧
      unpack spliterDescriptor response = some (Spliter.message ⟨data.map fun s => some s.chars, []⟩) ∧
      (response.length ≤ buffMaxLen ↔ splitSize ((words Kernel.sep s).take n) ≤ buffMaxLen) := by
  obtain rfl := Except.ok.inj ((packAs_own _).symm.trans hrequest)
  obtain ⟨hentries,hsize,hunpack⟩ := entries_packed hs hn hlen
  refine ⟨_,_,hentries,packAs_own _,hunpack,?_⟩
  rw [hsize]

def letters (k : ℕ) : List UInt8 := (List.replicate k [97, 32]).flatten ++ [97]

private theorem words_letters (k : ℕ) : words Kernel.sep (letters k) = List.replicate (k+1) [97] := by
  induction k with
  | zero => exact words_of_not_mem (by decide) (by decide)
  | succ k ih =>
    have hcons : letters (k+1) = [97] ++ Kernel.sep :: letters k := rfl
    rw [hcons,words_append_cons (by decide) (by decide),ih]
    rfl

private theorem letters_length (k : ℕ) : (letters k).length = 2 * k + 1 := by
  induction k with
  | zero => rfl
  | succ k ih =>
    have hcons : letters (k+1) = 97 :: 32 :: letters k := rfl
    rw [hcons,List.length_cons,List.length_cons,ih]
    omega

private theorem zero_not_mem_letters (k : ℕ) : 0 ∉ letters k := by
  simp [letters]

private theorem splitSize_letters (k : ℕ) : splitSize (List.replicate k [97]) = 3 * k := by
  have hkept : kept (List.replicate k [97]) = List.replicate k [97] :=
    List.filter_replicate_of_pos (by decide)
  rw [splitSize,hkept,List.map_replicate,List.sum_replicate,List.countP_replicate]
  simp
  omega

/-- 4095 letters with spaces between them fill the request buffer; each becomes an entry of three bytes. -/
theorem spliter_response_overflows :
    ∃ request data response, spliterPack ⟨_, (Spliter.message ⟨[some (letters 4094)], []⟩)⟩ = .ok request ∧
      request.length = 8192 ∧ (words Kernel.sep (letters 4094)).length = 4095 ∧
      Kernel.entries (letters 4094) 4095 = .ok data ∧
      spliterPack ⟨_, (Spliter.message ⟨data, []⟩)⟩ = .ok response ∧ response.length = 12285 ∧
      ¬ response.length ≤ buffMaxLen := by
  have hs := zero_not_mem_letters 4094
  have hsize : (Spliter.message ⟨[some (letters 4094)], []⟩).pack.length = 8192 := by
    rw [request_length hs,letters_length,varint_length_medium (by decide) (by decide)]
  have hcount : (words Kernel.sep (letters 4094)).length = 4095 := by
    rw [words_letters,List.length_replicate]
  obtain ⟨hentries,hresponse,-⟩ := entries_packed hs hcount.ge hsize.le
  have hall : (words Kernel.sep (letters 4094)).take 4095 = List.replicate 4095 [97] := by
    rw [List.take_of_length_le hcount.le,words_letters]
  rw [hall,splitSize_letters] at hresponse
  rw [hall] at hentries
  refine ⟨_,_,_,packAs_own _,hsize,hcount,hentries,packAs_own _,hresponse,?_⟩
  rw [hresponse]
  decide

theorem spliter_response_fits_sample :
    ∃ data response, Kernel.entries [73, 32, 97, 109, 32, 97, 115, 98] 3 = .ok data ∧
      spliterPack ⟨_, (Spliter.message ⟨data, []⟩)⟩ = .ok response ∧ response.length ≤ buffMaxLen := by
  obtain ⟨data,response,hentries,hpack,-,hiff⟩ := spliter_response_fits [73, 32, 97, 109, 32, 97, 115, 98]
    (by decide) 3 (by decide) [10, 8, 73, 32, 97, 109, 32, 97, 115, 98] rfl (by decide)
  exact ⟨data,response,hentries,hpack,hiff.mpr (by decide)⟩

end WamrTest
