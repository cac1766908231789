import WamrTest.Udf.Kernels

/-!
# The reference UDFs

`BuildUserId.evaluate`, `Spliter.execute` and `PointPolygenDistance.evaluate` of
`UDF-Benchmark/udf_examples.py`, which the kernels port. `None` is `none`; the hash, the separator
and the exclusion word are those of the C program.
-/

namespace WamrTest.Reference

open Proto3

/-- `BuildUserId.evaluate`; 48 is the digit 0. -/
def buildUserId (userId imeiId : Option (List UInt8)) : List UInt8 :=
  match userId with
  | some s => if s ≠ [48] then s else missing
  | none => missing
where
  missing : List UInt8 :=
    match imeiId with
    | some imei => if imei ≠ [] then Kernel.decimal (Kernel.hash imei) else [48]
    | none => [48]

/-- `Spliter.execute`: exactly `length` entries, cut off or filled up with `None`. -/
def spliter (segData : List UInt8) (length : ℕ) : List CString :=
  let dataList := (segData.splitOn Kernel.sep).map some
  let segNum := dataList.length
  let dataList := if segNum > length then dataList.take length
    else if segNum < length then dataList ++ List.replicate (length - segNum) none
    else dataList
  dataList.map fun data => if data = some Kernel.exclude then none else data

section Distance

variable {α : Type} [Zero α] [Add α] [Sub α] [Monoid α]

/-- One turn of the loop of `PointPolygenDistance.evaluate`; it raises where there is no number. -/
def addSquare (point1 point2 : List (Option α)) (distance : α) (i : ℕ) : Option α := do
  let x ← (point1[i]?).join
  let y ← (point2[i]?).join
  return distance + (y - x) ^ 2

def pointPolygenDistance (point1 point2 : List (Option α)) : Option α :=
  if point1.length = 0 ∨ point2.length = 0 ∨ point1.any Option.isNone ∨ point2.any Option.isNone then
    some 0
  else if point1.length ≠ point2.length then some 0
  else (List.range point1.length).foldlM (addSquare point1 point2) 0

end Distance

end WamrTest.Reference
