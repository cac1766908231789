import WamrTest.Framework.MachineInt

/-!
# The time a benchmark reports

The end of `test_main` in `src/main.c`, `test/native/main.c` and `test/native_with_ser/main.c`:
the difference of two time stamps in nanoseconds, printed as microseconds and a rest. Two of them
keep it in a `long long`, the third in a `long`.
-/

namespace WamrTest

open MachineInt

/-- The targets by the width of a `long`: 64 bits as on x86-64, or 32 as on wasm32. -/
inductive Target
  | lp64
  | ilp32
deriving DecidableEq

def Target.long : Target → ℕ
  | .lp64 => 64
  | .ilp32 => 32

def longLong : ℕ := 64

/-- `struct timespec`; `tv_nsec` is a `long`, which on every target holds what it may be. -/
structure Timespec where
  tvSec : Int64
  tvNsec : ℤ
  nsec_nonneg : 0 ≤ tvNsec
  nsec_lt : tvNsec < 10 ^ 9

def Timespec.nanos (t : Timespec) : ℤ := t.tvSec.toInt * 10 ^ 9 + t.tvNsec

/-- The difference as it is computed: the nanoseconds as `long`, all else on 64 bits. -/
def difference (t : Target) (beginTime endTime : Timespec) : Int64 :=
  (endTime.tvSec - beginTime.tvSec) * 1000000000 +
    Int64.ofInt (wrap t.long (endTime.tvNsec - beginTime.tvNsec))

structure Cost where
  micro : ℤ
  na : ℤ
deriving DecidableEq

def Cost.ofDiff (diff : ℤ) : Cost := ⟨diff.tdiv 1000, diff.tmod 1000⟩

/-- `diff`, `na` and `micro` in variables of `w` bits. -/
def cost (w : ℕ) (t : Target) (beginTime endTime : Timespec) : Cost :=
  Cost.ofDiff (wrap w (difference t beginTime endTime).toInt)

/-- `src/main.c`. -/
def apiCost (t : Target) : Timespec → Timespec → Cost := cost longLong t

/-- `test/native_with_ser/main.c`. -/
def nativeWithSerCost (t : Target) : Timespec → Timespec → Cost := cost longLong t

/-- `test/native/main.c`. -/
def nativeCost (t : Target) : Timespec → Timespec → Cost := cost t.long t

/-- The programs the build files make of the three sources. -/
inductive Program
  | wamrTest (t : Target)
  | native
  | nativeWithSer
  | wasm
  | wasmWithSer
deriving DecidableEq

def Program.cost : Program → Timespec → Timespec → Cost
  | .wamrTest t => apiCost t
  | .native => nativeCost .lp64
  | .nativeWithSer => nativeWithSerCost .lp64
  | .wasm => nativeCost .ilp32
  | .wasmWithSer => nativeWithSerCost .ilp32

def Program.diffBits : Program → ℕ
  | .wasm => 32
  | _ => 64

/-- The numbers are microseconds and nanoseconds of the time that passed. -/
def Cost.Reports (c : Cost) (elapsed : ℤ) : Prop :=
  0 ≤ c.na ∧ c.na < 1000 ∧ c.micro * 1000 + c.na = elapsed

private theorem Cost.ofDiff_sum (diff : ℤ) :
    (Cost.ofDiff diff).micro * 1000 + (Cost.ofDiff diff).na = diff := Int.tdiv_mul_add_tmod diff 1000

private theorem Cost.ofDiff_injective : Function.Injective Cost.ofDiff := by
  intro diff diff' h
  rw [← Cost.ofDiff_sum diff,h,Cost.ofDiff_sum diff']

private theorem Cost.ofDiff_reports_iff {diff elapsed : ℤ} (h : 0 ≤ elapsed) :
    (Cost.ofDiff diff).Reports elapsed ↔ diff = elapsed := by
  constructor
  · intro hreports
    rw [← Cost.ofDiff_sum diff]
    exact hreports.2.2
  · intro heq
    rw [heq]
    exact ⟨Int.tmod_nonneg 1000 h,Int.tmod_lt_of_pos elapsed (by decide),Cost.ofDiff_sum elapsed⟩

section Exact

variable {beginTime endTime : Timespec}

private theorem difference_eq (t : Target) (h0 : beginTime.nanos ≤ endTime.nanos)
    (hlt : endTime.nanos - beginTime.nanos < 2 ^ 62) :
    (difference t beginTime endTime).toInt = endTime.nanos - beginTime.nanos := by
  have hb := beginTime.nsec_nonneg
  have hb' := beginTime.nsec_lt
  have he := endTime.nsec_nonneg
  have he' := endTime.nsec_lt
  unfold Timespec.nanos at *
  have hnsec : wrap t.long (endTime.tvNsec - beginTime.tvNsec) =
      endTime.tvNsec - beginTime.tvNsec := by
    cases t with
    | lp64 => exact (wrap_succ_eq_iff (w := 63)).mpr ⟨by omega,by omega⟩
    | ilp32 => exact (wrap_succ_eq_iff (w := 31)).mpr ⟨by omega,by omega⟩
  have hbillion : (1000000000 : Int64).toInt = 1000000000 := by decide
  have hsec : (endTime.tvSec - beginTime.tvSec).toInt =
      endTime.tvSec.toInt - beginTime.tvSec.toInt := by
    rw [Int64.toInt_sub]
    exact Int.bmod_eq_of_le (by omega) (by omega)
  have hmul : ((endTime.tvSec - beginTime.tvSec) * 1000000000).toInt =
      (endTime.tvSec.toInt - beginTime.tvSec.toInt) * 1000000000 := by
    rw [Int64.toInt_mul,hsec,hbillion]
    exact Int.bmod_eq_of_le (by omega) (by omega)
  have hrest : (Int64.ofInt (endTime.tvNsec - beginTime.tvNsec)).toInt =
      endTime.tvNsec - beginTime.tvNsec := Int64.toInt_ofInt_of_le (by omega) (by omega)
  rw [difference,hnsec,Int64.toInt_add,hmul,hrest,Int.bmod_eq_of_le (by omega) (by omega)]
  omega

/-- Only the `long` of the wasm32 build is too short for some differences. -/
theorem wrap_elapsed_iff (program : Program) {elapsed : ℤ} (h0 : 0 ≤ elapsed)
    (hlt : elapsed < 2 ^ 62) :
    wrap program.diffBits elapsed = elapsed ↔ (program = .wasm → elapsed < 2 ^ 31) := by
  cases program with
  | wasm =>
    have hfits := wrap_succ_eq_iff (w := 31) (x := elapsed)
    constructor
    · intro h _
      exact (hfits.mp h).2
    · intro h
      apply hfits.mpr
      exact ⟨by omega,h rfl⟩
  | wamrTest t | native | nativeWithSer | wasmWithSer =>
    have hfits := wrap_succ_eq_iff (w := 63) (x := elapsed)
    apply iff_of_true
    · apply hfits.mpr
      exact ⟨by omega,by omega⟩
    · intro h
      exact absurd h (by simp)

private theorem Program.cost_eq (program : Program) (h0 : beginTime.nanos ≤ endTime.nanos)
    (hlt : endTime.nanos - beginTime.nanos < 2 ^ 62) :
    program.cost beginTime endTime =
      Cost.ofDiff (wrap program.diffBits (endTime.nanos - beginTime.nanos)) := by
  have hdiff (t : Target) := difference_eq t h0 hlt
  cases program with
  | wamrTest t => exact congrArg (fun x => Cost.ofDiff (wrap 64 x)) (hdiff t)
  | native | nativeWithSer => exact congrArg (fun x => Cost.ofDiff (wrap 64 x)) (hdiff .lp64)
  | wasm => exact congrArg (fun x => Cost.ofDiff (wrap 32 x)) (hdiff .ilp32)
  | wasmWithSer => exact congrArg (fun x => Cost.ofDiff (wrap 64 x)) (hdiff .ilp32)

end Exact

/-- For any two time stamps in order and less than 2^62 ns apart, a program reports the time that
passed if and only if it is not the wasm32 build of `test/native/main.c` or less than 2^31 ns
passed; below that, and only there, all of them report the same. -/
theorem benchmarks_report (beginTime endTime : Timespec) (h0 : beginTime.nanos ≤ endTime.nanos)
    (hlt : endTime.nanos - beginTime.nanos < 2 ^ 62) :
    (∀ program : Program,
      (program.cost beginTime endTime).Reports (endTime.nanos - beginTime.nanos) ↔
        (program = .wasm → endTime.nanos - beginTime.nanos < 2 ^ 31)) ∧
      ((∀ program program' : Program,
        program.cost beginTime endTime = program'.cost beginTime endTime) ↔
          endTime.nanos - beginTime.nanos < 2 ^ 31) := by
  have hpos : 0 ≤ endTime.nanos - beginTime.nanos := sub_nonneg.mpr h0
  have hexact (program : Program) := wrap_elapsed_iff program hpos hlt
  constructor
  · intro program
    rw [program.cost_eq h0 hlt,Cost.ofDiff_reports_iff hpos,hexact program]
  · constructor
    · intro hsame
      have hwasm := hsame .wasm .native
      rw [Program.cost_eq .wasm h0 hlt,Program.cost_eq .native h0 hlt] at hwasm
      have hnative := (hexact .native).mpr (by simp)
      have heq := (Cost.ofDiff_injective hwasm).trans hnative
      exact (hexact .wasm).mp heq rfl
    · intro hshort program program'
      rw [program.cost_eq h0 hlt,program'.cost_eq h0 hlt,(hexact program).mpr fun _ => hshort,
        (hexact program').mpr fun _ => hshort]

/-- After three seconds the wasm32 build prints negative numbers, after five 705032.704us. -/
theorem benchmarks_wrap :
    let start : Timespec := ⟨1700000000, 0, by decide, by decide⟩
    let three : Timespec := ⟨1700000003, 0, by decide, by decide⟩
    let five : Timespec := ⟨1700000005, 0, by decide, by decide⟩
    start.nanos ≤ three.nanos ∧ start.nanos ≤ five.nanos ∧
      Program.wasm.cost start three = ⟨-1294967, -296⟩ ∧
      Program.wasm.cost start five = ⟨705032, 704⟩ ∧
      Program.native.cost start five = ⟨5000000, 0⟩ ∧
      ¬ (Program.wasm.cost start three).Reports (three.nanos - start.nanos) ∧
      ¬ (Program.wasm.cost start five).Reports (five.nanos - start.nanos) := by
  intro start three five
  have hthree : Program.wasm.cost start three = ⟨-1294967, -296⟩ := by decide
  have hfive : Program.wasm.cost start five = ⟨705032, 704⟩ := by decide
  refine ⟨by decide,by decide,hthree,hfive,by decide,?_,?_⟩
  · intro h
    rw [hthree] at h
    exact absurd h.1 (by decide)
  · intro h
    rw [hfive] at h
    exact absurd h.2.2 (by decide)

theorem benchmarks_report_sample :
    let start : Timespec := ⟨1700000000, 999999999, by decide, by decide⟩
    let two : Timespec := ⟨1700000002, 5, by decide, by decide⟩
    two.nanos - start.nanos = 1000000006 ∧
      (Program.wasm.cost start two).Reports (two.nanos - start.nanos) := by
  intro start two
  have helapsed : two.nanos - start.nanos = 1000000006 := by decide
  have hreport := benchmarks_report start two (by decide) (by decide)
  constructor
  · exact helapsed
  · apply (hreport.1 .wasm).mpr
    intro _
    rw [helapsed]
    decide

end WamrTest
