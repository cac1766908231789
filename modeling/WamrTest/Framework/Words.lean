import WamrTest.Framework.Memory

/-!
# Words in byte memory

Loads and stores of little-endian words of 32 and 64 bits. A store is seen by a load at the same
address and by no load or byte outside its bytes.
-/

namespace ByteMemory

def load32 (m : Mem UInt8) (a : ℤ) : BitVec 32 :=
  (m (a + 3)).toBitVec ++ (m (a + 2)).toBitVec ++ (m (a + 1)).toBitVec ++ (m a).toBitVec

def store32 (m : Mem UInt8) (a : ℤ) (word : BitVec 32) : Mem UInt8 :=
  fun b => if a ≤ b ∧ b < a + 4 then ⟨word.extractLsb' (8 * (b - a).toNat) 8⟩ else m b

def load64 (m : Mem UInt8) (a : ℤ) : BitVec 64 := load32 m (a + 4) ++ load32 m a

def store64 (m : Mem UInt8) (a : ℤ) (word : BitVec 64) : Mem UInt8 :=
  store32 (store32 m a (word.setWidth 32)) (a + 4) (word.extractLsb' 32 32)

/-- Two memories with the same bytes in `[a, b)`. -/
def SameOn (a b : ℤ) (m m' : Mem UInt8) : Prop := ∀ x, a ≤ x → x < b → m' x = m x

variable {m m' m'' : Mem UInt8} {a b x y : ℤ}

theorem SameOn.refl (a b : ℤ) (m : Mem UInt8) : SameOn a b m m := fun _ _ _ => rfl

theorem SameOn.trans (h : SameOn a b m m') (h' : SameOn a b m' m'') : SameOn a b m m'' := by
  intro z hz hz'
  rw [h' z hz hz',h z hz hz']

theorem SameOn.mono (h : SameOn a b m m') (hx : a ≤ x) (hy : y ≤ b) : SameOn x y m m' := by
  intro z hz hz'
  exact h z (by omega) (by omega)

theorem SameOn.load32 (h : SameOn a b m m') (hx : a ≤ x) (hy : x + 4 ≤ b) :
    load32 m' x = load32 m x := by
  unfold ByteMemory.load32
  rw [h x hx (by omega),h (x + 1) (by omega) (by omega),h (x + 2) (by omega) (by omega),
    h (x + 3) (by omega) (by omega)]

theorem store32_outside (m : Mem UInt8) (word : BitVec 32) (h : x < a ∨ a + 4 ≤ x) :
    store32 m a word x = m x := if_neg (by omega)

theorem sameOn_store32 (m : Mem UInt8) (word : BitVec 32) (h : b ≤ x ∨ x + 4 ≤ a) :
    SameOn a b m (store32 m x word) := by
  intro z hz hz'
  exact store32_outside m word (by omega)

theorem sameOn_memset (m : Mem UInt8) (value : UInt8) {n : ℕ} (h : b ≤ x ∨ x + n ≤ a) :
    SameOn a b m (memset m x value n) := by
  intro z hz hz'
  exact if_neg (by omega)

theorem store32_inside (m : Mem UInt8) (a : ℤ) (word : BitVec 32) {k : ℕ} (h : k < 4) :
    store32 m a word (a + k) = ⟨word.extractLsb' (8 * k) 8⟩ := by
  have hk : (a + k - a).toNat = k := by omega
  rw [store32,if_pos (by omega),hk]

@[simp] theorem load32_store32 (m : Mem UInt8) (a : ℤ) (word : BitVec 32) :
    load32 (store32 m a word) a = word := by
  have h0 := store32_inside m a word (k := 0) (by decide)
  have h1 := store32_inside m a word (k := 1) (by decide)
  have h2 := store32_inside m a word (k := 2) (by decide)
  have h3 := store32_inside m a word (k := 3) (by decide)
  push_cast at h0 h1 h2 h3
  rw [add_zero] at h0
  rw [load32,h0,h1,h2,h3]
  apply BitVec.eq_of_getLsbD_eq
  intro i hi
  simp only [BitVec.getLsbD_append,BitVec.getLsbD_extractLsb']
  by_cases hi0 : i < 8
  · simp [hi0]
  · by_cases hi1 : i - 8 < 8
    · simp [hi0,hi1,show 8 + (i - 8) = i by omega]
    · by_cases hi2 : i - 8 - 8 < 8
      · simp [hi0,hi1,hi2,show 16 + (i - 8 - 8) = i by omega]
      · simp [hi0,hi1,hi2,show i - 8 - 8 - 8 < 8 by omega,show 24 + (i - 8 - 8 - 8) = i by omega]

theorem load32_store32_of_disjoint (m : Mem UInt8) (word : BitVec 32) (h : b + 4 ≤ a ∨ a + 4 ≤ b) :
    load32 (store32 m a word) b = load32 m b :=
  (sameOn_store32 (b := b + 4) m word (by omega)).load32 le_rfl le_rfl

theorem SameOn.load64 (h : SameOn a b m m') (hx : a ≤ x) (hy : x + 8 ≤ b) : load64 m' x = load64 m x := by
  rw [ByteMemory.load64,ByteMemory.load64,h.load32 (x := x + 4) (by omega) (by omega),h.load32 hx (by omega)]

theorem store64_outside (m : Mem UInt8) (word : BitVec 64) (h : x < a ∨ a + 8 ≤ x) : store64 m a word x = m x := by
  rw [store64,store32_outside _ _ (by omega),store32_outside _ _ (by omega)]

theorem store64_congr (word : BitVec 64) (h : m' x = m x) : store64 m' a word x = store64 m a word x := by
  simp only [store64,store32,h]

theorem load64_setWidth (m : Mem UInt8) (a : ℤ) : (load64 m a).setWidth 32 = load32 m a := by
  rw [load64,BitVec.setWidth_append]
  simp

theorem load64_extractLsb' (m : Mem UInt8) (a : ℤ) : (load64 m a).extractLsb' 32 32 = load32 m (a + 4) := by
  rw [load64,BitVec.extractLsb'_append_eq_left]

theorem load32_store64 (m : Mem UInt8) (a : ℤ) (word : BitVec 64) :
    load32 (store64 m a word) a = word.setWidth 32 := by
  rw [store64,load32_store32_of_disjoint _ _ (by omega),load32_store32]

@[simp] theorem load64_store64 (m : Mem UInt8) (a : ℤ) (word : BitVec 64) :
    load64 (store64 m a word) a = word := by
  rw [load64,load32_store64,store64,load32_store32]
  apply BitVec.eq_of_getLsbD_eq
  intro i hi
  simp only [BitVec.getLsbD_append,BitVec.getLsbD_extractLsb',BitVec.getLsbD_setWidth]
  by_cases hlow : i < 32
  · simp [hlow]
  · simp [hlow,show i - 32 < 32 by omega,show 32 + (i - 32) = i by omega]

theorem load32_store64_of_disjoint (m : Mem UInt8) (word : BitVec 64) (h : b + 4 ≤ a ∨ a + 8 ≤ b) :
    load32 (store64 m a word) b = load32 m b := by
  have hsame : SameOn b (b + 4) m (store64 m a word) := fun z hz hz' => store64_outside m word (by omega)
  exact hsame.load32 le_rfl le_rfl

theorem load64_store64_of_disjoint (m : Mem UInt8) (word : BitVec 64) (h : b + 8 ≤ a ∨ a + 8 ≤ b) :
    load64 (store64 m a word) b = load64 m b := by
  have hsame : SameOn b (b + 8) m (store64 m a word) := fun z hz hz' => store64_outside m word (by omega)
  exact hsame.load64 le_rfl le_rfl

end ByteMemory
