import Mathlib.Tactic

/-!
# Little-endian words in a byte array

A byte array is a function from offsets to bytes.  `loadLE m a k` is the number spelled by the
`k` bytes at `a, …, a + k - 1`, least significant first; `storeLE m a k v` writes the `k` low
bytes of `v` there.  `loadW w` and `storeW w` are the same for a machine word of `w` bits.

The results are the usual laws of an array of cells: a load sees the store to its own cell
(`loadW_storeW`), and no store to a disjoint one (`loadW_storeW_of_disjoint`).
-/

namespace Bytes

/-- A byte. -/
abbrev Byte := BitVec 8

instance lawfulBEq_byte : LawfulBEq Byte := inferInstance

/-- The number spelled by the `k` bytes at `a`, least significant first. -/
def loadLE (m : ℕ → Byte) (a : ℕ) : ℕ → ℕ
  | 0 => 0
  | k + 1 => (m a).toNat + 256 * loadLE m (a + 1) k

/-- Write the `k` low bytes of `v` at `a`. -/
def storeLE (m : ℕ → Byte) (a k v : ℕ) : ℕ → Byte := fun x =>
  if a ≤ x ∧ x < a + k then BitVec.ofNat 8 (v / 256 ^ (x - a)) else m x

/-- Load the `w`-bit word at `a`. -/
def loadW (w : ℕ) (m : ℕ → Byte) (a : ℕ) : BitVec w := BitVec.ofNat w (loadLE m a (w / 8))

/-- Store a `w`-bit word at `a`. -/
def storeW {w : ℕ} (m : ℕ → Byte) (a : ℕ) (v : BitVec w) : ℕ → Byte :=
  storeLE m a (w / 8) v.toNat

theorem loadLE_congr {m m' : ℕ → Byte} {a k : ℕ} (h : ∀ x, a ≤ x → x < a + k → m x = m' x) :
    loadLE m a k = loadLE m' a k := by
  induction k generalizing a with
  | zero => rfl
  | succ k ih =>
    simp only [loadLE]
    rw [h a le_rfl (by omega), ih fun x h1 h2 => h x (by omega) (by omega)]

theorem loadLE_zero (a k : ℕ) : loadLE (fun _ => 0#8) a k = 0 := by
  induction k generalizing a with
  | zero => rfl
  | succ k ih => simp [loadLE, ih]

theorem storeLE_of_lt {m : ℕ → Byte} {a k v x : ℕ} (h : x < a) : storeLE m a k v x = m x := by
  simp [storeLE, Nat.not_le.2 h]

theorem storeLE_of_ge {m : ℕ → Byte} {a k v x : ℕ} (h : a + k ≤ x) :
    storeLE m a k v x = m x := by
  simp [storeLE, Nat.not_lt.2 h]

/-- A load of the cell just stored returns the value, cut to the size of the cell. -/
theorem loadLE_storeLE (m : ℕ → Byte) (a k v : ℕ) :
    loadLE (storeLE m a k v) a k = v % 256 ^ k := by
  induction k generalizing a v with
  | zero => simp [loadLE, Nat.mod_one]
  | succ k ih =>
    -- above the first byte the cell is the store of the remaining digits
    have htail : loadLE (storeLE m a (k + 1) v) (a + 1) k
        = loadLE (storeLE m (a + 1) k (v / 256)) (a + 1) k := by
      apply loadLE_congr
      intro x h1 h2
      have hx : x - a = (x - (a + 1)) + 1 := by omega
      rw [storeLE, storeLE, if_pos (by omega), if_pos (by omega), hx, pow_succ',
        Nat.div_div_eq_div_mul]
    have hhead : (storeLE m a (k + 1) v a).toNat = v % 256 := by
      simp [storeLE]
    rw [loadLE, htail, ih, hhead, pow_succ']
    exact (Nat.mod_mul).symm

theorem loadLE_storeLE_of_disjoint {m : ℕ → Byte} {a b j k v : ℕ}
    (h : b + j ≤ a ∨ a + k ≤ b) : loadLE (storeLE m a k v) b j = loadLE m b j := by
  apply loadLE_congr
  intro x h1 h2
  rcases h with h | h
  · exact storeLE_of_lt (by omega)
  · exact storeLE_of_ge (by omega)

/-! ### Words -/

section Words

variable {w : ℕ} {m : ℕ → Byte}

theorem loadW_congr {m' : ℕ → Byte} {a : ℕ} (h : ∀ x, a ≤ x → x < a + w / 8 → m x = m' x) :
    loadW w m a = loadW w m' a := by
  rw [loadW, loadW, loadLE_congr h]

theorem loadW_zero (a : ℕ) : loadW w (fun _ => 0#8) a = 0 := by
  rw [loadW, loadLE_zero]
  rfl

theorem loadW_storeW (hw : w % 8 = 0) (a : ℕ) (v : BitVec w) :
    loadW w (storeW m a v) a = v := by
  have hp : (256 : ℕ) ^ (w / 8) = 2 ^ w := by
    rw [show (256 : ℕ) = 2 ^ 8 by norm_num, ← pow_mul,
      Nat.mul_div_cancel' (Nat.dvd_of_mod_eq_zero hw)]
  rw [loadW, storeW, loadLE_storeLE, hp, Nat.mod_eq_of_lt v.isLt, BitVec.ofNat_toNat,
    BitVec.setWidth_eq]

theorem loadW_storeW_of_disjoint {w' a b : ℕ} {v : BitVec w}
    (h : b + w' / 8 ≤ a ∨ a + w / 8 ≤ b) : loadW w' (storeW m a v) b = loadW w' m b := by
  rw [loadW, loadW, storeW, loadLE_storeLE_of_disjoint h]

end Words

end Bytes
