import UBoot.FlashCells

namespace Words

open FlashCells

variable {m m' : Flash} {a b v : Nat}

def le16 (m : Flash) (a : Nat) : Nat := (m a).toNat + 256 * (m (a + 1)).toNat
def be16 (m : Flash) (a : Nat) : Nat := 256 * (m a).toNat + (m (a + 1)).toNat

def le32 (m : Flash) (a : Nat) : Nat := le16 m a + 65536 * le16 m (a + 2)

def be32 (m : Flash) (a : Nat) : Nat := 65536 * be16 m a + be16 m (a + 2)

def be32Bytes (v : Nat) : List UInt8 :=
  [UInt8.ofNat (v / 16777216), UInt8.ofNat (v / 65536), UInt8.ofNat (v / 256), UInt8.ofNat v]

def putLe16 (m : Flash) (a v : Nat) : Flash := store m a [UInt8.ofNat v, UInt8.ofNat (v / 256)]
def putBe16 (m : Flash) (a v : Nat) : Flash := store m a [UInt8.ofNat (v / 256), UInt8.ofNat v]

def putLe32 (m : Flash) (a v : Nat) : Flash := putLe16 (putLe16 m a v) (a + 2) (v / 65536)

theorem le16_lt (m : Flash) (a : Nat) : le16 m a < 65536 := by
  have h₀ := (m a).toNat_lt
  have h₁ := (m (a + 1)).toNat_lt
  unfold le16
  omega

theorem be16_lt (m : Flash) (a : Nat) : be16 m a < 65536 := by
  have h₀ := (m a).toNat_lt
  have h₁ := (m (a + 1)).toNat_lt
  unfold be16
  omega

theorem le16_congr (h₀ : m' a = m b) (h₁ : m' (a + 1) = m (b + 1)) : le16 m' a = le16 m b := by
  rw [le16, le16, h₀, h₁]

theorem be16_congr (h₀ : m' a = m b) (h₁ : m' (a + 1) = m (b + 1)) : be16 m' a = be16 m b := by
  rw [be16, be16, h₀, h₁]

theorem be32_of_read (h : read m a 4 = be32Bytes v) : be32 m a = v % 4294967296 := by
  have hbyte : ∀ i, i < 4 → m (a + i) = (be32Bytes v).getD i 0 := by
    intro i hi
    rw [← h, getD_read hi]
  have h₀ : m a = UInt8.ofNat (v / 16777216) := hbyte 0 (by omega)
  have h₁ : m (a + 1) = UInt8.ofNat (v / 65536) := hbyte 1 (by omega)
  have h₂ : m (a + 2) = UInt8.ofNat (v / 256) := hbyte 2 (by omega)
  have h₃ : m (a + 3) = UInt8.ofNat v := hbyte 3 (by omega)
  unfold be32 be16
  rw [h₀, h₁, h₂, show a + 2 + 1 = a + 3 from rfl, h₃]
  simp only [UInt8.toNat_ofNat']
  omega

theorem le32_of_read (h : read m a 4 = (be32Bytes v).reverse) : le32 m a = v % 4294967296 := by
  have hbyte : ∀ i, i < 4 → m (a + i) = (be32Bytes v).reverse.getD i 0 := by
    intro i hi
    rw [← h, getD_read hi]
  have h₀ : m a = UInt8.ofNat v := hbyte 0 (by omega)
  have h₁ : m (a + 1) = UInt8.ofNat (v / 256) := hbyte 1 (by omega)
  have h₂ : m (a + 2) = UInt8.ofNat (v / 65536) := hbyte 2 (by omega)
  have h₃ : m (a + 3) = UInt8.ofNat (v / 16777216) := hbyte 3 (by omega)
  unfold le32 le16
  rw [h₀, h₁, h₂, show a + 2 + 1 = a + 3 from rfl, h₃]
  simp only [UInt8.toNat_ofNat']
  omega

theorem le32_congr (h : ∀ i, i < 4 → m' (a + i) = m (b + i)) : le32 m' a = le32 m b := by
  have hlow := le16_congr (h 0 (by omega)) (h 1 (by omega))
  have hhigh := le16_congr (a := a + 2) (b := b + 2) (h 2 (by omega)) (h 3 (by omega))
  exact congrArg₂ (fun x y => x + 65536 * y) hlow hhigh

theorem putLe16_outside {x : Nat} (h : x < a ∨ a + 2 ≤ x) : putLe16 m a v x = m x := store_outside h

theorem putBe16_outside {x : Nat} (h : x < a ∨ a + 2 ≤ x) : putBe16 m a v x = m x := store_outside h

theorem le16_putLe16 (h : v < 65536) : le16 (putLe16 m a v) a = v := by
  have h₀ : putLe16 m a v a = UInt8.ofNat v := by simp [putLe16, store, patch]
  have h₁ : putLe16 m a v (a + 1) = UInt8.ofNat (v / 256) := by simp [putLe16, store, patch]
  rw [le16, h₀, h₁, UInt8.toNat_ofNat', UInt8.toNat_ofNat']
  omega

theorem putLe32_outside {x : Nat} (h : x < a ∨ a + 4 ≤ x) : putLe32 m a v x = m x := by
  rw [putLe32, putLe16_outside (by omega), putLe16_outside (by omega)]

theorem le16_putLe16_of_ne (h : b + 2 ≤ a ∨ a + 2 ≤ b) : le16 (putLe16 m a v) b = le16 m b :=
  le16_congr (putLe16_outside (by omega)) (putLe16_outside (by omega))

theorem le32_putLe32 (h : v < 4294967296) : le32 (putLe32 m a v) a = v := by
  have hlow : le16 (putLe32 m a v) a = v % 65536 := by
    rw [putLe32, le16_putLe16_of_ne (by omega), ← le16_putLe16 (m := m) (a := a) (Nat.mod_lt v (by omega))]
    congr 1
    unfold putLe16
    congr 2
    · exact UInt8.toNat_inj.mp (by simp only [UInt8.toNat_ofNat']; omega)
    · congr 1
      exact UInt8.toNat_inj.mp (by simp only [UInt8.toNat_ofNat']; omega)
  rw [le32, hlow, putLe32, le16_putLe16 (by omega)]
  omega

theorem le32_putLe32_of_ne (h : b + 4 ≤ a ∨ a + 4 ≤ b) : le32 (putLe32 m a v) b = le32 m b :=
  le32_congr fun _ _ => putLe32_outside (by omega)

end Words
