import Mathlib.Tactic.Common
import Mathlib.Algebra.Group.Nat.Defs
import NewXv6.Param

/-!
# Disk blocks

A block is 512 bytes. This file has the ways the sources look into one: as bytes (`put`), as little-endian words
(`word`, `setWord`), as bits of the free bitmap (`bit`, `setBit`, `clearBit`) and as a row of on-disk inodes
(`getDinode`, `putDinode`), with what each access sees after each update.
-/

namespace NewXv6

/-- A disk block. -/
def Block : Type := Fin BSIZE → UInt8

namespace Block

/-- The byte at offset `i`. -/
def byte (b : Block) (i : Nat) : UInt8 := if h : i < BSIZE then b ⟨i, h⟩ else 0

/-- A block of zeros. -/
def zero : Block := fun _ => 0

/-- `memmove(data + off, f, n)`. -/
def put (b : Block) (off n : Nat) (f : Nat → UInt8) : Block :=
  fun i => if off ≤ i.1 ∧ i.1 < off + n then f (i.1 - off) else b i

@[simp] theorem byte_zero (i : Nat) : zero.byte i = 0 := by
  simp [byte, zero]

theorem byte_of_le (b : Block) {i : Nat} (h : BSIZE ≤ i) : b.byte i = 0 := by
  unfold byte
  rw [dif_neg (by omega)]

theorem byte_put (b : Block) (off n : Nat) (f : Nat → UInt8) (i : Nat) :
    (b.put off n f).byte i = if i < BSIZE ∧ off ≤ i ∧ i < off + n then f (i - off) else b.byte i := by
  unfold byte put
  by_cases h : i < BSIZE
  · rw [dif_pos h, dif_pos h]
    simp only [h, true_and]
  · rw [dif_neg h, dif_neg h, if_neg (fun hc => h hc.1)]

theorem byte_put_in (b : Block) {off n : Nat} (f : Nat → UInt8) {j : Nat} (h : off + n ≤ BSIZE) (hj : j < n) :
    (b.put off n f).byte (off + j) = f j := by
  rw [byte_put, if_pos (by omega)]
  congr 1
  omega

theorem byte_put_out (b : Block) {off n : Nat} (f : Nat → UInt8) {i : Nat} (h : i < off ∨ off + n ≤ i) :
    (b.put off n f).byte i = b.byte i := by
  rw [byte_put, if_neg (by omega)]

end Block

/-! ## Little-endian numbers -/

/-- The two bytes at `o` as a number. -/
def le16 (f : Nat → UInt8) (o : Nat) : UInt16 := UInt16.ofNat ((f o).toNat + 256 * (f (o + 1)).toNat)

/-- The four bytes at `o` as a number. -/
def le32 (f : Nat → UInt8) (o : Nat) : UInt32 :=
  UInt32.ofNat ((f o).toNat + 256 * (f (o + 1)).toNat + 65536 * (f (o + 2)).toNat + 16777216 * (f (o + 3)).toNat)

/-- Byte `j` of a number. -/
def byte16 (v : UInt16) (j : Nat) : UInt8 := UInt8.ofNat (v.toNat / 256 ^ j)

/-- Byte `j` of a number. -/
def byte32 (v : UInt32) (j : Nat) : UInt8 := UInt8.ofNat (v.toNat / 256 ^ j)

theorem le16_congr {f g : Nat → UInt8} {o p : Nat} (h : ∀ j, j < 2 → f (o + j) = g (p + j)) : le16 f o = le16 g p := by
  unfold le16
  rw [← Nat.add_zero o, ← Nat.add_zero p, h 0 (by omega), Nat.add_zero, Nat.add_zero, h 1 (by omega)]

theorem le32_congr {f g : Nat → UInt8} {o p : Nat} (h : ∀ j, j < 4 → f (o + j) = g (p + j)) : le32 f o = le32 g p := by
  unfold le32
  rw [← Nat.add_zero o, ← Nat.add_zero p, h 0 (by omega), Nat.add_zero, Nat.add_zero, h 1 (by omega),
    h 2 (by omega), h 3 (by omega)]

theorem le16_byte16 {f : Nat → UInt8} {o : Nat} {v : UInt16} (h : ∀ j, j < 2 → f (o + j) = byte16 v j) :
    le16 f o = v := by
  rw [le16_congr (g := byte16 v) (p := 0) (by simpa using h)]
  have hv := v.toNat_lt_size
  apply UInt16.toNat_inj.1
  simp only [le16, byte16, UInt16.toNat_ofNat', UInt8.toNat_ofNat', UInt16.size] at *
  omega

theorem le32_byte32 {f : Nat → UInt8} {o : Nat} {v : UInt32} (h : ∀ j, j < 4 → f (o + j) = byte32 v j) :
    le32 f o = v := by
  rw [le32_congr (g := byte32 v) (p := 0) (by simpa using h)]
  have hv := v.toNat_lt_size
  apply UInt32.toNat_inj.1
  simp only [le32, byte32, UInt32.toNat_ofNat', UInt8.toNat_ofNat', UInt32.size] at *
  omega

theorem le32_zero {f : Nat → UInt8} {o : Nat} (h : ∀ j, j < 4 → f (o + j) = 0) : le32 f o = 0 := by
  rw [le32_congr (g := fun _ => 0) (p := 0) h]
  rfl

theorem le16_zero {f : Nat → UInt8} {o : Nat} (h : ∀ j, j < 2 → f (o + j) = 0) : le16 f o = 0 := by
  rw [le16_congr (g := fun _ => 0) (p := 0) h]
  rfl

/-! ## Words of a block -/

namespace Block

/-- `((uint*)data)[k]`. -/
def word (b : Block) (k : Nat) : UInt32 := le32 b.byte (4 * k)

/-- `((uint*)data)[k] = v`. -/
def setWord (b : Block) (k : Nat) (v : UInt32) : Block := b.put (4 * k) 4 (byte32 v)

@[simp] theorem word_zero (k : Nat) : zero.word k = 0 := le32_zero (by simp)

theorem word_of_le (b : Block) {k : Nat} (h : NINDIRECT ≤ k) : b.word k = 0 :=
  le32_zero fun j _ => byte_of_le b (by simp only [BSIZE, NINDIRECT] at *; omega)

theorem word_setWord_self (b : Block) {k : Nat} (v : UInt32) (h : k < NINDIRECT) : (b.setWord k v).word k = v :=
  le32_byte32 fun j hj => byte_put_in b _ (by simp only [BSIZE, NINDIRECT] at *; omega) hj

theorem word_setWord_ne (b : Block) {k l : Nat} (v : UInt32) (h : l ≠ k) : (b.setWord k v).word l = b.word l :=
  le32_congr fun j hj => byte_put_out b _ (by omega)

theorem word_setWord (b : Block) {k : Nat} (l : Nat) (v : UInt32) (h : k < NINDIRECT) :
    (b.setWord k v).word l = if l = k then v else b.word l := by
  split
  · subst l; exact word_setWord_self b v h
  · exact word_setWord_ne b v ‹_›

end Block

/-! ## Bits of a block -/

/-- `1 << (i % 8)`. -/
def mask (i : Nat) : UInt8 := 1 <<< UInt8.ofNat (i % 8)

theorem mask_toBitVec (i : Nat) : (mask i).toBitVec = BitVec.twoPow 8 (i % 8) := by
  have h : i % 8 < 8 := Nat.mod_lt _ (by decide)
  unfold mask
  revert h
  generalize i % 8 = j
  intro h
  revert j
  decide

theorem and_mask (x : UInt8) (i : Nat) : x &&& mask i = 0 ↔ x.toBitVec.getLsbD (i % 8) = false := by
  have h : i % 8 < 8 := Nat.mod_lt _ (by decide)
  rw [← UInt8.toBitVec_inj, UInt8.toBitVec_and, mask_toBitVec, BitVec.and_twoPow]
  cases hx : x.toBitVec.getLsbD (i % 8) with
  | false => simp
  | true =>
    simp only [↓reduceIte, Bool.true_eq_false, iff_false]
    intro hz
    have := congrArg (fun v => BitVec.getLsbD v (i % 8)) hz
    simp [h] at this

namespace Block

/-- `data[i/8] & (1 << (i % 8))`, as a truth value. -/
def bit (b : Block) (i : Nat) : Bool := b.byte (i / 8) &&& mask i != 0

/-- `data[i/8] |= 1 << (i % 8)`. -/
def setBit (b : Block) (i : Nat) : Block := b.put (i / 8) 1 (fun _ => b.byte (i / 8) ||| mask i)

/-- `data[i/8] &= ~(1 << (i % 8))`. -/
def clearBit (b : Block) (i : Nat) : Block := b.put (i / 8) 1 (fun _ => b.byte (i / 8) &&& ~~~mask i)

theorem bit_eq (b : Block) (i : Nat) : b.bit i = (b.byte (i / 8)).toBitVec.getLsbD (i % 8) := by
  have := and_mask (b.byte (i / 8)) i
  unfold bit
  cases hx : (b.byte (i / 8)).toBitVec.getLsbD (i % 8) with
  | false => simp [this.2 hx]
  | true =>
    have hne : b.byte (i / 8) &&& mask i ≠ 0 := fun h => by simp [this.1 h] at hx
    simp [hne]

@[simp] theorem bit_zero (i : Nat) : zero.bit i = false := by
  simp [bit_eq]

theorem bit_setBit (b : Block) {i : Nat} (j : Nat) (h : i < BPB) : (b.setBit i).bit j = (decide (j = i) || b.bit j) := by
  have h8 : i % 8 < 8 := Nat.mod_lt _ (by decide)
  have hj8 : j % 8 < 8 := Nat.mod_lt _ (by decide)
  simp only [BPB, BSIZE] at h
  rw [bit_eq, bit_eq, setBit, byte_put]
  by_cases hij : j / 8 = i / 8
  · rw [if_pos (by simp only [BSIZE]; omega), hij, UInt8.toBitVec_or, mask_toBitVec, BitVec.getLsbD_or,
      BitVec.getLsbD_twoPow]
    have : (j = i) ↔ (i % 8 = j % 8) := by omega
    simp [h8, this, Bool.or_comm]
  · rw [if_neg (by omega)]
    have : j ≠ i := fun h => hij (by rw [h])
    simp [this]

theorem bit_clearBit (b : Block) {i : Nat} (j : Nat) (h : i < BPB) :
    (b.clearBit i).bit j = (!decide (j = i) && b.bit j) := by
  have h8 : i % 8 < 8 := Nat.mod_lt _ (by decide)
  have hj8 : j % 8 < 8 := Nat.mod_lt _ (by decide)
  simp only [BPB, BSIZE] at h
  rw [bit_eq, bit_eq, clearBit, byte_put]
  by_cases hij : j / 8 = i / 8
  · rw [if_pos (by simp only [BSIZE]; omega), hij, UInt8.toBitVec_and, UInt8.toBitVec_not, mask_toBitVec,
      BitVec.getLsbD_and, BitVec.getLsbD_not, BitVec.getLsbD_twoPow]
    have : (j = i) ↔ (i % 8 = j % 8) := by omega
    simp [h8, hj8, this, Bool.and_comm]
  · rw [if_neg (by omega)]
    have : j ≠ i := fun h => hij (by rw [h])
    simp [this]

end Block

/-! ## On-disk inodes -/

/-- The on-disk inode structure. -/
structure Dinode where
  type : Int16
  major : Int16
  minor : Int16
  nlink : Int16
  size : UInt32
  addrs : Fin (NDIRECT + 1) → UInt32

namespace Dinode

/-- `memset(dip, 0, sizeof(*dip))`. -/
def zero : Dinode := ⟨0, 0, 0, 0, 0, fun _ => 0⟩

/-- The 64 bytes of a `struct dinode`. -/
def encode (d : Dinode) (j : Nat) : UInt8 :=
  if j < 2 then byte16 d.type.toUInt16 j
  else if j < 4 then byte16 d.major.toUInt16 (j - 2)
  else if j < 6 then byte16 d.minor.toUInt16 (j - 4)
  else if j < 8 then byte16 d.nlink.toUInt16 (j - 6)
  else if j < 12 then byte32 d.size (j - 8)
  else if h : (j - 12) / 4 < NDIRECT + 1 then byte32 (d.addrs ⟨(j - 12) / 4, h⟩) ((j - 12) % 4)
  else 0

/-- The inode 64 bytes stand for. -/
def decode (f : Nat → UInt8) : Dinode where
  type := (le16 f 0).toInt16
  major := (le16 f 2).toInt16
  minor := (le16 f 4).toInt16
  nlink := (le16 f 6).toInt16
  size := le32 f 8
  addrs i := le32 f (12 + 4 * i.1)

theorem decode_congr {f g : Nat → UInt8} (h : ∀ j, j < 64 → f j = g j) : decode f = decode g := by
  unfold decode
  congr 1
  · rw [le16_congr fun j hj => h (0 + j) (by omega)]
  · rw [le16_congr fun j hj => h (2 + j) (by omega)]
  · rw [le16_congr fun j hj => h (4 + j) (by omega)]
  · rw [le16_congr fun j hj => h (6 + j) (by omega)]
  · rw [le32_congr fun j hj => h (8 + j) (by omega)]
  · funext i
    have hi := i.2
    simp only [NDIRECT] at hi
    rw [le32_congr fun j hj => h (12 + 4 * i.1 + j) (by omega)]

/-- What is written is what is read back. -/
theorem decode_encode (d : Dinode) : decode d.encode = d := by
  have ht : le16 d.encode 0 = d.type.toUInt16 := le16_byte16 fun j hj => by
    simp only [encode, Nat.zero_add]
    rw [if_pos hj]
  have hma : le16 d.encode 2 = d.major.toUInt16 := le16_byte16 fun j hj => by
    unfold encode
    rw [if_neg (by omega), if_pos (by omega), Nat.add_sub_cancel_left]
  have hmi : le16 d.encode 4 = d.minor.toUInt16 := le16_byte16 fun j hj => by
    unfold encode
    rw [if_neg (by omega), if_neg (by omega), if_pos (by omega), Nat.add_sub_cancel_left]
  have hnl : le16 d.encode 6 = d.nlink.toUInt16 := le16_byte16 fun j hj => by
    unfold encode
    rw [if_neg (by omega), if_neg (by omega), if_neg (by omega), if_pos (by omega), Nat.add_sub_cancel_left]
  have hsz : le32 d.encode 8 = d.size := le32_byte32 fun j hj => by
    unfold encode
    rw [if_neg (by omega), if_neg (by omega), if_neg (by omega), if_neg (by omega), if_pos (by omega),
      Nat.add_sub_cancel_left]
  have had : ∀ i : Fin (NDIRECT + 1), le32 d.encode (12 + 4 * i.1) = d.addrs i := fun i => le32_byte32 fun j hj => by
    have hi := i.2
    have hdiv : (12 + 4 * i.1 + j - 12) / 4 = i.1 := by omega
    have hmod : (12 + 4 * i.1 + j - 12) % 4 = j := by omega
    unfold encode
    rw [if_neg (by omega), if_neg (by omega), if_neg (by omega), if_neg (by omega), if_neg (by omega),
      dif_pos (by omega)]
    simp only [hdiv, hmod]
  unfold decode
  simp only [ht, hma, hmi, hnl, hsz, had, Int16.toInt16_toUInt16]

end Dinode

namespace Block

/-- `*((struct dinode*)data + k)`. -/
def getDinode (b : Block) (k : Nat) : Dinode := Dinode.decode fun j => b.byte (64 * k + j)

/-- `*((struct dinode*)data + k) = d`. -/
def putDinode (b : Block) (k : Nat) (d : Dinode) : Block := b.put (64 * k) 64 d.encode

theorem getDinode_putDinode_self (b : Block) {k : Nat} (d : Dinode) (h : k < IPB) :
    (b.putDinode k d).getDinode k = d := by
  have hk : 64 * k + 64 ≤ BSIZE := by simp only [BSIZE, IPB] at *; omega
  exact (Dinode.decode_congr fun j hj => byte_put_in b d.encode hk hj).trans d.decode_encode

theorem getDinode_putDinode_ne (b : Block) {k l : Nat} (d : Dinode) (h : l ≠ k) :
    (b.putDinode k d).getDinode l = b.getDinode l :=
  Dinode.decode_congr fun j hj => byte_put_out b _ (by omega)

@[simp] theorem getDinode_zero (k : Nat) : zero.getDinode k = Dinode.zero := by
  unfold getDinode Dinode.decode Dinode.zero
  simp only [byte_zero]
  rfl

end Block

end NewXv6
