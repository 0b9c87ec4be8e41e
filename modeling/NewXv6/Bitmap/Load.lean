import Mathlib.Data.List.GetD
import Mathlib.Tactic.Ring

/-!
# Loading a bitmap (`bitmap.c`)

A file is its bytes; those behind its end are 0 in `pColorData`. `malloc` succeeds for every size that is not negative as an
`int`, and `int` wraps. A file that is not accepted, and a run that reads outside `pColorData`, give `none`.
-/

namespace NewXv6.Bitmap

/-! ## The bytes of the file -/

/-- The value of an `int`. -/
@[irreducible] def wrap (x : Int) : Int := (x + 2147483648) % 4294967296 - 2147483648

def byte (file : List UInt8) (k : Nat) : UInt8 := file.getD k 0

/-- `WORD`, `DWORD` and `LONG`. -/
def word (file : List UInt8) (k : Nat) : Nat := (byte file k).toNat + 256 * (byte file (k + 1)).toNat
def dword (file : List UInt8) (k : Nat) : Nat := word file k + 65536 * word file (k + 2)
def long (file : List UInt8) (k : Nat) : Int := wrap (dword file k)

/-- `BITMAPFILEHEADER` has 14 bytes in the file and `BITMAPINFOHEADER` 40: the pixels are read behind them. -/
abbrev HEADERS : Nat := 54

/-- The fields of the two headers that are used or described. -/
def bfType (file : List UInt8) : Nat := word file 0
def bfOffBits (file : List UInt8) : Nat := dword file 10
def biWidth (file : List UInt8) : Int := long file 18
def biHeight (file : List UInt8) : Int := long file 22
def biBitCount (file : List UInt8) : Nat := word file 28
def biCompression (file : List UInt8) : Nat := dword file 30

/-! ## The loader -/

structure RGBQUAD where
  rgbBlue : UInt8
  rgbGreen : UInt8
  rgbRed : UInt8
  rgbReserved : UInt8

structure PICNODE where
  data : List RGBQUAD
  width : Int
  height : Int

/-- `WIDTHBYTES`; the division rounds towards 0. -/
def WIDTHBYTES (bits : Int) : Int := (wrap (bits + 31)).tdiv 32 * 4

/-- `l_width` and `nData`. -/
def l_width (file : List UInt8) : Int := WIDTHBYTES (wrap (biWidth file * biBitCount file))
def nData (file : List UInt8) : Int := wrap (biHeight file * l_width file)

/-- `k` in row `i` and column `j`. -/
def at_ (file : List UInt8) (i j : Nat) : Int := wrap (i * l_width file + j * 3)

/-- The byte `pColorData[k]`. -/
def colorData (file : List UInt8) (k : Nat) : UInt8 := byte file (HEADERS + k)

def pixel (file : List UInt8) (k : Nat) : RGBQUAD := ⟨colorData file k, colorData file (k + 1), colorData file (k + 2), 0⟩

/-- The rows one after the other. -/
def rows (file : List UInt8) (height width : Nat) : List (List RGBQUAD) :=
  (List.range height).map fun i => (List.range width).map fun j => pixel file (at_ file i j).toNat

def loadBitmap (file : List UInt8) : Option PICNODE :=
  if file.length < HEADERS ∨ bfType file ≠ 0x4d42 then none
  else if nData file < 0 then none
  else if biBitCount file < 24 then none
  else if ∀ i < (biHeight file).toNat, ∀ j < (biWidth file).toNat, 0 ≤ at_ file i j ∧ at_ file i j + 2 < nData file then
    some ⟨(rows file (biHeight file).toNat (biWidth file).toNat).flatten, biWidth file, biHeight file⟩
  else none

/-! ## What a file says -/

/-- The bytes from one row to the next. -/
def stride (file : List UInt8) : Nat := ((biWidth file).toNat * biBitCount file + 31) / 32 * 4

/-- Where the pixel in row `i` and column `j` is. -/
def offset (file : List UInt8) (i j : Nat) : Nat := bfOffBits file + i * stride file + j * (biBitCount file / 8)

/-- The headers of an uncompressed bitmap without a palette. -/
structure Header (file : List UInt8) : Prop where
  type : bfType file = 0x4d42
  width : 0 < biWidth file
  height : 0 < biHeight file
  size : biWidth file * biHeight file * 4 < 2147483648
  bitCount : biBitCount file = 24 ∨ biBitCount file = 32
  compression : biCompression file = 0

/-- The pixels are in the file. -/
def Whole (file : List UInt8) : Prop := bfOffBits file + (biHeight file).toNat * stride file ≤ file.length

/-- The picture has the size and the pixels of the file. -/
def Right (file : List UInt8) : Prop := ∃ pic, loadBitmap file = some pic ∧
  pic.width = biWidth file ∧ pic.height = biHeight file ∧ ∀ i < (biHeight file).toNat, ∀ j < (biWidth file).toNat, ∃ q, pic.data[i * (biWidth file).toNat + j]? = some q ∧
    q.rgbBlue = byte file (offset file i j) ∧ q.rgbGreen = byte file (offset file i j + 1) ∧
      q.rgbRed = byte file (offset file i j + 2)

/-- The pixels are right behind the headers, a pixel has three bytes or a row one pixel, and the bits of a row fit in an
`int`. -/
structure Plain (file : List UInt8) : Prop where
  behind : bfOffBits file = HEADERS
  three : biBitCount file = 24 ∨ biWidth file = 1
  bits : biWidth file * biBitCount file + 31 < 2147483648

variable {head body file : List UInt8} {i j k width : Nat}

theorem plain_iff : Plain file ↔ bfOffBits file = HEADERS ∧ (biBitCount file = 24 ∨ biWidth file = 1) ∧
    biWidth file * biBitCount file + 31 < 2147483648 :=
  ⟨fun h => ⟨h.behind, h.three, h.bits⟩, fun h => ⟨h.1, h.2.1, h.2.2⟩⟩

theorem wrap_of_lt {x : Int} (hlow : -2147483648 ≤ x) (hhigh : x < 2147483648) : wrap x = x := by
  unfold wrap
  omega

/-- A place in rows of the same length. -/
theorem getElem?_rows {α : Type} {rows : List (List α)} (h : ∀ row ∈ rows, row.length = width) (hj : j < width) :
    rows.flatten[i * width + j]? = rows[i]?.bind fun row => row[j]? := by
  induction rows generalizing i with
  | nil => rfl
  | cons row rows ih =>
    have hrow := h row List.mem_cons_self
    cases i with
    | zero =>
      rw [Nat.zero_mul, Nat.zero_add, List.flatten_cons, List.getElem?_append_left (by omega)]
      rfl
    | succ i =>
      rw [List.flatten_cons, List.getElem?_append_right (by rw [hrow, Nat.succ_mul]; omega), hrow,
        show (i + 1) * width + j - width = i * width + j by rw [Nat.succ_mul]; omega,
        ih fun r hr => h r (List.mem_cons_of_mem _ hr)]
      rfl

/-- The pixel in row `i` and column `j` of the picture. -/
theorem getElem?_data {height : Nat} (hi : i < height) (hj : j < width) :
    (rows file height width).flatten[i * width + j]? = some (pixel file (at_ file i j).toNat) := by
  have hrows : ∀ row ∈ rows file height width, row.length = width := by
    intro row hrow
    obtain ⟨i, -, rfl⟩ := List.mem_map.1 hrow
    rw [List.length_map, List.length_range]
  rw [getElem?_rows hrows hj]
  unfold rows
  rw [List.getElem?_map, List.getElem?_range hi, Option.map_some, Option.bind_some, List.getElem?_map, List.getElem?_range hj]
  rfl

/-! ## The headers -/

section Head

variable (hlen : head.length = HEADERS)
include hlen

theorem byte_head (hk : k < HEADERS) : byte (head ++ body) k = byte head k :=
  List.getD_append _ _ _ _ (by rw [hlen]; exact hk)

theorem byte_body (k : Nat) : byte (head ++ body) (HEADERS + k) = body.getD k 0 := by
  unfold byte
  rw [List.getD_append_right _ _ _ _ (by omega), hlen, Nat.add_sub_cancel_left]

theorem word_head (hk : k + 1 < HEADERS) : word (head ++ body) k = word head k := by
  unfold word
  rw [byte_head hlen (by omega), byte_head hlen hk]

theorem dword_head (hk : k + 3 < HEADERS) : dword (head ++ body) k = dword head k := by
  unfold dword
  rw [word_head hlen (by omega), word_head hlen hk]

theorem bfOffBits_head : bfOffBits (head ++ body) = bfOffBits head := dword_head hlen (by decide)

theorem biWidth_head : biWidth (head ++ body) = biWidth head := congrArg (fun x : Nat => wrap x) (dword_head hlen (by decide))

theorem biHeight_head : biHeight (head ++ body) = biHeight head := congrArg (fun x : Nat => wrap x) (dword_head hlen (by decide))

theorem biBitCount_head : biBitCount (head ++ body) = biBitCount head := word_head hlen (by decide)

theorem Header.append (h : Header head) (body : List UInt8) : Header (head ++ body) where
  type := (word_head hlen (by decide)).trans h.type
  width := by
    rw [biWidth_head hlen]
    exact h.width
  height := by
    rw [biHeight_head hlen]
    exact h.height
  size := by
    rw [biWidth_head hlen, biHeight_head hlen]
    exact h.size
  bitCount := by
    rw [biBitCount_head hlen]
    exact h.bitCount
  compression := (dword_head hlen (by decide)).trans h.compression

theorem plain_head : Plain (head ++ body) ↔ Plain head := by
  rw [plain_iff, plain_iff, bfOffBits_head hlen, biBitCount_head hlen, biWidth_head hlen]

end Head

/-! ## Plain files -/

/-- The sizes of a picture. -/
theorem Header.toNat (h : Header file) : biWidth file = (biWidth file).toNat ∧ biHeight file = (biHeight file).toNat ∧
    0 < (biWidth file).toNat ∧ 0 < (biHeight file).toNat ∧
    (biHeight file).toNat * (4 * (biWidth file).toNat) < 2147483648 := by
  have hwidth := h.width
  have hheight := h.height
  have hsize := h.size
  obtain ⟨w, hw⟩ := Int.eq_ofNat_of_zero_le (Int.le_of_lt hwidth)
  obtain ⟨n, hn⟩ := Int.eq_ofNat_of_zero_le (Int.le_of_lt hheight)
  rw [hw, hn] at hsize ⊢
  simp only [Int.toNat_natCast, true_and]
  have hmul : n * (4 * w) = w * n * 4 := by ring
  refine ⟨by omega, by omega, ?_⟩
  rw [hmul]
  exact_mod_cast hsize

/-- A row has its bytes, and not more than the picture has. -/
theorem Plain.stride_bounds (h : Plain file) (hhead : Header file) :
    3 * (biWidth file).toNat ≤ stride file ∧ stride file ≤ 4 * (biWidth file).toNat := by
  obtain ⟨hwidth, -, hpos, -, -⟩ := hhead.toNat
  unfold stride
  rcases hhead.bitCount with hbits | hbits
  · rw [hbits]
    omega
  · have hone := h.three.resolve_left (by omega)
    rw [hbits, hone]
    decide

theorem Plain.l_width_eq (h : Plain file) (hhead : Header file) : l_width file = stride file := by
  obtain ⟨hwidth, -, hpos, -, -⟩ := hhead.toNat
  have hbits := h.bits
  rw [hwidth] at hbits
  have hcast : ((biWidth file).toNat : Int) * biBitCount file = (((biWidth file).toNat * biBitCount file : Nat) : Int) :=
    (Int.natCast_mul ..).symm
  unfold l_width WIDTHBYTES stride
  rw [hwidth, hcast, Int.toNat_natCast]
  rw [hcast] at hbits
  have hrow : wrap ((biWidth file).toNat * biBitCount file : Nat) = ((biWidth file).toNat * biBitCount file : Nat) :=
    wrap_of_lt (by omega) (by omega)
  rw [hrow, wrap_of_lt (by omega) hbits, Int.tdiv_eq_ediv_of_nonneg (by omega)]
  omega

/-- Every place is inside. -/
theorem Plain.inside (h : Plain file) (hhead : Header file) : nData file = ((biHeight file).toNat * stride file : Nat) ∧
    ∀ i < (biHeight file).toNat, ∀ j < (biWidth file).toNat, at_ file i j = (i * stride file + j * 3 : Nat) ∧
      i * stride file + j * 3 + 2 < (biHeight file).toNat * stride file := by
  obtain ⟨-, hheight, -, -, hsize⟩ := hhead.toNat
  obtain ⟨hlow, hhigh⟩ := h.stride_bounds hhead
  have hmax : (biHeight file).toNat * stride file ≤ (biHeight file).toNat * (4 * (biWidth file).toNat) :=
    Nat.mul_le_mul_left _ hhigh
  refine ⟨?_, fun i hi j hj => ?_⟩
  · unfold nData
    rw [h.l_width_eq hhead, hheight, Int.toNat_natCast, ← Int.natCast_mul]
    exact wrap_of_lt (by omega) (by omega)
  · have hrow : (i + 1) * stride file ≤ (biHeight file).toNat * stride file := Nat.mul_le_mul_right _ hi
    rw [Nat.succ_mul] at hrow
    refine ⟨?_, by omega⟩
    unfold at_
    rw [h.l_width_eq hhead, ← Int.natCast_mul, show (j : Int) * 3 = ((j * 3 : Nat) : Int) by omega, ← Int.natCast_add]
    exact wrap_of_lt (by omega) (by omega)

theorem Plain.right (h : Plain file) (hhead : Header file) (hlen : HEADERS ≤ file.length) : Right file := by
  obtain ⟨hdata, hinside⟩ := h.inside hhead
  have hall : ∀ i < (biHeight file).toNat, ∀ j < (biWidth file).toNat,
      0 ≤ at_ file i j ∧ at_ file i j + 2 < nData file := by
    intro i hi j hj
    obtain ⟨hat, hlt⟩ := hinside i hi j hj
    rw [hat, hdata]
    exact ⟨Int.natCast_nonneg _, by exact_mod_cast hlt⟩
  have hbits : ¬biBitCount file < 24 := by
    have hcases := hhead.bitCount
    omega
  refine ⟨⟨(rows file (biHeight file).toNat (biWidth file).toNat).flatten, biWidth file, biHeight file⟩, ?_, rfl, rfl,
    fun i hi j hj => ⟨pixel file (at_ file i j).toNat, getElem?_data hi hj, ?_⟩⟩
  · have haccept : ¬(file.length < HEADERS ∨ bfType file ≠ 0x4d42) := by
      rw [not_or, not_not]
      exact ⟨Nat.not_lt.2 hlen, hhead.type⟩
    have hpos : ¬nData file < 0 := by
      rw [hdata]
      omega
    unfold loadBitmap
    rw [if_neg haccept, if_neg hpos, if_neg hbits]
    exact if_pos hall
  · have hoff : HEADERS + (at_ file i j).toNat = offset file i j := by
      have hoff := h.behind
      rw [(hinside i hi j hj).1, Int.toNat_natCast]
      unfold offset
      rw [hoff]
      rcases hhead.bitCount with hbits | hbits
      · rw [hbits]
        exact (Nat.add_assoc ..).symm
      · have hone := h.three.resolve_left (by omega)
        rw [hone] at hj
        have hzero : j = 0 := by
          have hj : j < 1 := hj
          omega
        rw [hzero, Nat.zero_mul, Nat.zero_mul]
        exact (Nat.add_assoc ..).symm
    show byte file (HEADERS + (at_ file i j).toNat) = _ ∧ byte file (HEADERS + ((at_ file i j).toNat + 1)) = _ ∧
      byte file (HEADERS + ((at_ file i j).toNat + 2)) = _
    rw [← Nat.add_assoc, ← Nat.add_assoc, hoff]
    exact ⟨rfl, rfl, rfl⟩

/-! ## What a right picture shows -/

theorem Right.inside (h : Right file) : 0 ≤ nData file ∧
    ∀ i < (biHeight file).toNat, ∀ j < (biWidth file).toNat, 0 ≤ at_ file i j ∧ at_ file i j + 2 < nData file := by
  obtain ⟨pic, hload, -⟩ := h
  unfold loadBitmap at hload
  split at hload
  next => cases hload
  next =>
    split at hload
    next => cases hload
    next hpos =>
      split at hload
      next => cases hload
      next =>
        split at hload
        next hall => exact ⟨Int.not_lt.1 hpos, hall⟩
        next => cases hload

/-- What the file says of a pixel is what is loaded. -/
theorem Right.blue (h : Right file) (hi : i < (biHeight file).toNat) (hj : j < (biWidth file).toNat) :
    byte file (HEADERS + (at_ file i j).toNat) = byte file (offset file i j) := by
  obtain ⟨pic, hload, -, -, hpixels⟩ := h
  have hdata : pic.data = (rows file (biHeight file).toNat (biWidth file).toNat).flatten := by
    unfold loadBitmap at hload
    split at hload
    next => cases hload
    next =>
      split at hload
      next => cases hload
      next =>
        split at hload
        next => cases hload
        next =>
          split at hload
          next =>
            exact (congrArg PICNODE.data (Option.some.inj hload)).symm
          next => cases hload
  obtain ⟨q, hq, hblue, -⟩ := hpixels i hi j hj
  rw [hdata, getElem?_data hi hj] at hq
  cases hq
  exact hblue

end NewXv6.Bitmap
