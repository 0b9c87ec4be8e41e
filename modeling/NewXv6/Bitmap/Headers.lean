import NewXv6.Bitmap.Load

/-!
# The headers of a bitmap

The loader uses `biWidth`, `biHeight` and `biBitCount`: where they do not say where the pixels are, some file with these
headers is loaded wrong.
-/

namespace NewXv6.Bitmap

variable {head body file : List UInt8} {i j k width : Nat}

/-- `l_width` is never more than the largest `int` gives. -/
theorem l_width_bounds (file : List UInt8) : -268435456 ≤ l_width file ∧ l_width file ≤ 268435452 := by
  unfold l_width WIDTHBYTES
  have hwrap : ∀ x : Int, -2147483648 ≤ wrap x ∧ wrap x < 2147483648 := by
    intro x
    unfold wrap
    omega
  obtain ⟨hlow, hhigh⟩ := hwrap (wrap (biWidth file * biBitCount file) + 31)
  generalize wrap (wrap (biWidth file * biBitCount file) + 31) = v at hlow hhigh
  rcases Int.lt_or_le v 0 with hneg | hpos
  · obtain ⟨u, rfl⟩ : ∃ u, v = -u := ⟨-v, (Int.neg_neg v).symm⟩
    rw [Int.neg_tdiv, Int.tdiv_eq_ediv_of_nonneg (by omega)]
    omega
  · rw [Int.tdiv_eq_ediv_of_nonneg hpos]
    omega

/-- In a few rows of this length some place of the last row is behind the data. -/
theorem last_row {n : Nat} {l : Int} (hn : 0 < n) (hrows : n ≤ 6) (hlow : -268435456 ≤ l) (hhigh : l ≤ 268435452)
    (hpos : 0 ≤ wrap (n * l)) : wrap (n * l) ≤ wrap (((n - 1 : Nat) : Int) * l + (l.toNat / 3 : Nat) * 3) + 2 := by
  obtain ⟨first, hfirst⟩ : ∃ first : Int, ((n - 1 : Nat) : Int) * l = first := ⟨_, rfl⟩
  have hsum : (n : Int) * l = first + l := by
    rw [← hfirst, show (n : Int) = ((n - 1 : Nat) : Int) + 1 by omega, Int.add_mul, Int.one_mul]
  rcases Int.lt_or_le l 0 with hneg | hl
  · -- the size is negative
    have hlow' : 5 * l ≤ first := hfirst ▸ Int.mul_le_mul_of_nonpos_right (by omega) (Int.le_of_lt hneg)
    have hhigh' : first ≤ 0 := hfirst ▸ Int.mul_nonpos_of_nonneg_of_nonpos (by omega) (Int.le_of_lt hneg)
    rw [hsum, wrap_of_lt (by omega) (by omega)] at hpos
    omega
  · have hlow' : 0 ≤ first := hfirst ▸ Int.mul_nonneg (by omega) hl
    have hhigh' : first ≤ 5 * l := hfirst ▸ Int.mul_le_mul_of_nonneg_right (by omega) hl
    rw [hsum, hfirst, wrap_of_lt (by omega) (by omega), wrap_of_lt (by omega) (by omega)]
    omega

/-- A row of more bits than an `int` holds is never loaded. -/
theorem Right.bits (h : Right file) (hhead : Header file) (hthree : biBitCount file = 24 ∨ biWidth file = 1) :
    biWidth file * biBitCount file + 31 < 2147483648 := by
  obtain ⟨hwidth, hheight, hwpos, hhpos, hsize⟩ := hhead.toNat
  by_contra hlong
  have hbits : biBitCount file = 24 := by
    rcases hthree with hbits | hone
    · exact hbits
    · rw [hone] at hlong
      have hcases := hhead.bitCount
      omega
  rw [hbits] at hlong
  obtain ⟨hlow, hhigh⟩ := l_width_bounds file
  obtain ⟨hpos, hinside⟩ := h.inside
  have hrows : (biHeight file).toNat ≤ 6 := by
    by_contra hmany
    have hmul : 7 * (4 * (biWidth file).toNat) ≤ (biHeight file).toNat * (4 * (biWidth file).toNat) :=
      Nat.mul_le_mul_right _ (by omega)
    omega
  have hcolumn : (l_width file).toNat / 3 < (biWidth file).toNat := by omega
  have hlast := (hinside ((biHeight file).toNat - 1) (Nat.sub_one_lt_of_lt hhpos) _ hcolumn).2
  unfold nData at hpos hlast
  unfold at_ at hlast
  rw [hheight, Int.toNat_natCast] at hlast
  rw [hheight] at hpos
  exact absurd (last_row hhpos hrows hlow hhigh hpos) (Int.not_le.2 hlast)

/-- A file long enough for its pixels, with these bytes behind the headers. -/
theorem whole_append (hlen : head.length = HEADERS) (front : List UInt8) (c : UInt8) :
    ∃ n, Whole (head ++ (front ++ List.replicate n c)) ∧ bfOffBits head < n := by
  refine ⟨bfOffBits head + (biHeight head).toNat * stride head + 1, ?_, by omega⟩
  unfold Whole
  rw [bfOffBits_head hlen, biHeight_head hlen]
  have hstride : stride (head ++ (front ++ List.replicate (bfOffBits head + (biHeight head).toNat * stride head + 1) c)) =
      stride head := by
    unfold stride
    rw [biWidth_head hlen, biBitCount_head hlen]
  rw [hstride, List.length_append, List.length_append, List.length_replicate]
  omega

/-- The first row starts at the beginning of the data. -/
theorem at_first (hj : j < 3) : at_ file 0 j = (j * 3 : Nat) := by
  unfold at_
  rw [Int.natCast_zero, Int.zero_mul, Int.zero_add, wrap_of_lt (by omega) (by omega)]
  rfl

theorem Right.behind (hlen : head.length = HEADERS) (hhead : Header head)
    (hright : ∀ body, Whole (head ++ body) → Right (head ++ body)) : bfOffBits head = HEADERS := by
  by_contra hne
  -- the byte behind the headers is another than the file says, and than all behind it
  obtain ⟨x, hx⟩ : ∃ x, x = byte head (bfOffBits head) + 1 := ⟨_, rfl⟩
  obtain ⟨n, hwhole, hn⟩ := whole_append hlen [x] (x + 1)
  have hfile := hhead.append hlen ([x] ++ List.replicate n (x + 1))
  obtain ⟨-, -, hw, hh, -⟩ := hfile.toNat
  have hblue := (hright _ hwhole).blue hh hw
  have hoff : offset (head ++ ([x] ++ List.replicate n (x + 1))) 0 0 = bfOffBits head := by
    unfold offset
    rw [Nat.zero_mul, Nat.zero_mul, Nat.add_zero, bfOffBits_head hlen]
  rw [at_first (by decide), hoff, Int.toNat_natCast, byte_body hlen] at hblue
  have hblue : x = byte (head ++ ([x] ++ List.replicate n (x + 1))) (bfOffBits head) := hblue
  have hsucc : ∀ b : UInt8, b + 1 ≠ b := by
    intro b hb
    have hnat := congrArg UInt8.toNat hb
    rw [UInt8.toNat_add] at hnat
    have hlt := b.toNat_lt
    change (b.toNat + 1) % 256 = b.toNat at hnat
    omega
  rcases Nat.lt_or_ge (bfOffBits head) HEADERS with hlt | hge
  · rw [byte_head hlen hlt] at hblue
    exact hsucc _ (hx.symm.trans hblue)
  · obtain ⟨m, hm⟩ : ∃ m, bfOffBits head = HEADERS + (m + 1) := ⟨bfOffBits head - HEADERS - 1, by omega⟩
    rw [hm, byte_body hlen, List.getD_append_right _ _ _ _ (show [x].length ≤ m + 1 from Nat.le_add_left 1 m)] at hblue
    have hcell : (List.replicate n (x + 1)).getD (m + 1 - [x].length) 0 = x + 1 := by
      rw [List.getD_eq_getElem _ _ (by rw [List.length_replicate]; show m < n; omega), List.getElem_replicate]
    rw [hcell] at hblue
    exact hsucc x hblue.symm

theorem Right.three (hlen : head.length = HEADERS) (hhead : Header head)
    (hright : ∀ body, Whole (head ++ body) → Right (head ++ body)) (hbehind : bfOffBits head = HEADERS) :
    biBitCount head = 24 ∨ biWidth head = 1 := by
  by_contra hboth
  rw [not_or] at hboth
  have hbits := hhead.bitCount.resolve_left hboth.1
  -- the second pixel is read where the last byte of the first stands
  obtain ⟨n, hwhole, hn⟩ := whole_append hlen [0, 0, 0, 0] 1
  have hfile := hhead.append hlen ([0, 0, 0, 0] ++ List.replicate n 1)
  obtain ⟨-, -, -, hh, -⟩ := hfile.toNat
  have hw : 1 < (biWidth (head ++ ([0, 0, 0, 0] ++ List.replicate n 1))).toNat := by
    have hpos := hhead.width
    have hone := hboth.2
    rw [biWidth_head hlen]
    omega
  have hblue := (hright _ hwhole).blue hh hw
  have hoff : offset (head ++ ([0, 0, 0, 0] ++ List.replicate n 1)) 0 1 = HEADERS + 4 := by
    unfold offset
    rw [Nat.zero_mul, Nat.add_zero, Nat.one_mul, bfOffBits_head hlen, biBitCount_head hlen, hbehind, hbits]
  rw [at_first (by decide), hoff, Int.toNat_natCast, byte_body hlen, byte_body hlen] at hblue
  have hcell : ([0, 0, 0, 0] ++ List.replicate n (1 : UInt8)).getD 4 0 = 1 := by
    rw [List.getD_append_right _ _ _ _ (by decide)]
    exact (List.getD_eq_getElem _ _ (by rw [List.length_replicate]; show 0 < n; omega)).trans (List.getElem_replicate _)
  rw [hcell] at hblue
  exact absurd hblue (by decide : (0 : UInt8) ≠ 1)

/-- **loadBitmap** decodes all files with these headers if and only if they are plain. -/
theorem pixels_right (head : List UInt8) (hlen : head.length = HEADERS) (hhead : Header head) :
    (∀ body, Whole (head ++ body) → Right (head ++ body)) ↔ Plain head := by
  constructor
  · intro hright
    have hbehind := Right.behind hlen hhead hright
    have hthree := Right.three hlen hhead hright hbehind
    obtain ⟨n, hwhole, -⟩ := whole_append hlen [] 0
    have hbits := (hright _ hwhole).bits (hhead.append hlen _) (by rwa [biBitCount_head hlen, biWidth_head hlen])
    rw [biBitCount_head hlen, biWidth_head hlen] at hbits
    exact ⟨hbehind, hthree, hbits⟩
  · intro hplain body _
    have hlong : HEADERS ≤ (head ++ body).length := by
      rw [List.length_append, hlen]
      exact Nat.le_add_right _ _
    exact ((plain_head hlen).2 hplain).right (hhead.append hlen body) hlong

/-- The headers of a small picture. -/
def headers (width height bits : UInt8) : List UInt8 :=
  [0x42, 0x4d] ++ (List.replicate 8 0 ++ ([54, 0, 0, 0, 40, 0, 0, 0, width, 0, 0, 0, height, 0, 0, 0, 1, 0, bits, 0] ++
    List.replicate 24 0))

theorem long_headers (width height bits : UInt8) :
    biWidth (headers width height bits) = width.toNat ∧ biHeight (headers width height bits) = height.toNat := by
  have hwidth : dword (headers width height bits) 18 = width.toNat + 256 * 0 + 65536 * (0 + 256 * 0) := rfl
  have hheight : dword (headers width height bits) 22 = height.toNat + 256 * 0 + 65536 * (0 + 256 * 0) := rfl
  have hw := width.toNat_lt
  have hh := height.toNat_lt
  unfold biWidth biHeight long
  rw [hwidth, hheight, wrap_of_lt (by omega) (by omega), wrap_of_lt (by omega) (by omega)]
  exact ⟨rfl, rfl⟩

/-- Two rows of three pixels, with three bytes behind each row. -/
theorem pixels_right_rows : Right (headers 3 2 24 ++
    [1, 2, 3, 4, 5, 6, 7, 8, 9, 0, 0, 0, 11, 12, 13, 14, 15, 16, 17, 18, 19, 0, 0, 0]) := by
  obtain ⟨hwidth, hheight⟩ := long_headers 3 2 24
  have hhead : Header (headers 3 2 24) :=
    ⟨by decide, by rw [hwidth]; decide, by rw [hheight]; decide, by rw [hwidth, hheight]; decide, Or.inl (by decide),
      by decide⟩
  have hplain : Plain (headers 3 2 24) := ⟨by decide, Or.inl (by decide), by rw [hwidth]; decide⟩
  refine (pixels_right (headers 3 2 24) (by decide) hhead).2 hplain _ ?_
  unfold Whole stride
  rw [biHeight_head (by decide), biWidth_head (by decide), hheight, hwidth]
  decide

/-- The second of two pixels with 32 bits. -/
theorem pixels_wrong : ¬∀ file : List UInt8, HEADERS ≤ file.length → Header file → Whole file → Right file := by
  intro h
  obtain ⟨hwidth, hheight⟩ := long_headers 2 1 32
  have hlen : (headers 2 1 32).length = HEADERS := by decide
  have hhead : Header (headers 2 1 32) :=
    ⟨by decide, by rw [hwidth]; decide, by rw [hheight]; decide, by rw [hwidth, hheight]; decide, Or.inr (by decide),
      by decide⟩
  have hwhole : Whole (headers 2 1 32 ++ [1, 2, 3, 4, 5, 6, 7, 8]) := by
    unfold Whole stride
    rw [biHeight_head hlen, biWidth_head hlen, hheight, hwidth]
    decide
  have hright := h _ (by decide) (hhead.append hlen _) hwhole
  have hblue := hright.blue (i := 0) (j := 1) (by rw [biHeight_head hlen, hheight]; decide)
    (by rw [biWidth_head hlen, hwidth]; decide)
  rw [at_first (by decide)] at hblue
  unfold offset at hblue
  rw [Nat.zero_mul] at hblue
  revert hblue
  decide

end NewXv6.Bitmap
