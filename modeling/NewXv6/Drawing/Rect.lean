import NewXv6.Drawing.Model
import Mathlib.Tactic.ByContra
import Mathlib.Tactic.Push
import Mathlib.Tactic.SplitIfs

/-!
# Rectangles (`drawingAPI.c`)

`fill_rect` takes the first column and row and the sizes as `unsigned int`s, wraps their sums and counts with `int`s. What
it draws is a rectangle again (`fill_rect_eq`), but not always the visible part of the one it was given: a sum that wraps
hides it, and a start from 2^31 on is taken for one left of the window or above it (`fill_rect_exact`).
-/

namespace NewXv6.Drawing

variable {c : Context} {addr : Pixels} {color : UInt16} {S T : Nat → Nat → Bool} {x y mx my bx : Int} {n b s size i : Nat}

theorem word_eq : WORD = 4294967296 := rfl

/-! ## Sets of pixels -/

/-- The pixels of a set in one colour. -/
def painted (c : Context) (color : UInt16) (S : Nat → Nat → Bool) (addr : Pixels) : Pixels := fun i =>
  if i < c.width * c.height ∧ S (i % c.width) (i / c.width) = true then color else addr i

theorem pixel_lt {w h k l : Nat} (hk : k < w) (hl : l < h) : l * w + k < w * h := by
  have hmul : (l + 1) * w ≤ h * w := Nat.mul_le_mul_right w hl
  rw [Nat.add_mul, Nat.one_mul] at hmul
  rw [Nat.mul_comm w h]
  omega

theorem pixel_mod {w k l : Nat} (hk : k < w) : (l * w + k) % w = k := by
  rw [Nat.mul_comm, Nat.mul_add_mod, Nat.mod_eq_of_lt hk]

theorem pixel_div {w k l : Nat} (hk : k < w) : (l * w + k) / w = l := by
  rw [Nat.mul_comm, Nat.mul_add_div (Nat.zero_lt_of_lt hk), Nat.div_eq_of_lt hk, Nat.add_zero]

theorem pixel_eq {w : Nat} (i : Nat) : i / w * w + i % w = i := by
  rw [Nat.mul_comm]
  exact Nat.div_add_mod i w

/-- A place in the buffer is a pixel. -/
theorem pixel_of_lt {w h : Nat} (hi : i < w * h) : i % w < w ∧ i / w < h := by
  have hw : 0 < w := Nat.pos_of_mul_pos_right (Nat.zero_lt_of_lt hi)
  exact ⟨Nat.mod_lt i hw, Nat.div_lt_of_lt_mul hi⟩

theorem painted_pixel {k l : Nat} (hk : k < c.width) (hl : l < c.height) :
    painted c color S addr (l * c.width + k) = if S k l = true then color else addr (l * c.width + k) := by
  rw [painted, pixel_mod hk, pixel_div hk]
  simp only [pixel_lt hk hl, true_and]

theorem painted_outside (h : c.width * c.height ≤ i) : painted c color S addr i = addr i :=
  if_neg fun hin => absurd hin.1 (Nat.not_lt.2 h)

/-- What the pixels are determines the buffer. -/
theorem painted_congr (h : ∀ k l, k < c.width → l < c.height → S k l = T k l) :
    painted c color S addr = painted c color T addr := by
  funext i
  by_cases hi : i < c.width * c.height
  · obtain ⟨hk, hl⟩ := pixel_of_lt hi
    rw [painted, painted, h _ _ hk hl]
  · rw [painted_outside (Nat.le_of_not_lt hi), painted_outside (Nat.le_of_not_lt hi)]

theorem painted_painted : painted c color T (painted c color S addr) = painted c color (fun k l => S k l || T k l) addr := by
  funext i
  simp only [painted, Bool.or_eq_true]
  by_cases hi : i < c.width * c.height
  · by_cases hS : S (i % c.width) (i / c.width) = true
    · by_cases hT : T (i % c.width) (i / c.width) = true
      · rw [if_pos ⟨hi, hT⟩, if_pos ⟨hi, Or.inr hT⟩]
      · rw [if_neg fun h => hT h.2, if_pos ⟨hi, hS⟩, if_pos ⟨hi, Or.inl hS⟩]
    · by_cases hT : T (i % c.width) (i / c.width) = true
      · rw [if_pos ⟨hi, hT⟩, if_pos ⟨hi, Or.inr hT⟩]
      · rw [if_neg fun h => hT h.2, if_neg fun h => hS h.2, if_neg fun h => h.2.elim hS hT]
  · rw [if_neg fun h => hi h.1, if_neg fun h => hi h.1, if_neg fun h => hi h.1]

theorem painted_none (h : ∀ k l, k < c.width → l < c.height → S k l = false) : painted c color S addr = addr := by
  funext i
  refine if_neg fun hin => ?_
  obtain ⟨hk, hl⟩ := pixel_of_lt hin.1
  rw [h _ _ hk hl] at hin
  cases hin.2

/-! ## The loops -/

/-- A point of the `int`s is drawn where it is a pixel. -/
theorem draw_point_eq (hx : -2147483648 ≤ x ∧ x < 2147483648) (hy : -2147483648 ≤ y ∧ y < 2147483648) :
    draw_point c addr (toUnsigned x) (toUnsigned y) color =
      some (painted c color (fun k l => decide ((k : Int) = x ∧ (l : Int) = y)) addr) := by
  have hw := c.width_lt
  have hh := c.height_lt
  rw [draw_point]
  split
  · case isTrue hout =>
    rw [painted_none fun k l hk hl => ?_]
    rw [decide_eq_false_iff_not]
    unfold toUnsigned at hout
    omega
  · case isFalse hxin =>
    split
    · case isTrue hout =>
      rw [painted_none fun k l hk hl => ?_]
      rw [decide_eq_false_iff_not]
      unfold toUnsigned at hout
      omega
    · case isFalse hyin =>
      obtain ⟨k, hk⟩ : ∃ k : Nat, x = k := ⟨x.toNat, by unfold toUnsigned at hxin; omega⟩
      obtain ⟨l, hl⟩ : ∃ l : Nat, y = l := ⟨y.toNat, by unfold toUnsigned at hyin; omega⟩
      have hk' : toUnsigned x = k := by unfold toUnsigned; omega
      have hl' : toUnsigned y = l := by unfold toUnsigned; omega
      rw [hk'] at hxin
      rw [hl'] at hyin
      have hlt := pixel_lt (Nat.lt_of_not_le hxin) (Nat.lt_of_not_le hyin)
      have hfits := c.fits
      have hmod : (l * c.width + k) % WORD = l * c.width + k := Nat.mod_eq_of_lt (by omega)
      dsimp only
      rw [hk', hl', hmod, if_pos hlt]
      congr 1
      funext i
      by_cases hi : i = l * c.width + k
      · rw [hi, Function.update_self, painted_pixel (Nat.lt_of_not_le hxin) (Nat.lt_of_not_le hyin),
          if_pos (decide_eq_true ⟨hk.symm, hl.symm⟩)]
      · rw [Function.update_of_ne hi, painted, if_neg]
        rintro ⟨-, hsame⟩
        obtain ⟨hik, hil⟩ := of_decide_eq_true hsame
        refine hi ?_
        rw [← pixel_eq (w := c.width) i, show i % c.width = k by omega, show i / c.width = l by omega]

/-- A row from column `x` on. -/
theorem fillRow_eq (hx : -2147483648 ≤ x) (hmx : mx < 2147483648) (hy : -2147483648 ≤ y ∧ y < 2147483648)
    (hn : (mx - x).toNat < n) : fillRow c color y mx n x addr =
      some (painted c color (fun k l => decide (x ≤ k ∧ (k : Int) < mx ∧ (l : Int) = y)) addr) := by
  induction n generalizing x addr with
  | zero => exact absurd hn (Nat.not_lt_zero _)
  | succ n ih =>
    rw [fillRow]
    split
    · case isTrue hlt =>
      rw [draw_point_eq ⟨hx, by omega⟩ hy, Option.bind_some, ih (by omega) (by omega), painted_painted]
      congr 1
      refine painted_congr fun k l _ _ => ?_
      rw [← Bool.decide_or]
      exact decide_eq_decide.2 (by omega)
    · case isFalse hge =>
      rw [painted_none fun k l _ _ => decide_eq_false (by omega)]

/-- The rows from `y` on. -/
theorem fillRows_eq (hbx : -2147483648 ≤ bx ∧ bx < 2147483648) (hmx : mx < 2147483648) (hy : -2147483648 ≤ y)
    (hmy : my < 2147483648) (hn : (my - y).toNat < n) : fillRows c color bx mx my n y addr =
      some (painted c color (fun k l => decide ((bx ≤ k ∧ (k : Int) < mx) ∧ y ≤ l ∧ (l : Int) < my)) addr) := by
  induction n generalizing y addr with
  | zero => exact absurd hn (Nat.not_lt_zero _)
  | succ n ih =>
    rw [fillRows]
    split
    · case isTrue hlt =>
      have hrounds : (mx - bx).toNat < WORD + 1 := by
        rw [word_eq]
        omega
      rw [fillRow_eq hbx.1 hmx ⟨hy, by omega⟩ hrounds, Option.bind_some, ih (by omega) (by omega), painted_painted]
      congr 1
      refine painted_congr fun k l _ _ => ?_
      rw [← Bool.decide_or]
      exact decide_eq_decide.2 (by omega)
    · case isFalse hge =>
      rw [painted_none fun k l _ _ => decide_eq_false (by omega)]

/-! ## Rows and columns -/

/-- The columns, or rows, that the loop goes through. -/
def Drawn (b s size k : Nat) : Prop := toInt b ≤ k ∧ (k : Int) < clip size ((b + s) % WORD)

/-- The columns, or rows, of the rectangle. -/
def Inside (b s k : Nat) : Prop := b ≤ k ∧ k < b + s

instance (b s size k : Nat) : Decidable (Drawn b s size k) := inferInstanceAs (Decidable (_ ∧ _))

instance (b s k : Nat) : Decidable (Inside b s k) := inferInstanceAs (Decidable (_ ∧ _))

theorem toInt_bounds (hb : b < WORD) : -2147483648 ≤ toInt b ∧ toInt b < 2147483648 := by
  rw [word_eq] at hb
  unfold toInt
  split <;> omega

theorem clip_bounds (hsize : size < 2147483648) (sum : Nat) : 0 ≤ clip size sum ∧ clip size sum < 2147483648 := by
  unfold clip toInt
  split_ifs <;> omega

/-- **What `fill_rect` draws.** -/
theorem fill_rect_eq {bx bY width height : Nat} (hbx : bx < WORD) (hby : bY < WORD) :
    fill_rect c addr bx bY width height color =
      some (painted c color (fun k l => decide (Drawn bx width c.width k ∧ Drawn bY height c.height l)) addr) := by
  have hx := toInt_bounds hbx
  have hy := toInt_bounds hby
  have hmx := clip_bounds c.width_lt ((bx + width) % WORD)
  have hmy := clip_bounds c.height_lt ((bY + height) % WORD)
  rw [fill_rect]
  refine fillRows_eq hx hmx.2 hy.1 hmy.2 ?_
  rw [word_eq] at *
  omega

/-- The start is an `int` and the sum does not wrap, or the columns are right of the window; or the start is no `int`, and the
sum is the first one that wraps or the window is empty. -/
def Exact (b s size : Nat) : Prop :=
  if b < 2147483648 then b + s < WORD ∨ size ≤ b else size = 0 ∨ b + s = WORD

/-- No column of the rectangle is in the window. -/
def Hidden (b s size : Nat) : Prop := size ≤ b ∨ s = 0

/-- No column is drawn. -/
def Skipped (b s size : Nat) : Prop :=
  if b < 2147483648 then size ≤ b ∨ s = 0 ∨ WORD ≤ b + s else size = 0 ∨ b + s = WORD

theorem exact_iff (hb : b < WORD) (hs : s < WORD) (hsize : size < 2147483648) :
    (∀ k < size, Drawn b s size k ↔ Inside b s k) ↔ Exact b s size := by
  unfold Exact Drawn Inside clip toInt
  rw [word_eq] at *
  constructor
  · intro h
    split
    · have := h b
      split_ifs at this <;> omega
    · have := h 0
      split_ifs at this <;> omega
  · intro h k hk
    split_ifs at h ⊢ <;> omega

theorem hidden_iff : (∀ k < size, ¬Inside b s k) ↔ Hidden b s size := by
  unfold Hidden Inside
  constructor
  · intro h
    have := h b
    omega
  · intro h k hk
    omega

theorem skipped_iff (hb : b < WORD) (hs : s < WORD) (hsize : size < 2147483648) :
    (∀ k < size, ¬Drawn b s size k) ↔ Skipped b s size := by
  unfold Skipped Drawn clip toInt
  rw [word_eq] at *
  constructor
  · intro h
    split
    · have := h b
      split_ifs at this <;> omega
    · have := h 0
      split_ifs at this <;> omega
  · intro h k hk
    split_ifs at h ⊢ <;> omega

/-- Two rectangles of the window are the same if their columns and rows are, or if both are empty. -/
theorem rect_congr {A A' B B' : Nat → Prop} {w h : Nat} :
    (∀ k l, k < w → l < h → (A k ∧ B l ↔ A' k ∧ B' l)) ↔
      ((∀ k < w, A k ↔ A' k) ∧ ∀ l < h, B l ↔ B' l) ∨
        (((∀ k < w, ¬A' k) ∨ ∀ l < h, ¬B' l) ∧ ((∀ k < w, ¬A k) ∨ ∀ l < h, ¬B l)) := by
  constructor
  · intro hsame
    by_cases hempty : (∀ k < w, ¬A' k) ∨ ∀ l < h, ¬B' l
    · refine Or.inr ⟨hempty, ?_⟩
      by_contra hnot
      rw [not_or] at hnot
      obtain ⟨hk, hl⟩ := hnot
      push Not at hk hl
      obtain ⟨k, hkw, hA⟩ := hk
      obtain ⟨l, hlh, hB⟩ := hl
      obtain ⟨hA', hB'⟩ := (hsame k l hkw hlh).1 ⟨hA, hB⟩
      rcases hempty with hempty | hempty
      · exact hempty k hkw hA'
      · exact hempty l hlh hB'
    · rw [not_or] at hempty
      obtain ⟨hk, hl⟩ := hempty
      push Not at hk hl
      obtain ⟨k, hkw, hA'⟩ := hk
      obtain ⟨l, hlh, hB'⟩ := hl
      obtain ⟨hA, hB⟩ := (hsame k l hkw hlh).2 ⟨hA', hB'⟩
      refine Or.inl ⟨fun k' hk' => ?_, fun l' hl' => ?_⟩
      · have hcol := hsame k' l hk' hlh
        exact ⟨fun h => (hcol.1 ⟨h, hB⟩).1, fun h => (hcol.2 ⟨h, hB'⟩).1⟩
      · have hrow := hsame k l' hkw hl'
        exact ⟨fun h => (hrow.1 ⟨hA, h⟩).2, fun h => (hrow.2 ⟨hA', h⟩).2⟩
  · rintro (⟨hk, hl⟩ | ⟨hempty, hskip⟩) k l hkw hlh
    · rw [hk k hkw, hl l hlh]
    · refine iff_of_false (fun h => ?_) fun h => ?_
      · rcases hskip with hskip | hskip
        · exact hskip k hkw h.1
        · exact hskip l hlh h.2
      · rcases hempty with hempty | hempty
        · exact hempty k hkw h.1
        · exact hempty l hlh h.2

/-! ## The rectangle -/

/-- `fill_rect` returns, colours the visible part of the rectangle, taken as unbounded numbers, and changes nothing else. -/
def Filled (c : Context) (bx bY width height : Nat) : Prop :=
  ∀ (addr : Pixels) (color : UInt16), ∃ addr', fill_rect c addr bx bY width height color = some addr' ∧
    (∀ x y, x < c.width → y < c.height → addr' (y * c.width + x) =
      if Inside bx width x ∧ Inside bY height y then color else addr (y * c.width + x)) ∧
    ∀ i, c.width * c.height ≤ i → addr' i = addr i

/-- **`fill_rect` paints the visible part** if and only if columns and rows are both exact, or none is visible and none is
drawn. -/
theorem fill_rect_exact (c : Context) (bx bY width height : Nat) (hbx : bx < WORD) (hby : bY < WORD) (hwidth : width < WORD)
    (hheight : height < WORD) : Filled c bx bY width height ↔
      (Exact bx width c.width ∧ Exact bY height c.height) ∨
        ((Hidden bx width c.width ∨ Hidden bY height c.height) ∧ (Skipped bx width c.width ∨ Skipped bY height c.height)) := by
  rw [← exact_iff hbx hwidth c.width_lt, ← exact_iff hby hheight c.height_lt, ← hidden_iff, ← hidden_iff,
    ← skipped_iff hbx hwidth c.width_lt, ← skipped_iff hby hheight c.height_lt, ← rect_congr]
  constructor
  · intro h k l hk hl
    obtain ⟨addr, heq, hpixels, -⟩ := h (fun _ => 0) 1
    rw [fill_rect_eq hbx hby, Option.some_inj] at heq
    have hpixel := hpixels k l hk hl
    rw [← heq, painted_pixel hk hl] at hpixel
    by_cases hdrawn : Drawn bx width c.width k ∧ Drawn bY height c.height l
    · rw [if_pos (decide_eq_true hdrawn)] at hpixel
      by_contra hnot
      rw [if_neg fun hin => hnot (iff_of_true hdrawn hin)] at hpixel
      cases hpixel
    · rw [if_neg (Bool.eq_false_iff.1 (decide_eq_false hdrawn))] at hpixel
      by_contra hnot
      rw [if_pos (by_contra fun hin => hnot (iff_of_false hdrawn hin))] at hpixel
      cases hpixel
  · intro h addr color
    refine ⟨_, fill_rect_eq hbx hby, fun k l hk hl => ?_, fun i hi => painted_outside hi⟩
    rw [painted_pixel hk hl]
    simp only [decide_eq_true_eq, h k l hk hl]

/-- A window of 600 × 450 points. -/
def finderContext : Context := ⟨600, 450, by decide, by decide, by decide⟩

theorem fill_rect_exact_bar : Filled finderContext 500 400 200 100 :=
  (fill_rect_exact finderContext 500 400 200 100 (by decide) (by decide) (by decide) (by decide)).2
    (Or.inl ⟨Or.inl (by decide), Or.inl (by decide)⟩)

/-- A rectangle far right of the window is drawn across all of it. -/
theorem fill_rect_wide : ¬∀ (c : Context) (bx bY width height : Nat), bx < WORD → bY < WORD → width < WORD → height < WORD →
    Filled c bx bY width height := by
  intro h
  have hcond := (fill_rect_exact finderContext 2147483648 0 10 10 (by decide) (by decide) (by decide) (by decide)).1
    (h finderContext 2147483648 0 10 10 (by decide) (by decide) (by decide) (by decide))
  revert hcond
  unfold Exact Hidden Skipped
  decide

end NewXv6.Drawing
