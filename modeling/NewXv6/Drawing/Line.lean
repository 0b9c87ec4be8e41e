import NewXv6.Drawing.Model
import Mathlib.Tactic.ByContra

/-!
# Lines (`drawingAPI.c`)

`draw_line` goes one pixel at a time along the longer side `M` of a line, and steps the other coordinate by the slope
`(m + 1) / (M + 1)`, cut to 10 bits, where `m` is the shorter side. A coordinate that rises ends at the right pixel if and
only if the cut slope is not below `m / M` (`Reaches`); one that falls is rounded down too, and so it ends there if and only
if the cut slope is not above `m / M` (`Stops`). All else that is asked of a line holds of every line (`line_joined`).
-/

namespace NewXv6.Drawing

/-! ## The slope -/

/-- A number of 10 bits behind the point is between the slopes `m / M` and `(m + 1) / (M + 1)`. -/
def Reaches (m M : Int) : Prop := ∃ k, 1024 * m ≤ k * M ∧ k * (M + 1) ≤ 1024 * (m + 1)

/-- No number of 10 bits behind the point is above the slope `m / M` and not above `(m + 1) / (M + 1)`. -/
def Stops (m M : Int) : Prop := ¬∃ k, 1024 * m < k * M ∧ k * (M + 1) ≤ 1024 * (m + 1)

/-- The slope of `draw_line`, without its sign. -/
def slope (m M : Int) : Int := (m + 1) * 1024 / (M + 1)

variable {m M k : Int}

theorem le_slope (hM : 0 ≤ M) : k ≤ slope m M ↔ k * (M + 1) ≤ 1024 * (m + 1) := by
  rw [slope, Int.le_ediv_iff_mul_le (by omega), Int.mul_comm 1024]

theorem slope_mul (hM : 0 ≤ M) : slope m M * (M + 1) ≤ 1024 * (m + 1) ∧ 1024 * (m + 1) - M ≤ slope m M * (M + 1) := by
  have hlow : ¬slope m M + 1 ≤ slope m M := by omega
  rw [le_slope hM, Int.add_mul] at hlow
  exact ⟨(le_slope hM).1 (Int.le_refl _), by omega⟩

theorem slope_nonneg (hm : 0 ≤ m) (hM : 0 ≤ M) : 0 ≤ slope m M := (le_slope hM).2 (by omega)

theorem slope_le (hM : 0 ≤ M) (hmM : m ≤ M) : slope m M ≤ 1024 := by
  by_contra hlt
  have hmul := (le_slope (m := m) hM).1 (show 1025 ≤ slope m M by omega)
  omega

theorem reaches_iff (hM : 0 ≤ M) : Reaches m M ↔ 1024 * m ≤ slope m M * M := by
  constructor
  · rintro ⟨k, hlow, hhigh⟩
    have hle : k * M ≤ slope m M * M := Int.mul_le_mul_of_nonneg_right ((le_slope hM).2 hhigh) hM
    omega
  · intro h
    exact ⟨slope m M, h, (slope_mul hM).1⟩

theorem stops_iff (hM : 0 ≤ M) : Stops m M ↔ slope m M * M ≤ 1024 * m := by
  constructor
  · intro h
    by_contra hlt
    exact h ⟨slope m M, by omega, (slope_mul hM).1⟩
  · rintro h ⟨k, hlow, hhigh⟩
    have hle : k * M ≤ slope m M * M := Int.mul_le_mul_of_nonneg_right ((le_slope hM).2 hhigh) hM
    omega

/-! ## The coordinates -/

/-- The coordinate after `i` steps of `d / 1024` from `a`. -/
def coord (a d : Int) (i : Nat) : Int := (a * 1024 + i * d) / 1024

/-- What is asked of a coordinate that goes from `a` to `b` in `n` steps. -/
structure Goes (a b d : Int) (n : Nat) : Prop where
  box : ∀ i ≤ n, min a b ≤ coord a d i ∧ coord a d i ≤ max a b
  step : ∀ i < n, (coord a d (i + 1) - coord a d i).natAbs ≤ 1
  last : coord a d n = b

variable {a b d : Int} {n i : Nat}

theorem coord_step (hlow : -1024 ≤ d) (hhigh : d ≤ 1024) (i : Nat) : (coord a d (i + 1) - coord a d i).natAbs ≤ 1 := by
  have hmul : ((i + 1 : Nat) : Int) * d = i * d + d := by
    rw [Int.natCast_add, Int.add_mul, Int.natCast_one, Int.one_mul]
  unfold coord
  rw [hmul]
  omega

theorem coord_mono (hd : 0 ≤ d) (h : i ≤ n) : coord a d i ≤ coord a d n := by
  have hmul : (i : Int) * d ≤ n * d := Int.mul_le_mul_of_nonneg_right (by omega) hd
  unfold coord
  omega

theorem coord_anti (hd : d ≤ 0) (h : i ≤ n) : coord a d n ≤ coord a d i := by
  have hmul : (n : Int) * d ≤ i * d := Int.mul_le_mul_of_nonpos_right (by omega) hd
  unfold coord
  omega

theorem coord_zero (a d : Int) : coord a d 0 = a := by
  unfold coord
  rw [Int.natCast_zero, Int.zero_mul]
  omega

/-- A coordinate whose steps have one direction is where it has to be if it ends there. -/
theorem goes_iff (hlow : -1024 ≤ d) (hhigh : d ≤ 1024) : Goes a b d n ↔ coord a d n = b := by
  refine ⟨Goes.last, fun hlast => ⟨fun i hi => ?_, fun i _ => coord_step hlow hhigh i, hlast⟩⟩
  rcases Int.le_total 0 d with hd | hd
  · have hfirst := coord_mono (a := a) hd (Nat.zero_le i)
    have hnext := coord_mono (a := a) hd hi
    rw [coord_zero] at hfirst
    omega
  · have hfirst := coord_anti (a := a) hd (Nat.zero_le i)
    have hnext := coord_anti (a := a) hd hi
    rw [coord_zero] at hfirst
    omega

/-- The side along which each step is a pixel. -/
theorem goes_major (a b : Int) : Goes a b (if b > a then 1024 else -1024) (b - a).natAbs := by
  refine (goes_iff (by split <;> omega) (by split <;> omega)).2 ?_
  unfold coord
  split <;> omega

/-- The step of the other side. -/
def minorStep (a b len : Int) : Int := if b ≥ a then ((b - a + 1) * 1024).tdiv len else ((b - a - 1) * 1024).tdiv len

theorem minorStep_rise (h : a ≤ b) : minorStep a b (M + 1) = slope (b - a) M := by
  rw [minorStep, if_pos h, slope, Int.tdiv_eq_ediv_of_nonneg (by omega)]

theorem minorStep_fall (h : b < a) : minorStep a b (M + 1) = -slope (a - b) M := by
  have hneg : (b - a - 1) * 1024 = -((a - b + 1) * 1024) := by omega
  rw [minorStep, if_neg (by omega), slope, hneg, Int.neg_tdiv, Int.tdiv_eq_ediv_of_nonneg (by omega)]

/-- When a coordinate that goes from `a` to `b` in `M` steps ends at `b`. -/
def Met (a b M : Int) : Prop := if a ≤ b then Reaches (b - a) M else Stops (a - b) M

theorem minorStep_bounds (hle : (b - a).natAbs ≤ n) : -1024 ≤ minorStep a b (n + 1) ∧ minorStep a b (n + 1) ≤ 1024 := by
  by_cases hab : a ≤ b
  · rw [minorStep_rise hab]
    have hlow := slope_nonneg (m := b - a) (M := n) (by omega) (by omega)
    have hhigh := slope_le (m := b - a) (M := n) (by omega) (by omega)
    omega
  · rw [minorStep_fall (by omega)]
    have hlow := slope_nonneg (m := a - b) (M := n) (by omega) (by omega)
    have hhigh := slope_le (m := a - b) (M := n) (by omega) (by omega)
    omega

/-- Where the other side ends. -/
theorem coord_minor (hle : (b - a).natAbs ≤ n) (hn : n ≤ 1023) : coord a (minorStep a b (n + 1)) n = b ↔ Met a b n := by
  by_cases hab : a ≤ b
  · rw [Met, if_pos hab, minorStep_rise hab, reaches_iff (by omega), coord, Int.mul_comm (n : Int)]
    have hlow := slope_nonneg (m := b - a) (M := n) (by omega) (by omega)
    have hmul := (slope_mul (m := b - a) (M := n) (by omega)).1
    have hexp : slope (b - a) n * (n + 1) = slope (b - a) n * n + slope (b - a) n := by rw [Int.mul_add, Int.mul_one]
    have hflat : slope (b - a) n = 0 → slope (b - a) n * n = 0 := fun hzero => by rw [hzero, Int.zero_mul]
    omega
  · rw [Met, if_neg hab, minorStep_fall (by omega), stops_iff (by omega), coord, Int.mul_neg, Int.mul_comm (n : Int)]
    have hhigh := slope_le (m := a - b) (M := n) (by omega) (by omega)
    have hmul := (slope_mul (m := a - b) (M := n) (by omega)).2
    have hexp : slope (a - b) n * (n + 1) = slope (a - b) n * n + slope (a - b) n := by rw [Int.mul_add, Int.mul_one]
    -- sides below 1024 pixels: the coordinate never ends before `b`
    omega

/-! ## The line -/

/-- A line joins its endpoints: it has both, is in their box, and goes on by at most one pixel in each direction. -/
structure Joined (points : List (Int × Int)) (x0 y0 x1 y1 : Int) : Prop where
  first : (x0, y0) ∈ points
  last : (x1, y1) ∈ points
  box : ∀ p ∈ points, (min x0 x1 ≤ p.1 ∧ p.1 ≤ max x0 x1) ∧ min y0 y1 ≤ p.2 ∧ p.2 ≤ max y0 y1
  step : ∀ (i : Nat) (p q : Int × Int), points[i]? = some p → points[i + 1]? = some q →
    (q.1 - p.1).natAbs ≤ 1 ∧ (q.2 - p.2).natAbs ≤ 1

theorem linePoints_eq (len : Nat) (x y dx dy : Int) :
    linePoints len x y dx dy =
    (List.range len).map fun i : Nat => ((x + i * dx) / 1024, (y + i * dy) / 1024) := by
  induction len generalizing x y with
  | zero => rfl
  | succ len ih =>
    rw [linePoints, ih, List.range_succ_eq_map, List.map_cons, List.map_map]
    congr 1
    · rw [Int.shiftRight_eq_div_pow, Int.shiftRight_eq_div_pow, Int.natCast_zero, Int.zero_mul, Int.zero_mul, Int.add_zero,
        Int.add_zero]
      rfl
    · refine List.map_congr_left fun i _ => ?_
      have hx : x + dx + i * dx = x + (i + 1 : Nat) * dx := by
        rw [Int.natCast_add, Int.add_mul, Int.natCast_one, Int.one_mul]
        omega
      have hy : y + dy + i * dy = y + (i + 1 : Nat) * dy := by
        rw [Int.natCast_add, Int.add_mul, Int.natCast_one, Int.one_mul]
        omega
      rw [hx, hy]
      rfl

/-- The points of two coordinates. -/
def track (x0 y0 dx dy : Int) (n : Nat) : List (Int × Int) :=
  (List.range (n + 1)).map fun i => (coord x0 dx i, coord y0 dy i)

theorem mem_track {p : Int × Int} {x0 y0 dx dy : Int} :
    p ∈ track x0 y0 dx dy n ↔ ∃ i ≤ n, p = (coord x0 dx i, coord y0 dy i) := by
  rw [track, List.mem_map]
  constructor
  · rintro ⟨i, hi, rfl⟩
    exact ⟨i, Nat.le_of_lt_succ (List.mem_range.1 hi), rfl⟩
  · rintro ⟨i, hi, rfl⟩
    exact ⟨i, List.mem_range.2 (Nat.lt_succ_of_le hi), rfl⟩

theorem getElem?_track {p : Int × Int} {x0 y0 dx dy : Int} (h : (track x0 y0 dx dy n)[i]? = some p) :
    i ≤ n ∧ p = (coord x0 dx i, coord y0 dy i) := by
  rw [track, List.getElem?_map, Option.map_eq_some_iff] at h
  obtain ⟨j, hj, rfl⟩ := h
  obtain ⟨hlt, hij⟩ := List.getElem?_eq_some_iff.1 hj
  rw [List.getElem_range] at hij
  rw [List.length_range] at hlt
  exact ⟨Nat.le_of_lt_succ hlt, by rw [hij]⟩

variable {x0 y0 x1 y1 dx dy : Int}

theorem joined_track (hx : Goes x0 x1 dx n) (hy : Goes y0 y1 dy n) : Joined (track x0 y0 dx dy n) x0 y0 x1 y1 where
  first := mem_track.2 ⟨0, Nat.zero_le n, by rw [coord_zero, coord_zero]⟩
  last := mem_track.2 ⟨n, Nat.le_refl n, by rw [hx.last, hy.last]⟩
  box p hp := by
    obtain ⟨i, hi, rfl⟩ := mem_track.1 hp
    exact ⟨hx.box i hi, hy.box i hi⟩
  step i p q hp hq := by
    obtain ⟨-, rfl⟩ := getElem?_track hp
    obtain ⟨hi, rfl⟩ := getElem?_track hq
    exact ⟨hx.step i hi, hy.step i hi⟩

/-- A coordinate that goes a pixel at a time is at its end after the last step only. -/
theorem coord_major (h : coord a (if b > a then 1024 else -1024) i = b) : i = (b - a).natAbs := by
  unfold coord at h
  split at h <;> omega

/-- The coordinates of the points of a line. -/
theorem line_eq (x0 y0 x1 y1 : Int) : line x0 y0 x1 y1 =
    if (y1 - y0).natAbs ≤ (x1 - x0).natAbs then
      track x0 y0 (if x1 > x0 then 1024 else -1024) (minorStep y0 y1 ((x1 - x0).natAbs + 1)) (x1 - x0).natAbs
    else
      track x0 y0 (minorStep x0 x1 ((y1 - y0).natAbs + 1)) (if y1 > y0 then 1024 else -1024) (y1 - y0).natAbs := by
  have habs : ∀ d : Int, (if d < 0 then -d else d) = d.natAbs := fun d => by split <;> omega
  have hlen : ∀ k : Nat, ((k : Int) + 1).toNat = k + 1 := fun k => by omega
  simp only [line, habs, ge_iff_le, Int.ofNat_le, hlen, linePoints_eq]
  split <;> rfl

/-- **A line joins its endpoints** if and only if the slope of its shorter side, cut to 10 bits, is on the right side of the
slope between them. -/
theorem line_joined (x0 y0 x1 y1 : Int) (hx0 : 0 ≤ x0 ∧ x0 ≤ 1023) (hy0 : 0 ≤ y0 ∧ y0 ≤ 1023) (hx1 : 0 ≤ x1 ∧ x1 ≤ 1023)
    (hy1 : 0 ≤ y1 ∧ y1 ≤ 1023) : Joined (line x0 y0 x1 y1) x0 y0 x1 y1 ↔
      if (y1 - y0).natAbs ≤ (x1 - x0).natAbs then Met y0 y1 (x1 - x0).natAbs else Met x0 x1 (y1 - y0).natAbs := by
  rw [line_eq]
  split
  · case isTrue hmajor =>
    have hstep := minorStep_bounds hmajor
    rw [← coord_minor hmajor (by omega)]
    constructor
    · intro h
      obtain ⟨i, -, heq⟩ := mem_track.1 h.last
      obtain ⟨hx, hy⟩ := Prod.mk.inj heq
      rw [coord_major hx.symm] at hy
      exact hy.symm
    · intro h
      exact joined_track (goes_major x0 x1) ((goes_iff hstep.1 hstep.2).2 h)
  · case isFalse hmajor =>
    have hle : (x1 - x0).natAbs ≤ (y1 - y0).natAbs := Nat.le_of_lt (Nat.lt_of_not_le hmajor)
    have hstep := minorStep_bounds hle
    rw [← coord_minor hle (by omega)]
    constructor
    · intro h
      obtain ⟨i, -, heq⟩ := mem_track.1 h.last
      obtain ⟨hx, hy⟩ := Prod.mk.inj heq
      rw [coord_major hy.symm] at hx
      exact hx.symm
    · intro h
      exact joined_track ((goes_iff hstep.1 hstep.2).2 h) (goes_major y0 y1)

theorem line_joined_diagonal : Joined (line 3 700 703 0) 3 700 703 0 := by
  refine (line_joined 3 700 703 0 (by decide) (by decide) (by decide) (by decide)).2 ?_
  rintro ⟨k, hlow, hhigh⟩
  revert hlow hhigh
  show 1024 * 700 < k * 700 → k * 701 ≤ 1024 * 701 → False
  omega

/-- A line that falls by one pixel in ten ends one pixel too low. -/
theorem line_overshoots : ¬∀ x0 y0 x1 y1 : Int, 0 ≤ x0 ∧ x0 ≤ 1023 → 0 ≤ y0 ∧ y0 ≤ 1023 → 0 ≤ x1 ∧ x1 ≤ 1023 →
    0 ≤ y1 ∧ y1 ≤ 1023 → Joined (line x0 y0 x1 y1) x0 y0 x1 y1 := by
  intro h
  have hlast := (h 0 1 10 0 (by decide) (by decide) (by decide) (by decide)).last
  revert hlast
  decide

end NewXv6.Drawing
