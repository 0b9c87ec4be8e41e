import Mathlib.Logic.Function.Basic

/-!
# The two memmoves (`string.c`, `ulib.c`)

The kernel's `memmove` copies downwards where the destination overlaps the end of the source; the one of the user library
always copies upwards. Addresses are numbers of 32 bits. A copy upwards reads a byte that it has already written where the
destination begins inside the source (`forward_copied`), so the user's `memmove` is right there only for bytes that repeat
(`memmove_agree`).
-/

namespace NewXv6.Memmove

/-- The number of addresses. -/
def SPACE : Nat := 4294967296

/-- `p++` of an address. -/
def next (p : Nat) : Nat := if p + 1 = SPACE then 0 else p + 1

/-- `--p` of an address. -/
def prev (p : Nat) : Nat := if p = 0 then SPACE - 1 else p - 1

/-- `while(n-- > 0) *d++ = *s++;` -/
def forward : Nat → (Nat → UInt8) → Nat → Nat → Nat → UInt8
  | 0, mem, _, _ => mem
  | n + 1, mem, d, s => forward n (Function.update mem d (mem s)) (next d) (next s)

/-- `while(n-- > 0) *--d = *--s;` -/
def backward : Nat → (Nat → UInt8) → Nat → Nat → Nat → UInt8
  | 0, mem, _, _ => mem
  | n + 1, mem, d, s => backward n (Function.update mem (prev d) (mem (prev s))) (prev d) (prev s)

/-- `memmove` of the kernel, where `n` is unsigned. -/
def kernelMemmove (mem : Nat → UInt8) (dst src n : Nat) : Nat → UInt8 :=
  if src < dst ∧ (src + n) % SPACE > dst then backward n mem ((dst + n) % SPACE) ((src + n) % SPACE)
  else forward n mem dst src

/-- `memmove` of the user library, where `n` is an `int`. -/
def userMemmove (mem : Nat → UInt8) (dst src : Nat) (n : Int) : Nat → UInt8 := forward n.toNat mem dst src

/-- The destination holds what the source held, and nothing else is changed. -/
def moved (mem : Nat → UInt8) (dst src n : Nat) : Nat → UInt8 := fun a =>
  if dst ≤ a ∧ a < dst + n then mem (src + (a - dst)) else mem a

variable {mem : Nat → UInt8} {dst src n a d s k : Nat}

theorem moved_at (h : k < n) : moved mem dst src n (dst + k) = mem (src + k) := by
  rw [moved, if_pos ⟨Nat.le_add_right _ _, Nat.add_lt_add_left h _⟩, Nat.add_sub_cancel_left]

theorem moved_outside (h : a < dst ∨ dst + n ≤ a) : moved mem dst src n a = mem a := if_neg (by omega)

/-! ## Copying upwards -/

theorem forward_succ (hd : d + (n + 1) ≤ SPACE) (hs : s + (n + 1) ≤ SPACE) :
    forward (n + 1) mem d s = forward n (Function.update mem d (mem s)) (d + 1) (s + 1) := by
  cases n with
  | zero => rfl
  | succ n =>
    rw [forward, next, next, if_neg (by omega), if_neg (by omega)]

theorem forward_outside (hd : d + n ≤ SPACE) (hs : s + n ≤ SPACE) (h : a < d ∨ d + n ≤ a) : forward n mem d s a = mem a := by
  induction n generalizing mem d s with
  | zero => rfl
  | succ n ih =>
    rw [forward_succ hd hs, ih (by omega) (by omega) (by omega)]
    exact Function.update_of_ne (by omega) _ _

/-- Each byte is copied from what is there when its turn comes: a byte of the destination, if that is where it is read, is
there already. -/
theorem forward_copied (hd : d + n ≤ SPACE) (hs : s + n ≤ SPACE) (hk : k < n) :
    forward n mem d s (d + k) =
      if d ≤ s + k ∧ s + k < d + k then forward n mem d s (s + k) else mem (s + k) := by
  induction n generalizing mem d s k with
  | zero => exact absurd hk (Nat.not_lt_zero k)
  | succ n ih =>
    rw [forward_succ hd hs]
    have hfirst : forward n (Function.update mem d (mem s)) (d + 1) (s + 1) d = mem s := by
      rw [forward_outside (by omega) (by omega) (by omega)]
      exact Function.update_self ..
    cases k with
    | zero =>
      rw [if_neg (by omega)]
      exact hfirst
    | succ k =>
      have hnext := @ih (Function.update mem d (mem s)) (d + 1) (s + 1) k (show d + 1 + n ≤ SPACE by omega) (show s + 1 + n ≤ SPACE by omega)
        (show k < n by omega)
      rw [show d + (k + 1) = d + 1 + k by omega, hnext, show s + (k + 1) = s + 1 + k by omega]
      by_cases heq : s + 1 + k = d
      · -- the byte that was copied first
        rw [if_neg (by omega), if_pos (by omega), heq, hfirst]
        exact Function.update_self ..
      · by_cases hin : d ≤ s + 1 + k ∧ s + 1 + k < d + 1 + k
        · rw [if_pos hin, if_pos (by omega)]
        · rw [if_neg hin, if_neg (by omega)]
          exact Function.update_of_ne heq _ _

/-- The bytes of the source that the destination overlaps are the ones at its beginning again. -/
def Repeats (mem : Nat → UInt8) (dst src n : Nat) : Prop :=
  src < dst → ∀ i, i + (dst - src) < n → mem (src + i + (dst - src)) = mem (src + i)

theorem forward_moved (hd : dst + n ≤ SPACE) (hs : src + n ≤ SPACE) :
    forward n mem dst src = moved mem dst src n ↔ Repeats mem dst src n := by
  constructor
  · intro heq hlt i hi
    have hcopied := @forward_copied mem n dst src _ hd hs hi
    rw [heq, moved_at hi, if_pos (by omega), show src + (i + (dst - src)) = dst + i by omega, moved_at (by omega)] at hcopied
    rw [← hcopied]
    congr 1
    omega
  · intro hrep
    have hbyte : ∀ k < n, forward n mem dst src (dst + k) = mem (src + k) := by
      intro k
      induction k using Nat.strongRecOn with
      | ind k ih =>
        intro hk
        rw [forward_copied hd hs hk]
        split
        · case isTrue hin =>
          have hlt : src < dst := by omega
          rw [show src + k = dst + (k - (dst - src)) by omega, ih (k - (dst - src)) (by omega) (by omega)]
          have hsame := hrep hlt (k - (dst - src)) (by omega)
          rw [← hsame]
          congr 1
          omega
        · rfl
    funext a
    by_cases hin : dst ≤ a ∧ a < dst + n
    · obtain ⟨k, rfl⟩ := Nat.exists_eq_add_of_le hin.1
      rw [hbyte k (by omega), moved_at (by omega)]
    · rw [forward_outside hd hs (by omega), moved_outside (by omega)]

/-! ## Copying downwards -/

theorem prev_mod (h : k + 1 ≤ SPACE) : prev ((k + 1) % SPACE) = k := by
  unfold prev
  rcases Nat.lt_or_eq_of_le h with hlt | heq
  · rw [Nat.mod_eq_of_lt hlt, if_neg (Nat.succ_ne_zero k), Nat.add_sub_cancel]
  · rw [heq, Nat.mod_self, if_pos rfl]
    omega

theorem backward_moved (hd : dst + n ≤ SPACE) (hs : src + n ≤ SPACE) (h : src < dst) :
    backward n mem ((dst + n) % SPACE) ((src + n) % SPACE) = moved mem dst src n := by
  induction n generalizing mem with
  | zero =>
    funext a
    rw [moved_outside (by omega)]
    rfl
  | succ n ih =>
    have hlast : (dst + n) % SPACE = dst + n := Nat.mod_eq_of_lt (by omega)
    have hlast' : (src + n) % SPACE = src + n := Nat.mod_eq_of_lt (by omega)
    have hrest := @ih (Function.update mem (dst + n) (mem (src + n))) (by omega) (by omega)
    rw [hlast, hlast'] at hrest
    rw [backward, ← Nat.add_assoc, ← Nat.add_assoc, prev_mod (by omega), prev_mod (by omega), hrest]
    funext a
    by_cases hin : dst ≤ a ∧ a < dst + n
    · obtain ⟨k, rfl⟩ := Nat.exists_eq_add_of_le hin.1
      rw [moved_at (by omega), moved_at (by omega)]
      -- the bytes below have not been written yet
      exact Function.update_of_ne (by omega) _ _
    · rw [moved_outside (by omega)]
      by_cases ha : a = dst + n
      · rw [ha, moved_at (Nat.lt_succ_self n)]
        exact Function.update_self ..
      · rw [moved_outside (by omega)]
        exact Function.update_of_ne ha _ _

/-- **The kernel's `memmove`** is right for every overlap. -/
theorem kernel_moved (mem : Nat → UInt8) (hd : dst + n ≤ SPACE) (hs : src + n ≤ SPACE) :
    kernelMemmove mem dst src n = moved mem dst src n := by
  rw [kernelMemmove]
  split
  · case isTrue hover => exact backward_moved hd hs hover.1
  · case isFalse hover =>
    refine (forward_moved hd hs).2 fun hlt i hi => ?_
    -- then the source ends before the destination begins: its end is no address that wraps
    have hend : (src + n) % SPACE = src + n := Nat.mod_eq_of_lt (by omega)
    rw [hend] at hover
    omega

/-- **The two memmoves agree** on what `memmove` is for if and only if the bytes that the user's one overwrites before it reads
them repeat. -/
theorem memmove_agree (mem : Nat → UInt8) (dst src n : Nat) (_ : n < 2147483648) (hsrc : src + n ≤ SPACE)
    (hdst : dst + n ≤ SPACE) :
    (kernelMemmove mem dst src n = moved mem dst src n ∧ userMemmove mem dst src n = moved mem dst src n) ↔
      Repeats mem dst src n := by
  rw [and_iff_right (kernel_moved mem hdst hsrc), ← forward_moved hdst hsrc]
  rfl

/-- The destination begins before the source. -/
theorem memmove_agree_down : kernelMemmove UInt8.ofNat 4 8 16 = moved UInt8.ofNat 4 8 16 ∧
    userMemmove UInt8.ofNat 4 8 (16 : Nat) = moved UInt8.ofNat 4 8 16 :=
  (memmove_agree UInt8.ofNat 4 8 16 (by decide) (by decide) (by decide)).2 fun h => absurd h (by decide)

/-- Two bytes are moved up by one. -/
theorem memmove_differ : ¬∀ (mem : Nat → UInt8) (dst src n : Nat), n < 2147483648 → src + n ≤ SPACE → dst + n ≤ SPACE →
    kernelMemmove mem dst src n = moved mem dst src n ∧ userMemmove mem dst src n = moved mem dst src n := by
  intro h
  have huser := (h (fun a => if a = 0 then 1 else 0) 1 0 2 (by decide) (by decide) (by decide)).2
  have htwo := congrFun huser 2
  revert htwo
  decide

end NewXv6.Memmove
