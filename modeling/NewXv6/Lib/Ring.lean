import Mathlib.Data.List.Basic
import Mathlib.Logic.Function.Basic
import Mathlib.Data.Nat.ModEq

/-!
# Ring buffers with counters that wrap

A ring buffer of `n` cells whose two counters, of elements put and elements taken, are words of `w` bits that are never
reset. When `n` divides `2 ^ w` and is less, the counters may wrap: `Ring.Holds r q` says that `r` holds the queue `q`,
and putting and taking keep it.
-/

namespace NewXv6.Lib

/-- `n` cells and the numbers of elements taken and put. -/
structure Ring (α : Type) (n w : Nat) where
  data : Nat → α
  nread : BitVec w
  nwrite : BitVec w

namespace Ring

variable {α : Type} {n w : Nat} (r : Ring α n w)

def empty : Bool := r.nread = r.nwrite

def full : Bool := r.nwrite = r.nread + BitVec.ofNat w n

/-- Stores an element in the next cell. -/
def put (a : α) : Ring α n w :=
  { r with data := Function.update r.data (r.nwrite.toNat % n) a, nwrite := r.nwrite + 1 }

/-- The element in the oldest cell. -/
def front : α := r.data (r.nread.toNat % n)

/-- Drops the oldest element. -/
def take : Ring α n w := { r with nread := r.nread + 1 }

/-- The newest element. -/
def back : α := r.data ((r.nwrite - 1).toNat % n)

/-- Drops the newest element. -/
def unput : Ring α n w := { r with nwrite := r.nwrite - 1 }

/-- `r` holds the elements of `q`, the oldest first. -/
structure Holds (q : List α) : Prop where
  bound : q.length ≤ n
  count : r.nwrite = r.nread + BitVec.ofNat w q.length
  cell : ∀ i (h : i < q.length), r.data ((r.nread.toNat + i) % n) = q[i]

variable {r} {q : List α}

/-- The cell of a counter that is `k` after another. -/
theorem index_mod (hd : n ∣ 2 ^ w) {a i : BitVec w} {k : Nat} (h : i = a + BitVec.ofNat w k) :
    i.toNat % n = (a.toNat + k) % n := by
  rw [h, BitVec.toNat_add, BitVec.toNat_ofNat, Nat.mod_mod_of_dvd _ hd, Nat.add_mod, Nat.mod_mod_of_dvd _ hd,
    ← Nat.add_mod]

theorem Holds.mod_count (hd : n ∣ 2 ^ w) (h : r.Holds q) : r.nwrite.toNat % n = (r.nread.toNat + q.length) % n :=
  index_mod hd h.count

/-- Two elements are in different cells. -/
theorem cell_ne {a i j : Nat} (hi : i < n) (hj : j < n) (hne : i ≠ j) : (a + i) % n ≠ (a + j) % n := by
  intro he
  have hmod : i % n = j % n := Nat.ModEq.add_left_cancel' a he
  rw [Nat.mod_eq_of_lt hi, Nat.mod_eq_of_lt hj] at hmod
  exact hne hmod

/-- The difference of the counters is the number of elements. -/
theorem Holds.length (hw : n < 2 ^ w) (h : r.Holds q) : (r.nwrite - r.nread).toNat = q.length := by
  rw [h.count, BitVec.add_comm, BitVec.add_sub_cancel, BitVec.toNat_ofNat]
  exact Nat.mod_eq_of_lt (lt_of_le_of_lt h.bound hw)

theorem Holds.full_iff (hw : n < 2 ^ w) (h : r.Holds q) : r.full = true ↔ q.length = n := by
  have hlen := h.length hw
  unfold full
  rw [decide_eq_true_iff]
  constructor
  · intro he
    rw [he, BitVec.add_comm, BitVec.add_sub_cancel, BitVec.toNat_ofNat, Nat.mod_eq_of_lt hw] at hlen
    exact hlen.symm
  · intro he
    rw [h.count, he]

theorem Holds.empty_iff (hw : n < 2 ^ w) (h : r.Holds q) : r.empty = true ↔ q = [] := by
  have hlen := h.length hw
  unfold empty
  rw [decide_eq_true_iff]
  constructor
  · intro he
    rw [he, BitVec.sub_self] at hlen
    exact List.length_eq_zero_iff.1 hlen.symm
  · rintro rfl
    rw [h.count]
    simp

/-- An element is put into a ring that is not full. -/
theorem Holds.put (hd : n ∣ 2 ^ w) (h : r.Holds q) (hl : q.length < n) (a : α) : (r.put a).Holds (q ++ [a]) := by
  refine ⟨by rw [List.length_append, List.length_singleton]; omega, ?_, fun i hi => ?_⟩
  · show r.nwrite + 1 = r.nread + BitVec.ofNat w (q ++ [a]).length
    rw [h.count, List.length_append, List.length_singleton, BitVec.ofNat_add, BitVec.add_assoc]
    rfl
  · show Function.update r.data (r.nwrite.toNat % n) a ((r.nread.toNat + i) % n) = _
    rw [h.mod_count hd]
    rw [List.length_append, List.length_singleton] at hi
    rcases Nat.lt_succ_iff_lt_or_eq.1 hi with hi | rfl
    · have hne : (r.nread.toNat + i) % n ≠ (r.nread.toNat + q.length) % n := cell_ne (by omega) hl (Nat.ne_of_lt hi)
      rw [Function.update_of_ne hne, h.cell i hi, List.getElem_append_left hi]
    · rw [Function.update_self, List.getElem_append_right (le_refl _)]
      simp

/-- The oldest element is in front, and after it is taken the rest remains. -/
theorem Holds.take (hd : n ∣ 2 ^ w) {a : α} (h : r.Holds (a :: q)) :
    r.front = a ∧ (r.take).Holds q := by
  have hb := h.bound
  rw [List.length_cons] at hb
  refine ⟨h.cell 0 (by simp), by omega, ?_, fun i hi => ?_⟩
  · show r.nwrite = r.nread + 1 + BitVec.ofNat w q.length
    rw [h.count, List.length_cons, BitVec.add_assoc, Nat.add_comm, BitVec.ofNat_add]
    rfl
  · show r.data (((r.nread + 1).toNat + i) % n) = q[i]
    have hmod : ((r.nread + 1).toNat + i) % n = (r.nread.toNat + (i + 1)) % n := by
      rw [BitVec.toNat_add, Nat.add_mod, Nat.mod_mod_of_dvd _ hd, ← Nat.add_mod]
      have h1 : (1 : BitVec w).toNat % n = 1 % n := by
        rw [show (1 : BitVec w) = BitVec.ofNat w 1 from rfl, BitVec.toNat_ofNat, Nat.mod_mod_of_dvd _ hd]
      rw [Nat.add_assoc, Nat.add_mod, Nat.add_mod (1 : BitVec w).toNat, h1, ← Nat.add_mod 1, ← Nat.add_mod,
        Nat.add_comm 1 i]
    rw [hmod, h.cell (i + 1) (by simpa using hi), List.getElem_cons_succ]

/-- The newest element is at the back, and after it is dropped the rest remains. -/
theorem Holds.unput (hd : n ∣ 2 ^ w) {a : α} (h : r.Holds (q ++ [a])) : r.back = a ∧ (r.unput).Holds q := by
  have hlen : (q ++ [a]).length = q.length + 1 := by simp
  have hb := h.bound
  have hcount : r.nwrite - 1 = r.nread + BitVec.ofNat w q.length := by
    rw [h.count, hlen, BitVec.ofNat_add, ← BitVec.add_assoc]
    exact BitVec.add_sub_cancel _ _
  have hmod : (r.nwrite - 1).toNat % n = (r.nread.toNat + q.length) % n := index_mod hd hcount
  refine ⟨?_, by omega, hcount, fun i hi => ?_⟩
  · show r.data ((r.nwrite - 1).toNat % n) = a
    rw [hmod, h.cell q.length (by omega)]
    simp
  · show r.data ((r.nread.toNat + i) % n) = q[i]
    rw [h.cell i (by omega), List.getElem_append_left hi]

/-- One element is replaced. -/
theorem Holds.set {A B : List α} {x : α} (h : r.Holds (A ++ x :: B)) (y : α) :
    ({ r with data := Function.update r.data ((r.nread.toNat + A.length) % n) y } : Ring α n w).Holds (A ++ y :: B) := by
  have hlen : (A ++ y :: B).length = (A ++ x :: B).length := by simp
  have hbound := h.bound
  rw [List.length_append, List.length_cons] at hbound
  refine ⟨hlen ▸ h.bound, hlen ▸ h.count, fun i hi => ?_⟩
  show Function.update r.data ((r.nread.toNat + A.length) % n) y ((r.nread.toNat + i) % n) = _
  by_cases hne : i = A.length
  · subst hne
    rw [Function.update_self]
    simp
  · rw [hlen, List.length_append, List.length_cons] at hi
    have hcell := h.cell i (by rw [List.length_append, List.length_cons]; exact hi)
    rw [Function.update_of_ne (cell_ne (by omega) (by omega) hne), hcell]
    rcases Nat.lt_or_gt_of_ne hne with hlt | hgt
    · rw [List.getElem_append_left hlt, List.getElem_append_left hlt]
    · obtain ⟨j, rfl⟩ : ∃ j, i = A.length + (j + 1) := ⟨i - A.length - 1, by omega⟩
      simp

end Ring

end NewXv6.Lib
