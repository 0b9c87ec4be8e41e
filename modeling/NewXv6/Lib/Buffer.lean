import Mathlib.Data.List.GetD
import Mathlib.Logic.Function.Basic

/-!
# Values in memory

A memory gives every address its value. A list is stored from an address on (`store`), and a string is read up to a value
that ends it (`scan`).
-/

namespace NewXv6.Lib.Buffer

variable {α : Type*} {p : α → Bool} {mem mem' : Nat → α} {data w : List α} {a i j n : Nat}

/-- Store a list from `a` on. -/
def store (mem : Nat → α) (a : Nat) (data : List α) : Nat → α := fun i =>
  if a ≤ i then data.getD (i - a) (mem i) else mem i

theorem store_of_lt (h : i < a) : store mem a data i = mem i := if_neg (Nat.not_le.2 h)

theorem store_of_le (h : a + data.length ≤ i) : store mem a data i = mem i := by
  unfold store
  split
  · exact List.getD_eq_default _ _ (Nat.le_sub_of_add_le' h)
  · rfl

theorem store_add (h : j < data.length) : store mem a data (a + j) = data[j] := by
  unfold store
  rw [if_pos (Nat.le_add_right a j), Nat.add_sub_cancel_left, List.getD_eq_getElem _ _ h]

theorem store_singleton (mem : Nat → α) (a : Nat) (c : α) : store mem a [c] = Function.update mem a c := by
  funext i
  rcases Nat.lt_trichotomy i a with h | rfl | h
  · rw [store_of_lt h, Function.update_of_ne (Nat.ne_of_lt h)]
  · rw [Function.update_self]
    exact store_add (show 0 < [c].length from Nat.succ_pos 0)
  · rw [store_of_le h, Function.update_of_ne (Nat.ne_of_gt h)]

/-- A list stands in memory from `a` on. -/
def At (mem : Nat → α) (a : Nat) (data : List α) : Prop := ∀ j (h : j < data.length), mem (a + j) = data[j]

theorem at_nil : At mem a [] := fun j hj => absurd hj (Nat.not_lt_zero j)

theorem at_store : At (store mem a data) a data := fun _ hj => store_add hj

theorem at_append : At mem a (w ++ data) ↔ At mem a w ∧ At mem (a + w.length) data := by
  constructor
  · intro h
    refine ⟨fun j hj => ?_, fun j hj => ?_⟩
    · rw [h j (by rw [List.length_append]; omega), List.getElem_append_left hj]
    · rw [Nat.add_assoc, h (w.length + j) (by rw [List.length_append]; omega), List.getElem_append_right (by omega)]
      congr 1
      omega
  · rintro ⟨hw, hdata⟩ j hj
    rw [List.length_append] at hj
    rcases Nat.lt_or_ge j w.length with hlt | hge
    · rw [hw j hlt, List.getElem_append_left hlt]
    · have h := hdata (j - w.length) (by omega)
      rw [Nat.add_assoc, Nat.add_sub_of_le hge] at h
      rw [h, List.getElem_append_right hge]

/-- What stands elsewhere stays. -/
theorem At.store (h : At mem a w) (hout : a + w.length ≤ i ∨ i + data.length ≤ a) : At (store mem i data) a w := by
  intro j hj
  rcases hout with hout | hout
  · rw [store_of_lt (by omega), h j hj]
  · rw [store_of_le (by omega), h j hj]

theorem At.congr (h : At mem a w) (heq : ∀ j < w.length, mem' (a + j) = mem (a + j)) : At mem' a w := by
  intro j hj
  rw [heq j hj, h j hj]

/-- The list of `n` values from `a` on. -/
def load (mem : Nat → α) (a n : Nat) : List α := (List.range n).map fun j => mem (a + j)

theorem At.load (h : At mem a w) : load mem a w.length = w := by
  unfold Buffer.load
  refine List.ext_getElem (by rw [List.length_map, List.length_range]) fun j hj hj' => ?_
  rw [List.getElem_map, List.getElem_range, h j hj']

/-- A list behind what is there. -/
theorem store_append (h : At mem a w) : store mem (a + w.length) data = store mem a (w ++ data) := by
  funext i
  rcases Nat.lt_or_ge i a with hlt | hge
  · rw [store_of_lt (by omega), store_of_lt hlt]
  · obtain ⟨j, rfl⟩ := Nat.exists_eq_add_of_le hge
    rcases Nat.lt_or_ge j w.length with hj | hj
    · rw [store_of_lt (by omega), store_add (by rw [List.length_append]; omega), List.getElem_append_left hj, h j hj]
    · rcases Nat.lt_or_ge j (w ++ data).length with hjd | hjd
      · have hlen := hjd
        rw [List.length_append] at hlen
        rw [store_add hjd, List.getElem_append_right hj, show a + j = a + w.length + (j - w.length) by omega,
          store_add (by omega)]
      · have hlen := hjd
        rw [List.length_append] at hlen
        rw [store_of_le (by omega), store_of_le (by omega)]

theorem add_succ (a j : Nat) : a + (j + 1) = a + 1 + j := by omega

/-- The values from `a` on before the first that ends a string; `none` where there is no such value among `n`. -/
def scan (p : α → Bool) (mem : Nat → α) : Nat → Nat → Option (List α)
  | 0, _ => none
  | n + 1, a => if p (mem a) then some [] else (scan p mem n (a + 1)).map (mem a :: ·)

theorem scan_eq_some : scan p mem n a = some w ↔
    w.length < n ∧ (∀ j (h : j < w.length), mem (a + j) = w[j] ∧ p w[j] = false) ∧ p (mem (a + w.length)) = true := by
  induction n generalizing a w with
  | zero => exact iff_of_false nofun fun h => absurd h.1 (Nat.not_lt_zero _)
  | succ n ih =>
    rw [scan]
    split
    next hp =>
      constructor
      · intro h
        cases h
        exact ⟨Nat.succ_pos n, fun j hj => absurd hj (Nat.not_lt_zero j), hp⟩
      · rintro ⟨-, hw, -⟩
        cases w with
        | nil => rfl
        | cons c w =>
          obtain ⟨hc, hfalse⟩ := hw 0 (Nat.succ_pos _)
          rw [← hc] at hfalse
          exact absurd hp (Bool.eq_false_iff.1 hfalse)
    next hp =>
      rw [Option.map_eq_some_iff]
      constructor
      · rintro ⟨v, hv, rfl⟩
        obtain ⟨hlen, hall, hend⟩ := ih.1 hv
        refine ⟨Nat.succ_lt_succ hlen, fun j hj => ?_, ?_⟩
        · cases j with
          | zero => exact ⟨rfl, Bool.eq_false_iff.2 hp⟩
          | succ j =>
            rw [add_succ]
            exact hall j (Nat.lt_of_succ_lt_succ hj)
        · rw [List.length_cons, add_succ]
          exact hend
      · rintro ⟨hlen, hall, hend⟩
        cases w with
        | nil => exact absurd hend hp
        | cons c w =>
          refine ⟨w, ih.2 ⟨Nat.lt_of_succ_lt_succ hlen, fun j hj => ?_, ?_⟩, ?_⟩
          · have h := hall (j + 1) (Nat.succ_lt_succ hj)
            rw [add_succ] at h
            exact h
          · rw [List.length_cons, add_succ] at hend
            exact hend
          · exact congrArg (· :: w) (hall 0 (Nat.succ_pos _)).1

theorem scan_of_at (h : At mem a w) (hw : ∀ c ∈ w, p c = false) (hend : p (mem (a + w.length)) = true) (hlen : w.length < n) :
    scan p mem n a = some w := scan_eq_some.2 ⟨hlen, fun j hj => ⟨h j hj, hw _ (List.getElem_mem hj)⟩, hend⟩

theorem at_of_scan (h : scan p mem n a = some w) :
    At mem a w ∧ (∀ c ∈ w, p c = false) ∧ p (mem (a + w.length)) = true ∧ w.length < n := by
  obtain ⟨hlen, hall, hend⟩ := scan_eq_some.1 h
  refine ⟨fun j hj => (hall j hj).1, fun c hc => ?_, hend, hlen⟩
  obtain ⟨j, hj, rfl⟩ := List.mem_iff_getElem.1 hc
  exact (hall j hj).2

theorem scan_eq_none : scan p mem n a = none ↔ ∀ j < n, p (mem (a + j)) = false := by
  induction n generalizing a with
  | zero => exact iff_of_true rfl fun j hj => absurd hj (Nat.not_lt_zero j)
  | succ n ih =>
    rw [scan]
    split
    next hp => exact iff_of_false nofun fun h => absurd hp (Bool.eq_false_iff.1 (h 0 (Nat.succ_pos n)))
    next hp =>
      rw [Option.map_eq_none_iff, ih]
      constructor
      · intro h j hj
        cases j with
        | zero => exact Bool.eq_false_iff.2 hp
        | succ j =>
          rw [add_succ]
          exact h j (Nat.lt_of_succ_lt_succ hj)
      · intro h j hj
        have hj := h (j + 1) (Nat.succ_lt_succ hj)
        rw [add_succ] at hj
        exact hj

end NewXv6.Lib.Buffer
