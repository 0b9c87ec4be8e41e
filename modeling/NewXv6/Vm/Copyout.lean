import NewXv6.Vm.Exec

/-!
# What `copyout` copies (`vm.c`)

`copyout` goes page by page, and `uva2ka` uses what `walkpgdir` returns without a test. `copyout_run` says how the loop
ends in the order in which it comes to the bytes: all of them may be stored, or the first one that may not has a PTE, or it
has none and a null pointer is used as one.
-/

namespace NewXv6.Vm.Load

open Lib

/-- The process may use the byte at virtual address `x`. -/
def UserAt (d : Pgdir) (x : Nat) : Prop := (userPte d (x / PGSIZE)).any Pte.user = true

/-- Where the byte at virtual address `x` is. -/
def spot (d : Pgdir) (x : Nat) : Option (Page × Nat) := (userPte d (x / PGSIZE)).map fun q => (q.page, x % PGSIZE)

/-- The first byte from `x` on that may not be used has a page table, if there is one among the next `n`. -/
def TableAt (d : Pgdir) (x n : Nat) : Prop :=
  ∀ i < n, (∀ j < i, UserAt d (x + j)) → (d.table (Pgdir.pdx ((x + i) / PGSIZE))).isSome = true

/-- The bytes `p` are stored from `x` on, and no others; of two bytes for one place the later one stays. -/
def Stored (d : Pgdir) (x : Nat) (p : List UInt8) (mem mem' : Mem) : Prop := ∀ q o,
  (∃ i < p.length, spot d (x + i) = some (q, o) ∧ mem' q o = p.getD i 0) ∨
    (∀ i < p.length, spot d (x + i) ≠ some (q, o)) ∧ mem' q o = mem q o

/-- How the loop ends that copies `p` to `x`. -/
inductive Copies (d : Pgdir) (x : Nat) (p : List UInt8) (w : World) :
    Except Stop ((Pgdir × Bool) × World) × List Event → Prop
  | all (mem : Mem) (user : ∀ i < p.length, UserAt d (x + i)) (table : TableAt d x p.length)
      (stored : Stored d x p w.mem mem) : Copies d x p w (.ok ((d, true), { w with mem }), [])
  | part (mem : Mem) (user : ¬∀ i < p.length, UserAt d (x + i)) (table : TableAt d x p.length) :
      Copies d x p w (.ok ((d, false), { w with mem }), [])
  | null (r : Except Stop ((Pgdir × Bool) × World)) (t : List Event) (table : ¬TableAt d x p.length) (wild : t ≠ []) :
      Copies d x p w (r, t)

section

variable {d : Pgdir} {x n : Nat} {p : List UInt8} {w : World}

theorem userAt_iff {q : Pte} (h : userPte d (x / PGSIZE) = some q) : UserAt d x ↔ q.user = true := by
  unfold UserAt
  rw [h]
  rfl

/-- A page whose bytes may be used has a page table, and it is below `KERNBASE`. -/
theorem UserAt.table (h : UserAt d x) : x < KERNBASE ∧ (d.table (Pgdir.pdx (x / PGSIZE))).isSome = true := by
  unfold UserAt userPte at h
  split at h
  · next hlt =>
    have hlt' : x / 4096 * 4096 < 0x80000000 := hlt
    refine ⟨show x < 0x80000000 by omega, ?_⟩
    cases hd : d.table (Pgdir.pdx (x / PGSIZE)) with
    | none =>
      rw [hd] at h
      cases h
    | some pt => rfl
  · cases h

/-- The bytes of one page. -/
theorem userAt_congr {y : Nat} (h : y / PGSIZE = x / PGSIZE) : UserAt d y ↔ UserAt d x := by
  unfold UserAt
  rw [h]

/-- The `k` bytes up to the end of a page may be used; the rest is about those that follow. -/
theorem tableAt_drop {k : Nat} (hk : k ≤ n) (huser : ∀ i < k, UserAt d (x + i)) :
    TableAt d x n ↔ TableAt d (x + k) (n - k) := by
  constructor
  · intro h i hi hbefore
    have := h (k + i) (by omega) fun j hj => ?_
    · rwa [← Nat.add_assoc] at this
    · by_cases hjk : j < k
      · exact huser j hjk
      · have := hbefore (j - k) (by omega)
        rwa [show x + k + (j - k) = x + j by omega] at this
  · intro h i hi hbefore
    by_cases hik : i < k
    · exact (huser i hik).table.2
    · have := h (i - k) (by omega) fun j hj => ?_
      · rwa [show x + k + (i - k) = x + i by omega] at this
      · have := hbefore (k + j) (by omega)
        rwa [← Nat.add_assoc] at this

theorem userAt_drop {k : Nat} (hk : k ≤ n) (huser : ∀ i < k, UserAt d (x + i)) :
    (∀ i < n, UserAt d (x + i)) ↔ ∀ i < n - k, UserAt d (x + k + i) := by
  constructor
  · intro h i hi
    rw [Nat.add_assoc]
    exact h (k + i) (by omega)
  · intro h i hi
    by_cases hik : i < k
    · exact huser i hik
    · have := h (i - k) (by omega)
      rwa [show x + k + (i - k) = x + i by omega] at this

/-- The bytes of one page are stored, then the rest. -/
theorem Stored.cons {k : Nat} {q : Pte} {mem mem' : Mem} (hq : userPte d (x / PGSIZE) = some q) (hk : k ≤ p.length)
    (hpage : ∀ i < k, (x + i) / PGSIZE = x / PGSIZE)
    (h : Stored d (x + k) (p.drop k) (setBytes q.page (x % PGSIZE) (p.take k) mem) mem') : Stored d x p mem mem' := by
  have hspot : ∀ i < k, spot d (x + i) = some (q.page, x % PGSIZE + i) := by
    intro i hi
    have hdiv : (x + i) / 4096 = x / 4096 := hpage i hi
    unfold spot
    rw [hpage i hi, hq, Option.map_some]
    have hmod : (x + i) % PGSIZE = x % PGSIZE + i := by
      show (x + i) % 4096 = x % 4096 + i
      omega
    rw [hmod]
  intro r o
  rcases h r o with ⟨i, hi, hp, hval⟩ | ⟨hno, hval⟩
  · rw [List.length_drop] at hi
    refine Or.inl ⟨k + i, by omega, ?_, ?_⟩
    · rw [← Nat.add_assoc]
      exact hp
    · rw [hval, List.getD_eq_getElem?_getD, List.getD_eq_getElem?_getD, List.getElem?_drop]
  · by_cases hin : r = q.page ∧ x % PGSIZE ≤ o ∧ o < x % PGSIZE + k
    · obtain ⟨rfl, hlo, hhi⟩ := hin
      refine Or.inl ⟨o - x % PGSIZE, by omega, ?_, ?_⟩
      · rw [hspot _ (by omega), Nat.add_sub_cancel' hlo]
      · rw [hval]
        unfold setBytes
        rw [Function.update_self, List.length_take, Nat.min_eq_left hk, if_pos ⟨hlo, hhi⟩, List.getD_eq_getElem?_getD,
          List.getD_eq_getElem?_getD, List.getElem?_take_of_lt (by omega)]
    · refine Or.inr ⟨fun i hi hp => ?_, ?_⟩
      · by_cases hik : i < k
        · rw [hspot i hik] at hp
          cases hp
          exact hin ⟨rfl, Nat.le_add_right _ _, Nat.add_lt_add_left hik _⟩
        · have := hno (i - k) (by rw [List.length_drop]; omega)
          rw [show x + k + (i - k) = x + i by omega] at this
          exact this hp
      · rw [hval]
        unfold setBytes
        by_cases hr : r = q.page
        · rw [hr, Function.update_self, List.length_take, Nat.min_eq_left hk, if_neg fun hc => hin ⟨hr, hc⟩]
        · rw [Function.update_of_ne hr]

/-- Where nothing is copied does not matter. -/
theorem Copies.nil {r : Except Stop ((Pgdir × Bool) × World) × List Event} (h : Copies d x [] w r) (y : Nat) :
    Copies d y [] w r := by
  cases h with
  | all mem _ _ stored =>
    refine .all mem nofun nofun fun q o => Or.inr ⟨nofun, ?_⟩
    rcases stored q o with ⟨i, hi, -⟩ | ⟨-, h⟩
    · exact absurd hi (Nat.not_lt_zero i)
    · exact h
  | part mem user _ => exact absurd nofun user
  | null r t table _ => exact absurd nofun table

/-- What a round leaves to the rounds that follow. -/
theorem Copies.cons {k : Nat} {q : Pte} {r : Except Stop ((Pgdir × Bool) × World) × List Event}
    (hq : userPte d (x / PGSIZE) = some q) (huser : q.user = true) (hk : k ≤ p.length)
    (hpage : ∀ i < k, (x + i) / PGSIZE = x / PGSIZE)
    (h : Copies d (x + k) (p.drop k) { w with mem := setBytes q.page (x % PGSIZE) (p.take k) w.mem } r) :
    Copies d x p w r := by
  have hbytes : ∀ i < k, UserAt d (x + i) := fun i hi => (userAt_congr (hpage i hi)).2 ((userAt_iff hq).2 huser)
  have hlen : (p.drop k).length = p.length - k := List.length_drop
  cases h with
  | all mem user table stored =>
    rw [hlen] at user table
    exact .all mem ((userAt_drop hk hbytes).2 user) ((tableAt_drop hk hbytes).2 table) (stored.cons hq hk hpage)
  | part mem user table =>
    rw [hlen] at user table
    exact .part mem (fun hc => user ((userAt_drop hk hbytes).1 hc)) ((tableAt_drop hk hbytes).2 table)
  | null r t table wild =>
    rw [hlen] at table
    exact .null r t (fun hc => table ((tableAt_drop hk hbytes).1 hc)) wild

/-- **The loop of `copyout`.** -/
theorem copyout_run (outside : Outside) (d : Pgdir) (fuel : Nat) : ∀ (va : UInt32) (p : List UInt8) (w : World), p.length < fuel →
    Copies d va.toNat p w (copyout outside fuel d va p w) := by
  induction fuel with
  | zero => exact fun va p w h => absurd h (Nat.not_lt_zero _)
  | succ fuel ih =>
    intro va p w hfuel
    rw [copyout]
    split
    · next hp =>
      subst hp
      exact .all w.mem nofun nofun fun q o => Or.inr ⟨nofun, rfl⟩
    · next hp =>
      have hlen : 0 < p.length := List.length_pos_of_ne_nil hp
      dsimp only
      cases hd : d.table (Pgdir.pdx (va.toNat / PGSIZE)) with
      | none =>
        -- the first byte has no page table
        refine .null _ _ (fun hc => ?_) ?_
        · have := hc 0 hlen fun j hj => absurd hj (Nat.not_lt_zero j)
          rw [Nat.add_zero, hd] at this
          cases this
        · exact List.cons_ne_nil _ _
      | some pt =>
        have hfirst : (¬UserAt d va.toNat) → Copies d va.toNat p w (.ok ((d, false), w), []) := fun hno =>
          .part w.mem (fun hc => hno (hc 0 hlen)) fun i hi hbefore => by
            cases i with
            | zero =>
              rw [Nat.add_zero, hd]
              rfl
            | succ i => exact absurd (hbefore 0 (Nat.succ_pos i)) hno
        dsimp only
        cases hq : userPte d (va.toNat / PGSIZE) with
        | none =>
          refine hfirst fun hc => ?_
          unfold UserAt at hc
          rw [hq] at hc
          cases hc
        | some q =>
          dsimp only
          split
          · next huser =>
            have hva : va.toNat < 0x80000000 := ((userAt_iff hq).2 huser).table.1
            rw [Prog.run_bind_ok (Prog.run_modify _ w), List.nil_append]
            refine Copies.cons hq huser (Nat.min_le_left _ (PGSIZE - va.toNat % PGSIZE)) (fun i hi => ?_) ?_
            · have hi' : i < min p.length (4096 - va.toNat % 4096) := hi
              show (va.toNat + i) / 4096 = va.toNat / 4096
              omega
            · have hnext : (UInt32.ofNat ((va.toNat / PGSIZE + 1) * PGSIZE)).toNat = (va.toNat / 4096 + 1) * 4096 := by
                rw [UInt32.toNat_ofNat']
                show (va.toNat / 4096 + 1) * 4096 % 2 ^ 32 = _
                omega
              have hrest := ih (UInt32.ofNat ((va.toNat / PGSIZE + 1) * PGSIZE))
                (p.drop (min p.length (PGSIZE - va.toNat % PGSIZE)))
                { w with mem := setBytes q.page (va.toNat % PGSIZE) (p.take (min p.length (PGSIZE - va.toNat % PGSIZE))) w.mem }
                (by
                  rw [List.length_drop]
                  have : va.toNat % 4096 < 4096 := Nat.mod_lt _ (by decide)
                  show p.length - min p.length (4096 - va.toNat % 4096) < fuel
                  omega)
              by_cases hlast : p.length ≤ PGSIZE - va.toNat % PGSIZE
              · -- nothing is left
                rw [Nat.min_eq_left hlast, List.drop_length] at hrest ⊢
                exact hrest.nil _
              · have hlast' : ¬p.length ≤ 4096 - va.toNat % 4096 := hlast
                rw [hnext] at hrest
                have hsum : va.toNat + min p.length (PGSIZE - va.toNat % PGSIZE) = (va.toNat / 4096 + 1) * 4096 := by
                  show va.toNat + min p.length (4096 - va.toNat % 4096) = _
                  omega
                rw [hsum]
                exact hrest
          · next huser => exact hfirst fun hc => huser ((userAt_iff hq).1 hc)

/-! ## Exact copies -/

theorem userAt_spot (h : UserAt d x) : ∃ q : Pte, userPte d (x / PGSIZE) = some q ∧ q.user = true ∧
    spot d x = some (q.page, x % PGSIZE) := by
  cases hq : userPte d (x / PGSIZE) with
  | none =>
    unfold UserAt at h
    rw [hq] at h
    cases h
  | some q =>
    refine ⟨q, rfl, (userAt_iff hq).1 h, ?_⟩
    unfold spot
    rw [hq]
    rfl

theorem userByte_spot {mem : Mem} {q : Page} {o : Nat} (h : UserAt d x) (hs : spot d x = some (q, o)) :
    userByte d mem x = some (mem q o) := by
  obtain ⟨pte, hpte, huser, hspot⟩ := userAt_spot h
  rw [hspot] at hs
  cases hs
  unfold userByte
  rw [hpte, Option.bind_some, if_pos huser]

/-- `copyout` is total and exact: no null pointer is used as a PTE; it succeeds where the process may use every byte, and
then these bytes are those of the buffer and no other byte of memory has changed. -/
def CopiesOut (outside : Outside) (d : Pgdir) (va : UInt32) (p : List UInt8) (w : World) : Prop :=
  ∃ ok mem, copyout outside (p.length + 1) d va p w = (.ok ((d, ok), { w with mem }), []) ∧
    (ok = true ↔ ∀ i < p.length, UserAt d (va.toNat + i)) ∧
    (ok = true → (∀ i < p.length, userByte d mem (va.toNat + i) = some (p.getD i 0)) ∧
      ∀ q o, (∀ i < p.length, spot d (va.toNat + i) ≠ some (q, o)) → mem q o = w.mem q o)

/-- Bytes of the buffer for one place are the same, if all are stored. -/
def Agree (d : Pgdir) (x : Nat) (p : List UInt8) : Prop := (∀ i < p.length, UserAt d (x + i)) →
  ∀ i < p.length, ∀ j < p.length, spot d (x + i) = spot d (x + j) → p.getD i 0 = p.getD j 0

/-- **What `copyout` copies.** It is exact if the first byte that may not be used has a page table, and no two bytes of the
buffer that differ are for one place. -/
theorem copyout_copiesOut (outside : Outside) (d : Pgdir) (va : UInt32) (p : List UInt8) (w : World) :
    CopiesOut outside d va p w ↔ TableAt d va.toNat p.length ∧ Agree d va.toNat p := by
  have hrun := copyout_run outside d (p.length + 1) va p w (Nat.lt_succ_self _)
  unfold CopiesOut
  generalize copyout outside (p.length + 1) d va p w = r at hrun ⊢
  cases hrun with
  | all mem user table stored =>
    constructor
    · rintro ⟨ok, mem', hok, hiff, hbytes⟩
      cases hok
      refine ⟨table, fun _ i hi j hj hij => ?_⟩
      obtain ⟨q, -, -, hs⟩ := userAt_spot (user i hi)
      have hbi := (hbytes rfl).1 i hi
      have hbj := (hbytes rfl).1 j hj
      rw [userByte_spot (user i hi) hs] at hbi
      rw [userByte_spot (user j hj) (hij ▸ hs)] at hbj
      exact Option.some.inj (hbi.symm.trans hbj)
    · rintro ⟨-, hagree⟩
      refine ⟨true, mem, rfl, ⟨fun _ => user, fun _ => rfl⟩, fun _ => ⟨fun i hi => ?_, fun q o hno => ?_⟩⟩
      · obtain ⟨q, -, -, hs⟩ := userAt_spot (user i hi)
        rw [userByte_spot (user i hi) hs]
        rcases stored q.page ((va.toNat + i) % PGSIZE) with ⟨j, hj, hsj, hval⟩ | ⟨hno, -⟩
        · rw [hval, hagree user i hi j hj (hs.trans hsj.symm)]
        · exact absurd hs (hno i hi)
      · rcases stored q o with ⟨i, hi, hs, -⟩ | ⟨-, hkept⟩
        · exact absurd hs (hno i hi)
        · exact hkept
  | part mem user table =>
    refine iff_of_true ⟨false, mem, rfl, ⟨fun hc => absurd hc Bool.false_ne_true, fun hc => absurd hc user⟩, fun hc => ?_⟩
      ⟨table, fun hc => absurd hc user⟩
    exact absurd hc Bool.false_ne_true
  | null r t table wild =>
    refine iff_of_false ?_ fun hc => table hc.1
    rintro ⟨ok, mem, hok, -⟩
    cases hok
    exact wild rfl

end

/-- One user page is mapped, at address 0, and there is one page table. -/
def firstPage : Pgdir where
  dir := 1025
  table i := if i = 0 then some { page := 1026, pte := fun j => if j = 0 then some ⟨1027, true⟩ else none } else none

/-- A byte for the second 4 MB: a null pointer is used as its PTE. -/
theorem not_copiesOut : ¬∀ (outside : Outside) (d : Pgdir) (va : UInt32) (p : List UInt8) (w : World),
    CopiesOut outside d va p w := by
  intro h
  let w : World := ⟨⟨[], fun _ => false⟩, fun _ _ => 0, ⟨firstPage, 0, 0, 0, []⟩⟩
  obtain ⟨ok, mem, hok, -⟩ := h ⟨fun _ x => x, fun _ _ => none⟩ firstPage 0x400000 [0] w
  have htrace := congrArg Prod.snd hok
  exact List.cons_ne_nil (Event.wild 1024) _ htrace

end NewXv6.Vm.Load
