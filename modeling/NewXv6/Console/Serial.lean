import NewXv6.Console.Model

/-!
# The line discipline of the serial line

The input buffer holds the committed bytes that have not been taken and the line that is being edited (`Input.Has`). Each
byte and each round of a read keeps that, and with it the account of the bytes that readers were given (`Tty.Good`).
-/

namespace NewXv6.Console

open Lib

theorem size_dvd : INPUT_BUF ∣ 2 ^ 32 := by decide
theorem size_lt : INPUT_BUF < 2 ^ 32 := by decide

/-! ## The buffer -/

/-- The buffer has the bytes of a line discipline. -/
structure Input.Has (s : Input) (l : Line) : Prop where
  holds : s.ring.Holds (l.unread ++ l.pending)
  write : s.w = s.r + BitVec.ofNat 32 l.unread.length
  plain : newline ∉ l.pending
  taken : l.taken ≤ l.committed.length

section

variable {s : Input} {l : Line} {c : UInt8} {u p : List UInt8}

theorem Input.Has.length (h : s.Has l) : (s.e - s.r).toNat = l.unread.length + l.pending.length := by
  rw [← List.length_append]
  exact h.holds.length size_lt

theorem Input.Has.unread_le (h : s.Has l) : l.unread.length ≤ INPUT_BUF := by
  have hbound := h.holds.bound
  rw [List.length_append] at hbound
  omega

theorem Input.Has.write_sub (h : s.Has l) : (s.w - s.r).toNat = l.unread.length := by
  rw [h.write, BitVec.add_comm, BitVec.add_sub_cancel, BitVec.toNat_ofNat]
  exact Nat.mod_eq_of_lt (lt_of_le_of_lt h.unread_le size_lt)

/-- The line that is being edited lies between `w` and `e`. -/
theorem edit_eq (hholds : s.ring.Holds (u ++ p)) (hwrite : s.w = s.r + BitVec.ofNat 32 u.length) :
    s.e = s.w + BitVec.ofNat 32 p.length := by
  have hcount : s.e = s.r + BitVec.ofNat 32 (u ++ p).length := hholds.count
  rw [hcount, hwrite, List.length_append, BitVec.ofNat_add, BitVec.add_assoc]

theorem edit_sub (hholds : s.ring.Holds (u ++ p)) (hwrite : s.w = s.r + BitVec.ofNat 32 u.length) :
    (s.e - s.w).toNat = p.length := by
  have hbound := hholds.bound
  rw [List.length_append] at hbound
  rw [edit_eq hholds hwrite, BitVec.add_comm, BitVec.add_sub_cancel, BitVec.toNat_ofNat]
  exact Nat.mod_eq_of_lt (lt_of_le_of_lt (by omega) size_lt)

theorem edit_eq_iff (hholds : s.ring.Holds (u ++ p)) (hwrite : s.w = s.r + BitVec.ofNat 32 u.length) :
    s.e = s.w ↔ p = [] := by
  constructor
  · intro h
    have hsub := edit_sub hholds hwrite
    rw [h, BitVec.sub_self] at hsub
    exact List.length_eq_zero_iff.1 hsub.symm
  · rintro rfl
    rw [edit_eq hholds hwrite]
    simp

/-- `C('U')` drops the line. -/
theorem killLine_holds (rounds : Nat) (hrounds : p.length ≤ rounds) (hholds : s.ring.Holds (u ++ p))
    (hwrite : s.w = s.r + BitVec.ofNat 32 u.length) (hplain : newline ∉ p) :
    (s.killLine rounds).ring.Holds u ∧ (s.killLine rounds).w = s.w ∧ (s.killLine rounds).r = s.r := by
  induction rounds generalizing s p with
  | zero =>
    obtain rfl : p = [] := List.length_eq_zero_iff.1 (by omega)
    rw [List.append_nil] at hholds
    exact ⟨hholds, rfl, rfl⟩
  | succ rounds ih =>
    rw [Input.killLine]
    rcases List.eq_nil_or_concat p with rfl | ⟨p', a, rfl⟩
    · rw [if_neg fun h => h.1 ((edit_eq_iff hholds hwrite).2 rfl)]
      rw [List.append_nil] at hholds
      exact ⟨hholds, rfl, rfl⟩
    · rw [List.concat_eq_append] at hholds hplain hrounds
      rw [← List.append_assoc] at hholds
      obtain ⟨hback, hrest⟩ := hholds.unput size_dvd
      have hne : s.e ≠ s.w := fun h => by
        rw [List.append_assoc] at hholds
        simpa using (edit_eq_iff hholds hwrite).1 h
      have hlast : s.buf ((s.e - 1).toNat % INPUT_BUF) ≠ newline := fun h => by
        have hback' : s.buf ((s.e - 1).toNat % INPUT_BUF) = a := hback
        exact hplain (by rw [← h, hback']; simp)
      rw [if_pos ⟨hne, hlast⟩]
      simp only [List.length_append, List.length_singleton] at hrounds
      exact ih (s := { s with e := s.e - 1 }) (p := p') (by omega) hrest hwrite fun h => hplain (List.mem_append_left _ h)

/-- A byte at the end of the line that is being edited. -/
theorem store_holds (hholds : s.ring.Holds (u ++ p)) (hroom : (u ++ p).length < INPUT_BUF) (c : UInt8) :
    (s.store c).ring.Holds (u ++ (p ++ [c])) := by
  rw [← List.append_assoc]
  exact hholds.put size_dvd hroom c

/-- **A byte of `consoleintr`** does what the line discipline says. -/
theorem consoleintr_has (h : s.Has l) (c : UInt8) : (s.consoleintr 0 c).Has (l.arrive noText c) := by
  unfold Input.consoleintr Line.arrive
  by_cases hP : c = ctrlP
  · rw [if_pos hP, if_pos hP]
    exact h
  rw [if_neg hP, if_neg hP]
  by_cases hU : c = ctrlU
  · rw [if_pos hU, if_pos hU]
    obtain ⟨hk, hw, hr⟩ := killLine_holds _ (edit_sub h.holds h.write).ge h.holds h.write h.plain
    refine ⟨?_, ?_, List.not_mem_nil, h.taken⟩
    · rwa [List.append_nil]
    · rw [hw, hr]
      exact h.write
  rw [if_neg hU, if_neg hU]
  by_cases hB : c = ctrlH ∨ c = delete
  · rw [if_pos hB, if_pos hB]
    have hzero : s.e - BitVec.ofNat 32 0 = s.e := BitVec.sub_zero _
    rw [hzero]
    rcases List.eq_nil_or_concat l.pending with hp | ⟨p', a, hp⟩
    · rw [if_neg fun hne => hne ((edit_eq_iff h.holds h.write).2 hp), hp]
      exact ⟨by rw [show (({ l with pending := [].dropLast } : Line).unread) = l.unread from rfl]; simpa [hp] using h.holds,
        h.write, List.not_mem_nil, h.taken⟩
    · rw [List.concat_eq_append] at hp
      have hne : s.e ≠ s.w := fun he => by
        have := (edit_eq_iff h.holds h.write).1 he
        rw [hp] at this
        simp at this
      have hholds := h.holds
      rw [hp, ← List.append_assoc] at hholds
      obtain ⟨-, hrest⟩ := hholds.unput size_dvd
      rw [if_pos hne, hp, List.dropLast_concat]
      exact ⟨hrest, h.write, fun hm => h.plain (by rw [hp]; exact List.mem_append_left _ hm), h.taken⟩
  rw [if_neg hB, if_neg hB]
  by_cases hfull : INPUT_BUF ≤ l.unread.length + l.pending.length
  · rw [if_neg fun hc => by have := h.length; omega, if_pos (Or.inr hfull)]
    exact h
  have hlen := h.length
  by_cases hzero : c = 0
  · rw [if_neg fun hc => hc.1 hzero, if_pos (Or.inl (by rw [hzero]; rfl))]
    exact h
  rw [if_pos ⟨hzero, by omega⟩]
  have hroom : (l.unread ++ l.pending).length < INPUT_BUF := by
    rw [List.length_append]
    omega
  have hnotfull : s.e ≠ s.r + BitVec.ofNat 32 INPUT_BUF := fun he => by
    rw [he, BitVec.add_comm, BitVec.add_sub_cancel, BitVec.toNat_ofNat, Nat.mod_eq_of_lt size_lt] at hlen
    omega
  by_cases harrow : isArrow c = true
  · -- an arrow is neither stored nor ends the line
    have hcar : c ≠ carriage := by rintro rfl; cases harrow
    have hnew : c ≠ newline := by rintro rfl; cases harrow
    have hD : c ≠ ctrlD := by rintro rfl; cases harrow
    have hdrop : noText c = true := by simp [noText, harrow]
    rw [if_pos (Or.inl hdrop)]
    simp only [if_neg hcar, harrow, if_true]
    rw [if_neg fun hc => hc.elim hnew fun hc => hc.elim hD hnotfull]
    exact h
  · have hdrop : ¬(noText c = true ∨ INPUT_BUF ≤ l.unread.length + l.pending.length) := fun hc => by
      rcases hc with hc | hc
      · rcases (by simpa [noText] using hc : c = 0 ∨ isArrow c = true) with hc | hc
        · exact hzero hc
        · exact harrow hc
      · exact hfull hc
    rw [if_neg hdrop]
    -- the byte that is stored
    generalize hd : (if c = carriage then newline else c) = d
    have hdarrow : isArrow d = false := by
      rw [← hd]
      split
      · rfl
      · simpa using harrow
    have hstored := store_holds h.holds hroom d
    have hlen' : (s.store d).e = s.r + BitVec.ofNat 32 (l.unread.length + (l.pending ++ [d]).length) := by
      have hcount : (s.store d).e = s.r + BitVec.ofNat 32 (l.unread ++ (l.pending ++ [d])).length := hstored.count
      rw [hcount, List.length_append]
    have hbound := hstored.bound
    rw [List.length_append] at hbound
    have hfulliff : (s.store d).e = (s.store d).r + BitVec.ofNat 32 INPUT_BUF ↔
        l.unread.length + (l.pending ++ [d]).length = INPUT_BUF := by
      have hfull := hstored.full_iff size_lt
      unfold Ring.full at hfull
      rw [decide_eq_true_iff, List.length_append] at hfull
      exact hfull
    simp only [hdarrow, Bool.false_eq_true, if_false]
    by_cases hcommit : d = newline ∨ d = ctrlD ∨ l.unread.length + (l.pending ++ [d]).length = INPUT_BUF
    · rw [if_pos hcommit, if_pos (hcommit.imp id (Or.imp id hfulliff.2))]
      have hunread : (({ l with committed := l.committed ++ (l.pending ++ [d]), pending := [] } : Line).unread) =
          l.unread ++ (l.pending ++ [d]) := by
        unfold Line.unread
        exact List.drop_append_of_le_length h.taken
      refine ⟨?_, ?_, List.not_mem_nil, ?_⟩
      · rw [hunread, List.append_nil]
        exact hstored
      · rw [hunread, List.length_append]
        exact hlen'
      · show l.taken ≤ (l.committed ++ (l.pending ++ [d])).length
        rw [List.length_append]
        exact h.taken.trans (Nat.le_add_right _ _)
    · rw [if_neg hcommit, if_neg fun hc => hcommit (hc.imp id (Or.imp id hfulliff.1))]
      refine ⟨hstored, h.write, fun hm => ?_, h.taken⟩
      rcases List.mem_append.1 hm with hm | hm
      · exact h.plain hm
      · exact hcommit (Or.inl (List.mem_singleton.1 hm).symm)

/-- The next byte of a reader. -/
theorem Input.Has.front (h : s.Has l) (hne : s.r ≠ s.w) : ∃ rest, l.unread = s.buf (s.r.toNat % INPUT_BUF) :: rest ∧
    Input.Has { s with r := s.r + 1 } { l with taken := l.taken + 1 } ∧
    l.committed.take (l.taken + 1) = l.committed.take l.taken ++ [s.buf (s.r.toNat % INPUT_BUF)] := by
  cases hu : l.unread with
  | nil =>
    refine absurd ?_ hne
    rw [h.write, hu]
    simp
  | cons a rest =>
    have hholds := h.holds
    rw [hu] at hholds
    obtain ⟨hfront, hrest⟩ := hholds.take size_dvd
    have hfront' : s.buf (s.r.toNat % INPUT_BUF) = a := hfront
    rw [hfront']
    have hlt : l.taken < l.committed.length := by
      have := congrArg List.length hu
      unfold Line.unread at this
      rw [List.length_drop, List.length_cons] at this
      omega
    have hdrop : l.committed.drop (l.taken + 1) = rest := by
      have : l.committed.drop l.taken = a :: rest := hu
      rw [← List.tail_drop, this, List.tail_cons]
    have hget : l.committed[l.taken] = a := by
      have : l.committed.drop l.taken = a :: rest := hu
      rw [List.drop_eq_getElem_cons hlt] at this
      exact List.head_eq_of_cons_eq this
    refine ⟨rest, rfl, ⟨?_, ?_, h.plain, hlt⟩, ?_⟩
    · show Ring.Holds _ (l.committed.drop (l.taken + 1) ++ l.pending)
      rw [hdrop]
      exact hrest
    · show s.w = s.r + 1 + BitVec.ofNat 32 (l.committed.drop (l.taken + 1)).length
      rw [hdrop, h.write, hu, List.length_cons, BitVec.add_assoc, Nat.add_comm, BitVec.ofNat_add]
      rfl
    · rw [← hget]
      exact List.take_succ_eq_append_getElem hlt

end

/-! ## Runs -/

/-- A read that has ended: it has no `C('D')`, and ends at the first newline. -/
structure Read.Ok (x : Read) : Prop where
  value : x.value = if x.stop = .killed then -1 else (x.got.length : Int)
  eof : ctrlD ∉ x.got
  line : newline ∉ x.got.dropLast
  stop : x.stop = .line ↔ newline ∈ x.got

/-- A read that goes on. -/
structure Reader.Ok (x : Reader) : Prop where
  count : x.target - x.n = x.got.length
  eof : ctrlD ∉ x.got
  line : newline ∉ x.got

/-- A `C('D')` that was taken. -/
def Read.empty (x : Read) : Bool := x.stop = .eof ∧ x.got = []

/-- The bytes that were taken are accounted for: a `C('D')` by a read of no bytes, and the others were delivered. -/
structure Tty.Good {Proc : Type} (s : Tty Proc) : Prop where
  has : s.input.Has s.line
  posoffset : s.posoffset = 0
  delivered : s.delivered = (s.line.committed.take s.line.taken).filter (· ≠ ctrlD)
  eofs : (s.line.committed.take s.line.taken).count ctrlD = s.returned.countP Read.empty
  reader : ∀ p x, s.reader p = some x → x.Ok
  returned : ∀ x ∈ s.returned, x.Ok

section

variable {Proc : Type} [DecidableEq Proc] {s t : Tty Proc}

omit [DecidableEq Proc] in
theorem Tty.boot_good : (Tty.boot : Tty Proc).Good where
  has := ⟨⟨Nat.zero_le _, rfl, fun i hi => absurd hi (Nat.not_lt_zero i)⟩, rfl, List.not_mem_nil, Nat.le_refl 0⟩
  posoffset := rfl
  delivered := rfl
  eofs := rfl
  reader := fun _ _ h => nomatch h
  returned := fun _ h => absurd h List.not_mem_nil

/-- The readers after one of them has changed. -/
theorem readers_update {f : Proc → Option Reader} {p : Proc} {o : Option Reader} (h : ∀ q x, f q = some x → x.Ok)
    (ho : ∀ x, o = some x → x.Ok) : ∀ q x, Function.update f p o q = some x → x.Ok := by
  intro q x hx
  by_cases hq : q = p
  · subst hq
    rw [Function.update_self] at hx
    exact ho x hx
  · rw [Function.update_of_ne hq] at hx
    exact h q x hx

/-- A read ends. -/
theorem Tty.Good.finish (h : s.Good) (p : Proc) {value : Int} {got : List UInt8} {stop : Stop}
    (hok : Read.Ok ⟨value, got, stop⟩) (hne : Read.empty ⟨value, got, stop⟩ = false) : (s.finish p value got stop).Good where
  has := h.has
  posoffset := h.posoffset
  delivered := h.delivered
  eofs := by
    show _ = (s.returned ++ [_]).countP Read.empty
    rw [List.countP_append, List.countP_singleton, hne]
    exact h.eofs
  reader := readers_update h.reader nofun
  returned := fun x hx => by
    rcases List.mem_append.1 hx with hx | hx
    · exact h.returned x hx
    · rw [List.mem_singleton.1 hx]
      exact hok

/-- The bytes that a reader has been given so far end a read. -/
theorem Reader.Ok.read {x : Reader} (h : x.Ok) {value : Int} {stop : Stop}
    (hvalue : value = if stop = .killed then -1 else (x.got.length : Int)) (hstop : stop ≠ .line) :
    Read.Ok ⟨value, x.got, stop⟩ :=
  ⟨hvalue, h.eof, fun hm => h.line ((List.dropLast_sublist _).subset hm), ⟨fun hl => absurd hl hstop, fun hm => absurd hm h.line⟩⟩

/-- **A round of `consoleread`.** -/
theorem Tty.Good.consoleread (h : s.Good) {p : Proc} {x : Reader} (hx : s.reader p = some x)
    (ht : s.consoleread p x = some t) : t.Good := by
  have hok := h.reader p x hx
  have hcount := hok.count
  unfold Tty.consoleread at ht
  by_cases hn : 0 < x.n
  · rw [if_pos hn] at ht
    by_cases hrw : s.input.r = s.input.w
    · rw [if_pos hrw] at ht
      split at ht
      · cases ht
        exact h.finish p (hok.read rfl (by decide)) rfl
      · cases ht
    · rw [if_neg hrw] at ht
      obtain ⟨rest, hunread, hhas, htake⟩ := h.has.front hrw
      generalize hc : s.input.buf (s.input.r.toNat % INPUT_BUF) = c at ht hunread htake
      dsimp only at ht
      by_cases hD : c = ctrlD
      · rw [if_pos hD] at ht
        have hvalue : x.target - x.n = if Stop.eof = .killed then -1 else (x.got.length : Int) := by
          rw [if_neg (by decide)]
          exact hcount
        by_cases hlt : x.n < x.target
        · -- the byte stays, and the read has some bytes
          rw [if_pos hlt] at ht
          cases ht
          have hback : s.input.r + 1 - 1 = s.input.r := BitVec.add_sub_cancel _ _
          have hsame : ({ s with input := { s.input with r := s.input.r + 1 - 1 } } : Tty Proc) = s := by rw [hback]
          rw [hsame]
          refine h.finish p (hok.read hvalue (by decide)) ?_
          have hgot : x.got ≠ [] := by
            intro hnil
            rw [hnil, List.length_nil] at hcount
            omega
          simp [Read.empty, hgot]
        · -- the byte is taken by a read of no bytes
          rw [if_neg hlt] at ht
          cases ht
          have hgot : x.got = [] := List.length_eq_zero_iff.1 (by omega)
          refine ⟨hhas, h.posoffset, ?_, ?_, readers_update h.reader nofun, fun y hy => ?_⟩
          · show s.delivered = (s.line.committed.take (s.line.taken + 1)).filter _
            rw [htake, hD, List.filter_append, ← h.delivered]
            simp
          · show (s.line.committed.take (s.line.taken + 1)).count ctrlD = (s.returned ++ [_]).countP Read.empty
            rw [htake, hD, List.count_append, List.countP_append, h.eofs]
            simp [Read.empty, hgot]
          · rcases List.mem_append.1 hy with hy | hy
            · exact h.returned y hy
            · rw [List.mem_singleton.1 hy]
              exact hok.read hvalue (by decide)
      · rw [if_neg hD] at ht
        have hdelivered : s.delivered ++ [c] = (s.line.committed.take (s.line.taken + 1)).filter (· ≠ ctrlD) := by
          rw [htake, List.filter_append, ← h.delivered]
          simp [hD]
        have heofs : (s.line.committed.take (s.line.taken + 1)).count ctrlD = s.returned.countP Read.empty := by
          rw [htake, List.count_append, h.eofs]
          simp [hD]
        have hgotD : ctrlD ∉ x.got ++ [c] := fun hm => by
          rcases List.mem_append.1 hm with hm | hm
          · exact hok.eof hm
          · exact hD (List.mem_singleton.1 hm).symm
        have hgood : Tty.Good { s with
            input := { s.input with r := s.input.r + 1 }
            line := { s.line with taken := s.line.taken + 1 }
            delivered := s.delivered ++ [c] } := ⟨hhas, h.posoffset, hdelivered, heofs, h.reader, h.returned⟩
        by_cases hnew : c = newline
        · rw [if_pos hnew] at ht
          cases ht
          refine hgood.finish p ⟨?_, hgotD, ?_, iff_of_true rfl ?_⟩ rfl
          · rw [if_neg (show Stop.line ≠ .killed by decide), List.length_append, List.length_singleton]
            push_cast
            omega
          · rw [List.dropLast_concat]
            exact hok.line
          · rw [hnew]
            simp
        · rw [if_neg hnew] at ht
          cases ht
          refine ⟨hhas, h.posoffset, hdelivered, heofs, readers_update h.reader fun y hy => ?_, h.returned⟩
          cases hy
          refine ⟨?_, hgotD, fun hm => ?_⟩
          · rw [List.length_append, List.length_singleton]
            push_cast
            omega
          · rcases List.mem_append.1 hm with hm | hm
            · exact hok.line hm
            · exact hnew (List.mem_singleton.1 hm).symm
  · rw [if_neg hn] at ht
    cases ht
    exact h.finish p (hok.read (by rw [if_neg (by decide)]; exact hcount) (by decide)) rfl

/-- A byte changes neither what has been taken nor how much. -/
theorem arrive_taken (drops : UInt8 → Bool) (l : Line) (c : UInt8) (h : l.taken ≤ l.committed.length) :
    (l.arrive drops c).taken = l.taken ∧ (l.arrive drops c).committed.take l.taken = l.committed.take l.taken := by
  unfold Line.arrive
  split
  · exact ⟨rfl, rfl⟩
  · split
    · exact ⟨rfl, rfl⟩
    · split
      · exact ⟨rfl, rfl⟩
      · split
        · exact ⟨rfl, rfl⟩
        · dsimp only
          generalize (if c = carriage then newline else c) = d
          by_cases hd : d = newline ∨ d = ctrlD ∨ l.unread.length + (l.pending ++ [d]).length = INPUT_BUF
          · rw [if_pos hd]
            exact ⟨rfl, List.take_append_of_le_length h⟩
          · rw [if_neg hd]
            exact ⟨rfl, rfl⟩

theorem Tty.Good.step (h : s.Good) {a : Action Proc} (ht : s.step a = some t) : t.Good := by
  cases a with
  | byte c =>
    cases ht
    obtain ⟨htaken, htake⟩ := arrive_taken noText s.line c h.has.taken
    refine ⟨?_, h.posoffset, ?_, ?_, h.reader, h.returned⟩
    · rw [h.posoffset]
      exact consoleintr_has h.has c
    · dsimp only
      rw [htaken, htake]
      exact h.delivered
    · dsimp only
      rw [htaken, htake]
      exact h.eofs
  | read p n =>
    simp only [Tty.step] at ht
    split at ht
    · cases ht
      refine ⟨h.has, h.posoffset, h.delivered, h.eofs, readers_update h.reader fun x hx => ?_, h.returned⟩
      cases hx
      exact ⟨by simp, List.not_mem_nil, List.not_mem_nil⟩
    · cases ht
  | go p =>
    simp only [Tty.step] at ht
    split at ht
    · cases ht
    · rename_i x hx
      exact h.consoleread hx ht
  | kill p =>
    cases ht
    exact ⟨h.has, h.posoffset, h.delivered, h.eofs, h.reader, h.returned⟩

/-- **The line discipline.** In every state that is reached the indices are in order, the bytes delivered are a prefix of
the bytes committed without the `C('D')`s, every read ends at the first newline and has no `C('D')`, and every `C('D')`
that has been taken ended a read of no bytes. -/
theorem consoleread_lines (tr : List (Action Proc)) (s : Tty Proc) (hrun : run Tty.step .boot tr = some s) :
    (s.input.w - s.input.r).toNat ≤ (s.input.e - s.input.r).toNat ∧ (s.input.e - s.input.r).toNat ≤ INPUT_BUF ∧
    s.delivered = (s.line.committed.take s.line.taken).filter (· ≠ ctrlD) ∧
    s.delivered <+: s.line.committed.filter (· ≠ ctrlD) ∧
    (s.line.committed.take s.line.taken).count ctrlD = s.returned.countP Read.empty ∧ ∀ x ∈ s.returned, x.Ok := by
  have hgood := run_induction (fun _ s => s.Good) Tty.boot_good (fun _ _ _ _ _ hs ha => hs.step ha) tr s hrun
  have hlen := hgood.has.length
  have hbound := hgood.has.holds.bound
  rw [List.length_append] at hbound
  refine ⟨?_, ?_, hgood.delivered, ?_, hgood.eofs, hgood.returned⟩
  · rw [hgood.has.write_sub, hlen]
    exact Nat.le_add_right _ _
  · rw [hlen]
    exact hbound
  · rw [hgood.delivered]
    exact (List.take_prefix _ _).filter _

end

/-- A byte 0xe2 and a newline, read by one process. -/
def arrowLine : List (Action Unit) := [.byte 0xe2, .byte newline, .read () 10, .go ()]

theorem consoleread_lines_arrow : ∃ s : Tty Unit, run Tty.step .boot arrowLine = some s ∧ s.delivered = [newline] ∧
    s.delivered <+: s.line.committed.filter (· ≠ ctrlD) := by
  have h : (run Tty.step .boot arrowLine).any (fun s => decide (s.delivered = [newline])) = true := by decide +kernel
  obtain ⟨s, hs, hd⟩ := (Option.any_eq_true _ _).1 h
  exact ⟨s, hs, of_decide_eq_true hd, (consoleread_lines arrowLine s hs).2.2.2.1⟩

/-- If no byte were dropped, the line would have the byte 0xe2. -/
theorem arrow_dropped : ∃ s : Tty Unit, run Tty.step .boot arrowLine = some s ∧
    ¬s.delivered <+: (([0xe2, newline] : List UInt8).foldl (Line.arrive fun _ => false) ⟨[], [], 0⟩).committed.filter
      (· ≠ ctrlD) := by
  have h : (run Tty.step .boot arrowLine).any (fun s => decide (s.delivered = [newline])) = true := by decide +kernel
  obtain ⟨s, hs, hd⟩ := (Option.any_eq_true _ _).1 h
  refine ⟨s, hs, ?_⟩
  rw [of_decide_eq_true hd]
  decide

end NewXv6.Console
