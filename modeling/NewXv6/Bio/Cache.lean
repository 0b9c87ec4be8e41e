import NewXv6.Bio.Model
import Mathlib.Data.Fintype.Card

/-!
# One coherent copy per sector

What holds between any two steps of the buffer cache: the list links all buffers, no two buffers have one sector, a
buffer that `bget` gave away is busy and has one holder, and whatever the disk does not have yet is in a dirty buffer.
-/

namespace NewXv6

open Lib

namespace Bcache

variable {Proc Data : Type} [DecidableEq Proc]

/-- The process is about to read buffer `b` or waits for its transfer. -/
def Transfers (s : Bcache Proc Data) (p : Proc) (b : Fin NBUF) : Prop :=
  s.pc p = .check b ∨ ∃ reading, s.pc p = .iderw b reading

/-- What holds between any two steps. -/
structure Inv (s : Bcache Proc Data) : Prop where
  calm : s.panicked = none ∨ s.panicked = some .bgetNoBuffers
  list : ∃ l, s.list.links.Holds l ∧ ∀ b, b ∈ l
  ids : ∀ a b id, (s.buf a).id = some id → (s.buf b).id = some id → a = b
  busy : ∀ p b, b ∈ s.held p → (s.buf b).busy = true ∧ (s.buf b).id ≠ none
  one : ∀ p q b, b ∈ s.held p → b ∈ s.held q → p = q
  current : ∀ p b, s.Transfers p b → b ∈ s.held p
  valid : ∀ p b, b ∈ s.held p → s.Transfers p b ∨ (s.buf b).valid = true
  dirty : ∀ b, (s.buf b).dirty = true → (s.buf b).valid = true
  data : ∀ b id, (s.buf b).id = some id → (s.buf b).valid = true → (s.buf b).data = s.latest id
  disk : ∀ id, s.disk id = s.latest id ∨ ∃ b, (s.buf b).id = some id ∧ (s.buf b).dirty = true
  reads : ∀ r ∈ s.reads, r.1 = r.2

variable {s t : Bcache Proc Data} {p : Proc} {b : Fin NBUF} {id : SectorId}

/-! ## `binit` -/

omit [DecidableEq Proc] in
theorem pushAll_holds (bs l : List (Fin NBUF)) (c : Circle (Fin NBUF)) (hc : c.links.Holds l) (hn : (bs ++ l).Nodup) :
    (bs.foldl Circle.pushFront c).links.Holds (bs.reverse ++ l) := by
  induction bs generalizing l c with
  | nil => exact hc
  | cons a bs ih =>
    obtain ⟨ha, hn⟩ := List.nodup_cons.1 (List.cons_append ▸ hn)
    rw [List.mem_append, not_or] at ha
    rw [List.foldl_cons, List.reverse_cons, List.append_assoc]
    exact ih (a :: l) _ (Circle.pushFront_holds hc ha.2) (List.nodup_middle.2 (List.nodup_cons.2 ⟨by simp [ha], hn⟩))

omit [DecidableEq Proc] in
theorem inv_binit (disk : SectorId → Data) (data : Fin NBUF → Data) : Inv (binit disk data : Bcache Proc Data) where
  calm := Or.inl rfl
  list := by
    refine ⟨_, pushAll_holds (List.finRange NBUF) [] _ Circle.empty_holds ?_, fun b => ?_⟩
    · rw [List.append_nil]
      exact List.nodup_finRange NBUF
    · simp
  ids a b id ha := nomatch ha
  busy p b hb := absurd hb (Finset.notMem_empty b)
  one p q b hb := absurd hb (Finset.notMem_empty b)
  current p b hb := by
    rcases hb with hb | ⟨r, hb⟩ <;> cases hb
  valid p b hb := absurd hb (Finset.notMem_empty b)
  dirty b hb := nomatch hb
  data b id hb := nomatch hb
  disk id := Or.inl rfl
  reads r hr := nomatch hr

/-! ## The loops of `bget` -/

theorem holds_length {l : List (Fin NBUF)} {d : Links (Fin NBUF)} (h : d.Holds l) : l.length ≤ NBUF := by
  have := h.nodup.length_le_card
  rwa [Fintype.card_fin] at this

omit [DecidableEq Proc] in
/-- The first loop ends, and finds the buffer of the sector if there is one. -/
theorem Inv.cached (h : Inv s) (id : SectorId) :
    (∃ b, s.cached id = some (some b) ∧ (s.buf b).id = some id) ∨
      (s.cached id = some none ∧ ∀ b, (s.buf b).id ≠ some id) := by
  obtain ⟨l, hl, hall⟩ := h.list
  have hseek := Linked.seek hl.next (fun b => decide ((s.buf b).id = some id)) (holds_length hl)
  rw [← hl.head] at hseek
  unfold Bcache.cached
  rw [hseek]
  cases hf : l.find? fun b => decide ((s.buf b).id = some id) with
  | some b => exact Or.inl ⟨b, rfl, by simpa using List.find?_some hf⟩
  | none =>
    refine Or.inr ⟨rfl, fun b => ?_⟩
    simpa using List.find?_eq_none.1 hf b (hall b)

omit [DecidableEq Proc] in
/-- The second loop ends, and finds a clean buffer that is not busy if there is one. -/
theorem Inv.clean (h : Inv s) :
    (∃ b, s.clean = some (some b) ∧ (s.buf b).busy = false ∧ (s.buf b).dirty = false) ∨
      (s.clean = some none ∧ ∀ b, (s.buf b).busy = true ∨ (s.buf b).dirty = true) := by
  obtain ⟨l, hl, hall⟩ := h.list
  have hlen : l.reverse.length ≤ NBUF := by
    rw [List.length_reverse]
    exact holds_length hl
  have hseek := Linked.seek hl.prior (fun b => !(s.buf b).busy && !(s.buf b).dirty) hlen
  rw [List.head?_reverse, ← hl.tail] at hseek
  unfold Bcache.clean
  rw [hseek]
  cases hf : l.reverse.find? fun b => !(s.buf b).busy && !(s.buf b).dirty with
  | some b => exact Or.inl ⟨b, rfl, by simpa using List.find?_some hf⟩
  | none =>
    refine Or.inr ⟨rfl, fun b => ?_⟩
    have := List.find?_eq_none.1 hf b (List.mem_reverse.2 (hall b))
    cases hb : (s.buf b).busy <;> simp_all

/-! ## One step -/

omit [DecidableEq Proc] in
theorem buf_setBuf (s : Bcache Proc Data) (b a : Fin NBUF) (f : Buf Data → Buf Data) :
    (s.setBuf b f).buf a = if a = b then f (s.buf b) else s.buf a := Function.update_apply ..

theorem pc_goto (s : Bcache Proc Data) (p q : Proc) (pc : BioPc) :
    (s.goto p pc).pc q = if q = p then pc else s.pc q := Function.update_apply ..

/-- A process outside of a transfer goes on to another place outside, or to the transfer of a buffer it holds. -/
theorem inv_goto (h : Inv s) {pc : BioPc} (hfrom : ∀ b, s.Transfers p b → (s.buf b).valid = true ∨
      pc = .check b ∨ ∃ r, pc = .iderw b r)
    (hto : ∀ b, (pc = .check b ∨ ∃ r, pc = .iderw b r) → b ∈ s.held p) : Inv (s.goto p pc) where
  calm := h.calm
  list := h.list
  ids := h.ids
  busy := h.busy
  one := h.one
  current q b hq := by
    unfold Transfers at hq
    simp only [pc_goto] at hq
    by_cases hqp : q = p
    · subst hqp
      simp only [if_true] at hq
      exact hto b hq
    · simp only [if_neg hqp] at hq
      exact h.current q b hq
  valid q b hb := by
    rcases h.valid q b hb with ht | hv
    · by_cases hqp : q = p
      · subst hqp
        rcases hfrom b ht with hv | hpc
        · exact Or.inr hv
        · refine Or.inl ?_
          unfold Transfers
          simpa only [pc_goto, if_true] using hpc
      · refine Or.inl ?_
        unfold Transfers at ht ⊢
        simpa only [pc_goto, if_neg hqp] using ht
    · exact Or.inr hv
  dirty := h.dirty
  data := h.data
  disk := h.disk
  reads := h.reads

/-- `bget` gives an unused buffer away. -/
theorem inv_give (h : Inv s) (hpc : ∀ b, ¬s.Transfers p b) (hfree : ∀ q, b ∉ s.held q)
    (hb : (s.buf b).busy = true ∧ (s.buf b).id ≠ none) : Inv (s.give p b) := by
  have hheld : ∀ q a, a ∈ (s.give p b).held q ↔ a ∈ s.held q ∨ (q = p ∧ a = b) := by
    intro q a
    simp only [give, Function.update_apply]
    split
    · subst q
      simp [or_comm]
    · rename_i hq
      simp only [hq, false_and, or_false]
  have htrans : ∀ q a, (s.give p b).Transfers q a ↔ if q = p then a = b else s.Transfers q a := by
    intro q a
    show (s.goto p (.check b)).pc q = .check a ∨ (∃ r, (s.goto p (.check b)).pc q = .iderw a r) ↔ _
    simp only [pc_goto]
    by_cases hq : q = p
    · simp [hq, eq_comm]
    · simp only [if_neg hq, Transfers]
  refine ⟨h.calm, h.list, h.ids, fun q a ha => ?_, fun q r a hq hr => ?_, fun q a ha => ?_, fun q a ha => ?_, h.dirty,
    h.data, h.disk, h.reads⟩
  · rcases (hheld q a).1 ha with ha | ⟨-, rfl⟩
    · exact h.busy q a ha
    · exact hb
  · rcases (hheld q a).1 hq with hq' | ⟨hqp, hab⟩ <;> rcases (hheld r a).1 hr with hr' | ⟨hrp, hab'⟩
    · exact h.one q r a hq' hr'
    · exact absurd (hab' ▸ hq') (hfree q)
    · exact absurd (hab ▸ hr') (hfree r)
    · rw [hqp, hrp]
  · rw [htrans] at ha
    rw [hheld]
    split at ha
    · exact Or.inr ⟨by assumption, ha⟩
    · exact Or.inl (h.current q a ha)
  · rw [htrans]
    rcases (hheld q a).1 ha with ha | ⟨rfl, rfl⟩
    · rcases h.valid q a ha with ht | hv
      · left
        rw [if_neg]
        · exact ht
        · rintro rfl
          exact hpc a ht
      · exact Or.inr hv
    · exact Or.inl (by simp)

theorem inv_bget (h : Inv s) (hpc : s.pc p = .bget id) (ht : s.bget p id = some t) : Inv t := by
  have hno : ∀ b, ¬s.Transfers p b := by
    rintro b (hb | ⟨r, hb⟩)
    · rw [hpc] at hb
      cases hb
    · rw [hpc] at hb
      cases hb
  have hnot : ∀ {a}, (s.buf a).busy = false → ∀ q, a ∉ s.held q := by
    intro a ha q hq
    rw [(h.busy q a hq).1] at ha
    cases ha
  unfold bget at ht
  rcases h.cached id with ⟨b, hc, hid⟩ | ⟨hc, hmiss⟩
  · simp only [hc] at ht
    split at ht
    · cases ht
      exact h
    · cases ht
      rename_i hbusy
      have hfree := hnot (by simpa using hbusy)
      -- only `busy` of `b` changes
      have hbuf : ∀ a, ((s.setBuf b fun x => { x with busy := true }).buf a).id = (s.buf a).id ∧
          ((s.setBuf b fun x => { x with busy := true }).buf a).valid = (s.buf a).valid ∧
          ((s.setBuf b fun x => { x with busy := true }).buf a).dirty = (s.buf a).dirty ∧
          ((s.setBuf b fun x => { x with busy := true }).buf a).data = (s.buf a).data := by
        intro a
        rw [buf_setBuf]
        split
        · subst a
          exact ⟨rfl, rfl, rfl, rfl⟩
        · exact ⟨rfl, rfl, rfl, rfl⟩
      have hself : ((s.setBuf b fun x => { x with busy := true }).buf b).busy = true := by
        rw [buf_setBuf, if_pos rfl]
      refine inv_give ?_ hno hfree ⟨hself, by rw [(hbuf b).1, hid]; simp⟩
      refine ⟨h.calm, h.list, fun a c i => ?_, fun q a ha => ⟨?_, ?_⟩, h.one, h.current, fun q a ha => ?_, fun a => ?_,
        fun a i => ?_, fun i => ?_, h.reads⟩
      · rw [(hbuf a).1, (hbuf c).1]
        exact h.ids a c i
      · rw [buf_setBuf]
        split
        · rfl
        · exact (h.busy q a ha).1
      · rw [(hbuf a).1]
        exact (h.busy q a ha).2
      · rw [(hbuf a).2.1]
        exact h.valid q a ha
      · rw [(hbuf a).2.1, (hbuf a).2.2.1]
        exact h.dirty a
      · rw [(hbuf a).1, (hbuf a).2.1, (hbuf a).2.2.2]
        exact h.data a i
      · refine (h.disk i).imp_right ?_
        rintro ⟨a, ha, hd⟩
        exact ⟨a, (hbuf a).1.trans ha, (hbuf a).2.2.1.trans hd⟩
  · simp only [hc] at ht
    rcases h.clean with ⟨b, hcl, hbusy, hdirty⟩ | ⟨hcl, -⟩
    · simp only [hcl, Option.some.injEq] at ht
      subst ht
      have hfree := hnot hbusy
      have hself : (s.setBuf b fun x => { x with id := some id, busy := true, valid := false, dirty := false }).buf b =
          { s.buf b with id := some id, busy := true, valid := false, dirty := false } := by
        rw [buf_setBuf, if_pos rfl]
      have hother : ∀ a, a ≠ b →
          (s.setBuf b fun x => { x with id := some id, busy := true, valid := false, dirty := false }).buf a = s.buf a := by
        intro a ha
        rw [buf_setBuf, if_neg ha]
      have hne : ∀ q a, a ∈ s.held q → a ≠ b := by
        rintro q a ha rfl
        exact hfree q ha
      refine inv_give ?_ hno hfree ⟨by rw [hself], by rw [hself]; simp⟩
      refine ⟨h.calm, h.list, fun a c i ha hc' => ?_, fun q a ha => ?_, h.one, h.current, fun q a ha => ?_, fun a ha => ?_,
        fun a i hi hv => ?_, fun i => ?_, h.reads⟩
      · by_cases hab : a = b <;> by_cases hcb : c = b
        · rw [hab, hcb]
        · subst hab
          rw [hself] at ha
          cases ha
          rw [hother c hcb] at hc'
          exact absurd hc' (hmiss c)
        · subst hcb
          rw [hself] at hc'
          cases hc'
          rw [hother a hab] at ha
          exact absurd ha (hmiss a)
        · rw [hother a hab] at ha
          rw [hother c hcb] at hc'
          exact h.ids a c i ha hc'
      · rw [hother a (hne q a ha)]
        exact h.busy q a ha
      · rw [hother a (hne q a ha)]
        exact h.valid q a ha
      · by_cases hab : a = b
        · subst hab
          rw [hself] at ha
          cases ha
        · rw [hother a hab] at ha ⊢
          exact h.dirty a ha
      · by_cases hab : a = b
        · subst hab
          rw [hself] at hv
          cases hv
        · rw [hother a hab] at hi hv ⊢
          exact h.data a i hi hv
      · refine (h.disk i).imp_right ?_
        rintro ⟨a, ha, hd⟩
        have hab : a ≠ b := by
          rintro rfl
          rw [hdirty] at hd
          cases hd
        exact ⟨a, by rw [hother a hab]; exact ha, by rw [hother a hab]; exact hd⟩
    · simp only [hcl, Option.some.injEq] at ht
      subst ht
      exact ⟨Or.inr rfl, h.list, h.ids, h.busy, h.one, h.current, h.valid, h.dirty, h.data, h.disk, h.reads⟩

/-- `bread` returns what was last written. -/
theorem inv_read (h : Inv s) (hb : b ∈ s.held p) (hv : (s.buf b).valid = true)
    (hpc : ∀ a, s.Transfers p a → a = b) : Inv (s.read p b) := by
  have hgo : Inv (s.goto p .outside) := inv_goto h (fun a ha => Or.inl (hpc a ha ▸ hv)) (by simp)
  unfold read
  cases hid : (s.buf b).id with
  | none => exact absurd hid (h.busy p b hb).2
  | some id =>
    refine ⟨hgo.calm, hgo.list, hgo.ids, hgo.busy, hgo.one, hgo.current, hgo.valid, hgo.dirty, hgo.data, hgo.disk,
      fun r hr => ?_⟩
    rcases List.mem_append.1 hr with hr | hr
    · exact h.reads r hr
    · rw [List.mem_singleton.1 hr]
      exact h.data b id hid hv

/-- `iderw` of a buffer the process holds. -/
theorem inv_iderw (h : Inv s) (hb : b ∈ s.held p) {r : Bool} (hpc : ∀ a, s.Transfers p a → a = b)
    (hdo : (s.buf b).valid = true → (s.buf b).dirty = true) : Inv (s.iderw p b r) := by
  unfold iderw
  rw [if_neg (by simp [(h.busy p b hb).1]), if_neg]
  · have hgo : Inv (s.goto p (.iderw b r)) := by
      refine inv_goto h (fun a ha => Or.inr (Or.inr ⟨r, by rw [hpc a ha]⟩)) ?_
      rintro a (ha | ⟨r', ha⟩)
      · cases ha
      · cases ha
        exact hb
    exact ⟨hgo.calm, hgo.list, hgo.ids, hgo.busy, hgo.one, hgo.current, hgo.valid, hgo.dirty, hgo.data, hgo.disk,
      hgo.reads⟩
  · rintro ⟨hv, hd⟩
    rw [hdo hv] at hd
    cases hd

omit [DecidableEq Proc] in
theorem transfers_unique {q : Proc} {a : Fin NBUF} (hb : s.Transfers q b) (ha : s.Transfers q a) : a = b := by
  rcases hb with hb | ⟨r, hb⟩ <;> rcases ha with ha | ⟨r', ha⟩ <;> rw [hb] at ha <;> cases ha <;> rfl

omit [DecidableEq Proc] in
/-- New contents in a buffer the process holds. -/
theorem inv_write (h : Inv s) (hb : b ∈ s.held p) (hpc : s.pc p = .outside) (d : Data) : Inv (s.write b d) := by
  obtain ⟨hbusy, hid⟩ := h.busy p b hb
  have hv : (s.buf b).valid = true := by
    refine (h.valid p b hb).resolve_left ?_
    rintro (ht | ⟨r, ht⟩) <;> rw [hpc] at ht <;> cases ht
  obtain ⟨id, hid⟩ := Option.ne_none_iff_exists'.1 hid
  have hself : (s.write b d).buf b = { s.buf b with data := d, dirty := true } :=
    (buf_setBuf s b b fun x => { x with data := d, dirty := true }).trans (if_pos rfl)
  have hother : ∀ a, a ≠ b → (s.write b d).buf a = s.buf a := fun a ha =>
    (buf_setBuf s b a fun x => { x with data := d, dirty := true }).trans (if_neg ha)
  have hlatest : (s.write b d).latest = Function.update s.latest id d := by
    unfold write
    rw [hid]
  have hflags : ∀ a, ((s.write b d).buf a).id = (s.buf a).id ∧ ((s.write b d).buf a).busy = (s.buf a).busy ∧
      ((s.write b d).buf a).valid = (s.buf a).valid := by
    intro a
    by_cases ha : a = b
    · subst ha
      rw [hself]
      exact ⟨rfl, rfl, rfl⟩
    · rw [hother a ha]
      exact ⟨rfl, rfl, rfl⟩
  refine ⟨h.calm, h.list, fun a c i => ?_, fun q a ha => ?_, h.one, h.current, fun q a ha => ?_, fun a ha => ?_,
    fun a i hi hva => ?_, fun i => ?_, h.reads⟩
  · rw [(hflags a).1, (hflags c).1]
    exact h.ids a c i
  · rw [(hflags a).1, (hflags a).2.1]
    exact h.busy q a ha
  · rw [(hflags a).2.2]
    exact h.valid q a ha
  · rw [(hflags a).2.2]
    by_cases hab : a = b
    · rw [hab, hv]
    · rw [hother a hab] at ha
      exact h.dirty a ha
  · rw [(hflags a).1] at hi
    rw [(hflags a).2.2] at hva
    rw [hlatest]
    by_cases hab : a = b
    · subst hab
      cases hid.symm.trans hi
      rw [hself, Function.update_self]
    · rw [hother a hab, Function.update_of_ne]
      · exact h.data a i hi hva
      · rintro rfl
        exact hab (h.ids a b i hi hid)
  · by_cases hii : i = id
    · subst hii
      exact Or.inr ⟨b, by rw [(hflags b).1, hid], by rw [hself]⟩
    · rw [hlatest, Function.update_of_ne hii]
      refine (h.disk i).imp_right ?_
      rintro ⟨a, ha, hd⟩
      refine ⟨a, (hflags a).1.trans ha, ?_⟩
      by_cases hab : a = b
      · rw [hab, hself]
      · rw [hother a hab]
        exact hd

theorem inv_brelse (h : Inv s) (hb : b ∈ s.held p) (hpc : s.pc p = .outside) : Inv (s.brelse p b) := by
  obtain ⟨hbusy, -⟩ := h.busy p b hb
  unfold brelse
  rw [if_neg (by simp [hbusy])]
  have hout : ∀ a, ¬s.Transfers p a := by
    rintro a (ht | ⟨r, ht⟩) <;> rw [hpc] at ht <;> cases ht
  have hheld : ∀ q a, a ∈ Function.update s.held p ((s.held p).erase b) q ↔ a ∈ s.held q ∧ a ≠ b := by
    intro q a
    rw [Function.update_apply]
    split
    · subst q
      rw [Finset.mem_erase, and_comm]
    · rename_i hq
      refine ⟨fun ha => ⟨ha, ?_⟩, fun ha => ha.1⟩
      rintro rfl
      exact hq (h.one q p a ha hb)
  have hbuf : ∀ a, ((s.setBuf b fun x => { x with busy := false }).buf a).id = (s.buf a).id ∧
      ((s.setBuf b fun x => { x with busy := false }).buf a).valid = (s.buf a).valid ∧
      ((s.setBuf b fun x => { x with busy := false }).buf a).dirty = (s.buf a).dirty ∧
      ((s.setBuf b fun x => { x with busy := false }).buf a).data = (s.buf a).data := by
    intro a
    rw [buf_setBuf]
    split
    · subst a
      exact ⟨rfl, rfl, rfl, rfl⟩
    · exact ⟨rfl, rfl, rfl, rfl⟩
  refine ⟨h.calm, ?_, fun a c i => ?_, fun q a ha => ?_, fun q r a hq hr => ?_, fun q a ha => ?_, fun q a ha => ?_,
    fun a => ?_, fun a i => ?_, fun i => ?_, h.reads⟩
  · obtain ⟨l, hl, hall⟩ := h.list
    obtain ⟨l₁, l₂, rfl⟩ := List.append_of_mem (hall b)
    have hmid := List.nodup_middle.1 hl.nodup
    refine ⟨_, Circle.pushFront_holds (Circle.unlink_holds hl) (List.nodup_cons.1 hmid).1, fun a => ?_⟩
    have := hall a
    simp only [List.mem_append, List.mem_cons] at this ⊢
    tauto
  · show Buf.id ((s.setBuf b fun x => { x with busy := false }).buf a) = some i →
      Buf.id ((s.setBuf b fun x => { x with busy := false }).buf c) = some i → a = c
    rw [(hbuf a).1, (hbuf c).1]
    exact h.ids a c i
  · obtain ⟨ha, hne⟩ := (hheld q a).1 ha
    show Buf.busy ((s.setBuf b fun x => { x with busy := false }).buf a) = true ∧
      Buf.id ((s.setBuf b fun x => { x with busy := false }).buf a) ≠ none
    rw [buf_setBuf, if_neg hne]
    exact h.busy q a ha
  · exact h.one q r a ((hheld q a).1 hq).1 ((hheld r a).1 hr).1
  · refine (hheld q a).2 ⟨h.current q a ha, ?_⟩
    rintro rfl
    obtain rfl := h.one q p a (h.current q a ha) hb
    exact hout a ha
  · obtain ⟨ha, -⟩ := (hheld q a).1 ha
    show s.Transfers q a ∨ Buf.valid ((s.setBuf b fun x => { x with busy := false }).buf a) = true
    rw [(hbuf a).2.1]
    exact h.valid q a ha
  · show Buf.dirty ((s.setBuf b fun x => { x with busy := false }).buf a) = true →
      Buf.valid ((s.setBuf b fun x => { x with busy := false }).buf a) = true
    rw [(hbuf a).2.1, (hbuf a).2.2.1]
    exact h.dirty a
  · show Buf.id ((s.setBuf b fun x => { x with busy := false }).buf a) = some i →
      Buf.valid ((s.setBuf b fun x => { x with busy := false }).buf a) = true →
      Buf.data ((s.setBuf b fun x => { x with busy := false }).buf a) = s.latest i
    rw [(hbuf a).1, (hbuf a).2.1, (hbuf a).2.2.2]
    exact h.data a i
  · refine (h.disk i).imp_right ?_
    rintro ⟨a, ha, hd⟩
    exact ⟨a, (hbuf a).1.trans ha, (hbuf a).2.2.1.trans hd⟩

omit [DecidableEq Proc] in
/-- Buffer `b` and the disk agree. -/
theorem inv_settle (h : Inv s) (hid : (s.buf b).id = some id) {d : SectorId → Data} {q : List (Fin NBUF)}
    (hd : d id = s.latest id) (hother : ∀ i, i ≠ id → d i = s.disk i) :
    Inv { s with
      buf := Function.update s.buf b { s.buf b with data := s.latest id, valid := true, dirty := false }
      disk := d
      idequeue := q } := by
  have hbuf : ∀ a, a ≠ b →
      Function.update s.buf b { s.buf b with data := s.latest id, valid := true, dirty := false } a = s.buf a := fun a ha =>
    Function.update_of_ne ha _ _
  have hself : Function.update s.buf b { s.buf b with data := s.latest id, valid := true, dirty := false } b =
      { s.buf b with data := s.latest id, valid := true, dirty := false } := Function.update_self ..
  have hflags : ∀ a,
      (Function.update s.buf b { s.buf b with data := s.latest id, valid := true, dirty := false } a).id = (s.buf a).id ∧
      (Function.update s.buf b { s.buf b with data := s.latest id, valid := true, dirty := false } a).busy =
        (s.buf a).busy := by
    intro a
    by_cases ha : a = b
    · subst ha
      rw [hself]
      exact ⟨rfl, rfl⟩
    · rw [hbuf a ha]
      exact ⟨rfl, rfl⟩
  refine ⟨h.calm, h.list, fun a c i => ?_, fun q a ha => ?_, h.one, h.current, fun q a ha => ?_, fun a ha => ?_,
    fun a i hi hv => ?_, fun i => ?_, h.reads⟩
  · dsimp only
    rw [(hflags a).1, (hflags c).1]
    exact h.ids a c i
  · dsimp only
    rw [(hflags a).1, (hflags a).2]
    exact h.busy q a ha
  · by_cases hab : a = b
    · right
      dsimp only
      rw [hab, hself]
    · dsimp only
      rw [hbuf a hab]
      exact h.valid q a ha
  · dsimp only at ha ⊢
    by_cases hab : a = b
    · rw [hab, hself]
    · rw [hbuf a hab] at ha ⊢
      exact h.dirty a ha
  · dsimp only at hi hv ⊢
    by_cases hab : a = b
    · subst hab
      rw [(hflags a).1, hid] at hi
      cases hi
      rw [hself]
    · rw [hbuf a hab] at hi hv ⊢
      exact h.data a i hi hv
  · by_cases hii : i = id
    · subst hii
      exact Or.inl hd
    · dsimp only
      rw [hother i hii]
      refine (h.disk i).imp_right ?_
      rintro ⟨a, ha, hda⟩
      have hab : a ≠ b := by
        rintro rfl
        exact hii (Option.some.inj (ha.symm.trans hid))
      rw [← hbuf a hab] at ha hda
      exact ⟨a, ha, hda⟩

omit [DecidableEq Proc] in
/-- The end of a transfer. -/
theorem inv_ideintr (h : Inv s) (b : Fin NBUF) : Inv (s.ideintr b) := by
  unfold ideintr
  cases hid : (s.buf b).id with
  | none => exact h
  | some id =>
    dsimp only
    by_cases hd : (s.buf b).dirty = true
    · rw [if_pos hd]
      have hdata : (s.buf b).data = s.latest id := h.data b id hid (h.dirty b hd)
      have := inv_settle h hid (d := Function.update s.disk id (s.latest id)) (q := s.idequeue.erase b)
        (Function.update_self ..) fun i hi => Function.update_of_ne hi _ _
      rw [← hdata] at this
      exact this
    · rw [if_neg hd]
      have hdisk : s.disk id = s.latest id := by
        refine (h.disk id).resolve_right ?_
        rintro ⟨a, ha, hda⟩
        rw [h.ids a b id ha hid] at hda
        exact hd hda
      have := inv_settle h hid (d := s.disk) (q := s.idequeue.erase b) hdisk fun _ _ => rfl
      rw [← hdisk] at this
      exact this

/-- **One step** keeps the invariant. -/
theorem inv_step {a : BioAct Proc Data} (h : Inv s) (ha : s.step a = some t) : Inv t := by
  unfold step at ha
  split at ha
  · cases ha
  cases a with
  | bread p id =>
    simp only [Option.ite_none_right_eq_some, Option.some.injEq] at ha
    obtain ⟨hpc, rfl⟩ := ha
    refine inv_goto h (fun b hb => ?_) (by simp)
    rcases hb with hb | ⟨r, hb⟩ <;> rw [hpc] at hb <;> cases hb
  | bget p =>
    dsimp only at ha
    split at ha
    · exact inv_bget h (by assumption) ha
    · cases ha
  | check p =>
    dsimp only at ha
    split at ha
    · rename_i b hpc
      cases ha
      have ht : s.Transfers p b := Or.inl hpc
      unfold check
      split
      · exact inv_read h (h.current p b ht) (by assumption) fun a => transfers_unique ht
      · rename_i hv
        exact inv_iderw h (h.current p b ht) (fun a => transfers_unique ht) fun hv' => absurd hv' hv
    · cases ha
  | ready p =>
    dsimp only at ha
    split at ha
    · rename_i b r hpc
      simp only [Option.ite_none_right_eq_some, Option.some.injEq] at ha
      obtain ⟨⟨hv, -⟩, rfl⟩ := ha
      have ht : s.Transfers p b := Or.inr ⟨r, hpc⟩
      split
      · exact inv_read h (h.current p b ht) hv fun a => transfers_unique ht
      · exact inv_goto h (fun a ha => Or.inl (transfers_unique ht ha ▸ hv)) (by simp)
    · cases ha
  | bwrite p b d =>
    simp only [Option.ite_none_right_eq_some, Option.some.injEq] at ha
    obtain ⟨⟨hpc, hb⟩, rfl⟩ := ha
    unfold bwrite
    rw [if_neg (by simp [(h.busy p b hb).1])]
    refine inv_iderw (inv_write h hb hpc d) hb ?_ fun _ => ?_
    · rintro a (ht | ⟨r, ht⟩) <;> exact absurd (hpc.symm.trans ht) (by simp)
    · show ((s.setBuf b fun x => { x with data := d, dirty := true }).buf b).dirty = true
      rw [buf_setBuf, if_pos rfl]
  | logWrite p b d =>
    simp only [Option.ite_none_right_eq_some, Option.some.injEq] at ha
    obtain ⟨⟨hpc, hb⟩, rfl⟩ := ha
    exact inv_write h hb hpc d
  | brelse p b =>
    simp only [Option.ite_none_right_eq_some, Option.some.injEq] at ha
    obtain ⟨⟨hpc, hb⟩, rfl⟩ := ha
    exact inv_brelse h hb hpc
  | ideintr b =>
    simp only [Option.ite_none_right_eq_some, Option.some.injEq] at ha
    obtain ⟨-, rfl⟩ := ha
    exact inv_ideintr h b

/-- **Every run** keeps the invariant. -/
theorem inv_run {disk : SectorId → Data} {data : Fin NBUF → Data} {tr : List (BioAct Proc Data)}
    (h : run step (binit disk data) tr = some s) : Inv s :=
  run_induction (fun _ s => Inv s) (inv_binit disk data) (fun _ _ _ _ _ ih ha => inv_step ih ha) tr s h

/-! ## Recycling -/

theorem buf_read (s : Bcache Proc Data) (p : Proc) (b : Fin NBUF) : (s.read p b).buf = s.buf := by
  unfold read
  split <;> rfl

theorem buf_iderw (s : Bcache Proc Data) (p : Proc) (b : Fin NBUF) (r : Bool) : (s.iderw p b r).buf = s.buf := by
  unfold iderw
  split
  · rfl
  · split <;> rfl

theorem id_update {f : Fin NBUF → Buf Data} {c : Fin NBUF} {x : Buf Data} (hx : x.id = (f c).id) (b : Fin NBUF) :
    (Function.update f c x b).id = (f b).id := by
  rw [Function.update_apply]
  split
  · subst b
    exact hx
  · rfl

/-- A dirty buffer stays the buffer of its sector. -/
theorem step_id {a : BioAct Proc Data} (h : Inv s) (ha : s.step a = some t) (hb : (s.buf b).dirty = true) :
    (t.buf b).id = (s.buf b).id := by
  unfold step at ha
  split at ha
  · cases ha
  cases a with
  | bread p id =>
    simp only [Option.ite_none_right_eq_some, Option.some.injEq] at ha
    obtain ⟨-, rfl⟩ := ha
    rfl
  | bget p =>
    dsimp only at ha
    split at ha
    · rename_i id _
      unfold bget at ha
      rcases h.cached id with ⟨c, hc, -⟩ | ⟨hc, -⟩
      · simp only [hc] at ha
        split at ha
        · cases ha
          rfl
        · cases ha
          refine id_update (f := s.buf) (c := c) ?_ b
          rfl
      · simp only [hc] at ha
        rcases h.clean with ⟨c, hcl, -, hdirty⟩ | ⟨hcl, -⟩
        · simp only [hcl, Option.some.injEq] at ha
          subst ha
          have hbc : b ≠ c := by
            rintro rfl
            rw [hdirty] at hb
            cases hb
          exact congrArg Buf.id (Function.update_of_ne hbc _ _)
        · simp only [hcl, Option.some.injEq] at ha
          subst ha
          rfl
    · cases ha
  | check p =>
    dsimp only at ha
    split at ha
    · cases ha
      unfold check
      split
      · rw [buf_read]
      · rw [buf_iderw]
    · cases ha
  | ready p =>
    dsimp only at ha
    split at ha
    · simp only [Option.ite_none_right_eq_some, Option.some.injEq] at ha
      obtain ⟨-, rfl⟩ := ha
      split
      · rw [buf_read]
      · rfl
    · cases ha
  | bwrite p c d =>
    simp only [Option.ite_none_right_eq_some, Option.some.injEq] at ha
    obtain ⟨-, rfl⟩ := ha
    unfold bwrite
    split
    · rfl
    · rw [buf_iderw]
      refine id_update (f := s.buf) (c := c) ?_ b
      rfl
  | logWrite p c d =>
    simp only [Option.ite_none_right_eq_some, Option.some.injEq] at ha
    obtain ⟨-, rfl⟩ := ha
    refine id_update (f := s.buf) (c := c) ?_ b
    rfl
  | brelse p c =>
    simp only [Option.ite_none_right_eq_some, Option.some.injEq] at ha
    obtain ⟨-, rfl⟩ := ha
    unfold brelse
    split
    · rfl
    · refine id_update (f := s.buf) (c := c) ?_ b
      rfl
  | ideintr c =>
    simp only [Option.ite_none_right_eq_some, Option.some.injEq] at ha
    obtain ⟨-, rfl⟩ := ha
    unfold ideintr
    split
    · dsimp only
      split
      · refine id_update (f := s.buf) (c := c) ?_ b
        rfl
      · refine id_update (f := s.buf) (c := c) ?_ b
        rfl
    · rfl

/-! ## Runs -/

/-- **The buffer cache has one coherent copy per sector.** In every state of every run the list links all buffers in
both directions, no two buffers have the same sector, a buffer that `bget` gave away is busy and has one holder, no step
gives a dirty buffer to another sector, and every `bread` returned what was last written to its sector. -/
theorem one_copy {disk : SectorId → Data} {data : Fin NBUF → Data} {tr : List (BioAct Proc Data)}
    (h : run step (binit disk data) tr = some s) :
    (∃ l, l.Perm (List.finRange NBUF) ∧ s.list.links.Holds l) ∧
      (∀ a b id, (s.buf a).id = some id → (s.buf b).id = some id → a = b) ∧
      (∀ p q b, b ∈ s.held p → (s.buf b).busy = true ∧ (b ∈ s.held q → p = q)) ∧
      (∀ a t, s.step a = some t → ∀ b, (s.buf b).dirty = true → (t.buf b).id = (s.buf b).id) ∧
      ∀ r ∈ s.reads, r.1 = r.2 := by
  have hs := inv_run h
  refine ⟨?_, hs.ids, fun p q b hb => ⟨(hs.busy p b hb).1, hs.one p q b hb⟩, fun a t ha b => step_id hs ha, hs.reads⟩
  obtain ⟨l, hl, hall⟩ := hs.list
  refine ⟨l, (List.perm_ext_iff_of_nodup hl.nodup (List.nodup_finRange NBUF)).2 fun b => ?_, hl⟩
  exact iff_of_true (hall b) (List.mem_finRange b)

/-- Process 0 reads sector 7, writes 5 to it through the log and releases it; process 1 reads it. -/
theorem one_copy_two :
    ∃ tr, ∃ s : Bcache (Fin 2) Nat, run step (binit (fun _ => 3) fun _ => 0) tr = some s ∧ s.reads = [(3, 3), (5, 5)] ∧
      (∃ l, l.Perm (List.finRange NBUF) ∧ s.list.links.Holds l) ∧
      (∀ a b id, (s.buf a).id = some id → (s.buf b).id = some id → a = b) ∧
      (∀ p q b, b ∈ s.held p → (s.buf b).busy = true ∧ (b ∈ s.held q → p = q)) ∧
      (∀ a t, s.step a = some t → ∀ b, (s.buf b).dirty = true → (t.buf b).id = (s.buf b).id) ∧
      ∀ r ∈ s.reads, r.1 = r.2 := by
  have h : (run step (binit (fun _ => 3) fun _ => 0 : Bcache (Fin 2) Nat)
      [.bread 0 (1, 7), .bget 0, .bread 1 (1, 7), .bget 1, .check 0, .ideintr 0, .bget 1, .ready 0, .logWrite 0 0 5,
        .brelse 0 0, .bget 1, .check 1]).map (fun s => decide (s.reads = [(3, 3), (5, 5)])) = some true := by
    decide +kernel
  obtain ⟨s, hs, hr⟩ := Option.map_eq_some_iff.1 h
  exact ⟨_, s, hs, of_decide_eq_true hr, one_copy hs⟩

end Bcache

end NewXv6
