import NewXv6.Bio.Cache
import NewXv6.Log.Race
import Mathlib.Algebra.BigOperators.Fin
import Mathlib.Algebra.Order.BigOperators.Group.Finset

/-!
# Free buffers

File system calls read and write through the buffer cache, and the writers are let in by `begin_op`: the steps are those
of `NewXv6.Bio.Model` and `NewXv6.Log.Group` together. `log_write` belongs to an operation, and `bwrite` to `commit`.

`bget` finds no buffer exactly if the sectors that processes use and those whose last write is not on the disk yet are
as many as there are buffers. There are as many buffers as sectors in the log, and many more processes than that.
-/

namespace NewXv6

open Lib

/-- The cache, the log and the sectors that were written and are not on the disk yet. -/
structure Fsys (Proc Data : Type) where
  bio : Bcache Proc Data
  group : Group Proc
  pinned : Finset SectorId

/-- A step of the cache, or of the log outside of `log_write`. -/
inductive FsAct (Proc Data : Type)
  | bio (a : BioAct Proc Data)
  | log (a : Act Proc)

namespace Fsys

variable {Proc Data : Type} [DecidableEq Proc]

/-- The system after boot. -/
def init (disk : SectorId → Data) (data : Fin NBUF → Data) (start size : Nat) : Fsys Proc Data where
  bio := Bcache.binit disk data
  group := Group.init start size
  pinned := ∅

/-- `log_write`: its tests and the header, then the buffer. -/
def logWrite (s : Fsys Proc Data) (p : Proc) (b : Fin NBUF) (data : Data) : Option (Fsys Proc Data) :=
  match s.bio.step (.logWrite p b data), (s.bio.buf b).id with
  | some bio, some id =>
    let group := s.group.logWrite id.2
    if group.panicked = none then some { bio, group, pinned := insert id s.pinned } else some { s with group }
  | _, _ => none

/-- `bwrite`, up to the sleep in `iderw`. -/
def bwrite (s : Fsys Proc Data) (p : Proc) (b : Fin NBUF) (data : Data) : Option (Fsys Proc Data) :=
  match s.bio.step (.bwrite p b data), (s.bio.buf b).id with
  | some bio, some id => some { s with bio, pinned := insert id s.pinned }
  | _, _ => none

/-- `ideintr`: what was dirty is on the disk. -/
def ideintr (s : Fsys Proc Data) (b : Fin NBUF) : Option (Fsys Proc Data) :=
  match s.bio.step (.ideintr b), (s.bio.buf b).id with
  | some bio, some id => some { s with bio, pinned := if (s.bio.buf b).dirty then s.pinned.erase id else s.pinned }
  | _, _ => none

/-- Process `p` is in `commit`. -/
def Commits (s : Fsys Proc Data) (p : Proc) : Prop :=
  match s.group.phase p with
  | .commit _ => True
  | _ => False

instance (s : Fsys Proc Data) (p : Proc) : Decidable (s.Commits p) := by
  unfold Commits
  cases s.group.phase p <;> infer_instance

/-- One step, if the process is where the action starts and nobody has panicked. -/
def step (s : Fsys Proc Data) (a : FsAct Proc Data) : Option (Fsys Proc Data) :=
  if s.group.panicked ≠ none then none
  else
    match a with
    | .bio (.logWrite p b data) => if s.group.phase p = .inOp then s.logWrite p b data else none
    | .bio (.bwrite p b data) => if s.Commits p then s.bwrite p b data else none
    | .bio (.ideintr b) => s.ideintr b
    | .bio a => (s.bio.step a).map fun bio => { s with bio }
    | .log (.logWrite _ _) => none
    | .log a =>
      if s.bio.panicked = none ∧ s.bio.pc a.proc = .outside then (s.group.step a).map fun group => { s with group }
      else none

/-- A process uses the sector, or its last write is not on the disk yet. -/
def Needs (s : Fsys Proc Data) (id : SectorId) : Prop :=
  id ∈ s.pinned ∨ ∃ p b, b ∈ s.bio.held p ∧ (s.bio.buf b).id = some id

/-- Fewer sectors are needed than there are buffers. -/
def Room (s : Fsys Proc Data) : Prop := ∀ U : Finset SectorId, (∀ id ∈ U, s.Needs id) → U.card < NBUF

/-- The condition on a step: when `bget` looks for a sector that is not cached, there is room. -/
def HasRoom (s : Fsys Proc Data) : FsAct Proc Data → Prop
  | .bio (.bget p) => ∀ id, s.bio.pc p = .bget id → (∀ b, (s.bio.buf b).id ≠ some id) → s.Room
  | _ => True

/-! ## The invariant -/

/-- What holds between any two steps. -/
structure Inv (s : Fsys Proc Data) : Prop where
  bio : s.bio.Inv
  holder : ∀ b, (s.bio.buf b).busy = true → ∃ p, b ∈ s.bio.held p
  pinned : ∀ id, id ∈ s.pinned ↔ ∃ b, (s.bio.buf b).id = some id ∧ (s.bio.buf b).dirty = true
  assigned : ∀ b, (s.bio.buf b).dirty = true → (s.bio.buf b).id ≠ none

variable {s t : Fsys Proc Data} {p : Proc} {b : Fin NBUF} {id : SectorId}

omit [DecidableEq Proc] in
/-- **The count.** Without a free buffer as many sectors are needed as there are buffers, and the other way round. -/
theorem Inv.room_iff (h : Inv s) :
    ¬s.Room ↔ ∀ b, (s.bio.buf b).busy = true ∨ (s.bio.buf b).dirty = true := by
  have hneeds : ∀ id, s.Needs id ↔
      ∃ b, (s.bio.buf b).id = some id ∧ ((s.bio.buf b).busy = true ∨ (s.bio.buf b).dirty = true) := by
    intro id
    unfold Needs
    rw [h.pinned]
    constructor
    · rintro (⟨b, hid, hd⟩ | ⟨p, b, hb, hid⟩)
      · exact ⟨b, hid, Or.inr hd⟩
      · exact ⟨b, hid, Or.inl (h.bio.busy p b hb).1⟩
    · rintro ⟨b, hid, hb | hd⟩
      · obtain ⟨p, hp⟩ := h.holder b hb
        exact Or.inr ⟨p, b, hp, hid⟩
      · exact Or.inl ⟨b, hid, hd⟩
  have hinj : ∀ a b, (s.bio.buf a).id = (s.bio.buf b).id → (s.bio.buf a).id ≠ none → a = b := by
    intro a b hab hne
    obtain ⟨id, hid⟩ := Option.ne_none_iff_exists'.1 hne
    exact h.bio.ids a b id hid (hab ▸ hid)
  constructor
  · -- the buffers of the needed sectors are all the buffers
    intro hno b
    simp only [Room, Classical.not_forall, Nat.not_lt] at hno
    obtain ⟨U, hU, hcard⟩ := hno
    let f : Fin NBUF → Option SectorId := fun b => (s.bio.buf b).id
    let B : Finset (Fin NBUF) := Finset.univ.filter fun b => (s.bio.buf b).busy = true ∨ (s.bio.buf b).dirty = true
    have hsub : U.image some ⊆ B.image f := by
      intro x hx
      obtain ⟨id, hid, rfl⟩ := Finset.mem_image.1 hx
      obtain ⟨b, hb, hbd⟩ := (hneeds id).1 (hU id hid)
      exact Finset.mem_image.2 ⟨b, Finset.mem_filter.2 ⟨Finset.mem_univ b, hbd⟩, hb⟩
    have hle : NBUF ≤ B.card :=
      calc NBUF ≤ U.card := hcard
        _ = (U.image some).card := (Finset.card_image_of_injective U (Option.some_injective _)).symm
        _ ≤ (B.image f).card := Finset.card_le_card hsub
        _ ≤ B.card := Finset.card_image_le
    have huniv : B = Finset.univ := by
      refine Finset.eq_univ_of_card B (Nat.le_antisymm (Finset.card_le_univ B) ?_)
      rwa [Fintype.card_fin]
    exact (Finset.mem_filter.1 (huniv ▸ Finset.mem_univ b : b ∈ B)).2
  · intro hall hroom
    have hid : ∀ b, (s.bio.buf b).id ≠ none := by
      intro b
      rcases hall b with hb | hd
      · obtain ⟨p, hp⟩ := h.holder b hb
        exact (h.bio.busy p b hp).2
      · exact h.assigned b hd
    let f : Fin NBUF → SectorId := fun b => ((s.bio.buf b).id).get (Option.isSome_iff_ne_none.2 (hid b))
    have hf : ∀ b, (s.bio.buf b).id = some (f b) := fun b => (Option.some_get _).symm
    have hfinj : Function.Injective f := fun a b hab => hinj a b (by rw [hf a, hf b, hab]) (hid a)
    have := hroom (Finset.univ.image f) fun id hmem => by
      obtain ⟨b, -, rfl⟩ := Finset.mem_image.1 hmem
      exact (hneeds _).2 ⟨b, hf b, hall b⟩
    rw [Finset.card_image_of_injective _ hfinj, Finset.card_univ, Fintype.card_fin] at this
    exact Nat.lt_irrefl _ this

omit [DecidableEq Proc] in
theorem inv_init (disk : SectorId → Data) (data : Fin NBUF → Data) (start size : Nat) :
    Inv (init disk data start size : Fsys Proc Data) where
  bio := Bcache.inv_binit disk data
  holder b hb := nomatch hb
  pinned id := by simp [init, Bcache.binit]
  assigned b hb := nomatch hb

omit [DecidableEq Proc] in
/-- Only the owners and the flags of the buffers matter. -/
theorem Inv.congr (h : Inv s) {c : Bcache Proc Data} (hc : c.Inv)
    (hbuf : ∀ b, (c.buf b).id = (s.bio.buf b).id ∧ (c.buf b).busy = (s.bio.buf b).busy ∧
      (c.buf b).dirty = (s.bio.buf b).dirty) (hheld : c.held = s.bio.held) : Inv { s with bio := c } where
  bio := hc
  holder b hb := by
    dsimp only at hb ⊢
    rw [hheld]
    exact h.holder b ((hbuf b).2.1 ▸ hb)
  pinned id := by
    dsimp only
    rw [h.pinned]
    refine exists_congr fun b => ?_
    rw [(hbuf b).1, (hbuf b).2.2]
  assigned b hb := by
    dsimp only at hb ⊢
    rw [(hbuf b).1]
    exact h.assigned b ((hbuf b).2.2 ▸ hb)

/-! ## One step -/

omit [DecidableEq Proc] in
/-- A write to buffer `b` pins its sector. -/
theorem Inv.pin (h : Inv s) {c : Bcache Proc Data} (hc : c.Inv) (hid : (s.bio.buf b).id = some id)
    (hbuf : ∀ a, (c.buf a).id = (s.bio.buf a).id ∧ (c.buf a).busy = (s.bio.buf a).busy)
    (hdirty : ∀ a, (c.buf a).dirty = true ↔ a = b ∨ (s.bio.buf a).dirty = true) (hheld : c.held = s.bio.held)
    {g : Group Proc} : Inv { bio := c, group := g, pinned := insert id s.pinned } where
  bio := hc
  holder a ha := by
    dsimp only at ha ⊢
    rw [hheld]
    exact h.holder a ((hbuf a).2 ▸ ha)
  pinned i := by
    dsimp only
    rw [Finset.mem_insert, h.pinned]
    constructor
    · rintro (rfl | ⟨a, ha, hd⟩)
      · exact ⟨b, (hbuf b).1.trans hid, (hdirty b).2 (Or.inl rfl)⟩
      · exact ⟨a, (hbuf a).1.trans ha, (hdirty a).2 (Or.inr hd)⟩
    · rintro ⟨a, ha, hd⟩
      rw [(hbuf a).1] at ha
      rcases (hdirty a).1 hd with rfl | hd
      · exact Or.inl (Option.some.inj (ha.symm.trans hid))
      · exact Or.inr ⟨a, ha, hd⟩
  assigned a ha := by
    dsimp only at ha ⊢
    rw [(hbuf a).1]
    rcases (hdirty a).1 ha with rfl | hd
    · rw [hid]
      simp
    · exact h.assigned a hd

omit [DecidableEq Proc] in
/-- The disk has buffer `b`. -/
theorem Inv.unpin (h : Inv s) {c : Bcache Proc Data} (hc : c.Inv) (hid : (s.bio.buf b).id = some id)
    (hbuf : ∀ a, (c.buf a).id = (s.bio.buf a).id ∧ (c.buf a).busy = (s.bio.buf a).busy)
    (hdirty : ∀ a, (c.buf a).dirty = true ↔ a ≠ b ∧ (s.bio.buf a).dirty = true) (hheld : c.held = s.bio.held) :
    Inv { s with bio := c, pinned := if (s.bio.buf b).dirty then s.pinned.erase id else s.pinned } where
  bio := hc
  holder a ha := by
    dsimp only at ha ⊢
    rw [hheld]
    exact h.holder a ((hbuf a).2 ▸ ha)
  pinned i := by
    have hmem : i ∈ (if (s.bio.buf b).dirty then s.pinned.erase id else s.pinned) ↔
        ∃ a, (s.bio.buf a).id = some i ∧ (a ≠ b ∧ (s.bio.buf a).dirty = true) := by
      split
      · rw [Finset.mem_erase, h.pinned]
        constructor
        · rintro ⟨hne, a, ha, hd⟩
          refine ⟨a, ha, ?_, hd⟩
          rintro rfl
          exact hne (Option.some.inj (ha.symm.trans hid))
        · rintro ⟨a, ha, hab, hd⟩
          refine ⟨?_, a, ha, hd⟩
          rintro rfl
          exact hab (h.bio.ids a b i ha hid)
      · rename_i hb
        rw [h.pinned]
        refine exists_congr fun a => and_congr_right fun _ => ⟨fun hd => ⟨?_, hd⟩, fun hd => hd.2⟩
        rintro rfl
        exact hb hd
    dsimp only
    rw [hmem]
    refine exists_congr fun a => ?_
    rw [(hbuf a).1, hdirty a]
  assigned a ha := by
    dsimp only at ha ⊢
    rw [(hbuf a).1]
    exact h.assigned a ((hdirty a).1 ha).2

theorem inv_bget (h : Inv s) {c : Bcache Proc Data} (hc : c.Inv) (hb : s.bio.bget p id = some c) :
    Inv { s with bio := c } := by
  have hheld : ∀ (d : Bcache Proc Data) b q a, a ∈ (d.give p b).held q ↔ a ∈ d.held q ∨ (q = p ∧ a = b) := by
    intro d b q a
    simp only [Bcache.give, Function.update_apply]
    split
    · subst q
      simp [or_comm]
    · rename_i hq
      simp only [hq, false_and, or_false]
  unfold Bcache.bget at hb
  rcases h.bio.cached id with ⟨b, hca, hid⟩ | ⟨hca, -⟩
  · simp only [hca] at hb
    split at hb
    · cases hb
      exact h
    · cases hb
      have hbuf : ∀ a, ((s.bio.setBuf b fun x => { x with busy := true }).buf a).id = (s.bio.buf a).id ∧
          ((s.bio.setBuf b fun x => { x with busy := true }).buf a).dirty = (s.bio.buf a).dirty := by
        intro a
        rw [Bcache.buf_setBuf]
        split
        · subst a
          exact ⟨rfl, rfl⟩
        · exact ⟨rfl, rfl⟩
      refine ⟨hc, fun a ha => ?_, fun i => (h.pinned i).trans (exists_congr fun a => ?_), fun a ha => ?_⟩
      · by_cases hab : a = b
        · exact ⟨p, (hheld _ b p a).2 (Or.inr ⟨rfl, hab⟩)⟩
        · change ((s.bio.setBuf b fun x => { x with busy := true }).buf a).busy = true at ha
          rw [Bcache.buf_setBuf, if_neg hab] at ha
          obtain ⟨q, hq⟩ := h.holder a ha
          exact ⟨q, (hheld _ b q a).2 (Or.inl hq)⟩
      · exact and_congr (by rw [← (hbuf a).1]; rfl) (by rw [← (hbuf a).2]; rfl)
      · exact fun hn => h.assigned a ((hbuf a).2 ▸ ha) ((hbuf a).1 ▸ hn)
  · simp only [hca] at hb
    rcases h.bio.clean with ⟨b, hcl, hbusy, hdirty⟩ | ⟨hcl, -⟩
    · simp only [hcl, Option.some.injEq] at hb
      subst hb
      have hself : ((s.bio.setBuf b fun x => { x with id := some id, busy := true, valid := false, dirty := false }).buf b) =
          { s.bio.buf b with id := some id, busy := true, valid := false, dirty := false } := by
        rw [Bcache.buf_setBuf, if_pos rfl]
      have hother : ∀ a, a ≠ b →
          (s.bio.setBuf b fun x => { x with id := some id, busy := true, valid := false, dirty := false }).buf a =
            s.bio.buf a := by
        intro a ha
        rw [Bcache.buf_setBuf, if_neg ha]
      refine ⟨hc, fun a ha => ?_, fun i => (h.pinned i).trans (exists_congr fun a => ?_), fun a ha => ?_⟩
      · by_cases hab : a = b
        · exact ⟨p, (hheld _ b p a).2 (Or.inr ⟨rfl, hab⟩)⟩
        · obtain ⟨q, hq⟩ := h.holder a ((congrArg Buf.busy (hother a hab)).symm.trans ha)
          exact ⟨q, (hheld _ b q a).2 (Or.inl hq)⟩
      · show _ ↔ Buf.id ((s.bio.setBuf b fun x =>
            { x with id := some id, busy := true, valid := false, dirty := false }).buf a) = some i ∧
          Buf.dirty ((s.bio.setBuf b fun x =>
            { x with id := some id, busy := true, valid := false, dirty := false }).buf a) = true
        by_cases hab : a = b
        · subst hab
          rw [hself]
          simp [hdirty]
        · rw [hother a hab]
      · by_cases hab : a = b
        · subst hab
          exact absurd ((congrArg Buf.dirty hself).symm.trans ha) (by simp)
        · intro hn
          exact h.assigned a ((congrArg Buf.dirty (hother a hab)).symm.trans ha)
            ((congrArg Buf.id (hother a hab)).symm.trans hn)
    · simp only [hcl, Option.some.injEq] at hb
      subst hb
      exact h.congr hc (fun _ => ⟨rfl, rfl, rfl⟩) rfl

theorem held_read (c : Bcache Proc Data) (p : Proc) (b : Fin NBUF) : (c.read p b).held = c.held := by
  unfold Bcache.read
  split <;> rfl

theorem held_iderw (c : Bcache Proc Data) (p : Proc) (b : Fin NBUF) (r : Bool) : (c.iderw p b r).held = c.held := by
  unfold Bcache.iderw
  split
  · rfl
  · split <;> rfl

theorem inv_brelse (h : Inv s) {c : Bcache Proc Data} (hc : c.Inv) (hb : b ∈ s.bio.held p)
    (hbr : s.bio.brelse p b = c) : Inv { s with bio := c } := by
  unfold Bcache.brelse at hbr
  rw [if_neg (by simp [(h.bio.busy p b hb).1])] at hbr
  subst hbr
  have hbuf : ∀ a, ((s.bio.setBuf b fun x => { x with busy := false }).buf a).id = (s.bio.buf a).id ∧
      ((s.bio.setBuf b fun x => { x with busy := false }).buf a).dirty = (s.bio.buf a).dirty := by
    intro a
    rw [Bcache.buf_setBuf]
    split
    · subst a
      exact ⟨rfl, rfl⟩
    · exact ⟨rfl, rfl⟩
  refine ⟨hc, fun a ha => ?_, fun i => (h.pinned i).trans (exists_congr fun a => ?_), fun a ha => ?_⟩
  · have ha : ((s.bio.setBuf b fun x => { x with busy := false }).buf a).busy = true := ha
    rw [Bcache.buf_setBuf] at ha
    split at ha
    · cases ha
    · rename_i hab
      obtain ⟨q, hq⟩ := h.holder a ha
      refine ⟨q, ?_⟩
      show a ∈ Function.update s.bio.held p ((s.bio.held p).erase b) q
      rw [Function.update_apply]
      split
      · subst q
        exact Finset.mem_erase.2 ⟨hab, hq⟩
      · exact hq
  · exact and_congr (by rw [← (hbuf a).1]) (by rw [← (hbuf a).2])
  · exact fun hn => h.assigned a ((hbuf a).2 ▸ ha) ((hbuf a).1 ▸ hn)

/-- **One step** keeps the invariant. -/
theorem inv_step {a : FsAct Proc Data} (h : Inv s) (ha : s.step a = some t) : Inv t := by
  unfold step at ha
  split at ha
  · cases ha
  have hwrite : ∀ {b d}, ∀ a, ((s.bio.write b d).buf a).id = (s.bio.buf a).id ∧
      ((s.bio.write b d).buf a).busy = (s.bio.buf a).busy := by
    intro b d a
    show ((s.bio.setBuf b fun x => { x with data := d, dirty := true }).buf a).id = _ ∧
      ((s.bio.setBuf b fun x => { x with data := d, dirty := true }).buf a).busy = _
    rw [Bcache.buf_setBuf]
    split
    · subst a
      exact ⟨rfl, rfl⟩
    · exact ⟨rfl, rfl⟩
  have hdirty : ∀ {b d}, ∀ a, ((s.bio.write b d).buf a).dirty = true ↔ a = b ∨ (s.bio.buf a).dirty = true := by
    intro b d a
    show ((s.bio.setBuf b fun x => { x with data := d, dirty := true }).buf a).dirty = true ↔ _
    rw [Bcache.buf_setBuf]
    split
    · simp [*]
    · simp [*]
  cases a with
  | log a =>
    cases a with
    | logWrite p x => cases ha
    | begin p | kill p | endOp p | commit p | finish p =>
      simp only [Option.ite_none_right_eq_some, Option.map_eq_some_iff] at ha
      obtain ⟨-, g, -, rfl⟩ := ha
      exact ⟨h.bio, h.holder, h.pinned, h.assigned⟩
  | bio a =>
    cases a with
    | bread p id =>
      obtain ⟨c, hc, rfl⟩ := Option.map_eq_some_iff.1 ha
      refine h.congr (Bcache.inv_step h.bio hc) ?_ ?_ <;>
        simp only [Bcache.step, Option.ite_none_left_eq_some, Option.ite_none_right_eq_some, Option.some.injEq] at hc <;>
        obtain ⟨-, -, rfl⟩ := hc
      · exact fun _ => ⟨rfl, rfl, rfl⟩
      · rfl
    | bget p =>
      obtain ⟨c, hc, rfl⟩ := Option.map_eq_some_iff.1 ha
      have hinv := Bcache.inv_step h.bio hc
      simp only [Bcache.step, Option.ite_none_left_eq_some] at hc
      obtain ⟨-, hc⟩ := hc
      split at hc
      · exact inv_bget h hinv hc
      · cases hc
    | check p =>
      obtain ⟨c, hc, rfl⟩ := Option.map_eq_some_iff.1 ha
      have hinv := Bcache.inv_step h.bio hc
      simp only [Bcache.step, Option.ite_none_left_eq_some] at hc
      obtain ⟨-, hc⟩ := hc
      split at hc
      · cases hc
        unfold Bcache.check at hinv ⊢
        split
        · rw [if_pos (by assumption)] at hinv
          exact h.congr hinv (fun _ => by rw [Bcache.buf_read]; exact ⟨rfl, rfl, rfl⟩) (held_read ..)
        · rw [if_neg (by assumption)] at hinv
          exact h.congr hinv (fun _ => by rw [Bcache.buf_iderw]; exact ⟨rfl, rfl, rfl⟩) (held_iderw ..)
      · cases hc
    | ready p =>
      obtain ⟨c, hc, rfl⟩ := Option.map_eq_some_iff.1 ha
      have hinv := Bcache.inv_step h.bio hc
      simp only [Bcache.step, Option.ite_none_left_eq_some] at hc
      obtain ⟨-, hc⟩ := hc
      split at hc
      · simp only [Option.ite_none_right_eq_some, Option.some.injEq] at hc
        obtain ⟨-, rfl⟩ := hc
        split
        · rw [if_pos (by assumption)] at hinv
          exact h.congr hinv (fun _ => by rw [Bcache.buf_read]; exact ⟨rfl, rfl, rfl⟩) (held_read ..)
        · rw [if_neg (by assumption)] at hinv
          exact h.congr hinv (fun _ => ⟨rfl, rfl, rfl⟩) rfl
      · cases hc
    | brelse p b =>
      obtain ⟨c, hc, rfl⟩ := Option.map_eq_some_iff.1 ha
      have hinv := Bcache.inv_step h.bio hc
      simp only [Bcache.step, Option.ite_none_left_eq_some, Option.ite_none_right_eq_some, Option.some.injEq] at hc
      obtain ⟨-, ⟨-, hb⟩, hc⟩ := hc
      exact inv_brelse h hinv hb hc
    | logWrite p b d =>
      simp only [Option.ite_none_right_eq_some] at ha
      obtain ⟨-, ha⟩ := ha
      unfold logWrite at ha
      split at ha
      · rename_i c id hc hid
        have hinv := Bcache.inv_step h.bio hc
        simp only [Bcache.step, Option.ite_none_left_eq_some, Option.ite_none_right_eq_some, Option.some.injEq] at hc
        obtain ⟨-, -, rfl⟩ := hc
        dsimp only at ha
        split at ha
        · cases ha
          exact h.pin hinv hid hwrite hdirty rfl
        · cases ha
          exact ⟨h.bio, h.holder, h.pinned, h.assigned⟩
      · cases ha
    | bwrite p b d =>
      simp only [Option.ite_none_right_eq_some] at ha
      obtain ⟨-, ha⟩ := ha
      unfold bwrite at ha
      split at ha
      · rename_i c id hc hid
        have hinv := Bcache.inv_step h.bio hc
        simp only [Bcache.step, Option.ite_none_left_eq_some, Option.ite_none_right_eq_some, Option.some.injEq] at hc
        obtain ⟨-, ⟨-, hb⟩, rfl⟩ := hc
        cases ha
        unfold Bcache.bwrite at hinv ⊢
        rw [if_neg (by simp [(h.bio.busy p b hb).1])] at hinv ⊢
        refine h.pin hinv hid (fun a => ?_) (fun a => ?_) (held_iderw ..)
        · rw [Bcache.buf_iderw]
          exact hwrite a
        · rw [Bcache.buf_iderw]
          exact hdirty a
      · cases ha
    | ideintr b =>
      change s.ideintr b = some t at ha
      unfold ideintr at ha
      split at ha
      · rename_i c id hc hid
        have hinv := Bcache.inv_step h.bio hc
        simp only [Bcache.step, Option.ite_none_left_eq_some, Option.ite_none_right_eq_some, Option.some.injEq] at hc
        obtain ⟨-, -, rfl⟩ := hc
        cases ha
        have hbuf : ∀ a, ((s.bio.ideintr b).buf a).id = (s.bio.buf a).id ∧
            ((s.bio.ideintr b).buf a).busy = (s.bio.buf a).busy ∧
            (((s.bio.ideintr b).buf a).dirty = true ↔ a ≠ b ∧ (s.bio.buf a).dirty = true) := by
          intro a
          unfold Bcache.ideintr
          simp only [hid]
          split
          all_goals
            rw [Bcache.buf_setBuf]
            split
            · subst a
              simp
            · simp [*]
        refine h.unpin hinv hid (fun a => ⟨(hbuf a).1, (hbuf a).2.1⟩) (fun a => (hbuf a).2.2) ?_
        unfold Bcache.ideintr
        simp only [hid]
        split <;> rfl
      · cases ha

/-! ## Runs -/

/-- **Every run** keeps the invariant. -/
theorem inv_run {disk : SectorId → Data} {data : Fin NBUF → Data} {start size : Nat} {tr : List (FsAct Proc Data)}
    (h : run step (init disk data start size) tr = some s) : Inv s :=
  run_induction (fun _ s => Inv s) (inv_init disk data start size) (fun _ _ _ _ _ ih ha => inv_step ih ha) tr s h

/-- `bget` panics exactly if the sector is not cached and there is no room. -/
theorem Inv.bget_panics (h : Inv s) (hcalm : s.bio.panicked = none) {c : Bcache Proc Data}
    (hc : s.bio.bget p id = some c) :
    c.panicked = some .bgetNoBuffers ↔ (∀ b, (s.bio.buf b).id ≠ some id) ∧ ¬s.Room := by
  rw [h.room_iff]
  have hno : ¬(s.bio.panicked = some .bgetNoBuffers) := by simp [hcalm]
  unfold Bcache.bget at hc
  rcases h.bio.cached id with ⟨b, hca, hid⟩ | ⟨hca, hmiss⟩
  · refine iff_of_false (fun hpan => ?_) fun hmiss => hmiss.1 b hid
    simp only [hca] at hc
    split at hc <;> cases hc <;> exact hno hpan
  · simp only [hca] at hc
    rcases h.bio.clean with ⟨b, hcl, hbusy, hdirty⟩ | ⟨hcl, hall⟩
    · simp only [hcl, Option.some.injEq] at hc
      subst hc
      refine iff_of_false (fun hpan => hno hpan) fun hall => ?_
      rcases hall.2 b with hb | hd
      · simp [hbusy] at hb
      · simp [hdirty] at hd
    · simp only [hcl, Option.some.injEq] at hc
      subst hc
      exact iff_of_true rfl ⟨hmiss, hall⟩

/-- No other step of the cache ends in that panic. -/
theorem panicked_step {c d : Bcache Proc Data} {a : BioAct Proc Data} (hcalm : c.panicked = none)
    (ha : c.step a = some d) (hpan : d.panicked = some .bgetNoBuffers) :
    ∃ p id, a = .bget p ∧ c.pc p = .bget id ∧ c.bget p id = some d := by
  have hno : ∀ {x : Option BioPanic}, x = none → x ≠ some .bgetNoBuffers := by
    rintro x rfl
    simp
  have hread : ∀ {e : Bcache Proc Data} {p b}, e.panicked = none → (e.read p b).panicked ≠ some .bgetNoBuffers := by
    intro e p b he
    unfold Bcache.read
    split <;> exact hno he
  have hiderw : ∀ {e : Bcache Proc Data} {p b r}, e.panicked = none → (e.iderw p b r).panicked ≠ some .bgetNoBuffers := by
    intro e p b r he
    unfold Bcache.iderw
    split
    · simp
    · split
      · simp
      · exact hno he
  unfold Bcache.step at ha
  split at ha
  · cases ha
  cases a with
  | bget p =>
    dsimp only at ha
    split at ha
    · exact ⟨p, _, rfl, by assumption, ha⟩
    · cases ha
  | bread p id =>
    simp only [Option.ite_none_right_eq_some, Option.some.injEq] at ha
    obtain ⟨-, rfl⟩ := ha
    exact absurd hpan (hno hcalm)
  | check p =>
    dsimp only at ha
    split at ha
    · cases ha
      unfold Bcache.check at hpan
      split at hpan
      · exact absurd hpan (hread hcalm)
      · exact absurd hpan (hiderw hcalm)
    · cases ha
  | ready p =>
    dsimp only at ha
    split at ha
    · simp only [Option.ite_none_right_eq_some, Option.some.injEq] at ha
      obtain ⟨-, rfl⟩ := ha
      split at hpan
      · exact absurd hpan (hread hcalm)
      · exact absurd hpan (hno hcalm)
    · cases ha
  | bwrite p b x =>
    simp only [Option.ite_none_right_eq_some, Option.some.injEq] at ha
    obtain ⟨-, rfl⟩ := ha
    unfold Bcache.bwrite at hpan
    split at hpan
    · simp at hpan
    · exact absurd hpan (hiderw hcalm)
  | logWrite p b x =>
    simp only [Option.ite_none_right_eq_some, Option.some.injEq] at ha
    obtain ⟨-, rfl⟩ := ha
    exact absurd hpan (hno hcalm)
  | brelse p b =>
    simp only [Option.ite_none_right_eq_some, Option.some.injEq] at ha
    obtain ⟨-, rfl⟩ := ha
    unfold Bcache.brelse at hpan
    split at hpan
    · simp at hpan
    · exact absurd hpan (hno hcalm)
  | ideintr b =>
    simp only [Option.ite_none_right_eq_some, Option.some.injEq] at ha
    obtain ⟨-, rfl⟩ := ha
    unfold Bcache.ideintr at hpan
    split at hpan
    · dsimp only at hpan
      split at hpan <;> exact absurd hpan (hno hcalm)
    · exact absurd hpan (hno hcalm)

/-- What a step does to the cache is a step of the cache, or nothing. -/
theorem bio_step {a : FsAct Proc Data} (ht : s.step a = some t) :
    t.bio = s.bio ∨ ∃ b, a = .bio b ∧ s.bio.step b = some t.bio := by
  simp only [step, Option.ite_none_left_eq_some] at ht
  obtain ⟨-, ht⟩ := ht
  cases a with
  | log a =>
    cases a with
    | logWrite p x => cases ht
    | begin p | kill p | endOp p | commit p | finish p =>
      simp only [Option.ite_none_right_eq_some, Option.map_eq_some_iff] at ht
      obtain ⟨-, g, -, rfl⟩ := ht
      exact Or.inl rfl
  | bio a =>
    cases a with
    | bread p id | bget p | check p | ready p | brelse p b =>
      obtain ⟨c, hc, rfl⟩ := Option.map_eq_some_iff.1 ht
      exact Or.inr ⟨_, rfl, hc⟩
    | logWrite p b d =>
      simp only [Option.ite_none_right_eq_some] at ht
      obtain ⟨-, ht⟩ := ht
      unfold logWrite at ht
      split at ht
      · rename_i c id hc _
        dsimp only at ht
        split at ht
        · cases ht
          exact Or.inr ⟨_, rfl, hc⟩
        · cases ht
          exact Or.inl rfl
      · cases ht
    | bwrite p b d =>
      simp only [Option.ite_none_right_eq_some] at ht
      obtain ⟨-, ht⟩ := ht
      unfold bwrite at ht
      split at ht
      · rename_i c id hc _
        cases ht
        exact Or.inr ⟨_, rfl, hc⟩
      · cases ht
    | ideintr b =>
      change s.ideintr b = some t at ht
      unfold ideintr at ht
      split at ht
      · rename_i c id hc _
        cases ht
        exact Or.inr ⟨_, rfl, hc⟩
      · cases ht

/-- A step that has room if it needs room does not panic in `bget`. -/
theorem calm_step {a : FsAct Proc Data} (hs : Inv s) (hcalm : s.bio.panicked = none) (hroom : s.HasRoom a)
    (ht : s.step a = some t) : t.bio.panicked = none := by
  refine (inv_step hs ht).bio.calm.resolve_right fun hpan => ?_
  rcases bio_step ht with he | ⟨b, rfl, hb⟩
  · rw [he, hcalm] at hpan
    cases hpan
  · obtain ⟨p, id, rfl, hpc, hget⟩ := panicked_step hcalm hb hpan
    obtain ⟨hmiss, hno⟩ := (hs.bget_panics hcalm hget).1 hpan
    exact hno (hroom id hpc hmiss)

section Count

variable {Proc Data : Type} [DecidableEq Proc] {s : Fsys Proc Data}

variable [Fintype Proc]

/-- The buffers that processes hold and the sectors that are not on the disk yet are fewer than the buffers there are. -/
def Counted (s : Fsys Proc Data) : Prop := s.pinned.card + ∑ p, (s.bio.held p).card < NBUF

instance (s : Fsys Proc Data) : Decidable s.Counted := inferInstanceAs (Decidable (_ < _))

omit [DecidableEq Proc] in
theorem Counted.room (h : s.Counted) : s.Room := by
  intro U hU
  classical
  let f : Fin NBUF → Option SectorId := fun b => (s.bio.buf b).id
  have hsub : U.image some ⊆ s.pinned.image some ∪ Finset.univ.biUnion fun p => (s.bio.held p).image f := by
    intro x hx
    obtain ⟨id, hid, rfl⟩ := Finset.mem_image.1 hx
    rcases hU id hid with hpin | ⟨p, b, hb, hbid⟩
    · exact Finset.mem_union_left _ (Finset.mem_image_of_mem _ hpin)
    · exact Finset.mem_union_right _ (Finset.mem_biUnion.2 ⟨p, Finset.mem_univ p, Finset.mem_image.2 ⟨b, hb, hbid⟩⟩)
  calc U.card = (U.image some).card := (Finset.card_image_of_injective _ (Option.some_injective _)).symm
    _ ≤ (s.pinned.image some ∪ Finset.univ.biUnion fun p => (s.bio.held p).image f).card := Finset.card_le_card hsub
    _ ≤ (s.pinned.image some).card + (Finset.univ.biUnion fun p => (s.bio.held p).image f).card := Finset.card_union_le _ _
    _ ≤ s.pinned.card + ∑ p, (s.bio.held p).card :=
      Nat.add_le_add Finset.card_image_le (Finset.card_biUnion_le.trans (Finset.sum_le_sum fun _ _ => Finset.card_image_le))
    _ < NBUF := h

/-- At most `k` processes hold buffers, at most `n` each, and at most `l` sectors are not on the disk yet. -/
structure Bounded (k n l : Nat) (s : Fsys Proc Data) : Prop where
  holders : (Finset.univ.filter fun p => s.bio.held p ≠ ∅).card ≤ k
  held : ∀ p, (s.bio.held p).card ≤ n
  pinned : s.pinned.card ≤ l

omit [DecidableEq Proc] in
theorem Bounded.counted {k n l : Nat} (h : s.Bounded k n l) (hlt : l + k * n < NBUF) : s.Counted := by
  have hsum : ∑ p, (s.bio.held p).card = ∑ p with s.bio.held p ≠ ∅, (s.bio.held p).card :=
    (Finset.sum_filter_of_ne (p := fun p => s.bio.held p ≠ ∅) fun p _ hp (he : s.bio.held p = ∅) =>
      hp (by rw [he, Finset.card_empty])).symm
  have hle : ∑ p with s.bio.held p ≠ ∅, (s.bio.held p).card ≤ (Finset.univ.filter fun p => s.bio.held p ≠ ∅).card * n :=
    Finset.sum_le_card_nsmul _ _ _ fun p _ => h.held p
  have hmul := Nat.mul_le_mul_right n h.holders
  have hpinned := h.pinned
  unfold Counted
  omega

omit [DecidableEq Proc] in
/-- The condition on a step, by a count. -/
theorem hasRoom_of_counted {a : FsAct Proc Data} (h : ∀ p, a = .bio (.bget p) → s.Counted) : s.HasRoom a := by
  cases a with
  | log a => trivial
  | bio a =>
    cases a with
    | bget p => exact fun _ _ _ => (h p rfl).room
    | _ => trivial

/-- **The cache does not run dry while few buffers are held**, where `l + k * n` is less than the number of buffers. -/
theorem calm_bounded {disk : SectorId → Data} {data : Fin NBUF → Data} {start size k n l : Nat} {tr : List (FsAct Proc Data)}
    (hlt : l + k * n < NBUF) (h : Path step (fun s _ => s.Bounded k n l) (init disk data start size) tr s) :
    s.bio.panicked = none :=
  (h.invariant (fun s => Inv s ∧ s.bio.panicked = none) ⟨inv_init disk data start size, rfl⟩
    fun _ _ _ hi hc ht => ⟨inv_step hi.1 ht, calm_step hi.1 hi.2 (hasRoom_of_counted fun _ _ => hc.counted hlt) ht⟩).2

end Count

/-- **The cache does not run dry while there is room.** In every run in which there is room whenever `bget` looks for a
sector that is not cached, `bget` never panics. -/
theorem never_dry {disk : SectorId → Data} {data : Fin NBUF → Data} {start size : Nat} {tr : List (FsAct Proc Data)}
    (h : Path step HasRoom (init disk data start size) tr s) : s.bio.panicked = none :=
  (h.invariant (fun s => Inv s ∧ s.bio.panicked = none) ⟨inv_init disk data start size, rfl⟩
    fun _ _ _ hi hc ht => ⟨inv_step hi.1 ht, calm_step hi.1 hi.2 hc ht⟩).2

/-- **When the cache runs dry.** In every state of every run, a lookup panics exactly if its sector is not cached and
there is no room. -/
theorem dry_iff {disk : SectorId → Data} {data : Fin NBUF → Data} {start size : Nat} {tr : List (FsAct Proc Data)}
    (h : run step (init disk data start size) tr = some s) (hcalm : s.bio.panicked = none) {c : Bcache Proc Data}
    (hc : s.bio.bget p id = some c) :
    c.panicked = some .bgetNoBuffers ↔ (∀ b, (s.bio.buf b).id ≠ some id) ∧ ¬s.Room :=
  (inv_run h).bget_panics hcalm hc

/-- Process 0 writes sector 7 in an operation while process 1 waits for it; then process 1 gets it, and process 2 reads another
sector. -/
def sharedSector : List (FsAct (Fin NPROC) Unit) :=
  [.log (.begin 0), .bio (.bread 0 (1, 7)), .bio (.bget 0), .bio (.bread 1 (1, 7)), .bio (.bget 1), .bio (.check 0),
    .bio (.ideintr 0), .bio (.ready 0), .bio (.logWrite 0 0 ()), .bio (.brelse 0 0), .bio (.bget 1), .bio (.check 1),
    .bio (.bread 2 (1, 8)), .bio (.bget 2)]

instance (a : FsAct (Fin NPROC) Unit) (s : Fsys (Fin NPROC) Unit) : Decidable (∀ p, a = .bio (.bget p) → s.Counted) := by
  cases a with
  | log a => exact isTrue fun p he => by cases he
  | bio a =>
    cases a with
    | bget p => exact decidable_of_iff s.Counted ⟨fun h _ _ => h, fun h => h p rfl⟩
    | _ => exact isTrue fun p he => by cases he

theorem never_dry_shared : ∃ s : Fsys (Fin NPROC) Unit,
    Path step HasRoom (init (fun _ => ()) (fun _ => ()) 2 LOGSIZE) sharedSector s ∧
      (s.bio.held 1).card = 1 ∧ (s.bio.held 2).card = 1 ∧ s.pinned = {(1, 7)} ∧ s.bio.panicked = none := by
  have hrun : (run (fun s a => if ∀ p, a = .bio (.bget p) → s.Counted then step s a else none)
      (init (fun _ => ()) (fun _ => ()) 2 LOGSIZE : Fsys (Fin NPROC) Unit) sharedSector).any (fun s =>
        decide ((s.bio.held 1).card = 1 ∧ (s.bio.held 2).card = 1 ∧ s.pinned = {(1, 7)})) = true := by decide +kernel
  obtain ⟨s, hs, hp⟩ := (Option.any_eq_true _ _).1 hrun
  obtain ⟨h₁, h₂, hpinned⟩ := of_decide_eq_true hp
  have hpath := (Path.of_run hs).mono fun s a hc => hasRoom_of_counted hc
  exact ⟨s, hpath, h₁, h₂, hpinned, never_dry hpath⟩

/-- Thirty processes wait for the disk, each with a buffer, and one more wants a sector. -/
theorem runs_dry :
    ∃ tr, ∃ s : Fsys (Fin NPROC) Unit, run step (init (fun _ => ()) (fun _ => ()) 2 LOGSIZE) tr = some s ∧
      s.bio.panicked = some .bgetNoBuffers := by
  have h : (run step (init (fun _ => ()) (fun _ => ()) 2 LOGSIZE : Fsys (Fin NPROC) Unit)
      (((List.finRange NPROC).take (NBUF + 1)).flatMap fun p => [.bio (.bread p (1, p.val + 100)), .bio (.bget p)])).map
        (fun s => decide (s.bio.panicked = some .bgetNoBuffers)) = some true := by
    decide +kernel
  obtain ⟨s, hs, hpan⟩ := Option.map_eq_some_iff.1 h
  exact ⟨_, s, hs, of_decide_eq_true hpan⟩

end Fsys

end NewXv6
