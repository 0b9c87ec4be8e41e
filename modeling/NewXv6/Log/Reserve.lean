import NewXv6.Log.Group

/-!
# Log reservation

`begin_op` lets an operation in if the log has room for `MAXOPBLOCKS` more sectors for it and for every operation that
is running, of the `LOGSIZE` sectors of the header. `log_write` wants room in the log area too, whose first sector is
the header: with `nlog = LOGSIZE` only `LOGSIZE - 1` are left, and it tests before it absorbs.
-/

namespace NewXv6

open Lib

namespace Group

variable {Proc : Type} [DecidableEq Proc]

omit [DecidableEq Proc] in
/-- The header counts the distinct sectors of the group. -/
theorem Inv.length_sector {h : History Proc} {s : Group Proc} (hs : Inv h s) (hh : s.Holds) :
    s.log.sector.length = h.group.card := by
  rw [← List.toFinset_card_of_nodup hs.nodup]
  congr 1
  ext x
  rw [List.mem_toFinset, hs.group_mem hh]

omit [DecidableEq Proc] in
theorem tooBig_iff {h : History Proc} {s : Group Proc} (hs : Inv h s) (hsize : s.log.size = LOGSIZE) {p : Proc}
    (hp : s.phase p = .inOp) : s.log.tooBig ↔ LOGSIZE - 1 ≤ h.group.card := by
  have := hs.length_sector (hs.holds (hs.committing hp))
  unfold Log.tooBig
  rw [hsize]
  simp only [LOGSIZE, MAXOPBLOCKS] at *
  omega

/-! ## Operations of at most nine sectors -/

/-- With every running operation at its limit of nine sectors the log still holds at most 28. -/
def Room (h : History Proc) (s : Group Proc) : Prop :=
  ∀ F : Finset Proc, (∀ p, p ∈ F ↔ s.phase p = .inOp) →
    s.log.sector.length + ∑ p ∈ F, (9 - (h.running p).toFinset.card) ≤ 28

omit [DecidableEq Proc] in
/-- A step that lets nobody in and logs nothing keeps the room. -/
theorem Room.mono {h h' : History Proc} {s t : Group Proc} (hs : Inv h s) (hr : Room h s)
    (hl : t.log.sector.length ≤ s.log.sector.length) (hop : ∀ p, t.phase p = .inOp → s.phase p = .inOp)
    (hrun : ∀ p, s.phase p = .inOp → h'.running p = h.running p) : Room h' t := by
  intro F hF
  obtain ⟨G, hG, -⟩ := hs.ops
  have hsub : F ⊆ G := fun p hp => (hG p).2 (hop p ((hF p).1 hp))
  have hsum : ∑ p ∈ F, (9 - (h'.running p).toFinset.card) = ∑ p ∈ F, (9 - (h.running p).toFinset.card) :=
    Finset.sum_congr rfl fun p hp => by rw [hrun p ((hG p).1 (hsub hp))]
  have hle : ∑ p ∈ F, (9 - (h.running p).toFinset.card) ≤ ∑ p ∈ G, (9 - (h.running p).toFinset.card) :=
    Finset.sum_le_sum_of_subset hsub
  have := hr G hG
  omega

theorem room_begin {h : History Proc} {s : Group Proc} (hs : Inv h s) (hr : Room h s) {p : Proc}
    (hp : s.phase p = .outside ∨ s.phase p = .woken) : Room (h.next (.begin p)) (s.begin p) := by
  have hpin : s.phase p ≠ .inOp := by rcases hp with hp | hp <;> simp [hp]
  have hrun : ∀ q, s.phase q = .inOp → (h.next (.begin p)).running q = h.running q := by
    intro q hq
    have hqp : q ≠ p := by rintro rfl; exact hpin hq
    simp [History.next, Function.update_of_ne hqp]
  have hsleep : Room (h.next (.begin p)) (s.goto p .asleep) := by
    refine hr.mono hs (Nat.le_refl _) (fun q => ?_) hrun
    rw [phase_goto]
    split
    · simp
    · exact id
  unfold begin
  split
  · exact hsleep
  split
  · exact hsleep
  -- the operation is let in: with two others running the log is empty, with one other it holds at most ten sectors
  rename_i hc hfull
  have hc : s.log.committing = false := by simpa using hc
  intro F hF
  obtain ⟨G, hG, ho⟩ := hs.ops
  have hFG : F = insert p G := by
    ext q
    rw [hF, Finset.mem_insert, hG]
    show (s.goto p .inOp).phase q = .inOp ↔ _
    rw [phase_goto]
    split <;> simp_all
  have hpG : p ∉ G := by rw [hG]; exact hpin
  have hnew : ((h.next (.begin p)).running p) = [] := by simp [History.next]
  have hle : ∑ q ∈ G, (9 - (h.running q).toFinset.card) ≤ G.card * 9 :=
    Finset.sum_le_card_nsmul G _ 9 fun q _ => Nat.sub_le _ _
  have hsum : ∑ q ∈ G, (9 - ((h.next (.begin p)).running q).toFinset.card) =
      ∑ q ∈ G, (9 - (h.running q).toFinset.card) :=
    Finset.sum_congr rfl fun q hq => by rw [hrun q ((hG q).1 hq)]
  rw [hFG, Finset.sum_insert hpG, hsum, hnew]
  show s.log.sector.length + _ ≤ 28
  unfold Log.full at hfull
  have hempty : G.card = 0 → s.log.sector.length = 0 := by
    intro h₀
    rw [hs.quiet hc fun q hq => ?_]
    · rfl
    · have := (hG q).2 hq
      rw [Finset.card_eq_zero.1 h₀] at this
      simp at this
  simp only [List.toFinset_nil, Finset.card_empty, MAXOPBLOCKS, LOGSIZE] at *
  omega

omit [DecidableEq Proc] in
/-- A recorded sector takes one off the rest of its operation. -/
theorem room_record [DecidableEq Proc] {h : History Proc} {s : Group Proc} (hs : Inv h s) (hr : Room h s) {p : Proc}
    (x : Nat) (hp : s.phase p = .inOp) (hb : ((h.next (.logWrite p x)).running p).toFinset.card ≤ 9) :
    Room (h.next (.logWrite p x)) { s with log := s.log.record x } := by
  intro F hF
  have hF : ∀ q, q ∈ F ↔ s.phase q = .inOp := hF
  have hpF := (hF p).2 hp
  have hrest : ∑ q ∈ F.erase p, (9 - ((h.next (.logWrite p x)).running q).toFinset.card) =
      ∑ q ∈ F.erase p, (9 - (h.running q).toFinset.card) := by
    refine Finset.sum_congr rfl fun q hq => ?_
    have hqp : q ≠ p := (Finset.mem_erase.1 hq).1
    simp [History.next, Function.update_of_ne hqp]
  have hroom := hr F hF
  rw [← Finset.add_sum_erase F _ hpF] at hroom ⊢
  rw [hrest]
  have hcons : (h.next (.logWrite p x)).running p = x :: h.running p := by simp [History.next]
  rw [hcons] at hb ⊢
  rw [List.toFinset_cons] at hb ⊢
  have hx : x ∈ h.running p → x ∈ s.log.sector := fun hx =>
    (hs.ops_mem (hs.holds (hs.committing hp)) x).2 (Or.inr ⟨p, hp, hx⟩)
  show (s.log.record x).sector.length + _ ≤ 28
  unfold Log.record
  split
  · have := Finset.card_le_card (Finset.subset_insert x (h.running p).toFinset)
    omega
  · rename_i hnew
    have hnot : x ∉ (h.running p).toFinset := fun hm => hnew (hx (List.mem_toFinset.1 hm))
    rw [Finset.card_insert_of_notMem hnot] at hb ⊢
    simp only [List.length_append, List.length_singleton]
    omega

/-- **One step** of operations of at most nine sectors keeps the room. -/
theorem step_room {h : History Proc} {s t : Group Proc} {a : Act Proc} (hs : Inv h s) (hr : Room h s)
    (ha : step s a = some t) (ht : t.panicked = none) (hb : ∀ p, ((h.next a).running p).toFinset.card ≤ 9) :
    Room (h.next a) t := by
  have hgo : ∀ (p : Proc) (pc : CommitPc) (ss : List Nat), ss.length ≤ s.log.sector.length →
      Room h { s.goto p (.commit pc) with log := { s.log with sector := ss } } := by
    intro p pc ss hss
    refine hr.mono hs hss (fun q => ?_) fun _ _ => rfl
    show (s.goto p (.commit pc)).phase q = .inOp → _
    rw [phase_goto]
    split
    · simp
    · exact id
  have hsleep : ∀ (p q : Proc) (ph : Phase), ph ≠ .inOp → (s.goto p ph).phase q = .inOp → s.phase q = .inOp := by
    intro p q ph hph
    rw [phase_goto]
    split
    · exact fun h => absurd h hph
    · exact id
  have hwake : ∀ (u : Group Proc) (q : Proc), u.wakeup.phase q = .inOp → u.phase q = .inOp := by
    intro u q
    simp only [wakeup]
    split
    · simp
    · exact id
  obtain ⟨-, ha⟩ := step_cases ha
  cases ha with
  | begin hp => exact room_begin hs hr hp
  | @kill p => exact hr.mono hs (Nat.le_refl _) (fun q => hsleep p q _ (by simp)) fun _ _ => rfl
  | @logWrite p x hp =>
    unfold logWrite at ht ⊢
    split at ht
    · simp at ht
    rw [if_neg ‹_›]
    split at ht
    · simp at ht
    rw [if_neg ‹_›]
    exact room_record hs hr x hp (hb p)
  | @endOp p =>
    unfold endOp
    dsimp only
    split
    · exact hr.mono hs (Nat.le_refl _) (fun _ => id) fun _ _ => rfl
    split
    · exact hr.mono hs (Nat.le_refl _) (fun q => hsleep p q _ (by simp)) fun _ _ => rfl
    · exact hr.mono hs (Nat.le_refl _) (fun q hq => hsleep p q .outside (by simp) (hwake _ q hq)) fun _ _ => rfl
  | @commit p pc =>
    cases pc with
    | start =>
      simp only [commit]
      split
      · exact hgo p .writeLog _ (Nat.le_refl _)
      · exact hgo p .finish _ (Nat.le_refl _)
    | writeLog => exact hgo p .writeHead _ (Nat.le_refl _)
    | writeHead => exact hgo p .installTrans _ (Nat.le_refl _)
    | installTrans => exact hgo p .clearHead _ (Nat.le_refl _)
    | clearHead => exact hgo p .eraseHead [] (Nat.zero_le _)
    | eraseHead => exact hgo p .finish _ (Nat.le_refl _)
    | finish => exact hr
  | @finish p =>
    exact hr.mono hs (Nat.le_refl _) (fun q hq => hsleep p q .outside (by simp) (hwake _ q hq)) fun _ _ => rfl

theorem opBound_running {n : Nat} {tr : List (Act Proc)} (hb : OpBound n tr) (p : Proc) :
    ((history tr).running p).toFinset.card ≤ n := by
  have := hb tr.length p
  rwa [List.take_length] at this

theorem opBound_left {n : Nat} {tr tr' : List (Act Proc)} (hb : OpBound n (tr ++ tr')) : OpBound n tr := by
  intro k p
  have := hb (min k tr.length) p
  rw [List.take_append_of_le_length (Nat.min_le_right _ _)] at this
  rwa [List.take_eq_take_min]

/-- A run of operations of at most nine sectors keeps the room and never panics. -/
theorem run_room {start : Nat} : ∀ (tr : List (Act Proc)) (s : Group Proc), Run start LOGSIZE tr s → OpBound 9 tr →
    Room (history tr) s ∧ s.panicked = none := by
  refine run_induction _ (fun _ => ⟨?_, rfl⟩) fun tr s a t hrun ih ha hb => ?_
  · intro F hF
    have hFe : F = ∅ := by
      ext p
      simp [hF, init]
    simp [hFe, init]
  · obtain ⟨hr, hcalm⟩ := ih (opBound_left hb)
    obtain ⟨hs, -⟩ : Inv (history tr) s ∧ s.panicked = none := by
      rcases run_inv tr s hrun with h | ⟨_, _, _, _, _, _, _, _, _, _, rfl⟩
      · exact h
      · simp at hcalm
    have ht : t.panicked = none := by
      rcases step_inv hs ha with ⟨-, ht⟩ | ⟨p, x, -, hp, hbig, -⟩
      · exact ht
      · exfalso
        obtain ⟨F, hF, -⟩ := hs.ops
        have hroom := hr F hF
        have hsize := run_size tr s hrun
        unfold Log.tooBig at hbig
        rw [hsize] at hbig
        simp only [LOGSIZE, MAXOPBLOCKS] at hbig
        omega
    rw [history_snoc] at *
    refine ⟨step_room hs hr ha ht fun p => ?_, ht⟩
    have := opBound_running hb p
    rwa [history_snoc] at this

/-! ## The reservation -/

/-- The process that calls `log_write`. -/
def writer : Act Proc → Option Proc
  | .logWrite p _ => some p
  | _ => none

/-- An operation has logged at most as many sectors as its process has made calls. -/
theorem length_running (tr : List (Act Proc)) (p : Proc) :
    ((history tr).running p).length ≤ (tr.filterMap writer).count p := by
  induction tr using List.reverseRecOn with
  | nil => simp [history]
  | append_singleton tr a ih =>
    rw [history_snoc, List.filterMap_append, List.count_append]
    cases a with
    | begin q =>
      by_cases hp : p = q
      · subst q; simp [History.next]
      · simp only [History.next, Function.update_of_ne hp]; omega
    | logWrite q x =>
      by_cases hp : p = q
      · subst q; simp [History.next, writer]; omega
      · simp only [History.next, Function.update_of_ne hp]; omega
    | kill | endOp | commit | finish => exact Nat.le_add_right_of_le ih

/-- **When the reservation is sound.** A run does not end in `too big a transaction` exactly when `log_write` is never
called after the group has logged `LOGSIZE - 1` distinct sectors; operations of fewer than `MAXOPBLOCKS` distinct
sectors never get there. -/
theorem reservation {start : Nat} {tr : List (Act Proc)} {s : Group Proc} (h : Run start LOGSIZE tr s) :
    (s.panicked ≠ some .tooBigATransaction ↔
      ∀ tr₁ p x tr₂, tr = tr₁ ++ .logWrite p x :: tr₂ → (history tr₁).group.card < LOGSIZE - 1) ∧
    (OpBound (MAXOPBLOCKS - 1) tr → s.panicked ≠ some .tooBigATransaction) := by
  refine ⟨⟨fun hne tr₁ p x tr₂ he => ?_, fun hall => ?_⟩, fun hb => ?_⟩
  · subst he
    unfold Run at h
    rw [run_append, Option.bind_eq_some_iff] at h
    obtain ⟨t, ht, hrest⟩ := h
    simp only [Lib.run, Option.bind_eq_some_iff] at hrest
    obtain ⟨u, hu, hrest⟩ := hrest
    obtain ⟨hcalm, hfire⟩ := step_cases hu
    obtain ⟨hi, -⟩ : Inv (history tr₁) t ∧ t.panicked = none := by
      rcases run_inv tr₁ t ht with h | ⟨_, _, _, _, _, _, _, _, _, _, rfl⟩
      · exact h
      · simp at hcalm
    by_contra hge
    have hu' : u.panicked = some .tooBigATransaction := by
      cases hfire with
      | logWrite _ hp =>
        unfold logWrite
        rw [if_pos ((tooBig_iff hi (run_size tr₁ t ht) hp).2 (by omega))]
    cases tr₂ with
    | nil =>
      cases hrest
      exact hne hu'
    | cons a tr₂ =>
      simp only [Lib.run, Option.bind_eq_some_iff] at hrest
      obtain ⟨v, hv, -⟩ := hrest
      have := (step_cases hv).1
      simp [hu'] at this
  · rcases run_inv tr s h with ⟨-, hcalm⟩ | ⟨tr', p, x, t, rfl, hrun, hi, -, hp, hbig, -⟩
    · simp [hcalm]
    · have := (tooBig_iff hi (run_size tr' t hrun) hp).1 hbig
      have := hall tr' p x [] rfl
      omega
  · simp [(run_room tr s h hb).2]

/-- Three operations of nine sectors each, and a commit. -/
def fullGroup : List (Act Nat) :=
  let ops (p : Nat) : List (Act Nat) := (List.range 9).map fun i => .logWrite p (9 * p + i)
  [.begin 0, .begin 1, .begin 2] ++ (ops 0 ++ (ops 1 ++ ops 2)) ++ [.endOp 0, .endOp 1, .endOp 2, .commit 2]

theorem reservation_group : ∃ s : Group Nat, Run 100 LOGSIZE fullGroup s ∧ s.panicked ≠ some .tooBigATransaction ∧
    (history (fullGroup.take 30)).group.card = 27 := by
  obtain ⟨s, hs⟩ : ∃ s : Group Nat, Run 100 LOGSIZE fullGroup s := ⟨_, rfl⟩
  refine ⟨s, hs, (reservation hs).2 fun k p => (List.toFinset_card_le _).trans ((length_running _ p).trans ?_), by decide⟩
  refine (List.Sublist.count_le p ((List.take_sublist k _).filterMap writer)).trans ?_
  have htr : fullGroup.filterMap writer = List.replicate 9 0 ++ (List.replicate 9 1 ++ List.replicate 9 2) := by decide
  rw [htr]
  simp only [List.count_append, List.count_replicate, MAXOPBLOCKS, beq_iff_eq]
  split <;> split <;> split <;> omega

/-- Three operations of ten sectors each are let in and log more than `log_write` accepts. -/
theorem reservation_fails : ¬∀ (start : Nat) (tr : List (Act Nat)) (s : Group Nat), Run start LOGSIZE tr s →
    OpBound MAXOPBLOCKS tr → s.panicked ≠ some .tooBigATransaction := by
  intro h
  let ops (p : Nat) : List (Act Nat) := (List.range 10).map fun i => .logWrite p (10 * p + i)
  let tr : List (Act Nat) := [.begin 0, .begin 1, .begin 2] ++ (ops 0 ++ (ops 1 ++ ops 2))
  obtain ⟨s, hs, hp⟩ : ∃ s : Group Nat, Run 100 LOGSIZE tr s ∧ s.panicked = some .tooBigATransaction := ⟨_, rfl, rfl⟩
  refine h 100 tr s hs (fun k p => (List.toFinset_card_le _).trans ((length_running _ p).trans ?_)) hp
  refine (List.Sublist.count_le p ((List.take_sublist k _).filterMap writer)).trans ?_
  have htr : tr.filterMap writer = List.replicate 10 0 ++ (List.replicate 10 1 ++ List.replicate 10 2) := by decide
  rw [htr]
  simp only [List.count_append, List.count_replicate, MAXOPBLOCKS, beq_iff_eq]
  split <;> split <;> split <;> omega

end Group

end NewXv6
