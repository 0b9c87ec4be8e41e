import NewXv6.Log.Model
import NewXv6.Lib.Store

/-!
# The sector writes of the log

`commit` and `recover_from_log` never fail; what they do to the disk is the list of sector writes in their trace
(`commit_run`, `recoverFromLog_run`). The lists are those of a redo log: the copies into the log area, the header,
the copies home, the header again.
-/

namespace NewXv6

open Lib

/-! ## Sequences of `bwrite`s -/

/-- The buffers after a list of sector writes. -/
def Bio.writeAll (b : Bio) (ws : List (Nat × Block)) : Bio := ws.foldl (fun b p => b.write p.1 p.2) b

/-- The trace of a list of sector writes. -/
def bwrites (ws : List (Nat × Block)) : List Event := ws.map fun p => .bwrite p.1 p.2

/-- The sector writes in a trace. -/
def writesOf (w : List Event) : List (Nat × Block) :=
  w.filterMap fun
    | .bwrite x data => some (x, data)
    | _ => none

theorem writesOf_bwrites (ws : List (Nat × Block)) : writesOf (bwrites ws) = ws := by
  induction ws with
  | nil => rfl
  | cons p ws ih =>
    show p :: writesOf (bwrites ws) = p :: ws
    rw [ih]

theorem bwrites_append (ws vs : List (Nat × Block)) : bwrites ws ++ bwrites vs = bwrites (ws ++ vs) := by
  simp [bwrites]

namespace Bio

@[simp] theorem view_write (b : Bio) (x : Nat) (data : Block) :
    (b.write x data).view = Function.update b.view x data := by
  funext y
  by_cases h : y = x
  · subst h; simp [view, write]
  · simp [view, write, h]

@[simp] theorem view_pin (b : Bio) (x : Nat) (data : Block) :
    (b.pin x data).view = Function.update b.view x data := by
  funext y
  by_cases h : y = x
  · subst h; simp [view, pin]
  · simp [view, pin, h]

theorem writeAll_append (b : Bio) (ws vs : List (Nat × Block)) :
    b.writeAll (ws ++ vs) = (b.writeAll ws).writeAll vs := by
  simp [writeAll, List.foldl_append]

theorem view_writeAll (b : Bio) (ws : List (Nat × Block)) : (b.writeAll ws).view = store ws b.view := by
  induction ws generalizing b with
  | nil => rfl
  | cons p ws ih =>
    show ((b.write p.1 p.2).writeAll ws).view = store ws (Function.update b.view p.1 p.2)
    rw [ih, view_write]

theorem disk_writeAll (b : Bio) (ws : List (Nat × Block)) : (b.writeAll ws).disk = store ws b.disk := by
  induction ws generalizing b with
  | nil => rfl
  | cons p ws ih =>
    show ((b.write p.1 p.2).writeAll ws).disk = store ws (Function.update b.disk p.1 p.2)
    rw [ih]
    rfl

/-- Only sectors that are written become clean. -/
theorem dirty_writeAll (b : Bio) (ws : List (Nat × Block)) (x : Nat) :
    (b.writeAll ws).dirty x = if ∃ p ∈ ws, p.1 = x then none else b.dirty x := by
  induction ws generalizing b with
  | nil => simp [writeAll]
  | cons p ws ih =>
    show ((b.write p.1 p.2).writeAll ws).dirty x = _
    rw [ih]
    by_cases h : ∃ q ∈ ws, q.1 = x
    · rw [if_pos h, if_pos (by obtain ⟨q, hq, hx⟩ := h; exact ⟨q, by simp [hq], hx⟩)]
    · rw [if_neg h]
      by_cases hp : p.1 = x
      · subst hp
        rw [if_pos ⟨p, by simp, rfl⟩]
        simp [write]
      · rw [if_neg]
        · simp [write, Function.update_of_ne (Ne.symm hp)]
        · rintro ⟨q, hq, hx⟩
          rcases List.mem_cons.1 hq with rfl | hq
          · exact hp hx
          · exact h ⟨q, hq, hx⟩

end Bio

theorem bwrite_run (x : Nat) (data : Block) (s : LogState) :
    bwrite x data s = (.ok ((), { s with bio := s.bio.write x data }), [.bwrite x data]) := rfl

theorem bread_run (x : Nat) (s : LogState) : bread x s = (.ok (s.view x, s), []) := rfl

/-! ## The header block -/

/-- What the words of a header block hold. -/
theorem word_headFold (ss : List Nat) (b : Block) (o k : Nat) (ho : o + ss.length < NINDIRECT) :
    ((ss.zipIdx o).foldl (fun b p => b.setWord (p.2 + 1) (UInt32.ofNat p.1)) b).word k =
      if h : o + 1 ≤ k ∧ k < o + 1 + ss.length then UInt32.ofNat (ss.get ⟨k - (o + 1), by omega⟩) else b.word k := by
  induction ss generalizing b o with
  | nil =>
    have hno : ¬(o + 1 ≤ k ∧ k < o + 1 + ([] : List Nat).length) := by
      simp only [List.length_nil]
      omega
    rw [dif_neg hno]
    rfl
  | cons x ss ih =>
    simp only [List.length_cons] at ho
    rw [List.zipIdx_cons, List.foldl_cons, ih _ _ (by omega), Block.word_setWord _ _ _ (by omega)]
    by_cases hk : k = o + 1
    · subst hk
      rw [dif_neg (by omega), if_pos rfl, dif_pos (by simp only [List.length_cons]; omega)]
      simp
    · by_cases hin : o + 1 + 1 ≤ k ∧ k < o + 1 + 1 + ss.length
      · rw [dif_pos hin, dif_pos (by simp only [List.length_cons]; omega)]
        have he : k - (o + 1) = k - (o + 1 + 1) + 1 := by omega
        simp only [he, List.get_eq_getElem, List.getElem_cons_succ]
      · rw [dif_neg hin, if_neg hk, dif_neg (by simp only [List.length_cons]; omega)]

theorem word_headBlock_zero (b : Block) {ss : List Nat} (h : ss.length < NINDIRECT) :
    (headBlock b ss).word 0 = UInt32.ofNat ss.length := by
  unfold headBlock
  rw [word_headFold _ _ _ _ (by omega), dif_neg (by omega), Block.word_setWord_self _ _ (by decide)]

theorem headCount_headBlock (b : Block) {ss : List Nat} (h : ss.length < NINDIRECT) :
    (headBlock b ss).headCount = ss.length := by
  have hs : ss.length < 2 ^ 31 := by simp only [NINDIRECT] at h; omega
  have hm : (UInt32.ofNat ss.length).toNat = ss.length := by
    rw [UInt32.toNat_ofNat']; exact Nat.mod_eq_of_lt (by omega)
  unfold Block.headCount
  rw [word_headBlock_zero b h, hm, if_pos hs]

/-- **What `write_head` writes is what `read_head` reads.** -/
theorem headSectors_headBlock (b : Block) {ss : List Nat} (h : ss.length < NINDIRECT) (hs : ∀ x ∈ ss, x < 2 ^ 32) :
    (headBlock b ss).headSectors = ss := by
  unfold Block.headSectors
  rw [headCount_headBlock b h]
  apply List.ext_getElem
  · simp
  · intro i h₁ h₂
    have hx := hs _ (List.getElem_mem h₂)
    rw [List.getElem_map, List.getElem_range]
    unfold headBlock
    rw [word_headFold _ _ _ _ (by omega), dif_pos (by omega)]
    simp only [Nat.zero_add, Nat.add_sub_cancel, UInt32.toNat_ofNat']
    exact Nat.mod_eq_of_lt hx

theorem headCount_of_word_zero {b : Block} (h : b.word 0 = 0) : b.headCount = 0 := by
  simp [Block.headCount, h]

/-! ## The copying loops -/

/-- The writes of `install_trans`, with the log blocks as in `v`. -/
def homeWrites (v : Nat → Block) (start : Nat) : Nat → List Nat → List (Nat × Block)
  | _, [] => []
  | tail, s :: ss => (s, v (start + tail + 1)) :: homeWrites v start (tail + 1) ss

/-- The writes of `write_log`, with the home blocks as in `v`. -/
def logWrites (v : Nat → Block) (start : Nat) : Nat → List Nat → List (Nat × Block)
  | _, [] => []
  | tail, s :: ss => (start + tail + 1, v s) :: logWrites v start (tail + 1) ss

theorem homeWrites_congr {u v : Nat → Block} {start : Nat} :
    ∀ {tail : Nat} {ss : List Nat}, (∀ j, tail ≤ j → j < tail + ss.length → u (start + j + 1) = v (start + j + 1)) →
      homeWrites u start tail ss = homeWrites v start tail ss
  | _, [], _ => rfl
  | tail, s :: ss, h => by
    simp only [List.length_cons] at h
    simp only [homeWrites]
    rw [h tail (by omega) (by omega), homeWrites_congr fun j h₁ h₂ => h j (by omega) (by omega)]

theorem logWrites_congr {u v : Nat → Block} {start : Nat} :
    ∀ {tail : Nat} {ss : List Nat}, (∀ x ∈ ss, u x = v x) → logWrites u start tail ss = logWrites v start tail ss
  | _, [], _ => rfl
  | tail, s :: ss, h => by
    simp only [logWrites]
    rw [h s (by simp), logWrites_congr fun x hx => h x (by simp [hx])]

theorem map_fst_homeWrites (v : Nat → Block) (start : Nat) :
    ∀ (tail : Nat) (ss : List Nat), (homeWrites v start tail ss).map Prod.fst = ss
  | _, [] => rfl
  | tail, s :: ss => by simp [homeWrites, map_fst_homeWrites v start (tail + 1) ss]

theorem length_homeWrites (v : Nat → Block) (start tail : Nat) (ss : List Nat) :
    (homeWrites v start tail ss).length = ss.length := by
  rw [← List.length_map (f := Prod.fst), map_fst_homeWrites]

theorem mem_homeWrites {v : Nat → Block} {start tail : Nat} {ss : List Nat} {p : Nat × Block}
    (h : p ∈ homeWrites v start tail ss) : p.1 ∈ ss := by
  rw [← map_fst_homeWrites v start tail ss]
  exact List.mem_map_of_mem h

/-- If the log blocks hold the blocks `u` of the sectors, the home writes write those. -/
theorem homeWrites_val {v u : Nat → Block} {start : Nat} :
    ∀ {tail : Nat} {ss : List Nat}, (∀ j (h : j < ss.length), v (start + (tail + j) + 1) = u ss[j]) →
      ∀ p ∈ homeWrites v start tail ss, p.2 = u p.1
  | _, [], _, p, hp => by simp [homeWrites] at hp
  | tail, s :: ss, h, p, hp => by
    simp only [homeWrites, List.mem_cons] at hp
    rcases hp with rfl | hp
    · exact h 0 (by simp)
    · refine @homeWrites_val _ _ _ (tail + 1) _ (fun j hj => ?_) p hp
      have := h (j + 1) (by simp; omega)
      rw [show tail + 1 + j = tail + (j + 1) by omega]
      simpa using this

theorem length_logWrites (v : Nat → Block) (start : Nat) :
    ∀ (tail : Nat) (ss : List Nat), (logWrites v start tail ss).length = ss.length
  | _, [] => rfl
  | tail, s :: ss => by simp [logWrites, length_logWrites v start (tail + 1) ss]

theorem mem_logWrites {v : Nat → Block} {start : Nat} :
    ∀ {tail : Nat} {ss : List Nat} {p : Nat × Block}, p ∈ logWrites v start tail ss →
      start + tail < p.1 ∧ p.1 ≤ start + tail + ss.length
  | _, [], _, h => by simp [logWrites] at h
  | tail, s :: ss, p, h => by
    simp only [logWrites, List.mem_cons] at h
    rcases h with rfl | h
    · simp only [List.length_cons]
      omega
    · have := mem_logWrites h
      simp only [List.length_cons]
      omega

/-- After `write_log` the log blocks hold the blocks of the sectors. -/
theorem store_logWrites (v : Nat → Block) (start : Nat) :
    ∀ (tail : Nat) (ss : List Nat) (d : Nat → Block) (j : Nat) (h : j < ss.length),
      store (logWrites v start tail ss) d (start + (tail + j) + 1) = v ss[j]
  | _, [], _, _, h => by simp at h
  | tail, s :: ss, d, 0, _ => by
    rw [logWrites, store_cons, store_other]
    · simp
    · intro p hp
      have := mem_logWrites hp
      omega
  | tail, s :: ss, d, j + 1, h => by
    have := store_logWrites v start (tail + 1) ss (Function.update d (start + tail + 1) (v s)) j (by simpa using h)
    rw [logWrites, store_cons, List.getElem_cons_succ, ← this]
    congr 1
    omega

theorem installFrom_run {start size : Nat} :
    ∀ (ss : List Nat) (tail : Nat) (s : LogState), (∀ x ∈ ss, x < start ∨ start + size ≤ x) →
      tail + ss.length < size → installFrom start tail ss s =
        (.ok ((), { s with bio := s.bio.writeAll (homeWrites s.view start tail ss) }),
          bwrites (homeWrites s.view start tail ss))
  | [], _, _, _, _ => rfl
  | x :: ss, tail, s, hout, hlen => by
    have hx := hout x (by simp)
    have hlen' : tail + 1 + ss.length < size := by simp only [List.length_cons] at hlen; omega
    have ih := installFrom_run ss (tail + 1) { s with bio := s.bio.write x (s.view (start + tail + 1)) }
      (fun y hy => hout y (by simp [hy])) hlen'
    -- the writes home leave the rest of the log blocks as they are
    have hw : homeWrites (s.bio.write x (s.view (start + tail + 1))).view start (tail + 1) ss =
        homeWrites s.view start (tail + 1) ss := by
      apply homeWrites_congr
      intro j _ _
      rw [Bio.view_write, Function.update_of_ne (by omega)]
      rfl
    have hv : ({ s with bio := s.bio.write x (s.view (start + tail + 1)) } : LogState).view =
        (s.bio.write x (s.view (start + tail + 1))).view := rfl
    rw [hv, hw] at ih
    exact Prog.run_bind (bread_run _ _) (Prog.run_bind (bwrite_run _ _ _) ih)

theorem writeLogFrom_run {start size : Nat} :
    ∀ (ss : List Nat) (tail : Nat) (s : LogState), (∀ x ∈ ss, x < start ∨ start + size ≤ x) →
      tail + ss.length < size → writeLogFrom start tail ss s =
        (.ok ((), { s with bio := s.bio.writeAll (logWrites s.view start tail ss) }),
          bwrites (logWrites s.view start tail ss))
  | [], _, _, _, _ => rfl
  | x :: ss, tail, s, hout, hlen => by
    have hlen' : tail + 1 + ss.length < size := by simp only [List.length_cons] at hlen; omega
    have ih := writeLogFrom_run ss (tail + 1) { s with bio := s.bio.write (start + tail + 1) (s.view x) }
      (fun y hy => hout y (by simp [hy])) hlen'
    -- the writes into the log leave the home blocks as they are
    have hw : logWrites (s.bio.write (start + tail + 1) (s.view x)).view start (tail + 1) ss =
        logWrites s.view start (tail + 1) ss := by
      apply logWrites_congr
      intro y hy
      have := hout y (by simp [hy])
      rw [Bio.view_write, Function.update_of_ne (by omega)]
      rfl
    have hv : ({ s with bio := s.bio.write (start + tail + 1) (s.view x) } : LogState).view =
        (s.bio.write (start + tail + 1) (s.view x)).view := rfl
    rw [hv, hw] at ih
    exact Prog.run_bind (bread_run _ _) (Prog.run_bind (bwrite_run _ _ _) ih)

/-! ## Commit and recovery -/

/-- The log a commit can handle: at most `min(LOGSIZE, size - 1)` sectors, all outside the log area. -/
structure Log.Fits (l : Log) : Prop where
  le_logsize : l.sector.length ≤ LOGSIZE
  lt_size : l.sector.length < l.size
  out : ∀ x ∈ l.sector, x < l.start ∨ l.start + l.size ≤ x

theorem writeHead_run (s : LogState) :
    writeHead s = (.ok ((), { s with bio := s.bio.write s.log.start (headBlock (s.view s.log.start) s.log.sector) }),
      [.bwrite s.log.start (headBlock (s.view s.log.start) s.log.sector)]) := rfl

theorem readHead_run (s : LogState) :
    readHead s = (.ok ((), { s with log := { s.log with sector := (s.view s.log.start).headSectors } }), []) := rfl

theorem installTrans_run {s : LogState} (hf : s.log.Fits) :
    installTrans s = (.ok ((), { s with bio := s.bio.writeAll (homeWrites s.view s.log.start 0 s.log.sector) }),
      bwrites (homeWrites s.view s.log.start 0 s.log.sector)) := by
  have hlt := hf.lt_size
  exact Prog.run_bind (Prog.run_get s) (@installFrom_run _ s.log.size _ _ _ hf.out (by omega))

theorem writeLog_run {s : LogState} (hf : s.log.Fits) :
    writeLog s = (.ok ((), { s with bio := s.bio.writeAll (logWrites s.view s.log.start 0 s.log.sector) }),
      bwrites (logWrites s.view s.log.start 0 s.log.sector)) := by
  have hlt := hf.lt_size
  exact Prog.run_bind (Prog.run_get s) (@writeLogFrom_run _ s.log.size _ _ _ hf.out (by omega))

/-- The header blocks `commit` writes, over the old contents of the header sector. -/
def commitHeads (s : LogState) : Block × Block :=
  let h₁ := headBlock (s.view s.log.start) s.log.sector
  (h₁, headBlock h₁ [])

/-- The sector writes of a commit of at least one sector. -/
def commitWrites (s : LogState) : List (Nat × Block) :=
  let ws := logWrites s.view s.log.start 0 s.log.sector
  ws ++ ([(s.log.start, (commitHeads s).1)] ++
    (homeWrites (store ws s.view) s.log.start 0 s.log.sector ++ [(s.log.start, (commitHeads s).2)]))

/-- The sector writes of a recovery. -/
def recoverWrites (s : LogState) : List (Nat × Block) :=
  homeWrites s.view s.log.start 0 (s.view s.log.start).headSectors ++
    [(s.log.start, headBlock (s.view s.log.start) [])]

theorem commit_nil {s : LogState} (h : s.log.sector = []) : commit s = (.ok ((), s), []) := by
  obtain ⟨⟨start, size, outstanding, committing, sector⟩, bio⟩ := s
  subst h
  rfl

theorem commit_cons {s : LogState} (h : s.log.sector ≠ []) :
    commit s = (do writeLog; writeHead; installTrans; clearHead; writeHead : Kern LogState Unit) s := by
  obtain ⟨⟨start, size, outstanding, committing, sector⟩, bio⟩ := s
  cases sector with
  | nil => exact absurd rfl h
  | cons x ss => rfl

/-- **`commit` never fails, and what it does is its sector writes.** -/
theorem commit_run {s : LogState} (hf : s.log.Fits) (hn : s.log.sector ≠ []) :
    commit s = (.ok ((), { log := { s.log with sector := [] }, bio := s.bio.writeAll (commitWrites s) }),
      bwrites (commitWrites s)) := by
  have hout := hf.out
  -- the states between the five parts
  let ws := logWrites s.view s.log.start 0 s.log.sector
  let s₁ : LogState := { s with bio := s.bio.writeAll ws }
  let s₂ : LogState := { s with bio := s₁.bio.write s.log.start (commitHeads s).1 }
  let hs := homeWrites (store ws s.view) s.log.start 0 s.log.sector
  let s₃ : LogState := { s with bio := s₂.bio.writeAll hs }
  let s₄ : LogState := { s₃ with log := { s.log with sector := [] } }
  have hstart : ∀ p ∈ ws, p.1 ≠ s.log.start := by
    intro p hp
    have := mem_logWrites hp
    omega
  have hv₁ : s₁.view s.log.start = s.view s.log.start := by
    show (s.bio.writeAll ws).view s.log.start = _
    rw [Bio.view_writeAll, store_other hstart]
    rfl
  have h₂ : writeHead s₁ = (.ok ((), s₂), bwrites [(s.log.start, (commitHeads s).1)]) := by
    rw [writeHead_run]
    show (Except.ok ((), { s with bio := s₁.bio.write s.log.start (headBlock (s₁.view s.log.start) s.log.sector) }),
      [Event.bwrite s.log.start (headBlock (s₁.view s.log.start) s.log.sector)]) = _
    rw [hv₁]
    rfl
  have hhs : homeWrites s₂.view s.log.start 0 s.log.sector = hs := by
    apply homeWrites_congr
    intro j _ _
    show (s₁.bio.write s.log.start (commitHeads s).1).view _ = _
    rw [Bio.view_write, Function.update_of_ne (by omega)]
    show (s.bio.writeAll ws).view _ = _
    rw [Bio.view_writeAll]
    rfl
  have h₃ : installTrans s₂ = (.ok ((), s₃), bwrites hs) := by
    rw [installTrans_run (s := s₂) hf]
    show (Except.ok ((), { s with bio := s₂.bio.writeAll (homeWrites s₂.view s.log.start 0 s.log.sector) }),
      bwrites (homeWrites s₂.view s.log.start 0 s.log.sector)) = _
    rw [hhs]
  have hv₃ : s₄.view s.log.start = (commitHeads s).1 := by
    show (s₂.bio.writeAll hs).view s.log.start = _
    rw [Bio.view_writeAll, store_other]
    · show (s₁.bio.write s.log.start (commitHeads s).1).view s.log.start = _
      rw [Bio.view_write, Function.update_self]
    · intro p hp
      have := hout _ (mem_homeWrites hp)
      have := hf.lt_size
      omega
  have h₅ : writeHead s₄ = (.ok ((), { s₄ with bio := s₃.bio.write s.log.start (commitHeads s).2 }),
      bwrites [(s.log.start, (commitHeads s).2)]) := by
    rw [writeHead_run]
    show (Except.ok ((), { s₄ with bio := s₃.bio.write s.log.start (headBlock (s₄.view s.log.start) []) }),
      [Event.bwrite s.log.start (headBlock (s₄.view s.log.start) [])]) = _
    rw [hv₃]
    rfl
  rw [commit_cons hn]
  refine (Prog.run_bind (writeLog_run hf) (Prog.run_bind h₂ (Prog.run_bind h₃
    (Prog.run_bind (Prog.run_modify _ _) h₅)))).trans ?_
  refine Prod.ext ?_ ?_
  · show Except.ok _ = Except.ok _
    simp only [commitWrites, Bio.writeAll_append]
    rfl
  · simp only [commitWrites, ← bwrites_append, List.nil_append]
    rfl

theorem mem_commitWrites {s : LogState} {x : Nat} (h : x ∈ s.log.sector) : ∃ p ∈ commitWrites s, p.1 = x := by
  rw [← map_fst_homeWrites (store (logWrites s.view s.log.start 0 s.log.sector) s.view) s.log.start 0 s.log.sector] at h
  obtain ⟨p, hp, rfl⟩ := List.mem_map.1 h
  refine ⟨p, ?_, rfl⟩
  simp only [commitWrites, List.mem_append, hp, true_or, or_true]

/-- A commit does not change what the home sectors hold. -/
theorem store_commitWrites {s : LogState} (hf : s.log.Fits) {x : Nat} (hx : x < s.log.start ∨ s.log.start + s.log.size ≤ x) :
    store (commitWrites s) s.view x = s.view x := by
  have hlt := hf.lt_size
  have hne : s.log.start ≠ x := by omega
  have hws : ∀ p ∈ logWrites s.view s.log.start 0 s.log.sector, p.1 ≠ x := by
    intro p hp
    have := mem_logWrites hp
    omega
  have hlast : ∀ (d : Nat → Block) b, store [(s.log.start, b)] d x = d x := by
    intro d b
    exact store_other (by simpa using hne) d
  simp only [commitWrites, store_append, hlast]
  by_cases hmem : ∃ p ∈ homeWrites (store (logWrites s.view s.log.start 0 s.log.sector) s.view) s.log.start 0 s.log.sector,
      p.1 = x
  · refine store_val (fun p hp hpx => ?_) hmem _
    rw [homeWrites_val (u := s.view) (fun j hj => ?_) p hp, hpx]
    exact store_logWrites s.view s.log.start 0 s.log.sector s.view j hj
  · rw [store_other fun p hp hpx => hmem ⟨p, hp, hpx⟩, hlast, store_other hws]

/-- **`recover_from_log` never fails, and what it does is its sector writes.** -/
theorem recoverFromLog_run {s : LogState} (hf : ({ s.log with sector := (s.view s.log.start).headSectors } : Log).Fits) :
    recoverFromLog s = (.ok ((), { log := { s.log with sector := [] }, bio := s.bio.writeAll (recoverWrites s) }),
      bwrites (recoverWrites s)) := by
  have hout := hf.out
  let ss := (s.view s.log.start).headSectors
  let s₁ : LogState := { s with log := { s.log with sector := ss } }
  let hs := homeWrites s.view s.log.start 0 ss
  let s₃ : LogState := { log := { s.log with sector := [] }, bio := s.bio.writeAll hs }
  have hv : s₃.view s.log.start = s.view s.log.start := by
    show (s.bio.writeAll hs).view s.log.start = _
    rw [Bio.view_writeAll, store_other]
    · rfl
    · intro p hp
      have := hout _ (mem_homeWrites hp)
      have := hf.lt_size
      simp only at *
      omega
  have h₃ : writeHead s₃ = (.ok ((), { s₃ with bio := s₃.bio.write s.log.start (headBlock (s.view s.log.start) []) }),
      bwrites [(s.log.start, headBlock (s.view s.log.start) [])]) := by
    rw [writeHead_run]
    show (Except.ok ((), { s₃ with bio := s₃.bio.write s.log.start (headBlock (s₃.view s.log.start) []) }),
      [Event.bwrite s.log.start (headBlock (s₃.view s.log.start) [])]) = _
    rw [hv]
    rfl
  unfold recoverFromLog
  refine (Prog.run_bind (readHead_run s) (Prog.run_bind (installTrans_run (s := s₁) hf)
    (Prog.run_bind (Prog.run_modify _ _) h₃))).trans ?_
  refine Prod.ext ?_ ?_
  · show Except.ok _ = Except.ok _
    simp only [recoverWrites, Bio.writeAll_append]
    rfl
  · simp only [recoverWrites, ← bwrites_append, List.nil_append]
    rfl

end NewXv6
