import NewXv6.Sound.Queue

/-!
# The stream of the sound card

While at most one call of `sys_wavdecode` is past its wait, every byte `sys_kwrite` accepted goes to the nodes once and in
order, and the nodes on the queue still have it.
-/

namespace NewXv6.Sound

open Lib

/-- The process is past the wait of `sys_wavdecode`. -/
def WavPc.Active : WavPc → Prop
  | .outside => False
  | .wait => False
  | _ => True

/-! ## Bytes -/

section bytes

variable {f d src : Nat → UInt8} {off start n m : Int}

@[simp] theorem length_bytes : (bytes f n).length = n.toNat := by simp [bytes]

theorem getElem_bytes {i : Nat} (h : i < (bytes f n).length) : (bytes f n)[i] = f i := by simp [bytes]

@[simp] theorem bytes_zero : bytes f 0 = [] := rfl

/-- The first bytes of the first bytes. -/
theorem take_bytes (hmn : m ≤ n) : (bytes f n).take m.toNat = bytes f m := by
  refine List.ext_getElem (by simp; omega) fun i hi hi' => ?_
  rw [List.getElem_take, getElem_bytes, getElem_bytes]

/-- A copy appends to what was before it. -/
theorem bytes_memmove (d src : Nat → UInt8) (hoff : 0 ≤ off) (hstart : 0 ≤ start) (hn : 0 ≤ n) :
    bytes (memmove d off src start n) (off + n) = bytes d off ++ (bytes src (start + n)).drop start.toNat := by
  refine List.ext_getElem (by simp; omega) fun i hi hi' => ?_
  rw [length_bytes] at hi
  rw [getElem_bytes, List.getElem_append]
  unfold memmove
  by_cases hlt : i < (bytes d off).length
  · rw [dif_pos hlt, getElem_bytes]
    rw [length_bytes] at hlt
    rw [if_neg (by omega)]
  · rw [dif_neg hlt, List.getElem_drop, getElem_bytes, length_bytes]
    rw [length_bytes] at hlt
    rw [if_pos (by omega)]
    congr 1
    omega

end bytes

namespace Audio

variable {Proc : Type} [DecidableEq Proc] {s t : Audio Proc} {p : Proc} {l : List NodeId}

/-- The filled part of the current node. -/
def filled (s : Audio Proc) : List UInt8 := bytes (s.audiobuf s.bufcount).data s.datacount

/-- The chunk in `buf`. -/
def chunk (s : Audio Proc) : List UInt8 := bytes s.buf s.size

/-- The chunks that were consumed, while no process is past its wait. -/
def consumed (s : Audio Proc) : List (List UInt8) := if s.isdecoding then s.accepted.dropLast else s.accepted

/-- The condition on a step: sizes are from 0 to 4096, the rate is not set again, and a process passes its wait only
while no other is past it. -/
def Serial (s : Audio Proc) : AudioAct Proc → Prop
  | .setSampleRate _ rate => rate = none
  | .kwrite _ size _ => ∀ n, size = some n → 0 ≤ n ∧ n ≤ BUFLEN
  | .go p => s.pc p = .wait → s.isdecoding = true → ∀ q, ¬(s.pc q).Active
  | _ => True

/-- Where the bytes are while a process is at this place of `sys_wavdecode`. -/
def Split (s : Audio Proc) : WavPc → Prop
  | .start => s.queued ++ s.filled = s.accepted.dropLast.flatten
  | .pause _ => s.queued ++ s.filled = s.accepted.dropLast.flatten
  | .add i temp _ => s.queued ++ bytes (s.audiobuf i).data bufsize ++ s.chunk.drop temp.toNat = s.accepted.flatten
  | .search temp _ => s.queued ++ s.chunk.drop temp.toNat = s.accepted.flatten
  | .finish => s.queued ++ s.filled = s.accepted.flatten
  | _ => True

/-- The nodes on the queue have the last bytes that were queued. -/
def Kept (s : Audio Proc) : Prop :=
  ∃ l, s.Queue l ∧ (l.flatMap fun i => bytes (s.audiobuf i).data bufsize) <:+ s.queued

/-- Every byte is where it should be: in the nodes that were queued or in the current node, once and in order. -/
structure Delivered (s : Audio Proc) : Prop where
  idle : (∀ p, ¬(s.pc p).Active) → s.queued ++ s.filled = s.consumed.flatten
  split : ∀ p, s.Split (s.pc p)
  kept : s.Kept

/-- The rest of what holds at a place of `sys_wavdecode`. -/
def Held (s : Audio Proc) : WavPc → Prop
  | .start => ¬s.OnQueue s.bufcount
  | .pause temp => ¬s.OnQueue s.bufcount ∧ temp = bufsize - s.datacount ∧ temp ≤ s.size
  | .add i temp _ => ¬s.OnQueue i ∧ (s.audiobuf i).processed = false ∧ 0 ≤ temp ∧ temp ≤ s.size
  | .search temp _ => 0 ≤ temp ∧ temp ≤ s.size
  | .finish => ¬s.OnQueue s.bufcount
  | _ => True

/-- What holds between any two steps. -/
structure Stream (s : Audio Proc) : Prop extends Delivered s where
  inv : s.crashed = false → Inv s
  one : ∀ p q, (s.pc p).Active → (s.pc q).Active → p = q
  chunk : s.isdecoding = true → s.accepted = s.accepted.dropLast ++ [s.chunk]
  active : ∀ p, (s.pc p).Active → s.isdecoding = true ∧ s.Held (s.pc p)
  free : (∀ p, ¬(s.pc p).Active) → ¬s.OnQueue s.bufcount

omit [DecidableEq Proc] in
/-- With the chunk in `buf` the bytes are all. -/
theorem Stream.flatten (h : Stream s) (hdec : s.isdecoding = true) :
    s.accepted.flatten = s.accepted.dropLast.flatten ++ s.chunk := by
  conv_lhs => rw [h.chunk hdec]
  simp

/-- A step of the one process that is past its wait. -/
theorem Stream.of_go {pc : WavPc} (hinv : t.crashed = false → Inv t) (hpc : t.pc = Function.update s.pc p pc)
    (hother : ∀ q, q ≠ p → ¬(s.pc q).Active) (hkept : t.Kept)
    (hchunk : t.isdecoding = true → t.accepted = t.accepted.dropLast ++ [t.chunk]) (hsplit : t.Split pc)
    (hactive : pc.Active → t.isdecoding = true ∧ t.Held pc)
    (hidle : ¬pc.Active → ¬t.OnQueue t.bufcount ∧ t.queued ++ t.filled = t.consumed.flatten) : Stream t := by
  have hp : t.pc p = pc := by rw [hpc, Function.update_self]
  have hq : ∀ q, q ≠ p → t.pc q = s.pc q := fun q hq => by rw [hpc, Function.update_of_ne hq]
  have hact : ∀ q, (t.pc q).Active → q = p := by
    intro q hqa
    by_contra hne
    rw [hq q hne] at hqa
    exact hother q hne hqa
  refine ⟨⟨fun hall => (hidle (hp ▸ hall p)).2, fun q => ?_, hkept⟩, hinv,
    fun q r hqa hra => (hact q hqa).trans (hact r hra).symm, hchunk, fun q hqa => ?_, fun hall => (hidle (hp ▸ hall p)).1⟩
  · by_cases hqp : q = p
    · rw [hqp, hp]
      exact hsplit
    · have hna := hother q hqp
      rw [hq q hqp]
      cases hqpc : s.pc q <;> rw [hqpc] at hna
      · trivial
      · trivial
      all_goals exact absurd trivial hna
  · cases hact q hqa
    rw [hp] at hqa ⊢
    exact hactive hqa

/-! ## Steps -/

omit [DecidableEq Proc] in
theorem Queue.congr (h : s.Queue l) (hq : t.soundQueue = s.soundQueue)
    (hn : ∀ i ∈ l, (t.audiobuf i).next = (s.audiobuf i).next) : t.Queue l :=
  ⟨hq.trans h.1, h.2.congr hn⟩

/-- The nodes on the queue are left alone. -/
def Same (s t : Audio Proc) : Prop :=
  ∀ i, s.OnQueue i → (t.audiobuf i).data = (s.audiobuf i).data ∧ (t.audiobuf i).next = (s.audiobuf i).next

omit [DecidableEq Proc] in
theorem Kept.onQueue_congr {i : NodeId} (h : s.Kept) (hn : s.Same t) (hq : t.soundQueue = s.soundQueue) :
    t.OnQueue i ↔ s.OnQueue i := by
  obtain ⟨l, hl, -⟩ := h
  have ht : t.Queue l := hl.congr hq fun j hj => (hn j ⟨l, hl, hj⟩).2
  exact ht.onQueue.trans hl.onQueue.symm

omit [DecidableEq Proc] in
theorem Kept.congr (h : s.Kept) (hq : t.soundQueue = s.soundQueue) (hqd : t.queued = s.queued) (hn : s.Same t) : t.Kept := by
  obtain ⟨l, hl, hsuf⟩ := h
  refine ⟨l, hl.congr hq fun j hj => (hn j ⟨l, hl, hj⟩).2, ?_⟩
  rw [hqd, List.flatMap_congr fun j hj => by rw [(hn j ⟨l, hl, hj⟩).1]]
  exact hsuf

omit [DecidableEq Proc] in
theorem Stream.others (h : Stream s) (hp : (s.pc p).Active) (q : Proc) (hq : q ≠ p) : ¬(s.pc q).Active :=
  fun hqa => hq (h.one q p hqa hp)

theorem Stream.wait (h : Stream s) (hinv : s.crashed = false → Inv (s.goto p .start)) (hdec : s.isdecoding = true)
    (hall : ∀ q, ¬(s.pc q).Active) : Stream (s.goto p .start) := by
  refine .of_go hinv rfl (fun q _ => hall q) h.kept h.chunk ?_ (fun _ => ⟨hdec, h.free hall⟩) fun hna => absurd trivial hna
  have hidle := h.idle hall
  rw [consumed, if_pos hdec] at hidle
  exact hidle

/-- The chunk fits into the current node. -/
theorem start_fits (p : Proc) (hfit : (bufsize : Int) - s.datacount > s.size) :
    ∃ x : SoundNode, bytes x.data s.datacount = s.filled ∧ s.start p = { s with
      audiobuf := Function.update s.audiobuf s.bufcount
        { x with data := memmove x.data s.datacount s.buf 0 s.size, pcmOut := true, processed := true }
      datacount := s.datacount + s.size
      pc := Function.update s.pc p .finish } := by
  unfold Audio.start
  by_cases hz : s.datacount = 0
  · refine ⟨.zero, by rw [filled, hz, bytes_zero, bytes_zero], ?_⟩
    simp only [if_pos hz, if_pos hfit, setNode, Function.update_idem, Function.update_self]
  · refine ⟨s.audiobuf s.bufcount, rfl, ?_⟩
    simp only [if_neg hz, if_pos hfit, setNode]

/-- The chunk has to be split. -/
theorem start_full (p : Proc) (hfit : ¬(bufsize : Int) - s.datacount > s.size) :
    ∃ x : SoundNode, bytes x.data s.datacount = s.filled ∧ s.start p = { s with
      audiobuf := Function.update s.audiobuf s.bufcount x
      pc := Function.update s.pc p (.pause (bufsize - s.datacount)) } := by
  unfold Audio.start
  by_cases hz : s.datacount = 0
  · refine ⟨.zero, by rw [filled, hz, bytes_zero, bytes_zero], ?_⟩
    simp only [if_pos hz, if_neg hfit, setNode, goto]
  · refine ⟨s.audiobuf s.bufcount, rfl, ?_⟩
    simp only [if_neg hz, if_neg hfit, goto, Function.update_eq_self]

theorem Stream.start (h : Stream s) (hpc : s.pc p = .start) (hinv : (s.start p).crashed = false → Inv (s.start p))
    (hn : s.Same (s.start p)) (hcount : 0 ≤ s.datacount) (hsize : 0 ≤ s.size) : Stream (s.start p) := by
  obtain ⟨hdec, hfree⟩ := h.active p (hpc ▸ trivial)
  have hsplit := h.split p
  rw [hpc] at hfree hsplit
  have hother := h.others (p := p) (hpc ▸ trivial)
  by_cases hfit : (bufsize : Int) - s.datacount > s.size
  · obtain ⟨x, hx, ht⟩ := start_fits p hfit
    rw [ht] at hinv hn ⊢
    refine .of_go hinv rfl hother (h.kept.congr rfl rfl hn) h.chunk ?_
      (fun _ => ⟨hdec, mt (h.kept.onQueue_congr hn rfl).1 hfree⟩) fun hna => absurd trivial hna
    show s.queued ++ bytes (Function.update s.audiobuf s.bufcount _ s.bufcount).data (s.datacount + s.size) = s.accepted.flatten
    have hcopy := bytes_memmove x.data s.buf hcount (Int.le_refl 0) hsize
    rw [Function.update_self, hcopy, hx, Int.zero_add, h.flatten hdec, ← List.append_assoc, hsplit]
    rfl
  · obtain ⟨x, hx, ht⟩ := start_full p hfit
    rw [ht] at hinv hn ⊢
    refine .of_go hinv rfl hother (h.kept.congr rfl rfl hn) h.chunk ?_
      (fun _ => ⟨hdec, mt (h.kept.onQueue_congr hn rfl).1 hfree, rfl, by dsimp only; omega⟩) fun hna => absurd trivial hna
    show s.queued ++ bytes (Function.update s.audiobuf s.bufcount x s.bufcount).data s.datacount = s.accepted.dropLast.flatten
    rw [Function.update_self, hx]
    exact hsplit

theorem Stream.fill {temp : Int} (h : Stream s) (hpc : s.pc p = .pause temp)
    (hinv : (s.fill p temp).crashed = false → Inv (s.fill p temp)) (hn : s.Same (s.fill p temp))
    (hcount : 0 ≤ s.datacount ∧ s.datacount < bufsize) : Stream (s.fill p temp) := by
  obtain ⟨hdec, hheld⟩ := h.active p (hpc ▸ trivial)
  have hsplit := h.split p
  rw [hpc] at hheld hsplit
  obtain ⟨hfree, htemp, hle⟩ := hheld
  have hother := h.others (p := p) (hpc ▸ trivial)
  have hpos : 0 ≤ temp := by omega
  have hnode : (s.fill p temp).audiobuf s.bufcount = { s.audiobuf s.bufcount with
      data := memmove (s.audiobuf s.bufcount).data s.datacount s.buf 0 temp, pcmOut := true, processed := false } :=
    Function.update_self ..
  refine .of_go hinv rfl hother (h.kept.congr rfl rfl hn) h.chunk ?_
    (fun _ => ⟨hdec, mt (h.kept.onQueue_congr hn rfl).1 hfree, congrArg SoundNode.processed hnode, hpos, hle⟩)
    fun hna => absurd trivial hna
  show s.queued ++ bytes ((s.fill p temp).audiobuf s.bufcount).data bufsize ++ s.chunk.drop temp.toNat = s.accepted.flatten
  have hcopy := bytes_memmove (s.audiobuf s.bufcount).data s.buf hcount.1 (Int.le_refl 0) hpos
  have hfull : s.datacount + temp = bufsize := by omega
  rw [Int.zero_add, hfull, ← take_bytes hle] at hcopy
  have hjoin : bytes (memmove (s.audiobuf s.bufcount).data s.datacount s.buf 0 temp) bufsize ++ s.chunk.drop temp.toNat =
      s.filled ++ s.chunk := by
    rw [hcopy, List.append_assoc]
    exact congrArg _ (List.take_append_drop temp.toNat s.chunk)
  rw [hnode, List.append_assoc, hjoin, ← List.append_assoc, h.flatten hdec, hsplit]

theorem Stream.add {i : NodeId} {temp : Int} {pass : Nat} (h : Stream s) (hpc : s.pc p = .add i temp pass)
    (hs : Inv s) (hinv : ((s.addSound i).goto p (.search temp pass)).crashed = false → Inv ((s.addSound i).goto p (.search temp pass))) :
    Stream ((s.addSound i).goto p (.search temp pass)) := by
  obtain ⟨hdec, hheld⟩ := h.active p (hpc ▸ trivial)
  have hsplit := h.split p
  rw [hpc] at hheld hsplit
  obtain ⟨hfree, -, hpos, hle⟩ := hheld
  have hother := h.others (p := p) (hpc ▸ trivial)
  obtain ⟨-, -, hsize, hbuf, hisdec, hacc, hpcs, -⟩ := addSound_frame s i
  obtain ⟨l, hl, hsuf⟩ := h.kept
  obtain ⟨l', hl', hnd, -⟩ := hs.queue
  cases hl.unique hl'
  rw [hl.onQueue] at hfree
  obtain ⟨hq, -, hqd, hsame⟩ := addSound_queue hl hnd hfree
  have hchunk : ((s.addSound i).goto p (.search temp pass)).chunk = s.chunk := by
    show bytes (s.addSound i).buf (s.addSound i).size = _
    rw [hbuf, hsize]
    rfl
  have hpct : ((s.addSound i).goto p (.search temp pass)).pc = Function.update s.pc p (.search temp pass) :=
    congrArg (Function.update · p _) hpcs
  refine .of_go hinv hpct hother ⟨_, hq, ?_⟩ (fun hd => ?_) ?_ (fun _ => ⟨hisdec.trans hdec, hpos, hle.trans_eq hsize.symm⟩)
    fun hna => absurd trivial hna
  · show (l ++ [i]).flatMap (fun j => bytes ((s.addSound i).audiobuf j).data bufsize) <:+ (s.addSound i).queued
    obtain ⟨u, hu⟩ := hsuf
    simp only [(hsame _).1, List.flatMap_append, hqd, ← hu, List.append_assoc]
    exact ⟨u, by simp⟩
  · rw [hchunk]
    show (s.addSound i).accepted = (s.addSound i).accepted.dropLast ++ _
    rw [hacc]
    exact h.chunk hdec
  · show (s.addSound i).queued ++ _ = (s.addSound i).accepted.flatten
    rw [hchunk, hqd, hacc]
    exact hsplit

theorem Stream.search {temp : Int} {pass : Nat} (h : Stream s) (hpc : s.pc p = .search temp pass) (hs : Inv s)
    (hinv : (s.search p temp pass).crashed = false → Inv (s.search p temp pass)) (hn : s.Same (s.search p temp pass)) :
    Stream (s.search p temp pass) := by
  obtain ⟨hdec, hheld⟩ := h.active p (hpc ▸ trivial)
  have hsplit := h.split p
  rw [hpc] at hheld hsplit
  obtain ⟨hpos, hle⟩ := hheld
  have hother := h.others (p := p) (hpc ▸ trivial)
  have hsize := hs.size
  -- the process goes on with the search
  have hnext : ∀ pass', (s.goto p (.search temp pass')).crashed = false → Inv (s.goto p (.search temp pass')) →
      Stream (s.goto p (.search temp pass')) := fun pass' _ hinv' =>
    .of_go (fun _ => hinv') rfl hother h.kept h.chunk hsplit (fun _ => ⟨hdec, hpos, hle⟩) fun hna => absurd trivial hna
  by_cases hpass : pass < 3
  · by_cases hproc : (s.audiobuf ⟨pass, hpass⟩).processed = true
    · have hlen : (BUFLEN : Int) < bufsize := by decide
      have hroom : (bufsize : Int) > s.size - temp := by omega
      have ht : s.search p temp pass = { s with
          audiobuf := Function.update s.audiobuf ⟨pass, hpass⟩
            { SoundNode.zero with data := memmove (fun _ => 0) 0 s.buf temp (s.size - temp), pcmOut := true, processed := true }
          datacount := s.size - temp
          bufcount := ⟨pass, hpass⟩
          pc := Function.update s.pc p .finish } := by
        unfold Audio.search
        simp only [dif_pos hpass, if_pos hproc, if_pos hroom, setNode]
      -- a node that has been played is not on the queue
      have hfree : ¬s.OnQueue ⟨pass, hpass⟩ := by
        obtain ⟨l, hl, -, hp⟩ := hs.queue
        rw [hl.onQueue]
        intro hi
        rw [hp _ hi] at hproc
        cases hproc
      rw [ht] at hinv hn ⊢
      refine .of_go hinv rfl hother (h.kept.congr rfl rfl hn) h.chunk ?_
        (fun _ => ⟨hdec, mt (h.kept.onQueue_congr hn rfl).1 hfree⟩) fun hna => absurd trivial hna
      show s.queued ++ bytes (Function.update s.audiobuf ⟨pass, hpass⟩ _ ⟨pass, hpass⟩).data (s.size - temp) = s.accepted.flatten
      have hcopy := bytes_memmove (fun _ => 0) s.buf (Int.le_refl 0) hpos (Int.sub_nonneg.2 hle)
      rw [Int.zero_add, bytes_zero, List.nil_append, show temp + (s.size - temp) = s.size by omega] at hcopy
      rw [Function.update_self, hcopy]
      exact hsplit
    · have ht : s.search p temp pass = s.goto p (.search temp (pass + 1)) := by
        unfold Audio.search
        simp only [dif_pos hpass, if_neg hproc]
      rw [ht] at hinv ⊢
      exact hnext _ hs.crashed (hinv hs.crashed)
  · have ht : s.search p temp pass = s.goto p (.search temp 0) := by
      unfold Audio.search
      rw [dif_neg hpass]
    rw [ht] at hinv ⊢
    exact hnext _ hs.crashed (hinv hs.crashed)

theorem Stream.finish (h : Stream s) (hpc : s.pc p = .finish)
    (hinv : Inv { s.goto p .outside with isdecoding := false }) : Stream { s.goto p .outside with isdecoding := false } := by
  obtain ⟨-, hfree⟩ := h.active p (hpc ▸ trivial)
  have hsplit := h.split p
  rw [hpc] at hfree hsplit
  exact .of_go (fun _ => hinv) rfl (h.others (hpc ▸ trivial)) h.kept nofun trivial (fun ha => ha.elim) fun _ => ⟨hfree, hsplit⟩

omit [DecidableEq Proc] in
/-- Between two chunks. -/
theorem Stream.of_idle (hinv : t.crashed = false → Inv t) (hall : ∀ p, ¬(t.pc p).Active) (hkept : t.Kept)
    (hchunk : t.isdecoding = true → t.accepted = t.accepted.dropLast ++ [t.chunk]) (hfree : ¬t.OnQueue t.bufcount)
    (hidle : t.queued ++ t.filled = t.consumed.flatten) : Stream t := by
  refine ⟨⟨fun _ => hidle, fun p => ?_, hkept⟩, hinv, fun p q hp => absurd hp (hall p), hchunk,
    fun p hp => absurd hp (hall p), fun _ => hfree⟩
  have hna := hall p
  cases hpc : t.pc p <;> rw [hpc] at hna
  · trivial
  · trivial
  all_goals exact absurd trivial hna

omit [DecidableEq Proc] in
theorem Stream.kwrite {size : Option Int} {buffer : Option (Nat → UInt8)} (h : Stream s) (hdec : s.isdecoding = false)
    (hsize : ∀ n, size = some n → 0 ≤ n ∧ n ≤ BUFLEN)
    (hinv : (s.kwrite size buffer).crashed = false → Inv (s.kwrite size buffer)) : Stream (s.kwrite size buffer) := by
  have hall : ∀ p, ¬(s.pc p).Active := fun p hp => Bool.noConfusion (hdec.symm.trans (h.active p hp).1)
  have hidle := h.idle hall
  rw [consumed, hdec] at hidle
  have hdec' : ∀ {P : Prop}, s.isdecoding = true → P := fun hd => Bool.noConfusion (hdec.symm.trans hd)
  cases size with
  | none =>
    refine .of_idle hinv hall h.kept hdec' (h.free hall) ?_
    show s.queued ++ s.filled = List.flatten (if s.isdecoding then s.accepted.dropLast else s.accepted)
    rw [hdec]
    exact hidle
  | some n =>
    cases buffer with
    | none =>
      refine .of_idle hinv hall h.kept hdec' (h.free hall) ?_
      show s.queued ++ s.filled = List.flatten (if s.isdecoding then s.accepted.dropLast else s.accepted)
      rw [hdec]
      exact hidle
    | some b =>
      have hcopy := bytes_memmove s.buf b (Int.le_refl 0) (Int.le_refl 0) (hsize n rfl).1
      rw [Int.zero_add, bytes_zero, List.nil_append, Int.toNat_zero, List.drop_zero] at hcopy
      refine .of_idle hinv hall h.kept (fun _ => ?_) (h.free hall) ?_
      · show s.accepted ++ [bytes b n] = (s.accepted ++ [bytes b n]).dropLast ++ [bytes (memmove s.buf 0 b 0 n) n]
        rw [hcopy, List.dropLast_concat]
      · show s.queued ++ s.filled = (s.accepted ++ [bytes b n]).dropLast.flatten
        rw [List.dropLast_concat]
        exact hidle

theorem Stream.wavdecode (h : Stream s) (hpc : s.pc p = .outside) (hinv : Inv (s.goto p .wait)) :
    Stream (s.goto p .wait) := by
  have hp : (s.goto p .wait).pc p = .wait := Function.update_self ..
  have hq : ∀ q, q ≠ p → (s.goto p .wait).pc q = s.pc q := fun q hq => Function.update_of_ne hq ..
  have hact : ∀ q, ((s.goto p .wait).pc q).Active ↔ (s.pc q).Active := by
    intro q
    by_cases hqp : q = p
    · rw [hqp, hp, hpc]
      exact Iff.rfl
    · rw [hq q hqp]
  have hall : (∀ q, ¬((s.goto p .wait).pc q).Active) → ∀ q, ¬(s.pc q).Active := fun hall q => mt (hact q).2 (hall q)
  refine ⟨⟨fun ha => h.idle (hall ha), fun q => ?_, h.kept⟩, fun _ => hinv,
    fun q r hqa hra => h.one q r ((hact q).1 hqa) ((hact r).1 hra), h.chunk, fun q hqa => ?_, fun ha => h.free (hall ha)⟩
  · by_cases hqp : q = p
    · rw [hqp, hp]
      trivial
    · rw [hq q hqp]
      exact h.split q
  · have hqp : q ≠ p := by
      rintro rfl
      rw [hp] at hqa
      exact hqa
    rw [hq q hqp] at hqa ⊢
    exact h.active q hqa

omit [DecidableEq Proc] in
/-- The interrupt takes the first node from the queue. -/
theorem Stream.soundInterrupt (h : Stream s) (hs : Inv s)
    (hinv : s.soundInterrupt.crashed = false → Inv s.soundInterrupt) : Stream s.soundInterrupt := by
  cases hq : s.soundQueue with
  | none =>
    have ht : s.soundInterrupt = { s with crashed := true } := by
      unfold Audio.soundInterrupt
      rw [hq]
    rw [ht]
    exact ⟨⟨h.idle, h.split, h.kept⟩, nofun, h.one, h.chunk, h.active, h.free⟩
  | some i =>
    have ht : s.soundInterrupt =
        { s.setNode i fun x => { x with processed := true } with soundQueue := (s.audiobuf i).next } := by
      unfold Audio.soundInterrupt
      rw [hq]
    rw [ht] at hinv ⊢
    obtain ⟨l, hl, hsuf⟩ := h.kept
    cases l with
    | nil => cases hq.symm.trans hl.1
    | cons j l =>
      cases hq.symm.trans hl.1
      obtain ⟨l', hl', hnd, -⟩ := hs.queue
      cases hl.unique hl'
      have hdata : ∀ j, ((s.setNode i fun x => { x with processed := true }).audiobuf j).data = (s.audiobuf j).data ∧
          ((s.setNode i fun x => { x with processed := true }).audiobuf j).next = (s.audiobuf j).next := by
        intro j
        rw [audiobuf_setNode]
        split
        · subst j
          exact ⟨rfl, rfl⟩
        · exact ⟨rfl, rfl⟩
      have ht : Queue { s.setNode i fun x => { x with processed := true } with soundQueue := (s.audiobuf i).next } l :=
        ⟨hl.2.1, hl.2.2.congr fun j _ => (hdata j).2⟩
      have hon : ∀ j, OnQueue { s.setNode i fun x => { x with processed := true } with soundQueue := (s.audiobuf i).next } j →
          s.OnQueue j := fun j hj => hl.onQueue.2 (List.mem_cons_of_mem i (ht.onQueue.1 hj))
      have hfilled : filled { s.setNode i fun x => { x with processed := true } with soundQueue := (s.audiobuf i).next } =
          s.filled := congrArg (bytes · s.datacount) (hdata s.bufcount).1
      refine ⟨⟨fun hall => ?_, fun p => ?_, l, ht, ?_⟩, hinv, h.one, h.chunk, fun p hp => ?_, fun hall => mt (hon _) (h.free hall)⟩
      · rw [hfilled]
        exact h.idle hall
      · have hsplit := h.split p
        show Split _ (s.pc p)
        cases hpc : s.pc p <;> rw [hpc] at hsplit
        case outside => trivial
        case wait => trivial
        case search => exact hsplit
        case add j temp pass =>
          show s.queued ++ bytes ((s.setNode i fun x => { x with processed := true }).audiobuf j).data bufsize ++ _ = _
          rw [(hdata j).1]
          exact hsplit
        all_goals
          simp only [Split, hfilled]
          exact hsplit
      · show (l.flatMap fun j => bytes ((s.setNode i fun x => { x with processed := true }).audiobuf j).data bufsize) <:+ s.queued
        simp only [(hdata _).1]
        exact (List.suffix_append _ _).trans hsuf
      · obtain ⟨hdec, hheld⟩ := h.active p hp
        refine ⟨hdec, ?_⟩
        show Held _ (s.pc p)
        cases hpc : s.pc p <;> rw [hpc] at hheld
        case outside => trivial
        case wait => trivial
        case start => exact mt (hon _) hheld
        case pause => exact ⟨mt (hon _) hheld.1, hheld.2⟩
        case search => exact hheld
        case finish => exact mt (hon _) hheld
        case add j temp pass =>
          obtain ⟨hfree, hproc, hrange⟩ := hheld
          refine ⟨mt (hon _) hfree, ?_, hrange⟩
          have hji : j ≠ i := by
            rintro rfl
            exact hfree (hl.onQueue.2 (List.mem_cons_self ..))
          show ((s.setNode i fun x => { x with processed := true }).audiobuf j).processed = false
          rw [audiobuf_setNode, if_neg hji]
          exact hproc

omit [DecidableEq Proc] in
/-- Serial steps are orderly, except for an interrupt without a queue. -/
theorem Stream.orderly {a : AudioAct Proc} (h : Stream s) (hc : s.Serial a) (hq : a = .soundInterrupt → s.soundQueue ≠ none) :
    s.Orderly a := by
  cases a with
  | setSampleRate p rate => exact fun hne => absurd hc hne
  | kwrite p size buffer => exact hc
  | wavdecode p => trivial
  | soundInterrupt => exact hq rfl
  | go p =>
    have hactive := h.active p
    dsimp only [Orderly]
    cases hpc : s.pc p <;> rw [hpc] at hactive
    case start => exact fun _ => (hactive trivial).2
    case pause temp =>
      obtain ⟨hfree, htemp, -⟩ := (hactive trivial).2
      exact ⟨hfree, by omega⟩
    case add i temp pass => exact ⟨(hactive trivial).2.1, (hactive trivial).2.2.1⟩
    case search temp pass => exact (hactive trivial).2.2
    all_goals trivial

/-- **One step.** -/
theorem step_stream {a : AudioAct Proc} (h : Stream s) (hc : s.Serial a) (ht : s.step a = some t) : Stream t := by
  have hcr : ¬(s.crashed = true ∨ s.hung = true) := by
    intro hgone
    unfold step at ht
    rw [if_pos hgone] at ht
    cases ht
  have hs := h.inv (Bool.eq_false_iff.2 fun hcrashed => hcr (Or.inl hcrashed))
  -- what the queue's invariant gives for the step
  have hqueue : s.Orderly a → Inv t ∧ (¬s.Adds a → a ≠ .soundInterrupt → s.Same t) := fun ho => step_inv hs ho ht
  have hord := h.orderly hc
  unfold step at ht
  rw [if_neg hcr] at ht
  cases a with
  | setSampleRate p rate =>
    simp only [Option.ite_none_right_eq_some, Option.some.injEq] at ht
    obtain ⟨-, rfl⟩ := ht
    cases (show rate = none from hc)
    exact h
  | kwrite p size buffer =>
    simp only [Option.ite_none_right_eq_some, Option.some.injEq] at ht
    obtain ⟨⟨-, -, hdec⟩, rfl⟩ := ht
    exact h.kwrite hdec hc fun _ => (hqueue (hord nofun)).1
  | wavdecode p =>
    simp only [Option.ite_none_right_eq_some, Option.some.injEq] at ht
    obtain ⟨hpc, rfl⟩ := ht
    exact h.wavdecode hpc (hqueue (hord nofun)).1
  | soundInterrupt =>
    cases ht
    refine h.soundInterrupt hs fun hcrashed => (hqueue (hord fun _ hnone => ?_)).1
    unfold Audio.soundInterrupt at hcrashed
    rw [hnone] at hcrashed
    cases hcrashed
  | go p =>
    obtain ⟨hinv, hsame⟩ := hqueue (hord nofun)
    have hnadd : (∀ i temp pass, s.pc p ≠ .add i temp pass) → s.Same t := fun hne =>
      hsame (fun ⟨i, temp, pass, hadd⟩ => hne i temp pass hadd) nofun
    change s.go p = some t at ht
    unfold go at ht
    cases hpc : s.pc p with
    | outside =>
      rw [hpc] at ht
      cases ht
    | wait =>
      simp only [hpc, Option.ite_none_left_eq_some, Option.some.injEq] at ht
      obtain ⟨-, ht⟩ := ht
      by_cases hdec : s.isdecoding = true
      · rw [if_pos hdec] at ht
        subst ht
        exact h.wait (fun _ => hinv) hdec (hc hpc hdec)
      · rw [if_neg hdec] at ht
        subst ht
        exact h
    | start =>
      have hsame' := hnadd (by simp [hpc])
      simp only [hpc] at ht
      cases ht
      exact h.start hpc (fun _ => hinv) hsame' hs.count.1 hs.size.1
    | pause temp =>
      have hsame' := hnadd (by simp [hpc])
      simp only [hpc] at ht
      cases ht
      exact h.fill hpc (fun _ => hinv) hsame' hs.count
    | add i temp pass =>
      simp only [hpc] at ht
      cases ht
      exact h.add hpc hs fun _ => hinv
    | search temp pass =>
      have hsame' := hnadd (by simp [hpc])
      simp only [hpc] at ht
      cases ht
      exact h.search hpc hs (fun _ => hinv) hsame'
    | finish =>
      simp only [hpc, Option.ite_none_left_eq_some, Option.some.injEq] at ht
      obtain ⟨-, rfl⟩ := ht
      exact h.finish hpc hinv

/-! ## Runs -/

omit [DecidableEq Proc] in
theorem stream_setSampleRate (rate : Int) : Stream ((init : Audio Proc).setSampleRate (some rate)) := by
  refine .of_idle (fun _ => ?_) (fun _ => id) ⟨[], ⟨rfl, trivial⟩, List.nil_suffix⟩ nofun (not_onQueue rfl) rfl
  refine ⟨⟨rfl, rfl, [], ⟨rfl, trivial⟩, List.nodup_nil, nofun⟩, ?_, ?_⟩
  · exact ⟨Int.le_refl 0, show (0 : Int) < bufsize by decide⟩
  · exact ⟨Int.le_refl 0, show (0 : Int) ≤ BUFLEN by decide⟩

/-- **Audio data is delivered exactly once and in order in serial runs.** Between two chunks the bytes of the nodes in
the order they were queued and the filled part of the current node are the consumed chunks; in the middle of a chunk
only the rest of it is missing; and the nodes on the queue still have their bytes. -/
theorem delivered_once {rate : Int} {tr : List (AudioAct Proc)}
    (h : Path step Serial ((init : Audio Proc).setSampleRate (some rate)) tr s) : Delivered s :=
  (h.invariant Stream (stream_setSampleRate rate) fun _ _ _ hi hc ht => step_stream hi hc ht).toDelivered

/-- One chunk of three bytes. -/
theorem delivered_once_chunk :
    ∃ tr, ∃ s : Audio Bool, Path step Serial ((init : Audio Bool).setSampleRate (some 44100)) tr s ∧ s.datacount = 3 ∧
      Delivered s := by
  have hsize : ∀ n : Int, some (3 : Int) = some n → 0 ≤ n ∧ n ≤ BUFLEN := by
    intro n hn
    cases hn
    decide
  have h₁ : Path step Serial ((init : Audio Bool).setSampleRate (some 44100)) ([] ++ [.kwrite true (some 3) (some fun _ => 1)]) _ :=
    .snoc .nil hsize rfl
  have h₂ := h₁.snoc (a := AudioAct.wavdecode false) trivial rfl
  have hall : ∀ q, ¬WavPc.Active (Function.update (fun _ : Bool => WavPc.outside) false WavPc.wait q) := by
    intro q
    cases q <;> exact id
  have h₃ := h₂.snoc (a := AudioAct.go false) (fun _ _ => hall) rfl
  have h₄ := h₃.snoc (a := AudioAct.go false) nofun rfl
  have h₅ := h₄.snoc (a := AudioAct.go false) nofun rfl
  exact ⟨_, _, h₅, rfl, delivered_once h₅⟩

/-- **The sound queue stays a queue in serial runs** in which the card interrupts only for a node: every step of such a run is
orderly. -/
theorem serial_proper {rate : Int} {tr : List (AudioAct Proc)}
    (h : Path step (fun s a => s.Serial a ∧ (a = .soundInterrupt → s.soundQueue ≠ none))
      ((init : Audio Proc).setSampleRate (some rate)) tr s) :
    Proper s ∧ ∀ a t, s.Serial a → s.step a = some t → ¬s.Adds a → a ≠ .soundInterrupt → s.Same t := by
  have hs : Stream s ∧ Inv s := h.invariant (fun s => Stream s ∧ Inv s)
    ⟨stream_setSampleRate rate, (stream_setSampleRate rate).inv rfl⟩
    fun _ _ _ hi hc ht => ⟨step_stream hi.1 hc.1 ht, (step_inv hi.2 (hi.1.orderly hc.1 hc.2) ht).1⟩
  obtain ⟨hstream, hinv⟩ := hs
  exact ⟨hinv.toProper, fun a t hc ht hadd hne => (step_inv hinv (hstream.orderly hc fun he => absurd he hne) ht).2 hadd hne⟩

/-- Two calls of `sys_wavdecode` find the same chunk of one byte. -/
theorem delivered_twice :
    ∃ tr, ∃ s : Audio Bool, run step ((init : Audio Bool).setSampleRate (some 44100)) tr = some s ∧ ¬Delivered s := by
  have h : (run step ((init : Audio Bool).setSampleRate (some 44100))
      [.kwrite true (some 1) (some fun _ => 1), .wavdecode true, .wavdecode false, .go true, .go false, .go true, .go false,
        .go true, .go false]).map (fun s => decide ((∀ p, s.pc p = .outside) ∧
          (s.queued ++ s.filled).length = 2 ∧ s.consumed.flatten.length = 1)) = some true := by
    decide +kernel
  obtain ⟨s, hs, hend⟩ := Option.map_eq_some_iff.1 h
  obtain ⟨hout, htwo, hone⟩ := of_decide_eq_true hend
  refine ⟨_, s, hs, fun hdel => ?_⟩
  have heq := hdel.idle fun p hp => by
    rw [hout p] at hp
    exact hp
  rw [heq, hone] at htwo
  cases htwo

end Audio

end NewXv6.Sound
