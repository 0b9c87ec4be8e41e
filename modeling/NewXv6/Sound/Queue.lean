import NewXv6.Sound.Model
import NewXv6.Lib.Path
import Mathlib.Data.Fintype.Card

/-!
# The queue of the sound card

While no call changes a node that is queued, `addSound` is called for nodes that are not, `setSampleRate` when the queue
is empty and the card interrupts when it is not, the queue is a chain of different nodes that have not been played.
-/

namespace NewXv6.Sound

open Lib

namespace Audio

variable {Proc : Type} [DecidableEq Proc]

/-- Node `i` is on the queue. -/
def OnQueue (s : Audio Proc) (i : NodeId) : Prop := ∃ l, s.Queue l ∧ i ∈ l

/-- The condition on a step. -/
def Orderly (s : Audio Proc) : AudioAct Proc → Prop
  | .setSampleRate _ rate => rate ≠ none → s.soundQueue = none
  | .kwrite _ size _ => ∀ n, size = some n → 0 ≤ n ∧ n ≤ BUFLEN
  | .wavdecode _ => True
  | .go p =>
    match s.pc p with
    | .start => s.datacount = 0 ∨ bufsize - s.datacount > s.size → ¬s.OnQueue s.bufcount
    | .pause temp => ¬s.OnQueue s.bufcount ∧ s.datacount + temp ≤ bufsize
    | .add i _ _ => ¬s.OnQueue i ∧ (s.audiobuf i).processed = false
    | .search temp _ => temp ≤ s.size
    | _ => True
  | .soundInterrupt => s.soundQueue ≠ none

/-- The step is `addSound`. -/
def Adds (s : Audio Proc) : AudioAct Proc → Prop
  | .go p => ∃ i temp pass, s.pc p = .add i temp pass
  | _ => False

/-- The queue is a chain that ends, of different nodes that have not been played, no null node was used, and no walk
along the queue goes on forever. -/
structure Proper (s : Audio Proc) : Prop where
  crashed : s.crashed = false
  hung : s.hung = false
  queue : ∃ l, s.Queue l ∧ l.Nodup ∧ ∀ i ∈ l, (s.audiobuf i).processed = false

/-- What holds between any two steps. The current node has room for at least one byte. -/
structure Inv (s : Audio Proc) : Prop extends Proper s where
  count : 0 ≤ s.datacount ∧ s.datacount < bufsize
  size : 0 ≤ s.size ∧ s.size ≤ BUFLEN

variable {s t : Audio Proc} {p : Proc} {i : NodeId} {l : List NodeId}

omit [DecidableEq Proc] in
theorem Queue.unique {l l' : List NodeId} (h : s.Queue l) (h' : s.Queue l') : l = l' :=
  h.2.eq_of_head h'.2 (h.1.symm.trans h'.1)

omit [DecidableEq Proc] in
theorem Queue.onQueue (h : s.Queue l) : s.OnQueue i ↔ i ∈ l :=
  ⟨fun ⟨_, h', hi⟩ => h.unique h' ▸ hi, fun hi => ⟨l, h, hi⟩⟩

omit [DecidableEq Proc] in
theorem audiobuf_setNode (s : Audio Proc) (i j : NodeId) (f : SoundNode → SoundNode) :
    (s.setNode i f).audiobuf j = if j = i then f (s.audiobuf i) else s.audiobuf j := Function.update_apply ..

omit [DecidableEq Proc] in
theorem inv_init : Inv (init : Audio Proc) where
  crashed := rfl
  hung := rfl
  queue := ⟨[], ⟨rfl, trivial⟩, List.nodup_nil, nofun⟩
  count := ⟨Int.le_refl 0, show (0 : Int) < bufsize by decide⟩
  size := ⟨Int.le_refl 0, show (0 : Int) ≤ BUFLEN by decide⟩

omit [DecidableEq Proc] in
/-- Only the nodes on the queue matter. -/
theorem Proper.congr (h : Proper s) (hc : t.crashed = s.crashed) (hh : t.hung = s.hung) (hq : t.soundQueue = s.soundQueue)
    (hn : ∀ i, s.OnQueue i → t.audiobuf i = s.audiobuf i) : Proper t := by
  obtain ⟨l, hl, hnd, hp⟩ := h.queue
  have hsame : ∀ i ∈ l, t.audiobuf i = s.audiobuf i := fun i hi => hn i ⟨l, hl, hi⟩
  refine ⟨hc.trans h.crashed, hh.trans h.hung, l, ⟨hq.trans hl.1, hl.2.congr fun i hi => ?_⟩, hnd, fun i hi => ?_⟩
  · rw [hsame i hi]
  · rw [hsame i hi]
    exact hp i hi

/-! ## The interrupt and `addSound` -/

omit [DecidableEq Proc] in
theorem proper_interrupt (h : Proper s) (hq : s.soundQueue ≠ none) : Proper s.soundInterrupt := by
  obtain ⟨l, hl, hnd, hp⟩ := h.queue
  cases l with
  | nil => exact absurd hl.1 hq
  | cons i l =>
    obtain ⟨hil, hnd⟩ := List.nodup_cons.1 hnd
    have hsq : s.soundQueue = some i := hl.1
    unfold soundInterrupt
    rw [hsq]
    refine ⟨h.crashed, h.hung, l, ⟨hl.2.1, hl.2.2.congr fun j hj => ?_⟩, hnd, fun j hj => ?_⟩
    all_goals
      have hji : j ≠ i := by
        rintro rfl
        exact hil hj
      have hsame : (s.setNode i fun x => { x with processed := true }).audiobuf j = s.audiobuf j := by
        rw [audiobuf_setNode, if_neg hji]
    · exact congrArg SoundNode.next hsame
    · exact (congrArg SoundNode.processed hsame).trans (hp j (List.mem_cons_of_mem i hj))

omit [DecidableEq Proc] in
/-- What `addSound` does not change. -/
theorem addSound_frame (s : Audio Proc) (i : NodeId) :
    (s.addSound i).datacount = s.datacount ∧ (s.addSound i).bufcount = s.bufcount ∧ (s.addSound i).size = s.size ∧
      (s.addSound i).buf = s.buf ∧ (s.addSound i).isdecoding = s.isdecoding ∧ (s.addSound i).accepted = s.accepted ∧
      (s.addSound i).pc = s.pc ∧ (s.addSound i).crashed = s.crashed := by
  unfold addSound
  dsimp only
  split
  · exact ⟨rfl, rfl, rfl, rfl, rfl, rfl, rfl, rfl⟩
  · split <;> exact ⟨rfl, rfl, rfl, rfl, rfl, rfl, rfl, rfl⟩

omit [DecidableEq Proc] in
/-- `addSound` of a node that is not queued appends it. -/
theorem addSound_queue (hl : s.Queue l) (hnd : l.Nodup) (hi : i ∉ l) :
    (s.addSound i).Queue (l ++ [i]) ∧ (s.addSound i).hung = s.hung ∧
      (s.addSound i).queued = s.queued ++ bytes (s.audiobuf i).data bufsize ∧
      (∀ j, ((s.addSound i).audiobuf j).data = (s.audiobuf j).data ∧
        ((s.addSound i).audiobuf j).processed = (s.audiobuf j).processed) := by
  have hlen : l.length ≤ 3 := by
    have := hnd.length_le_card
    rwa [Fintype.card_fin] at this
  have hbuf : ∀ j, Function.update s.audiobuf i { s.audiobuf i with next := none } j =
      if j = i then { s.audiobuf i with next := none } else s.audiobuf j := fun j => Function.update_apply ..
  have hlinked : Lib.Linked (fun k => (Function.update s.audiobuf i { s.audiobuf i with next := none } k).next) l :=
    hl.2.congr fun j hj => by
      have hji : j ≠ i := by
        rintro rfl
        exact hi hj
      rw [hbuf, if_neg hji]
  unfold addSound
  cases l with
  | nil =>
    have hsq : s.soundQueue = none := hl.1
    simp only [hsq]
    refine ⟨⟨rfl, ?_, trivial⟩, trivial, trivial, fun j => ?_⟩
    · exact congrArg SoundNode.next ((hbuf i).trans (if_pos rfl))
    · rw [hbuf]
      split
      · subst j
        exact ⟨rfl, rfl⟩
      · exact ⟨rfl, rfl⟩
  | cons a l =>
    have hsq : s.soundQueue = some a := hl.1
    obtain ⟨last, hlast⟩ : ∃ last, (a :: l).getLast? = some last := ⟨_, List.getLast?_cons⟩
    have hseek := hlinked.seek (fun k => (Function.update s.audiobuf i { s.audiobuf i with next := none } k).next.isNone) hlen
    rw [hlinked.find_last, hlast, List.head?_cons] at hseek
    simp only [hsq, hseek]
    have hne : last ≠ i := fun he => hi (he ▸ List.mem_of_getLast? hlast)
    have hfin : ∀ j, Function.update (Function.update s.audiobuf i { s.audiobuf i with next := none }) last
        { Function.update s.audiobuf i { s.audiobuf i with next := none } last with next := some i } j =
          if j = last then { s.audiobuf last with next := some i }
          else if j = i then { s.audiobuf i with next := none } else s.audiobuf j := by
      intro j
      rw [Function.update_apply, hbuf, hbuf, if_neg hne]
    refine ⟨⟨rfl, hl.2.snoc hnd ?_ (fun b hb => ?_) fun b hb hbl => ?_⟩, trivial, trivial, fun j => ?_⟩
    · exact congrArg SoundNode.next ((hfin i).trans ((if_neg hne.symm).trans (if_pos rfl)))
    · cases hlast.symm.trans hb
      exact congrArg SoundNode.next ((hfin last).trans (if_pos rfl))
    · have hb' : b ≠ last := by
        rintro rfl
        exact hbl hlast
      have hbi : b ≠ i := by
        rintro rfl
        exact hi hb
      exact congrArg SoundNode.next ((hfin b).trans ((if_neg hb').trans (if_neg hbi)))
    · simp only [hfin]
      split
      · subst j
        exact ⟨rfl, rfl⟩
      · split
        · subst j
          exact ⟨rfl, rfl⟩
        · exact ⟨rfl, rfl⟩

omit [DecidableEq Proc] in
theorem proper_addSound (h : Proper s) (hi : ¬s.OnQueue i) (hp : (s.audiobuf i).processed = false) :
    Proper (s.addSound i) := by
  obtain ⟨l, hl, hnd, hpl⟩ := h.queue
  rw [hl.onQueue] at hi
  obtain ⟨hq, hh, -, hsame⟩ := addSound_queue hl hnd hi
  refine ⟨(addSound_frame s i).2.2.2.2.2.2.2.trans h.crashed, hh.trans h.hung, _, hq, ?_, fun j hj => ?_⟩
  · exact List.nodup_append.2 ⟨hnd, List.nodup_singleton i, fun a ha b hb hab =>
      hi (List.mem_singleton.1 hb ▸ hab ▸ ha)⟩
  · rw [(hsame j).2]
    rcases List.mem_append.1 hj with hj | hj
    · exact hpl j hj
    · rw [List.mem_singleton.1 hj]
      exact hp

/-! ## The other steps -/

/-- What a step of a call does outside of the queue. -/
theorem step_inv {a : AudioAct Proc} (h : Inv s) (hc : s.Orderly a) (ht : s.step a = some t) :
    Inv t ∧ (¬s.Adds a → a ≠ .soundInterrupt → ∀ i, s.OnQueue i →
      (t.audiobuf i).data = (s.audiobuf i).data ∧ (t.audiobuf i).next = (s.audiobuf i).next) := by
  have hset : ∀ {i j : NodeId} {x : SoundNode}, ¬s.OnQueue i → s.OnQueue j →
      Function.update s.audiobuf i x j = s.audiobuf j := by
    intro i j x hi hj
    refine Function.update_of_ne ?_ _ _
    rintro rfl
    exact hi hj
  have hsame : ∀ {t : Audio Proc}, t.crashed = s.crashed → t.hung = s.hung → t.soundQueue = s.soundQueue →
      (∀ i, s.OnQueue i → t.audiobuf i = s.audiobuf i) → 0 ≤ t.datacount ∧ t.datacount < bufsize →
      0 ≤ t.size ∧ t.size ≤ BUFLEN →
      Inv t ∧ (¬s.Adds a → a ≠ .soundInterrupt → ∀ i, s.OnQueue i →
        (t.audiobuf i).data = (s.audiobuf i).data ∧ (t.audiobuf i).next = (s.audiobuf i).next) := by
    intro t hcr hh hq hn hcount hsize
    refine ⟨⟨h.toProper.congr hcr hh hq hn, hcount, hsize⟩, fun _ _ i hi => ?_⟩
    rw [hn i hi]
    exact ⟨rfl, rfl⟩
  have hcount := h.count
  have hsize := h.size
  unfold step at ht
  split at ht
  · cases ht
  cases a with
  | setSampleRate p rate =>
    simp only [Option.ite_none_right_eq_some, Option.some.injEq] at ht
    obtain ⟨-, rfl⟩ := ht
    cases rate with
    | none => exact hsame rfl rfl rfl (fun _ _ => rfl) hcount hsize
    | some r =>
      have hempty : ∀ i, ¬s.OnQueue i := by
        rintro i ⟨l, hl, hi⟩
        have hnil : l.head? = none := hl.1.symm.trans (hc (by simp))
        rw [List.head?_eq_none_iff.1 hnil] at hi
        cases hi
      exact hsame rfl rfl rfl (fun i hi => absurd hi (hempty i)) ⟨Int.le_refl 0, show (0 : Int) < bufsize by decide⟩ hsize
  | kwrite p size buffer =>
    simp only [Option.ite_none_right_eq_some, Option.some.injEq] at ht
    obtain ⟨-, rfl⟩ := ht
    unfold kwrite
    cases size with
    | none => exact hsame rfl rfl rfl (fun _ _ => rfl) hcount hsize
    | some n =>
      cases buffer with
      | none => exact hsame rfl rfl rfl (fun _ _ => rfl) hcount (hc n rfl)
      | some b => exact hsame rfl rfl rfl (fun _ _ => rfl) hcount (hc n rfl)
  | wavdecode p =>
    simp only [Option.ite_none_right_eq_some, Option.some.injEq] at ht
    obtain ⟨-, rfl⟩ := ht
    exact hsame rfl rfl rfl (fun _ _ => rfl) hcount hsize
  | soundInterrupt =>
    cases ht
    refine ⟨⟨proper_interrupt h.toProper hc, ?_, ?_⟩, fun _ hne => absurd rfl hne⟩
    · unfold soundInterrupt
      split <;> exact hcount
    · unfold soundInterrupt
      split <;> exact hsize
  | go p =>
    change s.go p = some t at ht
    unfold Orderly at hc
    unfold go at ht
    cases hpc : s.pc p with
    | outside =>
      rw [hpc] at ht
      cases ht
    | wait =>
      simp only [hpc, Option.ite_none_left_eq_some, Option.some.injEq] at ht
      obtain ⟨-, rfl⟩ := ht
      split <;> exact hsame rfl rfl rfl (fun _ _ => rfl) hcount hsize
    | finish =>
      simp only [hpc, Option.ite_none_left_eq_some, Option.some.injEq] at ht
      obtain ⟨-, rfl⟩ := ht
      exact hsame rfl rfl rfl (fun _ _ => rfl) hcount hsize
    | start =>
      simp only [hpc] at hc ht
      cases ht
      unfold start
      by_cases hz : s.datacount = 0 <;> by_cases hfit : (bufsize : Int) - s.datacount > s.size
      · simp only [if_pos hz, if_pos hfit]
        refine hsame rfl rfl rfl (fun j hj => ?_)
          (show 0 ≤ s.datacount + s.size ∧ s.datacount + s.size < bufsize from ⟨by omega, by omega⟩) hsize
        have hj' : j ≠ s.bufcount := by
          rintro rfl
          exact hc (Or.inl hz) hj
        exact (Function.update_of_ne hj' _ _).trans (Function.update_of_ne hj' _ _)
      · simp only [if_pos hz, if_neg hfit]
        exact hsame rfl rfl rfl (fun j hj => hset (hc (Or.inl hz)) hj) hcount hsize
      · simp only [if_neg hz, if_pos hfit]
        exact hsame rfl rfl rfl (fun j hj => hset (hc (Or.inr hfit)) hj)
          (show 0 ≤ s.datacount + s.size ∧ s.datacount + s.size < bufsize from ⟨by omega, by omega⟩) hsize
      · simp only [if_neg hz, if_neg hfit]
        exact hsame rfl rfl rfl (fun _ _ => rfl) hcount hsize
    | pause temp =>
      simp only [hpc] at hc ht
      cases ht
      exact hsame rfl rfl rfl (fun j hj => hset hc.1 hj) hcount hsize
    | add i temp pass =>
      simp only [hpc] at hc ht
      cases ht
      have hprop := proper_addSound h.toProper hc.1 hc.2
      obtain ⟨hdc, -, hsz, -⟩ := addSound_frame s i
      refine ⟨⟨⟨hprop.crashed, hprop.hung, hprop.queue⟩, ?_, ?_⟩, fun hadd => absurd ⟨i, temp, pass, hpc⟩ hadd⟩
      · show 0 ≤ (s.addSound i).datacount ∧ (s.addSound i).datacount < bufsize
        rw [hdc]
        exact hcount
      · show 0 ≤ (s.addSound i).size ∧ (s.addSound i).size ≤ BUFLEN
        rw [hsz]
        exact hsize
    | search temp pass =>
      simp only [hpc] at hc ht
      cases ht
      unfold search
      split
      · rename_i hpass
        dsimp only
        split
        · rename_i hproc
          -- a node that has been played is not on the queue
          have hfree : ¬s.OnQueue ⟨pass, hpass⟩ := by
            obtain ⟨l, hl, -, hp⟩ := h.queue
            rw [hl.onQueue]
            intro hi
            rw [hp _ hi] at hproc
            cases hproc
          split
          · exact hsame rfl rfl rfl (fun j hj => hset hfree hj) ⟨by dsimp only; omega, by assumption⟩ hsize
          · exact hsame rfl rfl rfl (fun j hj => hset hfree hj) hcount hsize
        · exact hsame rfl rfl rfl (fun _ _ => rfl) hcount hsize
      · exact hsame rfl rfl rfl (fun _ _ => rfl) hcount hsize

/-! ## Runs -/

/-- **The sound queue stays a queue in orderly runs.** In every state of every such run the queue is a chain that ends,
of different nodes with `PROCESSED` clear; no null node was used and no walk goes on forever; and a step other than
`addSound` and the interrupt leaves the data and the link of every node on the queue alone. -/
theorem queue_proper {tr : List (AudioAct Proc)} (h : Path step Orderly init tr s) :
    Proper s ∧ ∀ a t, s.Orderly a → s.step a = some t → ¬s.Adds a → a ≠ .soundInterrupt → ∀ i, s.OnQueue i →
      (t.audiobuf i).data = (s.audiobuf i).data ∧ (t.audiobuf i).next = (s.audiobuf i).next := by
  have hs := h.invariant Inv inv_init fun _ _ _ hi hc ht => (step_inv hi hc ht).1
  exact ⟨hs.toProper, fun a t hc ht => (step_inv hs hc ht).2⟩

omit [DecidableEq Proc] in
theorem not_onQueue (h : s.soundQueue = none) : ¬s.OnQueue i := by
  rintro ⟨l, hl, hi⟩
  rw [List.head?_eq_none_iff.1 (hl.1.symm.trans h)] at hi
  cases hi

/-- Two chunks fill a node, and it is queued. -/
theorem queue_proper_chunks :
    ∃ tr, ∃ s : Audio Unit, Path step Orderly init tr s ∧ s.soundQueue = some 0 ∧ Proper s := by
  have hsize : ∀ n : Int, some (4096 : Int) = some n → 0 ≤ n ∧ n ≤ BUFLEN := by
    intro n hn
    cases hn
    decide
  have h₁ : Path step Orderly (init : Audio Unit) ([] ++ [.setSampleRate () (some 44100)]) _ := .snoc .nil (fun _ => rfl) rfl
  have h₂ := h₁.snoc (a := AudioAct.kwrite () (some 4096) (some fun _ => 1)) hsize rfl
  have h₃ := h₂.snoc (a := AudioAct.wavdecode ()) trivial rfl
  have h₄ := h₃.snoc (a := AudioAct.go ()) trivial rfl
  have h₅ := h₄.snoc (a := AudioAct.go ()) (fun _ => not_onQueue rfl) rfl
  have h₆ := h₅.snoc (a := AudioAct.go ()) trivial rfl
  have h₇ := h₆.snoc (a := AudioAct.kwrite () (some 4096) (some fun _ => 2)) hsize rfl
  have h₈ := h₇.snoc (a := AudioAct.wavdecode ()) trivial rfl
  have h₉ := h₈.snoc (a := AudioAct.go ()) trivial rfl
  have h₁₀ := h₉.snoc (a := AudioAct.go ()) (fun _ => not_onQueue rfl) rfl
  have h₁₁ := h₁₀.snoc (a := AudioAct.go ()) ⟨not_onQueue rfl, show (4096 : Int) + 4096 ≤ bufsize by decide⟩ rfl
  have h₁₂ := h₁₁.snoc (a := AudioAct.go ()) ⟨not_onQueue rfl, rfl⟩ rfl
  exact ⟨_, _, h₁₂, rfl, (queue_proper h₁₂).1⟩

/-- What a process does for one chunk when it has to be split. -/
def splitChunk : List (AudioAct Unit) :=
  [.kwrite () (some 4096) (some fun _ => 1), .wavdecode (), .go (), .go (), .go (), .go (), .go (), .go (), .go ()]

/-- The rate is set again while node 0 is played. Node 0 is filled again and queued behind itself, and the next
`addSound` does not come to the end of the queue. -/
theorem queue_circle :
    ∃ tr, ∃ s : Audio Unit, run step init tr = some s ∧ s.hung = true ∧ ¬Proper s := by
  have h : (run step (init : Audio Unit)
      (let first := [.kwrite () (some 4096) (some fun _ => 1), .wavdecode (), .go (), .go (), .go ()]
       .setSampleRate () (some 44100) :: (first ++ splitChunk ++ [.setSampleRate () (some 22050)] ++ first ++ splitChunk ++
        first ++ splitChunk.take 6))).map (fun s => s.hung) = some true := by
    decide +kernel
  obtain ⟨s, hs, hhung⟩ := Option.map_eq_some_iff.1 h
  exact ⟨_, s, hs, hhung, fun hp => Bool.noConfusion (hhung.symm.trans hp.hung)⟩

end Audio

end NewXv6.Sound
