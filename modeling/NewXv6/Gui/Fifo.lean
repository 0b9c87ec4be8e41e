import NewXv6.Gui.Model
import NewXv6.Lib.Monitor
import Mathlib.Data.Finset.Card
import Mathlib.Data.Fintype.Card

/-!
# One queue of messages for each process

`fifo` says what the messages are for: it keeps the messages that were accepted and not yet delivered, in order. A
message that is delivered to a process is the first one kept for it; a process gets no message only when none is kept
for it, and a message is refused only when as many are kept as there are slots. The invariant `Queued` ties the slots
and the table to what is kept: the chain of each entry is the slots of its messages.
-/

namespace NewXv6.Gui

open Lib

/-! ## What the messages are for -/

/-- A message that was accepted for a process, in its slot. -/
structure Pending where
  pid : Int
  slot : MsgIndex
  type : Int
  msg : Concrete

/-- The slots of the messages of a process. -/
def slotsOf (g : List Pending) (pid : Int) : List MsgIndex := (g.filter fun x => x.pid = pid).map Pending.slot

/-- At most as many processes have messages as the table has entries. -/
def Few (g : List Pending) : Prop := (g.map Pending.pid).toFinset.card ≤ MAX_PROCESS_NUMBER

instance (g : List Pending) : Decidable (Few g) := inferInstanceAs (Decidable (_ ≤ _))

/-- The queues of all processes. -/
def fifo (fail : Fault → Prop) : Monitor (List Pending) Fault Event where
  next g
    | .accept pid i type msg => g ++ [⟨pid, i, type, msg⟩]
    | .deliver pid _ _ => g.eraseP fun x => x.pid = pid
    | _ => g
  assume g
    | .accept pid i type msg => pid ≠ -1 ∧ Few (g ++ [⟨pid, i, type, msg⟩])
    | .deliver pid _ _ => pid ≠ -1
    | .none pid => pid ≠ -1
    | _ => True
  ensure g
    | .deliver pid type msg => ∃ x, (g.find? fun x => x.pid = pid) = some x ∧ x.type = type ∧ x.msg = msg
    | .none pid => ∀ x ∈ g, x.pid ≠ pid
    | .refuse _ => g.length = MAX_QUEUE_LENGTH
    | _ => True
  fail := fail

instance (fail : Fault → Prop) (g : List Pending) (e : Event) : Decidable ((fifo fail).assume g e) := by
  cases e <;> unfold fifo <;> infer_instance

/-! ## The invariant -/

/-- The slots and the table hold the messages `g`, and perhaps one more slot is taken. -/
structure Queued (s : State) (g : List Pending) (taken : Option MsgIndex) : Prop where
  nodup : (g.map Pending.slot).Nodup
  used : ∀ k, (s.MsgQueue k).msg_type ≠ MSG_UNUSED ↔ k ∈ g.map Pending.slot ∨ taken = some k
  fresh : ∀ k, taken = some k → k ∉ g.map Pending.slot
  msg : ∀ x ∈ g, (s.MsgQueue x.slot).msg_type = x.type ∧ (s.MsgQueue x.slot).concrete_msg = x.msg
  entry : ∀ i, (s.MsgTable i).pid ≠ -1 → (slotsOf g (s.MsgTable i).pid).head? = some (s.MsgTable i).first_msg ∧
    Linked (fun k => (s.MsgQueue k).next_msg) (slotsOf g (s.MsgTable i).pid)
  inj : ∀ i j, (s.MsgTable i).pid ≠ -1 → (s.MsgTable i).pid = (s.MsgTable j).pid → i = j
  has : ∀ x ∈ g, x.pid ≠ -1 ∧ ∃ i, (s.MsgTable i).pid = x.pid

variable {s t : State} {g : List Pending} {taken : Option MsgIndex} {pid : Int} {fail : Fault → Prop}

/-- Only messages matter. -/
theorem Queued.congr (h : Queued s g taken) (hq : t.MsgQueue = s.MsgQueue) (ht : t.MsgTable = s.MsgTable) :
    Queued t g taken := by
  refine ⟨h.nodup, ?_, h.fresh, ?_, ?_, ?_, ?_⟩
  · rw [hq]
    exact h.used
  · rw [hq]
    exact h.msg
  · rw [hq, ht]
    exact h.entry
  · rw [ht]
    exact h.inj
  · rw [ht]
    exact h.has

/-- The state after `msgqueueinit` and `msgtableinit`. -/
structure NoMessages (s : State) : Prop where
  queue : ∀ k, (s.MsgQueue k).msg_type = MSG_UNUSED
  table : ∀ i, (s.MsgTable i).pid = -1

theorem NoMessages.queued (h : NoMessages s) : Queued s [] none where
  nodup := List.nodup_nil
  used k := by simp [h.queue k]
  fresh := nofun
  msg := nofun
  entry i hi := absurd (h.table i) hi
  inj i j hi := absurd (h.table i) hi
  has := nofun

theorem init_noMessages (width height : Int) (screen : Int → Color) : NoMessages (init width height screen) :=
  ⟨fun _ => rfl, fun _ => rfl⟩

/-! ### Slots and processes -/

theorem mem_slotsOf {k : MsgIndex} : k ∈ slotsOf g pid ↔ ∃ x ∈ g, x.pid = pid ∧ x.slot = k := by
  simp only [slotsOf, List.mem_map, List.mem_filter, decide_eq_true_eq]
  constructor
  · rintro ⟨x, ⟨hx, hp⟩, hk⟩
    exact ⟨x, hx, hp, hk⟩
  · rintro ⟨x, hx, hp, hk⟩
    exact ⟨x, ⟨hx, hp⟩, hk⟩

theorem slotsOf_sublist (g : List Pending) (pid : Int) : (slotsOf g pid).Sublist (g.map Pending.slot) :=
  List.filter_sublist.map _

theorem Queued.nodup_slotsOf (h : Queued s g taken) (pid : Int) : (slotsOf g pid).Nodup :=
  h.nodup.sublist (slotsOf_sublist g pid)

theorem Queued.length_slotsOf (h : Queued s g taken) (pid : Int) : (slotsOf g pid).length ≤ MAX_QUEUE_LENGTH := by
  have := (h.nodup_slotsOf pid).length_le_card
  rwa [Fintype.card_fin] at this

/-- A slot has one message. -/
theorem Queued.slot_inj (h : Queued s g taken) {x y : Pending} (hx : x ∈ g) (hy : y ∈ g) (he : x.slot = y.slot) :
    x = y := List.inj_on_of_nodup_map h.nodup hx hy he

theorem slotsOf_snoc (x : Pending) :
    slotsOf (g ++ [x]) pid = if x.pid = pid then slotsOf g pid ++ [x.slot] else slotsOf g pid := by
  unfold slotsOf
  rw [List.filter_append, List.map_append]
  by_cases hx : x.pid = pid
  · simp [hx]
  · simp [hx]

theorem filter_eraseP_self (g : List Pending) (pid : Int) :
    ((g.eraseP fun x => x.pid = pid).filter fun x => x.pid = pid) = (g.filter fun x => x.pid = pid).tail := by
  induction g with
  | nil => rfl
  | cons x g ih =>
    by_cases hx : x.pid = pid
    · simp [hx]
    · simpa [hx] using ih

theorem filter_eraseP_of_ne {pid' : Int} (g : List Pending) (hne : pid' ≠ pid) :
    ((g.eraseP fun x => x.pid = pid).filter fun x => x.pid = pid') = g.filter fun x => x.pid = pid' := by
  induction g with
  | nil => rfl
  | cons x g ih =>
    by_cases hx : x.pid = pid
    · have hx' : x.pid ≠ pid' := fun he => hne (he.symm.trans hx)
      simp [hx, hne.symm]
    · by_cases hx' : x.pid = pid'
      · simpa [hx, hx', hne] using ih
      · simpa [hx, hx'] using ih

theorem slotsOf_eraseP_self : slotsOf (g.eraseP fun x => x.pid = pid) pid = (slotsOf g pid).tail := by
  unfold slotsOf
  rw [filter_eraseP_self, List.map_tail]

theorem slotsOf_eraseP_of_ne {pid' : Int} (hne : pid' ≠ pid) :
    slotsOf (g.eraseP fun x => x.pid = pid) pid' = slotsOf g pid' := by
  unfold slotsOf
  rw [filter_eraseP_of_ne g hne]

/-- The first message of a process is in the first of its slots. -/
theorem find_of_head {k : MsgIndex} (h : (slotsOf g pid).head? = some k) :
    ∃ x, (g.find? fun x => x.pid = pid) = some x ∧ x.slot = k := by
  unfold slotsOf at h
  rw [List.head?_map, List.head?_filter] at h
  obtain ⟨x, hx, hk⟩ := Option.map_eq_some_iff.1 h
  exact ⟨x, hx, hk⟩

/-! ### Slots and entries that are found -/

theorem unusedMsg_some {i : MsgIndex} (h : unusedMsg s = some i) : (s.MsgQueue i).msg_type = MSG_UNUSED := by
  simpa using List.find?_some h

/-- Without an unused slot there are as many messages as slots. -/
theorem Queued.full (h : Queued s g none) (hnone : unusedMsg s = none) : g.length = MAX_QUEUE_LENGTH := by
  have hall : ∀ k, k ∈ g.map Pending.slot := fun k => by
    have hk := List.find?_eq_none.1 hnone k (List.mem_finRange k)
    simp only [decide_eq_true_eq] at hk
    exact ((h.used k).1 hk).resolve_right nofun
  have hle := h.nodup.length_le_card
  have hge : (List.finRange MAX_QUEUE_LENGTH).length ≤ (g.map Pending.slot).length :=
    ((List.nodup_finRange MAX_QUEUE_LENGTH).subperm fun k _ => hall k).length_le
  rw [Fintype.card_fin, List.length_map] at hle
  rw [List.length_finRange, List.length_map] at hge
  exact Nat.le_antisymm hle hge

theorem entryOf_some {i : Fin MAX_PROCESS_NUMBER} (h : entryOf s pid = some i) : (s.MsgTable i).pid = pid := by
  simpa using List.find?_some h

theorem entryOf_none (h : entryOf s pid = none) (i : Fin MAX_PROCESS_NUMBER) : (s.MsgTable i).pid ≠ pid := by
  simpa using List.find?_eq_none.1 h i (List.mem_finRange i)

theorem pids_snoc (g : List Pending) (x : Pending) :
    ((g ++ [x]).map Pending.pid).toFinset = insert x.pid (g.map Pending.pid).toFinset := by
  ext p
  simp

/-- While few processes have messages, one without messages finds a free entry. -/
theorem Queued.free_entry (h : Queued s g taken) {x : Pending} (hx : ∀ i, (s.MsgTable i).pid ≠ x.pid)
    (hfew : Few (g ++ [x])) : ∃ i, entryOf s (-1) = some i := by
  cases hf : entryOf s (-1) with
  | some i => exact ⟨i, rfl⟩
  | none =>
    have hused := entryOf_none hf
    have hinj : Function.Injective fun i => (s.MsgTable i).pid := fun i j he => h.inj i j (hused i) he
    have hsub : (Finset.univ.image fun i => (s.MsgTable i).pid) ⊆ (g.map Pending.pid).toFinset := by
      intro p hp
      obtain ⟨i, -, rfl⟩ := Finset.mem_image.1 hp
      obtain ⟨y, hy, -⟩ := find_of_head (h.entry i (hused i)).1
      have hpid := List.find?_some hy
      simp only [decide_eq_true_eq] at hpid
      rw [List.mem_toFinset, ← hpid]
      exact List.mem_map_of_mem (List.mem_of_find?_eq_some hy)
    have hx' : x.pid ∉ (g.map Pending.pid).toFinset := by
      rw [List.mem_toFinset]
      intro hp
      obtain ⟨y, hy, he⟩ := List.mem_map.1 hp
      obtain ⟨i, hi⟩ := (h.has y hy).2
      exact hx i (hi.trans he)
    have hcard := Finset.card_le_card hsub
    rw [Finset.card_image_of_injective _ hinj, Finset.card_univ, Fintype.card_fin] at hcard
    unfold Few at hfew
    rw [pids_snoc, Finset.card_insert_of_notMem hx'] at hfew
    omega

/-! ### What a message does to the invariant -/

/-- A slot is taken. -/
theorem Queued.take (h : Queued s g none) {i : MsgIndex} (hi : (s.MsgQueue i).msg_type = MSG_UNUSED) {m : Msg}
    (hm : m.msg_type ≠ MSG_UNUSED) : Queued { s with MsgQueue := Function.update s.MsgQueue i m } g (some i) := by
  have hfresh : i ∉ g.map Pending.slot := fun hin => (h.used i).2 (Or.inl hin) hi
  have hother : ∀ k, k ∈ g.map Pending.slot → Function.update s.MsgQueue i m k = s.MsgQueue k := fun k hk =>
    Function.update_of_ne (fun he : k = i => hfresh (he ▸ hk)) _ _
  refine ⟨h.nodup, fun k => ?_, fun k hk => ?_, fun x hx => ?_, fun j hj => ?_, h.inj, h.has⟩
  · by_cases hk : k = i
    · subst hk
      simp [hm]
    · have hik : some i ≠ some k := fun he => hk (Option.some.inj he).symm
      simp only [Function.update_of_ne hk, hik, or_false]
      rw [h.used k]
      simp
  · cases hk
    exact hfresh
  · have hslot := hother x.slot (List.mem_map_of_mem hx)
    simp only [hslot]
    exact h.msg x hx
  · refine ⟨(h.entry j hj).1, (h.entry j hj).2.congr fun k hk => ?_⟩
    simp only [hother k ((slotsOf_sublist g _).subset hk)]

/-- A message is appended to the messages of a process. -/
theorem Queued.push {i : MsgIndex} (h : Queued s g (some i)) (hpid : pid ≠ -1)
    (hsame : ∀ k, (t.MsgQueue k).msg_type = (s.MsgQueue k).msg_type ∧
      (t.MsgQueue k).concrete_msg = (s.MsgQueue k).concrete_msg)
    (hend : (t.MsgQueue i).next_msg = none)
    (hlast : ∀ a, (slotsOf g pid).getLast? = some a → (t.MsgQueue a).next_msg = some i)
    (hother : ∀ a ∈ g.map Pending.slot, (slotsOf g pid).getLast? ≠ some a →
      (t.MsgQueue a).next_msg = (s.MsgQueue a).next_msg)
    (e : Fin MAX_PROCESS_NUMBER) (htable : ∀ j, j ≠ e → t.MsgTable j = s.MsgTable j)
    (he : (t.MsgTable e).pid = pid) (hnew : (s.MsgTable e).pid ≠ pid → (s.MsgTable e).pid = -1 ∧
      (∀ j, (s.MsgTable j).pid ≠ pid) ∧ (t.MsgTable e).first_msg = i) (hold : (s.MsgTable e).pid = pid → t.MsgTable e = s.MsgTable e) :
    Queued t (g ++ [⟨pid, i, (s.MsgQueue i).msg_type, (s.MsgQueue i).concrete_msg⟩]) none := by
  have hfresh := h.fresh i rfl
  -- the entry of the process is `e`, and no other
  have hentry : ∀ j, (t.MsgTable j).pid = pid → j = e := by
    intro j hj
    by_contra hne
    rw [htable j hne] at hj
    by_cases hs : (s.MsgTable e).pid = pid
    · exact hne (h.inj j e (hj ▸ hpid) (hj.trans hs.symm))
    · exact (hnew hs).2.1 j hj
  refine ⟨?_, fun k => ?_, nofun, fun x hx => ?_, fun j hj => ?_, fun j j' hj hjj' => ?_, fun x hx => ?_⟩
  · rw [List.map_append]
    exact List.nodup_append.2 ⟨h.nodup, List.nodup_singleton _, fun a ha b hb hab =>
      hfresh (by simp only [List.map_singleton, List.mem_singleton] at hb; exact hb ▸ hab ▸ ha)⟩
  · rw [(hsame k).1, h.used k, List.map_append, List.mem_append]
    simp [eq_comm]
  · rw [(hsame x.slot).1, (hsame x.slot).2]
    rcases List.mem_append.1 hx with hx | hx
    · exact h.msg x hx
    · rw [List.mem_singleton.1 hx]
      exact ⟨rfl, rfl⟩
  · rw [slotsOf_snoc]
    by_cases hjp : pid = (t.MsgTable j).pid
    · have hje := hentry j hjp.symm
      subst hje
      rw [if_pos hjp, ← hjp]
      dsimp only
      by_cases hs : (s.MsgTable j).pid = pid
      · have hentry := h.entry j (hs ▸ hpid)
        rw [hs] at hentry
        refine ⟨?_, hentry.2.snoc (h.nodup_slotsOf pid) hend hlast fun a ha hne =>
          hother a ((slotsOf_sublist g pid).subset ha) hne⟩
        rw [hold hs, List.head?_append, hentry.1]
        rfl
      · obtain ⟨-, hno, hfirst⟩ := hnew hs
        have hnil : slotsOf g pid = [] := by
          refine List.eq_nil_iff_forall_not_mem.2 fun k hk => ?_
          obtain ⟨x, hx, hxp, -⟩ := mem_slotsOf.1 hk
          obtain ⟨j', hj'⟩ := (h.has x hx).2
          exact hno j' (hj'.trans hxp)
        rw [hnil, hfirst]
        exact ⟨rfl, hend, trivial⟩
    · have hje : j ≠ e := fun hc => hjp (hc ▸ he.symm)
      rw [if_neg hjp, htable j hje]
      rw [htable j hje] at hj hjp
      refine ⟨(h.entry j hj).1, (h.entry j hj).2.congr fun a ha => ?_⟩
      refine hother a ((slotsOf_sublist g _).subset ha) fun hl => ?_
      obtain ⟨x, hx, hxp, hxs⟩ := mem_slotsOf.1 ha
      obtain ⟨y, hy, hyp, hys⟩ := mem_slotsOf.1 (List.mem_of_getLast? hl)
      have hxy := h.slot_inj hx hy (hxs.trans hys.symm)
      exact hjp (hyp.symm.trans (hxy ▸ hxp))
  · by_cases hjp : (t.MsgTable j).pid = pid
    · exact (hentry j hjp).trans (hentry j' (hjj' ▸ hjp)).symm
    · have hje : j ≠ e := fun hc => hjp (hc ▸ he)
      have hje' : j' ≠ e := fun hc => hjp (hjj'.trans (hc ▸ he))
      rw [htable j hje] at hj
      rw [htable j hje, htable j' hje'] at hjj'
      exact h.inj j j' hj hjj'
  · rcases List.mem_append.1 hx with hx | hx
    · obtain ⟨hxp, j, hj⟩ := h.has x hx
      refine ⟨hxp, ?_⟩
      by_cases hje : j = e
      · subst hje
        by_cases hs : (s.MsgTable j).pid = pid
        · exact ⟨j, by rw [hold hs]; exact hj⟩
        · exact absurd (hj.symm.trans (hnew hs).1) hxp
      · exact ⟨j, by rw [htable j hje]; exact hj⟩
    · rw [List.mem_singleton.1 hx]
      exact ⟨hpid, e, he⟩

/-- The message that `eraseP` takes out. -/
theorem find_eraseP {α : Type} {p : α → Bool} {x : α} {g : List α} (h : g.find? p = some x) :
    ∃ l₁ l₂, g = l₁ ++ x :: l₂ ∧ g.eraseP p = l₁ ++ l₂ := by
  obtain ⟨hx, l₁, l₂, rfl, hl⟩ := List.find?_eq_some_iff_append.1 h
  refine ⟨l₁, l₂, rfl, ?_⟩
  rw [List.eraseP_append_right _ fun a ha => by simpa using hl a ha, List.eraseP_cons_of_pos hx]

/-- The first message of a process is taken out. -/
theorem Queued.pop (h : Queued s g none) (hpid : pid ≠ -1) {e : Fin MAX_PROCESS_NUMBER} (he : (s.MsgTable e).pid = pid)
    {x : Pending} (hx : (g.find? fun x => x.pid = pid) = some x) (hxs : x.slot = (s.MsgTable e).first_msg)
    (hfree : (t.MsgQueue x.slot).msg_type = MSG_UNUSED)
    (hsame : ∀ k, k ≠ x.slot → t.MsgQueue k = s.MsgQueue k) (htable : ∀ j, j ≠ e → t.MsgTable j = s.MsgTable j)
    (hlast : (s.MsgQueue x.slot).next_msg = none → (t.MsgTable e).pid = -1)
    (hnext : ∀ k, (s.MsgQueue x.slot).next_msg = some k → (t.MsgTable e).pid = pid ∧ (t.MsgTable e).first_msg = k) :
    Queued t (g.eraseP fun x => x.pid = pid) none := by
  obtain ⟨hhead, hlinked⟩ := h.entry e (he.symm ▸ hpid)
  rw [he] at hhead hlinked
  rw [← hxs] at hhead
  obtain ⟨tl, htl⟩ : ∃ tl, slotsOf g pid = x.slot :: tl := by
    cases hc : slotsOf g pid with
    | nil =>
      rw [hc] at hhead
      cases hhead
    | cons k tl =>
      rw [hc] at hhead
      cases hhead
      exact ⟨tl, rfl⟩
  rw [htl] at hlinked
  have hchain : slotsOf (g.eraseP fun x => x.pid = pid) pid = tl := by
    rw [slotsOf_eraseP_self, htl]
    rfl
  obtain ⟨l₁, l₂, hg, herase⟩ := find_eraseP hx
  have hnodup := h.nodup
  rw [hg, List.map_append, List.map_cons] at hnodup
  have hslot : x.slot ∉ (g.eraseP fun x => x.pid = pid).map Pending.slot := by
    rw [herase, List.map_append]
    exact (List.nodup_middle.1 hnodup).notMem
  have hmem : ∀ k, k ∈ g.map Pending.slot ↔
      k = x.slot ∨ k ∈ (g.eraseP fun x => x.pid = pid).map Pending.slot := fun k => by
    rw [herase, hg]
    simp only [List.map_append, List.map_cons, List.mem_append, List.mem_cons]
    exact or_left_comm
  have hsub : ∀ y, y ∈ (g.eraseP fun x => x.pid = pid) → y ∈ g := fun y hy => List.eraseP_subset hy
  have hne : ∀ y, y ∈ (g.eraseP fun x => x.pid = pid) → y.slot ≠ x.slot := fun y hy hc =>
    hslot (hc ▸ List.mem_map_of_mem hy)
  have hkeep : ∀ {pid' : Int} {k : MsgIndex}, k ∈ slotsOf (g.eraseP fun x => x.pid = pid) pid' → k ≠ x.slot := by
    rintro pid' k hk rfl
    exact hslot ((slotsOf_sublist _ _).subset hk)
  have hlinked' : ∀ {pid' : Int}, Linked (fun k => (s.MsgQueue k).next_msg)
      (slotsOf (g.eraseP fun x => x.pid = pid) pid') →
      Linked (fun k => (t.MsgQueue k).next_msg) (slotsOf (g.eraseP fun x => x.pid = pid) pid') := fun hl =>
    hl.congr fun k hk => by rw [hsame k (hkeep hk)]
  -- the entry of the process is `e` as long as it has messages
  have hcases : ((t.MsgTable e).pid = -1 ∧ tl = []) ∨
      ((t.MsgTable e).pid = pid ∧ tl.head? = some (t.MsgTable e).first_msg) := by
    cases hk : (s.MsgQueue x.slot).next_msg with
    | none => exact Or.inl ⟨hlast hk, List.head?_eq_none_iff.1 (hlinked.1.symm.trans hk)⟩
    | some k =>
      obtain ⟨hp, hf⟩ := hnext k hk
      exact Or.inr ⟨hp, by rw [hf]; exact hlinked.1.symm.trans hk⟩
  have hpids : ∀ j, (t.MsgTable j).pid ≠ -1 → (t.MsgTable j).pid = (s.MsgTable j).pid := by
    intro j hj
    by_cases hje : j = e
    · subst hje
      rcases hcases with ⟨hc, -⟩ | ⟨hc, -⟩
      · exact absurd hc hj
      · exact hc.trans he.symm
    · rw [htable j hje]
  refine ⟨?_, fun k => ?_, nofun, fun y hy => ?_, fun j hj => ?_, fun j j' hj hjj' => ?_, fun y hy => ?_⟩
  · exact h.nodup.sublist (List.eraseP_sublist.map _)
  · by_cases hk : k = x.slot
    · subst hk
      simp [hfree, hslot]
    · rw [hsame k hk, h.used k, hmem k]
      simp [hk]
  · rw [hsame y.slot (hne y hy)]
    exact h.msg y (hsub y hy)
  · by_cases hje : j = e
    · subst hje
      rcases hcases with ⟨hc, -⟩ | ⟨hc, hhead'⟩
      · exact absurd hc hj
      · rw [hc]
        refine ⟨by rw [hchain]; exact hhead', hlinked' ?_⟩
        rw [hchain]
        exact hlinked.2
    · have hjp : (s.MsgTable j).pid ≠ pid := fun hc => hje (h.inj j e (hc ▸ hpid) (hc.trans he.symm))
      rw [htable j hje] at hj ⊢
      have hentry := h.entry j hj
      rw [← slotsOf_eraseP_of_ne hjp] at hentry
      exact ⟨hentry.1, hlinked' hentry.2⟩
  · have hj' : (t.MsgTable j').pid ≠ -1 := hjj' ▸ hj
    exact h.inj j j' ((hpids j hj) ▸ hj) ((hpids j hj).symm.trans (hjj'.trans (hpids j' hj')))
  · obtain ⟨hyp, j, hj⟩ := h.has y (hsub y hy)
    refine ⟨hyp, j, ?_⟩
    by_cases hje : j = e
    · subst hje
      rcases hcases with ⟨-, hnil⟩ | ⟨hc, -⟩
      · have hin : y.slot ∈ slotsOf (g.eraseP fun x => x.pid = pid) pid :=
          mem_slotsOf.2 ⟨y, hy, hj.symm.trans he, rfl⟩
        rw [hchain, hnil] at hin
        cases hin
      · exact hc.trans (he.symm.trans hj)
    · rw [htable j hje]
      exact hj

/-! ## The functions -/

theorem mwp_requireMsg (h : Queued s g none) {type x y : Int} {key : UInt8} (htype : type ≠ MSG_UNUSED)
    {Q : Option MsgIndex → State → List Pending → Prop} (hsome : ∀ i t, Queued t g (some i) → Q (some i) t g)
    (hnone : g.length = MAX_QUEUE_LENGTH → Q none s g) : Mwp (fifo fail) (requireMsg type x y key) Q s g := by
  simp only [requireMsg, mwp_bind, mwp_get]
  cases hi : unusedMsg s with
  | none => exact (mwp_pure _ _ _ _).2 (hnone (h.full hi))
  | some i =>
    simp only [mwp_bind, setMsg, mwp_modify, mwp_pure]
    exact hsome i _ (h.take (unusedMsg_some hi) htype)

theorem mwp_requirePartialUpdateMsg (h : Queued s g none) {x1 y1 x2 y2 : Int}
    {Q : Option MsgIndex → State → List Pending → Prop} (hsome : ∀ i t, Queued t g (some i) → Q (some i) t g)
    (hnone : g.length = MAX_QUEUE_LENGTH → Q none s g) :
    Mwp (fifo fail) (requirePartialUpdateMsg x1 y1 x2 y2) Q s g := by
  simp only [requirePartialUpdateMsg, mwp_bind, mwp_get]
  cases hi : unusedMsg s with
  | none => exact (mwp_pure _ _ _ _).2 (hnone (h.full hi))
  | some i =>
    simp only [mwp_bind, setMsg, mwp_modify, mwp_pure]
    exact hsome i _ (h.take (unusedMsg_some hi) (show MSG_PARTIAL_UPDATE ≠ MSG_UNUSED by decide))

theorem mwp_dispatch {i : MsgIndex} (h : Queued s g (some i)) (hpid : pid ≠ -1)
    (hfew : Few (g ++ [⟨pid, i, (s.MsgQueue i).msg_type, (s.MsgQueue i).concrete_msg⟩])) {g' : List Pending}
    {Q : Unit → State → List Pending → Prop}
    (hQ : ∀ t, Queued t (g ++ [⟨pid, i, (s.MsgQueue i).msg_type, (s.MsgQueue i).concrete_msg⟩]) none → Q () t g') :
    Mwp (fifo fail) (dispatch pid i) Q s g' := by
  have hfresh := h.fresh i rfl
  simp only [dispatch, mwp_bind, mwp_get]
  cases he : entryOf s pid with
  | some e =>
    have hep := entryOf_some he
    obtain ⟨hhead, hlinked⟩ := h.entry e (hep.symm ▸ hpid)
    rw [hep] at hhead hlinked
    have hseek := hlinked.seek (fun k => (s.MsgQueue k).next_msg.isNone) (h.length_slotsOf pid)
    rw [hlinked.find_last, hhead] at hseek
    obtain ⟨last, hlast⟩ : ∃ last, (slotsOf g pid).getLast? = some last := by
      cases hc : slotsOf g pid with
      | nil =>
        rw [hc] at hhead
        cases hhead
      | cons k tl => exact ⟨_, List.getLast?_cons⟩
    rw [hlast] at hseek
    simp only [hseek, mwp_bind, setMsg, mwp_modify]
    have hil : last ≠ i := fun hc => hfresh ((slotsOf_sublist g pid).subset (hc ▸ List.mem_of_getLast? hlast))
    refine hQ _ (h.push hpid (fun k => ?_) ?_ (fun a ha => ?_) (fun a ha hne => ?_) e (fun _ _ => rfl) hep
      (fun hne => absurd hep hne) fun _ => rfl)
    · by_cases hk : k = i
      · subst hk
        simp [Function.update_of_ne hil.symm]
      · by_cases hk' : k = last
        · subst hk'
          simp [Function.update_of_ne hk]
        · simp [Function.update_of_ne hk, Function.update_of_ne hk']
    · simp
    · cases hlast.symm.trans ha
      simp [Function.update_of_ne hil]
    · have hai : a ≠ i := fun hc => hfresh (hc ▸ ha)
      have hal : a ≠ last := fun hc => hne (hc ▸ hlast)
      simp [Function.update_of_ne hai, Function.update_of_ne hal]
  | none =>
    have hno := entryOf_none he
    obtain ⟨e, hfree⟩ := h.free_entry hno hfew
    have hep := entryOf_some hfree
    simp only [hfree, mwp_bind, setEntry, setMsg, mwp_modify]
    have hnil : slotsOf g pid = [] := by
      refine List.eq_nil_iff_forall_not_mem.2 fun k hk => ?_
      obtain ⟨x, hx, hxp, -⟩ := mem_slotsOf.1 hk
      obtain ⟨j, hj⟩ := (h.has x hx).2
      exact hno j (hj.trans hxp)
    refine hQ _ (h.push hpid (fun k => ?_) ?_ (fun a ha => ?_) (fun a ha _ => ?_) e (fun j hj => ?_) ?_
      (fun _ => ⟨hep, hno, ?_⟩) fun hc => absurd hc (hno e))
    · by_cases hk : k = i
      · subst hk
        simp
      · simp [Function.update_of_ne hk]
    · simp
    · rw [hnil] at ha
      cases ha
    · have hai : a ≠ i := fun hc => hfresh (hc ▸ ha)
      simp [Function.update_of_ne hai]
    · simp [Function.update_of_ne hj]
    · simp
    · simp

/-- **Sending** a message that has a slot. -/
theorem mwp_send {i : MsgIndex} (h : Queued s g (some i)) {Q : Bool → State → List Pending → Prop}
    (hQ : ∀ t g', Queued t g' none → Q true t g') : Mwp (fifo fail) (send pid (some i)) Q s g := by
  simp only [send, mwp_bind, mwp_get, mwp_emit, mwp_pure]
  intro ha
  exact ⟨trivial, mwp_dispatch h ha.1 ha.2 fun t ht => hQ t _ ht⟩

/-- **Refusing** a message. -/
theorem mwp_refuse (hfull : g.length = MAX_QUEUE_LENGTH) {Q : Bool → State → List Pending → Prop} (hQ : Q false s g) :
    Mwp (fifo fail) (send pid none) Q s g := by
  simp only [send, mwp_bind, mwp_emit, mwp_pure]
  exact fun _ => ⟨hfull, hQ⟩

/-- **`getMsg`** takes the first message of the process. -/
theorem mwp_getMsg (h : Queued s g none) {Q : Unit → State → List Pending → Prop}
    (hQ : ∀ t g', Queued t g' none → Q () t g') : Mwp (fifo fail) (getMsg pid) Q s g := by
  simp only [getMsg, mwp_bind, mwp_get]
  cases he : entryOf s pid with
  | none =>
    simp only [mwp_emit]
    intro _
    refine ⟨fun x hx hxp => ?_, hQ s g h⟩
    obtain ⟨j, hj⟩ := (h.has x hx).2
    exact entryOf_none he j (hj.trans hxp)
  | some e =>
    have hep := entryOf_some he
    simp only [mwp_bind, mwp_emit]
    intro hpid
    have hhead := (h.entry e (hep.symm ▸ hpid)).1
    rw [hep] at hhead
    obtain ⟨x, hx, hxs⟩ := find_of_head hhead
    have hmsg := h.msg x (List.mem_of_find?_eq_some hx)
    rw [hxs] at hmsg
    refine ⟨⟨x, hx, hmsg.1.symm, hmsg.2.symm⟩, ?_⟩
    cases hnext : (s.MsgQueue (s.MsgTable e).first_msg).next_msg with
    | none =>
      simp only [mwp_bind, setEntry, setMsg, mwp_modify]
      refine hQ _ _ (h.pop hpid hep hx hxs ?_ (fun k hk => ?_) (fun j hj => ?_) (fun _ => ?_) fun k hk => ?_)
      · simp [hxs]
      · rw [hxs] at hk
        simp [Function.update_of_ne hk]
      · simp [Function.update_of_ne hj]
      · simp
      · rw [hxs, hnext] at hk
        cases hk
    | some next =>
      simp only [mwp_bind, setEntry, setMsg, mwp_modify]
      refine hQ _ _ (h.pop hpid hep hx hxs ?_ (fun k hk => ?_) (fun j hj => ?_) (fun hc => ?_) fun k hk => ?_)
      · simp [hxs]
      · rw [hxs] at hk
        simp [Function.update_of_ne hk]
      · simp [Function.update_of_ne hj]
      · rw [hxs, hnext] at hc
        cases hc
      · rw [hxs, hnext] at hk
        cases hk
        simp [hep]

/-- A function that keeps the queues. -/
def Keeps (fail : Fault → Prop) {α : Type} (m : Act α) : Prop :=
  ∀ s g, Queued s g none → Mwp (fifo fail) m (fun _ t g' => Queued t g' none) s g

theorem keeps_pure {α : Type} (a : α) : Keeps fail (pure a) := fun _ _ h => (mwp_pure _ _ _ _).2 h

theorem keeps_get : Keeps fail Prog.get := fun _ _ h => (mwp_get _ _ _).2 h

theorem keeps_throw {α : Type} {e : Fault} (he : fail e) : Keeps fail (Prog.throw e : Act α) := fun _ _ _ =>
  (mwp_throw _ _ _ _).2 he

theorem Keeps.bind {α β : Type} {m : Act α} {f : α → Act β} (hm : Keeps fail m) (hf : ∀ a, Keeps fail (f a)) :
    Keeps fail (m >>= f) := fun s g h => by
  rw [mwp_bind]
  exact (hm s g h).mono fun a t g' ht => hf a t g' ht

theorem Keeps.ite {α : Type} {c : Prop} [Decidable c] {m n : Act α} (hm : Keeps fail m) (hn : Keeps fail n) :
    Keeps fail (if c then m else n) := by
  split
  · exact hm
  · exact hn

/-- What does not touch the messages. -/
theorem keeps_modify {f : State → State} (hq : ∀ s, (f s).MsgQueue = s.MsgQueue) (ht : ∀ s, (f s).MsgTable = s.MsgTable) :
    Keeps fail (Prog.modify f) := fun s _ h => (mwp_modify _ _ _ _).2 (h.congr (hq s) (ht s))

theorem keeps_createUpdateMsg (pid : Int) : Keeps fail (createUpdateMsg pid) := fun s g h => by
  simp only [createUpdateMsg, mwp_bind, mwp_discard]
  exact mwp_requireMsg h (by decide) (fun i t ht => mwp_send ht fun u g' hu => hu) fun hfull => mwp_refuse hfull h

theorem keeps_createPartialUpdateMsg (pid x1 y1 x2 y2 : Int) :
    Keeps fail (createPartialUpdateMsg pid x1 y1 x2 y2) := fun s g h => by
  simp only [createPartialUpdateMsg, mwp_bind, mwp_discard]
  exact mwp_requirePartialUpdateMsg h (fun i t ht => mwp_send ht fun u g' hu => hu) fun hfull => mwp_refuse hfull h

theorem keeps_getMsg (pid : Int) : Keeps fail (getMsg pid) := fun _ _ h => mwp_getMsg h fun _ _ ht => ht

section

variable {zero : Option Window}

theorem keeps_deref (hpage : fail .page) (site : Site) (p : Option WindowLink) : Keeps fail (deref zero site p) := by
  cases p with
  | some p => exact keeps_get.bind fun s => keeps_pure _
  | none =>
    refine Keeps.bind (fun s g h => (mwp_emit _ _ _ _).2 fun _ => ⟨trivial, h⟩) fun _ => ?_
    cases zero with
    | some w => exact keeps_pure w
    | none => exact keeps_throw hpage

theorem keeps_getWindowByPoint (hhang : fail .hang) (x y : Int) : Keeps fail (getWindowByPoint x y) := by
  refine keeps_get.bind fun s => ?_
  cases seek (fun p => (s.window_array p).prior_window) (fun p => inClientRect (s.window_array p).window_position x y)
    MAXWINDOW s.list_tail with
  | some p => exact keeps_pure p
  | none => exact keeps_throw hhang

theorem keeps_drawScreen (hpage : fail .page) : Keeps fail (drawScreen zero) :=
  keeps_get.bind fun s => (keeps_deref hpage _ s.list_head).bind fun w => keeps_createUpdateMsg w.pid

theorem unlink_messages (s : State) (p : WindowLink) :
    (s.unlink p).MsgQueue = s.MsgQueue ∧ (s.unlink p).MsgTable = s.MsgTable := by
  have hnext : (s.skipNext p).MsgQueue = s.MsgQueue ∧ (s.skipNext p).MsgTable = s.MsgTable := by
    unfold State.skipNext
    split
    · exact ⟨rfl, rfl⟩
    · exact ⟨rfl, rfl⟩
  unfold State.unlink State.skipPrior
  split
  · exact hnext
  · exact hnext

theorem pushTail_messages (s : State) (p : WindowLink) :
    (s.pushTail p).MsgQueue = s.MsgQueue ∧ (s.pushTail p).MsgTable = s.MsgTable := by
  have hstart : (s.startList p).MsgQueue = s.MsgQueue ∧ (s.startList p).MsgTable = s.MsgTable := by
    unfold State.startList
    split
    · exact ⟨rfl, rfl⟩
    · exact ⟨rfl, rfl⟩
  have htail : ∀ s : State, (s.linkTail p).MsgQueue = s.MsgQueue ∧ (s.linkTail p).MsgTable = s.MsgTable := by
    intro s
    unfold State.linkTail
    split
    · exact ⟨rfl, rfl⟩
    · exact ⟨rfl, rfl⟩
  exact ⟨(htail _).1.trans hstart.1, (htail _).2.trans hstart.2⟩

theorem keeps_setActivated (hwild : fail .wild) (p : Option WindowLink) : Keeps fail (setActivated p) := by
  refine keeps_get.bind fun s => Keeps.ite (keeps_modify (fun _ => rfl) fun _ => rfl) ?_
  cases p with
  | none => exact keeps_throw hwild
  | some p =>
    refine (keeps_modify (fun s => (unlink_messages s p).1) fun s => (unlink_messages s p).2).bind fun _ => ?_
    refine (keeps_modify (fun s => (pushTail_messages s p).1) fun s => (pushTail_messages s p).2).bind fun _ => ?_
    refine Keeps.bind (keeps_modify (fun _ => rfl) fun _ => rfl) fun _ => ?_
    exact keeps_get.bind fun s => keeps_createUpdateMsg _

theorem keeps_drawMouse (x y : Int) : Keeps fail (drawMouse x y) := by
  refine Keeps.ite (keeps_pure ()) ?_
  refine (keeps_modify (fun s => ?_) fun s => ?_).bind fun _ => ?_
  · split
    · rfl
    · rfl
  · split
    · rfl
    · rfl
  · exact Keeps.bind (keeps_modify (fun _ => rfl) fun _ => rfl) fun _ => keeps_modify (fun _ => rfl) fun _ => rfl

theorem keeps_mouseMoved (x y : Int) : Keeps fail (mouseMoved x y) :=
  Keeps.bind (keeps_modify (fun _ => rfl) fun _ => rfl) fun _ => keeps_drawMouse x y

theorem keeps_dragWindow (hpage : fail .page) (p : WindowLink) (x y : Int) : Keeps fail (dragWindow zero p x y) := by
  refine keeps_get.bind fun s => Keeps.ite (keeps_mouseMoved x y) (Keeps.ite ?_ (keeps_mouseMoved x y))
  refine Keeps.bind (keeps_modify (fun _ => rfl) fun _ => rfl) fun _ => (keeps_drawScreen hpage).bind fun _ => ?_
  exact Keeps.bind (keeps_modify (fun _ => rfl) fun _ => rfl) fun _ => keeps_modify (fun _ => rfl) fun _ => rfl

/-- **`createMsg`** keeps the queues. -/
theorem keeps_createMsg (hpage : fail .page) (hwild : fail .wild) (hhang : fail .hang) (type x y : Int) (key : UInt8) :
    Keeps fail (createMsg zero type x y key) := by
  unfold createMsg
  split
  · next hkey =>
    subst hkey
    refine keeps_get.bind fun s => (keeps_deref hpage _ _).bind fun w => fun s g h => ?_
    simp only [mwp_bind, mwp_discard]
    exact mwp_requireMsg h (by decide) (fun i t ht => mwp_send ht fun u g' hu => hu) fun hfull => mwp_refuse hfull h
  · refine Keeps.bind (keeps_modify (fun _ => rfl) fun _ => rfl) fun _ => (keeps_getWindowByPoint hhang x y).bind fun o => ?_
    refine (keeps_deref hpage _ o).bind fun w => ?_
    split
    · next hpress =>
      have htype : type ≠ MSG_UNUSED := by
        rintro rfl
        exact absurd hpress (by decide)
      refine (keeps_setActivated hwild o).bind fun _ => fun s g h => ?_
      simp only [mwp_bind]
      refine mwp_requireMsg h htype (fun i t ht => mwp_send ht fun u g' hu => ?_) fun hfull => mwp_refuse hfull ?_
      · exact keeps_mouseMoved x y u g' hu
      · exact keeps_pure () s g h
    · refine Keeps.ite ((keeps_setActivated hwild o).bind fun _ => ?_) (keeps_mouseMoved x y)
      cases o with
      | some p => exact keeps_dragWindow hpage p x y
      | none => exact keeps_throw hwild

end

/-! ## Runs -/

/-- A call of the message system. -/
inductive MsgCall
  | createMsg (msg_type pos_x pos_y : Int) (key : UInt8)
  | createUpdateMsg (pid : Int)
  | createPartialUpdateMsg (pid x1 y1 x2 y2 : Int)
  | getMsg (pid : Int)

/-- A run of the window system may fail. -/
def mayFail : Fault → Prop := fun _ => True

/-- No failure is allowed. -/
def mustEnd : Fault → Prop := fun _ => False

/-- The messages that were accepted for a process. -/
def accepted (pid : Int) (w : List Event) : List (Int × Concrete) :=
  w.filterMap fun
    | .accept pid' _ type msg => if pid' = pid then some (type, msg) else none
    | _ => none

/-- The messages that were delivered to a process. -/
def delivered (pid : Int) (w : List Event) : List (Int × Concrete) :=
  w.filterMap fun
    | .deliver pid' type msg => if pid' = pid then some (type, msg) else none
    | _ => none

/-- The messages kept for a process. -/
def pending (pid : Int) (g : List Pending) : List (Int × Concrete) :=
  (g.filter fun x => x.pid = pid).map fun x => (x.type, x.msg)

/-- A run that must end does. -/
theorem ends_of_mwp {m : Act Unit} {Q : Unit → State → List Pending → Prop} (h : Mwp (fifo mustEnd) m Q s g)
    (ha : (fifo mustEnd).Assumed g (m s).2) : ∃ u v, m s = (.ok ((), u), v) := by
  have hend := h.2 ha
  rcases hm : m s with ⟨e | ⟨⟨⟩, u⟩, v⟩
  · rw [hm] at hend
    exact hend.elim
  · exact ⟨u, v, rfl⟩

theorem getMsg_ends (pid : Int) (s : State) : ∃ u v, getMsg pid s = (.ok ((), u), v) := by
  unfold getMsg
  rw [Prog.run_bind_ok (Prog.run_get s)]
  cases entryOf s pid with
  | none => exact ⟨_, _, rfl⟩
  | some e =>
    dsimp only
    rw [Prog.run_bind_ok (Prog.run_emit _ s)]
    cases (s.MsgQueue (s.MsgTable e).first_msg).next_msg with
    | none => exact ⟨_, _, rfl⟩
    | some next => exact ⟨_, _, rfl⟩

end NewXv6.Gui
