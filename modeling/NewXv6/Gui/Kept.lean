import NewXv6.Gui.Interrupt

/-!
# Messages are kept

The invariant has the queue of each entry of the message table as a list. While the system call is in the middle of an
update, one entry may be open (`Pc.entry`) and one slot may be on no queue (`Pc.out`); all other entries are as
`dispatch` and `getMsg` expect them. Under the condition `Clear` the handler only meets closed entries.
-/

namespace NewXv6.Gui

open Lib

/-! ## The invariant -/

/-- The links of the messages. -/
def nextOf (g : State) (k : MsgIndex) : Option MsgIndex := (g.MsgQueue k).next_msg

/-- The message in slot `k`, for process `pid`. -/
def stored (g : State) (pid : Int) (k : MsgIndex) : Accepted := ⟨pid, (g.MsgQueue k).msg_type, (g.MsgQueue k).concrete_msg⟩

/-- The queue of each entry. -/
abbrev Chains : Type := Fin MAX_PROCESS_NUMBER → List MsgIndex

/-- Entry `i` is free, or its queue is `c`. -/
def Closed (g : State) (c : List MsgIndex) (i : Fin MAX_PROCESS_NUMBER) : Prop :=
  ((g.MsgTable i).pid = -1 → c = []) ∧
    ((g.MsgTable i).pid ≠ -1 → c.head? = some (g.MsgTable i).first_msg ∧ Lib.Linked (nextOf g) c)

namespace Pc

/-- The slot that is used but on no queue. -/
def out : Pc → Option MsgIndex
  | .free _ k _ _ => some k
  | .seek _ m _ | .start _ m _ | .walk _ m _ _ | .advance _ m _ _ | .link _ m _ _ | .vacant _ m _ | .setPid _ m _
  | .setFirst _ m _ => some m
  | _ => none

/-- The process it belongs to. -/
def pid : Pc → Nat
  | .free pid _ _ _ | .seek pid _ _ | .start pid _ _ | .walk pid _ _ _ | .advance pid _ _ _ | .link pid _ _ _
  | .vacant pid _ _ | .setPid pid _ _ | .setFirst pid _ _ => pid
  | _ => 0

/-- The entry that is being changed. -/
def entry : Pc → Option (Fin MAX_PROCESS_NUMBER)
  | .endLink _ _ i | .setFirst _ _ i | .setNext _ _ i => some i
  | _ => none

/-- What the system call knows. -/
def Ok (g : State) (chain : Chains) : Pc → Prop
  | .idle | .find _ _ | .seek _ _ _ | .vacant _ _ _ => True
  | .first pid i | .start pid _ i => (g.MsgTable i).pid = pid
  | .copyType pid i k => (g.MsgTable i).pid = pid ∧ (g.MsgTable i).first_msg = k
  | .copyMsg pid i k type =>
    (g.MsgTable i).pid = pid ∧ (g.MsgTable i).first_msg = k ∧ (g.MsgQueue k).msg_type = type
  | .test pid i k type msg =>
    (g.MsgTable i).pid = pid ∧ (g.MsgTable i).first_msg = k ∧ stored g pid k = ⟨pid, type, msg⟩
  | .drop pid i k type msg =>
    (g.MsgTable i).pid = pid ∧ (g.MsgTable i).first_msg = k ∧ stored g pid k = ⟨pid, type, msg⟩ ∧ nextOf g k = none
  | .next pid i k type msg =>
    (g.MsgTable i).pid = pid ∧ (g.MsgTable i).first_msg = k ∧ stored g pid k = ⟨pid, type, msg⟩ ∧ nextOf g k ≠ none
  | .free pid k type msg => stored g pid k = ⟨pid, type, msg⟩
  | .walk pid _ i t => (g.MsgTable i).pid = pid ∧ t ∈ chain i
  | .advance pid _ i t => (g.MsgTable i).pid = pid ∧ t ∈ chain i ∧ nextOf g t ≠ none
  | .link pid _ i t => (g.MsgTable i).pid = pid ∧ (chain i).getLast? = some t
  | .endLink pid m i =>
    (g.MsgTable i).pid = pid ∧ (chain i).head? = some (g.MsgTable i).first_msg ∧ m ∈ chain i ∧
      Lib.Linked (Function.update (nextOf g) m none) (chain i)
  | .setPid _ _ i => (g.MsgTable i).pid = -1
  | .setFirst pid _ i => (g.MsgTable i).pid = pid ∧ chain i = []
  | .setNext pid m i => (g.MsgTable i).pid = pid ∧ (g.MsgTable i).first_msg = m ∧ chain i = [m]

end Pc

/-- The queues, the open entry and the slot on no queue. -/
structure Shape (g : State) (pc : Pc) (chain : Chains) : Prop where
  nodup : ∀ i, (chain i).Nodup
  disjoint : ∀ i j k, k ∈ chain i → k ∈ chain j → i = j
  out : ∀ k, pc.out = some k → ∀ i, k ∉ chain i
  closed : ∀ i, pc.entry ≠ some i → Closed g (chain i) i
  ok : pc.Ok g chain

/-- Slot `k` has a message for process `p`. -/
def Owns (g : State) (pc : Pc) (chain : Chains) (k : MsgIndex) (p : Int) : Prop :=
  (∃ i, k ∈ chain i ∧ (g.MsgTable i).pid = p) ∨ (pc.out = some k ∧ (pc.pid : Int) = p)

/-- Every accepted message is in one slot or was returned once. -/
structure Kept (s : MsgState) (own : MsgIndex → Int → Prop) : Prop where
  used : ∀ k, (s.gui.MsgQueue k).msg_type ≠ MSG_UNUSED ↔ ∃ p, own k p
  tagged : ∀ k p, own k p → s.accepted[s.tag k]? = some (stored s.gui p k)
  inj : ∀ k l p q, own k p → own l q → s.tag k = s.tag l → k = l
  ret : ∀ r ∈ s.returned, s.accepted[r.id]? = some r.msg ∧ ∀ k p, own k p → s.tag k ≠ r.id
  once : (s.returned.map Returned.id).Nodup
  all : ∀ n < s.accepted.length, n ∈ s.returned.map Returned.id ∨ ∃ k p, own k p ∧ s.tag k = n

namespace MsgState

/-- What holds between any two steps. -/
def Inv (s : MsgState) : Prop := ∃ chain, Shape s.gui s.pc chain ∧ Kept s (Owns s.gui s.pc chain)

end MsgState

variable {g t u : State} {pc pc' : Pc} {chain chain' : Chains} {s : MsgState} {own own' : MsgIndex → Int → Prop}

/-! ### What was accepted and returned -/

/-- Only the contents of the slots and their owners matter. -/
theorem Kept.congr (h : Kept s own) (ho : ∀ k p, own' k p ↔ own k p)
    (hs : ∀ k, (t.MsgQueue k).msg_type = (s.gui.MsgQueue k).msg_type ∧
      (t.MsgQueue k).concrete_msg = (s.gui.MsgQueue k).concrete_msg) : Kept { s with gui := t, pc := pc' } own' := by
  have hst : ∀ p k, stored t p k = stored s.gui p k := fun p k => by simp only [stored, hs k]
  obtain rfl : own' = own := funext fun k => funext fun p => propext (ho k p)
  refine ⟨fun k => ?_, fun k p hk => ?_, h.inj, h.ret, h.once, h.all⟩
  · show (t.MsgQueue k).msg_type ≠ MSG_UNUSED ↔ _
    rw [(hs k).1]
    exact h.used k
  · show _ = some (stored t p k)
    rw [hst]
    exact h.tagged k p hk

theorem Kept.tag_lt (h : Kept s own) {k : MsgIndex} {p : Int} (hk : own k p) : s.tag k < s.accepted.length := by
  by_contra hn
  have := h.tagged k p hk
  rw [List.getElem?_eq_none (Nat.le_of_not_lt hn)] at this
  cases this

/-- A message is accepted into an unused slot. -/
theorem Kept.accept (h : Kept s own) {m : MsgIndex} {q : Nat} (hm : ∀ p, ¬own m p)
    (htype : (t.MsgQueue m).msg_type ≠ MSG_UNUSED)
    (hs : ∀ k, k ≠ m → (t.MsgQueue k).msg_type = (s.gui.MsgQueue k).msg_type ∧
      (t.MsgQueue k).concrete_msg = (s.gui.MsgQueue k).concrete_msg)
    (ho : ∀ k p, own' k p ↔ own k p ∨ (k = m ∧ p = q)) : Kept { s.accept q m t with pc := pc' } own' := by
  have hne : ∀ k p, own k p → k ≠ m := by
    rintro k p hk rfl
    exact hm p hk
  have htag : ∀ k, k ≠ m → (s.accept q m t).tag k = s.tag k := fun k hk => Function.update_of_ne hk _ _
  have htagm : (s.accept q m t).tag m = s.accepted.length := Function.update_self ..
  have hget : ∀ n, n < s.accepted.length → (s.accept q m t).accepted[n]? = s.accepted[n]? := fun n hn =>
    List.getElem?_append_left hn
  refine ⟨fun k => ?_, fun k p hk => ?_, fun k l p p' hk hl he => ?_, fun r hr => ?_, h.once, fun n hn => ?_⟩
  · show (t.MsgQueue k).msg_type ≠ MSG_UNUSED ↔ _
    by_cases hkm : k = m
    · subst hkm
      exact iff_of_true htype ⟨q, (ho k q).2 (Or.inr ⟨rfl, rfl⟩)⟩
    · rw [(hs k hkm).1, h.used k]
      simp only [ho, hkm, false_and, or_false]
  · show (s.accept q m t).accepted[(s.accept q m t).tag k]? = some (stored t p k)
    rcases (ho k p).1 hk with hk | ⟨rfl, rfl⟩
    · rw [htag k (hne k p hk), hget _ (h.tag_lt hk), h.tagged k p hk]
      simp only [stored, hs k (hne k p hk)]
    · rw [htagm]
      exact List.getElem?_concat_length
  · change (s.accept q m t).tag k = (s.accept q m t).tag l at he
    rcases (ho k p).1 hk with hk | ⟨rfl, -⟩ <;> rcases (ho l p').1 hl with hl | ⟨rfl, -⟩
    · rw [htag k (hne k p hk), htag l (hne l p' hl)] at he
      exact h.inj k l p p' hk hl he
    · rw [htag k (hne k p hk), htagm] at he
      exact absurd (h.tag_lt hk) (by omega)
    · rw [htag l (hne l p' hl), htagm] at he
      exact absurd (h.tag_lt hl) (by omega)
    · rfl
  · obtain ⟨hacc, hfree⟩ := h.ret r hr
    have hlt : r.id < s.accepted.length := by
      by_contra hn
      rw [List.getElem?_eq_none (Nat.le_of_not_lt hn)] at hacc
      cases hacc
    refine ⟨(hget _ hlt).trans hacc, fun k p hk => ?_⟩
    show (s.accept q m t).tag k ≠ r.id
    rcases (ho k p).1 hk with hk | ⟨rfl, -⟩
    · rw [htag k (hne k p hk)]
      exact hfree k p hk
    · rw [htagm]
      omega
  · have hlen : (s.accept q m t).accepted.length = s.accepted.length + 1 := by simp [MsgState.accept]
    change n < (s.accept q m t).accepted.length at hn
    rw [hlen] at hn
    rcases Nat.lt_succ_iff_lt_or_eq.1 hn with hn | rfl
    · refine (h.all n hn).imp_right ?_
      rintro ⟨k, p, hk, rfl⟩
      exact ⟨k, p, (ho k p).2 (Or.inl hk), htag k (hne k p hk)⟩
    · exact Or.inr ⟨m, q, (ho m q).2 (Or.inr ⟨rfl, rfl⟩), htagm⟩

/-- A message is returned and its slot given back. -/
theorem Kept.giveBack (h : Kept s own) {k : MsgIndex} {q : Nat} {r : Accepted} (hk : own k q) (hst : stored s.gui q k = r)
    (hfree : (t.MsgQueue k).msg_type = MSG_UNUSED) (hs : ∀ l, l ≠ k → t.MsgQueue l = s.gui.MsgQueue l)
    (ho : ∀ l p, own' l p ↔ own l p ∧ l ≠ k) :
    Kept { s with gui := t, pc := pc', returned := s.returned ++ [⟨s.tag k, r⟩] } own' := by
  refine ⟨fun l => ?_, fun l p hl => ?_, fun l l' p p' hl hl' he => ?_, fun r hr => ?_, ?_, fun n hn => ?_⟩
  · show (t.MsgQueue l).msg_type ≠ MSG_UNUSED ↔ _
    by_cases hlk : l = k
    · subst hlk
      simp [ho, hfree]
    · rw [hs l hlk, h.used l]
      simp only [ho, hlk, ne_eq, not_false_eq_true, and_true]
  · obtain ⟨hl, hlk⟩ := (ho l p).1 hl
    show s.accepted[s.tag l]? = some (stored t p l)
    rw [h.tagged l p hl]
    simp only [stored, hs l hlk]
  · exact h.inj l l' p p' ((ho l p).1 hl).1 ((ho l' p').1 hl').1 he
  · rcases List.mem_append.1 hr with hr | hr
    · exact ⟨(h.ret r hr).1, fun l p hl => (h.ret r hr).2 l p ((ho l p).1 hl).1⟩
    · rw [List.mem_singleton.1 hr]
      refine ⟨(h.tagged k q hk).trans (congrArg some hst), fun l p hl he => ?_⟩
      obtain ⟨hl, hlk⟩ := (ho l p).1 hl
      exact hlk (h.inj l k p q hl hk he)
  · rw [List.map_append]
    refine List.nodup_append.2 ⟨h.once, List.nodup_singleton _, ?_⟩
    intro a ha b hb hab
    obtain ⟨r, hr, rfl⟩ := List.mem_map.1 ha
    rw [List.map_singleton, List.mem_singleton] at hb
    exact (h.ret r hr).2 k q hk (hb.symm.trans hab.symm)
  · rw [List.map_append, List.mem_append]
    rcases h.all n hn with hn | ⟨l, p, hl, rfl⟩
    · exact Or.inl (Or.inl hn)
    · by_cases hlk : l = k
      · subst hlk
        exact Or.inl (Or.inr (List.mem_singleton_self _))
      · exact Or.inr ⟨l, p, (ho l p).2 ⟨hl, hlk⟩, rfl⟩

/-! ### Slots and queues -/

theorem queue_setMsg (g : State) (k l : MsgIndex) (f : Msg → Msg) :
    (g.setMsg k f).MsgQueue l = if l = k then f (g.MsgQueue k) else g.MsgQueue l := Function.update_apply ..

theorem table_setEntry (g : State) (i j : Fin MAX_PROCESS_NUMBER) (f : MsgTableEntry → MsgTableEntry) :
    (g.setEntry i f).MsgTable j = if j = i then f (g.MsgTable i) else g.MsgTable j := Function.update_apply ..

theorem Closed.congr {c : List MsgIndex} {i : Fin MAX_PROCESS_NUMBER} (h : Closed g c i)
    (ht : t.MsgTable i = g.MsgTable i) (hn : ∀ k ∈ c, nextOf t k = nextOf g k) : Closed t c i := by
  refine ⟨fun hp => h.1 (ht ▸ hp), fun hp => ?_⟩
  obtain ⟨hhead, hl⟩ := h.2 (ht ▸ hp)
  exact ⟨by rw [ht]; exact hhead, hl.congr hn⟩

theorem cast_ne (q : Nat) : (q : Int) ≠ -1 := by omega

/-- The first message of a process is on its queue. -/
theorem Shape.first_mem (h : Shape g pc chain) {i : Fin MAX_PROCESS_NUMBER} {q : Nat} (hi : pc.entry ≠ some i)
    (hp : (g.MsgTable i).pid = q) : (g.MsgTable i).first_msg ∈ chain i :=
  List.mem_of_mem_head? ((h.closed i hi).2 (hp ▸ cast_ne q)).1

/-- The slots the system call reads are used. -/
theorem Pc.Ok.congr (h : Shape g pc chain) (ht : t.MsgTable = g.MsgTable) (hn : ∀ k, nextOf t k = nextOf g k)
    (hs : ∀ k p, Owns g pc chain k p → (t.MsgQueue k).msg_type = (g.MsgQueue k).msg_type ∧
      (t.MsgQueue k).concrete_msg = (g.MsgQueue k).concrete_msg) : pc.Ok t chain := by
  have hok := h.ok
  have hfun : nextOf t = nextOf g := funext hn
  have hfirst : ∀ i (q : Nat), pc.entry = none → (g.MsgTable i).pid = q →
      (t.MsgQueue (g.MsgTable i).first_msg).msg_type = (g.MsgQueue (g.MsgTable i).first_msg).msg_type ∧
        ∀ p, stored t p (g.MsgTable i).first_msg = stored g p (g.MsgTable i).first_msg := by
    intro i q he hq
    have := hs _ q (Or.inl ⟨i, h.first_mem (by simp [he]) hq, hq⟩)
    exact ⟨this.1, fun p => by simp only [stored, this]⟩
  cases pc with
  | idle | find _ _ | seek _ _ _ | vacant _ _ _ => trivial
  | first pid i | start pid m i =>
    simp only [Pc.Ok, ht] at hok ⊢
    exact hok
  | walk pid m i t' | link pid m i t' | setPid pid m i | setFirst pid m i | copyType pid i k =>
    simp only [Pc.Ok, ht] at hok ⊢
    exact hok
  | advance pid m i t' | setNext pid m i | endLink pid m i =>
    simp only [Pc.Ok, ht, hfun] at hok ⊢
    exact hok
  | copyMsg pid i k type =>
    obtain ⟨hp, rfl, htype⟩ := hok
    exact ⟨ht ▸ hp, by rw [ht], (hfirst i pid rfl hp).1.trans htype⟩
  | test pid i k type msg =>
    obtain ⟨hp, rfl, hst⟩ := hok
    exact ⟨ht ▸ hp, by rw [ht], ((hfirst i pid rfl hp).2 pid).trans hst⟩
  | drop pid i k type msg | next pid i k type msg =>
    obtain ⟨hp, rfl, hst, hnx⟩ := hok
    exact ⟨ht ▸ hp, by rw [ht], ((hfirst i pid rfl hp).2 pid).trans hst, by rwa [hn]⟩
  | free pid k type msg =>
    have := hs k pid (Or.inr ⟨rfl, rfl⟩)
    simp only [Pc.Ok, stored, this] at hok ⊢
    exact hok

/-- What is in an unused slot does not matter. -/
theorem Shape.congr (h : Shape g pc chain) (ht : t.MsgTable = g.MsgTable) (hn : ∀ k, nextOf t k = nextOf g k)
    (hs : ∀ k p, Owns g pc chain k p → (t.MsgQueue k).msg_type = (g.MsgQueue k).msg_type ∧
      (t.MsgQueue k).concrete_msg = (g.MsgQueue k).concrete_msg) : Shape t pc chain where
  nodup := h.nodup
  disjoint := h.disjoint
  out := h.out
  closed i hi := (h.closed i hi).congr (by rw [ht]) fun k _ => hn k
  ok := Pc.Ok.congr h ht hn hs

/-- The system call goes on. -/
theorem Shape.goto (h : Shape g pc chain) (hout : pc'.out = pc.out) (hentry : pc'.entry = pc.entry)
    (hok : pc'.Ok g chain) : Shape g pc' chain where
  nodup := h.nodup
  disjoint := h.disjoint
  out k hk := h.out k (hout ▸ hk)
  closed i hi := h.closed i (hentry ▸ hi)
  ok := hok

/-! ## The handler -/

/-- `dispatch` to entry `e` with queue `c`. -/
structure Appended (g u : State) (c : List MsgIndex) (e : Fin MAX_PROCESS_NUMBER) (q : Nat) (m : MsgIndex) : Prop where
  same : ∀ k, (u.MsgQueue k).msg_type = (g.MsgQueue k).msg_type ∧
    (u.MsgQueue k).concrete_msg = (g.MsgQueue k).concrete_msg
  ends : nextOf u m = none
  last : ∀ a, c.getLast? = some a → nextOf u a = some m
  next : ∀ a, a ≠ m → c.getLast? ≠ some a → nextOf u a = nextOf g a
  table : ∀ j, j ≠ e → u.MsgTable j = g.MsgTable j
  entry : ((g.MsgTable e).pid = q ∧ u.MsgTable e = g.MsgTable e) ∨
    ((g.MsgTable e).pid = -1 ∧ u.MsgTable e = ⟨q, m⟩)

theorem dispatch_old {e : Fin MAX_PROCESS_NUMBER} {q : Nat} {m : MsgIndex} {c : List MsgIndex} (he : entryOf g q = some e)
    (hc : Closed g c e) (hn : c.Nodup) (hm : m ∉ c) :
    ∃ u, (dispatch q m g).1 = .ok ((), u) ∧ Appended g u c e q m := by
  have hp := entryOf_some he
  obtain ⟨hhead, hl⟩ := hc.2 (hp ▸ cast_ne q)
  have hlen : c.length ≤ MAX_QUEUE_LENGTH := by
    have := hn.length_le_card
    rwa [Fintype.card_fin] at this
  obtain ⟨last, hlast⟩ : ∃ last, c.getLast? = some last := by
    cases c with
    | nil => cases hhead
    | cons a c => exact ⟨_, List.getLast?_cons⟩
  have hseek := Lib.Linked.seek hl (fun k => (nextOf g k).isNone) hlen
  rw [hl.find_last, hlast, hhead] at hseek
  have hml : last ≠ m := by
    rintro rfl
    exact hm (List.mem_of_getLast? hlast)
  refine ⟨(g.setMsg last fun x => { x with next_msg := some m }).setMsg m fun x => { x with next_msg := none }, by
    simp only [dispatch, bind, Prog.bind, Prog.get, he]
    rw [show seek (fun k => (g.MsgQueue k).next_msg) (fun k => (g.MsgQueue k).next_msg.isNone) MAX_QUEUE_LENGTH
      (some (g.MsgTable e).first_msg) = some (some last) from hseek]
    rfl, ?_, ?_, ?_, ?_, fun _ _ => rfl, Or.inl ⟨hp, rfl⟩⟩
  · intro k
    simp only [queue_setMsg]
    split <;> (try split) <;> simp_all
  · simp [nextOf, queue_setMsg]
  · intro a ha
    cases hlast.symm.trans ha
    simp [nextOf, queue_setMsg, hml]
  · intro a ham hal
    have : a ≠ last := fun hc => hal (hc ▸ hlast)
    simp [nextOf, queue_setMsg, ham, this]

theorem dispatch_new {e : Fin MAX_PROCESS_NUMBER} {q : Nat} {m : MsgIndex} {c : List MsgIndex} (hq : entryOf g q = none)
    (he : entryOf g (-1) = some e) (hc : c = []) :
    ∃ u, (dispatch q m g).1 = .ok ((), u) ∧ Appended g u c e q m := by
  subst hc
  refine ⟨(g.setEntry e fun _ => ⟨q, m⟩).setMsg m fun x => { x with next_msg := none }, by
    simp only [dispatch, bind, Prog.bind, Prog.get, hq, he]
    rfl, ?_, ?_, nofun, ?_, fun j hj => Function.update_of_ne hj _ _,
    Or.inr ⟨entryOf_some he, Function.update_self ..⟩⟩
  · intro k
    simp only [queue_setMsg]
    split
    · subst k
      exact ⟨rfl, rfl⟩
    · exact ⟨rfl, rfl⟩
  · simp [nextOf, queue_setMsg]
  · intro a ham _
    simp only [nextOf, queue_setMsg, if_neg ham]
    rfl

/-- The queues after `dispatch`. -/
def Chains.append (chain : Chains) (e : Fin MAX_PROCESS_NUMBER) (m : MsgIndex) : Chains :=
  Function.update chain e (chain e ++ [m])

theorem mem_append {e i : Fin MAX_PROCESS_NUMBER} {m k : MsgIndex} :
    k ∈ chain.append e m i ↔ k ∈ chain i ∨ (i = e ∧ k = m) := by
  unfold Chains.append
  by_cases hi : i = e
  · subst hi
    simp
  · simp [hi]

theorem append_of_ne {e i : Fin MAX_PROCESS_NUMBER} {m : MsgIndex} (hi : i ≠ e) : chain.append e m i = chain i :=
  Function.update_of_ne hi _ _

theorem append_self {e : Fin MAX_PROCESS_NUMBER} {m : MsgIndex} : chain.append e m e = chain e ++ [m] :=
  Function.update_self ..

section Append

variable {e : Fin MAX_PROCESS_NUMBER} {q : Nat} {m : MsgIndex}

/-- The entries of processes stay. -/
theorem Appended.table_eq {c : List MsgIndex} (ha : Appended g u c e q m) {i : Fin MAX_PROCESS_NUMBER}
    (hi : (g.MsgTable i).pid ≠ -1) : u.MsgTable i = g.MsgTable i := by
  by_cases hie : i = e
  · subst hie
    rcases ha.entry with ⟨-, he⟩ | ⟨he, -⟩
    · exact he
    · exact absurd he hi
  · exact ha.table i hie

theorem Appended.pid_self {c : List MsgIndex} (ha : Appended g u c e q m) : (u.MsgTable e).pid = q := by
  rcases ha.entry with ⟨hp, he⟩ | ⟨-, he⟩
  · rw [he, hp]
  · rw [he]

/-- The links of the other queues stay. -/
theorem Appended.next_eq (h : Shape g pc chain) (ha : Appended g u (chain e) e q m) (hm : ∀ i, m ∉ chain i)
    {i : Fin MAX_PROCESS_NUMBER} (hi : i ≠ e) : ∀ k ∈ chain i, nextOf u k = nextOf g k := by
  intro k hk
  refine ha.next k (fun hkm => hm i (hkm ▸ hk)) fun hl => ?_
  exact hi (h.disjoint i e k hk (List.mem_of_getLast? hl))

/-- A link of a queue stays, or leads to the new message. -/
theorem Appended.next_ne_none {c : List MsgIndex} (ha : Appended g u c e q m) {k : MsgIndex} (hkm : k ≠ m)
    (hk : nextOf g k ≠ none) : nextOf u k ≠ none := by
  by_cases hl : c.getLast? = some k
  · rw [ha.last k hl]
    simp
  · rwa [ha.next k hkm hl]

/-- Entry `e` is not the one whose end or whose start the call is about to set. -/
def Pc.Elsewhere (g u : State) (e : Fin MAX_PROCESS_NUMBER) : Pc → Prop
  | .drop _ i _ _ _ | .link _ _ i _ | .endLink _ _ i | .setFirst _ _ i | .setNext _ _ i => i ≠ e
  | .setPid _ _ _ => u.MsgTable = g.MsgTable
  | _ => True

/-- The call still knows what it knew, if the message went to another entry. -/
theorem Pc.Ok.append (h : Shape g pc chain) (ha : Appended g u (chain e) e q m) (hm : ∀ i, m ∉ chain i)
    (he : pc.Elsewhere g u e) : pc.Ok u (chain.append e m) := by
  have hok := h.ok
  have htable : ∀ {i} {p : Nat}, (g.MsgTable i).pid = p → u.MsgTable i = g.MsgTable i := fun hp =>
    ha.table_eq (hp ▸ cast_ne _)
  have hst : ∀ p k, stored u p k = stored g p k := fun p k => by simp only [stored, ha.same k]
  have hfirst : ∀ {i} {p : Nat}, pc.entry = none → (g.MsgTable i).pid = p → (g.MsgTable i).first_msg ∈ chain i :=
    fun hn hp => h.first_mem (by simp [hn]) hp
  cases pc with
  | idle | find _ _ | seek _ _ _ | vacant _ _ _ => trivial
  | first p i | start p k i =>
    have ht := htable hok
    simp only [Pc.Ok, ht] at hok ⊢
    exact hok
  | copyType p i k =>
    obtain ⟨hp, hk⟩ := hok
    simp only [Pc.Ok, htable hp]
    exact ⟨hp, hk⟩
  | copyMsg p i k type =>
    obtain ⟨hp, hk, htype⟩ := hok
    simp only [Pc.Ok, htable hp, ha.same k]
    exact ⟨hp, hk, htype⟩
  | test p i k type msg =>
    obtain ⟨hp, hk, hkeep⟩ := hok
    simp only [Pc.Ok, htable hp, hst]
    exact ⟨hp, hk, hkeep⟩
  | drop p i k type msg =>
    obtain ⟨hp, hk, hkeep, hnx⟩ := hok
    have hin : k ∈ chain i := hk ▸ hfirst rfl hp
    simp only [Pc.Ok, htable hp, hst, ha.next_eq h hm he k hin]
    exact ⟨hp, hk, hkeep, hnx⟩
  | next p i k type msg =>
    obtain ⟨hp, hk, hkeep, hnx⟩ := hok
    have hin : k ∈ chain i := hk ▸ hfirst rfl hp
    simp only [Pc.Ok, htable hp, hst]
    exact ⟨hp, hk, hkeep, ha.next_ne_none (fun hkm => hm i (hkm ▸ hin)) hnx⟩
  | free p k type msg =>
    simp only [Pc.Ok, hst]
    exact hok
  | walk p k i t =>
    obtain ⟨hp, hin⟩ := hok
    simp only [Pc.Ok, htable hp]
    exact ⟨hp, mem_append.2 (Or.inl hin)⟩
  | advance p k i t =>
    obtain ⟨hp, hin, hnx⟩ := hok
    simp only [Pc.Ok, htable hp]
    exact ⟨hp, mem_append.2 (Or.inl hin), ha.next_ne_none (fun hkm => hm i (hkm ▸ hin)) hnx⟩
  | link p k i t =>
    obtain ⟨hp, hl⟩ := hok
    simp only [Pc.Ok, htable hp, append_of_ne he]
    exact ⟨hp, hl⟩
  | endLink p k i =>
    obtain ⟨hp, hhead, hin, hl⟩ := hok
    simp only [Pc.Ok, htable hp, append_of_ne he]
    refine ⟨hp, hhead, hin, hl.congr fun a ha' => ?_⟩
    simp only [Function.update_apply, ha.next_eq h hm he a ha']
  | setPid p k i =>
    simp only [Pc.Ok, show u.MsgTable = g.MsgTable from he] at hok ⊢
    exact hok
  | setFirst p k i =>
    obtain ⟨hp, hnil⟩ := hok
    simp only [Pc.Ok, htable hp, append_of_ne he]
    exact ⟨hp, hnil⟩
  | setNext p k i =>
    obtain ⟨hp, hf, hc⟩ := hok
    simp only [Pc.Ok, htable hp, append_of_ne he]
    exact ⟨hp, hf, hc⟩

/-- `dispatch` to a closed entry. -/
theorem Shape.append (h : Shape g pc chain) (ha : Appended g u (chain e) e q m) (hm : ∀ i, m ∉ chain i)
    (hmo : pc.out ≠ some m) (hopen : pc.entry ≠ some e) (hok : pc.Ok u (chain.append e m)) :
    Shape u pc (chain.append e m) where
  nodup i := by
    by_cases hi : i = e
    · subst hi
      rw [append_self]
      exact List.nodup_append.2 ⟨h.nodup i, List.nodup_singleton _, fun a ha b hb hab =>
        hm i (List.mem_singleton.1 hb ▸ hab ▸ ha)⟩
    · rw [append_of_ne hi]
      exact h.nodup i
  disjoint i j k hi hj := by
    rcases mem_append.1 hi with hi' | ⟨hie, hk⟩ <;> rcases mem_append.1 hj with hj' | ⟨hje, hk'⟩
    · exact h.disjoint i j k hi' hj'
    · exact absurd (hk' ▸ hi') (hm i)
    · exact absurd (hk ▸ hj') (hm j)
    · rw [hie, hje]
  out k hk i hi := by
    rcases mem_append.1 hi with hi | ⟨-, rfl⟩
    · exact h.out k hk i hi
    · exact hmo hk
  closed i hi := by
    by_cases hie : i = e
    · subst hie
      have hclosed := h.closed i hi
      rw [append_self]
      refine ⟨fun hp => absurd (ha.pid_self ▸ hp) (cast_ne q), fun _ => ?_⟩
      rcases ha.entry with ⟨hp, he⟩ | ⟨hp, he⟩
      · obtain ⟨hhead, hl⟩ := hclosed.2 (hp ▸ cast_ne q)
        refine ⟨?_, hl.snoc (h.nodup i) ha.ends ha.last fun a hin hne => ha.next a (fun hc => hm i (hc ▸ hin)) hne⟩
        rw [List.head?_append, hhead, he]
        rfl
      · rw [hclosed.1 hp, he]
        exact ⟨rfl, ha.ends, trivial⟩
    · rw [append_of_ne hie]
      exact (h.closed i hi).congr (ha.table i hie) (ha.next_eq h hm hie)
  ok := hok

theorem owns_append (h : Shape g pc chain) (ha : Appended g u (chain e) e q m) (hm : ∀ i, m ∉ chain i)
    (hopen : pc.entry ≠ some e) (k : MsgIndex) (p : Int) :
    Owns u pc (chain.append e m) k p ↔ Owns g pc chain k p ∨ (k = m ∧ p = q) := by
  have hpid : ∀ i, k ∈ chain i → (u.MsgTable i).pid = (g.MsgTable i).pid := by
    intro i hk
    by_cases hie : i = e
    · subst hie
      rcases ha.entry with ⟨-, he⟩ | ⟨hp, -⟩
      · rw [he]
      · rw [(h.closed i hopen).1 hp] at hk
        cases hk
    · rw [ha.table i hie]
  unfold Owns
  constructor
  · rintro (⟨i, hi, hp⟩ | ho)
    · rcases mem_append.1 hi with hi | ⟨rfl, rfl⟩
      · exact Or.inl (Or.inl ⟨i, hi, (hpid i hi).symm.trans hp⟩)
      · exact Or.inr ⟨rfl, hp.symm.trans ha.pid_self⟩
    · exact Or.inl (Or.inr ho)
  · rintro ((⟨i, hi, hp⟩ | ho) | ⟨rfl, rfl⟩)
    · exact Or.inl ⟨i, mem_append.2 (Or.inl hi), (hpid i hi).trans hp⟩
    · exact Or.inr ho
    · exact Or.inl ⟨e, mem_append.2 (Or.inr ⟨rfl, rfl⟩), ha.pid_self⟩

end Append

/-! ### `requireMsg` -/

/-- `alloc` takes the first unused slot, if there is one, and leaves the links alone. -/
def Allocates (g : State) (alloc : Act (Option MsgIndex)) : Prop :=
  (unusedMsg g = none ∧ (alloc g).1 = .ok (none, g)) ∨
    ∃ m t, unusedMsg g = some m ∧ (alloc g).1 = .ok (some m, t) ∧ t.MsgTable = g.MsgTable ∧
      (∀ k, nextOf t k = nextOf g k) ∧ (∀ k, k ≠ m → t.MsgQueue k = g.MsgQueue k) ∧
      (t.MsgQueue m).msg_type ≠ MSG_UNUSED

theorem allocates_of {alloc : Act (Option MsgIndex)} {f : Msg → Msg}
    (hnone : unusedMsg g = none → (alloc g).1 = .ok (none, g))
    (hsome : ∀ m, unusedMsg g = some m → (alloc g).1 = .ok (some m, g.setMsg m f))
    (hnext : ∀ x, (f x).next_msg = x.next_msg) (htype : ∀ x, (f x).msg_type ≠ MSG_UNUSED) : Allocates g alloc := by
  cases hu : unusedMsg g with
  | none => exact Or.inl ⟨hu, hnone hu⟩
  | some m =>
    refine Or.inr ⟨m, _, hu, hsome m hu, rfl, fun k => ?_, fun k hk => ?_, ?_⟩
    · unfold nextOf
      rw [queue_setMsg]
      split
      · subst k
        exact hnext _
      · rfl
    · rw [queue_setMsg, if_neg hk]
    · rw [queue_setMsg, if_pos rfl]
      exact htype _

theorem requireMsg_allocates (type x y : Int) (key : UInt8) (htype : type ≠ MSG_UNUSED) :
    Allocates g (requireMsg type x y key) := by
  refine allocates_of (f := fun x' => { x' with
    msg_type := type
    concrete_msg := if type = MSG_KEYDOWN then x'.concrete_msg.setKey key else x'.concrete_msg.setMouse x y })
    (fun hu => ?_) (fun m hu => ?_) (fun _ => rfl) fun _ => htype
  all_goals
    simp only [requireMsg, bind, Prog.bind, Prog.get, hu]
    rfl

theorem requirePartialUpdateMsg_allocates (x1 y1 x2 y2 : Int) : Allocates g (requirePartialUpdateMsg x1 y1 x2 y2) := by
  refine allocates_of (f := fun x => { x with msg_type := MSG_PARTIAL_UPDATE, concrete_msg := ⟨x1, y1, x2, y2⟩ })
    (fun hu => ?_) (fun m hu => ?_) (fun _ => rfl) fun _ =>
      show MSG_PARTIAL_UPDATE ≠ MSG_UNUSED by decide
  all_goals
    simp only [requirePartialUpdateMsg, bind, Prog.bind, Prog.get, hu]
    rfl

/-! ## One step -/

theorem owns_table (ht : t.MsgTable = g.MsgTable) (k : MsgIndex) (p : Int) :
    Owns t pc chain k p ↔ Owns g pc chain k p := by
  unfold Owns
  rw [ht]

theorem owns_none (hout : pc.out = none) (k : MsgIndex) (p : Int) :
    Owns g pc chain k p ↔ ∃ i, k ∈ chain i ∧ (g.MsgTable i).pid = p := by
  simp [Owns, hout]

theorem owns_some {m : MsgIndex} (hout : pc.out = some m) (k : MsgIndex) (p : Int) :
    Owns g pc chain k p ↔ (∃ i, k ∈ chain i ∧ (g.MsgTable i).pid = p) ∨ (m = k ∧ (pc.pid : Int) = p) := by
  simp [Owns, hout]

/-- An unused slot is nobody's. -/
theorem Kept.unused (h : Kept s own) {m : MsgIndex} (hm : unusedMsg s.gui = some m) (p : Int) : ¬own m p := fun ho =>
  (h.used m).2 ⟨p, ho⟩ (unusedMsg_some hm)

theorem entryOf_congr (ht : t.MsgTable = g.MsgTable) (p : Int) : entryOf t p = entryOf g p := by
  unfold entryOf
  rw [ht]

theorem inv_create {alloc : Act (Option MsgIndex)} {q : Nat} {t : MsgState} (h : s.Inv) (hpc : s.pc = .idle)
    (ha : Allocates s.gui alloc) (ht : s.create q alloc = some t) : t.Inv := by
  obtain ⟨chain, hs, hk⟩ := h
  unfold MsgState.create at ht
  rcases ha with ⟨-, hr⟩ | ⟨m, t', hm, hr, htab, hnext, hother, htype⟩
  · rw [hr] at ht
    cases ht
    exact ⟨chain, hs, hk⟩
  · rw [hr] at ht
    cases ht
    rw [hpc] at hs hk
    have hno := hk.unused hm
    have hfree : ∀ i, m ∉ chain i := fun i hi => hno _ (Or.inl ⟨i, hi, rfl⟩)
    refine ⟨chain, ⟨hs.nodup, hs.disjoint, fun k hk' i hi => ?_, fun i hi => ?_, trivial⟩,
      hk.accept hno htype (fun k hkm => by rw [hother k hkm]; exact ⟨rfl, rfl⟩) fun k p => ?_⟩
    · cases hk'
      exact hfree i hi
    · exact (hs.closed i nofun).congr (by rw [MsgState.accept, htab]) fun k _ => hnext k
    · show Owns t' (.seek q m 0) chain k p ↔ _
      rw [owns_table htab]
      unfold Owns
      simp only [Pc.out, Pc.pid, Option.some.injEq, reduceCtorEq, false_and, or_false, eq_comm]

/-- A message of the handler. -/
theorem inv_interrupt {alloc : Act (Option MsgIndex)} {q : Nat} {t : MsgState} (h : s.Inv)
    (ha : Allocates s.gui alloc) (hc : unusedMsg s.gui ≠ none → s.Apart q) (ht : s.interrupt q alloc = some t) :
    t.Inv := by
  obtain ⟨chain, hs, hk⟩ := h
  unfold MsgState.interrupt at ht
  rcases ha with ⟨-, hr⟩ | ⟨m, t', hm, hr, htab, hnext, hother, htype⟩
  · rw [hr] at ht
    cases ht
    exact ⟨chain, hs, hk⟩
  · simp only [hr] at ht
    obtain ⟨hopen, hroom⟩ := hc (by simp [hm])
    have hno := hk.unused hm
    have hfree : ∀ i, m ∉ chain i := fun i hi => hno _ (Or.inl ⟨i, hi, rfl⟩)
    have hout : s.pc.out ≠ some m := fun ho => hno _ (Or.inr ⟨ho, rfl⟩)
    have hsame : ∀ k, k ≠ m → (t'.MsgQueue k).msg_type = (s.gui.MsgQueue k).msg_type ∧
        (t'.MsgQueue k).concrete_msg = (s.gui.MsgQueue k).concrete_msg := fun k hkm => by
      rw [hother k hkm]
      exact ⟨rfl, rfl⟩
    have hs' : Shape t' s.pc chain := hs.congr htab hnext fun k p ho => hsame k fun hkm => hno p (hkm ▸ ho)
    have hkept : ∀ own', (∀ k p, own' k p ↔ Owns s.gui s.pc chain k p ∨ (k = m ∧ p = q)) →
        Kept { s.accept q m t' with pc := s.pc } own' := fun own' ho => hk.accept hno htype hsame ho
    -- in both cases of `dispatch` the entry is closed and not the one of the call
    have key : ∀ e u, Appended t' u (chain e) e q m → s.pc.entry ≠ some e → s.pc.Elsewhere t' u e →
        ({ s.accept q m t' with gui := u } : MsgState).Inv := by
      intro e u hu he hmatch
      refine ⟨chain.append e m, hs'.append hu hfree hout he (Pc.Ok.append hs' hu hfree hmatch), ?_⟩
      refine Kept.congr (s := { s.accept q m t' with pc := s.pc }) (hkept (Owns u s.pc (chain.append e m)) fun k p => ?_)
        (fun k p => Iff.rfl) hu.same
      rw [owns_append hs' hu hfree he, owns_table htab]
    cases he : entryOf s.gui q with
    | some e =>
      have hopen' : s.pc.entry ≠ some e := by
        intro hcon
        cases hpc : s.pc <;> simp only [hpc, Pc.entry, Option.some.injEq, reduceCtorEq] at hcon <;>
          simp only [hpc] at hopen <;> exact hopen (hcon ▸ he)
      obtain ⟨u, hrun, hu⟩ := dispatch_old ((entryOf_congr htab q).trans he) (hs'.closed e hopen') (hs.nodup e) (hfree e)
      simp only [hrun] at ht
      cases ht
      refine key e u hu hopen' ?_
      cases hpc : s.pc with
      | setPid p k i =>
        have hpid := entryOf_some ((entryOf_congr htab q).trans he)
        refine funext fun j => ?_
        by_cases hj : j = e
        · subst hj
          exact hu.table_eq (hpid ▸ cast_ne q)
        · exact hu.table j hj
      | drop p i k type msg | link p k i t | endLink p k i | setFirst p k i | setNext p k i =>
        simp only [hpc] at hopen
        exact fun hie : i = e => hopen (hie ▸ he)
      | _ => trivial
    | none =>
      obtain ⟨e, hvac⟩ := Option.ne_none_iff_exists'.1 (hroom he)
      have hpid := entryOf_some hvac
      have hpid' : (t'.MsgTable e).pid = -1 := by rw [htab, hpid]
      have hok := hs.ok
      have hclash : ∀ {i} {p : Nat}, (s.gui.MsgTable i).pid = p → i ≠ e := by
        rintro i p hp rfl
        exact cast_ne p (hp.symm.trans hpid)
      have hopen' : s.pc.entry ≠ some e := by
        intro hcon
        cases hpc : s.pc <;> simp only [hpc, Pc.entry, Option.some.injEq, reduceCtorEq] at hcon <;>
          simp only [hpc, Pc.Ok] at hok <;> exact hclash hok.1 hcon
      obtain ⟨u, hrun, hu⟩ := dispatch_new (m := m) ((entryOf_congr htab q).trans he) ((entryOf_congr htab (-1)).trans hvac)
        ((hs'.closed e hopen').1 hpid')
      simp only [hrun] at ht
      cases ht
      refine key e u hu hopen' ?_
      cases hpc : s.pc with
      | setPid p k i =>
        simp only [hpc] at hopen
        exact absurd he hopen
      | drop p i k type msg | link p k i t | endLink p k i | setFirst p k i | setNext p k i =>
        simp only [hpc, Pc.Ok] at hok
        exact hclash hok.1
      | _ => trivial

/-! ### The statements of a system call -/

/-- A statement that only reads. -/
theorem inv_goto (hs : Shape s.gui s.pc chain) (hk : Kept s (Owns s.gui s.pc chain)) (hout : pc'.out = s.pc.out)
    (hentry : pc'.entry = s.pc.entry) (hpid : pc'.out = none ∨ pc'.pid = s.pc.pid) (hok : pc'.Ok s.gui chain) :
    ({ s with pc := pc' } : MsgState).Inv := by
  refine ⟨chain, hs.goto hout hentry hok, hk.congr (fun k p => ?_) fun _ => ⟨rfl, rfl⟩⟩
  unfold Owns
  rw [hout]
  rcases hpid with hn | hp
  · simp [← hout, hn]
  · rw [hp]

/-- The first message `k` leaves the queue of entry `i`. -/
theorem inv_unlink {i : Fin MAX_PROCESS_NUMBER} {k : MsgIndex} {rest : List MsgIndex} {q : Nat} {type : Int}
    {msg : Concrete} (hs : Shape s.gui s.pc chain) (hk : Kept s (Owns s.gui s.pc chain)) (hout : s.pc.out = none)
    (hentry : s.pc.entry = none) (hc : chain i = k :: rest) (hp : (s.gui.MsgTable i).pid = q)
    (hst : stored s.gui q k = ⟨q, type, msg⟩) (hqueue : t.MsgQueue = s.gui.MsgQueue)
    (htable : ∀ j, j ≠ i → t.MsgTable j = s.gui.MsgTable j) (hclosed : Closed t rest i)
    (hpid : rest ≠ [] → (t.MsgTable i).pid = q) :
    ({ s with gui := t, pc := .free q k type msg } : MsgState).Inv := by
  have hnext : ∀ k, nextOf t k = nextOf s.gui k := fun k => by simp only [nextOf, hqueue]
  have hmem : ∀ j l, l ∈ Function.update chain i rest j ↔ l ∈ chain j ∧ l ≠ k := by
    intro j l
    by_cases hj : j = i
    · subst hj
      have hnd := hs.nodup j
      rw [hc] at hnd
      obtain ⟨hnot, -⟩ := List.nodup_cons.1 hnd
      rw [Function.update_self, hc, List.mem_cons]
      constructor
      · intro hl
        exact ⟨Or.inr hl, fun he => hnot (he ▸ hl)⟩
      · rintro ⟨rfl | hl, hne⟩
        · exact absurd rfl hne
        · exact hl
    · rw [Function.update_of_ne hj]
      refine ⟨fun hl => ⟨hl, ?_⟩, fun hl => hl.1⟩
      rintro rfl
      exact hj (hs.disjoint j i l hl (hc ▸ List.mem_cons_self))
  refine ⟨Function.update chain i rest, ⟨fun j => ?_, fun a b l ha hb => ?_, fun l hl j hj => ?_, fun j hj => ?_, ?_⟩,
    hk.congr (fun l p => ?_) fun l => by rw [hqueue]; exact ⟨rfl, rfl⟩⟩
  · by_cases hj : j = i
    · subst hj
      have hnd := hs.nodup j
      rw [hc] at hnd
      rw [Function.update_self]
      exact (List.nodup_cons.1 hnd).2
    · rw [Function.update_of_ne hj]
      exact hs.nodup j
  · exact hs.disjoint a b l ((hmem a l).1 ha).1 ((hmem b l).1 hb).1
  · cases hl
    exact ((hmem j k).1 hj).2 rfl
  · by_cases hji : j = i
    · subst hji
      rw [Function.update_self]
      exact hclosed
    · rw [Function.update_of_ne hji]
      exact (hs.closed j (by simp [hentry])).congr (htable j hji) fun l _ => hnext l
  · show stored t q k = _
    rw [← hst]
    simp only [stored, hqueue]
  · have hkeep : ∀ j, l ∈ Function.update chain i rest j → (t.MsgTable j).pid = (s.gui.MsgTable j).pid := by
      intro j hj
      by_cases hji : j = i
      · subst hji
        rw [Function.update_self] at hj
        rw [hpid (List.ne_nil_of_mem hj), hp]
      · rw [htable j hji]
    rw [owns_none hout, owns_some (m := k) rfl]
    constructor
    · rintro (⟨j, hj, hjp⟩ | ⟨rfl, rfl⟩)
      · exact ⟨j, ((hmem j l).1 hj).1, (hkeep j hj).symm.trans hjp⟩
      · exact ⟨i, hc ▸ List.mem_cons_self, hp⟩
    · rintro ⟨j, hj, hjp⟩
      by_cases hlk : l = k
      · subst hlk
        obtain rfl := hs.disjoint j i l hj (hc ▸ List.mem_cons_self)
        exact Or.inr ⟨rfl, hp.symm.trans hjp⟩
      · exact Or.inl ⟨j, (hmem j l).2 ⟨hj, hlk⟩, (hkeep j ((hmem j l).2 ⟨hj, hlk⟩)).trans hjp⟩

/-- The message on no queue gets onto the queue of entry `i`. -/
theorem inv_link {i : Fin MAX_PROCESS_NUMBER} {m : MsgIndex} {q : Nat} (hs : Shape s.gui s.pc chain)
    (hk : Kept s (Owns s.gui s.pc chain)) (hout : s.pc.out = some m) (hpid : s.pc.pid = q)
    (hsame : ∀ k, (t.MsgQueue k).msg_type = (s.gui.MsgQueue k).msg_type ∧
      (t.MsgQueue k).concrete_msg = (s.gui.MsgQueue k).concrete_msg)
    (htable : ∀ j, (t.MsgTable j).pid = (s.gui.MsgTable j).pid) (hp : (t.MsgTable i).pid = q)
    (hclosed : ∀ j, j ≠ i → Closed t (chain j) j) (hout' : pc'.out = none) (hentry : pc'.entry = some i)
    (hok : pc'.Ok t (chain.append i m)) : ({ s with gui := t, pc := pc' } : MsgState).Inv := by
  have hfree := hs.out m hout
  refine ⟨chain.append i m, ⟨fun j => ?_, fun a b l ha hb => ?_, fun l hl => ?_, fun j hj => ?_, hok⟩,
    hk.congr (fun l p => ?_) hsame⟩
  · by_cases hj : j = i
    · subst hj
      rw [append_self]
      exact List.nodup_append.2 ⟨hs.nodup j, List.nodup_singleton _, fun a ha b hb hab =>
        hfree j (List.mem_singleton.1 hb ▸ hab ▸ ha)⟩
    · rw [append_of_ne hj]
      exact hs.nodup j
  · rcases mem_append.1 ha with ha' | ⟨hai, hl⟩ <;> rcases mem_append.1 hb with hb' | ⟨hbi, hl'⟩
    · exact hs.disjoint a b l ha' hb'
    · exact absurd (hl' ▸ ha') (hfree a)
    · exact absurd (hl ▸ hb') (hfree b)
    · rw [hai, hbi]
  · exact absurd (hl.symm.trans hout') (by simp)
  · have hji : j ≠ i := fun hc => hj (hc ▸ hentry)
    rw [append_of_ne hji]
    exact hclosed j hji
  · rw [owns_none hout', owns_some hout, hpid]
    constructor
    · rintro ⟨j, hj, hjp⟩
      rcases mem_append.1 hj with hj | ⟨rfl, rfl⟩
      · exact Or.inl ⟨j, hj, (htable j).symm.trans hjp⟩
      · exact Or.inr ⟨rfl, hp.symm.trans hjp⟩
    · rintro (⟨j, hj, hjp⟩ | ⟨rfl, rfl⟩)
      · exact ⟨j, mem_append.2 (Or.inl hj), (htable j).trans hjp⟩
      · exact ⟨i, mem_append.2 (Or.inr ⟨rfl, rfl⟩), hp⟩

/-- The open entry is closed. -/
theorem inv_close {i : Fin MAX_PROCESS_NUMBER} {m : MsgIndex} (hs : Shape s.gui s.pc chain)
    (hk : Kept s (Owns s.gui s.pc chain)) (hout : s.pc.out = none) (hentry : s.pc.entry = some i) (hm : m ∈ chain i)
    (hl : Lib.Linked (Function.update (nextOf s.gui) m none) (chain i))
    (hhead : (chain i).head? = some (s.gui.MsgTable i).first_msg) (hp : (s.gui.MsgTable i).pid ≠ -1) :
    ({ s with gui := s.gui.setMsg m fun x => { x with next_msg := none }, pc := .idle } : MsgState).Inv := by
  have hnext : nextOf (s.gui.setMsg m fun x => { x with next_msg := none }) = Function.update (nextOf s.gui) m none := by
    funext k
    unfold nextOf
    rw [queue_setMsg, Function.update_apply]
    split <;> rfl
  refine ⟨chain, ⟨hs.nodup, hs.disjoint, nofun, fun j _ => ?_, trivial⟩, hk.congr (fun k p => ?_) fun k => ?_⟩
  · by_cases hj : j = i
    · subst hj
      exact ⟨fun hc => absurd hc hp, fun _ => ⟨hhead, hnext ▸ hl⟩⟩
    · refine (hs.closed j (by simp [hentry, Ne.symm hj])).congr rfl fun k hkj => ?_
      rw [hnext, Function.update_of_ne]
      rintro rfl
      exact hj (hs.disjoint j i k hkj hm)
  · rw [owns_none hout, owns_none rfl]
    rfl
  · rw [queue_setMsg]
    split
    · subst k
      exact ⟨rfl, rfl⟩
    · exact ⟨rfl, rfl⟩

/-- The last message of an entry leaves it. -/
theorem inv_drop {t : MsgState} {q : Nat} {i : Fin MAX_PROCESS_NUMBER} {k : MsgIndex} {type : Int} {msg : Concrete}
    (hs : Shape s.gui s.pc chain) (hk : Kept s (Owns s.gui s.pc chain))
    (hpc : s.pc = .drop q i k type msg) (ht : s.statement = some t) : t.Inv := by
  obtain ⟨g, pc, tag, accepted, returned⟩ := s
  obtain rfl : pc = .drop q i k type msg := hpc
  obtain ⟨hp, hf, hst, hnx⟩ := hs.ok
  have hf : (g.MsgTable i).first_msg = k := hf
  subst hf
  cases ht
  obtain ⟨hhead, hl⟩ := (hs.closed i nofun).2 (hp ▸ cast_ne q)
  have hci : chain i = [(g.MsgTable i).first_msg] := by
    obtain ⟨rest, hrest⟩ := List.head?_eq_some_iff.1 hhead
    rw [hrest] at hl ⊢
    have hnil : rest = [] := List.head?_eq_none_iff.1 (hl.1.symm.trans hnx)
    rw [hnil]
  refine inv_unlink hs hk rfl rfl hci hp hst rfl (fun j hj => Function.update_of_ne hj _ _) ⟨fun _ => rfl, fun hpc => ?_⟩
    fun hne => absurd rfl hne
  exact absurd (by simp [State.setEntry]) hpc

/-- The first message of an entry leaves it, and others stay. -/
theorem inv_next {t : MsgState} {q : Nat} {i : Fin MAX_PROCESS_NUMBER} {k : MsgIndex} {type : Int} {msg : Concrete}
    (hs : Shape s.gui s.pc chain) (hk : Kept s (Owns s.gui s.pc chain))
    (hpc : s.pc = .next q i k type msg) (ht : s.statement = some t) : t.Inv := by
  obtain ⟨g, pc, tag, accepted, returned⟩ := s
  obtain rfl : pc = .next q i k type msg := hpc
  obtain ⟨hp, hf, hst, hnx⟩ := hs.ok
  have hf : (g.MsgTable i).first_msg = k := hf
  subst hf
  obtain ⟨n, hn⟩ := Option.ne_none_iff_exists'.1 hnx
  simp only [MsgState.statement, show (g.MsgQueue (g.MsgTable i).first_msg).next_msg = some n from hn,
    Option.some.injEq] at ht
  subst ht
  obtain ⟨hhead, hl⟩ := (hs.closed i nofun).2 (hp ▸ cast_ne q)
  obtain ⟨rest, hrest⟩ := List.head?_eq_some_iff.1 hhead
  rw [hrest] at hl
  have hpid : ((g.setEntry i fun e => { e with first_msg := n }).MsgTable i).pid = q := by
    rw [table_setEntry, if_pos rfl]
    exact hp
  refine inv_unlink hs hk rfl rfl hrest hp hst rfl (fun j hj => Function.update_of_ne hj _ _)
    ⟨fun hpc => absurd (hpid ▸ hpc) (cast_ne q), fun _ => ⟨?_, hl.2⟩⟩ fun _ => hpid
  rw [show rest.head? = some n from hl.1.symm.trans hn]
  simp [State.setEntry]

/-- The message is returned and its slot is unused. -/
theorem inv_free {t : MsgState} {q : Nat} {k : MsgIndex} {type : Int} {msg : Concrete}
    (hs : Shape s.gui s.pc chain) (hk : Kept s (Owns s.gui s.pc chain))
    (hpc : s.pc = .free q k type msg) (ht : s.statement = some t) : t.Inv := by
  obtain ⟨g, pc, tag, accepted, returned⟩ := s
  obtain rfl : pc = .free q k type msg := hpc
  have hok := hs.ok
  cases ht
  have hnot : ∀ i, k ∉ chain i := hs.out k rfl
  have hqueue : ∀ l, l ≠ k → (g.setMsg k fun m => { m with msg_type := MSG_UNUSED }).MsgQueue l = g.MsgQueue l :=
    fun l hl => Function.update_of_ne hl _ _
  refine ⟨chain, ⟨hs.nodup, hs.disjoint, nofun, fun i _ => (hs.closed i nofun).congr rfl fun l hl => ?_, trivial⟩,
    hk.giveBack (k := k) (q := q) (Or.inr ⟨rfl, rfl⟩) hok (by simp [State.setMsg]) hqueue fun l p => ?_⟩
  · unfold nextOf
    rw [hqueue l fun hlk => hnot i (hlk ▸ hl)]
  · rw [owns_none rfl, owns_some (m := k) rfl]
    constructor
    · rintro ⟨i, hi, hp⟩
      exact ⟨Or.inl ⟨i, hi, hp⟩, fun hlk => hnot i (hlk ▸ hi)⟩
    · rintro ⟨⟨i, hi, hp⟩ | ⟨rfl, -⟩, hne⟩
      · exact ⟨i, hi, hp⟩
      · exact absurd rfl hne

/-- The new message is linked behind the last one. -/
theorem inv_linkLast {t : MsgState} {q : Nat} {m t' : MsgIndex} {i : Fin MAX_PROCESS_NUMBER}
    (hs : Shape s.gui s.pc chain) (hk : Kept s (Owns s.gui s.pc chain))
    (hpc : s.pc = .link q m i t') (ht : s.statement = some t) : t.Inv := by
  obtain ⟨g, pc, tag, accepted, returned⟩ := s
  obtain rfl : pc = .link q m i t' := hpc
  obtain ⟨hp, hlast⟩ := hs.ok
  cases ht
  have hfree := hs.out m rfl
  have htin := List.mem_of_getLast? hlast
  have htm : t' ≠ m := fun hc => hfree i (hc ▸ htin)
  obtain ⟨hhead, hl⟩ := (hs.closed i nofun).2 (hp ▸ cast_ne q)
  have hnext : ∀ k, nextOf (g.setMsg t' fun x => { x with next_msg := some m }) k =
      if k = t' then some m else nextOf g k := by
    intro k
    unfold nextOf
    rw [queue_setMsg]
    split <;> rfl
  refine inv_link hs hk rfl rfl (fun k => ?_) (fun _ => rfl) hp (fun j hj => ?_) rfl rfl ⟨hp, ?_, ?_, ?_⟩
  · rw [queue_setMsg]
    split
    · subst k
      exact ⟨rfl, rfl⟩
    · exact ⟨rfl, rfl⟩
  · refine (hs.closed j nofun).congr rfl fun k hkj => ?_
    rw [hnext, if_neg]
    rintro rfl
    exact hj (hs.disjoint j i k hkj htin)
  · rw [append_self, List.head?_append, hhead]
    rfl
  · exact mem_append.2 (Or.inr ⟨rfl, rfl⟩)
  · rw [append_self]
    refine hl.snoc (hs.nodup i) (Function.update_self ..) (fun a ha => ?_) fun a ha hne => ?_
    · cases hlast.symm.trans ha
      rw [Function.update_of_ne htm, hnext, if_pos rfl]
    · rw [Function.update_of_ne fun hc : a = m => hfree i (hc ▸ ha), hnext, if_neg]
      rintro rfl
      exact hne hlast

/-- A free entry gets its process. -/
theorem inv_setPid {t : MsgState} {q : Nat} {m : MsgIndex} {i : Fin MAX_PROCESS_NUMBER}
    (hs : Shape s.gui s.pc chain) (hk : Kept s (Owns s.gui s.pc chain))
    (hpc : s.pc = .setPid q m i) (ht : s.statement = some t) : t.Inv := by
  obtain ⟨g, pc, tag, accepted, returned⟩ := s
  obtain rfl : pc = .setPid q m i := hpc
  have hok := hs.ok
  cases ht
  have hnil := (hs.closed i nofun).1 hok
  have hself : ((g.setEntry i fun e => { e with pid := q }).MsgTable i).pid = q := by simp [State.setEntry]
  refine ⟨chain, ⟨hs.nodup, hs.disjoint, hs.out, fun j hj => ?_, hself, hnil⟩, hk.congr (fun k p => ?_) fun _ => ⟨rfl, rfl⟩⟩
  · have hji : j ≠ i := fun hc => hj (hc ▸ rfl)
    exact (hs.closed j nofun).congr (Function.update_of_ne hji _ _) fun _ _ => rfl
  · have hpid : ∀ j, k ∈ chain j → ((g.setEntry i fun e => { e with pid := q }).MsgTable j).pid = (g.MsgTable j).pid := by
      intro j hj
      by_cases hji : j = i
      · subst hji
        rw [hnil] at hj
        cases hj
      · rw [table_setEntry, if_neg hji]
    rw [owns_some (m := m) rfl, owns_some (m := m) rfl]
    refine or_congr (exists_congr fun j => and_congr_right fun hj => ?_) Iff.rfl
    rw [hpid j hj]

/-- The new message is the first one of its entry. -/
theorem inv_setFirst {t : MsgState} {q : Nat} {m : MsgIndex} {i : Fin MAX_PROCESS_NUMBER}
    (hs : Shape s.gui s.pc chain) (hk : Kept s (Owns s.gui s.pc chain))
    (hpc : s.pc = .setFirst q m i) (ht : s.statement = some t) : t.Inv := by
  obtain ⟨g, pc, tag, accepted, returned⟩ := s
  obtain rfl : pc = .setFirst q m i := hpc
  obtain ⟨hp, hnil⟩ := hs.ok
  cases ht
  have hpid : ∀ j, ((g.setEntry i fun e => { e with first_msg := m }).MsgTable j).pid = (g.MsgTable j).pid := by
    intro j
    rw [table_setEntry]
    split
    · subst j
      rfl
    · rfl
  refine inv_link hs hk rfl rfl (fun _ => ⟨rfl, rfl⟩) hpid ((hpid i).trans hp) (fun j hj => ?_) rfl rfl
    ⟨(hpid i).trans hp, by simp [State.setEntry], by rw [append_self, hnil]; rfl⟩
  exact (hs.closed j fun hc => hj (Option.some.inj hc).symm).congr (Function.update_of_ne hj _ _) fun _ _ => rfl

theorem inv_statement {t : MsgState} (h : s.Inv) (hc : s.Clear .statement) (ht : s.statement = some t) : t.Inv := by
  obtain ⟨chain, hs, hk⟩ := h
  obtain ⟨g, pc, tag, accepted, returned⟩ := s
  have hok := hs.ok
  cases pc with
  | idle => cases ht
  | find q i =>
    simp only [MsgState.statement] at ht
    split at ht <;> cases ht
    · split
      · exact inv_goto hs hk rfl rfl (Or.inl rfl) (by assumption)
      · exact inv_goto hs hk rfl rfl (Or.inl rfl) trivial
    · exact inv_goto hs hk rfl rfl (Or.inl rfl) trivial
  | first q i =>
    cases ht
    exact inv_goto hs hk rfl rfl (Or.inl rfl) ⟨hok, rfl⟩
  | copyType q i k =>
    cases ht
    exact inv_goto hs hk rfl rfl (Or.inl rfl) ⟨hok.1, hok.2, rfl⟩
  | copyMsg q i k type =>
    cases ht
    obtain ⟨hp, hf, htype⟩ := hok
    exact inv_goto hs hk rfl rfl (Or.inl rfl) ⟨hp, hf, congrArg (fun x => (⟨q, x, _⟩ : Accepted)) htype⟩
  | test q i k type msg =>
    obtain ⟨hp, hf, hst⟩ := hok
    simp only [MsgState.statement, Option.some.injEq] at ht
    subst ht
    split
    · exact inv_goto hs hk rfl rfl (Or.inl rfl) ⟨hp, hf, hst, by assumption⟩
    · exact inv_goto hs hk rfl rfl (Or.inl rfl) ⟨hp, hf, hst, by assumption⟩
  | drop q i k type msg => exact inv_drop hs hk rfl ht
  | next q i k type msg => exact inv_next hs hk rfl ht
  | free q k type msg => exact inv_free hs hk rfl ht
  | seek q m i =>
    simp only [MsgState.statement] at ht
    split at ht <;> cases ht
    · split
      · exact inv_goto hs hk rfl rfl (Or.inr rfl) (by assumption)
      · exact inv_goto hs hk rfl rfl (Or.inr rfl) trivial
    · exact inv_goto hs hk rfl rfl (Or.inr rfl) trivial
  | start q m i =>
    cases ht
    exact inv_goto hs hk rfl rfl (Or.inr rfl) ⟨hok, hs.first_mem nofun hok⟩
  | walk q m i t' =>
    obtain ⟨hp, hin⟩ := hok
    simp only [MsgState.statement, Option.some.injEq] at ht
    subst ht
    split
    · rename_i hn
      have hl := ((hs.closed i nofun).2 (hp ▸ cast_ne q)).2
      exact inv_goto hs hk rfl rfl (Or.inr rfl) ⟨hp, Lib.Linked.getLast_of_next hl hin hn⟩
    · exact inv_goto hs hk rfl rfl (Or.inr rfl) ⟨hp, hin, by assumption⟩
  | advance q m i t' =>
    obtain ⟨hp, hin, hnx⟩ := hok
    obtain ⟨n, hn⟩ := Option.ne_none_iff_exists'.1 hnx
    simp only [MsgState.statement, show (g.MsgQueue t').next_msg = some n from hn, Option.some.injEq] at ht
    subst ht
    have hl := ((hs.closed i nofun).2 (hp ▸ cast_ne q)).2
    exact inv_goto hs hk rfl rfl (Or.inr rfl) ⟨hp, Lib.Linked.next_mem hl hin hn⟩
  | link q m i t' => exact inv_linkLast hs hk rfl ht
  | endLink q m i =>
    obtain ⟨hp, hhead, hin, hl⟩ := hok
    cases ht
    exact inv_close hs hk rfl rfl hin hl hhead (hp ▸ cast_ne q)
  | vacant q m i =>
    have hi : i < MAX_PROCESS_NUMBER := hc
    simp only [MsgState.statement, dif_pos hi, Option.some.injEq] at ht
    subst ht
    split
    · exact inv_goto hs hk rfl rfl (Or.inr rfl) (by assumption)
    · exact inv_goto hs hk rfl rfl (Or.inr rfl) trivial
  | setPid q m i => exact inv_setPid hs hk rfl ht
  | setFirst q m i => exact inv_setFirst hs hk rfl ht
  | setNext q m i =>
    obtain ⟨hp, hf, hci⟩ := hok
    cases ht
    refine inv_close hs hk rfl rfl (by rw [hci]; exact List.mem_singleton_self m) ?_ (by rw [hci, hf]; rfl) (hp ▸ cast_ne q)
    rw [hci]
    exact ⟨Function.update_self .., trivial⟩

/-- **One step** that meets the condition keeps the invariant. -/
theorem inv_step {t : MsgState} {a : MsgAct} (h : s.Inv) (hc : s.Clear a) (ht : s.step a = some t) : t.Inv := by
  cases a with
  | getMsg q =>
    simp only [MsgState.step] at ht
    split at ht
    · rename_i hpc
      cases ht
      obtain ⟨chain, hs, hk⟩ := h
      exact inv_goto hs hk (by rw [hpc]; rfl) (by rw [hpc]; rfl) (Or.inl rfl) trivial
    · cases ht
  | createUpdateMsg q =>
    simp only [MsgState.step] at ht
    split at ht
    · exact inv_create h (by assumption) (requireMsg_allocates _ _ _ _ (show MSG_UPDATE ≠ MSG_UNUSED by decide)) ht
    · cases ht
  | createPartialUpdateMsg q x1 y1 x2 y2 =>
    simp only [MsgState.step] at ht
    split at ht
    · exact inv_create h (by assumption) (requirePartialUpdateMsg_allocates _ _ _ _) ht
    · cases ht
  | statement => exact inv_statement h hc ht
  | interrupt q type x y key =>
    simp only [MsgState.step, Option.ite_none_right_eq_some] at ht
    refine inv_interrupt h (requireMsg_allocates _ _ _ _ ?_) hc ht.2
    rcases ht.1 with rfl | rfl | rfl | rfl <;> decide

/-! ## Runs -/

theorem inv_init (hg : NoMessages g) : (MsgState.init g).Inv := by
  refine ⟨fun _ => [], ⟨fun _ => List.nodup_nil, nofun, nofun, fun i _ => ⟨fun _ => rfl, fun hp => absurd (hg.table i) hp⟩,
    trivial⟩, ⟨fun k => ?_, fun k p hk => ?_, fun k l p p' hk => ?_, nofun, List.nodup_nil, nofun⟩⟩
  · rw [show ((MsgState.init g).gui.MsgQueue k).msg_type = MSG_UNUSED from hg.queue k]
    simp [Owns, MsgState.init, Pc.out]
  all_goals
    rcases hk with ⟨i, hi, -⟩ | ⟨ho, -⟩
    · cases hi
    · cases ho

namespace MsgState

end MsgState

instance (s : MsgState) (pid : Nat) : Decidable (s.Apart pid) := by
  unfold MsgState.Apart
  obtain ⟨g, pc, _, _, _⟩ := s
  cases pc <;> infer_instance

instance (s : MsgState) (a : MsgAct) : Decidable (s.Clear a) := by
  obtain ⟨g, pc, _, _, _⟩ := s
  cases a with
  | statement => cases pc <;> unfold MsgState.Clear <;> infer_instance
  | getMsg _ | createUpdateMsg _ | createPartialUpdateMsg _ _ _ _ | interrupt _ _ _ _ _ =>
    unfold MsgState.Clear
    infer_instance

/-- The messages of a screen of one pixel. -/
def small : State := Gui.init 1 1 fun _ => 0

end NewXv6.Gui
