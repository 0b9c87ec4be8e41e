import NewXv6.Mouse.Model
import NewXv6.Gui.Bounds
import NewXv6.Lib.Path

/-!
# Clicks

The mouse as it sends whole packets. `held` counts the packets in a row in which the left button is down; a click is a
press that is held in one packet. `clicks` has the clicks so far, newest first: the message that was passed, if there was
one, and the tick.
-/

namespace NewXv6.Mouse

open Gui Lib

/-- A packet, and the tick its last byte comes at. -/
structure Packet where
  b₀ : UInt8
  b₁ : UInt8
  b₂ : UInt8
  tick : UInt32

/-- The left button is down. -/
def Packet.left (p : Packet) : Bool := p.b₀ &&& 0x01 ≠ 0

/-- A displacement of 127 pixels. -/
def Packet.large (p : Packet) : Bool :=
  largeDisplacement (displacement (p.b₀ &&& 0x10 ≠ 0) p.b₁) || largeDisplacement (displacement (p.b₀ &&& 0x20 ≠ 0) p.b₂)

/-- A packet with the right button up. -/
def Packet.Valid (p : Packet) : Prop := firstByte p.b₀ ∧ p.b₀ &&& 0x02 = 0 ∧ p.tick.toNat < 2 ^ 31

instance (p : Packet) : Decidable p.Valid := by
  unfold Packet.Valid
  infer_instance

/-- The three interrupts of a packet. -/
def packetintr (W H : Int) (s : Vars) (p : Packet) : Vars × Option MsgCall :=
  mouseintr W H (mouseintr W H (mouseintr W H s p.tick (some p.b₀)).1 p.tick (some p.b₁)).1 p.tick (some p.b₂)

def isClick (msg_type : Int) : Prop := msg_type = MSG_LPRESS ∨ msg_type = MSG_DOUBLECLICK

/-! ## Runs of packets -/

/-- The mouse and its clicks. -/
structure Clicks where
  mouse : Vars
  held : Nat
  clicks : List (Option Int × UInt32)
  now : UInt32

/-- The packet ends a click. -/
def Clicks.Ends (s : Clicks) (p : Packet) : Prop := s.held = 1 ∧ p.left = false

instance (s : Clicks) (p : Packet) : Decidable (s.Ends p) := by
  unfold Clicks.Ends
  infer_instance

def Clicks.step (W H : Int) (s : Clicks) (p : Packet) : Option Clicks :=
  if p.Valid ∧ s.now ≤ p.tick then
    let r := packetintr W H s.mouse p
    some {
      mouse := r.1
      held := if p.left then s.held + 1 else 0
      clicks := if s.Ends p then (r.2.map MsgCall.msg_type, p.tick) :: s.clicks else s.clicks
      now := p.tick }
  else none

/-- After boot, when the port has been empty. -/
def Clicks.boot : Clicks := ⟨{ init with state := 1 }, 0, [], 0⟩

/-- The packet is reported faithfully: a click once, as a double click only soon after a click, and the rest not at all. -/
structure Clicks.Faithful (s : Clicks) (p : Packet) (call : Option MsgCall) : Prop where
  once : s.Ends p → ∃ c, call = some c ∧ isClick c.msg_type
  double : ∀ c, call = some c → c.msg_type = MSG_DOUBLECLICK →
    ∃ t rest, s.clicks = (some MSG_LPRESS, t) :: rest ∧ p.tick.toNat ≤ t.toNat + 30
  held : ¬s.Ends p → ∀ c, call = some c → ¬isClick c.msg_type

/-- A packet that ends a click has no displacement of 127 pixels; the first click is not too early after boot, and no
first click or click after a double click so late that the ticks overflow. -/
structure Clicks.Clear (s : Clicks) (p : Packet) : Prop where
  small : s.Ends p → p.large = false
  first : s.Ends p → s.clicks = [] → 10 < p.tick.toNat ∧ p.tick.toNat < 2 ^ 31 - 20
  again : s.Ends p → ∀ t rest, s.clicks = (some MSG_DOUBLECLICK, t) :: rest → 0 < p.tick.toNat ∧ p.tick.toNat < 2 ^ 31 - 30

/-- What `left_click_tick` is. -/
def Since (clicks : List (Option Int × UInt32)) (now : UInt32) (left_click_tick : Int) : Prop :=
  match clicks with
  | [] => left_click_tick = -20
  | (e, t) :: _ => e = some MSG_LPRESS ∧ left_click_tick = t.toNat ∧ t ≤ now ∨ e = some MSG_DOUBLECLICK ∧ left_click_tick = -30

/-- The buttons of the mouse and its clicks. -/
structure Clicks.Good (s : Clicks) : Prop where
  state : s.mouse.state = 1
  right : s.mouse.right_already_down = false
  left : s.mouse.left_already_down = decide (0 < s.held)
  dragging : s.mouse.is_dragging = decide (1 < s.held)
  since : Since s.clicks s.now s.mouse.left_click_tick

section Packets

variable {W H : Int} {s t : Clicks} {p : Packet} {tr : List Packet}

/-- A double click, from the ticks. -/
def soon (tick : UInt32) (left_click_tick : Int) : Prop := int (tick.toNat - left_click_tick) ≤ DOUBLE_CLICK_DELAY

instance (tick : UInt32) (left_click_tick : Int) : Decidable (soon tick left_click_tick) := by
  unfold soon
  infer_instance

/-- The message of a packet. -/
def Clicks.message (s : Clicks) (p : Packet) : Int :=
  if s.held = 0 then MSG_MOVE
  else if p.left then MSG_DRAG
  else if 1 < s.held then MSG_NONE
  else if soon p.tick s.mouse.left_click_tick then MSG_DOUBLECLICK
  else MSG_LPRESS

/-- What a packet does to the buttons, and its message. -/
structure Received (s : Clicks) (p : Packet) (r : Vars × Option MsgCall) : Prop where
  state : r.1.state = 1
  right : r.1.right_already_down = false
  left : r.1.left_already_down = p.left
  dragging : r.1.is_dragging = (p.left && decide (0 < s.held))
  tick : r.1.left_click_tick = if s.Ends p then
    (if soon p.tick s.mouse.left_click_tick then -30 else int p.tick.toNat) else s.mouse.left_click_tick
  call : r.2.map MsgCall.msg_type = if p.large then none else some (s.message p)

/-- The three bytes of a packet: what is known of the mouse when the buttons are looked at. -/
theorem packetintr_eq (W H : Int) {m : Vars} (hstate : m.state = 1) (hfirst : firstByte p.b₀) :
    ∃ u : Vars, packetintr W H m p = complete u p.tick ∧ u.state = 1 ∧ u.left_down = p.left ∧
      u.right_down = (p.b₀ &&& 0x02 ≠ 0 : Bool) ∧ u.left_already_down = m.left_already_down ∧
      u.right_already_down = m.right_already_down ∧ u.is_dragging = m.is_dragging ∧
      u.left_click_tick = m.left_click_tick ∧
      (u.x_large_dispalecement || u.y_large_dispalecement) = p.large := by
  refine ⟨{ m with
    left_down := p.left
    right_down := p.b₀ &&& 0x02 ≠ 0
    x_sign := p.b₀ &&& 0x10 ≠ 0
    y_sign := p.b₀ &&& 0x20 ≠ 0
    x_large_dispalecement := largeDisplacement (displacement (p.b₀ &&& 0x10 ≠ 0) p.b₁)
    x_position := clamp W SIZE_X_MOUSE (m.x_position + displacement (p.b₀ &&& 0x10 ≠ 0) p.b₁)
    y_large_dispalecement := largeDisplacement (displacement (p.b₀ &&& 0x20 ≠ 0) p.b₂)
    y_position := clamp H SIZE_Y_MOUSE (m.y_position - displacement (p.b₀ &&& 0x20 ≠ 0) p.b₂)
    state := 1 }, ?_, rfl, rfl, rfl, rfl, rfl, rfl, rfl, rfl⟩
  unfold packetintr
  simp only [mouseintr, hstate, hfirst, if_true]
  rfl

/-- The message, from what a packet does to the buttons. -/
theorem complete_call_type (u : Vars) (tick : UInt32) : (complete u tick).2.map MsgCall.msg_type =
    if u.x_large_dispalecement || u.y_large_dispalecement then none else some (msgType (buttons u tick).1) := by
  obtain ⟨a, b, c, d, h⟩ := buttons_rest u tick
  unfold complete
  dsimp only
  rw [h]
  cases u.x_large_dispalecement <;> cases u.y_large_dispalecement <;> rfl

theorem packetintr_received (W H : Int) (hs : s.Good) (hp : p.Valid) : Received s p (packetintr W H s.mouse p) := by
  obtain ⟨u, hu, hstate, hdown, hright, hl, hr, hd, htick, hlarge⟩ := packetintr_eq W H hs.state hp.1
  rw [hs.left] at hl
  rw [hs.right] at hr
  rw [hs.dragging] at hd
  simp only [hp.2.1, ne_eq, not_true_eq_false, decide_false] at hright
  have hcall := complete_call_type u p.tick
  rw [hlarge] at hcall
  rw [hu]
  have hstate' : (complete u p.tick).1.state = 1 := by
    obtain ⟨a, b, c, d, h⟩ := buttons_rest u p.tick
    show (buttons u p.tick).2.state = 1
    rw [h]
    exact hstate
  -- no press before, a press in one packet, a press that has been held
  have hcases : s.held = 0 ∨ s.held = 1 ∨ 1 < s.held := by omega
  rcases hcases with h | h | h
  · cases hleft : p.left with
    | true =>
      have hb : buttons u p.tick = (.none, { u with left_already_down := true }) := by
        simp [buttons, hl, hr, hdown, hleft, h]
      rw [hb] at hcall
      refine ⟨hstate', ?_, ?_, ?_, ?_, hcall.trans ?_⟩ <;>
      simp [complete, hb, h, hr, hd, htick, hleft, Clicks.Ends, Clicks.message, msgType]
    | false =>
      have hb : buttons u p.tick = (.none, u) := by simp [buttons, hl, hr, hdown, hright, hleft, h]
      rw [hb] at hcall
      refine ⟨hstate', ?_, ?_, ?_, ?_, hcall.trans ?_⟩ <;>
      simp [complete, hb, h, hl, hr, hd, htick, hleft, Clicks.Ends, Clicks.message, msgType]
  · cases hleft : p.left with
    | true =>
      have hb : buttons u p.tick = (.DRAGGING, { u with is_dragging := true }) := by simp [buttons, hl, hdown, hleft, h]
      rw [hb] at hcall
      refine ⟨hstate', ?_, ?_, ?_, ?_, hcall.trans ?_⟩ <;>
      simp [complete, hb, h, hl, hr, htick, hleft, Clicks.Ends, Clicks.message, msgType]
    | false =>
      by_cases hsoon : soon p.tick s.mouse.left_click_tick
      · have hb : buttons u p.tick = (.DOUBLE_CLICK, { u with left_click_tick := -30, left_already_down := false }) := by
          have := hsoon
          unfold soon at this
          simp [buttons, hl, hdown, hd, hleft, h, htick, this]
        rw [hb] at hcall
        refine ⟨hstate', ?_, ?_, ?_, ?_, hcall.trans ?_⟩ <;>
        simp [complete, hb, h, hr, hd, hleft, Clicks.Ends, Clicks.message, msgType, hsoon]
      · have hb : buttons u p.tick = (.LEFT_CLICK, { u with
            left_click_tick := int p.tick.toNat
            left_already_down := false }) := by
          have := hsoon
          unfold soon at this
          simp [buttons, hl, hdown, hd, hleft, h, htick, lt_of_not_ge this]
        rw [hb] at hcall
        refine ⟨hstate', ?_, ?_, ?_, ?_, hcall.trans ?_⟩ <;>
        simp [complete, hb, h, hr, hd, hleft, Clicks.Ends, Clicks.message, msgType, hsoon]
  · have h0 : 0 < s.held := by omega
    have h1 : s.held ≠ 1 := by omega
    cases hleft : p.left with
    | true =>
      have hb : buttons u p.tick = (.DRAGGING, { u with is_dragging := true }) := by simp [buttons, hl, hdown, hleft, h0]
      rw [hb] at hcall
      refine ⟨hstate', ?_, ?_, ?_, ?_, hcall.trans ?_⟩ <;>
      simp [complete, hb, h0, h1, h0.ne', hl, hr, htick, hleft, Clicks.Ends, Clicks.message, msgType]
    | false =>
      have hb : buttons u p.tick = (.DRAG_RELEASE, { u with is_dragging := false, left_already_down := false }) := by
        simp [buttons, hl, hdown, hd, hleft, h0, h]
      rw [hb] at hcall
      refine ⟨hstate', ?_, ?_, ?_, ?_, hcall.trans ?_⟩ <;>
      simp [complete, hb, h, h0, h1, h0.ne', hr, htick, hleft, Clicks.Ends, Clicks.message, msgType]

/-- A double click, from the clicks so far. -/
theorem soon_iff {left_click_tick : Int} {now tick : UInt32} {clicks : List (Option Int × UInt32)}
    (h : Since clicks now left_click_tick) (hnow : now ≤ tick) (htick : tick.toNat < 2 ^ 31) : soon tick left_click_tick ↔ match clicks with
      | [] => tick.toNat ≤ 10 ∨ 2 ^ 31 - 20 ≤ tick.toNat
      | (e, t) :: _ => e = some MSG_LPRESS ∧ tick.toNat ≤ t.toNat + 30 ∨
        e = some MSG_DOUBLECLICK ∧ (tick.toNat = 0 ∨ 2 ^ 31 - 30 ≤ tick.toNat) := by
  unfold soon int Int.bmod DOUBLE_CLICK_DELAY
  cases clicks with
  | nil =>
    have hl : left_click_tick = -20 := h
    rw [hl]
    dsimp only
    split <;> omega
  | cons c rest =>
    obtain ⟨e, t⟩ := c
    rcases h with ⟨rfl, rfl, ht⟩ | ⟨rfl, rfl⟩
    · have ht' := UInt32.le_iff_toNat_le.1 ht
      have hnow' := UInt32.le_iff_toNat_le.1 hnow
      simp only [true_and, Option.some.injEq, show (MSG_LPRESS = MSG_DOUBLECLICK) = False by decide, false_and, or_false]
      split <;> omega
    · simp only [true_and, Option.some.injEq, show (MSG_DOUBLECLICK = MSG_LPRESS) = False by decide, false_and, false_or]
      split <;> omega

/-- The message that is passed. -/
theorem Received.passed {r : Vars × Option MsgCall} (h : Received s p r) {c : MsgCall} (hc : r.2 = some c) :
    p.large = false ∧ c.msg_type = s.message p := by
  have hcall := h.call
  rw [hc] at hcall
  cases hlarge : p.large with
  | true =>
    rw [hlarge] at hcall
    cases hcall
  | false =>
    rw [hlarge] at hcall
    exact ⟨rfl, Option.some.inj hcall⟩

theorem Received.pass {r : Vars × Option MsgCall} (h : Received s p r) (hlarge : p.large = false) :
    ∃ c, r.2 = some c ∧ c.msg_type = s.message p := by
  have hcall := h.call
  rw [hlarge] at hcall
  exact Option.map_eq_some_iff.1 hcall

/-- The message of a packet that ends a click. -/
theorem Clicks.Ends.message (h : s.Ends p) : s.message p =
    if soon p.tick s.mouse.left_click_tick then MSG_DOUBLECLICK else MSG_LPRESS := by
  unfold Clicks.message
  obtain ⟨hheld, hleft⟩ := h
  simp only [hheld, hleft]
  rfl

theorem not_ends_message (h : ¬s.Ends p) : ¬isClick (s.message p) := by
  unfold Clicks.message isClick
  by_cases h0 : s.held = 0
  · rw [if_pos h0]
    decide
  · rw [if_neg h0]
    cases hleft : p.left with
    | true =>
      rw [if_pos rfl]
      decide
    | false =>
      have h1 : 1 < s.held := by
        have : s.held ≠ 1 := fun h1 => h ⟨h1, hleft⟩
        omega
      rw [if_neg Bool.false_ne_true, if_pos h1]
      decide

/-- **A packet is reported faithfully** if and only if it meets the condition. -/
theorem faithful_iff (W H : Int) (hs : s.Good) (hp : p.Valid) (hnow : s.now ≤ p.tick) :
    s.Faithful p (packetintr W H s.mouse p).2 ↔ s.Clear p := by
  have hr := packetintr_received W H hs hp
  have hsoon := soon_iff hs.since hnow hp.2.2
  generalize packetintr W H s.mouse p = r at hr ⊢
  by_cases hends : s.Ends p
  · have hmessage := hends.message
    constructor
    · intro hf
      obtain ⟨c, hc, -⟩ := hf.once hends
      obtain ⟨hlarge, hc'⟩ := hr.passed hc
      -- a double click comes after a click
      have hdouble : soon p.tick s.mouse.left_click_tick → ∃ t rest, s.clicks = (some MSG_LPRESS, t) :: rest ∧
          p.tick.toNat ≤ t.toNat + 30 := fun h => hf.double c hc (by rw [hc', hmessage, if_pos h])
      refine ⟨fun _ => hlarge, fun _ hnil => ?_, fun _ t rest hcons => ?_⟩
      · rw [hnil] at hsoon hdouble
        by_contra hout
        obtain ⟨t, rest, h, -⟩ := hdouble (hsoon.2 (by omega))
        cases h
      · rw [hcons] at hsoon hdouble
        by_contra hout
        obtain ⟨t', rest', h, -⟩ := hdouble (hsoon.2 (Or.inr ⟨rfl, by omega⟩))
        cases h
    · intro hclear
      refine ⟨fun _ => ?_, fun c hc hdouble => ?_, fun h => absurd hends h⟩
      · obtain ⟨c, hc, hc'⟩ := hr.pass (hclear.small hends)
        refine ⟨c, hc, ?_⟩
        rw [hc', hmessage]
        split
        · exact Or.inr rfl
        · exact Or.inl rfl
      · rw [(hr.passed hc).2, hmessage] at hdouble
        have h : soon p.tick s.mouse.left_click_tick := by
          by_contra hn
          rw [if_neg hn] at hdouble
          cases hdouble
        rw [hsoon] at h
        cases hclicks : s.clicks with
        | nil =>
          rw [hclicks] at h
          have := hclear.first hends hclicks
          dsimp only at h
          omega
        | cons e rest =>
          obtain ⟨e, t⟩ := e
          rw [hclicks] at h
          rcases h with ⟨rfl, ht⟩ | ⟨rfl, ht⟩
          · exact ⟨t, rest, rfl, ht⟩
          · have := hclear.again hends t rest hclicks
            omega
  · refine iff_of_true ⟨fun h => absurd h hends, fun c hc hdouble => ?_, fun _ c hc => ?_⟩
      ⟨fun h => absurd h hends, fun h => absurd h hends, fun h => absurd h hends⟩
    · refine absurd (Or.inr ?_) (not_ends_message hends)
      rw [← (hr.passed hc).2]
      exact hdouble
    · rw [(hr.passed hc).2]
      exact not_ends_message hends

theorem clicks_boot_good : Clicks.boot.Good := ⟨rfl, rfl, rfl, rfl, rfl⟩

/-- A packet that meets the condition. -/
theorem Clicks.Good.step (hs : s.Good) (hc : s.Clear p) (h : s.step W H p = some t) : t.Good := by
  simp only [Clicks.step, Option.ite_none_right_eq_some, Option.some.injEq] at h
  obtain ⟨⟨hp, hnow⟩, rfl⟩ := h
  have hr := packetintr_received W H hs hp
  refine ⟨hr.state, hr.right, ?_, ?_, ?_⟩
  · rw [hr.left]
    cases p.left <;> simp
  · rw [hr.dragging]
    cases p.left <;> simp
  · show Since _ p.tick (packetintr W H s.mouse p).1.left_click_tick
    rw [hr.tick, hr.call]
    by_cases hends : s.Ends p
    · rw [if_pos hends, if_pos hends, hc.small hends, hends.message]
      by_cases hsoon : soon p.tick s.mouse.left_click_tick
      · simp only [hsoon, if_true]
        exact Or.inr ⟨rfl, rfl⟩
      · simp only [hsoon, if_false]
        have := hp.2.2
        exact Or.inl ⟨rfl, int_of_range (by omega) (by omega), UInt32.le_refl _⟩
    · rw [if_neg hends, if_neg hends]
      have hsince := hs.since
      cases hclicks : s.clicks with
      | nil =>
        rw [hclicks] at hsince
        exact hsince
      | cons e rest =>
        rw [hclicks] at hsince
        exact hsince.imp (fun h => ⟨h.1, h.2.1, UInt32.le_trans h.2.2 hnow⟩) id

/-- **Clicks are reported faithfully**: after packets that meet the condition, a packet is reported faithfully if and only
if it meets the condition too. -/
theorem clicks_faithful (W H : Int) (tr : List Packet) (s : Clicks) (p : Packet)
    (h : Path (Clicks.step W H) Clicks.Clear .boot tr s) (hp : p.Valid) (hnow : s.now ≤ p.tick) :
    s.Faithful p (packetintr W H s.mouse p).2 ↔ s.Clear p :=
  faithful_iff W H (h.invariant Clicks.Good clicks_boot_good fun _ _ _ hs hc ha => hs.step hc ha) hp hnow

theorem clicks_faithful_press : ∃ s, Path (Clicks.step 800 600) Clicks.Clear .boot [⟨9, 0, 0, 20⟩] s ∧
    (s.Faithful ⟨8, 0, 0, 20⟩ (packetintr 800 600 s.mouse ⟨8, 0, 0, 20⟩).2 ↔ s.Clear ⟨8, 0, 0, 20⟩) := by
  have hpath : Path (Clicks.step 800 600) Clicks.Clear .boot [⟨9, 0, 0, 20⟩] _ :=
    .snoc .nil ⟨nofun, nofun, nofun⟩ rfl
  exact ⟨_, hpath, clicks_faithful 800 600 _ _ _ hpath (by decide) (by decide)⟩

/-- A first click at tick 5 is passed as a double click, and a click at tick 100 whose last packet moves the mouse by 127
pixels is not passed. -/
theorem clicks_unfaithful :
    (∃ s, run (Clicks.step 800 600) .boot [⟨9, 0, 0, 5⟩] = some s ∧ Packet.Valid ⟨8, 0, 0, 5⟩ ∧ s.now ≤ 5 ∧
      ¬s.Faithful ⟨8, 0, 0, 5⟩ (packetintr 800 600 s.mouse ⟨8, 0, 0, 5⟩).2) ∧
    ∃ s, run (Clicks.step 800 600) .boot [⟨9, 0, 0, 100⟩] = some s ∧ Packet.Valid ⟨8, 127, 0, 100⟩ ∧ s.now ≤ 100 ∧
      ¬s.Faithful ⟨8, 127, 0, 100⟩ (packetintr 800 600 s.mouse ⟨8, 127, 0, 100⟩).2 := by
  refine ⟨⟨_, rfl, by decide, by decide, fun h => ?_⟩, ⟨_, rfl, by decide, by decide, fun h => ?_⟩⟩
  · obtain ⟨t, rest, hclicks, -⟩ := h.double _ rfl rfl
    cases hclicks
  · obtain ⟨c, hc, -⟩ := h.once ⟨rfl, rfl⟩
    cases hc

end Packets

end NewXv6.Mouse
