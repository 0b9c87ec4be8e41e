import NewXv6.Lib.Path
import Mathlib.Logic.Function.Basic
import Mathlib.Algebra.Group.Nat.Defs
import Mathlib.Data.UInt

/-!
# The disk driver (`ide.c`)

Any number of processes call `iderw`, the drive works on one command at a time and may report an error, and an interrupt may
come at any time. A step is a section under `idelock`, or the end of a command. `idewait` waits until the drive is no longer
busy: a section that waits for the drive is a step that is taken then.

Each buffer of a process in `iderw` is busy and has a sector of its own: this is what `bget` promises (`Promised`).
-/

namespace NewXv6.Ide

open Lib

/-- A device and a sector. -/
abbrev SectorId : Type := Nat × Nat

/-- `struct buf`: `B_BUSY`, `B_VALID` and `B_DIRTY` are the flags. -/
structure Buf (Data : Type) where
  dev : UInt32
  sector : UInt32
  busy : Bool
  valid : Bool
  dirty : Bool
  data : Data

/-- A command of the drive. -/
inductive Cmd (Data : Type)
  | read (lba : SectorId)
  | write (lba : SectorId) (data : Data)

/-- The drive: the command it is busy with, whether it reports `IDE_DF` or `IDE_ERR`, and what `insl` reads. -/
structure Drive (Data : Type) where
  cmd : Option (Cmd Data)
  error : Bool
  out : Data

/-- The panics of `iderw`. -/
inductive Panic
  | notBusy
  | nothingToDo
  | disk1NotPresent
  deriving DecidableEq

section Buf

variable {Data : Type}

/-- The sector a buffer is for. -/
def Buf.id (b : Buf Data) : SectorId := (b.dev.toNat, b.sector.toNat)

/-- The sector `idestart` names to the drive: one bit of the device and 28 bits of the sector. -/
def Buf.lba (b : Buf Data) : SectorId := (b.dev.toNat % 2, b.sector.toNat % 2 ^ 28)

/-- What `iderw` waits for: `(b->flags & (B_VALID|B_DIRTY)) == B_VALID`. -/
def Buf.done (b : Buf Data) : Bool := b.valid && !b.dirty

def Buf.command (b : Buf Data) : Cmd Data := if b.dirty then .write b.lba b.data else .read b.lba

/-- The checks of `iderw`. -/
def Buf.refused (havedisk1 : Bool) (b : Buf Data) : Option Panic :=
  if !b.busy then some .notBusy
  else if b.done then some .nothingToDo
  else if b.dev ≠ 0 && !havedisk1 then some .disk1NotPresent
  else none

end Buf

/-- `pc` has the buffer of a process that is in `iderw`, and what was in it at the call. `arrived` and `removed` are the
buffers that were put into and taken out of `idequeue`. -/
structure State (Proc B Data : Type) where
  buf : B → Buf Data
  idequeue : List B
  drive : Drive Data
  disk : SectorId → Data
  pc : Proc → Option (B × Buf Data)
  arrived : List B
  removed : List B

/-- A process calls `iderw` with a buffer, or looks at it again; the drive is done with a command; an interrupt. -/
inductive Act (Proc B Data : Type)
  | call (pid : Proc) (b : B) (buf : Buf Data)
  | wake (pid : Proc)
  | finish (ok : Bool)
  | intr

section

variable {Proc B Data : Type} [DecidableEq Proc] [DecidableEq B] (havedisk1 : Bool)

/-- `idestart` waits until the drive is ready. -/
def idestart (s : State Proc B Data) (b : B) : Option (State Proc B Data) :=
  match s.drive.cmd with
  | some _ => none
  | none => some { s with drive := { s.drive with cmd := some (s.buf b).command, error := false } }

def ideintr (s : State Proc B Data) : Option (State Proc B Data) :=
  match s.idequeue with
  | [] => some s
  | b :: rest =>
    let buf := s.buf b
    -- `idewait(1)`
    if !buf.dirty && s.drive.cmd.isSome then none
    else
      let data := if !buf.dirty && !s.drive.error then s.drive.out else buf.data
      let s' := { s with
        buf := Function.update s.buf b { buf with data, valid := true, dirty := false }
        idequeue := rest
        removed := s.removed ++ [b] }
      match rest with
      | [] => some s'
      | c :: _ => idestart s' c

/-- `iderw` up to its `sleep`. -/
def iderw (s : State Proc B Data) (pid : Proc) (b : B) (buf : Buf Data) : Option (State Proc B Data) :=
  match buf.refused havedisk1 with
  | some _ => none
  | none =>
    let s' := { s with
      buf := Function.update s.buf b buf
      idequeue := s.idequeue ++ [b]
      pc := Function.update s.pc pid (some (b, buf))
      arrived := s.arrived ++ [b] }
    match s.idequeue with
    | [] => idestart s' b
    | _ :: _ => some s'

/-- The drive ends its command. -/
def finish (s : State Proc B Data) (ok : Bool) : Option (State Proc B Data) :=
  match s.drive.cmd, ok with
  | none, _ => none
  | some _, false => some { s with drive := { s.drive with cmd := none, error := true } }
  | some (.read lba), true => some { s with drive := { cmd := none, error := false, out := s.disk lba } }
  | some (.write lba data), true =>
    some { s with drive := { s.drive with cmd := none, error := false }, disk := Function.update s.disk lba data }

def step (s : State Proc B Data) : Act Proc B Data → Option (State Proc B Data)
  | .call pid b buf =>
    match s.pc pid with
    | some _ => none
    | none => iderw havedisk1 s pid b buf
  | .wake pid =>
    match s.pc pid with
    | none => none
    | some (b, _) => if (s.buf b).done then some { s with pc := Function.update s.pc pid none } else some s
  | .finish ok => finish s ok
  | .intr => ideintr s

end

section

variable {Proc B Data : Type}

/-- What the callers promise: no two of them have the same buffer or the same sector. -/
def Promised (s : State Proc B Data) : Act Proc B Data → Prop
  | .call _ b buf => ∀ q c req, s.pc q = some (c, req) → c ≠ b ∧ req.id ≠ buf.id
  | _ => True

/-- Where the driver works: sectors that the drive can be asked for, and interrupts after the drive is done with the command
and without an error. -/
def Sound (s : State Proc B Data) : Act Proc B Data → Prop
  | .call _ _ buf => buf.dev < 2 ∧ buf.sector < 2 ^ 28
  | .intr => s.idequeue ≠ [] → s.drive.cmd = none ∧ s.drive.error = false
  | _ => True

/-- One request at a time, in the order they came. -/
def InOrder (s : State Proc B Data) : Prop :=
  s.arrived = s.removed ++ s.idequeue ∧ s.idequeue.Nodup ∧
    ∀ c, s.drive.cmd = some c → ∃ b rest, s.idequeue = b :: rest ∧ c = (s.buf b).command

/-- A process in `iderw` whose buffer is valid has what is on the disk, and on the disk is what was to be written. -/
def RightData (s : State Proc B Data) : Prop :=
  ∀ pid b req, s.pc pid = some (b, req) → (s.buf b).done = true →
    s.disk req.id = (s.buf b).data ∧ (req.dirty = true → (s.buf b).data = req.data)

/-- What holds of the queue and the processes. -/
structure Waits (s : State Proc B Data) : Prop where
  order : s.arrived = s.removed ++ s.idequeue
  nodup : s.idequeue.Nodup
  apart : ∀ p q b c r r', s.pc p = some (b, r) → s.pc q = some (c, r') → p ≠ q → b ≠ c ∧ r.id ≠ r'.id
  request : ∀ p b r, s.pc p = some (b, r) → r.done = false ∧ r.lba = r.id
  queued : ∀ b ∈ s.idequeue, ∃ p, s.pc p = some (b, s.buf b)
  done : ∀ p b r, s.pc p = some (b, r) → b ∈ s.idequeue ∨
    (s.disk r.id = (s.buf b).data ∧ (r.dirty = true → (s.buf b).data = r.data))

/-- What holds of the drive: it is busy with the first buffer of the queue, or done with it. -/
structure Drives (s : State Proc B Data) : Prop where
  busy : ∀ c, s.drive.cmd = some c → ∃ b rest, s.idequeue = b :: rest ∧ c = (s.buf b).command
  ready : ∀ b rest, s.idequeue = b :: rest → s.drive.cmd = none → s.drive.error = false →
    if (s.buf b).dirty then s.disk (s.buf b).lba = (s.buf b).data else s.drive.out = s.disk (s.buf b).lba

variable {s t : State Proc B Data} {havedisk1 : Bool}

theorem lba_eq_id {buf : Buf Data} (hdev : buf.dev < 2) (hsector : buf.sector < 2 ^ 28) : buf.lba = buf.id := by
  have hdev' : buf.dev.toNat < 2 := UInt32.lt_iff_toNat_lt.1 hdev
  have hsector' : buf.sector.toNat < 2 ^ 28 := UInt32.lt_iff_toNat_lt.1 hsector
  unfold Buf.lba Buf.id
  rw [Nat.mod_eq_of_lt hdev', Nat.mod_eq_of_lt hsector']

theorem command_write {buf : Buf Data} {lba : SectorId} {data : Data} (h : Cmd.write lba data = buf.command) :
    buf.dirty = true ∧ lba = buf.lba ∧ data = buf.data := by
  unfold Buf.command at h
  split at h
  · next hdirty =>
    cases h
    exact ⟨hdirty, rfl, rfl⟩
  · cases h

theorem command_read {buf : Buf Data} {lba : SectorId} (h : Cmd.read lba = buf.command) :
    buf.dirty = false ∧ lba = buf.lba := by
  unfold Buf.command at h
  split at h
  · cases h
  · next hdirty =>
    cases h
    exact ⟨Bool.eq_false_iff.2 hdirty, rfl⟩

theorem idestart_some {b : B} : idestart s b = some t ↔
    s.drive.cmd = none ∧ t = { s with drive := { s.drive with cmd := some (s.buf b).command, error := false } } := by
  unfold idestart
  cases hcmd : s.drive.cmd with
  | none => simp [eq_comm]
  | some c => simp

/-- A drive that starts on the first buffer. -/
theorem Drives.started {b : B} {rest : List B} (hq : s.idequeue = b :: rest) :
    Drives { s with drive := { s.drive with cmd := some (s.buf b).command, error := false } } := by
  refine ⟨fun c hc => ⟨b, rest, hq, ?_⟩, nofun⟩
  cases hc
  rfl

/-- A process of a buffer in the queue is the only one with this buffer. -/
theorem Waits.alone (h : Waits s) {b : B} (hb : b ∈ s.idequeue) {p : Proc} {r : Buf Data} (hp : s.pc p = some (b, r)) :
    r = s.buf b := by
  obtain ⟨q, hq⟩ := h.queued b hb
  have hpq : p = q := by
    by_contra hne
    exact (h.apart p q b b r _ hp hq hne).1 rfl
  subst hpq
  rw [hp] at hq
  cases hq
  rfl

theorem Waits.right (h : Waits s) : RightData s := by
  intro p b r hp hdone
  rcases h.done p b r hp with hb | hright
  · have hr := h.alone hb hp
    have hopen := (h.request p b r hp).1
    rw [hr, hdone] at hopen
    cases hopen
  · exact hright

theorem Waits.inOrder (h : Waits s) (hd : Drives s) : InOrder s := ⟨h.order, h.nodup, hd.busy⟩

/-- The first buffer of the queue is written. -/
theorem Waits.written (h : Waits s) {b : B} {rest : List B} (hq : s.idequeue = b :: rest) :
    Waits { s with disk := Function.update s.disk (s.buf b).lba (s.buf b).data } := by
  refine ⟨h.order, h.nodup, h.apart, h.request, h.queued, fun p c r hp => ?_⟩
  rcases h.done p c r hp with hc | hright
  · exact .inl hc
  · by_cases hc : c ∈ s.idequeue
    · exact .inl hc
    · -- another process waits for `b`, and for another sector
      obtain ⟨q, hpq⟩ := h.queued b (hq ▸ List.mem_cons_self)
      have hne : p ≠ q := by
        rintro rfl
        rw [hp] at hpq
        cases hpq
        exact hc (hq ▸ List.mem_cons_self)
      have hid := (h.apart p q c b r _ hp hpq hne).2
      rw [← (h.request q b _ hpq).2] at hid
      refine .inr ?_
      show Function.update s.disk (s.buf b).lba (s.buf b).data r.id = _ ∧ _
      rw [Function.update_of_ne hid]
      exact hright

variable [DecidableEq Proc] [DecidableEq B]

/-- The state in which `iderw` has put its buffer into the queue. -/
theorem Waits.call (h : Waits s) {pid : Proc} {b : B} {buf : Buf Data} (hpc : s.pc pid = none)
    (hpromised : ∀ q c req, s.pc q = some (c, req) → c ≠ b ∧ req.id ≠ buf.id) (hdone : buf.done = false)
    (hlba : buf.lba = buf.id) :
    Waits { s with
      buf := Function.update s.buf b buf, idequeue := s.idequeue ++ [b],
      pc := Function.update s.pc pid (some (b, buf)), arrived := s.arrived ++ [b] } := by
  have hnew : b ∉ s.idequeue := fun hb => by
    obtain ⟨q, hq⟩ := h.queued b hb
    exact (hpromised q b _ hq).1 rfl
  -- a process that has a buffer is not `pid`
  have hcases : ∀ q c r, Function.update s.pc pid (some (b, buf)) q = some (c, r) →
      q = pid ∧ c = b ∧ r = buf ∨ q ≠ pid ∧ s.pc q = some (c, r) := by
    intro q c r hq
    by_cases hqp : q = pid
    · subst hqp
      rw [Function.update_self] at hq
      cases hq
      exact .inl ⟨rfl, rfl, rfl⟩
    · rw [Function.update_of_ne hqp] at hq
      exact .inr ⟨hqp, hq⟩
  refine ⟨?_, ?_, fun p q c d r r' hp hq hne => ?_, fun p c r hp => ?_, fun c hc => ?_, fun p c r hp => ?_⟩
  · show s.arrived ++ [b] = s.removed ++ (s.idequeue ++ [b])
    rw [h.order, List.append_assoc]
  · exact List.nodup_append.2 ⟨h.nodup, List.pairwise_singleton _ b, fun x hx y hy => by
      rw [List.mem_singleton.1 hy]
      rintro rfl
      exact hnew hx⟩
  · rcases hcases p c r hp with ⟨rfl, rfl, rfl⟩ | ⟨_, hp⟩ <;> rcases hcases q d r' hq with ⟨rfl, rfl, rfl⟩ | ⟨_, hq⟩
    · exact absurd rfl hne
    · obtain ⟨h₁, h₂⟩ := hpromised q d r' hq
      exact ⟨h₁.symm, h₂.symm⟩
    · exact hpromised p c r (by assumption)
    · exact h.apart p q c d r r' hp hq hne
  · rcases hcases p c r hp with ⟨rfl, rfl, rfl⟩ | ⟨_, hp⟩
    · exact ⟨hdone, hlba⟩
    · exact h.request p c r hp
  · rcases List.mem_append.1 hc with hc | hc
    · obtain ⟨q, hq⟩ := h.queued c hc
      have hqp : q ≠ pid := by
        rintro rfl
        rw [hpc] at hq
        cases hq
      have hcb : c ≠ b := (hpromised q c _ hq).1
      refine ⟨q, ?_⟩
      show Function.update s.pc pid _ q = some (c, Function.update s.buf b buf c)
      rw [Function.update_of_ne hqp, Function.update_of_ne hcb]
      exact hq
    · rw [List.mem_singleton.1 hc]
      refine ⟨pid, ?_⟩
      show Function.update s.pc pid _ pid = some (b, Function.update s.buf b buf b)
      rw [Function.update_self, Function.update_self]
  · rcases hcases p c r hp with ⟨rfl, rfl, rfl⟩ | ⟨_, hp⟩
    · exact .inl (List.mem_append_right _ (List.mem_singleton.2 rfl))
    · rcases h.done p c r hp with hc | hright
      · exact .inl (List.mem_append_left _ hc)
      · refine .inr ?_
        show s.disk r.id = (Function.update s.buf b buf c).data ∧ (r.dirty = true → (Function.update s.buf b buf c).data = r.data)
        rw [Function.update_of_ne (hpromised p c r hp).1]
        exact hright

omit [DecidableEq Proc] in
/-- The buffer that the interrupt takes out of the queue has its data. -/
theorem Waits.remove (h : Waits s) (hd : Drives s) {b : B} {rest : List B} (hq : s.idequeue = b :: rest)
    (hcmd : s.drive.cmd = none) (herr : s.drive.error = false) :
    Waits { s with
      buf := Function.update s.buf b { s.buf b with
        data := if !(s.buf b).dirty && !s.drive.error then s.drive.out else (s.buf b).data, valid := true, dirty := false }
      idequeue := rest, removed := s.removed ++ [b] } := by
  have hnodup := h.nodup
  rw [hq] at hnodup
  obtain ⟨hb, hrest⟩ := List.nodup_cons.1 hnodup
  have hready := hd.ready b rest hq hcmd herr
  refine ⟨?_, hrest, h.apart, h.request, fun c hc => ?_, fun p c r hp => ?_⟩
  · show s.arrived = s.removed ++ [b] ++ rest
    rw [h.order, hq, List.append_assoc]
    rfl
  · obtain ⟨q, hpq⟩ := h.queued c (hq ▸ List.mem_cons_of_mem b hc)
    refine ⟨q, ?_⟩
    have hcb : c ≠ b := fun he => hb (he ▸ hc)
    dsimp only
    rw [Function.update_of_ne hcb]
    exact hpq
  · by_cases hcb : c = b
    · subst hcb
      have hr := h.alone (hq ▸ List.mem_cons_self) hp
      have hlba := (h.request p c r hp).2
      subst hr
      refine .inr ?_
      dsimp only
      rw [Function.update_self, ← hlba, herr]
      cases hdirty : (s.buf c).dirty with
      | true =>
        rw [hdirty] at hready
        exact ⟨hready, fun _ => rfl⟩
      | false =>
        rw [hdirty] at hready
        exact ⟨hready.symm, nofun⟩
    · dsimp only
      rw [Function.update_of_ne hcb]
      rcases h.done p c r hp with hc | hright
      · rw [hq] at hc
        exact .inl ((List.mem_cons.1 hc).resolve_left hcb)
      · exact .inr hright

omit [DecidableEq Proc] [DecidableEq B] in
theorem Waits.finish (h : Waits s) (hd : Drives s) {ok : Bool} (ha : finish s ok = some t) : Waits t ∧ Drives t := by
  cases hcmd : s.drive.cmd with
  | none =>
    simp only [Ide.finish, hcmd] at ha
    cases ha
  | some c =>
    obtain ⟨b, rest, hq, hc⟩ := hd.busy c hcmd
    have hhead : ∀ b' rest', s.idequeue = b' :: rest' → b' = b := fun b' rest' hq' => by
      rw [hq] at hq'
      cases hq'
      rfl
    cases ok with
    | false =>
      simp only [Ide.finish, hcmd] at ha
      cases ha
      exact ⟨⟨h.order, h.nodup, h.apart, h.request, h.queued, h.done⟩, nofun, nofun⟩
    | true =>
      cases c with
      | read lba =>
        simp only [Ide.finish, hcmd] at ha
        cases ha
        obtain ⟨hdirty, rfl⟩ := command_read hc
        refine ⟨⟨h.order, h.nodup, h.apart, h.request, h.queued, h.done⟩, nofun, fun b' rest' hq' _ _ => ?_⟩
        rw [hhead b' rest' hq', hdirty]
        rfl
      | write lba data =>
        simp only [Ide.finish, hcmd] at ha
        cases ha
        obtain ⟨hdirty, rfl, rfl⟩ := command_write hc
        have hw := h.written hq
        refine ⟨⟨hw.order, hw.nodup, hw.apart, hw.request, hw.queued, hw.done⟩, nofun, fun b' rest' hq' _ _ => ?_⟩
        rw [hhead b' rest' hq', hdirty]
        exact Function.update_self ..

omit [DecidableEq Proc] in
theorem Waits.intr (h : Waits s) (hd : Drives s) (hsound : s.idequeue ≠ [] → s.drive.cmd = none ∧ s.drive.error = false)
    (ha : ideintr s = some t) : Waits t ∧ Drives t := by
  unfold ideintr at ha
  split at ha
  · cases ha
    exact ⟨h, hd⟩
  · next b rest hq =>
    obtain ⟨hcmd, herr⟩ := hsound (hq ▸ List.cons_ne_nil b rest)
    have hw := h.remove hd hq hcmd herr
    dsimp only at ha
    split at ha
    · cases ha
    · cases rest with
      | nil =>
        cases ha
        refine ⟨hw, fun c hc => ?_, nofun⟩
        rw [show _ = none from hcmd] at hc
        cases hc
      | cons c rest =>
        obtain ⟨-, rfl⟩ := idestart_some.1 ha
        exact ⟨⟨hw.order, hw.nodup, hw.apart, hw.request, hw.queued, hw.done⟩, Drives.started rfl⟩

omit [DecidableEq B] in
theorem Waits.wake (h : Waits s) {pid : Proc} {b : B} {r : Buf Data} (hpc : s.pc pid = some (b, r))
    (hdone : (s.buf b).done = true) : Waits { s with pc := Function.update s.pc pid none } := by
  -- the other processes stay
  have hpc' : ∀ q x, Function.update s.pc pid none q = some x → s.pc q = some x := by
    intro q x hq
    by_cases hqp : q = pid
    · subst hqp
      rw [Function.update_self] at hq
      cases hq
    · rw [Function.update_of_ne hqp] at hq
      exact hq
  refine ⟨h.order, h.nodup, fun p q c d r r' hp hq => h.apart p q c d r r' (hpc' p _ hp) (hpc' q _ hq),
    fun p c r hp => h.request p c r (hpc' p _ hp), fun c hc => ?_, fun p c r hp => h.done p c r (hpc' p _ hp)⟩
  obtain ⟨q, hq⟩ := h.queued c hc
  refine ⟨q, ?_⟩
  have hqp : q ≠ pid := by
    rintro rfl
    have hopen := (h.request q c _ hq).1
    rw [hpc] at hq
    cases hq
    rw [hdone] at hopen
    cases hopen
  show Function.update s.pc pid none q = _
  rw [Function.update_of_ne hqp]
  exact hq

omit [DecidableEq Proc] in
/-- The drive is not concerned by a buffer that comes behind the first. -/
theorem Drives.behind (hd : Drives s) {b c : B} {rest : List B} (hq : s.idequeue = c :: rest) (hcb : c ≠ b) {buf : Buf Data}
    {pc : Proc → Option (B × Buf Data)} {arrived : List B} :
    Drives { s with buf := Function.update s.buf b buf, idequeue := s.idequeue ++ [b], pc, arrived } := by
  have hhead : ∀ b' rest', s.idequeue ++ [b] = b' :: rest' → b' = c := by
    intro b' rest' hq'
    rw [hq] at hq'
    cases hq'
    rfl
  refine ⟨fun cmd hcmd => ?_, fun b' rest' hq' hcmd herr => ?_⟩
  · obtain ⟨b₀, rest₀, hq₀, rfl⟩ := hd.busy cmd hcmd
    rw [hq] at hq₀
    cases hq₀
    refine ⟨c, rest ++ [b], by rw [hq]; rfl, ?_⟩
    show _ = (Function.update s.buf b buf c).command
    rw [Function.update_of_ne hcb]
  · have hready := hd.ready c rest hq hcmd herr
    obtain rfl := hhead b' rest' hq'
    simp only [Function.update_of_ne hcb]
    exact hready

/-- **A step** of a sound run keeps the queue and the data right. -/
theorem Waits.step (h : Waits s) (hd : Drives s) {a : Act Proc B Data} (hpromised : Promised s a) (hsound : Sound s a)
    (ha : step havedisk1 s a = some t) : Waits t ∧ Drives t := by
  cases a with
  | call pid b buf =>
    simp only [Ide.step, iderw] at ha
    split at ha
    · cases ha
    · next hpc =>
      split at ha
      · cases ha
      · next hrefused =>
        have hdone : buf.done = false := by
          by_contra hdone
          rw [Bool.not_eq_false] at hdone
          unfold Buf.refused at hrefused
          rw [hdone] at hrefused
          split at hrefused <;> cases hrefused
        have hw := h.call hpc hpromised hdone (lba_eq_id hsound.1 hsound.2)
        split at ha
        · next hq =>
          obtain ⟨-, rfl⟩ := idestart_some.1 ha
          have hone : s.idequeue ++ [b] = [b] := by
            rw [hq]
            rfl
          exact ⟨⟨hw.order, hw.nodup, hw.apart, hw.request, hw.queued, hw.done⟩, Drives.started hone⟩
        · next c rest hq =>
          cases ha
          have hcb : c ≠ b := by
            obtain ⟨q, hpq⟩ := h.queued c (hq ▸ List.mem_cons_self)
            exact (hpromised q c _ hpq).1
          refine ⟨hw, hd.behind hq hcb⟩
  | wake pid =>
    simp only [Ide.step] at ha
    split at ha
    · cases ha
    · next b r hpc =>
      split at ha
      · next hdone =>
        cases ha
        exact ⟨h.wake hpc hdone, hd.busy, hd.ready⟩
      · cases ha
        exact ⟨h, hd⟩
  | finish ok => exact h.finish hd ha
  | intr => exact h.intr hd hsound ha

/-- Nobody is in `iderw`. -/
structure Idle (s : State Proc B Data) : Prop where
  pc : ∀ pid, s.pc pid = none
  idequeue : s.idequeue = []
  arrived : s.arrived = []
  removed : s.removed = []
  drive : s.drive.cmd = none

omit [DecidableEq Proc] [DecidableEq B] in
theorem Idle.waits (h : Idle s) : Waits s ∧ Drives s := by
  refine ⟨⟨?_, ?_, fun p q b c r r' hp => ?_, fun p b r hp => ?_, fun b hb => ?_, fun p b r hp => ?_⟩, fun c hc => ?_,
    fun b rest hq => ?_⟩
  · rw [h.arrived, h.removed, h.idequeue]
    rfl
  · rw [h.idequeue]
    exact List.nodup_nil
  all_goals first
    | (rw [h.pc p] at hp; cases hp)
    | (rw [h.idequeue] at hb; cases hb)
    | (rw [h.drive] at hc; cases hc)
    | (rw [h.idequeue] at hq; cases hq)

/-- **Requests are served in order and with the right data** in every run in which the interrupts find the drive done and
without an error. -/
theorem requests_right (h : Idle s) {tr : List (Act Proc B Data)}
    (hpath : Path (step havedisk1) (fun s a => Promised s a ∧ Sound s a) s tr t) : InOrder t ∧ RightData t := by
  obtain ⟨hw, hd⟩ := hpath.invariant (fun s => Waits s ∧ Drives s) h.waits fun s a t hs hc ha =>
    hs.1.step hs.2 hc.1 hc.2 ha
  exact ⟨hw.inOrder hd, hw.right⟩

end

/-- Two processes, and a disk that is 1 everywhere. -/
def startTwo : State Bool Bool Nat :=
  ⟨fun _ => ⟨0, 0, true, false, false, 0⟩, [], ⟨none, false, 0⟩, fun _ => 1, fun _ => none, [], []⟩

/-- A process reads sector 0, and another one that comes while the drive is busy writes sector 1. -/
theorem requests_right_two : ∃ t, Path (step true) (fun s a => Promised s a ∧ Sound s a) startTwo
    [.call false false ⟨0, 0, true, false, false, 0⟩, .call true true ⟨0, 1, true, true, true, 5⟩, .finish true, .intr,
      .wake false, .finish true, .intr, .wake true] t ∧
    (t.buf false).data = 1 ∧ t.disk (0, 1) = 5 ∧ t.removed = [false, true] ∧ t.pc true = none ∧ InOrder t ∧ RightData t := by
  have hread : Path (step true) (fun s a => Promised s a ∧ Sound s a) startTwo
      ([] ++ [.call false false ⟨0, 0, true, false, false, 0⟩]) _ := .snoc .nil ⟨nofun, by decide, by decide⟩ rfl
  have hother : ∀ (q c : Bool) (req : Buf Nat),
      Function.update startTwo.pc false (some (false, ⟨0, 0, true, false, false, 0⟩)) q = some (c, req) →
        c ≠ true ∧ req.id ≠ Buf.id ⟨0, 1, true, true, true, (5 : Nat)⟩ := fun q c req h => by
    cases q
    · cases h
      exact ⟨by decide, by decide⟩
    · cases h
  have hwrite := Path.snoc (a := (.call true true ⟨0, 1, true, true, true, 5⟩ : Act Bool Bool Nat)) hread
    ⟨hother, by decide, by decide⟩ rfl
  have hfirst := Path.snoc (a := (.finish true : Act Bool Bool Nat)) hwrite ⟨trivial, trivial⟩ rfl
  have hintr := Path.snoc (a := (.intr : Act Bool Bool Nat)) hfirst ⟨trivial, fun _ => ⟨rfl, rfl⟩⟩ rfl
  have hwake := Path.snoc (a := (.wake false : Act Bool Bool Nat)) hintr ⟨trivial, trivial⟩ rfl
  have hsecond := Path.snoc (a := (.finish true : Act Bool Bool Nat)) hwake ⟨trivial, trivial⟩ rfl
  have hintr₂ := Path.snoc (a := (.intr : Act Bool Bool Nat)) hsecond ⟨trivial, fun _ => ⟨rfl, rfl⟩⟩ rfl
  have hpath := Path.snoc (a := (.wake true : Act Bool Bool Nat)) hintr₂ ⟨trivial, trivial⟩ rfl
  exact ⟨_, hpath, rfl, rfl, rfl, rfl, requests_right ⟨fun _ => rfl, rfl, rfl, rfl, rfl⟩ hpath⟩

/-- One process, and a disk that is 1 everywhere. -/
def start : State Unit Unit Nat :=
  ⟨fun _ => ⟨0, 0, true, false, false, 0⟩, [], ⟨none, false, 0⟩, fun _ => 1, fun _ => none, [], []⟩

/-- The drive reports an error, and the buffer becomes valid with the data it had before. -/
theorem not_requests_right : ¬∀ (tr : List (Act Unit Unit Nat)) (t : State Unit Unit Nat),
    Path (step true) Promised start tr t → InOrder t ∧ RightData t := by
  intro h
  have hcall : Path (step true) Promised start ([] ++ [.call () () ⟨0, 0, true, false, false, 0⟩]) _ := .snoc .nil nofun rfl
  have hfinish : Path (step true) Promised start
      ([] ++ [.call () () ⟨0, 0, true, false, false, 0⟩] ++ [.finish false]) _ := .snoc hcall trivial rfl
  have hread : Path (step true) Promised start
      ([] ++ [.call () () ⟨0, 0, true, false, false, 0⟩] ++ [.finish false] ++ [.intr]) _ := .snoc hfinish trivial rfl
  have hdata : 1 = 0 := ((h _ _ hread).2 () () _ rfl rfl).1
  cases hdata

end NewXv6.Ide
