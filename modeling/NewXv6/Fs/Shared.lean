import NewXv6.Lib.Run
import NewXv6.Param
import Mathlib.Data.List.Basic
import Mathlib.Data.List.Sublists
import Mathlib.Logic.Function.Basic
import Mathlib.Algebra.Ring.Nat

/-!
# One open file, many writers (`file.c`, `fs.c`)

The processes that share a `struct file` of type `FD_INODE` write to it at the same time. A step is what happens between two
points where another process may run: `begin_op` and `ilock` may wait, `writei` may sleep at every block, and the console
unlocks the inode. The offset is read and advanced by the process that holds the inode, so the chunks that `filewrite` writes
lie one behind the other (`writes_apart`).
-/

namespace NewXv6.Fs.Shared

open Lib

/-- What the inode is: a file, or a device with the `write` of the console or without one. -/
inductive Kind
  | file
  | console
  | device
  deriving DecidableEq

/-- A chunk of a call of `filewrite`: the process, the offset and the bytes. -/
structure Chunk (ι : Type) where
  pid : ι
  start : UInt32
  bytes : List UInt8

/-- Where a process is in `filewrite`; `r` is what `writei` returned. -/
inductive Pc
  | idle
  /-- the head of the loop -/
  | loop
  /-- after `begin_op` -/
  | began
  /-- after `ilock` -/
  | locked
  /-- in the loop of `writei` from `off` on, after `tot` bytes -/
  | writing (off : UInt32) (tot : Nat)
  /-- in `consolewrite`, with the inode unlocked, where `writei` was called at `off` -/
  | printing (off : UInt32)
  /-- after `writei` at `off` -/
  | wrote (off : UInt32) (r : Option Nat)
  /-- after the offset was advanced -/
  | advanced (r : Option Nat)
  /-- after `iunlock` -/
  | unlocked (r : Option Nat)
  deriving DecidableEq

/-- A process that writes `data`, of which `i` bytes are done; `chunks` are those of this call. -/
structure Writer (ι : Type) where
  pc : Pc
  data : List UInt8
  i : Nat
  chunks : List (Chunk ι)

/-- A call that is over: what it was to write, whether all was written, and its chunks. -/
structure Call (ι : Type) where
  data : List UInt8
  all : Bool
  chunks : List (Chunk ι)

/-- `f->off`, the inode, who holds it, and the processes; `log` are the chunks so far and `calls` the calls that are over. -/
structure State (ι : Type) where
  off : UInt32
  size : UInt32
  contents : Nat → UInt8
  holder : Option ι
  proc : ι → Writer ι
  log : List (Chunk ι)
  calls : List (Call ι)

/-- A process calls `write`, or goes on. -/
inductive Act
  | write (data : List UInt8)
  | go

/-- The most bytes `filewrite` writes in one transaction. -/
def maxWrite : Nat := (LOGSIZE - 1 - 1 - 2) / 2 * 512

/-- `n1` of `filewrite`. -/
def Writer.n1 {ι : Type} (w : Writer ι) : Nat := min (w.data.length - w.i) maxWrite

/-- The chunk that `filewrite` is at. -/
def Writer.chunk {ι : Type} (w : Writer ι) : List UInt8 := (w.data.drop w.i).take w.n1

/-- Store bytes. -/
def setBytes (start : Nat) (data : List UInt8) (contents : Nat → UInt8) : Nat → UInt8 := fun x =>
  if start ≤ x ∧ x < start + data.length then data.getD (x - start) 0 else contents x

section

variable {ι : Type} [DecidableEq ι] (kind : Kind)

def State.set (s : State ι) (pid : ι) (w : Writer ι) : State ι := { s with proc := Function.update s.proc pid w }

/-- One step of `filewrite` of the process `pid`. -/
def step (s : State ι) : ι × Act → Option (State ι)
  | (pid, .write data) =>
    if (s.proc pid).pc = .idle then some (s.set pid { pc := .loop, data, i := 0, chunks := [] }) else none
  | (pid, .go) =>
    let w := s.proc pid
    match w.pc with
    | .idle => none
    | .loop =>
      if w.i < w.data.length then some (s.set pid { w with pc := .began })
      else some { s.set pid { w with pc := .idle } with calls := s.calls ++ [⟨w.data, decide (w.i = w.data.length), w.chunks⟩] }
    | .began => if s.holder = none then some { s.set pid { w with pc := .locked } with holder := some pid } else none
    | .locked =>
      match kind with
      | .device => some (s.set pid { w with pc := .wrote s.off none })
      | .console => some { s.set pid { w with pc := .printing s.off } with holder := none }
      | .file =>
        let n := UInt32.ofNat w.n1
        if s.off > s.size ∨ s.off + n < s.off ∨ (s.off + n).toNat > MAXFILE * BSIZE then
          some (s.set pid { w with pc := .wrote s.off none })
        else some (s.set pid { w with pc := .writing s.off 0 })
    | .writing off tot =>
      if tot < w.n1 then
        let m := min (w.n1 - tot) (BSIZE - (off.toNat + tot) % BSIZE)
        some { s.set pid { w with pc := .writing off (tot + m) } with
          contents := setBytes (off.toNat + tot) ((w.chunk.drop tot).take m) s.contents }
      else some { s.set pid { w with pc := .wrote off (some w.n1) } with
        size := if w.n1 > 0 ∧ off + UInt32.ofNat w.n1 > s.size then off + UInt32.ofNat w.n1 else s.size }
    | .printing off =>
      if s.holder = none then some { s.set pid { w with pc := .wrote off (some w.n1) } with holder := some pid } else none
    | .wrote _ none => some (s.set pid { w with pc := .advanced none })
    | .wrote off (some r) =>
      if r > 0 then
        let c : Chunk ι := ⟨pid, off, w.chunk⟩
        some { s.set pid { w with pc := .advanced (some r), chunks := w.chunks ++ [c] } with
          off := s.off + UInt32.ofNat r, log := s.log ++ [c] }
      else some (s.set pid { w with pc := .advanced (some r) })
    | .advanced r => some { s.set pid { w with pc := .unlocked r } with holder := none }
    | .unlocked none =>
      some { s.set pid { w with pc := .idle } with calls := s.calls ++ [⟨w.data, decide (w.i = w.data.length), w.chunks⟩] }
    | .unlocked (some r) =>
      -- otherwise `filewrite` panics
      if r = w.n1 then some (s.set pid { w with pc := .loop, i := w.i + r }) else none

end

/-! ## The invariant -/

/-- Whether a process holds the inode. -/
def Pc.holds : Pc → Bool
  | .locked | .writing _ _ | .wrote _ _ | .advanced _ => true
  | _ => false

/-- What `writei` returned. -/
def Pc.result : Pc → Option Nat
  | .wrote _ r | .advanced r | .unlocked r => r
  | _ => none

/-- How many bytes are done. -/
def Writer.done {ι : Type} (w : Writer ι) : Nat :=
  match w.pc with
  | .advanced (some r) | .unlocked (some r) => w.i + r
  | _ => w.i

/-- The bytes `l` are at `start`. -/
def At (contents : Nat → UInt8) (start : Nat) (l : List UInt8) : Prop := ∀ j < l.length, contents (start + j) = l.getD j 0

/-- The chunks lie one behind the other, from `a` to `b`. -/
def Adjacent {ι : Type} : UInt32 → List (Chunk ι) → UInt32 → Prop
  | a, [], b => b = a
  | a, c :: l, b => c.start = a ∧ Adjacent (a + UInt32.ofNat c.bytes.length) l b

/-- The number of bytes written. -/
def total {ι : Type} (l : List (Chunk ι)) : Nat := (l.map fun c => c.bytes.length).sum

/-- What holds of a process `pid` that is at `w`. -/
structure Local {ι : Type} (kind : Kind) (s : State ι) (pid : ι) (w : Writer ι) : Prop where
  holder : w.pc.holds = true → s.holder = some pid
  result : ∀ r, w.pc.result = some r → r = w.n1
  le : w.done ≤ w.data.length
  done : w.chunks.flatMap Chunk.bytes = w.data.take w.done
  sublist : List.Sublist w.chunks s.log
  writing : ∀ off tot, w.pc = .writing off tot → off = s.off ∧ tot ≤ w.n1 ∧ off.toNat + w.n1 ≤ MAXFILE * BSIZE ∧
    At s.contents s.off.toNat (w.chunk.take tot)
  console : ∀ off, w.pc = .printing off → kind = .console
  wrote : ∀ off r, w.pc = .wrote off (some r) → kind ≠ .console →
    off = s.off ∧ s.off.toNat + r ≤ MAXFILE * BSIZE ∧ At s.contents s.off.toNat w.chunk

/-- What holds after every step of a run from `s₀`. -/
structure Inv {ι : Type} (kind : Kind) (s₀ s : State ι) : Prop where
  proc : ∀ pid, Local kind s pid (s.proc pid)
  offset : s.off = s₀.off + UInt32.ofNat (total s.log)
  bytes : kind ≠ .console → Adjacent s₀.off s.log s.off ∧ s.off.toNat = s₀.off.toNat + total s.log ∧
    ∀ c ∈ s.log, c.start.toNat + c.bytes.length ≤ s.off.toNat ∧ At s.contents c.start.toNat c.bytes
  calls : ∀ c ∈ s.calls, List.Sublist c.chunks s.log ∧ (c.all = true → c.chunks.flatMap Chunk.bytes = c.data)

section

variable {ι : Type} {kind : Kind} {s₀ s t : State ι} {pid q : ι} {w : Writer ι}

theorem n1_le (w : Writer ι) : w.n1 ≤ 6656 := Nat.min_le_right _ _

theorem toNat_n1 (w : Writer ι) : (UInt32.ofNat w.n1).toNat = w.n1 := by
  have := n1_le w
  rw [UInt32.toNat_ofNat']
  exact Nat.mod_eq_of_lt (by omega)

theorem length_chunk (w : Writer ι) : w.chunk.length = w.n1 := by
  unfold Writer.chunk
  rw [List.length_take, List.length_drop]
  exact Nat.min_eq_left (Nat.min_le_left _ _)

theorem adjacent_append {a b : UInt32} {l : List (Chunk ι)} {c : Chunk ι} :
    Adjacent a (l ++ [c]) b ↔ Adjacent a l c.start ∧ b = c.start + UInt32.ofNat c.bytes.length := by
  induction l generalizing a with
  | nil =>
    show c.start = a ∧ b = a + _ ↔ c.start = a ∧ b = c.start + _
    constructor
    · rintro ⟨rfl, rfl⟩
      exact ⟨rfl, rfl⟩
    · rintro ⟨rfl, rfl⟩
      exact ⟨rfl, rfl⟩
  | cons x l ih =>
    show x.start = a ∧ Adjacent _ (l ++ [c]) b ↔ (x.start = a ∧ Adjacent _ l c.start) ∧ _
    rw [ih, and_assoc]

theorem total_append (l : List (Chunk ι)) (c : Chunk ι) : total (l ++ [c]) = total l + c.bytes.length := by
  unfold total
  rw [List.map_append, List.sum_append, List.map_singleton, List.sum_singleton]

/-- Bytes that are stored behind others. -/
theorem At.store {contents : Nat → UInt8} {start : Nat} {l : List UInt8} (h : At contents start l) (data : List UInt8) :
    At (setBytes (start + l.length) data contents) start (l ++ data) := by
  intro j hj
  rw [List.length_append] at hj
  unfold setBytes
  rw [List.getD_eq_getElem?_getD (l := l ++ data)]
  by_cases hjl : j < l.length
  · rw [if_neg (by omega), h j hjl, List.getElem?_append_left hjl, List.getD_eq_getElem?_getD]
  · rw [if_pos (by omega), List.getElem?_append_right (Nat.le_of_not_lt hjl), List.getD_eq_getElem?_getD,
      Nat.add_sub_add_left]

theorem At.before {contents : Nat → UInt8} {start x : Nat} {l : List UInt8} (h : At contents start l) (data : List UInt8)
    (hx : start + l.length ≤ x) : At (setBytes x data contents) start l := by
  intro j hj
  unfold setBytes
  rw [if_neg (by omega)]
  exact h j hj

/-- A process that does not step. -/
theorem Local.other (h : Local kind s q w) (hlog : List.Sublist s.log t.log)
    (hkeep : w.pc.holds = true → t.holder = s.holder ∧ t.off = s.off ∧ t.contents = s.contents) : Local kind t q w := by
  refine ⟨fun hq => ?_, h.result, h.le, h.done, h.sublist.trans hlog, fun off tot hpc => ?_, h.console,
    fun off r hpc hk => ?_⟩
  · rw [(hkeep hq).1]
    exact h.holder hq
  · obtain ⟨-, hoff, hcontents⟩ := hkeep (by rw [hpc]; rfl)
    rw [hoff, hcontents]
    exact h.writing off tot hpc
  · obtain ⟨-, hoff, hcontents⟩ := hkeep (by rw [hpc]; rfl)
    rw [hoff, hcontents]
    exact h.wrote off r hpc hk

/-- Two processes do not both hold the inode. -/
theorem Inv.alone (h : Inv kind s₀ s) (hp : (s.proc pid).pc.holds = true) (hq : (s.proc q).pc.holds = true) : q = pid :=
  Option.some.inj (((h.proc q).holder hq).symm.trans ((h.proc pid).holder hp))

/-- A process that goes on without the inode. -/
theorem Local.move (h : Local kind s pid w) {pc : Pc} {t : State ι} (hlog : t.log = s.log) (hfree : pc.holds = false)
    (hresult : pc.result = w.pc.result) (hdone : ({ w with pc } : Writer ι).done = w.done)
    (hconsole : ∀ off, pc = .printing off → kind = .console) : Local kind t pid { w with pc } := by
  refine ⟨fun hh => ?_, fun r hr => h.result r (hresult.symm.trans hr), hdone ▸ h.le, hdone ▸ h.done, hlog ▸ h.sublist,
    fun off tot hpc => ?_, hconsole, fun off r hpc => ?_⟩
  · exact absurd (hh.symm.trans hfree) Bool.noConfusion
  · have hpc' : pc = .writing off tot := hpc
    rw [hpc'] at hfree
    cases hfree
  · have hpc' : pc = .wrote off (some r) := hpc
    rw [hpc'] at hfree
    cases hfree

/-- The calls that are over, with the one that ends. -/
theorem Inv.return (h : Inv kind s₀ s) (hdone : (s.proc pid).done = (s.proc pid).i) :
    ∀ c ∈ s.calls ++ [⟨(s.proc pid).data, decide ((s.proc pid).i = (s.proc pid).data.length), (s.proc pid).chunks⟩],
      List.Sublist c.chunks s.log ∧ (c.all = true → c.chunks.flatMap Chunk.bytes = c.data) := by
  intro c hc
  rcases List.mem_append.1 hc with hc | hc
  · exact h.calls c hc
  · rw [List.mem_singleton] at hc
    subst hc
    refine ⟨(h.proc pid).sublist, fun hall => ?_⟩
    have hall' : (s.proc pid).i = (s.proc pid).data.length := of_decide_eq_true hall
    dsimp only
    rw [(h.proc pid).done, hdone, hall', List.take_length]

/-- A process that goes on with the inode. -/
theorem Local.hold (h : Local kind s pid w) {pc : Pc} {t : State ι} (hholder : t.holder = some pid) (hlog : t.log = s.log)
    (hresult : ∀ r, pc.result = some r → r = w.n1) (hdone : ({ w with pc } : Writer ι).done = w.done)
    (hwriting : ∀ off tot, pc = .writing off tot → off = t.off ∧ tot ≤ w.n1 ∧ off.toNat + w.n1 ≤ MAXFILE * BSIZE ∧
      At t.contents t.off.toNat (w.chunk.take tot))
    (hconsole : ∀ off, pc = .printing off → kind = .console)
    (hwrote : ∀ off r, pc = .wrote off (some r) → kind ≠ .console →
      off = t.off ∧ t.off.toNat + r ≤ MAXFILE * BSIZE ∧ At t.contents t.off.toNat w.chunk) :
    Local kind t pid { w with pc } :=
  ⟨fun _ => hholder, hresult, hdone ▸ h.le, hdone ▸ h.done, hlog ▸ h.sublist, hwriting, hconsole, hwrote⟩

/-- Chunks that lie one behind the other are disjoint. -/
theorem Adjacent.disjoint {a b : UInt32} {l : List (Chunk ι)} (h : Adjacent a l b) (hb : b.toNat = a.toNat + total l) :
    l.Pairwise fun c d => c.start.toNat + c.bytes.length ≤ d.start.toNat := by
  suffices ∀ (l : List (Chunk ι)) (a : UInt32), Adjacent a l b → b.toNat = a.toNat + total l →
      (∀ c ∈ l, a.toNat ≤ c.start.toNat) ∧ l.Pairwise fun c d => c.start.toNat + c.bytes.length ≤ d.start.toNat from
    (this l a h hb).2
  intro l
  induction l with
  | nil => exact fun _ _ _ => ⟨nofun, List.Pairwise.nil⟩
  | cons x l ih =>
    rintro a ⟨rfl, h⟩ hb
    have hlt := b.toNat_lt
    have htotal : total (x :: l) = x.bytes.length + total l := rfl
    have hnext : (x.start + UInt32.ofNat x.bytes.length).toNat = x.start.toNat + x.bytes.length := by
      rw [UInt32.toNat_add, UInt32.toNat_ofNat']
      omega
    obtain ⟨hfrom, hpairs⟩ := ih _ h (by omega)
    rw [hnext] at hfrom
    refine ⟨fun c hc => ?_, List.pairwise_cons.2 ⟨hfrom, hpairs⟩⟩
    rcases List.mem_cons.1 hc with rfl | hc
    · exact Nat.le_refl _
    · exact Nat.le_trans (Nat.le_add_right _ _) (hfrom c hc)

/-- The inode is free, and no process writes. -/
structure Fresh {ι : Type} (s : State ι) : Prop where
  holder : s.holder = none
  proc : ∀ pid, (s.proc pid).pc = .idle ∧ (s.proc pid).data = [] ∧ (s.proc pid).i = 0 ∧ (s.proc pid).chunks = []
  log : s.log = []
  calls : s.calls = []

theorem Fresh.inv (h : Fresh s) : Inv kind s s := by
  refine ⟨fun pid => ?_, ?_, fun _ => ?_, fun c hc => ?_⟩
  · obtain ⟨hpc, hdata, hi, hchunks⟩ := h.proc pid
    have hdone : (s.proc pid).done = 0 := by
      unfold Writer.done
      rw [hpc]
      exact hi
    refine ⟨fun hh => ?_, fun r hr => ?_, hdone ▸ Nat.zero_le _, ?_, hchunks ▸ List.nil_sublist _, fun off tot hp => ?_,
      fun off hp => ?_, fun off r hp => ?_⟩
    · rw [hpc] at hh
      cases hh
    · rw [hpc] at hr
      cases hr
    · rw [hchunks, hdone]
      rfl
    all_goals
      rw [hpc] at hp
      cases hp
  · rw [h.log]
    show s.off = s.off + 0
    rw [UInt32.add_zero]
  · rw [h.log]
    exact ⟨rfl, rfl, nofun⟩
  · rw [h.calls] at hc
    cases hc

variable [DecidableEq ι]

theorem set_self : (s.set pid w).proc pid = w := Function.update_self ..

theorem set_other (hq : q ≠ pid) : (s.set pid w).proc q = s.proc q := Function.update_of_ne hq ..

/-- A step of `pid` that leaves the file and the log as they are. -/
theorem Inv.quiet (h : Inv kind s₀ s) {holder : Option ι} {size : UInt32} {calls : List (Call ι)}
    (hw : Local kind { s.set pid w with holder, size, calls } pid w)
    (hholder : ∀ q, q ≠ pid → (s.proc q).pc.holds = true → holder = s.holder)
    (hcalls : ∀ c ∈ calls, List.Sublist c.chunks s.log ∧ (c.all = true → c.chunks.flatMap Chunk.bytes = c.data)) :
    Inv kind s₀ { s.set pid w with holder, size, calls } := by
  refine ⟨fun q => ?_, h.offset, h.bytes, hcalls⟩
  by_cases hq : q = pid
  · subst hq
    show Local kind _ q ((s.set q w).proc q)
    rw [set_self]
    exact hw
  · show Local kind _ q ((s.set pid w).proc q)
    rw [set_other hq]
    exact (h.proc q).other (List.Sublist.refl _) fun hh => ⟨hholder q hq hh, rfl, rfl⟩

/-- A round of `writei`: the inode is held, and other chunks are behind. -/
theorem Inv.store (h : Inv kind s₀ s) {off : UInt32} {tot : Nat} (hpc : (s.proc pid).pc = .writing off tot)
    (htot : tot < (s.proc pid).n1) {m : Nat} (hm : m = min ((s.proc pid).n1 - tot) (BSIZE - (off.toNat + tot) % BSIZE)) :
    Inv kind s₀ { s.set pid { s.proc pid with pc := .writing off (tot + m) } with
      contents := setBytes (off.toNat + tot) (((s.proc pid).chunk.drop tot).take m) s.contents } := by
  have hp := h.proc pid
  obtain ⟨rfl, hle, hfit, hat⟩ := hp.writing off tot hpc
  have hlen : ((s.proc pid).chunk.take tot).length = tot := by
    rw [List.length_take, length_chunk]
    exact Nat.min_eq_left hle
  refine ⟨fun q => ?_, h.offset, fun hk => ?_, h.calls⟩
  · by_cases hq : q = pid
    · subst hq
      show Local kind _ q ((s.set q _).proc q)
      rw [set_self]
      refine ⟨fun _ => hp.holder (by rw [hpc]; rfl), nofun, ?_, ?_, hp.sublist, fun off' tot' hpc' => ?_, nofun, nofun⟩
      · have := hp.le
        unfold Writer.done at this ⊢
        rw [hpc] at this
        exact this
      · have := hp.done
        unfold Writer.done at this ⊢
        rw [hpc] at this
        exact this
      · cases hpc'
        refine ⟨rfl, show tot + m ≤ (s.proc q).n1 by omega, hfit, ?_⟩
        have hstore := hat.store (((s.proc q).chunk.drop tot).take m)
        rw [hlen, ← List.take_add] at hstore
        exact hstore
    · show Local kind _ q ((s.set pid _).proc q)
      rw [set_other hq]
      have hpid : (s.proc pid).pc.holds = true := by
        rw [hpc]
        rfl
      exact (h.proc q).other (List.Sublist.refl _) fun hh => absurd (h.alone hpid hh) hq
  · obtain ⟨hadj, htotal, hlog⟩ := h.bytes hk
    refine ⟨hadj, htotal, fun c hc => ⟨(hlog c hc).1, (hlog c hc).2.before _ ?_⟩⟩
    exact Nat.le_trans (hlog c hc).1 (Nat.le_add_right _ _)

/-- The offset goes behind the chunk that was written. -/
theorem Inv.advance (h : Inv kind s₀ s) {off : UInt32} {r : Nat} (hpc : (s.proc pid).pc = .wrote off (some r)) :
    Inv kind s₀ { s.set pid { s.proc pid with
        pc := .advanced (some r), chunks := (s.proc pid).chunks ++ [⟨pid, off, (s.proc pid).chunk⟩] } with
      off := s.off + UInt32.ofNat r, log := s.log ++ [⟨pid, off, (s.proc pid).chunk⟩] } := by
  have hp := h.proc pid
  have hn : r = (s.proc pid).n1 := hp.result r (by rw [hpc]; rfl)
  have hsmall := n1_le (s.proc pid)
  have hprefix : List.Sublist s.log (s.log ++ [⟨pid, off, (s.proc pid).chunk⟩]) := List.sublist_append_left _ _
  have hi : (s.proc pid).done = (s.proc pid).i := by
    unfold Writer.done
    rw [hpc]
  have hroom : (s.proc pid).i + r ≤ (s.proc pid).data.length := by
    have hle := hp.le
    have hmin : (s.proc pid).n1 ≤ (s.proc pid).data.length - (s.proc pid).i := Nat.min_le_left _ _
    omega
  refine ⟨fun q => ?_, ?_, fun hk => ?_, fun c hc => ?_⟩
  · by_cases hq : q = pid
    · subst hq
      show Local kind _ q ((s.set q _).proc q)
      rw [set_self]
      refine ⟨fun _ => hp.holder (by rw [hpc]; rfl), fun r' hr' => ?_, hroom, ?_,
        hp.sublist.append (List.Sublist.refl _), nofun, nofun, nofun⟩
      · cases hr'
        exact hn
      · show ((s.proc q).chunks ++ [_]).flatMap Chunk.bytes = (s.proc q).data.take ((s.proc q).i + r)
        rw [List.flatMap_append, hp.done, hi, List.take_add, List.flatMap_singleton, hn]
        rfl
    · show Local kind _ q ((s.set pid _).proc q)
      rw [set_other hq]
      have hpid : (s.proc pid).pc.holds = true := by
        rw [hpc]
        rfl
      exact (h.proc q).other hprefix fun hh => absurd (h.alone hpid hh) hq
  · show s.off + UInt32.ofNat r = s₀.off + UInt32.ofNat (total (s.log ++ [_]))
    rw [total_append, length_chunk, ← hn, UInt32.ofNat_add, h.offset, UInt32.add_assoc]
  · obtain ⟨hadj, htotal, hlog⟩ := h.bytes hk
    obtain ⟨rfl, hfit, hat⟩ := hp.wrote off r hpc hk
    have hfit' : s.off.toNat + r ≤ 140 * 512 := hfit
    have hnext : (s.off + UInt32.ofNat r).toNat = s.off.toNat + r := by
      rw [UInt32.toNat_add, UInt32.toNat_ofNat']
      omega
    refine ⟨adjacent_append.2 ⟨hadj, ?_⟩, ?_, fun c hc => ?_⟩
    · dsimp only
      rw [length_chunk, ← hn]
    · dsimp only
      rw [hnext, htotal, total_append, length_chunk, ← hn, Nat.add_assoc]
    · dsimp only
      rw [hnext]
      rcases List.mem_append.1 hc with hc | hc
      · exact ⟨Nat.le_trans (hlog c hc).1 (Nat.le_add_right _ _), (hlog c hc).2⟩
      · rw [List.mem_singleton] at hc
        subst hc
        refine ⟨?_, hat⟩
        dsimp only
        rw [length_chunk, ← hn]
  · exact ⟨(h.calls c hc).1.trans hprefix, (h.calls c hc).2⟩

/-- **A step** keeps the invariant. -/
theorem Inv.step (h : Inv kind s₀ s) {a : ι × Act} (ha : step kind s a = some t) : Inv kind s₀ t := by
  obtain ⟨pid, act⟩ := a
  have hp := h.proc pid
  have hsame : ∀ q, q ≠ pid → (s.proc q).pc.holds = true → s.holder = s.holder := fun _ _ _ => rfl
  -- where the process holds the inode, no other does
  have hmine : (s.proc pid).pc.holds = true → ∀ (x : Option ι) q, q ≠ pid → (s.proc q).pc.holds = true → x = s.holder :=
    fun hh x q hq hq' => absurd (h.alone hh hq') hq
  cases act with
  | write data =>
    simp only [Shared.step] at ha
    split at ha
    · cases ha
      exact h.quiet ⟨nofun, nofun, Nat.zero_le _, rfl, List.nil_sublist _, nofun, nofun, nofun⟩ hsame h.calls
    · cases ha
  | go =>
    simp only [Shared.step] at ha
    split at ha
    · cases ha
    · next hpc =>
      have hdone : (s.proc pid).done = (s.proc pid).i := by
        unfold Writer.done
        rw [hpc]
      split at ha
      · cases ha
        exact h.quiet (hp.move rfl rfl (by rw [hpc]; rfl) hdone.symm nofun) hsame h.calls
      · cases ha
        exact h.quiet (hp.move rfl rfl (by rw [hpc]; rfl) hdone.symm nofun) hsame (h.return hdone)
    · next hpc =>
      -- the inode is free
      split at ha
      · next hfree =>
        cases ha
        refine h.quiet (hp.hold rfl rfl nofun ?_ nofun nofun nofun) (fun q _ hq => ?_) h.calls
        · unfold Writer.done
          rw [hpc]
        · exact absurd (((h.proc q).holder hq).symm.trans hfree) nofun
      · cases ha
    · next hpc =>
      have hdone : ∀ pc : Pc, pc = .printing s.off ∨ pc = .wrote s.off none ∨ pc = .writing s.off 0 →
          ({ s.proc pid with pc } : Writer ι).done = (s.proc pid).done := by
        rintro pc (rfl | rfl | rfl) <;> (unfold Writer.done; rw [hpc])
      have hholder := hp.holder (by rw [hpc]; rfl)
      split at ha
      · cases ha
        exact h.quiet (hp.hold hholder rfl nofun (hdone _ (by simp)) nofun nofun fun _ _ hr _ => by cases hr) hsame h.calls
      · cases ha
        exact h.quiet (hp.move rfl rfl (by rw [hpc]; rfl) (hdone _ (by simp)) fun _ _ => rfl) (hmine (by rw [hpc]; rfl) none) h.calls
      · split at ha
        · cases ha
          exact h.quiet (hp.hold hholder rfl nofun (hdone _ (by simp)) nofun nofun fun _ _ hr _ => by cases hr) hsame h.calls
        · next hok =>
          cases ha
          refine h.quiet (hp.hold hholder rfl nofun (hdone _ (by simp)) (fun off tot hpc' => ?_) nofun nofun) hsame
            h.calls
          cases hpc'
          have hn := toNat_n1 (s.proc pid)
          have hoff := s.off.toNat_lt
          have hsmall := n1_le (s.proc pid)
          rw [not_or, not_or, Nat.not_lt] at hok
          obtain ⟨-, hwrap, hfit⟩ := hok
          rw [UInt32.not_lt, UInt32.le_iff_toNat_le, UInt32.toNat_add, hn] at hwrap
          rw [UInt32.toNat_add, hn] at hfit
          refine ⟨rfl, Nat.zero_le _, ?_, fun j hj => ?_⟩
          · have hfit' : (s.off.toNat + (s.proc pid).n1) % 2 ^ 32 ≤ 140 * 512 := hfit
            show s.off.toNat + (s.proc pid).n1 ≤ 140 * 512
            omega
          · rw [List.take_zero] at hj
            exact absurd hj (Nat.not_lt_zero j)
    · next off tot hpc =>
      split at ha
      · next htot =>
        cases ha
        exact h.store hpc htot rfl
      · next htot =>
        cases ha
        obtain ⟨rfl, hle, hfit, hat⟩ := hp.writing off tot hpc
        have hend : tot = (s.proc pid).n1 := by omega
        refine h.quiet (hp.hold (hp.holder (by rw [hpc]; rfl)) rfl (fun r hr => ?_) ?_ nofun nofun fun off r hr _ => ?_) hsame h.calls
        · cases hr
          rfl
        · unfold Writer.done
          rw [hpc]
        · cases hr
          rw [hend, List.take_of_length_le (Nat.le_of_eq (length_chunk _))] at hat
          exact ⟨rfl, hfit, hat⟩
    · next off hpc =>
      -- the console is done, and the inode is free
      split at ha
      · next hfree =>
        cases ha
        refine h.quiet (hp.hold rfl rfl (fun r hr => ?_) ?_ nofun nofun fun off' r hr hk => ?_) (fun q _ hq => ?_) h.calls
        · cases hr
          rfl
        · unfold Writer.done
          rw [hpc]
        · exact absurd (hp.console off hpc) hk
        · exact absurd (((h.proc q).holder hq).symm.trans hfree) nofun
      · cases ha
    · next hpc =>
      cases ha
      refine h.quiet (hp.hold (hp.holder (by rw [hpc]; rfl)) rfl nofun ?_ nofun nofun nofun) hsame h.calls
      unfold Writer.done
      rw [hpc]
    · next off r hpc =>
      split at ha
      · cases ha
        exact h.advance hpc
      · next hr =>
        cases ha
        refine h.quiet (hp.hold (hp.holder (by rw [hpc]; rfl)) rfl (fun r' hr' => ?_) ?_ nofun nofun nofun) hsame h.calls
        · cases hr'
          exact hp.result r (by rw [hpc]; rfl)
        · unfold Writer.done
          rw [hpc]
          show (s.proc pid).i + r = (s.proc pid).i
          omega
    · next r hpc =>
      cases ha
      refine h.quiet (hp.move rfl rfl (by rw [hpc]; rfl) ?_ nofun) (hmine (by rw [hpc]; rfl) none) h.calls
      unfold Writer.done
      rw [hpc]
      cases r with
      | none => rfl
      | some r => rfl
    · next hpc =>
      have hdone : (s.proc pid).done = (s.proc pid).i := by
        unfold Writer.done
        rw [hpc]
      cases ha
      exact h.quiet (hp.move rfl rfl (by rw [hpc]; rfl) hdone.symm nofun) hsame (h.return hdone)
    · next r hpc =>
      split at ha
      · next hr =>
        cases ha
        have hdone : (s.proc pid).done = (s.proc pid).i + r := by
          unfold Writer.done
          rw [hpc]
        refine h.quiet ⟨nofun, nofun, ?_, ?_, hp.sublist, nofun, nofun, nofun⟩ hsame h.calls
        · exact hdone ▸ hp.le
        · exact hdone ▸ hp.done
      · cases ha

theorem Fresh.run (h : Fresh s) {tr : List (ι × Act)} (hrun : run (step kind) s tr = some t) : Inv kind s t :=
  run_induction (fun _ => Inv kind s) h.inv (fun _ _ _ _ _ ih ha => ih.step ha) tr t hrun

/-! ## Adjacent chunks -/

/-- What is asked of the chunks of the writers that share a file: each starts where the one before it ends, they are
disjoint, and the last ends at the offset. -/
def Apart (s t : State ι) : Prop :=
  Adjacent s.off t.log t.off ∧ (t.log.Pairwise fun c d => c.start.toNat + c.bytes.length ≤ d.start.toNat) ∧
    t.off.toNat = s.off.toNat + total t.log

/-- What is asked of the calls that are over: the chunks of a call were written in turn, and if it returned `n` they are
what was to be written. -/
def Complete (t : State ι) : Prop :=
  ∀ c ∈ t.calls, List.Sublist c.chunks t.log ∧ (c.all = true → c.chunks.flatMap Chunk.bytes = c.data)

/-- **Writers that share a file do not overwrite each other**, and what they wrote is in the file. The console ignores
offsets, and there the offset only counts the bytes. -/
theorem writes_apart (h : Fresh s) {tr : List (ι × Act)} (hrun : run (step kind) s tr = some t) :
    (kind ≠ .console → Apart s t ∧ ∀ c ∈ t.log, At t.contents c.start.toNat c.bytes) ∧
      t.off = s.off + UInt32.ofNat (total t.log) ∧ Complete t := by
  have hinv := h.run hrun
  refine ⟨fun hk => ?_, hinv.offset, hinv.calls⟩
  obtain ⟨hadj, htotal, hlog⟩ := hinv.bytes hk
  exact ⟨⟨hadj, hadj.disjoint htotal, htotal⟩, fun c hc => (hlog c hc).2⟩

end

/-- An empty file, and two processes. -/
def start : State Bool :=
  ⟨0, 0, fun _ => 0, none, fun _ => ⟨.idle, [], 0, []⟩, [], []⟩

theorem start_fresh : Fresh start := ⟨rfl, fun _ => ⟨rfl, rfl, rfl, rfl⟩, rfl, rfl⟩

/-- Two processes write a byte each. -/
def twoWrites : List (Bool × Act) :=
  [(false, .write [1]), (true, .write [2])] ++ List.replicate 9 (false, .go) ++ List.replicate 7 (true, .go)

theorem writes_apart_two : ∃ t, run (step .file) start twoWrites = some t ∧ t.off = 2 ∧ Apart start t ∧ Complete t := by
  obtain ⟨t, hrun, hoff⟩ : ∃ t, run (step .file) start twoWrites = some t ∧ t.off = 2 := ⟨_, rfl, rfl⟩
  have h := writes_apart start_fresh hrun
  exact ⟨t, hrun, hoff, (h.1 nofun).1, h.2.2⟩

/-- Both are in `consolewrite`, with the inode unlocked and the same offset. -/
theorem not_apart : ¬∀ (kind : Kind) (s t : State Bool) (tr : List (Bool × Act)), Fresh s →
    run (step kind) s tr = some t → Apart s t := by
  intro h
  obtain ⟨t, hrun, hlog⟩ : ∃ t, run (step .console) start ([(false, .write [1]), (true, .write [2])] ++
      List.replicate 3 (false, .go) ++ List.replicate 3 (true, .go) ++
      List.replicate 3 (false, .go) ++ List.replicate 2 (true, .go)) = some t ∧
      t.log = [⟨false, 0, [1]⟩, ⟨true, 0, [2]⟩] := ⟨_, rfl, rfl⟩
  obtain ⟨-, hpairs, -⟩ := h .console start t _ start_fresh hrun
  rw [hlog] at hpairs
  have hover : 1 ≤ 0 := (List.pairwise_cons.1 hpairs).1 _ (List.mem_singleton.2 rfl)
  exact absurd hover (by decide)

end NewXv6.Fs.Shared
