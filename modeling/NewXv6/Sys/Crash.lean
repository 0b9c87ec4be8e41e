import NewXv6.Log.Recover
import NewXv6.Sys.Inside
import NewXv6.Sys.Boot

/-!
# Crashes of whole runs

A machine may stop after any of its sector writes. What recovery finds is what some completed run left: of the calls up to the
one that was running, with a part of that one (`Part`). A call is one transaction (`runCall_oneOp`), but for two: `write` is
one for each of its rounds, so a part of it is a shorter write; `exit` is one for each file it closes and one for the current
directory, so a part of it are the first of these closes.
-/

namespace NewXv6

open Lib

/-- The log, where the superblock puts it. -/
def Superblock.log (sb : Superblock) : Log where
  start := sb.logStart
  size := sb.nlog
  outstanding := 0
  committing := false
  sector := []

/-- The disk of a machine. -/
abbrev Sys.disk (s : Sys) : Nat → Block := s.fs.io.bio.disk

/-- Between two transactions: everything is on the disk, and the log is empty. -/
structure Rest (E : Setting) (s : Sys) : Prop where
  inv : SysInv E s
  still : (still s.disk).sys.holds s
  head : (s.disk E.sb.logStart).word 0 = 0

/-- `m`, started in `s`, ends at rest; and if it is cut after `k` writes, what is recovered is a state in `S k`. -/
structure Survived {α : Type} (E : Setting) (m : Kern Sys α) (s : Sys) (S : Nat → Sys → Prop) : Prop where
  ends : ∀ a t, (m s).1 = .ok (a, t) → Rest E t ∧ t.disk = store (writesOf (m s).2) s.disk
  crash : ∀ k, ∃ v, S k v ∧ Rest E v ∧ Recovers E.sb.log (crashAfter (m s).2 k s.disk) v.fs.view

/-- So it is in a run whose events meet the assumptions. -/
def Survives {α : Type} (E : Setting) (m : Kern Sys α) (s : Sys) (S : Nat → Sys → Prop) : Prop :=
  (∀ x ∈ (m s).2, E.C.assume x) → Survived E m s S

/-- The state before `m`, or the one after it. -/
def Whole {α : Type} (m : Kern Sys α) (s : Sys) (_ : Nat) (v : Sys) : Prop := v = s ∨ ∃ a, (m s).1 = .ok (a, v)

section

variable {E : Setting} {s t v : Sys} {α β : Type} {f : Fin NFILE} {pid : Fin NPROC} {p : Proc} {S T : Nat → Sys → Prop}

theorem Rest.view (h : Rest E s) : s.fs.view = s.disk := by
  obtain ⟨-, -, -, -, hdirty⟩ := h.still
  funext x
  show (s.fs.io.bio.dirty x).getD (s.fs.io.bio.disk x) = _
  rw [hdirty x]
  rfl

theorem Rest.recovers (h : Rest E s) : Recovers E.sb.log s.disk s.fs.view := by
  refine CleanDisk.recovers ⟨E.ok.log_pos, h.head, fun x _ => ?_⟩
  rw [h.view]

/-- Nothing is open that no file structure is used for. -/
theorem Rest.unused (h : Rest E s) : Unused s := fun _ hf => h.inv.opened.none_of_ref hf

/-! ## One transaction -/

/-- In a transaction, `end_op` commits. -/
theorem SysInv.commits (h : SysInv E t) {d : Nat → Block} (hu : (joined d).holds t.fs.io)
    (h0 : (d E.sb.logStart).word 0 = 0) : ∃ ws io, Commits t.fs.io ws io := by
  obtain ⟨hout, hcom, rfl⟩ := hu
  have hio := h.fs.io
  refine endOp_commits hout hcom hio.fits hio.dirty (fun x hx => ?_) ?_
  · have hsize : E.sb.size < 2 ^ 32 := by
      rw [← h.fs.super]
      exact UInt32.toNat_lt _
    have hlt := hio.home x hx
    unfold Superblock.logStart at hlt
    omega
  · rw [hio.start]
    exact h0

/-- Another operation begins. -/
theorem SysInv.joined (h : SysInv E s) (d : Nat → Block) : SysInv E ((joined d).sys.change s) := by
  have hio := h.fs.io
  have hio' : IoInv E.sb ((NewXv6.joined d).change s.fs.io) :=
    ⟨hio.start, hio.size, hio.quiet, hio.home, hio.le_logsize, hio.lt_size, hio.dirty⟩
  obtain ⟨hinv, hst⟩ := h.fs.log hio' fun _ _ => rfl
  exact ⟨hinv, h.opened.fs hst⟩

/-- A transaction is atomic. -/
theorem OneOp.survives (h : Rest E s) (hend : E.C.assume .endOp) {m : Kern Sys α} (hm : OneOp s.disk m s)
    (hwp : ∀ fs, SysInv E { s with fs } → Wp E.C m (fun _ t => SysInv E t) { s with fs }) : Survives E m s (Whole m s) := by
  intro hw
  obtain ⟨hquiet, hstill⟩ | ⟨u, w, hu⟩ := hm
  · have hnone : ∀ k, crashAfter (m s).2 k s.disk = s.disk := fun k => by
      rw [crashAfter, hquiet, List.take_nil]
      rfl
    refine ⟨fun a t ht => ?_, fun k => ⟨s, Or.inl rfl, h, ?_⟩⟩
    · have ht' := hstill a t ht
      have hdisk : t.disk = s.disk := ht'.2.2.1
      have hinv : SysInv E t := (hwp s.fs h.inv).run (Prod.ext ht rfl) hw
      rw [hquiet]
      refine ⟨⟨hinv, ?_, ?_⟩, hdisk⟩
      · rw [hdisk]
        exact ht'
      · rw [hdisk]
        exact h.head
    · rw [hnone k]
      exact h.recovers
  · -- the run beside another operation shows the state at `end_op`
    obtain ⟨a, t, hrun, rfl⟩ := hu.beside
    obtain ⟨x, hx⟩ := hu.events
    have hinv : SysInv E t := (hwp _ (h.inv.joined s.disk)).run hrun fun y hy => by
      rcases List.mem_append.1 hy with hy | hy
      · exact hw y (by rw [hx]; exact List.mem_append_left _ hy)
      · rw [List.mem_singleton.1 hy]
        exact hend
    have hio := hinv.fs.io
    have hdisk : t.disk = s.disk := hu.holds.2.2
    obtain ⟨ws, io, hc⟩ := hinv.commits hu.holds h.head
    obtain ⟨b, r, hrun, rfl⟩ := hu.ends io _ hc.run
    have hwrites : writesOf (m s).2 = ws := by
      rw [hrun, writesOf_append, hu.quiet]
      exact writesOf_bwrites ws
    have hr : r.disk = store ws s.disk := by
      rw [← hdisk]
      exact hc.disk
    have hrest : Rest E r := by
      rw [hrun] at hw
      refine ⟨(hwp s.fs h.inv).run hrun hw, ⟨?_, ?_, rfl, ?_, hc.dirty⟩, ?_⟩
      · rw [hc.log]
      · rw [hc.log]
        exact hio.quiet
      · rw [hc.log]
      · rw [← hio.start]
        exact hc.head
    refine ⟨fun b' r' hok => ?_, fun k => ?_⟩
    · rw [hrun] at hok
      cases hok
      rw [hwrites]
      exact ⟨hrest, hr⟩
    · rw [crashAfter, hwrites, ← hdisk]
      rcases hc.crash k with hold | hnew
      · refine ⟨s, Or.inl rfl, h, hold.congr hio.start hio.size fun y _ => ?_⟩
        rw [h.view]
        exact congrFun hdisk y
      · refine ⟨r, Or.inr ⟨b, by rw [hrun]⟩, hrest, hnew.congr hio.start hio.size fun y _ => rfl⟩

/-! ## One after the other -/

theorem Survives.mono {m : Kern Sys α} (h : Survives E m s S) (hST : ∀ k v, S k v → T k v) : Survives E m s T := fun hw => by
  refine ⟨(h hw).ends, fun k => ?_⟩
  obtain ⟨v, hv, hrec⟩ := (h hw).crash k
  exact ⟨v, hST k v hv, hrec⟩

/-- Two runs that are the same. -/
theorem Survives.congr {m n : Kern Sys α} (h : Survives E m s S) (hrun : n s = m s) : Survives E n s S := fun hw => by
  rw [hrun] at hw
  obtain ⟨hends, hcrash⟩ := h hw
  refine ⟨?_, ?_⟩
  · rw [hrun]
    exact hends
  · rw [hrun]
    exact hcrash

theorem Survives.pure (h : Rest E s) (a : α) (hS : ∀ k, S k s) : Survives E (Pure.pure a : Kern Sys α) s S := by
  refine fun _ => ⟨fun b t ht => ?_, fun k => ⟨s, hS k, h, ?_⟩⟩
  · cases ht
    exact ⟨h, rfl⟩
  · show Recovers E.sb.log (store (List.take k []) s.disk) _
    rw [List.take_nil]
    exact h.recovers

theorem Survives.panic (h : Rest E s) (x : Panic) (hv : Rest E v) (hS : ∀ k, S k v) (hview : v.fs.view = s.fs.view) :
    Survives E (NewXv6.panic x : Kern Sys α) s S := by
  refine fun _ => ⟨fun b t ht => ?_, fun k => ⟨v, hS k, hv, ?_⟩⟩
  · cases ht
  · show Recovers E.sb.log (store (List.take k []) s.disk) _
    rw [List.take_nil, hview]
    exact h.recovers

/-- What is returned does not matter. -/
theorem Survives.map {m : Kern Sys α} (h : Survives E m s S) (g : α → β) :
    Survives E (m >>= fun a => Pure.pure (g a) : Kern Sys β) s S := by
  intro hw
  rcases hrun : m s with ⟨e | ⟨a, t⟩, w⟩
  · have hall : (m >>= fun a => Pure.pure (g a) : Kern Sys β) s = (.error e, w) := Prog.run_bind_error hrun _
    rw [hall] at hw
    obtain ⟨-, hcrash⟩ := h (by rw [hrun]; exact hw)
    rw [hrun] at hcrash
    refine ⟨fun b t ht => ?_, ?_⟩
    · rw [hall] at ht
      cases ht
    · rw [hall]
      exact hcrash
  · have hall : (m >>= fun a => Pure.pure (g a) : Kern Sys β) s = (.ok (g a, t), w ++ []) := Prog.run_bind hrun rfl
    rw [List.append_nil] at hall
    rw [hall] at hw
    obtain ⟨hends, hcrash⟩ := h (by rw [hrun]; exact hw)
    rw [hrun] at hends hcrash
    refine ⟨fun b u hu => ?_, ?_⟩
    · rw [hall] at hu ⊢
      cases hu
      exact hends a _ rfl
    · rw [hall]
      exact hcrash

/-- A crash in the first part, where the second one is not reached, or in the second part. -/
theorem Survives.bind {m : Kern Sys α} {g : α → Kern Sys β} (hm : Survives E m s S)
    (hS : ∀ k v, S k v → (∀ a t w, m s = (.ok (a, t), w) → k < (writesOf w).length) → T k v)
    (hg : ∀ a t w, m s = (.ok (a, t), w) → (∀ x ∈ w, E.C.assume x) → Rest E t →
      Survives E (g a) t fun k => T ((writesOf w).length + k)) : Survives E (m >>= g) s T := by
  intro hw
  rcases hrun : m s with ⟨e | ⟨a, t⟩, w⟩
  · have hall := Prog.run_bind_error hrun g
    unfold Survives at hm
    rw [hrun] at hm
    rw [hall] at hw
    obtain ⟨-, hcrash⟩ := hm hw
    rw [hrun] at hcrash
    refine ⟨fun b t ht => ?_, fun k => ?_⟩
    · rw [hall] at ht
      cases ht
    · obtain ⟨v, hv, hrec⟩ := hcrash k
      rw [hall]
      refine ⟨v, hS k v hv fun a t w' hok => ?_, hrec⟩
      rw [hrun] at hok
      cases hok
  · have hall := Prog.run_bind_ok hrun g
    unfold Survives at hm
    rw [hrun] at hm
    rw [hall] at hw
    have hfirst : ∀ x ∈ w, E.C.assume x := fun x hx => hw x (List.mem_append_left _ hx)
    obtain ⟨hends, hcrash⟩ := hm hfirst
    rw [hrun] at hends hcrash
    obtain ⟨hrest, hdisk⟩ := hends a t rfl
    obtain ⟨hends', hcrash'⟩ := hg a t w hrun hfirst hrest fun x hx => hw x (List.mem_append_right _ hx)
    refine ⟨fun b u hu => ?_, fun k => ?_⟩
    · rw [hall] at hu ⊢
      obtain ⟨hrest', hdisk'⟩ := hends' b u hu
      refine ⟨hrest', ?_⟩
      rw [writesOf_append, store_append, hdisk', hdisk]
    · rw [hall, crashAfter, writesOf_append]
      by_cases hk : k < (writesOf w).length
      · obtain ⟨v, hv, hrec⟩ := hcrash k
        rw [List.take_append_of_le_length (by omega)]
        refine ⟨v, hS k v hv fun a' t' w' hok => ?_, hrec⟩
        rw [hrun] at hok
        cases hok
        exact hk
      · obtain ⟨v, hv, hrec⟩ := hcrash' (k - (writesOf w).length)
        have hsum : (writesOf w).length + (k - (writesOf w).length) = k := by omega
        rw [← hsum, List.take_length_add_append, store_append, ← hdisk]
        exact ⟨v, hv, hrec⟩

/-! ## Calls of one transaction -/

theorem runCall_survives (h : Rest E s) (hend : E.C.assume .endOp) (hW : ∀ x, E.W x) (devsw : Nat → Option Devsw)
    (hp : s.proc pid = some p) {c : Call} (hc : c.Single) :
    Survives E (runCall devsw pid p c) s (Whole (runCall devsw pid p c) s) :=
  (runCall_oneOp h.still h.unused devsw pid p hc).survives h hend fun _ hinv =>
    wp_runCall hinv hW devsw hp c fun _ ht => ht

/-! ## `write` -/

variable (devsw : Nat → Option Devsw)

theorem writeChunk_survives (h : Rest E s) (hend : E.C.assume .endOp) (hW : ∀ x, E.W x) {src : List UInt8}
    (hlen : src.length ≤ maxWrite) (ht : (s.ftable f).type = .inode) (hw : (s.ftable f).writable = true) :
    Survives E (writeChunk devsw f src) s (Whole (writeChunk devsw f src) s) :=
  (writeChunk_oneOp devsw h.still f src).survives h hend fun _ hinv =>
    wp_writeChunk hinv hW devsw (Nat.lt_of_le_of_lt hlen (by decide)) ht hw fun _ _ hinv' _ _ => hinv'

/-- `writei` returns -1 or the number of bytes, unless it hands them to a device. -/
theorem writei_short {fs : FsState} (ip : Slot) {src : List UInt8} (off : UInt32) (hlen : src.length < 2 ^ 32) :
    Wp Contract.any (writei devsw ip src off) (fun r t => r < 0 ∨ r = src.length ∨ t = fs) fs := by
  have hn : (UInt32.ofNat src.length).toNat = src.length := by
    rw [UInt32.toNat_ofNat']
    exact Nat.mod_eq_of_lt hlen
  rw [writei, wp_bind, inode_wp]
  dsimp only
  rw [wp_ite]
  refine ⟨fun _ => ?_, fun _ => ?_⟩
  · rw [wp_ite, wp_pure]
    refine ⟨fun _ => Or.inl (by decide), fun _ => ?_⟩
    cases (devsw (fs.icache ip).dinode.major.toInt.toNat).bind Devsw.write with
    | none => exact (wp_pure _ _ _).2 (Or.inl (by decide))
    | some write => exact (wp_pure _ _ _).2 (Or.inr (Or.inr rfl))
  · rw [wp_ite, wp_pure, wp_ite, wp_pure]
    refine ⟨fun _ => Or.inl (by decide), fun _ => ⟨fun _ => Or.inl (by decide), fun _ => ?_⟩⟩
    have hdone : ∀ fs' : FsState, Wp Contract.any (pure ((UInt32.ofNat src.length).toNat : Int) : Kern FsState Int)
        (fun r t => r < 0 ∨ r = src.length ∨ t = fs) fs' := fun fs' => (wp_pure _ _ _).2 (Or.inr (Or.inl (by rw [hn])))
    rw [wp_bind]
    refine wp_any fun _ fs₁ => ?_
    rw [wp_bind, inode_wp, wp_ite]
    refine ⟨fun _ => ?_, fun _ => hdone fs₁⟩
    rw [wp_bind]
    refine wp_any fun _ fs₂ => ?_
    rw [wp_bind]
    exact wp_any fun _ fs₃ => hdone fs₃

/-- Nothing is logged, on the disk `d`. -/
def unlogged (d : Nat → Block) : Hidden LogState Event where
  holds io := io.log.sector = [] ∧ io.bio.disk = d
  change io := io
  event _ := True

theorem beginOp_unlogged (d : Nat → Block) : Blind (unlogged d) beginOp := by
  refine Blind.get (fun _ => rfl) fun io => ?_
  refine Blind.ite (fun _ => Blind.throw _) fun _ => Blind.ite (fun _ => Blind.throw _) fun _ => ?_
  exact Blind.bind (Blind.modify (fun _ h => h) fun _ => rfl) fun _ => Blind.emit trivial

/-- There is nothing to commit. -/
theorem endOp_unlogged (d : Nat → Block) : Blind (unlogged d) endOp := by
  have hcommit : Blind (unlogged d) commit := fun io hio => by
    have hrun := commit_nil hio.1
    refine ⟨fun _ _ => trivial, fun a t ht => ?_, ?_⟩
    · rw [hrun] at ht
      cases ht
      exact hio
    · show commit io = _
      rw [hrun]
      rfl
  refine Blind.bind (Blind.emit trivial) fun _ => Blind.bind (Blind.modify (fun _ h => h) fun _ => rfl) fun _ => ?_
  refine Blind.get (fun _ => rfl) fun io => Blind.ite (fun _ => panic_blind _) fun _ => ?_
  refine Blind.ite (fun _ => ?_) fun _ => Blind.pure _
  refine Blind.bind (Blind.modify (fun _ h => h) fun _ => rfl) fun _ => hcommit.bind fun _ => ?_
  exact Blind.modify (fun _ h => h) fun _ => rfl

/-- A device may take fewer bytes than it is given; then the disk stays as it is. -/
theorem writeChunk_short (hsec : s.fs.io.log.sector = []) {src : List UInt8} (hlen : src.length < 2 ^ 32) :
    Wp Contract.any (writeChunk devsw f src) (fun r t => r < 0 ∨ r = src.length ∨ t.disk = s.disk) s := by
  have hkeep : ∀ {α : Type} {m : Kern Sys α} {t : Sys} {Q : α → Sys → Prop}, Blind (unlogged s.disk).sys m →
      (unlogged s.disk).sys.holds t → (∀ a t, (unlogged s.disk).sys.holds t → Q a t) → Wp Contract.any m Q t :=
    fun {α m t Q} hm ht hQ => Blind.wp (fun _ => trivial) (fun _ => trivial) hm ht hQ
  rw [writeChunk, wp_bind]
  refine hkeep (fs_blind (log_blind (beginOp_unlogged _))) ⟨hsec, rfl⟩ fun _ t ht => ?_
  rw [wp_bind, file_wp, wp_bind]
  refine hkeep (fs_blind (ilock_blind (fun _ => rfl) _)) ht fun _ t₁ ht₁ => ?_
  rw [wp_bind, wp_fs]
  refine (writei_short devsw _ _ hlen).mono fun r fs hr => ?_
  -- what follows returns `r`, and keeps a log that is empty
  have hend : ∀ u, (r < 0 ∨ r = src.length) ∨ (unlogged s.disk).sys.holds u → Wp Contract.any (do
      (liftM (iunlock (t.ftable f).ip) : Kern Sys Unit)
      (liftM endOp : Kern Sys Unit)
      pure r) (fun r t => r < 0 ∨ r = src.length ∨ t.disk = s.disk) u := fun u hu => by
    rw [wp_bind]
    rcases hu with hdone | hu
    · refine wp_any fun _ u => ?_
      rw [wp_bind]
      exact wp_any fun _ u => (wp_pure _ _ _).2 (hdone.imp_right Or.inl)
    · refine hkeep (fs_blind (iunlock_blind _)) hu fun _ u hu => ?_
      rw [wp_bind]
      refine hkeep (fs_blind (log_blind (endOp_unlogged _))) hu fun _ u hu => (wp_pure _ _ _).2 ?_
      exact Or.inr (Or.inr hu.2)
  have hfs : (r < 0 ∨ r = src.length) ∨ (unlogged s.disk).holds fs.io := by
    rcases hr with hneg | hall | rfl
    · exact Or.inl (Or.inl hneg)
    · exact Or.inl (Or.inr hall)
    · exact Or.inr ht₁
  rw [wp_ite]
  refine ⟨fun _ => ?_, fun _ => ?_⟩
  · rw [wp_bind, setFile_wp]
    refine hend _ ?_
    exact hfs
  · refine hend _ ?_
    exact hfs

/-- A round of `filewrite`: what recovery finds is the state before it, or the one after it if it did not take too few bytes. -/
theorem writeChunk_cut (h : Rest E s) (hend : E.C.assume .endOp) (hW : ∀ x, E.W x) {src : List UInt8}
    (hlen : src.length ≤ maxWrite) (ht : (s.ftable f).type = .inode) (hw : (s.ftable f).writable = true) :
    Survives E (writeChunk devsw f src) s fun _ v =>
      v = s ∨ ∃ a, (writeChunk devsw f src s).1 = .ok (a, v) ∧ (a < 0 ∨ a = src.length) := by
  intro hev
  obtain ⟨hends, hcrash⟩ := writeChunk_survives devsw h hend hW hlen ht hw hev
  refine ⟨hends, fun k => ?_⟩
  obtain ⟨v, rfl | ⟨a, ha⟩, hv, hrec⟩ := hcrash k
  · exact ⟨v, Or.inl rfl, hv, hrec⟩
  · have hsec : s.fs.io.log.sector = [] := h.still.2.2.2.1
    have hshort := (writeChunk_short devsw hsec (Nat.lt_of_le_of_lt hlen (by decide))).run (Prod.ext ha rfl) fun _ _ => trivial
    rcases hshort with hneg | hall | hdisk
    · exact ⟨v, Or.inr ⟨a, ha, Or.inl hneg⟩, hv, hrec⟩
    · exact ⟨v, Or.inr ⟨a, ha, Or.inr hall⟩, hv, hrec⟩
    · refine ⟨s, Or.inl rfl, h, ?_⟩
      have hsame : s.fs.view = v.fs.view := by rw [h.view, ← hdisk, hv.view]
      rw [hsame]
      exact hrec

theorem filewriteFrom_nil (fuel : Nat) : filewriteFrom devsw f fuel [] = pure true := by
  cases fuel with
  | zero => rfl
  | succ fuel => rfl

/-- `filewrite` after a round of `n` bytes, with the bytes `rest` to go. -/
def nextChunk (f : Fin NFILE) (fuel n : Nat) (rest : List UInt8) (r : Int) : Kern Sys Bool :=
  if r < 0 then return false
  else if r ≠ n then panic .shortFilewrite
  else filewriteFrom devsw f fuel rest

theorem filewriteFrom_cons (fuel : Nat) {src : List UInt8} (hsrc : src ≠ []) : filewriteFrom devsw f (fuel + 1) src =
    writeChunk devsw f (src.take (min src.length maxWrite)) >>=
      nextChunk devsw f fuel (min src.length maxWrite) (src.drop (min src.length maxWrite)) := by
  rw [filewriteFrom, if_neg fun h => hsrc (List.length_eq_zero_iff.1 h)]
  rfl

/-- The rounds of a shorter write are the first ones of a longer one. -/
theorem filewriteFrom_take (fuel j : Nat) {src : List UInt8} (hsrc : src ≠ []) :
    filewriteFrom devsw f (fuel + 1) (src.take ((j + 1) * maxWrite)) =
      writeChunk devsw f (src.take (min src.length maxWrite)) >>=
        nextChunk devsw f fuel (min src.length maxWrite) ((src.drop (min src.length maxWrite)).take (j * maxWrite)) := by
  have hpos : 0 < maxWrite := by decide
  have hle : maxWrite ≤ (j + 1) * maxWrite := Nat.le_mul_of_pos_left _ (Nat.succ_pos j)
  have hlen : 0 < src.length := List.length_pos_iff.2 hsrc
  have hmin : min (src.take ((j + 1) * maxWrite)).length maxWrite = min src.length maxWrite := by
    rw [List.length_take]
    omega
  have hne : src.take ((j + 1) * maxWrite) ≠ [] := fun h => by
    have hzero := congrArg List.length h
    rw [List.length_take, List.length_nil] at hzero
    omega
  have htake : (src.take ((j + 1) * maxWrite)).take (min src.length maxWrite) = src.take (min src.length maxWrite) := by
    rw [List.take_take]
    congr 1
    omega
  have hdrop : (src.take ((j + 1) * maxWrite)).drop (min src.length maxWrite) =
      (src.drop (min src.length maxWrite)).take (j * maxWrite) := by
    rw [List.drop_take]
    by_cases hbig : maxWrite ≤ src.length
    · rw [Nat.min_eq_right hbig, Nat.succ_mul, Nat.add_sub_cancel]
    · rw [List.drop_eq_nil_of_le (by omega), List.take_nil, List.take_nil]
  rw [filewriteFrom_cons devsw fuel hne, hmin, htake, hdrop]

theorem nextChunk_nil (fuel : Nat) {n : Nat} {r : Int} (s : Sys) (hr : r < 0 ∨ r = n) :
    ∃ b, nextChunk devsw f fuel n [] r s = (.ok (b, s), []) := by
  unfold nextChunk
  by_cases hneg : r < 0
  · exact ⟨false, by rw [if_pos hneg]; rfl⟩
  · refine ⟨true, ?_⟩
    rw [if_neg hneg, if_neg fun hne => hne (hr.resolve_left hneg), filewriteFrom_nil]
    rfl

/-- The bound on the number of rounds does not show. -/
theorem filewriteFrom_fuel (fuel : Nat) : ∀ {fuel' : Nat} {src : List UInt8}, src.length ≤ fuel → src.length ≤ fuel' →
    filewriteFrom devsw f fuel src = filewriteFrom devsw f fuel' src := by
  induction fuel with
  | zero =>
    intro fuel' src hsrc _
    rw [List.length_eq_zero_iff.1 (Nat.le_zero.1 hsrc), filewriteFrom_nil, filewriteFrom_nil]
  | succ fuel ih =>
    intro fuel' src hsrc hsrc'
    by_cases hne : src = []
    · rw [hne, filewriteFrom_nil, filewriteFrom_nil]
    · have hlen := List.length_pos_iff.2 hne
      have hpos : 0 < maxWrite := by decide
      obtain ⟨n, rfl⟩ : ∃ n, fuel' = n + 1 := ⟨fuel' - 1, by omega⟩
      have hdrop : (src.drop (min src.length maxWrite)).length = src.length - min src.length maxWrite := List.length_drop
      have hnext : nextChunk devsw f fuel (min src.length maxWrite) (src.drop (min src.length maxWrite)) =
          nextChunk devsw f n (min src.length maxWrite) (src.drop (min src.length maxWrite)) := by
        unfold nextChunk
        rw [@ih n _ (by omega) (by omega)]
      rw [filewriteFrom_cons devsw fuel hne, filewriteFrom_cons devsw n hne, hnext]

/-- A crash of the loop leaves what some of its rounds leave. -/
theorem filewriteFrom_survives (hend : E.C.assume .endOp) (hW : ∀ x, E.W x) (fuel : Nat) :
    ∀ {s : Sys} {src : List UInt8}, src.length ≤ fuel → Rest E s → (s.ftable f).type = .inode →
      (s.ftable f).writable = true → Survives E (filewriteFrom devsw f fuel src) s fun _ v =>
        ∃ j b w, filewriteFrom devsw f fuel (src.take (j * maxWrite)) s = (.ok (b, v), w) := by
  induction fuel with
  | zero =>
    intro s src hsrc h _ _
    rw [List.length_eq_zero_iff.1 (Nat.le_zero.1 hsrc), filewriteFrom_nil]
    exact .pure h true fun _ => ⟨0, true, [], rfl⟩
  | succ fuel ih =>
    intro s src hsrc h ht hw
    by_cases hne : src = []
    · rw [hne, filewriteFrom_nil]
      exact .pure h true fun _ => ⟨0, true, [], rfl⟩
    · have hzero : ∃ j b w, filewriteFrom devsw f (fuel + 1) (src.take (j * maxWrite)) s = (.ok (b, s), w) := by
        refine ⟨0, true, [], ?_⟩
        rw [Nat.zero_mul, List.take_zero, filewriteFrom_nil]
        rfl
      have hlen := List.length_pos_iff.2 hne
      have hpos : 0 < maxWrite := by decide
      have hmax : maxWrite < 2 ^ 32 := by decide
      have hchunk : (src.take (min src.length maxWrite)).length = min src.length maxWrite := by
        rw [List.length_take]
        omega
      have hone : ∀ {a : Int} {t : Sys} {w : List Event},
          writeChunk devsw f (src.take (min src.length maxWrite)) s = (.ok (a, t), w) →
            a < 0 ∨ a = (min src.length maxWrite : Nat) →
              ∃ j b w, filewriteFrom devsw f (fuel + 1) (src.take (j * maxWrite)) s = (.ok (b, t), w) := fun {a t w} hrun hn => by
        obtain ⟨b, hb⟩ := nextChunk_nil devsw (f := f) fuel t hn
        refine ⟨0 + 1, b, w ++ [], ?_⟩
        rw [filewriteFrom_take devsw fuel 0 hne, Nat.zero_mul, List.take_zero]
        exact Prog.run_bind hrun hb
      rw [filewriteFrom_cons devsw fuel hne]
      refine Survives.bind (writeChunk_cut devsw h hend hW (by omega) ht hw) (fun k v hv _ => ?_) fun a t w hrun hev hrest => ?_
      · rcases hv with rfl | ⟨a, ha, hn⟩
        · exact hzero
        · rw [hchunk] at hn
          exact hone (Prod.ext ha rfl) hn
      · unfold nextChunk
        by_cases hneg : a < 0
        · rw [if_pos hneg]
          exact .pure hrest false fun _ => hone hrun (Or.inl hneg)
        · rw [if_neg hneg]
          by_cases hshort : a ≠ (min src.length maxWrite : Nat)
          · rw [if_pos hshort]
            refine .panic hrest _ h (fun _ => hzero) ?_
            have hsec : s.fs.io.log.sector = [] := h.still.2.2.2.1
            have hdisk := (writeChunk_short devsw hsec (by rw [hchunk]; omega)).run hrun fun _ _ => trivial
            rw [hchunk] at hdisk
            rw [h.view, hrest.view]
            exact ((hdisk.resolve_left hneg).resolve_left hshort).symm
          · rw [if_neg hshort]
            have hkept := (wp_writeChunk h.inv hW devsw (Q := fun _ t => (t.ftable f).type = .inode ∧ (t.ftable f).writable = true)
              (by rw [hchunk]; omega) ht hw fun _ _ _ ht' hw' => ⟨ht', hw'⟩).run hrun hev
            refine (ih (by rw [List.length_drop]; omega) hrest hkept.1 hkept.2).mono fun _ v hv => ?_
            obtain ⟨j, b, w', hj⟩ := hv
            refine ⟨j + 1, b, w ++ w', ?_⟩
            rw [filewriteFrom_take devsw fuel j hne]
            refine Prog.run_bind hrun ?_
            unfold nextChunk
            rw [if_neg hneg, if_neg hshort]
            exact hj

/-! ## Parts of a call -/

/-- `close` of descriptors. -/
def closes (pid : Fin NPROC) (fds : List (Fin NOFILE)) : List (Fin NPROC × Call) := fds.map fun fd : Fin NOFILE => (pid, .close (fd : Nat))

/-- The calls that do a part of what `c` does. -/
inductive Part (pid : Fin NPROC) : Call → List (Fin NPROC × Call) → Prop
  | none (c : Call) : Part pid c []
  | whole (c : Call) : Part pid c [(pid, c)]
  /-- The first `j` rounds. -/
  | write (fd : Int) (src : List UInt8) (j : Nat) : Part pid (.write fd src) [(pid, .write fd (src.take (j * maxWrite)))]
  /-- The first `n` descriptors. -/
  | exit (n : Nat) : Part pid .exit (closes pid ((List.finRange NOFILE).take n))

/-- A state that a part of the call `c` leads to. -/
def Partly (pid : Fin NPROC) (c : Call) (s : Sys) (_ : Nat) (v : Sys) : Prop :=
  ∃ part w, Part pid c part ∧ syscalls devsw part s = (.ok ((), v), w)

theorem syscalls_one (c : Fin NPROC × Call) {w : List Event} (hrun : syscall devsw c.1 c.2 s = (.ok ((), t), w)) :
    syscalls devsw [c] s = (.ok ((), t), w ++ []) := Prog.run_bind hrun rfl

theorem syscall_some (hp : s.proc pid = some p) (c : Call) : syscall devsw pid c s = runCall devsw pid p c s := by
  show (Prog.get >>= _ : Kern Sys Unit) s = _
  rw [Prog.run_bind_ok (Prog.run_get s), hp]
  rfl

theorem syscall_none (hp : s.proc pid = none) (c : Call) : syscall devsw pid c s = (.ok ((), s), []) := by
  show (Prog.get >>= _ : Kern Sys Unit) s = _
  rw [Prog.run_bind_ok (Prog.run_get s), hp]
  rfl

/-- Nothing of the call, or all of it. -/
theorem Whole.partly (hp : s.proc pid = some p) {c : Call} {k : Nat} (hv : Whole (runCall devsw pid p c) s k v) :
    Partly devsw pid c s k v := by
  rcases hv with rfl | ⟨a, ha⟩
  · exact ⟨[], [], .none c, rfl⟩
  · have hrun := syscall_some devsw hp c
    exact ⟨[(pid, c)], _, .whole c, syscalls_one devsw (pid, c) (hrun.trans (Prod.ext ha rfl))⟩

/-- The run of `filewrite` on an open file that can be written. -/
theorem filewrite_run (ht : (s.ftable f).type = .inode) (hw : (s.ftable f).writable = true) (src : List UInt8) :
    filewrite devsw f src s = (do
      let all ← filewriteFrom devsw f src.length src
      return if all then (src.length : Int) else -1 : Kern Sys Int) s := by
  show (file f >>= _ : Kern Sys Int) s = _
  rw [Prog.run_bind_ok (show file f s = (.ok (s.ftable f, s), []) from rfl), ht, hw]
  rfl

/-- A part of a write leads there. -/
theorem partly_write (hp : s.proc pid = some p) {fd : Int} (hfd : argfd p fd = some f) (ht : (s.ftable f).type = .inode)
    (hw : (s.ftable f).writable = true) {src : List UInt8} {j k : Nat} {b : Bool} {w : List Event}
    (hrun : filewriteFrom devsw f src.length (src.take (j * maxWrite)) s = (.ok (b, v), w)) :
    Partly devsw pid (.write fd src) s k v := by
  have hle : (src.take (j * maxWrite)).length ≤ src.length := List.length_take_le' _ _
  rw [filewriteFrom_fuel devsw _ hle (Nat.le_refl _)] at hrun
  have hwrite := (filewrite_run devsw ht hw (src.take (j * maxWrite))).trans (Prog.run_bind hrun rfl)
  have hcall : runCall devsw pid p (.write fd (src.take (j * maxWrite))) s = (.ok ((), v), w ++ [] ++ []) := by
    rw [runCall, hfd]
    exact Prog.run_bind_ok hwrite fun _ => pure ()
  exact ⟨_, _, .write fd src j, syscalls_one devsw (pid, .write fd _) ((syscall_some devsw hp _).trans hcall)⟩

theorem write_survives (h : Rest E s) (hend : E.C.assume .endOp) (hW : ∀ x, E.W x) (hp : s.proc pid = some p) (fd : Int)
    (src : List UInt8) : Survives E (runCall devsw pid p (.write fd src)) s (Partly devsw pid (.write fd src) s) := by
  have hzero : ∀ k, Partly devsw pid (.write fd src) s k s := fun _ => ⟨[], [], .none _, rfl⟩
  rw [runCall]
  cases hfd : argfd p fd with
  | none => exact .pure h () hzero
  | some f =>
    -- nothing is written
    have hno : ∀ r : Int, filewrite devsw f src s = (.ok (r, s), []) → Survives E (Functor.discard (filewrite devsw f src)) s
        (Partly devsw pid (.write fd src) s) := fun r hr => (Survives.congr (.pure h r hzero) hr).map _
    have hget : ∀ {g : File → Kern Sys Int}, (file f >>= g) s = g (s.ftable f) s := fun {g} =>
      Prog.run_bind_ok (show file f s = (.ok (s.ftable f, s), []) from rfl) g
    by_cases hw : (s.ftable f).writable = true
    · cases ht : (s.ftable f).type with
      | none =>
        refine (Survives.congr (.panic h .filewrite h hzero rfl) ?_).map _
        rw [filewrite, hget, hw, ht]
        rfl
      | pipe =>
        refine hno (-1) ?_
        rw [filewrite, hget, hw, ht]
        rfl
      | inode =>
        have hloop : Survives E (filewriteFrom devsw f src.length src) s (Partly devsw pid (.write fd src) s) :=
          (filewriteFrom_survives devsw hend hW src.length (Nat.le_refl _) h ht hw).mono fun k v hv => by
            obtain ⟨j, b, w, hrun⟩ := hv
            exact partly_write devsw hp hfd ht hw hrun
        exact ((hloop.map _).congr (filewrite_run devsw ht hw src)).map _
    · refine hno (-1) ?_
      rw [filewrite, hget, if_pos (by simpa using hw)]
      rfl

/-! ## `exit` -/

theorem syscall_survives (h : Rest E s) (hend : E.C.assume .endOp) (hW : ∀ x, E.W x) {c : Call} (hc : c.Single) :
    Survives E (syscall devsw pid c) s (Whole (syscall devsw pid c) s) := by
  cases hp : s.proc pid with
  | none => exact .congr (.pure h () fun _ => Or.inl rfl) (syscall_none devsw hp c)
  | some p =>
    have hrun := syscall_some devsw hp c
    refine (Survives.congr (runCall_survives h hend hW devsw hp hc) hrun).mono fun k v hv => ?_
    unfold Whole
    rw [hrun]
    exact hv

/-- A crash among calls that are one transaction each. -/
theorem singles_survive (hend : E.C.assume .endOp) (hW : ∀ x, E.W x) (tr : List (Fin NPROC × Call)) :
    ∀ {s : Sys}, (∀ c ∈ tr, c.2.Single) → Rest E s → Survives E (syscalls devsw tr) s fun _ v =>
      ∃ n w, syscalls devsw (tr.take n) s = (.ok ((), v), w) := by
  induction tr with
  | nil => exact fun _ h => .pure h () fun _ => ⟨0, [], rfl⟩
  | cons c tr ih =>
    intro s hc h
    refine Survives.bind (syscall_survives devsw h hend hW (hc c List.mem_cons_self)) (fun k v hv _ => ?_)
      fun a t w hrun _ hrest => ?_
    · rcases hv with rfl | ⟨a, ha⟩
      · exact ⟨0, [], rfl⟩
      · exact ⟨1, _, syscalls_one devsw c (Prod.ext ha rfl)⟩
    · refine (ih (fun c' hc' => hc c' (List.mem_cons_of_mem _ hc')) hrest).mono fun k v hv => ?_
      obtain ⟨n, w', hn⟩ := hv
      exact ⟨n + 1, w ++ w', Prog.run_bind hrun hn⟩

/-- A change of the processes. -/
def procs (g : (Fin NPROC → Option Proc) → Fin NPROC → Option Proc) : Hidden Sys Event where
  holds _ := True
  change s := { s with proc := g s.proc }
  event _ := True

theorem fs_procs (g : (Fin NPROC → Option Proc) → Fin NPROC → Option Proc) (m : Kern FsState α) :
    Blind (procs g) (liftM m : Kern Sys α) := by
  refine Blind.zoom ?_ ?_ ?_ ?_ ?_ (Blind.same m)
  · exact fun _ _ => trivial
  · exact fun _ _ _ _ => trivial
  · exact fun _ _ => trivial
  · exact fun _ => rfl
  · exact fun _ _ => rfl

/-- `fileclose` does not see the processes. -/
theorem fileclose_procs (g : (Fin NPROC → Option Proc) → Fin NPROC → Option Proc) (f : Fin NFILE) :
    Blind (procs g) (fileclose f) := by
  have hset : ∀ h : File → File, Blind (procs g) (setFile f h) := fun h => Blind.modify (fun _ hs => hs) fun _ => rfl
  refine Blind.bind (Blind.get (fun _ => rfl) fun _ => Blind.pure _) fun x => Blind.ite (fun _ => panic_blind _) fun _ => ?_
  refine Blind.ite (fun _ => hset _) fun _ => (hset _).bind fun _ => ?_
  cases x.type with
  | none => exact Blind.pure _
  | pipe => exact Blind.pure _
  | inode => exact (fs_procs g _).bind fun _ => (fs_procs g _).bind fun _ => fs_procs g _

/-- `fdclear` on the processes. -/
def clearFd (pid : Fin NPROC) (fd : Fin NOFILE) (proc : Fin NPROC → Option Proc) : Fin NPROC → Option Proc :=
  Function.update proc pid ((proc pid).map fun p => { p with ofile := Function.update p.ofile fd none })

/-- `exit` closes a file and clears its descriptor after that, `close` before. -/
theorem fileclose_fdclear (fd : Fin NOFILE) (s : Sys) : (do
    fileclose f
    fdclear pid fd : Kern Sys Unit) s = (do
    fdclear pid fd
    fileclose f : Kern Sys Unit) s := by
  have hclear : ∀ s, fdclear pid fd s = (.ok ((), (procs (clearFd pid fd)).change s), []) := fun _ => rfl
  have hat := fileclose_procs (clearFd pid fd) f s trivial
  rw [Prog.run_bind_ok (hclear s)]
  rcases hrun : fileclose f s with ⟨e | ⟨a, t⟩, w⟩
  · rw [Prog.run_bind_error hrun, (hat.error hrun).1]
    rfl
  · rw [Prog.run_bind hrun (hclear t), (hat.ok hrun).1, List.append_nil]
    rfl

theorem fileclose_proc {w : List Event} (hrun : fileclose f s = (.ok ((), t), w)) : t.proc = s.proc := by
  have hsame := ((fileclose_procs (fun _ => s.proc) f s trivial).ok hrun).1
  have hrun' : fileclose f s = (.ok ((), { t with proc := s.proc }), w) := hsame
  rw [hrun] at hrun'
  have ht : t = { t with proc := s.proc } := by
    injection hrun' with hok
    injection hok with hpair
    injection hpair
  rw [ht]

/-- A descriptor as `close` is given it. -/
theorem syscall_close {q : Proc} (hq : s.proc pid = some q) (fd : Fin NOFILE) : syscall devsw pid (.close fd) s =
    ((q.ofile fd).elim (pure ()) fun f => (do
      fdclear pid fd
      fileclose f : Kern Sys Unit)) s := by
  have hfd : (0 : Int) ≤ (fd : Nat) ∧ ((fd : Nat) : Int) < NOFILE := ⟨Int.natCast_nonneg _, by exact_mod_cast fd.isLt⟩
  have heta : (⟨((fd : Nat) : Int).toNat, by omega⟩ : Fin NOFILE) = fd := Fin.ext (Int.toNat_natCast _)
  rw [syscall_some devsw hq, runCall, dif_pos hfd, heta]
  cases q.ofile fd with
  | none => rfl
  | some f => rfl

/-- A round of the loop of `exit`. -/
def exitFile (pid : Fin NPROC) (p : Proc) (fd : Fin NOFILE) : Kern Sys Unit :=
  (p.ofile fd).elim (pure ()) fun f => do
    fileclose f
    fdclear pid fd

/-- The end of `exit`. -/
def exitCwd (pid : Fin NPROC) (cwd : Slot) : Kern Sys Unit := do
  beginOp
  iput cwd
  endOp
  Prog.modify fun s => { s with proc := Function.update s.proc pid none }

theorem exit_eq (hinit : pid ≠ initproc) : exit pid p =
    Prog.forEach (exitFile pid p) (List.finRange NOFILE) >>= fun _ => exitCwd pid p.cwd := by
  rw [exit, if_neg hinit]
  refine congrArg (fun loop => Prog.forEach loop (List.finRange NOFILE) >>= fun _ => exitCwd pid p.cwd) (funext fun fd => ?_)
  unfold exitFile
  cases p.ofile fd with
  | none => rfl
  | some f => rfl

/-- The loop of `exit` closes the descriptors, one after the other. -/
theorem closes_run (fds : List (Fin NOFILE)) :
    ∀ {s : Sys} {q : Proc}, fds.Nodup → s.proc pid = some q → (∀ fd ∈ fds, q.ofile fd = p.ofile fd) →
      Prog.forEach (exitFile pid p) fds s = syscalls devsw (closes pid fds) s ∧
        ∀ t w, syscalls devsw (closes pid fds) s = (.ok ((), t), w) → ∃ q', t.proc pid = some q' ∧ q'.cwd = q.cwd := by
  induction fds with
  | nil =>
    refine fun {s q} _ hq _ => ⟨rfl, fun t w hrun => ?_⟩
    cases hrun
    exact ⟨q, hq, rfl⟩
  | cons fd fds ih =>
    intro s q hnodup hq hsame
    obtain ⟨hnot, hnodup⟩ := List.nodup_cons.1 hnodup
    -- one round
    have hround : exitFile pid p fd s = syscall devsw pid (.close fd) s := by
      rw [syscall_close devsw hq fd, hsame fd List.mem_cons_self, exitFile]
      cases p.ofile fd with
      | none => rfl
      | some f => exact fileclose_fdclear fd s
    -- the descriptors after it
    have hproc : ∀ {t : Sys} {w : List Event}, exitFile pid p fd s = (.ok ((), t), w) →
        ∃ q', t.proc pid = some q' ∧ q'.cwd = q.cwd ∧ ∀ fd', fd' ≠ fd → q'.ofile fd' = q.ofile fd' := fun {t w} hrun => by
      rw [exitFile] at hrun
      cases hf : p.ofile fd with
      | none =>
        rw [hf] at hrun
        cases hrun
        exact ⟨q, hq, rfl, fun _ _ => rfl⟩
      | some f =>
        rw [hf, Option.elim_some] at hrun
        rcases hclose : fileclose f s with ⟨e | ⟨a, u⟩, v⟩
        · rw [Prog.run_bind_error hclose] at hrun
          cases hrun
        · have hu := fileclose_proc hclose
          rw [Prog.run_bind_ok hclose] at hrun
          cases hrun
          refine ⟨{ q with ofile := Function.update q.ofile fd none }, ?_, rfl, fun fd' hne => Function.update_of_ne hne _ _⟩
          show Function.update u.proc pid _ pid = _
          rw [Function.update_self, hu, hq]
          rfl
    have hcons : syscalls devsw (closes pid (fd :: fds)) = (syscall devsw pid (.close fd) >>= fun _ =>
        syscalls devsw (closes pid fds)) := rfl
    have hloop : Prog.forEach (exitFile pid p) (fd :: fds) = (exitFile pid p fd >>= fun _ =>
        Prog.forEach (exitFile pid p) fds) := rfl
    rw [hcons, hloop]
    rcases hrun : exitFile pid p fd s with ⟨e | ⟨a, t⟩, w⟩
    · have hrun' := hround.symm.trans hrun
      rw [Prog.run_bind_error hrun, Prog.run_bind_error hrun']
      exact ⟨rfl, fun t w h => by cases h⟩
    · have hrun' := hround.symm.trans hrun
      obtain ⟨q', hq', hcwd, hof⟩ := hproc hrun
      obtain ⟨hsame', hend⟩ := ih hnodup hq' fun fd' hfd' => by
        rw [hof fd' fun he => hnot (he ▸ hfd')]
        exact hsame fd' (List.mem_cons_of_mem _ hfd')
      rw [Prog.run_bind_ok hrun, Prog.run_bind_ok hrun', hsame']
      refine ⟨rfl, fun u v huv => ?_⟩
      rcases hrest : syscalls devsw (closes pid fds) t with ⟨e | ⟨b, r⟩, x⟩
      · rw [hrest] at huv
        cases huv
      · rw [hrest] at huv
        cases huv
        obtain ⟨q'', hq'', hcwd'⟩ := hend _ _ hrest
        exact ⟨q'', hq'', hcwd'.trans hcwd⟩

theorem wp_exitCwd (h : SysInv E s) (hW : ∀ x, E.W x) (hp : s.proc pid = some p) :
    Wp E.C (exitCwd pid p.cwd) (fun _ t => SysInv E t) s := by
  rw [exitCwd, wp_bind]
  refine begin_wp h.fs fun fs₁ hfs₁ hst₁ _ => ?_
  rw [wp_bind, wp_fs]
  refine wp_iput hfs₁ (Sys.cwd_pos hp) (frees_all hW) fun fs₂ hfs₂ hst₂ => ?_
  rw [wp_bind]
  refine end_wp (s := { s with fs := fs₂ }) hfs₂ fun fs₃ hfs₃ hst₃ _ => ?_
  rw [wp_modify]
  have hst : Stable (drop s.refs p.cwd) s.fs fs₃ := (hst₁.mono (drop_le _ _)).trans (hst₂.trans hst₃)
  rw [← refs_exit hp] at hfs₃ hst
  exact ⟨hfs₃, (h.opened.proc _).fs hst⟩

theorem exitCwd_survives (h : Rest E s) (hend : E.C.assume .endOp) (hW : ∀ x, E.W x) (hp : s.proc pid = some p) :
    Survives E (exitCwd pid p.cwd) s (Whole (exitCwd pid p.cwd) s) := by
  have hop : OneOp s.disk (exitCwd pid p.cwd) s := by
    refine .begin h.still fun hj => Closes.fs hj ((joined_veil _).iput _) fun _ t ht _ => ?_
    exact Closes.close ht fun v => ⟨_, _, rfl, rfl⟩
  exact hop.survives h hend fun _ hinv => wp_exitCwd hinv hW hp

theorem exit_survives (h : Rest E s) (hend : E.C.assume .endOp) (hW : ∀ x, E.W x) (hp : s.proc pid = some p) :
    Survives E (exit pid p) s (Partly devsw pid .exit s) := by
  by_cases hinit : pid = initproc
  · rw [exit, if_pos hinit]
    exact .panic h _ h (fun _ => ⟨[], [], .none _, rfl⟩) rfl
  · -- the closes, and the end
    obtain ⟨hloop, hproc⟩ := closes_run devsw (List.finRange NOFILE) (List.nodup_finRange _) hp fun _ _ => rfl
    have hrun : exit pid p s = (syscalls devsw (closes pid (List.finRange NOFILE)) >>= fun _ => exitCwd pid p.cwd) s := by
      rw [exit_eq hinit]
      exact Prog.run_bind_congr hloop _
    have hsingle : ∀ c ∈ closes pid (List.finRange NOFILE), c.2.Single := fun c hc => by
      obtain ⟨fd, -, rfl⟩ := List.mem_map.1 hc
      trivial
    refine Survives.congr ?_ hrun
    refine Survives.bind (singles_survive devsw hend hW _ hsingle h) (fun k v hv _ => ?_) fun a t w hcloses _ hrest => ?_
    · obtain ⟨n, w, hn⟩ := hv
      refine ⟨_, w, .exit n, ?_⟩
      rw [closes, List.map_take]
      exact hn
    · obtain ⟨q, hq, hcwd⟩ := hproc t w hcloses
      have hlast := exitCwd_survives hrest hend hW hq
      rw [hcwd] at hlast
      refine hlast.mono fun k v hv => ?_
      rcases hv with rfl | ⟨b, hb⟩
      · refine ⟨_, w, .exit NOFILE, ?_⟩
        rw [List.take_of_length_le (by rw [List.length_finRange])]
        exact hcloses
      · have hall : exit pid p s = _ := hrun.trans (Prog.run_bind hcloses (Prod.ext hb rfl))
        exact ⟨_, _, .whole .exit, syscalls_one devsw (pid, .exit) ((syscall_some devsw hp .exit).trans hall)⟩

/-! ## Runs -/

/-- One call. -/
theorem call_survives (h : Rest E s) (hend : E.C.assume .endOp) (hW : ∀ x, E.W x) (pid : Fin NPROC) (c : Call) :
    Survives E (syscall devsw pid c) s (Partly devsw pid c s) := by
  cases hp : s.proc pid with
  | none => exact .congr (.pure h () fun _ => ⟨[], [], .none c, rfl⟩) (syscall_none devsw hp c)
  | some p =>
    have hsingle : c.Single → Survives E (runCall devsw pid p c) s (Partly devsw pid c s) := fun hc =>
      (runCall_survives h hend hW devsw hp hc).mono fun _ _ hv => hv.partly devsw hp
    refine Survives.congr ?_ (syscall_some devsw hp c)
    cases c with
    | write fd src => exact write_survives devsw h hend hW hp fd src
    | exit => exact exit_survives devsw h hend hW hp
    | «open» path omode => exact hsingle trivial
    | read fd n => exact hsingle trivial
    | close fd => exact hsingle trivial
    | dup fd => exact hsingle trivial
    | fstat fd => exact hsingle trivial
    | link old new => exact hsingle trivial
    | unlink path => exact hsingle trivial
    | mkdir path => exact hsingle trivial
    | mknod path major minor => exact hsingle trivial
    | chdir path => exact hsingle trivial
    | pipe fd mem => exact hsingle trivial
    | exec path reads => exact hsingle trivial
    | fork mem => exact hsingle trivial

/-- `done` are the first calls of `tr`, and a part of the next one. -/
inductive Before : List (Fin NPROC × Call) → List (Fin NPROC × Call) → Prop
  | nil : Before [] []
  | part {c : Fin NPROC × Call} {tr part : List (Fin NPROC × Call)} (h : Part c.1 c.2 part) : Before (c :: tr) part
  | next {c : Fin NPROC × Call} {tr done : List (Fin NPROC × Call)} (h : Before tr done) : Before (c :: tr) (c :: done)

/-- What a crash of the calls `tr` after `k` writes leaves: a run of `done`, in which no call is missing that had ended. -/
def Cut (tr : List (Fin NPROC × Call)) (s : Sys) (k : Nat) (v : Sys) : Prop :=
  ∃ done w, Before tr done ∧ syscalls devsw done s = (.ok ((), v), w) ∧
    ∀ pre t w, pre <+: tr → syscalls devsw pre s = (.ok ((), t), w) → (writesOf w).length ≤ k → pre <+: done

theorem syscalls_survive (hend : E.C.assume .endOp) (hW : ∀ x, E.W x) (tr : List (Fin NPROC × Call)) :
    ∀ {s : Sys}, Rest E s → Survives E (syscalls devsw tr) s (Cut devsw tr s) := by
  induction tr with
  | nil => exact fun h => .pure h () fun _ => ⟨[], [], .nil, rfl, fun pre _ _ hpre _ _ => hpre⟩
  | cons c tr ih =>
    intro s h
    -- a run of the calls is one of the first call
    have hfirst : ∀ {pre : List (Fin NPROC × Call)} {u : Sys} {x : List Event},
        syscalls devsw (c :: pre) s = (.ok ((), u), x) → ∃ t w v, syscall devsw c.1 c.2 s = (.ok ((), t), w) ∧
          syscalls devsw pre t = (.ok ((), u), v) ∧ x = w ++ v := fun {pre u x} hrun => by
      have hcons : syscalls devsw (c :: pre) = (syscall devsw c.1 c.2 >>= fun _ => syscalls devsw pre) := rfl
      rw [hcons] at hrun
      obtain ⟨a, t, w, v, hc, hrest, hx⟩ := Prog.of_run_bind hrun
      exact ⟨t, w, v, hc, hrest, hx⟩
    refine Survives.bind (call_survives devsw h hend hW c.1 c.2) (fun k v hv hlt => ?_) fun a t w hrun _ hrest => ?_
    · obtain ⟨part, w, hpart, hrun⟩ := hv
      refine ⟨part, w, .part hpart, hrun, fun pre u x hpre hu hk => ?_⟩
      rcases List.prefix_cons_iff.1 hpre with rfl | ⟨pre, rfl, -⟩
      · exact List.nil_prefix
      · obtain ⟨t', w', v', hc, -, rfl⟩ := hfirst hu
        have hk' := hlt () t' w' hc
        rw [writesOf_append, List.length_append] at hk
        omega
    · refine (ih hrest).mono fun k v hv => ?_
      obtain ⟨done, w', hbefore, hdone, hpres⟩ := hv
      refine ⟨c :: done, w ++ w', .next hbefore, Prog.run_bind hrun hdone, fun pre u x hpre hu hk => ?_⟩
      rcases List.prefix_cons_iff.1 hpre with rfl | ⟨pre, rfl, hpre'⟩
      · exact List.nil_prefix
      · obtain ⟨t', w₁, v', hc, hrest', rfl⟩ := hfirst hu
        cases hrun.symm.trans hc
        rw [writesOf_append, List.length_append] at hk
        exact List.cons_prefix_cons.2 ⟨rfl, hpres pre u v' hpre' hrest' (by omega)⟩

end

end NewXv6
