import NewXv6.Sys.Spec

/-!
# Every call keeps the invariant

One lemma for each function of `file.c`, `sysfile.c` and `proc.c`, and from them `syscalls_inv`: in every state a
sequence of calls leads to, the invariant of the file system holds.
-/

namespace NewXv6

open Lib

section Calls

variable {E : Setting} {m : Slot → Nat} {s t : Sys} {ip : Slot} {f : Fin NFILE} {pid : Fin NPROC}

/-- Where everything may be logged, so may what `iput` frees. -/
theorem frees_all (hW : ∀ x, E.W x) {m' : Slot → Nat} {fs : FsState} {jp : Slot} (_ : Frees m' fs jp) :
    E.W (IBLOCK (fs.icache jp).inum) ∧ ∀ b, Gone E fs (fs.icache jp).inum b → E.W (BBLOCK b E.sb.ninodes) :=
  ⟨hW _, fun _ _ => hW _⟩

/-! ## `file.c` -/

/-- A file that stays what it is. -/
theorem SysInv.setFile (h : SysInv E s) {x : File} (ht : x.type = (s.ftable f).type) (hi : x.ip = (s.ftable f).ip)
    (hw : x.writable = (s.ftable f).writable) (hr : x.type ≠ .none → 0 < x.ref) :
    SysInv E { s with ftable := Function.update s.ftable f x } := by
  refine ⟨?_, h.opened.setFile hr fun hx => ?_⟩
  · rw [Sys.refs_setFile ht hi]
    exact h.fs
  · rw [ht] at hx
    rw [hi, hw]
    exact h.opened.held f hx

theorem wp_fileclose (h : SysInv E s) (hW : ∀ x, E.W x) {Q : Unit → Sys → Prop}
    (hQ : ∀ t, SysInv E t → t.proc = s.proc → Q () t) : Wp E.C (fileclose f) Q s := by
  rw [fileclose, wp_bind, file_wp, wp_ite, wp_panic]
  refine ⟨fun _ => E.fail _, fun hr => ?_⟩
  rw [wp_ite, setFile_wp]
  refine ⟨fun hmore => hQ _ (h.setFile rfl rfl rfl fun _ => hmore) rfl, fun _ => ?_⟩
  rw [wp_bind, setFile_wp]
  -- neither a free structure nor a pipe points to an inode
  have hother : (s.ftable f).type ≠ .inode → SysInv E { s with
      ftable := Function.update s.ftable f { s.ftable f with ref := 0, type := .none } } := by
    intro hne
    refine ⟨?_, h.opened.setFile (fun hx => absurd rfl hx) fun hx => by cases hx⟩
    rw [Sys.refs_other hne (by simp)]
    exact h.fs
  cases ht : (s.ftable f).type with
  | none => exact (wp_pure _ _ _).2 (hQ _ (hother (by simp [ht])) rfl)
  | pipe => exact (wp_pure _ _ _).2 (hQ _ (hother (by simp [ht])) rfl)
  | inode =>
    have hpos := Sys.file_pos ht
    have hrefs := Sys.refs_close (x := { s.ftable f with ref := 0, type := .none }) ht rfl
    have ho : Opened { s with ftable := Function.update s.ftable f { s.ftable f with ref := 0, type := .none } } :=
      h.opened.setFile (fun hx => absurd rfl hx) fun hx => by cases hx
    dsimp only
    generalize hs₁ : ({ s with ftable := Function.update s.ftable f { s.ftable f with ref := 0, type := .none } } : Sys) = s₁
      at hrefs ho
    have hfs : s₁.fs = s.fs := by rw [← hs₁]
    have hinv : Inv E .no s.refs s₁.fs := by rw [hfs]; exact h.fs
    rw [wp_bind]
    refine begin_wp hinv fun fs hfs' hst _ => ?_
    rw [wp_bind, wp_fs]
    refine wp_iput hfs' hpos (frees_all hW) fun fs₂ hfs₂ hst₂ => ?_
    rw [← hrefs] at hfs₂ hst₂
    refine end_wp (s := { s₁ with fs := fs₂ }) hfs₂ fun fs₃ hfs₃ hst₃ _ => hQ _ ⟨hfs₃, ?_⟩ ?_
    · have hle : ∀ ip, s₁.refs ip ≤ s.refs ip := by rw [hrefs]; exact drop_le s.refs _
      exact ho.fs ((hst.mono hle).trans (hst₂.trans hst₃))
    · rw [← hs₁]

theorem wp_filestat (h : SysInv E s) {Q : Option Stat → Sys → Prop} (hQ : ∀ r t, SysInv E t → Q r t) :
    Wp E.C (filestat f) Q s := by
  rw [filestat, wp_bind, file_wp]
  cases ht : (s.ftable f).type with
  | none => exact (wp_pure _ _ _).2 (hQ _ s h)
  | pipe => exact (wp_pure _ _ _).2 (hQ _ s h)
  | inode =>
    have hpos := Sys.file_pos ht
    dsimp only
    rw [wp_bind, wp_fs]
    refine wp_ilock h.fs hpos fun fs hfs hst _ _ _ => ?_
    rw [wp_bind, wp_fs, stati, wp_bind, inode_wp, wp_pure, wp_bind, wp_fs]
    refine wp_iunlock hfs hpos fun fs₂ _ hfs₂ hst₂ _ => ?_
    rw [wp_pure]
    exact hQ _ _ ⟨hfs₂, h.opened.fs (hst.trans hst₂)⟩

theorem wp_fileread (h : SysInv E s) (hW : ¬E.P.strict → ∀ x, E.W x) (devsw : Nat → Option Devsw) (n : UInt32)
    {Q : Option (List UInt8) → Sys → Prop} (hQ : ∀ r t, SysInv E t → Q r t) : Wp E.C (fileread devsw f n) Q s := by
  rw [fileread, wp_bind, file_wp, wp_ite, wp_pure]
  refine ⟨fun _ => hQ _ s h, fun _ => ?_⟩
  cases ht : (s.ftable f).type with
  | none =>
    dsimp only
    rw [wp_panic]
    exact E.fail _
  | pipe => exact (wp_pure _ _ _).2 (hQ _ s h)
  | inode =>
    have hpos := Sys.file_pos ht
    dsimp only
    rw [wp_bind, wp_fs]
    refine wp_ilock h.fs hpos fun fs hfs hst hv _ _ => ?_
    rw [wp_bind, wp_fs]
    refine wp_readi hfs hpos hv hW devsw fun r fs₂ hfs₂ hg _ _ => ?_
    have hinv : SysInv E { s with fs := fs₂ } := ⟨hfs₂, h.opened.fs (hst.trans (hg.stable _))⟩
    have hend : ∀ {t : Sys}, SysInv E t → t.refs = s.refs → Wp E.C (do
        (liftM (iunlock (s.ftable f).ip) : Kern Sys Unit)
        pure r) Q t := by
      intro t ht hrefs
      rw [wp_bind, wp_fs]
      refine wp_iunlock ht.fs (by rw [hrefs]; exact hpos) fun fs₃ _ hfs₃ hst₃ _ => ?_
      rw [wp_pure]
      exact hQ _ _ ⟨hfs₃, ht.opened.fs hst₃⟩
    cases r with
    | none => exact hend hinv rfl
    | some data =>
      dsimp only
      rw [wp_bind, setFile_wp]
      refine hend (hinv.setFile rfl rfl rfl fun hx => h.opened.ref f hx) ?_
      exact Sys.refs_setFile (s := { s with fs := fs₂ }) rfl rfl

theorem wp_writeChunk (h : SysInv E s) (hW : ∀ x, E.W x) (devsw : Nat → Option Devsw) {src : List UInt8}
    (hlen : src.length < 2 ^ 32) (ht : (s.ftable f).type = .inode) (hw : (s.ftable f).writable = true)
    {Q : Int → Sys → Prop}
    (hQ : ∀ r t, SysInv E t → (t.ftable f).type = .inode → (t.ftable f).writable = true → Q r t) :
    Wp E.C (writeChunk devsw f src) Q s := by
  have hpos := Sys.file_pos ht
  obtain ⟨hv, hd⟩ := h.opened.held f ht
  rw [writeChunk, wp_bind]
  refine begin_wp h.fs fun fs hfs hst hic => ?_
  rw [wp_bind, file_wp, wp_bind, wp_fs]
  refine wp_ilock hfs hpos fun fs₂ hfs₂ hst₂ hv₂ _ _ => ?_
  rw [wp_bind, wp_fs]
  have hst₂ := hst.trans hst₂
  have hnodir : (fs₂.icache (s.ftable f).ip).dinode.type ≠ T_DIR := by
    rw [(hst₂.valid _ hpos hv).2]
    exact hd hw
  refine wp_writei hfs₂ hpos hv₂ devsw hlen (fun hdir => absurd hdir hnodir) (Room.all hW _ _ _) (fun _ => hW _)
    fun r fs₃ hfs₃ hst₃ _ => ?_
  have hinv : SysInv E { s with fs := fs₃ } := ⟨hfs₃, h.opened.fs (hst₂.trans hst₃)⟩
  have hend : ∀ {t : Sys}, SysInv E t → t.refs = s.refs → (t.ftable f).type = .inode → (t.ftable f).writable = true →
      Wp E.C (do
        (liftM (iunlock (s.ftable f).ip) : Kern Sys Unit)
        (liftM endOp : Kern Sys Unit)
        pure r) Q t := by
    intro t hinv hrefs ht' hw'
    rw [wp_bind, wp_fs]
    refine wp_iunlock hinv.fs (by rw [hrefs]; exact hpos) fun fs₄ _ hfs₄ hst₄ _ => ?_
    exact end_return (s := { t with fs := fs₄ }) (hinv.opened.fs hst₄) hfs₄ fun fs₅ h₅ => hQ r _ h₅ ht' hw'
  rw [wp_ite]
  refine ⟨fun _ => ?_, fun _ => hend hinv rfl ht hw⟩
  rw [wp_bind, setFile_wp]
  refine hend (hinv.setFile rfl rfl rfl fun hx => h.opened.ref f hx) ?_ ?_ ?_
  · exact Sys.refs_setFile (s := { s with fs := fs₃ }) rfl rfl
  · simpa using ht
  · simpa using hw

theorem wp_filewriteFrom (hW : ∀ x, E.W x) (devsw : Nat → Option Devsw) (fuel : Nat) :
    ∀ {s : Sys} {src : List UInt8}, SysInv E s → (s.ftable f).type = .inode → (s.ftable f).writable = true →
      ∀ {Q : Bool → Sys → Prop}, (∀ r t, SysInv E t → Q r t) → Wp E.C (filewriteFrom devsw f fuel src) Q s := by
  induction fuel with
  | zero =>
    intro s src h _ _ Q hQ
    exact (wp_pure _ _ _).2 (hQ _ s h)
  | succ fuel ih =>
    intro s src h ht hw Q hQ
    rw [filewriteFrom, wp_ite, wp_pure]
    refine ⟨fun _ => hQ _ s h, fun _ => ?_⟩
    dsimp only
    rw [wp_bind]
    refine wp_writeChunk h hW devsw ?_ ht hw fun r t hinv ht' hw' => ?_
    · rw [List.length_take]
      refine Nat.lt_of_le_of_lt (Nat.min_le_left _ _) (Nat.lt_of_le_of_lt (Nat.min_le_right _ _) ?_)
      decide
    · rw [wp_ite, wp_pure, wp_ite, wp_panic]
      exact ⟨fun _ => hQ _ t hinv, fun _ => ⟨fun _ => E.fail _, fun _ => ih hinv ht' hw' hQ⟩⟩

theorem wp_filewrite (h : SysInv E s) (hW : ∀ x, E.W x) (devsw : Nat → Option Devsw) (src : List UInt8)
    {Q : Int → Sys → Prop} (hQ : ∀ r t, SysInv E t → Q r t) : Wp E.C (filewrite devsw f src) Q s := by
  rw [filewrite, wp_bind, file_wp, wp_ite, wp_pure]
  refine ⟨fun _ => hQ _ s h, fun hw => ?_⟩
  cases ht : (s.ftable f).type with
  | none =>
    dsimp only
    rw [wp_panic]
    exact E.fail _
  | pipe => exact (wp_pure _ _ _).2 (hQ _ s h)
  | inode =>
    dsimp only
    rw [wp_bind]
    exact wp_filewriteFrom hW devsw _ h ht (by simpa using hw) fun r t hinv => (wp_pure _ _ _).2 (hQ _ t hinv)

/-! ## Descriptors -/

/-- Only descriptors changed. -/
structure SameFiles (s t : Sys) : Prop where
  fs : t.fs = s.fs
  ftable : t.ftable = s.ftable
  cwd : ∀ q, (t.proc q).map Proc.cwd = (s.proc q).map Proc.cwd

theorem SameFiles.refs (h : SameFiles s t) : t.refs = s.refs := by
  refine Sys.refs_congr (funext fun y => ?_)
  cases y with
  | inl q => exact h.cwd q
  | inr g =>
    unfold Sys.pointers
    dsimp only
    rw [h.ftable]

theorem SameFiles.opened (h : SameFiles s t) (ho : Opened s) : Opened t :=
  ⟨fun f => by rw [h.ftable]; exact ho.ref f, fun f => by rw [h.ftable, h.fs]; exact ho.held f⟩

theorem SameFiles.inv (h : SameFiles s t) (hs : SysInv E s) : SysInv E t :=
  ⟨by rw [h.fs, h.refs]; exact hs.fs, h.opened hs.opened⟩

theorem SameFiles.trans {u : Sys} (h : SameFiles s t) (h' : SameFiles t u) : SameFiles s u :=
  ⟨h'.fs.trans h.fs, h'.ftable.trans h.ftable, fun q => (h'.cwd q).trans (h.cwd q)⟩

/-- The descriptors of one process changed. -/
theorem sameFiles_ofile {p : Proc} (hp : s.proc pid = some p) (ofile : Fin NOFILE → Option (Fin NFILE)) :
    SameFiles s { s with proc := Function.update s.proc pid (some { p with ofile }) } := by
  refine ⟨rfl, rfl, fun q => ?_⟩
  by_cases hq : q = pid
  · subst hq; simp [hp]
  · simp [hq]

theorem wp_fdalloc {Q : Option (Fin NOFILE) → Sys → Prop} (hQ : ∀ r t, SameFiles s t → Q r t) :
    Wp E.C (fdalloc pid f) Q s := by
  have hsame : SameFiles s s := ⟨rfl, rfl, fun _ => rfl⟩
  rw [fdalloc, wp_bind, wp_get]
  cases hp : s.proc pid with
  | none => exact (wp_pure _ _ _).2 (hQ _ s hsame)
  | some p =>
    dsimp only
    generalize List.find? _ _ = r
    cases r with
    | none => exact (wp_pure _ _ _).2 (hQ _ s hsame)
    | some fd =>
      simp only [wp_bind, wp_modify, wp_pure]
      exact hQ _ _ (sameFiles_ofile hp _)

theorem wp_fdclear (fd : Fin NOFILE) {Q : Unit → Sys → Prop} (hQ : ∀ t, SameFiles s t → Q () t) :
    Wp E.C (fdclear pid fd) Q s := by
  rw [fdclear, wp_modify]
  cases hp : s.proc pid with
  | none =>
    refine hQ _ ⟨rfl, rfl, fun q => ?_⟩
    by_cases hq : q = pid
    · subst hq; simp [hp]
    · simp [hq]
  | some p => exact hQ _ (sameFiles_ofile hp _)

theorem wp_filedup (h : SysInv E s) {Q : Fin NFILE → Sys → Prop}
    (hQ : ∀ t, SysInv E t → t.proc = s.proc → Q f t) : Wp E.C (filedup f) Q s := by
  rw [filedup, wp_bind, file_wp, wp_ite, wp_panic]
  refine ⟨fun _ => E.fail _, fun hr => ?_⟩
  rw [wp_bind, setFile_wp, wp_pure]
  exact hQ _ (h.setFile rfl rfl rfl fun _ => by dsimp only; omega) rfl

theorem wp_close (h : SysInv E s) (hW : ∀ x, E.W x) (fd : Fin NOFILE) {Q : Unit → Sys → Prop}
    (hQ : ∀ t, SysInv E t → Q () t) : Wp E.C (do
      fdclear pid fd
      fileclose f) Q s := by
  rw [wp_bind]
  exact wp_fdclear fd fun t ht => wp_fileclose (ht.inv h) hW fun u hu _ => hQ u hu

theorem wp_dup (h : SysInv E s) {Q : Unit → Sys → Prop} (hQ : ∀ t, SysInv E t → Q () t) : Wp E.C (do
    match ← fdalloc pid f with
    | some _ => discard (filedup f)
    | none => pure ()) Q s := by
  rw [wp_bind]
  refine wp_fdalloc fun r t ht => ?_
  cases r with
  | none => exact (wp_pure _ _ _).2 (hQ t (ht.inv h))
  | some fd => exact (wp_discard _ _ _).2 (wp_filedup (ht.inv h) fun u hu _ => hQ u hu)

/-! ## `open` -/

/-- A new file structure is closed without a call of the file system. -/
theorem wp_fileclose_none (ht : (s.ftable f).type = .none) {Q : Unit → Sys → Prop}
    (hQ : ∀ x : File, x.type = .none → x.ip = (s.ftable f).ip →
      Q () { s with ftable := Function.update s.ftable f x }) : Wp E.C (fileclose f) Q s := by
  rw [fileclose, wp_bind, file_wp, wp_ite, wp_panic]
  refine ⟨fun _ => E.fail _, fun _ => ?_⟩
  rw [wp_ite, setFile_wp]
  refine ⟨fun _ => hQ _ ht rfl, fun _ => ?_⟩
  rw [wp_bind, setFile_wp, ht]
  exact (wp_pure _ _ _).2 (hQ _ rfl rfl)

/-- `filealloc` takes a structure without references. -/
theorem filealloc_wp {C : Contract Stop Event} {Q : Option (Fin NFILE) → Sys → Prop} (hnone : Q none s)
    (hsome : ∀ f, (s.ftable f).ref = 0 →
      Q (some f) { s with ftable := Function.update s.ftable f { s.ftable f with ref := 1 } }) :
    Wp C filealloc Q s := by
  rw [filealloc, wp_bind, wp_get]
  generalize hfind : List.find? _ _ = r
  cases r with
  | none => exact (wp_pure _ _ _).2 hnone
  | some f =>
    dsimp only
    rw [wp_bind, setFile_wp, wp_pure]
    exact hsome f (by simpa using List.find?_some hfind)

theorem Opened.none_of_ref (ho : Opened s) (hf : (s.ftable f).ref = 0) : (s.ftable f).type = .none := by
  by_contra hne
  have := ho.ref f hne
  omega

/-- `filealloc` takes a structure that stands for no inode. -/
theorem wp_filealloc (ho : Opened s) {Q : Option (Fin NFILE) → Sys → Prop} (hnone : Q none s)
    (hsome : ∀ f t, t.fs = s.fs → t.refs = s.refs → Opened t → (t.ftable f).type = .none → (t.ftable f).ref = 1 →
      Q (some f) t) : Wp E.C filealloc Q s := by
  refine filealloc_wp hnone fun f hzero => ?_
  have ht := ho.none_of_ref hzero
  refine hsome f _ rfl ?_ ?_ ?_ ?_
  · exact Sys.refs_setFile rfl rfl
  · exact ho.setFile (fun hx => absurd ht hx) fun hx => by simp [ht] at hx
  · simpa using ht
  · simp

/-! ## `pipe` -/

/-- New file structures, and what else there is of the file system, before and after a step of `sys_pipe`. -/
structure SameInodes (s t : Sys) : Prop where
  fs : t.fs = s.fs
  refs : t.refs = s.refs
  opened : Opened t

theorem SameInodes.trans {u : Sys} (h : SameInodes s t) (h' : SameInodes t u) : SameInodes s u :=
  ⟨h'.fs.trans h.fs, h'.refs.trans h.refs, h'.opened⟩

theorem SameInodes.inv (h : SameInodes s t) (hs : SysInv E s) : SysInv E t :=
  ⟨by rw [h.fs, h.refs]; exact hs.fs, h.opened⟩

theorem SameFiles.inodes (h : SameFiles s t) (ho : Opened s) : SameInodes s t := ⟨h.fs, h.refs, h.opened ho⟩

/-- A structure that points to no inode, and does not after the change. -/
theorem SameInodes.setFile (ho : Opened s) (h : (s.ftable f).type ≠ .inode) {x : File} (hx : x.type ≠ .inode)
    (hr : x.type ≠ .none → 0 < x.ref) : SameInodes s { s with ftable := Function.update s.ftable f x } :=
  ⟨rfl, Sys.refs_other h hx, ho.setFile hr fun hi => absurd hi hx⟩

/-- A structure that points to no inode is closed. -/
theorem wp_fileclose_other (ho : Opened s) (h : (s.ftable f).type ≠ .inode) {Q : Unit → Sys → Prop}
    (hQ : ∀ t, SameInodes s t → (∀ g, (s.ftable g).type ≠ .inode → (t.ftable g).type ≠ .inode) → Q () t) :
    Wp E.C (fileclose f) Q s := by
  have hset : ∀ {x : File}, x.type ≠ .inode → ∀ g, (s.ftable g).type ≠ .inode →
      (Function.update s.ftable f x g).type ≠ .inode := by
    intro x hx g hg
    by_cases hgf : g = f
    · subst hgf; rwa [Function.update_self]
    · rwa [Function.update_of_ne hgf]
  rw [fileclose, wp_bind, file_wp, wp_ite, wp_panic]
  refine ⟨fun _ => E.fail _, fun _ => ?_⟩
  rw [wp_ite, setFile_wp]
  refine ⟨fun hmore => hQ _ (SameInodes.setFile ho h h fun _ => hmore) (hset h), fun _ => ?_⟩
  rw [wp_bind, setFile_wp]
  have hdone := hQ _ (SameInodes.setFile (x := { s.ftable f with ref := 0, type := .none }) ho h (by simp)
    fun hx => absurd rfl hx) (hset (by simp))
  cases ht : (s.ftable f).type with
  | none => exact (wp_pure _ _ _).2 hdone
  | pipe => exact (wp_pure _ _ _).2 hdone
  | inode => exact absurd ht h

/-- A new structure. -/
theorem SameInodes.filealloc (ho : Opened s) (hf : (s.ftable f).ref = 0) :
    SameInodes s { s with ftable := Function.update s.ftable f { s.ftable f with ref := 1 } } :=
  SameInodes.setFile ho (by simp [ho.none_of_ref hf]) (by simp [ho.none_of_ref hf])
    fun hx => absurd (ho.none_of_ref hf) hx

theorem wp_pipealloc (ho : Opened s) (mem : Bool) {Q : Option (Fin NFILE × Fin NFILE) → Sys → Prop}
    (hnone : ∀ t, SameInodes s t → Q none t)
    (hsome : ∀ f0 f1 t, SameInodes s t → (t.ftable f0).type ≠ .inode → (t.ftable f1).type ≠ .inode →
      Q (some (f0, f1)) t) : Wp E.C (pipealloc mem) Q s := by
  rw [pipealloc, wp_bind]
  refine filealloc_wp ((wp_pure _ _ _).2 (hnone s ⟨rfl, rfl, ho⟩)) fun f0 h0 => ?_
  have hst := SameInodes.filealloc ho h0
  have hty0 := ho.none_of_ref h0
  generalize ht : ({ s with ftable := Function.update s.ftable f0 { s.ftable f0 with ref := 1 } } : Sys) = t at hst
  have hf0 : (t.ftable f0).type ≠ .inode ∧ (t.ftable f0).ref = 1 := by rw [← ht]; simp [hty0]
  dsimp only
  rw [wp_bind]
  refine filealloc_wp ?_ fun f1 h1 => ?_
  · dsimp only
    rw [wp_bind]
    exact wp_fileclose_other hst.opened hf0.1 fun u hu _ => (wp_pure _ _ _).2 (hnone u (hst.trans hu))
  · have hne : f0 ≠ f1 := fun he => by rw [← he, hf0.2] at h1; cases h1
    have hst' := hst.trans (SameInodes.filealloc hst.opened h1)
    have hty1 := hst.opened.none_of_ref h1
    generalize hu : ({ t with ftable := Function.update t.ftable f1 { t.ftable f1 with ref := 1 } } : Sys) = u at hst'
    have hf0' : (u.ftable f0).type ≠ .inode ∧ (u.ftable f0).ref = 1 := by
      rw [← hu]
      simpa [Function.update_of_ne hne] using hf0
    have hf1 : (u.ftable f1).type ≠ .inode ∧ (u.ftable f1).ref = 1 := by rw [← hu]; simp [hty1]
    dsimp only
    rw [wp_ite]
    refine ⟨fun _ => ?_, fun _ => ?_⟩
    · rw [wp_bind, setFile_wp, wp_bind, setFile_wp, wp_pure]
      have hset0 := SameInodes.setFile (x := pipeEnd true (u.ftable f0)) hst'.opened hf0'.1 (by simp [pipeEnd])
        fun _ => by show 0 < (u.ftable f0).ref; rw [hf0'.2]; decide
      have hset1 := SameInodes.setFile (f := f1) (x := pipeEnd false (u.ftable f1)) hset0.opened
        (by simpa [Function.update_of_ne hne.symm] using hf1.1) (by simp [pipeEnd])
        fun _ => by show 0 < (u.ftable f1).ref; rw [hf1.2]; decide
      refine hsome f0 f1 _ (hst'.trans (hset0.trans ?_)) ?_ ?_
      · simpa [Function.update_of_ne hne.symm] using hset1
      · simp [Function.update_of_ne hne, pipeEnd]
      · simp [pipeEnd]
    · rw [wp_bind]
      refine wp_fileclose_other hst'.opened hf0'.1 fun v hv hkeep => ?_
      rw [wp_bind]
      exact wp_fileclose_other hv.opened (hkeep f1 hf1.1) fun w hw _ =>
        (wp_pure _ _ _).2 (hnone w (hst'.trans (hv.trans hw)))

theorem wp_pipe (h : SysInv E s) (fd mem : Bool) {Q : Int → Sys → Prop} (hQ : ∀ r t, SysInv E t → Q r t) :
    Wp E.C (sysPipe pid fd mem) Q s := by
  rw [sysPipe, wp_ite, wp_pure]
  refine ⟨fun _ => ?_, fun _ => hQ _ s h⟩
  rw [wp_bind]
  refine wp_pipealloc h.opened mem (fun t ht => (wp_pure _ _ _).2 (hQ _ t (ht.inv h))) fun rf wf t ht hrf hwf => ?_
  -- both ends are closed again
  have hbad : ∀ u, SameFiles t u → Wp E.C (do
      fileclose rf
      fileclose wf
      pure (-1)) Q u := by
    intro u hu
    rw [wp_bind]
    refine wp_fileclose_other (hu.opened ht.opened) (by rw [hu.ftable]; exact hrf) fun v hv hkeep => ?_
    rw [wp_bind]
    refine wp_fileclose_other hv.opened (hkeep wf (by rw [hu.ftable]; exact hwf)) fun w hw _ => ?_
    rw [wp_pure]
    exact hQ _ w ((ht.trans ((hu.inodes ht.opened).trans (hv.trans hw))).inv h)
  dsimp only
  rw [wp_bind]
  refine wp_fdalloc fun r u hu => ?_
  cases r with
  | none => exact hbad u hu
  | some fd0 =>
    dsimp only
    rw [wp_bind]
    refine wp_fdalloc fun r' v hv => ?_
    cases r' with
    | none =>
      dsimp only
      rw [wp_bind]
      exact wp_fdclear fd0 fun w hw => hbad w (hu.trans (hv.trans hw))
    | some fd1 => exact (wp_pure _ _ _).2 (hQ _ v ((ht.trans ((hu.trans hv).inodes ht.opened)).inv h))

/-! ## `open`, from the file structure on -/

/-- `return -1` after the inode is given back. -/
theorem put_return {α : Type} {a : α} (ho : Opened s) (h : Inv E .no (hold s.refs ip) s.fs) (hW : ∀ x, E.W x)
    {Q : α → Sys → Prop} (hQ : ∀ t, SysInv E t → Q a t) : Wp E.C (do
      (liftM (iunlockput ip) : Kern Sys Unit)
      (liftM endOp : Kern Sys Unit)
      pure a) Q s := by
  rw [wp_bind, wp_fs]
  refine wp_iunlockput h (hold_pos _ ip) (frees_all hW) fun fs hfs hst => ?_
  rw [drop_hold] at hfs hst
  exact end_return (s := { s with fs }) (ho.fs hst) hfs fun _ hinv => hQ _ hinv

theorem wp_openInode (ho : Opened s) (h : Inv E .no (hold s.refs ip) s.fs) (hW : ∀ x, E.W x)
    (hv : (s.fs.icache ip).valid = true) {omode : UInt32}
    (hd : omode ≠ UInt32.ofNat O_RDONLY → (s.fs.icache ip).dinode.type ≠ T_DIR) {Q : Int → Sys → Prop}
    (hQ : ∀ r t, SysInv E t → Q r t) : Wp E.C (openInode pid ip omode) Q s := by
  rw [openInode, wp_bind]
  refine wp_filealloc ho (put_return ho h hW (hQ _)) fun f t hfs hrefs ht hnone hone => ?_
  dsimp only
  rw [wp_bind]
  refine wp_fdalloc fun r u hu => ?_
  have hu_fs : u.fs = s.fs := hu.fs.trans hfs
  have hu_refs : u.refs = s.refs := hu.refs.trans hrefs
  have hu_none : (u.ftable f).type = .none := by rw [hu.ftable]; exact hnone
  have hu_inv : Inv E .no (hold u.refs ip) u.fs := by rw [hu_fs, hu_refs]; exact h
  cases r with
  | none =>
    dsimp only
    rw [wp_bind]
    refine wp_fileclose_none hu_none fun x hx hip => ?_
    refine put_return ((hu.opened ht).setFile (fun hx' => absurd hx hx') fun hx' => by rw [hx] at hx'; cases hx') ?_ hW
      (hQ _)
    rw [Sys.refs_setFile (hx.trans hu_none.symm) hip]
    exact hu_inv
  | some fd =>
    dsimp only
    rw [wp_bind, wp_fs]
    refine wp_iunlock hu_inv (hold_pos _ ip) fun fs₁ _ hfs₁ hst₁ _ => ?_
    rw [wp_bind]
    refine end_wp (s := { u with fs := fs₁ }) hfs₁ fun fs₂ hfs₂ hst₂ _ => ?_
    rw [wp_bind, setFile_wp, wp_pure]
    have hst : Stable (hold u.refs ip) u.fs fs₂ := hst₁.trans hst₂
    obtain ⟨hv₂, htype₂⟩ := hst.valid ip (hold_pos _ ip) (by rw [hu_fs]; exact hv)
    have ho₂ : Opened { u with fs := fs₂ } := (hu.opened ht).fs (hst.mono (le_hold _ ip))
    refine hQ _ _ ⟨?_, ho₂.setFile (fun _ => ?_) fun _ => ⟨hv₂, fun hw => ?_⟩⟩
    · rw [Sys.refs_open (s := { u with fs := fs₂ }) hu_none rfl]
      exact hfs₂
    · show 0 < (u.ftable f).ref
      rw [hu.ftable, hone]
      decide
    · show (fs₂.icache ip).dinode.type ≠ T_DIR
      rw [htype₂, hu_fs]
      refine hd fun hr => ?_
      subst hr
      have hno : ¬((UInt32.ofNat O_RDONLY &&& UInt32.ofNat O_WRONLY != 0 ||
          UInt32.ofNat O_RDONLY &&& UInt32.ofNat O_RDWR != 0) = true) := by decide
      exact hno hw

theorem wp_open (h : SysInv E s) (hW : ∀ x, E.W x) (devsw : Nat → Option Devsw) {p : Proc} (hp : s.proc pid = some p)
    (path : Option (List UInt8)) (omode : UInt32) {Q : Int → Sys → Prop} (hQ : ∀ r t, SysInv E t → Q r t) :
    Wp E.C (sysOpen devsw pid p.cwd path omode) Q s := by
  have hcwd := Sys.cwd_pos hp
  unfold sysOpen
  cases path with
  | none => exact (wp_pure _ _ _).2 (hQ _ s h)
  | some path =>
    dsimp only
    rw [wp_bind]
    refine begin_wp h.fs fun fs₁ hfs₁ hst₁ _ => ?_
    rw [wp_ite]
    refine ⟨fun _ => ?_, fun _ => ?_⟩
    · rw [wp_bind, wp_fs]
      refine wp_create hfs₁ hW devsw hcwd path _ _ _ (fun fs₂ hfs₂ hst₂ => ?_) fun ip fs₂ hfs₂ hst₂ hv₂ ht₂ => ?_
      · exact end_return (s := { s with fs := fs₂ }) (h.opened.fs (hst₁.trans hst₂)) hfs₂ fun _ hinv => hQ _ _ hinv
      · refine wp_openInode (s := { s with fs := fs₂ }) (h.opened.fs (hst₁.trans hst₂)) hfs₂ hW hv₂ (fun _ => ?_) hQ
        show (fs₂.icache ip).dinode.type ≠ T_DIR
        rw [ht₂]
        decide
    · rw [wp_bind, wp_fs]
      refine wp_namei hfs₁ hW devsw hcwd path (fun fs₂ hfs₂ hst₂ => ?_) fun ip fs₂ hfs₂ hst₂ => ?_
      · exact end_return (s := { s with fs := fs₂ }) (h.opened.fs (hst₁.trans hst₂)) hfs₂ fun _ hinv => hQ _ _ hinv
      · dsimp only
        rw [wp_bind, wp_fs]
        refine wp_ilock hfs₂ (hold_pos _ ip) fun fs₃ hfs₃ hst₃ hv₃ _ _ => ?_
        have ho₃ : Opened { s with fs := fs₃ } := h.opened.fs (hst₁.trans (hst₂.trans (hst₃.mono (le_hold _ ip))))
        rw [wp_bind, wp_fs, inode_wp, wp_ite]
        refine ⟨fun _ => put_return (s := { s with fs := fs₃ }) ho₃ hfs₃ hW (hQ _), fun hno => ?_⟩
        exact wp_openInode (s := { s with fs := fs₃ }) ho₃ hfs₃ hW hv₃ (fun hne hdir => hno ⟨hdir, hne⟩) hQ

/-! ## `link` and `unlink` -/

/-- `ip->nlink` is changed and written back. -/
theorem wp_setNlink (h : Inv E .no m s.fs) (hm : 0 < m ip) (hv : (s.fs.icache ip).valid = true)
    (hW : ∀ x, E.W x) (f : Dinode → Dinode) (hf : ∀ d, (f d).Same d) {α : Type} {k : Kern Sys α}
    {Q : α → Sys → Prop} (hQ : ∀ fs, Inv E .no m fs → Stable m s.fs fs → (fs.icache ip).valid = true →
      Wp E.C k Q { s with fs }) : Wp E.C (do
      (liftM (setDinode ip f) : Kern Sys Unit)
      (liftM (iupdate ip) : Kern Sys Unit)
      k) Q s := by
  rw [wp_bind, wp_fs]
  refine wp_setFields h hm hf fun fs₁ hfs₁ hst₁ hval₁ _ _ _ => ?_
  rw [wp_bind, wp_fs]
  refine wp_iupdate hfs₁ hm (hval₁.trans hv) (fun jp hj => by rcases hj with hj | hj <;> cases hj) (hW _)
    fun fs₂ hfs₂ hst₂ hic _ _ => ?_
  have hst := hst₁.trans hst₂
  exact hQ fs₂ hfs₂ hst (hst.valid ip hm hv).1

theorem wp_linkBad (ho : Opened s) (h : Inv E .no (hold s.refs ip) s.fs) (hW : ∀ x, E.W x) {Q : Int → Sys → Prop}
    (hQ : ∀ r t, SysInv E t → Q r t) : Wp E.C (linkBad ip) Q s := by
  rw [linkBad, wp_bind, wp_fs]
  refine wp_ilock h (hold_pos _ ip) fun fs₁ hfs₁ hst₁ hv₁ _ _ => ?_
  refine wp_setNlink (s := { s with fs := fs₁ }) hfs₁ (hold_pos _ ip) hv₁ hW
    (fun d => { d with nlink := d.nlink - 1 }) (fun _ => ⟨rfl, rfl, rfl⟩)
    fun fs₂ hfs₂ hst₂ _ => ?_
  exact put_return (s := { s with fs := fs₂ }) (ho.fs ((hst₁.trans hst₂).mono (le_hold _ ip))) hfs₂ hW (hQ _)

theorem wp_link (h : SysInv E s) (hW : ∀ x, E.W x) (devsw : Nat → Option Devsw) {p : Proc} (hp : s.proc pid = some p)
    (old new : Option (List UInt8)) {Q : Int → Sys → Prop} (hQ : ∀ r t, SysInv E t → Q r t) :
    Wp E.C (sysLink devsw p.cwd old new) Q s := by
  have hcwd := Sys.cwd_pos hp
  unfold sysLink
  cases old with
  | none => exact (wp_pure _ _ _).2 (hQ _ s h)
  | some old =>
  cases new with
  | none => exact (wp_pure _ _ _).2 (hQ _ s h)
  | some new =>
    dsimp only
    rw [wp_bind]
    refine begin_wp h.fs fun fs₁ hfs₁ hst₁ _ => ?_
    rw [wp_bind, wp_fs]
    refine wp_namei hfs₁ hW devsw hcwd old (fun fs₂ hfs₂ hst₂ => ?_) fun ip fs₂ hfs₂ hst₂ => ?_
    · exact end_return (s := { s with fs := fs₂ }) (h.opened.fs (hst₁.trans hst₂)) hfs₂ fun _ hinv => hQ _ _ hinv
    · have hip := hold_pos s.refs ip
      have hle := le_hold s.refs ip
      dsimp only
      rw [wp_bind, wp_fs]
      refine wp_ilock hfs₂ hip fun fs₃ hfs₃ hst₃ hv₃ _ _ => ?_
      have hst₃ : Stable s.refs s.fs fs₃ := hst₁.trans (hst₂.trans (hst₃.mono hle))
      rw [wp_bind, wp_fs, inode_wp, wp_ite]
      refine ⟨fun _ => put_return (s := { s with fs := fs₃ }) (h.opened.fs hst₃) hfs₃ hW (hQ _), fun _ => ?_⟩
      refine wp_setNlink (s := { s with fs := fs₃ }) hfs₃ hip hv₃ hW
        (fun d => { d with nlink := d.nlink + 1 }) (fun _ => ⟨rfl, rfl, rfl⟩)
        fun fs₄ hfs₄ hst₄ hv₄ => ?_
      rw [wp_bind, wp_fs]
      refine wp_iunlock hfs₄ hip fun fs₅ _ hfs₅ hst₅ _ => ?_
      have hst₅ : Stable s.refs s.fs fs₅ := hst₃.trans ((hst₄.trans hst₅).mono hle)
      rw [wp_bind, wp_fs]
      refine wp_namex hfs₅ hW devsw (Nat.lt_of_lt_of_le hcwd (hle _)) new true (fun fs₆ hfs₆ hst₆ => ?_)
        fun dp name fs₆ hfs₆ hst₆ => ?_
      · exact wp_linkBad (s := { s with fs := fs₆ }) (h.opened.fs (hst₅.trans (hst₆.mono hle))) hfs₆ hW hQ
      · have hdp := hold_pos (hold s.refs ip) dp
        have hle' := le_hold (hold s.refs ip) dp
        dsimp only
        rw [wp_bind, wp_fs]
        refine wp_ilock hfs₆ hdp fun fs₇ hfs₇ hst₇ hv₇ _ _ => ?_
        rw [wp_bind, wp_fs, inode_wp, wp_bind, wp_fs]
        refine wp_dirlink hfs₇ hdp hv₇ hW devsw name (hfs₇.inum ip (Nat.lt_of_lt_of_le hip (hle' ip)))
          fun r fs₈ hfs₈ hst₈ => ?_
        have hst₈ : Stable s.refs s.fs fs₈ :=
          hst₅.trans ((hst₆.trans ((hst₇.trans hst₈).mono hle')).mono hle)
        -- the parent is given back
        have hput : ∀ {k : Kern Sys Int}, (∀ fs, Inv E .no (hold s.refs ip) fs → Stable s.refs s.fs fs →
            Wp E.C k Q { s with fs }) → Wp E.C (do
              (liftM (iunlockput dp) : Kern Sys Unit)
              k) Q { s with fs := fs₈ } := by
          intro k hk
          rw [wp_bind, wp_fs]
          refine wp_iunlockput hfs₈ hdp (frees_all hW) fun fs₉ hfs₉ hst₉ => ?_
          rw [drop_hold] at hfs₉ hst₉
          exact hk fs₉ hfs₉ (hst₈.trans (hst₉.mono hle))
        rw [wp_ite]
        refine ⟨fun _ => hput fun fs₉ hfs₉ hst₉ => ?_, fun _ => ?_⟩
        · exact wp_linkBad (s := { s with fs := fs₉ }) (h.opened.fs hst₉) hfs₉ hW hQ
        · refine hput fun fs₉ hfs₉ hst₉ => ?_
          rw [wp_bind, wp_fs]
          refine wp_iput hfs₉ hip (frees_all hW) fun fs' hfs' hst' => ?_
          rw [drop_hold] at hfs' hst'
          exact end_return (s := { s with fs := fs' }) (h.opened.fs (hst₉.trans hst')) hfs' fun _ hinv => hQ _ _ hinv

/-- An entry that names no inode. -/
theorem entryOk_zero {sb : Superblock} {off : Nat} (hoff : DIRENT ∣ off) : EntryOk sb off (List.replicate DIRENT 0) := by
  refine ⟨hoff, List.length_replicate, ?_⟩
  have : (le16 (fun j => (List.replicate DIRENT (0 : UInt8)).getD j 0) 0).toNat = 0 := by decide
  rw [this]
  exact Nat.lt_of_le_of_lt (Nat.zero_le _) (rootino_lt sb)

theorem wp_unlink (h : SysInv E s) (hW : ∀ x, E.W x) (devsw : Nat → Option Devsw) {p : Proc}
    (hp : s.proc pid = some p) (path : Option (List UInt8)) {Q : Int → Sys → Prop}
    (hQ : ∀ r t, SysInv E t → Q r t) : Wp E.C (sysUnlink devsw p.cwd path) Q s := by
  have hcwd := Sys.cwd_pos hp
  unfold sysUnlink
  cases path with
  | none => exact (wp_pure _ _ _).2 (hQ _ s h)
  | some path =>
    dsimp only
    rw [wp_bind]
    refine begin_wp h.fs fun fs₁ hfs₁ hst₁ _ => ?_
    rw [wp_bind, wp_fs]
    refine wp_namex hfs₁ hW devsw hcwd path true (fun fs₂ hfs₂ hst₂ => ?_) fun dp name fs₂ hfs₂ hst₂ => ?_
    · exact end_return (s := { s with fs := fs₂ }) (h.opened.fs (hst₁.trans hst₂)) hfs₂ fun _ hinv => hQ _ _ hinv
    · have hdp := hold_pos s.refs dp
      have hle := le_hold s.refs dp
      have hbad : ∀ fs, Inv E .no (hold s.refs dp) fs → Stable s.refs s.fs fs →
          Wp E.C (unlinkBad dp) Q { s with fs } := fun fs hfs hst =>
        put_return (s := { s with fs }) (h.opened.fs hst) hfs hW (hQ _)
      dsimp only
      rw [wp_bind, wp_fs]
      refine wp_ilock hfs₂ hdp fun fs₃ hfs₃ hst₃ hv₃ _ _ => ?_
      have hst₃ : Stable s.refs s.fs fs₃ := hst₁.trans (hst₂.trans (hst₃.mono hle))
      rw [wp_ite]
      refine ⟨fun _ => hbad fs₃ hfs₃ hst₃, fun _ => ?_⟩
      rw [wp_bind, wp_fs]
      refine wp_dirlookup hfs₃ hdp hv₃ (fun _ => hW) devsw name (fun fs₄ _ hfs₄ hg _ => ?_) fun ip k fs₄ hfs₄ hst₄ => ?_
      · exact hbad fs₄ hfs₄ (hst₃.trans (hg.stable _))
      · have hip := hold_pos (hold s.refs dp) ip
        have hle' := le_hold (hold s.refs dp) ip
        have hdp' : 0 < hold (hold s.refs dp) ip dp := Nat.lt_of_lt_of_le hdp (hle' dp)
        have hv₄ := (hst₄.valid dp hdp hv₃).1
        dsimp only
        rw [wp_bind, wp_fs]
        refine wp_ilock hfs₄ hip fun fs₅ hfs₅ hst₅ hv₅ _ _ => ?_
        have hvd₅ := (hst₅.valid dp hdp' hv₄).1
        have hst₅ : Stable (hold s.refs dp) fs₃ fs₅ := hst₄.trans (hst₅.mono hle')
        rw [wp_bind, wp_fs, inode_wp, wp_ite, wp_panic]
        refine ⟨fun _ => E.fail _, fun _ => ?_⟩
        rw [wp_bind]
        rw [wp_fs]
        refine (?_ : Wp E.C _ (fun _ fs => Inv E .no (hold (hold s.refs dp) ip) fs ∧
          Stable (hold (hold s.refs dp) ip) fs₅ fs) _).mono fun empty fs₆ h₆ => ?_
        · rw [wp_ite, wp_pure]
          refine ⟨fun hdir => ?_, fun _ => ⟨hfs₅, Stable.refl _ _⟩⟩
          exact wp_isdirempty hfs₅ hip hv₅ (fun _ => hW) devsw hdir fun _ fs hfs hg _ => ⟨hfs, hg.stable _⟩
        · obtain ⟨hfs₆, hst₆⟩ := h₆
          have hcomm : drop (hold (hold s.refs dp) ip) dp = hold s.refs ip := by rw [hold_comm, drop_hold]
          have hst₆' : Stable (hold s.refs dp) fs₃ fs₆ := hst₅.trans (hst₆.mono hle')
          rw [wp_ite]
          refine ⟨fun _ => ?_, fun _ => ?_⟩
          · rw [wp_bind, wp_fs]
            refine wp_iunlockput hfs₆ hip (frees_all hW) fun fs₇ hfs₇ hst₇ => ?_
            rw [drop_hold] at hfs₇ hst₇
            exact hbad fs₇ hfs₇ (hst₃.trans ((hst₆'.trans hst₇).mono hle))
          · have hdvd : DIRENT ∣ (UInt32.ofNat (DIRENT * k)).toNat := by
              rw [UInt32.toNat_ofNat', Nat.dvd_mod_iff (by decide)]
              exact Nat.dvd_mul_right _ _
            rw [wp_bind, wp_fs]
            refine wp_writei hfs₆ hdp' (hst₆.valid dp hdp' hvd₅).1 devsw (by decide) (fun _ => entryOk_zero hdvd)
              (Room.all hW _ _ _) (fun _ => hW _) fun n fs₇ hfs₇ hst₇ _ => ?_
            rw [wp_ite, wp_panic]
            refine ⟨fun _ => E.fail _, fun _ => ?_⟩
            have hst₇ := hst₆.trans hst₇
            have hvi₇ := (hst₇.valid ip hip hv₅).1
            have hvd₇ := (hst₇.valid dp hdp' hvd₅).1
            have hst₇ : Stable s.refs s.fs fs₇ := hst₃.trans ((hst₅.trans (hst₇.mono hle')).mono hle)
            -- both inodes are given back, the one that lost its name last
            have hput : ∀ fs₈, Inv E .no (hold (hold s.refs dp) ip) fs₈ → Stable (hold (hold s.refs dp) ip) fs₇ fs₈ →
                Wp E.C (do
                  (liftM (iunlockput dp) : Kern Sys Unit)
                  (liftM (setDinode ip fun d => { d with nlink := d.nlink - 1 }) : Kern Sys Unit)
                  (liftM (iupdate ip) : Kern Sys Unit)
                  (liftM (iunlockput ip) : Kern Sys Unit)
                  (liftM endOp : Kern Sys Unit)
                  pure 0) Q { s with fs := fs₈ } := by
              intro fs₈ hfs₈ hst₈
              have hvi₈ := (hst₈.valid ip hip hvi₇).1
              have hst₈ : Stable s.refs s.fs fs₈ := hst₇.trans ((hst₈.mono hle').mono hle)
              rw [wp_bind, wp_fs]
              refine wp_iunlockput hfs₈ hdp' (frees_all hW) fun fs₉ hfs₉ hst₉ => ?_
              rw [hcomm] at hfs₉ hst₉
              have hvi₉ := (hst₉.valid ip (hold_pos _ ip) hvi₈).1
              have hst₉ : Stable s.refs s.fs fs₉ := hst₈.trans (hst₉.mono (le_hold _ ip))
              refine wp_setNlink (s := { s with fs := fs₉ }) hfs₉ (hold_pos _ ip) hvi₉ hW
                (fun d => { d with nlink := d.nlink - 1 }) (fun _ => ⟨rfl, rfl, rfl⟩) fun fs' hfs' hst' _ => ?_
              have ho : Opened { s with fs := fs' } := h.opened.fs (hst₉.trans (hst'.mono (le_hold _ ip)))
              exact put_return (s := { s with fs := fs' }) ho hfs' hW (hQ _)
            rw [wp_bind, wp_fs, inode_wp, wp_ite]
            refine ⟨fun _ => ?_, fun _ => hput fs₇ hfs₇ (Stable.refl _ _)⟩
            exact wp_setNlink (s := { s with fs := fs₇ }) hfs₇ hdp' hvd₇ hW (fun d => { d with nlink := d.nlink - 1 })
              (fun _ => ⟨rfl, rfl, rfl⟩) fun fs₈ hfs₈ hst₈ _ => hput fs₈ hfs₈ hst₈

/-! ## The other calls -/

theorem wp_makeNode (h : SysInv E s) (hW : ∀ x, E.W x) (devsw : Nat → Option Devsw) {p : Proc}
    (hp : s.proc pid = some p) (path : Option (List UInt8)) (type major minor : Int16) {Q : Int → Sys → Prop}
    (hQ : ∀ r t, SysInv E t → Q r t) : Wp E.C (makeNode devsw p.cwd path type major minor) Q s := by
  unfold makeNode
  rw [wp_bind]
  refine begin_wp h.fs fun fs₁ hfs₁ hst₁ _ => ?_
  cases path with
  | none => exact end_return (s := { s with fs := fs₁ }) (h.opened.fs hst₁) hfs₁ fun _ hinv => hQ _ _ hinv
  | some path =>
    dsimp only
    rw [wp_bind, wp_fs]
    refine wp_create hfs₁ hW devsw (Sys.cwd_pos hp) path _ _ _ (fun fs₂ hfs₂ hst₂ => ?_) fun ip fs₂ hfs₂ hst₂ _ _ => ?_
    · exact end_return (s := { s with fs := fs₂ }) (h.opened.fs (hst₁.trans hst₂)) hfs₂ fun _ hinv => hQ _ _ hinv
    · exact put_return (s := { s with fs := fs₂ }) (h.opened.fs (hst₁.trans hst₂)) hfs₂ hW (hQ _)

theorem Opened.proc (ho : Opened s) (proc : Fin NPROC → Option Proc) : Opened { s with proc } := ⟨ho.ref, ho.held⟩

/-- Without process `pid` there is one pointer to its directory less. -/
theorem refs_exit {p : Proc} (hp : s.proc pid = some p) :
    ({ s with proc := Function.update s.proc pid none } : Sys).refs = drop s.refs p.cwd := by
  unfold Sys.refs
  rw [Sys.pointers_setProc]
  exact count_drop (by simp [Sys.pointers, hp])

theorem wp_chdir (h : SysInv E s) (hW : ∀ x, E.W x) (devsw : Nat → Option Devsw) {p : Proc}
    (hp : s.proc pid = some p) (path : Option (List UInt8)) {Q : Int → Sys → Prop}
    (hQ : ∀ r t, SysInv E t → Q r t) : Wp E.C (sysChdir devsw pid p.cwd path) Q s := by
  have hcwd := Sys.cwd_pos hp
  unfold sysChdir
  rw [wp_bind]
  refine begin_wp h.fs fun fs₁ hfs₁ hst₁ _ => ?_
  cases path with
  | none => exact end_return (s := { s with fs := fs₁ }) (h.opened.fs hst₁) hfs₁ fun _ hinv => hQ _ _ hinv
  | some path =>
    dsimp only
    rw [wp_bind, wp_fs]
    refine wp_namei hfs₁ hW devsw hcwd path (fun fs₂ hfs₂ hst₂ => ?_) fun ip fs₂ hfs₂ hst₂ => ?_
    · exact end_return (s := { s with fs := fs₂ }) (h.opened.fs (hst₁.trans hst₂)) hfs₂ fun _ hinv => hQ _ _ hinv
    · have hip := hold_pos s.refs ip
      have hle := le_hold s.refs ip
      dsimp only
      rw [wp_bind, wp_fs]
      refine wp_ilock hfs₂ hip fun fs₃ hfs₃ hst₃ _ _ _ => ?_
      have hst₃ : Stable s.refs s.fs fs₃ := hst₁.trans (hst₂.trans (hst₃.mono hle))
      rw [wp_bind, wp_fs, inode_wp, wp_ite]
      refine ⟨fun _ => put_return (s := { s with fs := fs₃ }) (h.opened.fs hst₃) hfs₃ hW (hQ _), fun _ => ?_⟩
      rw [wp_bind, wp_fs]
      refine wp_iunlock hfs₃ hip fun fs₄ _ hfs₄ hst₄ _ => ?_
      rw [wp_bind, wp_fs]
      refine wp_iput hfs₄ (Nat.lt_of_lt_of_le hcwd (hle _)) (frees_all hW) fun fs₅ hfs₅ hst₅ => ?_
      rw [drop_hold_comm hcwd] at hfs₅ hst₅
      rw [wp_bind]
      refine end_wp (s := { s with fs := fs₅ }) hfs₅ fun fs₆ hfs₆ hst₆ _ => ?_
      rw [wp_bind, setCwd, wp_modify, wp_pure]
      have hrefs : ({ s with proc := Function.update s.proc pid ((s.proc pid).map fun p => { p with cwd := ip }) } :
          Sys).refs = hold (drop s.refs p.cwd) ip := by
        unfold Sys.refs
        rw [Sys.pointers_setProc, hp]
        exact count_swap (by simp [Sys.pointers, hp]) ip
      have hst : Stable (drop s.refs p.cwd) s.fs fs₆ :=
        (hst₃.trans (hst₄.mono hle)).mono (drop_le _ _) |>.trans ((hst₅.trans hst₆).mono (le_hold _ ip))
      rw [← refs_exit hp] at hst
      rw [← hrefs] at hfs₆
      exact hQ _ _ ⟨hfs₆, ((h.opened.proc _).fs hst).proc _⟩

theorem wp_exec (h : SysInv E s) (hW : ∀ x, E.W x) (devsw : Nat → Option Devsw) {p : Proc} (hp : s.proc pid = some p)
    (path : List UInt8) (reads : List (UInt32 × UInt32)) {Q : Unit → Sys → Prop} (hQ : ∀ t, SysInv E t → Q () t) :
    Wp E.C (exec devsw p.cwd path reads) Q s := by
  rw [exec, wp_bind]
  refine begin_wp h.fs fun fs₁ hfs₁ hst₁ _ => ?_
  rw [wp_bind, wp_fs]
  refine wp_namei hfs₁ hW devsw (Sys.cwd_pos hp) path (fun fs₂ hfs₂ hst₂ => ?_) fun ip fs₂ hfs₂ hst₂ => ?_
  · exact end_wp (s := { s with fs := fs₂ }) hfs₂ fun fs₃ hfs₃ hst₃ _ =>
      hQ _ ⟨hfs₃, h.opened.fs (hst₁.trans (hst₂.trans hst₃))⟩
  · have hip := hold_pos s.refs ip
    have hle := le_hold s.refs ip
    dsimp only
    rw [wp_bind, wp_fs]
    refine wp_ilock hfs₂ hip fun fs₃ hfs₃ hst₃ hv₃ _ _ => ?_
    have hst₃ : Stable s.refs s.fs fs₃ := hst₁.trans (hst₂.trans (hst₃.mono hle))
    rw [wp_bind]
    refine (wp_forEach (fun _ t => ∃ fs, t = { s with fs } ∧ Inv E .no (hold s.refs ip) fs ∧ Stable s.refs s.fs fs ∧
      (fs.icache ip).valid = true) (fun r _ t ht => ?_) reads _ ⟨fs₃, rfl, hfs₃, hst₃, hv₃⟩).mono fun _ t ht => ?_
    · obtain ⟨fs, rfl, hfs, hst, hv⟩ := ht
      simp only [wp_bind, wp_pure]
      rw [wp_fs]
      refine wp_readi hfs hip hv (fun _ => hW) devsw fun _ fs' hfs' hg _ _ => ?_
      exact ⟨fs', rfl, hfs', hst.trans (hg.stable _), hg.same.2.2.trans hv⟩
    · obtain ⟨fs, rfl, hfs, hst, -⟩ := ht
      rw [wp_bind, wp_fs]
      refine wp_iunlockput hfs hip (frees_all hW) fun fs' hfs' hst' => ?_
      rw [drop_hold] at hfs' hst'
      exact end_wp (s := { s with fs := fs' }) hfs' fun fs'' hfs'' hst'' _ =>
        hQ _ ⟨hfs'', h.opened.fs (hst.trans (hst'.trans hst''))⟩

theorem wp_fork (h : SysInv E s) {p : Proc} (hp : s.proc pid = some p) (mem : Bool) {Q : Int → Sys → Prop}
    (hQ : ∀ r t, SysInv E t → Q r t) : Wp E.C (fork p mem) Q s := by
  rw [fork, wp_bind, wp_get]
  generalize hfind : (if mem = true then _ else none : Option (Fin NPROC)) = r
  cases r with
  | none => exact (wp_pure _ _ _).2 (hQ _ s h)
  | some np =>
    have hnp : s.proc np = none := by
      split at hfind
      · simpa using List.find?_some hfind
      · cases hfind
    dsimp only
    rw [wp_bind, forkFiles]
    refine (wp_forEach (fun _ t => SysInv E t ∧ t.proc = s.proc) (fun fd _ t ht => ?_) _ s ⟨h, rfl⟩).mono
      fun _ t ht => ?_
    · obtain ⟨ht, hproc⟩ := ht
      cases p.ofile fd with
      | none => exact (wp_pure _ _ _).2 ⟨ht, hproc⟩
      | some f =>
        simp only [wp_bind, wp_pure]
        exact wp_filedup ht fun u hu hu' => ⟨hu, hu'.trans hproc⟩
    · obtain ⟨ht, hproc⟩ := ht
      have hcwd : 0 < t.refs p.cwd := Sys.cwd_pos (show t.proc pid = some p by rw [hproc]; exact hp)
      rw [wp_bind, wp_fs]
      refine wp_idup ht.fs hcwd fun fs hfs hst _ _ _ => ?_
      rw [wp_bind, wp_modify, wp_pure]
      have hrefs : ({ t with proc := Function.update t.proc np (some { cwd := p.cwd, ofile := p.ofile }) } : Sys).refs =
          hold t.refs p.cwd := by
        unfold Sys.refs
        rw [Sys.pointers_setProc]
        exact count_take (by simp [Sys.pointers, hproc, hnp]) _
      rw [← hrefs] at hfs
      exact hQ _ _ ⟨hfs, (ht.opened.fs hst).proc _⟩

theorem wp_exit (h : SysInv E s) (hW : ∀ x, E.W x) {p : Proc} (hp : s.proc pid = some p) {Q : Unit → Sys → Prop}
    (hQ : ∀ t, SysInv E t → Q () t) : Wp E.C (exit pid p) Q s := by
  rw [exit, wp_ite, wp_panic]
  refine ⟨fun _ => E.fail _, fun _ => ?_⟩
  rw [wp_bind]
  refine (wp_forEach (fun _ t => SysInv E t ∧ ∃ q, t.proc pid = some q ∧ q.cwd = p.cwd) (fun fd _ t ht => ?_) _ s
    ⟨h, p, hp, rfl⟩).mono fun _ t ht => ?_
  · obtain ⟨ht, q, hq, hcwd⟩ := ht
    cases p.ofile fd with
    | none => exact (wp_pure _ _ _).2 ⟨ht, q, hq, hcwd⟩
    | some f =>
      dsimp only
      rw [wp_bind]
      refine wp_fileclose ht hW fun u hu hproc => wp_fdclear fd fun w hw => ⟨hw.inv hu, ?_⟩
      have := hw.cwd pid
      rw [hproc, hq] at this
      obtain ⟨q', hq', hc⟩ := Option.map_eq_some_iff.1 this
      exact ⟨q', hq', hc.trans hcwd⟩
  · obtain ⟨ht, q, hq, hcwd⟩ := ht
    rw [wp_bind]
    refine begin_wp ht.fs fun fs₁ hfs₁ hst₁ _ => ?_
    rw [wp_bind, wp_fs, ← hcwd]
    refine wp_iput hfs₁ (Sys.cwd_pos hq) (frees_all hW) fun fs₂ hfs₂ hst₂ => ?_
    rw [wp_bind]
    refine end_wp (s := { t with fs := fs₂ }) hfs₂ fun fs₃ hfs₃ hst₃ _ => ?_
    rw [wp_modify]
    have hst : Stable (drop t.refs q.cwd) t.fs fs₃ := (hst₁.mono (drop_le _ _)).trans (hst₂.trans hst₃)
    rw [← refs_exit hq] at hfs₃ hst
    exact hQ _ ⟨hfs₃, (ht.opened.proc _).fs hst⟩

/-! ## All calls -/

theorem wp_runCall (h : SysInv E s) (hW : ∀ x, E.W x) (devsw : Nat → Option Devsw) {p : Proc} (hp : s.proc pid = some p)
    (c : Call) {Q : Unit → Sys → Prop} (hQ : ∀ t, SysInv E t → Q () t) : Wp E.C (runCall devsw pid p c) Q s := by
  have hdone : Wp E.C (pure ()) Q s := (wp_pure _ _ _).2 (hQ s h)
  cases c with
  | «open» path omode => exact (wp_discard _ _ _).2 (wp_open h hW devsw hp path omode fun _ => hQ)
  | read fd n =>
    rw [runCall]
    cases argfd p fd with
    | none => exact hdone
    | some f => exact (wp_discard _ _ _).2 (wp_fileread h (fun _ => hW) devsw n fun _ => hQ)
  | write fd src =>
    rw [runCall]
    cases argfd p fd with
    | none => exact hdone
    | some f => exact (wp_discard _ _ _).2 (wp_filewrite h hW devsw src fun _ => hQ)
  | close fd =>
    rw [runCall]
    rw [wp_dite]
    refine ⟨fun hfd => ?_, fun _ => hdone⟩
    cases p.ofile ⟨fd.toNat, by omega⟩ with
    | none => exact hdone
    | some f => exact wp_close h hW _ hQ
  | dup fd =>
    rw [runCall]
    cases argfd p fd with
    | none => exact hdone
    | some f => exact wp_dup h hQ
  | fstat fd =>
    rw [runCall]
    cases argfd p fd with
    | none => exact hdone
    | some f => exact (wp_discard _ _ _).2 (wp_filestat h fun _ => hQ)
  | link old new => exact (wp_discard _ _ _).2 (wp_link h hW devsw hp old new fun _ => hQ)
  | unlink path => exact (wp_discard _ _ _).2 (wp_unlink h hW devsw hp path fun _ => hQ)
  | mkdir path => exact (wp_discard _ _ _).2 (wp_makeNode h hW devsw hp path _ _ _ fun _ => hQ)
  | mknod path major minor => exact (wp_discard _ _ _).2 (wp_makeNode h hW devsw hp path _ _ _ fun _ => hQ)
  | chdir path => exact (wp_discard _ _ _).2 (wp_chdir h hW devsw hp path fun _ => hQ)
  | exec path reads => exact wp_exec h hW devsw hp path reads hQ
  | pipe fd mem => exact (wp_discard _ _ _).2 (wp_pipe h fd mem fun _ => hQ)
  | fork mem => exact (wp_discard _ _ _).2 (wp_fork h hp mem fun _ => hQ)
  | exit => exact wp_exit h hW hp hQ

/-- One call keeps the invariant. -/
theorem wp_syscall (h : SysInv E s) (hW : ∀ x, E.W x) (devsw : Nat → Option Devsw) (pid : Fin NPROC) (c : Call)
    {Q : Unit → Sys → Prop} (hQ : ∀ t, SysInv E t → Q () t) : Wp E.C (syscall devsw pid c) Q s := by
  rw [syscall, wp_bind, wp_get]
  cases hp : s.proc pid with
  | none => exact (wp_pure _ _ _).2 (hQ s h)
  | some p => exact wp_runCall h hW devsw hp c hQ

/-- **Every sequence of calls keeps the invariant.** -/
theorem syscalls_inv (h : SysInv E s) (hW : ∀ x, E.W x) (devsw : Nat → Option Devsw) (tr : List (Fin NPROC × Call)) :
    Wp E.C (syscalls devsw tr) (fun _ t => SysInv E t) s :=
  wp_forEach (fun _ t => SysInv E t) (fun c _ _ ht => wp_syscall ht hW devsw c.1 c.2 fun _ hu => hu) tr s h

end Calls

end NewXv6
