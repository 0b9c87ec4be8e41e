import NewXv6.Fs.Alloc

/-!
# The inode cache

The current copy of an inode is the cached one if there is a valid cache entry for it, and the disk inode otherwise
(`FsState.cur`). `Inv` is the invariant of the file system between the steps of its functions: the cache has one entry
for an inode and counts the pointers to it, a valid entry agrees with the disk as far as `Ahead` says, and the files the
current inodes describe are sound. `Stable` is what a pointer to a cached inode can rely on while other code runs.
-/

namespace NewXv6

open Lib

/-! ## Current inodes -/

namespace FsState

/-- Entry `ip` holds a valid copy of inode `n`. -/
def Cached (s : FsState) (n : Nat) (ip : Slot) : Prop :=
  0 < (s.icache ip).ref ∧ (s.icache ip).valid = true ∧ (s.icache ip).inum = n

instance (s : FsState) (n : Nat) (ip : Slot) : Decidable (s.Cached n ip) := by unfold Cached; infer_instance

/-- The current copy of inode `n`. -/
@[irreducible] def cur (s : FsState) (n : Nat) : Dinode :=
  match (List.finRange NINODE).find? fun ip => decide (s.Cached n ip) with
  | some ip => (s.icache ip).dinode
  | none => diskInode s.view n

/-- The files of a state. -/
def files (sb : Superblock) (s : FsState) : Files := filesOf sb s.cur s.view

theorem cur_cached {s : FsState} {n : Nat} {ip : Slot} (h : s.Cached n ip) (hu : ∀ j, s.Cached n j → j = ip) :
    s.cur n = (s.icache ip).dinode := by
  unfold cur
  generalize hf : List.find? _ _ = r
  cases r with
  | none =>
    have := List.find?_eq_none.1 hf ip (List.mem_finRange ip)
    simp [h] at this
  | some j =>
    have hj : s.Cached n j := by simpa using List.find?_some hf
    rw [hu j hj]

theorem cur_disk {s : FsState} {n : Nat} (h : ∀ ip, ¬s.Cached n ip) : s.cur n = diskInode s.view n := by
  unfold cur
  generalize hf : List.find? _ _ = r
  cases r with
  | none => rfl
  | some j => exact absurd (by simpa using List.find?_some hf) (h j)

/-- The current copy depends on the entries for the inode, and on its disk inode. -/
theorem cur_congr {s t : FsState} {n : Nat} (hc : ∀ ip, t.Cached n ip ↔ s.Cached n ip)
    (hd : ∀ ip, s.Cached n ip → (t.icache ip).dinode.Same (s.icache ip).dinode)
    (hv : (∀ ip, ¬s.Cached n ip) → (diskInode t.view n).Same (diskInode s.view n)) : (t.cur n).Same (s.cur n) := by
  unfold cur
  simp only [hc]
  generalize hf : List.find? _ _ = r
  cases r with
  | none => exact hv fun ip hip => by simpa [hip] using List.find?_eq_none.1 hf ip (List.mem_finRange ip)
  | some j => exact hd j (by simpa using List.find?_some hf)

/-- A change of one cache entry. -/
def setEntry (s : FsState) (ip : Slot) (i : Inode) : FsState := { s with icache := Function.update s.icache ip i }

@[simp] theorem setEntry_io (s : FsState) (ip : Slot) (i : Inode) : (s.setEntry ip i).io = s.io := rfl

@[simp] theorem setEntry_view (s : FsState) (ip : Slot) (i : Inode) : (s.setEntry ip i).view = s.view := rfl

@[simp] theorem setEntry_self (s : FsState) (ip : Slot) (i : Inode) : (s.setEntry ip i).icache ip = i :=
  Function.update_self _ _ _

@[simp] theorem setEntry_setEntry (s : FsState) (ip : Slot) (i j : Inode) :
    (s.setEntry ip i).setEntry ip j = s.setEntry ip j := by
  simp [setEntry]

theorem setEntry_of_ne (s : FsState) {ip jp : Slot} (i : Inode) (h : jp ≠ ip) :
    (s.setEntry ip i).icache jp = s.icache jp := Function.update_of_ne h _ _

/-- The entry of `ip` with other addresses. -/
def withAddrs (s : FsState) (ip : Slot) (addrs : Fin (NDIRECT + 1) → UInt32) : Slot → Inode :=
  Function.update s.icache ip { s.icache ip with dinode := { (s.icache ip).dinode with addrs } }

end FsState

/-! ## The invariant -/

/-- A disk inode that lags behind its cached copy by addresses only. -/
structure Dinode.Weak (d e : Dinode) : Prop where
  type : d.type = e.type
  size : d.size = e.size
  addrs : ∀ j, d.addrs j = 0 ∨ d.addrs j = e.addrs j

theorem Dinode.Same.weak {d e : Dinode} (h : d.Same e) : d.Weak e :=
  ⟨h.type, h.size, fun j => Or.inr (by rw [h.addrs])⟩

/-- Which cached inode may be ahead of its disk inode, and in what: in nothing, in its addresses, or in all fields. -/
inductive Ahead
  | no
  | addrs (ip : Slot)
  | fields (ip : Slot)

/-- The invariant: `m ip` is the number of pointers to entry `ip` there are. -/
structure Inv (E : Setting) (a : Ahead) (m : Slot → Nat) (s : FsState) : Prop where
  io : IoInv E.sb s.io
  super : (s.view 1).superblock = E.sb
  refs : ∀ ip, (s.icache ip).ref = m ip
  uniq : ∀ ip jp, 0 < m ip → 0 < m jp → (s.icache ip).inum = (s.icache jp).inum → ip = jp
  inum : ∀ ip, 0 < m ip → (s.icache ip).inum < E.sb.inodes
  typed : ∀ ip, 0 < m ip → (s.icache ip).valid = true → (s.icache ip).dinode.type ≠ 0
  weak : ∀ ip, a ≠ .fields ip → 0 < m ip → (s.icache ip).valid = true →
    (diskInode s.view (s.icache ip).inum).Weak (s.icache ip).dinode
  sync : E.P.strict → ∀ ip, a ≠ .fields ip → a ≠ .addrs ip → 0 < m ip → (s.icache ip).valid = true →
    (diskInode s.view (s.icache ip).inum).Same (s.icache ip).dinode
  sound : (s.files E.sb).Sound E.sb E.P

/-- What the holders of the pointers `m` see of a change: their inodes stay cached, valid, and of the same type. -/
structure Stable (m : Slot → Nat) (s t : FsState) : Prop where
  inum : ∀ ip, 0 < m ip → (t.icache ip).inum = (s.icache ip).inum
  valid : ∀ ip, 0 < m ip → (s.icache ip).valid = true →
    (t.icache ip).valid = true ∧ (t.icache ip).dinode.type = (s.icache ip).dinode.type

theorem Stable.refl (m : Slot → Nat) (s : FsState) : Stable m s s := ⟨fun _ _ => rfl, fun _ _ h => ⟨h, rfl⟩⟩

theorem Stable.trans {m : Slot → Nat} {s t u : FsState} (h : Stable m s t) (h' : Stable m t u) : Stable m s u := by
  refine ⟨fun ip hm => (h'.inum ip hm).trans (h.inum ip hm), fun ip hm hv => ?_⟩
  obtain ⟨hv₁, ht₁⟩ := h.valid ip hm hv
  obtain ⟨hv₂, ht₂⟩ := h'.valid ip hm hv₁
  exact ⟨hv₂, ht₂.trans ht₁⟩

theorem Stable.mono {m m' : Slot → Nat} {s t : FsState} (h : Stable m' s t) (hm : ∀ ip, m ip ≤ m' ip) : Stable m s t :=
  ⟨fun ip h₀ => h.inum ip (Nat.lt_of_lt_of_le h₀ (hm ip)), fun ip h₀ => h.valid ip (Nat.lt_of_lt_of_le h₀ (hm ip))⟩

/-- One more pointer to entry `ip`. -/
def hold (m : Slot → Nat) (ip : Slot) : Slot → Nat := Function.update m ip (m ip + 1)

/-- One pointer to entry `ip` less. -/
def drop (m : Slot → Nat) (ip : Slot) : Slot → Nat := Function.update m ip (m ip - 1)

theorem hold_self (m : Slot → Nat) (ip : Slot) : hold m ip ip = m ip + 1 := Function.update_self _ _ _

theorem hold_of_ne {m : Slot → Nat} {ip jp : Slot} (h : jp ≠ ip) : hold m ip jp = m jp := Function.update_of_ne h _ _

theorem drop_self (m : Slot → Nat) (ip : Slot) : drop m ip ip = m ip - 1 := Function.update_self _ _ _

theorem drop_of_ne {m : Slot → Nat} {ip jp : Slot} (h : jp ≠ ip) : drop m ip jp = m jp := Function.update_of_ne h _ _

@[simp] theorem drop_hold (m : Slot → Nat) (ip : Slot) : drop (hold m ip) ip = m := by
  funext jp
  by_cases h : jp = ip
  · subst h; rw [drop_self, hold_self, Nat.add_sub_cancel]
  · rw [drop_of_ne h, hold_of_ne h]

theorem le_hold (m : Slot → Nat) (ip jp : Slot) : m jp ≤ hold m ip jp := by
  by_cases h : jp = ip
  · subst h; rw [hold_self]; omega
  · rw [hold_of_ne h]

theorem hold_pos (m : Slot → Nat) (ip : Slot) : 0 < hold m ip ip := by rw [hold_self]; omega

theorem drop_le (m : Slot → Nat) (ip jp : Slot) : drop m ip jp ≤ m jp := by
  by_cases h : jp = ip
  · subst h; rw [drop_self]; omega
  · rw [drop_of_ne h]

theorem hold_comm (m : Slot → Nat) (ip jp : Slot) : hold (hold m ip) jp = hold (hold m jp) ip := by
  funext kp
  by_cases h₁ : kp = ip <;> by_cases h₂ : kp = jp
  · subst h₁; subst h₂; rfl
  · subst h₁; rw [hold_of_ne h₂, hold_self, hold_self, hold_of_ne h₂]
  · subst h₂; rw [hold_self, hold_of_ne h₁, hold_of_ne h₁, hold_self]
  · rw [hold_of_ne h₂, hold_of_ne h₁, hold_of_ne h₁, hold_of_ne h₂]

section Inv

variable {E : Setting} {a : Ahead} {m : Slot → Nat} {s t : FsState}

theorem Inv.cached_iff (h : Inv E a m s) {n : Nat} {ip : Slot} :
    s.Cached n ip ↔ 0 < m ip ∧ (s.icache ip).valid = true ∧ (s.icache ip).inum = n := by
  unfold FsState.Cached
  rw [h.refs]
  simp

/-- The current copy of an inode is its valid cache entry. -/
theorem Inv.cur_eq (h : Inv E a m s) {ip : Slot} (hm : 0 < m ip) (hv : (s.icache ip).valid = true) :
    s.cur (s.icache ip).inum = (s.icache ip).dinode := by
  refine FsState.cur_cached (h.cached_iff.2 ⟨hm, hv, rfl⟩) fun jp hj => ?_
  obtain ⟨hmj, -, hj⟩ := h.cached_iff.1 hj
  exact h.uniq jp ip hmj hm hj

/-- An inode that is not cached, or whose entry is not valid, is current on disk. -/
theorem Inv.cur_eq_disk (h : Inv E a m s) {n : Nat}
    (hn : ∀ ip, 0 < m ip → (s.icache ip).inum = n → (s.icache ip).valid = false) : s.cur n = diskInode s.view n := by
  refine FsState.cur_disk fun ip hc => ?_
  obtain ⟨hm, hv, hi⟩ := h.cached_iff.1 hc
  simp [hn ip hm hi] at hv

theorem Inv.addr_eq (h : Inv E a m s) {ip : Slot} (hm : 0 < m ip) (hv : (s.icache ip).valid = true) (p : Pos) :
    (s.files E.sb).addr (s.icache ip).inum p = (s.icache ip).dinode.addr s.view p := by
  have hcur := h.cur_eq hm hv
  unfold FsState.files
  rw [filesOf_addr (h.inum ip hm) (by rw [hcur]; exact h.typed ip hm hv), hcur]

theorem Inv.addr_root (h : Inv E a m s) {ip : Slot} (hm : 0 < m ip) (hv : (s.icache ip).valid = true) (j : Fin (NDIRECT + 1)) :
    (s.files E.sb).addr (s.icache ip).inum (j, []) = ((s.icache ip).dinode.addrs j).toNat := by
  rw [h.addr_eq hm hv, Dinode.addr_eq (Nat.zero_le _)]
  rfl

theorem Inv.type_eq (h : Inv E a m s) {ip : Slot} (hm : 0 < m ip) (hv : (s.icache ip).valid = true) :
    (s.files E.sb).type (s.icache ip).inum = (s.icache ip).dinode.type := by
  unfold FsState.files
  rw [filesOf_type (h.inum ip hm), h.cur_eq hm hv]

theorem Inv.size_eq (h : Inv E a m s) {ip : Slot} (hm : 0 < m ip) (hv : (s.icache ip).valid = true) :
    (s.files E.sb).size (s.icache ip).inum = (s.icache ip).dinode.size.toNat := by
  unfold FsState.files
  rw [filesOf_size (h.inum ip hm), h.cur_eq hm hv]

/-- The same current inodes over the same blocks are the same files. -/
theorem files_congr {sb : Superblock} (hv : t.view = s.view) (hcur : ∀ n, n < sb.inodes → (t.cur n).Same (s.cur n)) :
    t.files sb = s.files sb := by
  unfold FsState.files
  rw [hv]
  exact filesOf_congr hcur (fun _ _ _ => rfl) fun _ _ => Iff.rfl

theorem bread_wp {C : Contract Stop Event} (x : Nat) (Q : Block → FsState → Prop) :
    Wp C (liftM (bread x) : Kern FsState Block) Q s ↔ Q (s.view x) s := by
  simp only [wp_liftM, wp_bread]
  rfl

theorem inode_wp {C : Contract Stop Event} (ip : Slot) (Q : Inode → FsState → Prop) :
    Wp C (inode ip) Q s ↔ Q (s.icache ip) s := by
  simp [inode]

theorem setInode_wp {C : Contract Stop Event} (ip : Slot) (f : Inode → Inode) (Q : Unit → FsState → Prop) :
    Wp C (setInode ip f) Q s ↔ Q () (s.setEntry ip (f (s.icache ip))) := by
  simp [setInode, FsState.setEntry]

theorem setDinode_wp {C : Contract Stop Event} (ip : Slot) (f : Dinode → Dinode) (Q : Unit → FsState → Prop) :
    Wp C (setDinode ip f) Q s ↔ Q () (s.setEntry ip { s.icache ip with dinode := f (s.icache ip).dinode }) := by
  simp [setDinode, setInode_wp]

/-- A change of one cache entry. -/
theorem Inv.entry_sound (h : Inv E a m s) {m' : Slot → Nat} {ip : Slot} {i : Inode} (hm : ∀ jp, jp ≠ ip → m' jp = m jp)
    (href : i.ref = m' ip) (huniq : 0 < m' ip → ∀ jp, jp ≠ ip → 0 < m jp → (s.icache jp).inum ≠ i.inum)
    (hinum : 0 < m' ip → i.inum < E.sb.inodes)
    (hvalid : 0 < m' ip → i.valid = true → i.dinode.type ≠ 0 ∧
      (a ≠ .fields ip → (diskInode s.view i.inum).Weak i.dinode) ∧
      (E.P.strict → a ≠ .fields ip → a ≠ .addrs ip → (diskInode s.view i.inum).Same i.dinode))
    (hsound : ((s.setEntry ip i).files E.sb).Sound E.sb E.P) : Inv E a m' (s.setEntry ip i) := by
  refine ⟨h.io, h.super, fun jp => ?_, fun jp kp => ?_, fun jp => ?_, fun jp => ?_, fun jp => ?_, fun hs jp => ?_, hsound⟩
  · by_cases hj : jp = ip
    · subst hj; simpa using href
    · rw [s.setEntry_of_ne i hj, hm jp hj]; exact h.refs jp
  · by_cases hj : jp = ip <;> by_cases hk : kp = ip
    · subst hj; subst hk; exact fun _ _ _ => rfl
    · subst hj
      rw [s.setEntry_self, s.setEntry_of_ne i hk, hm kp hk]
      exact fun h₁ h₂ he => absurd he.symm (huniq h₁ kp hk h₂)
    · subst hk
      rw [s.setEntry_self, s.setEntry_of_ne i hj, hm jp hj]
      exact fun h₁ h₂ he => absurd he (huniq h₂ jp hj h₁)
    · rw [s.setEntry_of_ne i hj, s.setEntry_of_ne i hk, hm jp hj, hm kp hk]
      exact h.uniq jp kp
  · by_cases hj : jp = ip
    · subst hj; simpa using hinum
    · rw [s.setEntry_of_ne i hj, hm jp hj]; exact h.inum jp
  · by_cases hj : jp = ip
    · subst hj; rw [s.setEntry_self]; exact fun h₁ h₂ => (hvalid h₁ h₂).1
    · rw [s.setEntry_of_ne i hj, hm jp hj]; exact h.typed jp
  · by_cases hj : jp = ip
    · subst hj; rw [s.setEntry_self]; exact fun ha h₁ h₂ => (hvalid h₁ h₂).2.1 ha
    · rw [s.setEntry_of_ne i hj, hm jp hj]; exact h.weak jp
  · by_cases hj : jp = ip
    · subst hj; rw [s.setEntry_self]; exact fun ha hb h₁ h₂ => (hvalid h₁ h₂).2.2 hs ha hb
    · rw [s.setEntry_of_ne i hj, hm jp hj]; exact h.sync hs jp

/-- A change of one cache entry that keeps the current inodes. -/
theorem Inv.entry (h : Inv E a m s) {m' : Slot → Nat} {ip : Slot} {i : Inode} (hm : ∀ jp, jp ≠ ip → m' jp = m jp)
    (href : i.ref = m' ip) (huniq : 0 < m' ip → ∀ jp, jp ≠ ip → 0 < m jp → (s.icache jp).inum ≠ i.inum)
    (hinum : 0 < m' ip → i.inum < E.sb.inodes)
    (hvalid : 0 < m' ip → i.valid = true → i.dinode.type ≠ 0 ∧
      (a ≠ .fields ip → (diskInode s.view i.inum).Weak i.dinode) ∧
      (E.P.strict → a ≠ .fields ip → a ≠ .addrs ip → (diskInode s.view i.inum).Same i.dinode))
    (hcur : ∀ n, n < E.sb.inodes → ((s.setEntry ip i).cur n).Same (s.cur n)) : Inv E a m' (s.setEntry ip i) := by
  refine h.entry_sound hm href huniq hinum hvalid ?_
  rw [files_congr (s := s) (s.setEntry_view ip i) hcur]
  exact h.sound

theorem Stable.entry {m' : Slot → Nat} {ip : Slot} {i : Inode} (hinum : 0 < m' ip → i.inum = (s.icache ip).inum)
    (hvalid : 0 < m' ip → (s.icache ip).valid = true → i.valid = true ∧ i.dinode.type = (s.icache ip).dinode.type) :
    Stable m' s (s.setEntry ip i) := by
  refine ⟨fun jp h₁ => ?_, fun jp h₁ h₂ => ?_⟩
  · by_cases hj : jp = ip
    · subst hj; rw [s.setEntry_self]; exact hinum h₁
    · rw [s.setEntry_of_ne i hj]
  · by_cases hj : jp = ip
    · subst hj; rw [s.setEntry_self]; exact hvalid h₁ h₂
    · rw [s.setEntry_of_ne i hj]; exact ⟨h₂, rfl⟩

/-- A change of an entry that keeps what it says about its inode. -/
theorem cur_setEntry {ip : Slot} {i : Inode} (hi : i.inum = (s.icache ip).inum)
    (hc : (0 < i.ref ∧ i.valid = true) ↔ (0 < (s.icache ip).ref ∧ (s.icache ip).valid = true))
    (hd : i.dinode.Same (s.icache ip).dinode) (n : Nat) : ((s.setEntry ip i).cur n).Same (s.cur n) := by
  refine FsState.cur_congr (fun jp => ?_) (fun jp _ => ?_) fun _ => Dinode.Same.rfl
  · unfold FsState.Cached
    by_cases hj : jp = ip
    · subst hj
      rw [s.setEntry_self, hi, ← and_assoc, ← and_assoc, hc]
    · rw [s.setEntry_of_ne i hj]
  · by_cases hj : jp = ip
    · subst hj; rw [s.setEntry_self]; exact hd
    · rw [s.setEntry_of_ne i hj]; exact Dinode.Same.rfl

/-- A change of an entry that holds no valid copy before or after. -/
theorem cur_setEntry_invalid {ip : Slot} {i : Inode} (hs : ¬(0 < (s.icache ip).ref ∧ (s.icache ip).valid = true))
    (hi : ¬(0 < i.ref ∧ i.valid = true)) (n : Nat) : ((s.setEntry ip i).cur n).Same (s.cur n) := by
  refine FsState.cur_congr (fun jp => ?_) (fun jp hjc => ?_) fun _ => Dinode.Same.rfl
  · unfold FsState.Cached
    by_cases hj : jp = ip
    · subst hj
      rw [s.setEntry_self, ← and_assoc, ← and_assoc]
      exact iff_of_false (fun hc => hi hc.1) (fun hc => hs hc.1)
    · rw [s.setEntry_of_ne i hj]
  · by_cases hj : jp = ip
    · subst hj; exact absurd ⟨hjc.1, hjc.2.1⟩ hs
    · rw [s.setEntry_of_ne i hj]; exact Dinode.Same.rfl

/-! ## `iget`, `idup`, `ilock`, `iunlock` -/

/-- `ip->ref++`. -/
theorem Inv.idup (h : Inv E a m s) {ip : Slot} (hm : 0 < m ip) {i : Inode} (hi : i = { s.icache ip with ref := (s.icache ip).ref + 1 }) :
    Inv E a (hold m ip) (s.setEntry ip i) ∧ ∀ n, ((s.setEntry ip i).cur n).Same (s.cur n) := by
  subst hi
  have href := h.refs ip
  have hcur := @cur_setEntry s ip { s.icache ip with ref := (s.icache ip).ref + 1 } rfl
    (by simp only [and_congr_left_iff]; omega) Dinode.Same.rfl
  refine ⟨h.entry (fun jp hj => hold_of_ne hj) ?_ ?_ (fun _ => h.inum ip hm) (fun _ hv => ⟨h.typed ip hm hv,
    fun ha => h.weak ip ha hm hv, fun hs ha hb => h.sync hs ip ha hb hm hv⟩) fun n _ => hcur n, hcur⟩
  · rw [hold_self]
    simp only [href]
    rfl
  · exact fun _ jp hj hmj he => hj (h.uniq jp ip hmj hm he)

theorem wp_iget (h : Inv E a m s) {n : Nat} (hn : n < E.sb.inodes) {Q : Slot → FsState → Prop}
    (hQ : ∀ ip t, Inv E a (hold m ip) t → Stable m s t → (t.icache ip).inum = n → t.view = s.view →
      (∀ k, (t.cur k).Same (s.cur k)) → Q ip t) : Wp E.C (iget n) Q s := by
  simp only [iget, wp_bind, wp_get]
  generalize hf : List.find? _ _ = r
  cases r with
  | some ip =>
    have hp := List.find?_some hf
    simp only [Bool.and_eq_true, decide_eq_true_eq] at hp
    have hm : 0 < m ip := by have := h.refs ip; omega
    obtain ⟨hinv, hcur⟩ := h.idup hm rfl
    simp only [wp_bind, setInode_wp, wp_pure]
    refine hQ ip _ hinv (Stable.entry (fun _ => rfl) fun _ hv => ⟨hv, rfl⟩) ?_ rfl hcur
    simpa using hp.2
  | none =>
    generalize hf' : List.find? _ _ = r
    cases r with
    | none =>
      dsimp only
      rw [wp_panic]
      exact E.fail _
    | some ip =>
      have hp : (s.icache ip).ref = 0 := by simpa using List.find?_some hf'
      have hm : m ip = 0 := by have := h.refs ip; omega
      simp only [wp_bind, setInode_wp, wp_pure]
      have hcur := @cur_setEntry_invalid s ip { s.icache ip with inum := n, ref := 1, busy := false, valid := false }
        (by simp [hp]) (by simp)
      refine hQ ip _ (h.entry (fun jp hj => hold_of_ne hj) ?_ ?_ (fun _ => hn) (fun _ hv => by simp at hv)
        fun k _ => hcur k) (Stable.entry (fun h₀ => by omega) fun h₀ => by omega) (by simp) rfl hcur
      · rw [hold_self, hm]
        rfl
      · intro _ jp _ hmj he
        have := List.find?_eq_none.1 hf jp (List.mem_finRange jp)
        have hr := h.refs jp
        simp only [Bool.and_eq_true, decide_eq_true_eq, not_and] at this
        exact this (by omega) he

theorem wp_idup (h : Inv E a m s) {ip : Slot} (hm : 0 < m ip) {Q : Slot → FsState → Prop}
    (hQ : ∀ t, Inv E a (hold m ip) t → Stable m s t → t.view = s.view → (∀ k, (t.cur k).Same (s.cur k)) →
      (t.icache ip).inum = (s.icache ip).inum → Q ip t) : Wp E.C (idup ip) Q s := by
  obtain ⟨hinv, hcur⟩ := h.idup hm rfl
  simp only [idup, wp_bind, setInode_wp, wp_pure]
  exact hQ _ hinv (Stable.entry (fun _ => rfl) fun _ hv => ⟨hv, rfl⟩) rfl hcur (by simp)

/-- A change of `busy` and of the fields that the invariant does not see. -/
theorem Inv.fields (h : Inv E a m s) {ip : Slot} (hm : 0 < m ip) {i : Inode} (href : i.ref = (s.icache ip).ref)
    (hinum : i.inum = (s.icache ip).inum) (hvalid : i.valid = (s.icache ip).valid)
    (hd : i.dinode.Same (s.icache ip).dinode) :
    Inv E a m (s.setEntry ip i) ∧ Stable m s (s.setEntry ip i) ∧ ∀ n, ((s.setEntry ip i).cur n).Same (s.cur n) := by
  have hcur := @cur_setEntry s ip i hinum (by rw [href, hvalid]) hd
  refine ⟨h.entry (fun _ _ => rfl) (href.trans (h.refs ip)) ?_ ?_ ?_ fun n _ => hcur n,
    Stable.entry (fun _ => hinum) fun _ hv => ⟨hvalid.trans hv, hd.type⟩, hcur⟩
  · intro _ jp hj hmj he
    exact hj (h.uniq jp ip hmj hm (he.trans hinum))
  · intro _
    rw [hinum]
    exact h.inum ip hm
  · intro _ hv
    rw [hvalid] at hv
    rw [hinum]
    refine ⟨by rw [hd.type]; exact h.typed ip hm hv, fun ha => ?_, fun hs ha hb => ?_⟩
    · have := h.weak ip ha hm hv
      exact ⟨this.type.trans hd.type.symm, this.size.trans hd.size.symm, fun j => by rw [hd.addrs]; exact this.addrs j⟩
    · exact (h.sync hs ip ha hb hm hv).trans hd.symm

theorem wp_ilock (h : Inv E a m s) {ip : Slot} (hm : 0 < m ip) {Q : Unit → FsState → Prop}
    (hQ : ∀ t, Inv E a m t → Stable m s t → (t.icache ip).valid = true → t.view = s.view →
      (∀ k, (t.cur k).Same (s.cur k)) → Q () t) : Wp E.C (ilock ip) Q s := by
  simp only [ilock, wp_bind, inode_wp, wp_ite, wp_panic, wp_throw, setInode_wp, wp_pure, bread_wp,
    FsState.setEntry_setEntry, FsState.setEntry_self, FsState.setEntry_view]
  refine ⟨fun _ => E.fail _, fun _ => ⟨fun _ => E.fail _, fun _ => ⟨fun hv => ?_, fun hv => ⟨fun _ => E.fail _, fun ht => ?_⟩⟩⟩⟩
  · obtain ⟨hinv, hst, hcur⟩ := h.fields hm (i := { s.icache ip with busy := true }) rfl rfl rfl Dinode.Same.rfl
    exact hQ _ hinv hst (by simpa using hv) rfl hcur
  · -- the entry becomes a copy of the disk inode, which is current
    have hv : (s.icache ip).valid = false := by simpa using hv
    have hdisk : s.cur (s.icache ip).inum = diskInode s.view (s.icache ip).inum :=
      h.cur_eq_disk fun jp hmj he => by rw [h.uniq jp ip hmj hm he, hv]
    have hcur : ∀ k, ((s.setEntry ip { s.icache ip with
        busy := true, valid := true, dinode := diskInode s.view (s.icache ip).inum }).cur k).Same (s.cur k) := by
      intro k
      by_cases hk : (s.icache ip).inum = k
      · subst hk
        rw [hdisk, @FsState.cur_cached _ _ ip]
        · simpa using Dinode.Same.rfl
        · have := h.refs ip
          refine ⟨?_, by simp, by simp⟩
          simp
          omega
        · intro jp hj
          by_contra hne
          obtain ⟨hr, -, hi⟩ := hj
          rw [s.setEntry_of_ne _ hne] at hr hi
          have := h.refs jp
          exact hne (h.uniq jp ip (by omega) hm hi)
      · refine FsState.cur_congr (fun jp => ?_) (fun jp hj => ?_) fun _ => Dinode.Same.rfl
        · unfold FsState.Cached
          by_cases hj : jp = ip
          · subst hj; simp [hk]
          · rw [s.setEntry_of_ne _ hj]
        · have hne : jp ≠ ip := by
            rintro rfl
            exact hk hj.2.2
          rw [s.setEntry_of_ne _ hne]
          exact Dinode.Same.rfl
    refine hQ _ (h.entry (fun _ _ => rfl) (h.refs ip) ?_ (fun _ => h.inum ip hm) ?_ fun n _ => hcur n)
      (Stable.entry (fun _ => rfl) fun _ hv' => absurd hv' (by simp [hv])) (by simp) rfl hcur
    · intro _ jp hj hmj he
      exact hj (h.uniq jp ip hmj hm he)
    · exact fun _ _ => ⟨ht, fun _ => Dinode.Same.rfl.weak, fun _ _ _ => Dinode.Same.rfl⟩

theorem wp_iunlock (h : Inv E a m s) {ip : Slot} (hm : 0 < m ip) {Q : Unit → FsState → Prop}
    (hQ : ∀ t, t = s.setEntry ip { s.icache ip with busy := false } → Inv E a m t → Stable m s t →
      (∀ k, (t.cur k).Same (s.cur k)) → Q () t) : Wp E.C (iunlock ip) Q s := by
  simp only [iunlock, wp_bind, inode_wp, wp_ite, wp_panic, setInode_wp]
  refine ⟨fun _ => E.fail _, fun _ => ?_⟩
  obtain ⟨hinv, hst, hcur⟩ := h.fields hm (i := { s.icache ip with busy := false }) rfl rfl rfl Dinode.Same.rfl
  exact hQ _ rfl hinv hst hcur

/-! ## Writing inodes -/

/-- An inode is written to its block. -/
theorem diskInode_of_put {v v' : Nat → Block} {n k : Nat} {d : Dinode}
    (hn : v' (IBLOCK n) = (v (IBLOCK n)).putDinode (n % IPB) d)
    (hk : IBLOCK k ≠ IBLOCK n → v' (IBLOCK k) = v (IBLOCK k)) :
    diskInode v' k = if k = n then d else diskInode v k := by
  have hlt : n % IPB < IPB := Nat.mod_lt _ (by decide)
  unfold diskInode
  by_cases hkn : IBLOCK k = IBLOCK n
  · rw [hkn, hn]
    split
    · subst k
      exact Block.getDinode_putDinode_self _ _ hlt
    · refine Block.getDinode_putDinode_ne _ _ fun hm => ?_
      rename_i hne
      apply hne
      unfold IBLOCK at hkn
      rw [← Nat.div_add_mod k IPB, ← Nat.div_add_mod n IPB, hm, show k / IPB = n / IPB by omega]
  · rw [hk hkn, if_neg]
    rintro rfl
    exact hkn rfl

theorem diskInode_put (v : Nat → Block) (n k : Nat) (d : Dinode) :
    diskInode (Function.update v (IBLOCK n) ((v (IBLOCK n)).putDinode (n % IPB) d)) k = if k = n then d else diskInode v k :=
  diskInode_of_put (Function.update_self _ _ _) fun h => Function.update_of_ne h _ _

/-- A write to an inode block that keeps the current inodes keeps the files. -/
theorem files_iblock (h : (s.files E.sb).Sound E.sb E.P) {n : Nat} (hn : n < E.sb.inodes)
    (hv : ∀ x, x ≠ IBLOCK n → t.view x = s.view x) (hcur : ∀ k, k < E.sb.inodes → (t.cur k).Same (s.cur k)) :
    t.files E.sb = s.files E.sb := by
  have hlt := (Superblock.iblock_lt hn).2
  have hbit := E.ok.bitmap_lt
  refine filesOf_congr hcur (fun k p hne => hv _ ?_) fun b hb => ?_
  · have : E.sb.dataStart ≤ (filesOf E.sb s.cur s.view).addr k p := (h.area k p hne).1
    omega
  · have := E.ok.bblock hb
    unfold Marked
    rw [hv _ (by omega)]

/-- `iupdate`: afterwards the cached inode is not ahead of the disk. -/
theorem wp_iupdate (h : Inv E a m s) {ip : Slot} (hm : 0 < m ip) (hv : (s.icache ip).valid = true)
    (ha : ∀ jp, a = .addrs jp ∨ a = .fields jp → jp = ip) (hW : E.W (IBLOCK (s.icache ip).inum))
    {Q : Unit → FsState → Prop}
    (hQ : ∀ t, Inv E .no m t → Stable m s t → t.icache = s.icache → t.files E.sb = s.files E.sb →
      (∀ x, x ≠ IBLOCK (s.icache ip).inum → t.view x = s.view x) → Q () t) : Wp E.C (iupdate ip) Q s := by
  have hn := h.inum ip hm
  have hblk := Superblock.iblock_lt hn
  have hdata := E.ok.data_le
  have hbit := E.ok.bitmap_lt
  simp only [iupdate, wp_bind, inode_wp, wp_liftM, wp_bread]
  refine wp_logWrite h.io (by omega) hW fun io' hio hview => ?_
  let t : FsState := { s with io := io' }
  have hview : t.view = Function.update s.view (IBLOCK (s.icache ip).inum)
      ((s.view (IBLOCK (s.icache ip).inum)).putDinode ((s.icache ip).inum % IPB) (s.icache ip).dinode) := hview
  have hdisk : ∀ k, diskInode t.view k = if k = (s.icache ip).inum then (s.icache ip).dinode else diskInode s.view k := by
    intro k
    rw [hview, diskInode_put]
  have hother : ∀ jp, 0 < m jp → jp ≠ ip → diskInode t.view (s.icache jp).inum = diskInode s.view (s.icache jp).inum := by
    intro jp hmj hj
    rw [hdisk, if_neg fun he => hj (h.uniq jp ip hmj hm he)]
  have hself : diskInode t.view (s.icache ip).inum = (s.icache ip).dinode := by rw [hdisk, if_pos rfl]
  have hcur : ∀ k, (t.cur k).Same (s.cur k) := by
    intro k
    refine FsState.cur_congr (fun _ => Iff.rfl) (fun _ _ => Dinode.Same.rfl) fun hno => ?_
    rw [hdisk, if_neg]
    · exact Dinode.Same.rfl
    · rintro rfl
      exact hno ip (h.cached_iff.2 ⟨hm, hv, rfl⟩)
  have hview' : ∀ x, x ≠ IBLOCK (s.icache ip).inum → t.view x = s.view x := by
    intro x hx
    rw [hview, Function.update_of_ne hx]
  have hfiles : t.files E.sb = s.files E.sb := files_iblock h.sound hn hview' fun k _ => hcur k
  refine hQ t ⟨hio, ?_, h.refs, h.uniq, h.inum, h.typed, fun jp _ hmj hvj => ?_, fun hs jp _ _ hmj hvj => ?_, ?_⟩
    ⟨fun _ _ => rfl, fun _ _ hvj => ⟨hvj, rfl⟩⟩ rfl hfiles hview'
  · rw [hview' 1 (by omega)]
    exact h.super
  · by_cases hj : jp = ip
    · subst hj
      rw [hself]
      exact Dinode.Same.rfl.weak
    · rw [hother jp hmj hj]
      exact h.weak jp (fun he => hj (ha jp (Or.inr he))) hmj hvj
  · by_cases hj : jp = ip
    · subst hj
      rw [hself]
      exact Dinode.Same.rfl
    · rw [hother jp hmj hj]
      exact h.sync hs jp (fun he => hj (ha jp (Or.inr he))) (fun he => hj (ha jp (Or.inl he))) hmj hvj
  · rw [hfiles]
    exact h.sound

/-- A change of the fields of a cached inode that the files do not show. -/
theorem wp_setFields (h : Inv E a m s) {ip : Slot} (hm : 0 < m ip) {f : Dinode → Dinode} (hf : ∀ d, (f d).Same d)
    {Q : Unit → FsState → Prop}
    (hQ : ∀ t, Inv E a m t → Stable m s t → (t.icache ip).valid = (s.icache ip).valid →
      (t.icache ip).inum = (s.icache ip).inum → t.view = s.view → (∀ k, (t.cur k).Same (s.cur k)) → Q () t) :
    Wp E.C (setDinode ip f) Q s := by
  obtain ⟨hinv, hst, hcur⟩ := h.fields hm (i := { s.icache ip with dinode := f (s.icache ip).dinode }) rfl rfl rfl (hf _)
  rw [setDinode_wp]
  exact hQ _ hinv hst (by simp) (by simp) rfl hcur

/-! ## `ialloc` -/

/-- A free disk inode is initialized. -/
theorem Inv.initInode (h : Inv E .no m s) {n : Nat} {type : Int16} (hn : n < E.sb.inodes)
    (hfree : (diskInode s.view n).type = 0) (hio : IoInv E.sb t.io) (hic : t.icache = s.icache)
    (hview : t.view = Function.update s.view (IBLOCK n)
      ((s.view (IBLOCK n)).putDinode (n % IPB) { Dinode.zero with type })) :
    Inv E .no m t ∧ Stable m s t := by
  have hblk := Superblock.iblock_lt hn
  have hbit := E.ok.bitmap_lt
  -- no entry holds a valid copy of a free inode
  have huncached : ∀ ip, 0 < m ip → (s.icache ip).valid = true → (s.icache ip).inum ≠ n := by
    rintro ip hm hv rfl
    exact h.typed ip hm hv (((h.weak ip (by simp) hm hv).type).symm.trans hfree)
  have hcached : ∀ k ip, t.Cached k ip ↔ s.Cached k ip := by
    intro k ip
    unfold FsState.Cached
    rw [hic]
  have hdisk : ∀ k, k ≠ n → diskInode t.view k = diskInode s.view k := by
    intro k hk
    rw [hview, diskInode_put, if_neg hk]
  have hcur : ∀ k, k ≠ n → (t.cur k).Same (s.cur k) := by
    intro k hk
    refine FsState.cur_congr (hcached k) (fun ip _ => ?_) fun _ => ?_
    · rw [hic]
      exact Dinode.Same.rfl
    · rw [hdisk k hk]
      exact Dinode.Same.rfl
  have hno : ∀ ip, ¬s.Cached n ip := fun ip hc => by
    obtain ⟨hm, hv, hi⟩ := h.cached_iff.1 hc
    exact huncached ip hm hv hi
  have hold : s.cur n = diskInode s.view n := FsState.cur_disk hno
  have hnew : t.cur n = { Dinode.zero with type } := by
    rw [FsState.cur_disk fun ip hc => hno ip ((hcached n ip).1 hc), hview, diskInode_put, if_pos rfl]
  have hview' : ∀ x, x ≠ IBLOCK n → t.view x = s.view x := by
    intro x hx
    rw [hview, Function.update_of_ne hx]
  refine ⟨⟨hio, ?_, fun ip => ?_, fun ip jp => ?_, fun ip => ?_, fun ip => ?_, fun ip _ hm hv => ?_,
    fun hs ip _ _ hm hv => ?_, ?_⟩, ⟨fun _ _ => by rw [hic], fun _ _ hv => by rw [hic]; exact ⟨hv, rfl⟩⟩⟩
  · rw [hview' 1 (by omega)]
    exact h.super
  · rw [hic]; exact h.refs ip
  · rw [hic]; exact h.uniq ip jp
  · rw [hic]; exact h.inum ip
  · rw [hic]; exact h.typed ip
  · rw [hic] at hv ⊢
    rw [hdisk _ (huncached ip hm hv)]
    exact h.weak ip (by simp) hm hv
  · rw [hic] at hv ⊢
    rw [hdisk _ (huncached ip hm hv)]
    exact h.sync hs ip (by simp) (by simp) hm hv
  · have hlow : ∀ k p, (s.files E.sb).addr k p ≠ 0 → t.view ((s.files E.sb).addr k p) = s.view ((s.files E.sb).addr k p) := by
      intro k p hne
      have := (h.sound.area k p hne).1
      exact hview' _ (by omega)
    have hsame := fun k (hk : k ≠ n) => filesOf_inode (fun _ => hcur k hk) (hlow k)
    have hfreen : (s.files E.sb).type n = 0 := by
      unfold FsState.files
      rw [filesOf_type hn, hold]
      exact hfree
    have hnone : ∀ p, (t.files E.sb).addr n p = 0 := by
      intro p
      unfold FsState.files filesOf
      dsimp only
      split
      · rw [hnew]
        unfold Dinode.addr
        split
        · exact walk_zero _
        · rfl
      · rfl
    have haddr : (t.files E.sb).addr = (s.files E.sb).addr := by
      funext k p
      by_cases hk : k = n
      · subst hk
        rw [hnone, h.sound.free k p hfreen]
      · exact congrFun (hsame k hk).2.2.1 p
    refine h.sound.create hfreen (fun k hk => (hsame k hk).1) (fun k hk => (hsame k hk).2.1) ?_ haddr ?_ ?_
    · unfold FsState.files
      rw [filesOf_size hn, hnew]
      rfl
    · funext b
      refine propext (and_congr_right fun hb => ?_)
      have := E.ok.bblock hb
      unfold Marked
      rw [hview' _ (by omega)]
    · funext k o
      by_cases hk : k = n
      · subst hk
        exact (filesOf_byte_none hnone o).trans (filesOf_byte_none (fun p => h.sound.free k p hfreen) o).symm
      · exact congrFun (hsame k hk).2.2.2 o

/-- Inode `n` is the one `ialloc` takes. -/
def FreeInode (E : Setting) (v : Nat → Block) (n : Nat) : Prop :=
  1 ≤ n ∧ n < E.sb.ninodes ∧ (diskInode v n).type = 0 ∧ ∀ k, 1 ≤ k → k < n → (diskInode v k).type ≠ 0

theorem lt_inodes {sb : Superblock} {n : Nat} (h : n < sb.ninodes) : n < sb.inodes := by
  unfold Superblock.inodes
  have := Nat.div_add_mod sb.ninodes IPB
  have := Nat.mod_lt sb.ninodes (show 0 < IPB by decide)
  simp only [IPB] at *
  omega

theorem wp_iallocFrom (h : Inv E .no m s) {type : Int16} {Q : Slot → FsState → Prop}
    (hW : ∀ n, FreeInode E s.view n → E.W (IBLOCK n))
    (hQ : ∀ ip t, Inv E .no (hold m ip) t → Stable m s t → (t.cur (t.icache ip).inum).type = type → Q ip t) (c : Nat) :
    ∀ n, 1 ≤ n → n + c ≤ E.sb.ninodes ∨ c = 0 → (∀ k, 1 ≤ k → k < n → (diskInode s.view k).type ≠ 0) →
      Wp E.C (iallocFrom type (List.range' n c)) Q s := by
  induction c with
  | zero =>
    intro n _ _ _
    rw [List.range'_zero, iallocFrom, wp_panic]
    exact E.fail _
  | succ c ih =>
    intro n hn₁ hnc hbefore
    have hn : n < E.sb.inodes := lt_inodes (by omega)
    have hblk := Superblock.iblock_lt hn
    have hdata := E.ok.data_le
    have hbit := E.ok.bitmap_lt
    rw [List.range'_succ, iallocFrom, wp_bind, bread_wp, wp_ite]
    refine ⟨fun hfree => ?_, fun htaken => ih (n + 1) (by omega) (by omega) fun k hk₁ hk => ?_⟩
    · rw [wp_bind, wp_liftM]
      refine wp_logWrite h.io (by omega) (hW n ⟨hn₁, by omega, hfree, hbefore⟩) fun io' hio hview => ?_
      let t : FsState := { s with io := io' }
      have hview : t.view = Function.update s.view (IBLOCK n)
          ((s.view (IBLOCK n)).putDinode (n % IPB) { Dinode.zero with type }) := hview
      obtain ⟨ht, hst⟩ := h.initInode (t := t) hn hfree hio rfl hview
      refine wp_iget ht hn fun ip u hu hst' hinum hv hcur => hQ ip u hu (hst.trans hst') ?_
      rw [hinum, (hcur n).type]
      -- the new inode is current on disk
      have : t.cur n = diskInode t.view n := by
        refine ht.cur_eq_disk fun jp hmj hj => ?_
        by_contra hv
        have hv : (s.icache jp).valid = true := by simpa using hv
        have hj : (s.icache jp).inum = n := hj
        have := (h.weak jp (by simp) hmj hv).type
        rw [hj] at this
        exact h.typed jp hmj hv (this.symm.trans hfree)
      rw [this, hview, diskInode_put, if_pos rfl]
    · by_cases hkn : k = n
      · subst hkn; exact htaken
      · exact hbefore k hk₁ (by omega)

/-- **`ialloc`** takes the first free inode. -/
theorem wp_ialloc (h : Inv E .no m s) {type : Int16} {Q : Slot → FsState → Prop}
    (hW : ∀ n, FreeInode E s.view n → E.W (IBLOCK n))
    (hQ : ∀ ip t, Inv E .no (hold m ip) t → Stable m s t → (t.cur (t.icache ip).inum).type = type → Q ip t) :
    Wp E.C (ialloc type) Q s := by
  have hsb : (s.io.view 1).superblock = E.sb := h.super
  rw [ialloc, wp_bind, wp_liftM, wp_readsb, hsb]
  exact wp_iallocFrom h hW hQ _ 1 (Nat.le_refl _) (by omega) fun k _ _ => by omega

end Inv

end NewXv6
