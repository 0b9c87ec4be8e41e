import NewXv6.Fs.Content
import NewXv6.Fs.Free

/-!
# Directories and paths

What the directory and path functions rely on and leave: the invariant of the file system, with one more pointer when
they return an inode. An entry that is read names an inode that exists; an entry that is written is a whole one.
-/

namespace NewXv6

open Lib

section Dir

variable {E : Setting} {m : Slot → Nat} {s t : FsState} {dp ip : Slot}

/-! ## Entries -/

theorem length_strncpy (name : List UInt8) (n : Nat) : (strncpy name n).length = n := by
  induction n generalizing name with
  | zero => rfl
  | succ n ih =>
    unfold strncpy
    split
    · simp
    · simp [ih]

/-- A new entry is a whole one. -/
theorem entryOk_encode {sb : Superblock} {off inum : Nat} (name : List UInt8) (hoff : DIRENT ∣ off)
    (hinum : inum < sb.inodes) :
    EntryOk sb off (Dirent.encode { inum := UInt16.ofNat inum, name := strncpy name DIRSIZ }) := by
  refine ⟨hoff, ?_, ?_⟩
  · simp [Dirent.encode, length_strncpy]
  · rw [le16_byte16 (v := UInt16.ofNat inum) fun j hj => ?_]
    · rw [UInt16.toNat_ofNat']
      exact Nat.lt_of_le_of_lt (Nat.mod_le _ _) hinum
    · obtain rfl | rfl : j = 0 ∨ j = 1 := by omega
      · rfl
      · rfl

theorem wp_readEntry (h : Inv E .no m s) (hm : 0 < m dp) (hv : (s.icache dp).valid = true)
    (hW : ¬E.P.strict → ∀ x, E.W x) (devsw : Nat → Option Devsw) (p : Panic) (ht : (s.icache dp).dinode.type = T_DIR)
    {k : Nat} (hk : DIRENT * k < 2 ^ 32) {Q : Dirent → FsState → Prop}
    (hQ : ∀ de t, Inv E .no m t → Grown E dp s t → (E.P.strict → t = s) →
      DIRENT * k + DIRENT ≤ (s.icache dp).dinode.size.toNat →
      de.inum.toNat = (s.files E.sb).entry (s.icache dp).inum k → Q de t) :
    Wp E.C (readEntry devsw p dp (DIRENT * k)) Q s := by
  rw [readEntry, wp_bind]
  refine wp_readi h hm hv hW devsw fun r t hinv hgrown hsame hreads => ?_
  have hoff : (UInt32.ofNat (DIRENT * k)).toNat = DIRENT * k := by
    rw [UInt32.toNat_ofNat']
    exact Nat.mod_eq_of_lt hk
  cases r with
  | none =>
    dsimp only
    rw [wp_panic]
    exact E.fail _
  | some data =>
    dsimp only
    rw [wp_ite, wp_pure, wp_panic]
    refine ⟨fun hlen => ?_, fun _ => E.fail _⟩
    obtain ⟨-, hend, hdata⟩ := hreads (by rw [ht]; decide) data rfl
    rw [hlen, hoff] at hend hdata
    refine hQ _ t hinv hgrown hsame hend ?_
    unfold Dirent.decode Files.entry
    rw [le16_congr (g := (s.files E.sb).byte (s.icache dp).inum) (p := DIRENT * k) fun j hj => ?_]
    rw [hdata, List.getD_eq_getElem?_getD, List.getElem?_map, List.getElem?_range (by simp only [DIRENT]; omega)]
    simp

/-! ## `dirlookup` and `dirlink` -/

theorem Grown.same (h : Grown E dp s t) : (t.icache dp).dinode.type = (s.icache dp).dinode.type ∧
    (t.icache dp).dinode.size = (s.icache dp).dinode.size ∧ (t.icache dp).valid = (s.icache dp).valid := by
  obtain ⟨as, has⟩ := h.entry
  rw [has, FsState.withAddrs, Function.update_self]
  exact ⟨rfl, rfl, rfl⟩

theorem wp_dirlookupFrom (hm : 0 < m dp) (hW : ¬E.P.strict → ∀ x, E.W x) (devsw : Nat → Option Devsw) (name : List UInt8)
    (fuel : Nat) : ∀ {s : FsState} {k : Nat}, Inv E .no m s → (s.icache dp).valid = true →
      (s.icache dp).dinode.type = T_DIR → ∀ {Q : Option (Slot × Nat) → FsState → Prop},
      (∀ t, Inv E .no m t → Grown E dp s t → (E.P.strict → t = s) → Q none t) →
      (∀ ip k t, Inv E .no (hold m ip) t → Stable m s t → Q (some (ip, DIRENT * k)) t) →
      Wp E.C (dirlookupFrom devsw dp name fuel (DIRENT * k)) Q s := by
  induction fuel with
  | zero =>
    intro s k h _ _ Q hnone _
    exact (wp_pure _ _ _).2 (hnone s h (Grown.refl s) fun _ => rfl)
  | succ fuel ih =>
    intro s k h hv ht Q hnone hsome
    rw [dirlookupFrom, wp_bind, inode_wp, wp_ite]
    refine ⟨fun hlt => ?_, fun _ => (wp_pure _ _ _).2 (hnone s h (Grown.refl s) fun _ => rfl)⟩
    have hsz := UInt32.toNat_lt (s.icache dp).dinode.size
    rw [wp_bind]
    refine wp_readEntry h hm hv hW devsw _ ht (Nat.lt_trans hlt hsz) fun de t hinv hgrown hsame hend hentry => ?_
    rw [wp_ite, wp_bind]
    refine ⟨fun _ => ?_, fun _ => ?_⟩
    · have hinum : de.inum.toNat < E.sb.inodes := by
        rw [hentry]
        refine h.sound.dirs _ _ ?_ ?_
        · rw [h.type_eq hm hv, ht]
        · rw [h.size_eq hm hv]
          exact hend
      refine wp_iget hinv hinum fun ip u hu hst _ _ _ => ?_
      rw [wp_pure]
      exact hsome ip k u hu ((hgrown.stable m).trans hst)
    · obtain ⟨h₁, h₂, h₃⟩ := hgrown.same
      rw [← Nat.mul_succ]
      refine ih hinv (h₃.trans hv) (h₁.trans ht) (fun u hu hg hs => ?_) fun ip k' u hu hst => ?_
      · exact hnone u hu (hgrown.trans hg) fun hstrict => (hs hstrict).trans (hsame hstrict)
      · exact hsome ip k' u hu ((hgrown.stable m).trans hst)

/-- **`dirlookup`** returns a pointer to an inode an entry names. -/
theorem wp_dirlookup (h : Inv E .no m s) (hm : 0 < m dp) (hv : (s.icache dp).valid = true)
    (hW : ¬E.P.strict → ∀ x, E.W x) (devsw : Nat → Option Devsw) (name : List UInt8)
    {Q : Option (Slot × Nat) → FsState → Prop}
    (hnone : ∀ t, (s.icache dp).dinode.type = T_DIR → Inv E .no m t → Grown E dp s t → (E.P.strict → t = s) → Q none t)
    (hsome : ∀ ip k t, Inv E .no (hold m ip) t → Stable m s t → Q (some (ip, DIRENT * k)) t) :
    Wp E.C (dirlookup devsw dp name) Q s := by
  rw [dirlookup, wp_bind, inode_wp, wp_ite, wp_panic]
  refine ⟨fun _ => E.fail _, fun ht => ?_⟩
  have ht : (s.icache dp).dinode.type = T_DIR := by simpa using ht
  have := wp_dirlookupFrom hm hW devsw name ((s.icache dp).dinode.size.toNat / DIRENT + 1) (k := 0) h hv ht
    (fun t => hnone t ht) hsome
  rwa [Nat.mul_zero] at this

theorem wp_emptyFrom (hm : 0 < m dp) (hW : ¬E.P.strict → ∀ x, E.W x) (devsw : Nat → Option Devsw)
    (fuel : Nat) : ∀ {s : FsState} {k : Nat}, Inv E .no m s → (s.icache dp).valid = true →
      (s.icache dp).dinode.type = T_DIR → ∀ {Q : Nat → FsState → Prop},
      (∀ k t, Inv E .no m t → Grown E dp s t → (E.P.strict → t = s) → Q (DIRENT * k) t) →
      Wp E.C (emptyFrom devsw dp fuel (DIRENT * k)) Q s := by
  induction fuel with
  | zero =>
    intro s k h _ _ Q hQ
    exact (wp_pure _ _ _).2 (hQ k s h (Grown.refl s) fun _ => rfl)
  | succ fuel ih =>
    intro s k h hv ht Q hQ
    rw [emptyFrom, wp_bind, inode_wp, wp_ite]
    refine ⟨fun hlt => ?_, fun _ => (wp_pure _ _ _).2 (hQ k s h (Grown.refl s) fun _ => rfl)⟩
    have hsz := UInt32.toNat_lt (s.icache dp).dinode.size
    rw [wp_bind]
    refine wp_readEntry h hm hv hW devsw _ ht (Nat.lt_trans hlt hsz) fun de t hinv hgrown hsame _ _ => ?_
    rw [wp_ite, wp_pure]
    refine ⟨fun _ => hQ k t hinv hgrown hsame, fun _ => ?_⟩
    obtain ⟨h₁, h₂, h₃⟩ := hgrown.same
    rw [← Nat.mul_succ]
    exact ih hinv (h₃.trans hv) (h₁.trans ht) fun k' u hu hg hs =>
      hQ k' u hu (hgrown.trans hg) fun hstrict => (hs hstrict).trans (hsame hstrict)

/-- A footprint that allows everything. -/
theorem Room.all (hW : ∀ x, E.W x) (s : FsState) (n : Nat) (L : Finset Pos) : Room E s n L :=
  ⟨fun _ _ => ⟨hW _, hW _⟩, fun _ _ _ _ _ _ => hW _, fun _ _ _ _ => hW _⟩

/-- **`dirlink`** adds an entry, or fails because the name is there. -/
theorem wp_dirlink (h : Inv E .no m s) (hm : 0 < m dp) (hv : (s.icache dp).valid = true) (hW : ∀ x, E.W x)
    (devsw : Nat → Option Devsw) (name : List UInt8) {inum : Nat} (hinum : inum < E.sb.inodes) {Q : Int → FsState → Prop}
    (hQ : ∀ r t, Inv E .no m t → Stable m s t → Q r t) : Wp E.C (dirlink devsw dp name inum) Q s := by
  rw [dirlink, wp_bind]
  refine wp_dirlookup h hm hv (fun _ => hW) devsw name (fun t ht hinv hgrown _ => ?_) fun ip k t hinv hst => ?_
  · obtain ⟨h₁, h₂, h₃⟩ := hgrown.same
    have hst := hgrown.stable m
    simp only [wp_bind, inode_wp]
    have hempty := wp_emptyFrom (E := E) (s := t) (k := 0) hm (fun _ => hW) devsw
      ((t.icache dp).dinode.size.toNat / DIRENT + 1) hinv (h₃.trans hv) (h₁.trans ht)
      (Q := fun off u => ∃ k, off = DIRENT * k ∧ Inv E .no m u ∧ Stable m t u ∧ (u.icache dp).valid = true)
      fun k u hu hg _ => ⟨k, rfl, hu, hg.stable m, hg.same.2.2.trans (h₃.trans hv)⟩
    rw [Nat.mul_zero] at hempty
    refine hempty.mono fun off u hfound => ?_
    obtain ⟨k, rfl, hu, hst', hv'⟩ := hfound
    have hdvd : DIRENT ∣ (UInt32.ofNat (DIRENT * k)).toNat := by
      rw [UInt32.toNat_ofNat', Nat.dvd_mod_iff (by decide)]
      exact Nat.dvd_mul_right _ _
    have hok := entryOk_encode name hdvd hinum
    refine wp_writei hu hm hv' devsw (by rw [hok.2.1]; decide) (fun _ => hok) (Room.all hW _ _ _) (fun _ => hW _)
      fun r w hw hst'' _ => ?_
    rw [wp_ite, wp_panic, wp_pure]
    exact ⟨fun _ => E.fail _, fun _ => hQ _ w hw (hst.trans (hst'.trans hst''))⟩
  · simp only [wp_bind, wp_pure]
    refine wp_iput hinv (hold_pos m ip) (fun _ => ⟨hW _, fun _ _ => hW _⟩) fun u hu hst' => ?_
    rw [drop_hold] at hu hst'
    exact hQ _ u hu (hst.trans hst')

/-! ## Paths -/

theorem skipelem_length {path name rest : List UInt8} (h : skipelem path = some (name, rest)) :
    rest.length < path.length := by
  unfold skipelem at h
  dsimp only at h
  split at h
  · cases h
  · rename_i hne
    simp only [Option.some.injEq, Prod.mk.injEq] at h
    obtain ⟨-, rfl⟩ := h
    generalize hs : path.dropWhile (· == slash) = s at *
    cases s with
    | nil => exact absurd rfl hne
    | cons c s =>
      have hc : (c != slash) = true := by
        have := List.head_dropWhile_not (l := path) (· == slash) (by rw [hs]; simp)
        simp only [hs, List.head_cons] at this
        simpa using this
      have hle : (path.dropWhile (· == slash)).length ≤ path.length := (List.dropWhile_suffix _).length_le
      rw [hs] at hle
      have h₁ := (List.dropWhile_suffix (· == slash) (l := s.dropWhile (· != slash))).length_le
      have h₂ := (List.dropWhile_suffix (· != slash) (l := s)).length_le
      rw [List.dropWhile_cons_of_pos (p := (· != slash)) hc]
      simp only [List.length_cons] at hle
      omega

theorem wp_namexFrom (hW : ∀ x, E.W x) (devsw : Nat → Option Devsw) (parent : Bool) (fuel : Nat) :
    ∀ {s : FsState} {ip : Slot} {path : List UInt8}, Inv E .no (hold m ip) s → path.length < fuel →
      ∀ {Q : Option (Slot × List UInt8) → FsState → Prop}, (∀ t, Inv E .no m t → Stable m s t → Q none t) →
      (∀ ip name t, Inv E .no (hold m ip) t → Stable m s t → Q (some (ip, name)) t) →
      Wp E.C (namexFrom devsw parent fuel ip path) Q s := by
  induction fuel with
  | zero =>
    intro s ip path _ hlen
    omega
  | succ fuel ih =>
    intro s ip path h hlen Q hnone hsome
    have hfree : ∀ {m' : Slot → Nat} {t : FsState} {jp : Slot}, Frees m' t jp → E.W (IBLOCK (t.icache jp).inum) ∧
        ∀ b, Gone E t (t.icache jp).inum b → E.W (BBLOCK b E.sb.ninodes) := fun _ => ⟨hW _, fun _ _ => hW _⟩
    have hle : ∀ jp, m jp ≤ hold m ip jp := le_hold m ip
    rw [namexFrom]
    cases hskip : skipelem path with
    | none =>
      simp only [wp_ite, wp_bind, wp_pure]
      refine ⟨fun _ => ?_, fun _ => hsome ip [] s h (Stable.refl m s)⟩
      refine wp_iput h (hold_pos m ip) hfree fun t ht hst => ?_
      rw [drop_hold] at ht hst
      exact hnone t ht hst
    | some r =>
      obtain ⟨name, rest⟩ := r
      have hlen' := skipelem_length hskip
      dsimp only
      rw [wp_bind]
      refine wp_ilock h (hold_pos m ip) fun t ht hst hv _ _ => ?_
      have hst := hst.mono hle
      simp only [wp_bind, inode_wp, wp_ite, wp_pure]
      refine ⟨fun _ => ?_, fun htype => ⟨fun _ => ?_, fun _ => ?_⟩⟩
      · refine wp_iunlockput ht (hold_pos m ip) hfree fun u hu hst' => ?_
        rw [drop_hold] at hu hst'
        exact hnone u hu (hst.trans hst')
      · exact wp_iunlock ht (hold_pos m ip) fun u _ hu hst' _ => hsome ip name u hu (hst.trans (hst'.mono hle))
      · refine wp_dirlookup ht (hold_pos m ip) hv (fun _ => hW) devsw name (fun u _ hu hg _ => ?_) fun next k u hu hst' => ?_
        · simp only [wp_bind, wp_pure]
          refine wp_iunlockput hu (hold_pos m ip) hfree fun w hw hst' => ?_
          rw [drop_hold] at hw hst'
          exact hnone w hw (hst.trans ((hg.stable m).trans hst'))
        · simp only [wp_bind]
          have hcomm : drop (hold (hold m ip) next) ip = hold m next := by rw [hold_comm, drop_hold]
          refine wp_iunlockput hu (Nat.lt_of_lt_of_le (hold_pos m ip) (le_hold _ next ip)) hfree fun w hw hst'' => ?_
          rw [hcomm] at hw hst''
          have hst₃ := hst.trans ((hst'.mono hle).trans (hst''.mono (le_hold m next)))
          exact ih hw (by omega) (fun v hv' hst₄ => hnone v hv' (hst₃.trans hst₄))
            fun jp name v hv' hst₄ => hsome jp name v hv' (hst₃.trans hst₄)

theorem rootino_lt (sb : Superblock) : ROOTINO < sb.inodes := by
  unfold Superblock.inodes
  simp only [IPB, ROOTINO]
  generalize sb.ninodes / 8 = x
  omega

/-- **`namex`** returns a pointer, or nothing and then holds none. -/
theorem wp_namex (h : Inv E .no m s) (hW : ∀ x, E.W x) (devsw : Nat → Option Devsw) {cwd : Slot} (hcwd : 0 < m cwd)
    (path : List UInt8) (parent : Bool) {Q : Option (Slot × List UInt8) → FsState → Prop}
    (hnone : ∀ t, Inv E .no m t → Stable m s t → Q none t)
    (hsome : ∀ ip name t, Inv E .no (hold m ip) t → Stable m s t → Q (some (ip, name)) t) :
    Wp E.C (namex devsw cwd path parent) Q s := by
  have hstart : ∀ ip t, Inv E .no (hold m ip) t → Stable m s t →
      Wp E.C (namexFrom devsw parent (path.length + 1) ip path) Q t := fun ip t ht hst =>
    wp_namexFrom hW devsw parent _ ht (by omega) (fun u hu hst' => hnone u hu (hst.trans hst'))
      fun jp name u hu hst' => hsome jp name u hu (hst.trans hst')
  rw [namex, wp_ite]
  simp only [wp_bind]
  refine ⟨fun _ => ?_, fun _ => ?_⟩
  · exact wp_iget h (rootino_lt E.sb) fun ip t ht hst _ _ _ => hstart ip t ht hst
  · exact wp_idup h hcwd fun t ht hst _ _ _ => hstart cwd t ht hst

theorem wp_namei (h : Inv E .no m s) (hW : ∀ x, E.W x) (devsw : Nat → Option Devsw) {cwd : Slot} (hcwd : 0 < m cwd)
    (path : List UInt8) {Q : Option Slot → FsState → Prop} (hnone : ∀ t, Inv E .no m t → Stable m s t → Q none t)
    (hsome : ∀ ip t, Inv E .no (hold m ip) t → Stable m s t → Q (some ip) t) :
    Wp E.C (namei devsw cwd path) Q s := by
  rw [namei, wp_bind]
  exact wp_namex h hW devsw hcwd path false (fun t ht hst => (wp_pure _ _ _).2 (hnone t ht hst))
    fun ip _ t ht hst => (wp_pure _ _ _).2 (hsome ip t ht hst)

end Dir

end NewXv6
