import NewXv6.Fs.Dir
import NewXv6.Sys.Model

/-!
# The file system side of the calls

The parts of the system calls that work on inodes: `create`, and the loop of `isdirempty`.
-/

namespace NewXv6

open Lib

section Call

variable {E : Setting} {m : Slot → Nat} {s t : FsState} {dp ip : Slot}

theorem wp_isdiremptyFrom (hm : 0 < m dp) (hW : ¬E.P.strict → ∀ x, E.W x) (devsw : Nat → Option Devsw)
    (fuel : Nat) : ∀ {s : FsState} {k : Nat}, Inv E .no m s → (s.icache dp).valid = true →
      (s.icache dp).dinode.type = T_DIR → ∀ {Q : Bool → FsState → Prop},
      (∀ b t, Inv E .no m t → Grown E dp s t → (E.P.strict → t = s) → Q b t) →
      Wp E.C (isdiremptyFrom devsw dp fuel (DIRENT * k)) Q s := by
  induction fuel with
  | zero =>
    intro s k h _ _ Q hQ
    exact (wp_pure _ _ _).2 (hQ true s h (Grown.refl s) fun _ => rfl)
  | succ fuel ih =>
    intro s k h hv ht Q hQ
    rw [isdiremptyFrom, wp_bind, inode_wp, wp_ite]
    refine ⟨fun hlt => ?_, fun _ => (wp_pure _ _ _).2 (hQ true s h (Grown.refl s) fun _ => rfl)⟩
    have hsz := UInt32.toNat_lt (s.icache dp).dinode.size
    rw [wp_bind]
    refine wp_readEntry h hm hv hW devsw _ ht (Nat.lt_trans hlt hsz) fun de t hinv hgrown hsame _ _ => ?_
    rw [wp_ite, wp_pure]
    refine ⟨fun _ => hQ false t hinv hgrown hsame, fun _ => ?_⟩
    obtain ⟨h₁, h₂, h₃⟩ := hgrown.same
    rw [← Nat.mul_succ]
    exact ih hinv (h₃.trans hv) (h₁.trans ht) fun b u hu hg hs =>
      hQ b u hu (hgrown.trans hg) fun hstrict => (hs hstrict).trans (hsame hstrict)

theorem wp_isdirempty (h : Inv E .no m s) (hm : 0 < m dp) (hv : (s.icache dp).valid = true)
    (hW : ¬E.P.strict → ∀ x, E.W x) (devsw : Nat → Option Devsw) (ht : (s.icache dp).dinode.type = T_DIR)
    {Q : Bool → FsState → Prop} (hQ : ∀ b t, Inv E .no m t → Grown E dp s t → (E.P.strict → t = s) → Q b t) :
    Wp E.C (isdirempty devsw dp) Q s := by
  rw [isdirempty, wp_bind, inode_wp, Nat.mul_comm]
  exact wp_isdiremptyFrom hm hW devsw _ h hv ht hQ

/-- **`create`** returns a locked inode of the type it was asked for, or none. -/
theorem wp_create (h : Inv E .no m s) (hW : ∀ x, E.W x) (devsw : Nat → Option Devsw) {cwd : Slot} (hcwd : 0 < m cwd)
    (path : List UInt8) (type major minor : Int16) {Q : Option Slot → FsState → Prop}
    (hnone : ∀ t, Inv E .no m t → Stable m s t → Q none t)
    (hsome : ∀ ip t, Inv E .no (hold m ip) t → Stable m s t → (t.icache ip).valid = true →
      (t.icache ip).dinode.type = type → Q (some ip) t) :
    Wp E.C (create devsw cwd path type major minor) Q s := by
  have hfree : ∀ {m' : Slot → Nat} {t : FsState} {jp : Slot}, Frees m' t jp → E.W (IBLOCK (t.icache jp).inum) ∧
      ∀ b, Gone E t (t.icache jp).inum b → E.W (BBLOCK b E.sb.ninodes) := fun _ => ⟨hW _, fun _ _ => hW _⟩
  rw [create, wp_bind]
  refine wp_namex h hW devsw hcwd path true (fun t ht hst => (wp_pure _ _ _).2 (hnone t ht hst)) fun dp name t ht hst => ?_
  dsimp only
  have hdp := hold_pos m dp
  rw [wp_bind]
  refine wp_ilock ht hdp fun t₁ ht₁ hst₁ hv₁ _ _ => ?_
  have hst₁ := hst.trans (hst₁.mono (le_hold m dp))
  rw [wp_bind]
  refine wp_dirlookup ht₁ hdp hv₁ (fun _ => hW) devsw name (fun t₂ _ ht₂ hg₂ _ => ?_) fun ip k t₂ ht₂ hst₂ => ?_
  · -- there is no entry of that name
    have hst₂ := hst₁.trans (hg₂.stable m)
    have hv₂ := hg₂.same.2.2.trans hv₁
    dsimp only
    rw [wp_bind]
    refine wp_ialloc ht₂ (fun _ _ => hW _) fun ip t₃ ht₃ hst₃ htype₃ => ?_
    have hm : ∀ jp, m jp ≤ hold (hold m dp) ip jp := fun jp => Nat.le_trans (le_hold m dp jp) (le_hold _ ip jp)
    have hip : 0 < hold (hold m dp) ip ip := hold_pos _ ip
    have hdp' : 0 < hold (hold m dp) ip dp := Nat.lt_of_lt_of_le hdp (le_hold _ ip dp)
    have hv₃ := (hst₃.valid dp hdp hv₂).1
    rw [wp_bind]
    refine wp_ilock ht₃ hip fun t₄ ht₄ hst₄ hv₄ _ hcur₄ => ?_
    have htype₄ : (t₄.icache ip).dinode.type = type := by
      rw [← ht₄.cur_eq hip hv₄, (hcur₄ _).type, hst₄.inum ip hip]
      exact htype₃
    have hvd₄ := (hst₄.valid dp hdp' hv₃).1
    rw [wp_bind]
    refine wp_setFields ht₄ hip (f := fun d => { d with major, minor, nlink := 1 }) (fun _ => ⟨rfl, rfl, rfl⟩) fun t₅ ht₅ hst₅ hval₅ _ _ _ => ?_
    rw [wp_bind]
    refine wp_iupdate ht₅ hip (hval₅.trans hv₄) (fun jp hj => by rcases hj with hj | hj <;> cases hj) (hW _)
      fun t₆ ht₆ hst₆ _ _ _ => ?_
    have hst₆ : Stable (hold (hold m dp) ip) t₄ t₆ := hst₅.trans hst₆
    -- the entry in the parent comes last
    have hlink : ∀ t', Inv E .no (hold (hold m dp) ip) t' → Stable (hold (hold m dp) ip) t₄ t' →
        Wp E.C (do
          let i ← inode ip
          let r ← dirlink devsw dp name i.inum
          if r < 0 then panic .createDirlink
          else do
            iunlockput dp
            return some ip) Q t' := by
      intro t' ht' hst'
      rw [wp_bind, inode_wp, wp_bind]
      refine wp_dirlink ht' hdp' (hst'.valid dp hdp' hvd₄).1 hW devsw name (ht'.inum ip hip) fun r u hu hst₇ => ?_
      rw [wp_ite, wp_panic, wp_bind]
      refine ⟨fun _ => E.fail _, fun _ => ?_⟩
      refine wp_iunlockput hu hdp' hfree fun w hw hst₈ => ?_
      rw [hold_comm, drop_hold] at hw hst₈
      have hall : Stable (hold m ip) t₄ w := by
        have hle : ∀ jp, hold m ip jp ≤ hold (hold m dp) ip jp := fun jp => by rw [hold_comm]; exact le_hold _ dp jp
        exact (hst'.mono hle).trans ((hst₇.mono hle).trans hst₈)
      obtain ⟨hv, ht⟩ := hall.valid ip (hold_pos m ip) hv₄
      rw [wp_pure]
      refine hsome ip w hw (hst₂.trans ?_) hv (ht.trans htype₄)
      exact (hst₃.mono (le_hold m dp)).trans ((hst₄.mono hm).trans (hall.mono (le_hold m ip)))
    rw [wp_ite]
    refine ⟨fun _ => ?_, fun _ => hlink t₆ ht₆ hst₆⟩
    have hvi₆ := (hst₆.valid ip hip hv₄).1
    have hvd₆ := (hst₆.valid dp hdp' hvd₄).1
    rw [wp_bind]
    refine wp_setFields ht₆ hdp' (f := fun d => { d with nlink := d.nlink + 1 }) (fun _ => ⟨rfl, rfl, rfl⟩) fun t₇ ht₇ hst₇ hval₇ _ _ _ => ?_
    rw [wp_bind]
    refine wp_iupdate ht₇ hdp' (hval₇.trans hvd₆) (fun jp hj => by rcases hj with hj | hj <;> cases hj) (hW _)
      fun t₈ ht₈ hst₈ _ _ _ => ?_
    have hst₈ := hst₇.trans hst₈
    have hvi₈ := (hst₈.valid ip hip hvi₆).1
    have hpanic : ∀ {t' : FsState} {f : Unit → Kern FsState (Option Slot)}, Wp E.C (panic .createDots >>= f) Q t' := by
      intro t' f
      rw [wp_bind, wp_panic]
      exact E.fail _
    rw [wp_bind, inode_wp, wp_bind, inode_wp, wp_bind]
    refine wp_dirlink ht₈ hip hvi₈ hW devsw dot (ht₈.inum ip hip) fun r t₉ ht₉ hst₉ => ?_
    rw [wp_ite]
    refine ⟨fun _ => hpanic, fun _ => ?_⟩
    have hvi₉ := (hst₉.valid ip hip hvi₈).1
    rw [wp_bind]
    refine wp_dirlink ht₉ hip hvi₉ hW devsw dotdot (ht₈.inum dp hdp') fun r t' ht' hst' => ?_
    rw [wp_ite]
    refine ⟨fun _ => hpanic, fun _ => ?_⟩
    exact hlink t' ht' (hst₆.trans (hst₈.trans (hst₉.trans hst')))
  · -- the file is there
    dsimp only
    rw [wp_bind]
    have hcomm : drop (hold (hold m dp) ip) dp = hold m ip := by rw [hold_comm, drop_hold]
    refine wp_iunlockput ht₂ (Nat.lt_of_lt_of_le hdp (le_hold _ ip dp)) hfree fun t₃ ht₃ hst₃ => ?_
    rw [hcomm] at ht₃ hst₃
    rw [wp_bind]
    refine wp_ilock ht₃ (hold_pos m ip) fun t₄ ht₄ hst₄ hv₄ _ _ => ?_
    have hst₄ := hst₁.trans ((hst₂.mono (le_hold m dp)).trans ((hst₃.trans hst₄).mono (le_hold m ip)))
    simp only [wp_bind, inode_wp, wp_ite, wp_pure]
    refine ⟨fun hfile => hsome ip t₄ ht₄ hst₄ hv₄ (hfile.2.trans hfile.1.symm), fun _ => ?_⟩
    refine wp_iunlockput ht₄ (hold_pos m ip) hfree fun t₅ ht₅ hst₅ => ?_
    rw [drop_hold] at ht₅ hst₅
    exact hnone t₅ ht₅ (hst₄.trans hst₅)

end Call

end NewXv6
