import NewXv6.Fs.Cache
import Mathlib.Data.List.Infix
import Mathlib.Data.Finset.Dedup

/-!
# Block maps

`bmap` goes down the index tree of an inode and fills in what is missing on the way. `Linked` is one allocation,
`Grown` any number of them: no file changes its type, size or contents, and no block leaves its position. `Room` says
which sectors this may log.
-/

namespace NewXv6

open Lib

section Map

variable {E : Setting} {a : Ahead} {m : Slot → Nat} {s t u : FsState} {ip : Slot}

/-! ## Paths -/

/-- The positions on the way to data block `bn`. -/
def path (bn : Nat) : Finset Pos := ((blockPos bn).2.inits.map fun ks => ((blockPos bn).1, ks)).toFinset

theorem mem_path {bn : Nat} {p : Pos} : p ∈ path bn ↔ p.1 = (blockPos bn).1 ∧ p.2 <+: (blockPos bn).2 := by
  unfold path
  simp only [List.mem_toFinset, List.mem_map, List.mem_inits]
  constructor
  · rintro ⟨ks, hks, rfl⟩
    exact ⟨rfl, hks⟩
  · rintro ⟨h₁, h₂⟩
    exact ⟨p.2, h₂, by rw [← h₁]⟩

/-- The sectors that filling in the positions `L` of inode `n` and writing its blocks there may log. -/
structure Room (E : Setting) (s : FsState) (n : Nat) (L : Finset Pos) : Prop where
  new : ∀ b, Next E.sb s.view (L.filter fun p => (s.files E.sb).addr n p = 0).card b →
    E.W b ∧ E.W (BBLOCK b E.sb.ninodes)
  index : ∀ j ks k, (j, ks ++ [k]) ∈ L → (s.files E.sb).addr n (j, ks) ≠ 0 →
    (s.files E.sb).addr n (j, ks ++ [k]) = 0 → E.W ((s.files E.sb).addr n (j, ks))
  leaf : ∀ p ∈ L, p.2.length = depth p.1 → (s.files E.sb).addr n p ≠ 0 → E.W ((s.files E.sb).addr n p)

/-! ## One allocation -/

/-- From `s` to `t` the inode of entry `ip` got the new block `b` at position `p`. -/
structure Linked (E : Setting) (m : Slot → Nat) (ip : Slot) (p : Pos) (b : Nat) (s t : FsState) : Prop where
  inv : Inv E (.addrs ip) m t
  entry : ∃ addrs, t.icache = s.withAddrs ip addrs
  next : Next E.sb s.view 1 b
  none : (s.files E.sb).addr (s.icache ip).inum p = 0
  data : E.sb.InData b
  addr : ∀ k q, (t.files E.sb).addr k q = if k = (s.icache ip).inum ∧ q = p then b else (s.files E.sb).addr k q
  type : (t.files E.sb).type = (s.files E.sb).type
  size : (t.files E.sb).size = (s.files E.sb).size
  byte : (t.files E.sb).byte = (s.files E.sb).byte
  marked : ∀ x, x < E.sb.size → (Marked E.sb t.view x ↔ Marked E.sb s.view x ∨ x = b)

/-- From `s` to `t` the inode of entry `ip` got any number of new blocks. -/
structure Grown (E : Setting) (ip : Slot) (s t : FsState) : Prop where
  entry : ∃ addrs, t.icache = s.withAddrs ip addrs
  addr : ∀ q, (s.files E.sb).addr (s.icache ip).inum q ≠ 0 →
    (t.files E.sb).addr (s.icache ip).inum q = (s.files E.sb).addr (s.icache ip).inum q
  other : ∀ k, k ≠ (s.icache ip).inum → (t.files E.sb).addr k = (s.files E.sb).addr k
  type : (t.files E.sb).type = (s.files E.sb).type
  size : (t.files E.sb).size = (s.files E.sb).size
  byte : (t.files E.sb).byte = (s.files E.sb).byte

theorem FsState.withAddrs_self (s : FsState) (ip : Slot) : s.withAddrs ip (s.icache ip).dinode.addrs = s.icache :=
  Function.update_eq_self _ _

theorem withAddrs_inum {addrs : Fin (NDIRECT + 1) → UInt32} (h : t.icache = s.withAddrs ip addrs) (jp : Slot) :
    (t.icache jp).inum = (s.icache jp).inum := by
  rw [h, FsState.withAddrs]
  by_cases hj : jp = ip
  · subst hj; rw [Function.update_self]
  · rw [Function.update_of_ne hj]

/-- Other addresses do not matter to the holders of a pointer. -/
theorem withAddrs_stable {addrs : Fin (NDIRECT + 1) → UInt32} (h : t.icache = s.withAddrs ip addrs)
    (m : Slot → Nat) : Stable m s t := by
  refine ⟨fun jp _ => withAddrs_inum h jp, fun jp _ hv => ?_⟩
  rw [h, FsState.withAddrs]
  by_cases hj : jp = ip
  · subst hj; rw [Function.update_self]; exact ⟨hv, rfl⟩
  · rw [Function.update_of_ne hj]; exact ⟨hv, rfl⟩

theorem withAddrs_trans {as bs : Fin (NDIRECT + 1) → UInt32} (h : t.icache = s.withAddrs ip as)
    (h' : u.icache = t.withAddrs ip bs) : u.icache = s.withAddrs ip bs := by
  rw [h', FsState.withAddrs, h]
  simp only [FsState.withAddrs, Function.update_self, Function.update_idem]

theorem Grown.inum (h : Grown E ip s t) (jp : Slot) : (t.icache jp).inum = (s.icache jp).inum := by
  obtain ⟨_, hic⟩ := h.entry
  exact withAddrs_inum hic jp

theorem Grown.stable (h : Grown E ip s t) (m : Slot → Nat) : Stable m s t := by
  obtain ⟨_, hic⟩ := h.entry
  exact withAddrs_stable hic m

theorem Grown.refl (s : FsState) : Grown E ip s s :=
  ⟨⟨_, (s.withAddrs_self ip).symm⟩, fun _ _ => rfl, fun _ _ => rfl, rfl, rfl, rfl⟩

theorem Grown.trans (h : Grown E ip s t) (h' : Grown E ip t u) : Grown E ip s u := by
  have hi := h.inum ip
  obtain ⟨as, has⟩ := h.entry
  obtain ⟨bs, hbs⟩ := h'.entry
  refine ⟨⟨bs, withAddrs_trans has hbs⟩, fun q hq => ?_, fun k hk => ?_, h'.type.trans h.type, h'.size.trans h.size,
    h'.byte.trans h.byte⟩
  · have h₁ := h.addr q hq
    have h₂ := h'.addr q
    rw [hi, h₁] at h₂
    exact h₂ hq
  · have h₂ := h'.other k
    rw [hi] at h₂
    exact (h₂ hk).trans (h.other k hk)

theorem Linked.room {L : Finset Pos} {p : Pos} {b : Nat} (h : Linked E m ip p b s t) (hp : p ∈ L)
    (hr : Room E s (s.icache ip).inum L) : Room E t (s.icache ip).inum L := by
  have hcard : (L.filter fun q => (t.files E.sb).addr (s.icache ip).inum q = 0).card + 1 =
      (L.filter fun q => (s.files E.sb).addr (s.icache ip).inum q = 0).card := by
    have : L.filter (fun q => (t.files E.sb).addr (s.icache ip).inum q = 0) =
        (L.filter fun q => (s.files E.sb).addr (s.icache ip).inum q = 0).erase p := by
      ext q
      simp only [Finset.mem_filter, Finset.mem_erase, h.addr, true_and]
      have := E.ok.data_ne h.data
      by_cases hq : q = p
      · simp [hq, this]
      · simp [hq]
    rw [this, Finset.card_erase_add_one]
    simp [hp, h.none]
  have hb : E.W b := (hr.new b (next_mono h.next (by omega))).1
  have hold : ∀ q, (t.files E.sb).addr (s.icache ip).inum q ≠ 0 → (q = p ∧ (t.files E.sb).addr (s.icache ip).inum q = b) ∨
      (s.files E.sb).addr (s.icache ip).inum q ≠ 0 ∧
        (t.files E.sb).addr (s.icache ip).inum q = (s.files E.sb).addr (s.icache ip).inum q := by
    intro q hq
    rw [h.addr] at hq ⊢
    split at hq
    · rename_i hqp
      rw [if_pos hqp]
      exact Or.inl ⟨hqp.2, rfl⟩
    · rename_i hqp
      rw [if_neg hqp]
      exact Or.inr ⟨hq, rfl⟩
  refine ⟨fun x hx => hr.new x ?_, fun j ks k hmem hne hz => ?_, fun q hq hlen hne => ?_⟩
  · rw [← hcard]
    exact next_succ h.marked hx
  · rcases hold _ hne with ⟨-, he⟩ | ⟨hne', he⟩
    · rw [he]; exact hb
    · rw [he]
      refine hr.index j ks k hmem hne' ?_
      rw [h.addr] at hz
      split at hz
      · exact absurd hz (E.ok.data_ne h.data)
      · exact hz
  · rcases hold _ hne with ⟨-, he⟩ | ⟨hne', he⟩
    · rw [he]; exact hb
    · rw [he]; exact hr.leaf q hq hlen hne'

theorem Linked.grown {p : Pos} {b : Nat} (h : Linked E m ip p b s t) : Grown E ip s t := by
  refine ⟨h.entry, fun q hq => ?_, fun k hk => ?_, h.type, h.size, h.byte⟩
  · rw [h.addr, if_neg]
    rintro ⟨-, rfl⟩
    exact hq h.none
  · funext q
    rw [h.addr, if_neg fun hc => hk hc.1]

/-! ## The invariant -/

/-- New addresses in place of zeros, and blocks that are no inode blocks. -/
theorem Inv.grow (h : Inv E (.addrs ip) m s) (hm : 0 < m ip) (hv : (s.icache ip).valid = true)
    {addrs : Fin (NDIRECT + 1) → UInt32} (hic : t.icache = s.withAddrs ip addrs)
    (hadd : ∀ j, (s.icache ip).dinode.addrs j = 0 ∨ addrs j = (s.icache ip).dinode.addrs j) (hio : IoInv E.sb t.io)
    (hlow : ∀ x, x < E.sb.bitmapStart → t.view x = s.view x) (hsound : (t.files E.sb).Sound E.sb E.P) :
    Inv E (.addrs ip) m t := by
  have hother : ∀ jp, jp ≠ ip → t.icache jp = s.icache jp := by
    intro jp hj
    rw [hic, FsState.withAddrs, Function.update_of_ne hj]
  have hself : t.icache ip = { s.icache ip with dinode := { (s.icache ip).dinode with addrs } } := by
    rw [hic, FsState.withAddrs, Function.update_self]
  have hdisk : ∀ jp, 0 < m jp → diskInode t.view (s.icache jp).inum = diskInode s.view (s.icache jp).inum := by
    intro jp hmj
    unfold diskInode
    rw [hlow _ (Superblock.iblock_lt (h.inum jp hmj)).2]
  have hinum := withAddrs_inum hic
  refine ⟨hio, ?_, fun jp => ?_, fun jp kp => ?_, fun jp => ?_, fun jp hmj => ?_, fun jp ha hmj => ?_,
    fun hs jp ha hb hmj => ?_, hsound⟩
  · rw [hlow 1 E.sb.one_lt_bitmapStart]
    exact h.super
  · by_cases hj : jp = ip
    · subst hj; rw [hself]; exact h.refs jp
    · rw [hother jp hj]; exact h.refs jp
  · rw [hinum, hinum]
    exact h.uniq jp kp
  · rw [hinum]
    exact h.inum jp
  · by_cases hj : jp = ip
    · subst hj; rw [hself]; exact fun _ => h.typed jp hm hv
    · rw [hother jp hj]; exact h.typed jp hmj
  · rw [hinum, hdisk jp hmj]
    by_cases hj : jp = ip
    · subst hj
      have hw := h.weak jp ha hm hv
      rw [hself]
      refine fun _ => ⟨hw.type, hw.size, fun j => ?_⟩
      rcases hadd j with hz | hz
      · rcases hw.addrs j with h₀ | h₀
        · exact Or.inl h₀
        · exact Or.inl (h₀.trans hz)
      · dsimp only
        rw [hz]
        exact hw.addrs j
    · rw [hother jp hj]; exact h.weak jp ha hmj
  · have hj : jp ≠ ip := by
      rintro rfl
      exact hb rfl
    rw [hinum, hdisk jp hmj, hother jp hj]
    exact h.sync hs jp ha hb hmj

/-- The current inodes when the entry of `ip` gets other addresses. -/
theorem Inv.cur_withAddrs (h : Inv E a m s) (hm : 0 < m ip) (hv : (s.icache ip).valid = true)
    {addrs : Fin (NDIRECT + 1) → UInt32} (hic : t.icache = s.withAddrs ip addrs)
    (hlow : ∀ x, x < E.sb.bitmapStart → t.view x = s.view x) {k : Nat} (hk : k < E.sb.inodes) :
    (t.cur k).Same (if k = (s.icache ip).inum then { s.cur k with addrs } else s.cur k) := by
  have hself : t.icache ip = { s.icache ip with dinode := { (s.icache ip).dinode with addrs } } := by
    rw [hic, FsState.withAddrs, Function.update_self]
  have hcached : ∀ jp, t.Cached k jp ↔ s.Cached k jp := by
    intro jp
    unfold FsState.Cached
    rw [hic, FsState.withAddrs]
    by_cases hj : jp = ip
    · subst hj; rw [Function.update_self]
    · rw [Function.update_of_ne hj]
  split
  · subst k
    have hc : s.Cached (s.icache ip).inum ip := h.cached_iff.2 ⟨hm, hv, rfl⟩
    rw [h.cur_eq hm hv, FsState.cur_cached ((hcached ip).2 hc), hself]
    · exact Dinode.Same.rfl
    · intro jp hj
      obtain ⟨hmj, -, hi⟩ := h.cached_iff.1 ((hcached jp).1 hj)
      exact h.uniq jp ip hmj hm hi
  · rename_i hne
    refine FsState.cur_congr hcached (fun jp hj => ?_) fun _ => ?_
    · rw [hic, FsState.withAddrs, Function.update_of_ne]
      · exact Dinode.Same.rfl
      · rintro rfl
        exact hne hj.2.2.symm
    · unfold diskInode
      rw [hlow _ (Superblock.iblock_lt hk).2]
      exact Dinode.Same.rfl

/-- The blocks of files are not touched by an allocation. -/
theorem Inv.own_allocView (h : Inv E a m s) {b : Nat} (hfree : ¬Marked E.sb s.view b) (hb : b < E.sb.size) {k : Nat}
    {q : Pos} (hq : (s.files E.sb).addr k q ≠ 0) :
    allocView E.sb s.view b ((s.files E.sb).addr k q) = s.view ((s.files E.sb).addr k q) := by
  have harea := h.sound.area k q hq
  have hbit := E.ok.bblock hb
  refine allocView_of_ne ?_ ?_
  · rintro rfl
    exact hfree (h.sound.used k q hq).2
  · have := harea.1
    omega

/-- `balloc` under the inode cache. -/
theorem Inv.wp_balloc (h : Inv E a m s) (hW : ∀ b, Next E.sb s.view 1 b → E.W b ∧ E.W (BBLOCK b E.sb.ninodes))
    {Q : UInt32 → FsState → Prop}
    (hQ : ∀ b t, E.sb.InData b → Next E.sb s.view 1 b → IoInv E.sb t.io → t.icache = s.icache →
      t.view = allocView E.sb s.view b → Q (UInt32.ofNat b) t) : Wp E.C (liftM balloc) Q s := by
  rw [wp_liftM]
  refine NewXv6.wp_balloc h.io h.super (fun b hb hr => (h.sound.reserved b hb hr).2) hW
    fun b io' hdata hfree hall hio hview => ?_
  exact hQ b { s with io := io' } hdata (next_one (E.ok.data_lt hdata) hfree hall) hio rfl hview

/-- A block that is in use from now on gets its place. -/
theorem Inv.linked (h : Inv E (.addrs ip) m s) (hm : 0 < m ip) (hv : (s.icache ip).valid = true) {p : Pos} {b : Nat}
    (hz : (s.files E.sb).addr (s.icache ip).inum p = 0) (hdata : E.sb.InData b) (hnext : Next E.sb s.view 1 b)
    {addrs : Fin (NDIRECT + 1) → UInt32} (hic : u.icache = s.withAddrs ip addrs)
    (hadd : ∀ j, (s.icache ip).dinode.addrs j = 0 ∨ addrs j = (s.icache ip).dinode.addrs j) (hio : IoInv E.sb u.io)
    (hlow : ∀ x, x < E.sb.bitmapStart → u.view x = s.view x)
    (haddr : ∀ k q, (u.files E.sb).addr k q = if k = (s.icache ip).inum ∧ q = p then b else (s.files E.sb).addr k q)
    (htype : (u.files E.sb).type = (s.files E.sb).type) (hsize : (u.files E.sb).size = (s.files E.sb).size)
    (hbyte : (u.files E.sb).byte = (s.files E.sb).byte)
    (hmarked : ∀ x, x < E.sb.size → (Marked E.sb u.view x ↔ Marked E.sb s.view x ∨ x = b)) :
    Linked E m ip p b s u := by
  have hlt := E.ok.data_lt hdata
  have hsound : (u.files E.sb).Sound E.sb E.P := by
    refine h.sound.link E.ok hdata (fun hc => hnext.2.1 hc.2) ?_ hz htype hsize hbyte haddr fun x => ?_
    · rw [h.type_eq hm hv]
      exact h.typed ip hm hv
    · show x < E.sb.size ∧ Marked E.sb u.view x ↔ (x < E.sb.size ∧ Marked E.sb s.view x) ∨ x = b
      constructor
      · rintro ⟨hx, hmx⟩
        exact ((hmarked x hx).1 hmx).imp_left fun hmx => ⟨hx, hmx⟩
      · rintro (⟨hx, hmx⟩ | rfl)
        · exact ⟨hx, (hmarked x hx).2 (Or.inl hmx)⟩
        · exact ⟨hlt, (hmarked x hlt).2 (Or.inr rfl)⟩
  exact ⟨h.grow hm hv hic hadd hio hlow hsound, ⟨_, hic⟩, hnext, hz, hdata, haddr, htype, hsize, hbyte, hmarked⟩

/-! ## `bmap` -/

/-- What looking up position `p` leaves: nothing changed, or one new block. -/
def LinkedOr (E : Setting) (m : Slot → Nat) (ip : Slot) (p : Pos) (addr : UInt32) (s t : FsState) : Prop :=
  (s.files E.sb).addr (s.icache ip).inum p ≠ 0 ∧ t = s ∧ addr.toNat = (s.files E.sb).addr (s.icache ip).inum p ∨
    Linked E m ip p addr.toNat s t

theorem wp_inodeAddr (h : Inv E (.addrs ip) m s) (hm : 0 < m ip) (hv : (s.icache ip).valid = true)
    {j : Fin (NDIRECT + 1)} (hW : (s.files E.sb).addr (s.icache ip).inum (j, []) = 0 →
      ∀ b, Next E.sb s.view 1 b → E.W b ∧ E.W (BBLOCK b E.sb.ninodes)) {Q : UInt32 → FsState → Prop}
    (hQ : ∀ addr t, LinkedOr E m ip (j, []) addr s t → Q addr t) : Wp E.C (inodeAddr ip j) Q s := by
  have hroot := h.addr_root hm hv j
  rw [inodeAddr, wp_bind, inode_wp, wp_ite]
  refine ⟨fun hz => ?_, fun hne => ?_⟩
  · have hz₀ : (s.files E.sb).addr (s.icache ip).inum (j, []) = 0 := by rw [hroot, hz]; rfl
    rw [wp_bind]
    refine h.wp_balloc (hW hz₀) fun b t hdata hnext hio hic hview => ?_
    rw [wp_bind, setDinode_wp, wp_pure, hic]
    have hlt := E.ok.data_lt hdata
    have hb32 : b < 2 ^ 32 := Nat.lt_trans hlt E.ok.size_lt
    have hb' : (UInt32.ofNat b).toNat = b := by
      rw [UInt32.toNat_ofNat']
      exact Nat.mod_eq_of_lt hb32
    have hbit := E.ok.bblock hlt
    have hlow : ∀ x, x < E.sb.bitmapStart → t.view x = s.view x := by
      intro x hx
      have := E.ok.bitmap_lt
      have := hdata.1
      rw [hview, allocView_of_ne (by omega) (by omega)]
    have hown : ∀ k q, (s.files E.sb).addr k q ≠ 0 →
        t.view ((s.files E.sb).addr k q) = s.view ((s.files E.sb).addr k q) := by
      intro k q hq
      rw [hview]
      exact h.own_allocView hnext.2.1 hlt hq
    generalize hu : FsState.setEntry t ip _ = u
    have huic : u.icache = s.withAddrs ip (Function.update (s.icache ip).dinode.addrs j (UInt32.ofNat b)) := by
      rw [← hu, FsState.setEntry, hic]
      rfl
    have huview : u.view = t.view := by rw [← hu]; rfl
    have huio : u.io = t.io := by rw [← hu]; rfl
    have hn := h.inum ip hm
    have hcur := fun k (hk : k < E.sb.inodes) => h.cur_withAddrs hm hv huic (by rw [huview]; exact hlow) hk
    have hcurn := h.cur_eq hm hv
    obtain ⟨htype, hsize, haddr, hbyte⟩ := @filesOf_link_root E.sb s.cur u.cur s.view u.view
      (s.icache ip).inum b j hn (by rw [hcurn]; exact h.typed ip hm hv) (by rw [hcurn]; exact hz) hb32
      (by rw [huview, hview]; exact allocView_self b) (fun k hk hkn => by have := hcur k hk; rwa [if_neg hkn] at this)
      (by have := hcur _ hn; rw [if_pos rfl] at this; rw [hcurn] at this ⊢; exact this)
      (by rw [huview]; exact hown)
    have hmarked : ∀ x, x < E.sb.size → (Marked E.sb u.view x ↔ Marked E.sb s.view x ∨ x = b) := by
      intro x hx
      rw [huview, hview]
      exact marked_allocView E.ok hdata hx
    refine hQ _ u (Or.inr ?_)
    rw [hb']
    refine h.linked hm hv hz₀ hdata hnext huic (fun i => ?_) (by rw [huio]; exact hio) (by rw [huview]; exact hlow)
      haddr htype hsize hbyte hmarked
    by_cases hi : i = j
    · exact Or.inl (hi ▸ hz)
    · exact Or.inr (Function.update_of_ne hi _ _)
  · rw [wp_pure]
    exact hQ _ s (Or.inl ⟨by rw [hroot]; exact fun h₀ => hne (UInt32.toNat_inj.1 h₀), rfl, hroot.symm⟩)

/-- An entry of an index block is the address one level down. -/
theorem Inv.addr_snoc (h : Inv E a m s) (hm : 0 < m ip) (hv : (s.icache ip).valid = true) {j : Fin (NDIRECT + 1)}
    {ks : List Nat} (k : Nat) (hks : ks.length < depth j) (hne : (s.files E.sb).addr (s.icache ip).inum (j, ks) ≠ 0) :
    (s.files E.sb).addr (s.icache ip).inum (j, ks ++ [k]) =
      ((s.view ((s.files E.sb).addr (s.icache ip).inum (j, ks))).word k).toNat := by
  have hx := h.addr_eq hm hv (j, ks)
  rw [Dinode.addr_eq (Nat.le_of_lt hks)] at hx
  rw [h.addr_eq hm hv, Dinode.addr_eq (by simp only [List.length_append, List.length_singleton]; omega), walk_snoc,
    ← hx, if_neg hne]
  rfl

theorem wp_indexAddr (h : Inv E (.addrs ip) m s) (hm : 0 < m ip) (hv : (s.icache ip).valid = true)
    {j : Fin (NDIRECT + 1)} {ks : List Nat} {k : Nat} {addr : UInt32} (hks : ks.length < depth j)
    (hx : addr.toNat = (s.files E.sb).addr (s.icache ip).inum (j, ks)) (hne : addr.toNat ≠ 0) (hk : k < NINDIRECT)
    (hW : (s.files E.sb).addr (s.icache ip).inum (j, ks ++ [k]) = 0 →
      E.W addr.toNat ∧ ∀ b, Next E.sb s.view 1 b → E.W b ∧ E.W (BBLOCK b E.sb.ninodes)) {Q : UInt32 → FsState → Prop}
    (hQ : ∀ addr' t, LinkedOr E m ip (j, ks ++ [k]) addr' s t → Q addr' t) : Wp E.C (indexAddr addr k) Q s := by
  have hchild := h.addr_snoc hm hv k hks (by rw [← hx]; exact hne)
  rw [← hx] at hchild
  rw [indexAddr, wp_bind, bread_wp, wp_ite]
  refine ⟨fun hz => ?_, fun hne' => ?_⟩
  · have hz₀ : (s.files E.sb).addr (s.icache ip).inum (j, ks ++ [k]) = 0 := by rw [hchild, hz]; rfl
    obtain ⟨hWx, hWb⟩ := hW hz₀
    have harea := h.sound.area _ (j, ks) (by rw [← hx]; exact hne)
    rw [← hx] at harea
    rw [wp_bind]
    refine h.wp_balloc hWb fun b t hdata hnext hio hic hview => ?_
    simp only [wp_bind, wp_liftM, wp_pure]
    refine wp_logWrite hio harea.2 hWx fun io' hio' hview' => ?_
    generalize hu : ({ t with io := io' } : FsState) = u
    have huic : u.icache = s.withAddrs ip (s.icache ip).dinode.addrs := by
      rw [s.withAddrs_self, ← hic, ← hu]
    have huview : u.view = Function.update (allocView E.sb s.view b) addr.toNat
        ((s.view addr.toNat).setWord k (UInt32.ofNat b)) := by
      rw [← hview, ← hu]
      exact hview'
    have hlt := E.ok.data_lt hdata
    have hb32 : b < 2 ^ 32 := Nat.lt_trans hlt E.ok.size_lt
    have hb' : (UInt32.ofNat b).toNat = b := by
      rw [UInt32.toNat_ofNat']
      exact Nat.mod_eq_of_lt hb32
    have hbx : b ≠ addr.toNat := by
      rintro rfl
      exact hnext.2.1 (hx ▸ (h.sound.used _ (j, ks) (by rw [← hx]; exact hne)).2)
    have hbit := E.ok.bblock hlt
    have hlow : ∀ x, x < E.sb.bitmapStart → u.view x = s.view x := by
      intro x hx
      have := E.ok.bitmap_lt
      have := hdata.1
      have := harea.1
      rw [huview, Function.update_of_ne (by omega), allocView_of_ne (by omega) (by omega)]
    have hown : ∀ k q, (s.files E.sb).addr k q ≠ 0 → (s.files E.sb).addr k q ≠ addr.toNat →
        u.view ((s.files E.sb).addr k q) = s.view ((s.files E.sb).addr k q) := by
      intro k q hq hqx
      rw [huview, Function.update_of_ne hqx]
      exact h.own_allocView hnext.2.1 hlt hq
    have hcur : ∀ i, i < E.sb.inodes → (u.cur i).Same (s.cur i) := by
      intro i hi
      have := h.cur_withAddrs hm hv huic hlow hi
      split at this
      · rename_i hin
        rw [hin, h.cur_eq hm hv] at this ⊢
        exact this
      · exact this
    have hsame : u.files E.sb = filesOf E.sb s.cur u.view := by
      unfold FsState.files
      exact filesOf_congr hcur (fun _ _ _ => rfl) fun _ _ => Iff.rfl
    obtain ⟨haddr, hbyte⟩ := @filesOf_link_index E.sb s.cur s.view u.view h.sound.inj
      (s.icache ip).inum b k j ks hks (by
        show (s.files E.sb).addr _ _ ≠ 0
        rw [← hx]
        exact hne) hz₀ hk hb32 (by
        show u.view ((s.files E.sb).addr _ _) = (s.view ((s.files E.sb).addr _ _)).setWord _ _
        rw [← hx, huview, Function.update_self])
      (by rw [huview, Function.update_of_ne hbx, allocView_self]) (fun i q hq hqx => hown i q hq (by
        rw [hx]
        exact hqx))
    have hmarked : ∀ x, x < E.sb.size → (Marked E.sb u.view x ↔ Marked E.sb s.view x ∨ x = b) := by
      intro x hx
      rw [← marked_allocView E.ok hdata hx]
      have := E.ok.bblock hx
      have := harea.1
      unfold Marked
      rw [huview, Function.update_of_ne (by omega)]
    refine hQ _ u (Or.inr ?_)
    rw [hb']
    exact h.linked hm hv hz₀ hdata hnext huic (fun _ => Or.inr rfl) (by rw [← hu]; exact hio') hlow
      (by rw [hsame]; exact haddr) (by rw [hsame]; rfl) (by rw [hsame]; rfl) (by rw [hsame]; exact hbyte) hmarked
  · rw [wp_pure]
    exact hQ _ s (Or.inl ⟨by rw [hchild]; exact fun h₀ => hne' (UInt32.toNat_inj.1 h₀), rfl, hchild.symm⟩)

/-- What the lookup of position `p` leaves: `addr` is the block there. -/
structure Reached (E : Setting) (m : Slot → Nat) (ip : Slot) (L : Finset Pos) (p : Pos) (addr : UInt32)
    (s t : FsState) : Prop where
  inv : Inv E (.addrs ip) m t
  eq : addr.toNat = (t.files E.sb).addr (s.icache ip).inum p
  ne : addr.toNat ≠ 0
  grown : Grown E ip s t
  room : Room E s (s.icache ip).inum L → Room E t (s.icache ip).inum L
  same : (s.files E.sb).addr (s.icache ip).inum p ≠ 0 → t = s

theorem LinkedOr.reached {L : Finset Pos} {p : Pos} {x : UInt32} (h : Inv E (.addrs ip) m s) (hp : p ∈ L)
    (hl : LinkedOr E m ip p x s t) : Reached E m ip L p x s t := by
  rcases hl with ⟨hne, rfl, hx⟩ | hl
  · exact ⟨h, hx, by rw [hx]; exact hne, Grown.refl t, id, fun _ => rfl⟩
  · refine ⟨hl.inv, ?_, E.ok.data_ne hl.data, hl.grown, hl.room hp, fun hne => absurd hl.none hne⟩
    rw [hl.addr, if_pos ⟨rfl, rfl⟩]

/-- One step down the tree. -/
theorem Reached.step {L : Finset Pos} {p q : Pos} {x y : UInt32} (h : Reached E m ip L p x s t)
    (hpre : (s.files E.sb).addr (s.icache ip).inum q ≠ 0 → (s.files E.sb).addr (s.icache ip).inum p ≠ 0)
    (hu : Reached E m ip L q y t u) : Reached E m ip L q y s u := by
  have hi := h.grown.inum ip
  refine ⟨hu.inv, by rw [hu.eq, hi], hu.ne, h.grown.trans hu.grown,
    fun hr => hi ▸ hu.room (hi ▸ h.room hr), fun hne => ?_⟩
  have hts := h.same (hpre hne)
  rw [← hts]
  exact hu.same (by rw [hts]; exact hne)

theorem Room.next {n : Nat} {L : Finset Pos} (h : Room E s n L) {p : Pos} (hp : p ∈ L)
    (hz : (s.files E.sb).addr n p = 0) {b : Nat} (hb : Next E.sb s.view 1 b) : E.W b ∧ E.W (BBLOCK b E.sb.ninodes) := by
  refine h.new b (next_mono hb (Finset.card_pos.2 ⟨p, ?_⟩))
  simp [hp, hz]

/-- A position below nothing is empty. -/
theorem Inv.prefix_ne (h : Inv E a m s) (hm : 0 < m ip) (hv : (s.icache ip).valid = true) {j : Fin (NDIRECT + 1)}
    {ks : List Nat} {k : Nat} (hne : (s.files E.sb).addr (s.icache ip).inum (j, ks ++ [k]) ≠ 0) :
    (s.files E.sb).addr (s.icache ip).inum (j, ks) ≠ 0 := by
  rw [h.addr_eq hm hv] at hne ⊢
  unfold Dinode.addr at hne ⊢
  dsimp only at hne ⊢
  split at hne
  · rename_i hlen
    simp only [List.length_append, List.length_singleton] at hlen
    rw [if_pos (by omega)]
    exact walk_prefix_ne hne
  · exact absurd rfl hne

/-- The lookup of an entry of an index block that has been reached. -/
theorem Reached.index {L : Finset Pos} {j : Fin (NDIRECT + 1)} {ks : List Nat} {k : Nat} {x : UInt32}
    (h : Inv E (.addrs ip) m s) (hm : 0 < m ip) (hv : (s.icache ip).valid = true) (ht : Reached E m ip L (j, ks) x s t)
    (hks : ks.length < depth j) (hk : k < NINDIRECT) (hL : (j, ks ++ [k]) ∈ L) (hr : Room E s (s.icache ip).inum L)
    {Q : UInt32 → FsState → Prop} (hQ : ∀ y u, Reached E m ip L (j, ks ++ [k]) y s u → Q y u) :
    Wp E.C (indexAddr x k) Q t := by
  have hi := ht.grown.inum ip
  have hv' := ((ht.grown.stable m).valid ip hm hv).1
  have hrt : Room E t (t.icache ip).inum L := by rw [hi]; exact ht.room hr
  refine wp_indexAddr ht.inv hm hv' hks (by rw [hi]; exact ht.eq) ht.ne hk (fun hz => ?_) fun y u hy => ?_
  · have hx : x.toNat = (t.files E.sb).addr (t.icache ip).inum (j, ks) := by rw [hi]; exact ht.eq
    refine ⟨?_, fun b hb => hrt.next hL hz hb⟩
    rw [hx]
    exact hrt.index j ks k hL (by rw [← hx]; exact ht.ne) hz
  · exact hQ y u (ht.step (fun hne => h.prefix_ne hm hv hne) (hy.reached ht.inv hL))

/-- **`bmap`** returns the block of the inode there, and fills in what is missing on the way. -/
theorem wp_bmap (h : Inv E (.addrs ip) m s) (hm : 0 < m ip) (hv : (s.icache ip).valid = true) {bn : Nat}
    {L : Finset Pos} (hL : path bn ⊆ L) (hr : Room E s (s.icache ip).inum L) {Q : UInt32 → FsState → Prop}
    (hQ : ∀ addr t, Reached E m ip L (blockPos bn) addr s t → Q addr t) : Wp E.C (bmap ip bn) Q s := by
  have hmem : ∀ p : Pos, p.1 = (blockPos bn).1 → p.2 <+: (blockPos bn).2 → p ∈ L := fun p h₁ h₂ => hL (mem_path.2 ⟨h₁, h₂⟩)
  rw [bmap, wp_dite]
  refine ⟨fun hbn => ?_, fun hbn => ?_⟩
  · have hpos : blockPos bn = (⟨bn, Nat.lt_succ_of_lt hbn⟩, []) := dif_pos hbn
    rw [hpos] at hmem hQ
    have hp := hmem (⟨bn, Nat.lt_succ_of_lt hbn⟩, []) rfl (List.prefix_refl _)
    exact wp_inodeAddr h hm hv (fun hz b hb => hr.next hp hz hb) fun x t hx => hQ x t (hx.reached h hp)
  · have hpos : blockPos bn = (Fin.last NDIRECT, [(bn - NDIRECT) / NINDIRECT / NINDIRECT,
      (bn - NDIRECT) / NINDIRECT % NINDIRECT, (bn - NDIRECT) % NINDIRECT]) := dif_neg hbn
    rw [wp_ite]
    refine ⟨fun hrange => ?_, fun _ => by rw [wp_panic]; exact E.fail _⟩
    have hk₃ : (bn - NDIRECT) / NINDIRECT / NINDIRECT % NINDIRECT = (bn - NDIRECT) / NINDIRECT / NINDIRECT := by
      simp only [NDIRECT, NINDIRECT] at *
      omega
    dsimp only
    rw [hk₃]
    generalize hd₁ : (bn - NDIRECT) / NINDIRECT / NINDIRECT = k₃ at hk₃ hpos
    generalize hd₂ : (bn - NDIRECT) / NINDIRECT % NINDIRECT = k₂ at hpos
    generalize hd₃ : (bn - NDIRECT) % NINDIRECT = k₁ at hpos
    have hlt₃ : k₃ < NINDIRECT := by rw [← hk₃]; exact Nat.mod_lt _ (by decide)
    have hlt₂ : k₂ < NINDIRECT := by rw [← hd₂]; exact Nat.mod_lt _ (by decide)
    have hlt₁ : k₁ < NINDIRECT := by rw [← hd₃]; exact Nat.mod_lt _ (by decide)
    rw [hpos] at hmem hQ
    have hdepth : depth (Fin.last NDIRECT) = 3 := rfl
    have hm₀ := hmem (Fin.last NDIRECT, []) rfl (List.nil_prefix)
    have hm₃ := hmem (Fin.last NDIRECT, [] ++ [k₃]) rfl ⟨[k₂, k₁], rfl⟩
    have hm₂ := hmem (Fin.last NDIRECT, [k₃] ++ [k₂]) rfl ⟨[k₁], rfl⟩
    have hm₁ := hmem (Fin.last NDIRECT, [k₃, k₂] ++ [k₁]) rfl (List.prefix_refl _)
    simp only [wp_bind]
    refine wp_inodeAddr h hm hv (fun hz b hb => hr.next hm₀ hz hb) fun x₀ t₀ h₀ => ?_
    refine (h₀.reached h hm₀).index h hm hv (by simp [hdepth]) hlt₃ hm₃ hr fun x₃ t₃ h₃ => ?_
    refine h₃.index h hm hv (by simp [hdepth]) hlt₂ hm₂ hr fun x₂ t₂ h₂ => ?_
    exact h₂.index h hm hv (by simp [hdepth]) hlt₁ hm₁ hr fun x₁ t₁ h₁ => hQ x₁ t₁ h₁

/-! ## Lookups that find a block -/

theorem inodeAddr_run {j : Fin (NDIRECT + 1)} (hne : (s.icache ip).dinode.addrs j ≠ 0) :
    inodeAddr ip j s = (.ok ((s.icache ip).dinode.addrs j, s), []) := by
  have : inode ip s = (.ok (s.icache ip, s), []) := rfl
  rw [inodeAddr, Prog.run_bind_ok this, if_neg hne]
  rfl

theorem indexAddr_run {addr : UInt32} {k : Nat} (hne : (s.view addr.toNat).word k ≠ 0) :
    indexAddr addr k s = (.ok ((s.view addr.toNat).word k, s), []) := by
  have : (liftM (bread addr.toNat) : Kern FsState Block) s = (.ok (s.view addr.toNat, s), []) := rfl
  rw [indexAddr]
  refine (Prog.run_bind_ok this _).trans ?_
  rw [if_neg hne]
  rfl

/-- **Where there is a block, `bmap` finds it** and changes nothing. -/
theorem bmap_run {bn : Nat} (hne : (s.icache ip).dinode.addr s.view (blockPos bn) ≠ 0) :
    bmap ip bn s = (.ok (UInt32.ofNat ((s.icache ip).dinode.addr s.view (blockPos bn)), s), []) := by
  have hof : ∀ x : UInt32, UInt32.ofNat x.toNat = x := fun x => UInt32.ofNat_toNat
  have hchild : ∀ x k, UInt32.ofNat (child s.view x k) = (s.view x).word k := fun x k => hof _
  have hne₀ : ∀ x : UInt32, x.toNat ≠ 0 → x ≠ 0 := fun x hx h₀ => hx (by rw [h₀]; rfl)
  unfold blockPos at hne ⊢
  unfold bmap
  by_cases hbn : bn < NDIRECT
  · simp only [dif_pos hbn] at hne ⊢
    rw [Dinode.addr_eq (Nat.zero_le _), walk_nil] at hne ⊢
    rw [hof]
    exact inodeAddr_run (hne₀ _ hne)
  · simp only [dif_neg hbn] at hne ⊢
    rw [Dinode.addr_eq (show [_, _, _].length ≤ depth (Fin.last NDIRECT) from Nat.le_refl 3)] at hne ⊢
    generalize hk₃ : (bn - NDIRECT) / NINDIRECT / NINDIRECT = k₃ at hne ⊢
    generalize hk₂ : (bn - NDIRECT) / NINDIRECT % NINDIRECT = k₂ at hne ⊢
    generalize hk₁ : (bn - NDIRECT) % NINDIRECT = k₁ at hne ⊢
    generalize ha : (s.icache ip).dinode.addrs (Fin.last NDIRECT) = x₀ at hne ⊢
    have h₂ : walk (child s.view) x₀.toNat [k₃, k₂] ≠ 0 := walk_prefix_ne (l := [k₁]) hne
    have h₃ : walk (child s.view) x₀.toNat [k₃] ≠ 0 := walk_prefix_ne (l := [k₂]) h₂
    have h₀ : x₀.toNat ≠ 0 := walk_prefix_ne (k := []) (l := [k₃]) h₃
    simp only [walk, if_neg h₀] at hne h₂ h₃ ⊢
    rw [if_neg h₃] at hne h₂
    rw [if_neg h₂] at hne
    rw [if_neg h₃, if_neg h₂, hchild]
    -- an index block has no entries from 128 on, so the block is in range
    have hlt : k₃ < NINDIRECT := by
      by_contra hk
      exact h₃ (by rw [child_apply, Block.word_of_le _ (by omega)]; rfl)
    have hrange : bn - NDIRECT < NINDIRECT * NINDIRECT * NINDIRECT := by
      rw [← hk₃] at hlt
      simp only [NDIRECT, NINDIRECT] at *
      omega
    rw [if_pos hrange, Nat.mod_eq_of_lt hlt]
    have hx₀ : inodeAddr ip (Fin.last NDIRECT) s = _ := inodeAddr_run (by rw [ha]; exact hne₀ _ h₀)
    rw [ha] at hx₀
    refine Prog.run_bind hx₀ (w := []) (v := []) ?_
    refine Prog.run_bind (indexAddr_run (hne₀ _ h₃)) (w := []) (v := []) ?_
    refine Prog.run_bind (indexAddr_run (hne₀ _ h₂)) (w := []) (v := []) ?_
    exact indexAddr_run (hne₀ _ hne)

end Map

end NewXv6
