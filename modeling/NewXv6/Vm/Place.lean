import NewXv6.Vm.Fit

/-!
# Loading segments

`Loading` is what holds of the new address space while `exec` builds it: `n` user pages are mapped, their bytes are given
by a function of the virtual address, and no page was touched that was not on the free list. A segment that fits is
placed at its addresses (`wp_loaduvm`), over what was there.
-/

namespace NewXv6.Vm.Load

open Lib

/-- The kernel when `exec` starts. -/
structure Ready (kernelEnd : Page) (w : World) : Prop where
  nodup : w.kmem.freelist.Nodup
  free : ∀ p ∈ w.kmem.freelist, Valid kernelEnd p
  caller : Sound kernelEnd w.caller.pgdir

/-- The address space under construction, with `n` user pages and the bytes `g`. -/
structure Loading (kernelEnd : Page) (w₀ w : World) (user : Nat → Bool) (d : Pgdir) (n : Nat) (g : Nat → UInt8) : Prop where
  kmem : w.kmem = after w₀.kmem (calls n)
  avail : Avail w₀.kmem (calls n)
  size : n ≤ 524288
  built : Built w₀.kmem user d n
  sound : Sound kernelEnd d
  bytes : ∀ x, x / PGSIZE < n → w.mem (frame w₀.kmem (calls (x / PGSIZE))) (x % PGSIZE) = g x
  zero : ∀ x, n ≤ x / PGSIZE → g x = 0
  kept : ∀ p, p ∉ w₀.kmem.freelist → w.mem p = w₀.mem p
  caller : w.caller = w₀.caller

/-- The address space is given up. -/
structure Failed (kernelEnd : Page) (w₀ w : World) (d : Pgdir) : Prop where
  sound : Sound kernelEnd d
  kept : ∀ p, p ∉ w₀.kmem.freelist → w.mem p = w₀.mem p
  caller : w.caller = w₀.caller

/-- Bytes from `start` on, over what was there. -/
def overlay (start : Nat) (data : List UInt8) (g : Nat → UInt8) : Nat → UInt8 := fun x =>
  if start ≤ x ∧ x < start + data.length then data.getD (x - start) 0 else g x

variable {kernelEnd : Page} {outside : Outside} {w₀ w : World} {user : Nat → Bool} {d : Pgdir} {n : Nat} {g : Nat → UInt8}

theorem Loading.failed (h : Loading kernelEnd w₀ w user d n g) : Failed kernelEnd w₀ w d := ⟨h.sound, h.kept, h.caller⟩

theorem lift_wp {α : Type} (m : Alloc α) (Q : α → World → Prop) :
    Wp safe (liftM m : Code α) Q w ↔ Wp safe m (fun a kmem => Q a { w with kmem }) w.kmem :=
  wp_zoom World.kmem (fun kmem w => { w with kmem }) m Q w

theorem Loading.frame_mem (h : Loading kernelEnd w₀ w user d n g) {a : Nat} (ha : a < n) :
    frame w₀.kmem (calls a) ∈ w₀.kmem.freelist := Load.frame_mem (h.avail.mono (calls_lt ha))

theorem Loading.frame_inj (h : Loading kernelEnd w₀ w user d n g) (hr : Ready kernelEnd w₀) {a b : Nat} (ha : a < n)
    (hb : b < n) (hab : frame w₀.kmem (calls a) = frame w₀.kmem (calls b)) : a = b := by
  have ha' := (h.avail.mono (calls_lt ha)).1
  have hb' := (h.avail.mono (calls_lt hb)).1
  have hcalls := Load.frame_inj hr.nodup ha' hb' hab
  by_contra hne
  rcases Nat.lt_or_gt_of_ne hne with hlt | hlt
  · have := calls_lt hlt
    omega
  · have := calls_lt hlt
    omega

/-- Bytes are stored in a user page. -/
theorem Loading.store (h : Loading kernelEnd w₀ w user d n g) (hr : Ready kernelEnd w₀) {a o : Nat} (ha : a < n)
    {data : List UInt8} (ho : o + data.length ≤ PGSIZE) :
    Loading kernelEnd w₀ { w with mem := setBytes (frame w₀.kmem (calls a)) o data w.mem } user d n
      (overlay (a * PGSIZE + o) data g) := by
  have ho' : o + data.length ≤ 4096 := ho
  refine { h with bytes := fun x hx => ?_, zero := fun x hx => ?_, kept := fun p hp => ?_ }
  · have hdiv : x / 4096 * 4096 + x % 4096 = x := by omega
    show setBytes (frame w₀.kmem (calls a)) o data w.mem (frame w₀.kmem (calls (x / 4096))) (x % 4096) = overlay _ data g x
    unfold setBytes overlay
    by_cases hxa : x / 4096 = a
    · subst hxa
      rw [Function.update_self]
      by_cases hin : o ≤ x % 4096 ∧ x % 4096 < o + data.length
      · rw [if_pos hin, if_pos (show x / 4096 * 4096 + o ≤ x ∧ x < x / 4096 * 4096 + o + data.length by omega)]
        congr 1
        show x % 4096 - o = x - (x / 4096 * 4096 + o)
        omega
      · rw [if_neg hin, if_neg (show ¬(x / 4096 * 4096 + o ≤ x ∧ x < x / 4096 * 4096 + o + data.length) by omega)]
        exact h.bytes x hx
    · rw [Function.update_of_ne fun hc => hxa (h.frame_inj hr hx ha hc),
        if_neg (show ¬(a * 4096 + o ≤ x ∧ x < a * 4096 + o + data.length) by omega)]
      exact h.bytes x hx
  · have hx' : n ≤ x / 4096 := hx
    unfold overlay
    rw [if_neg (show ¬(a * 4096 + o ≤ x ∧ x < a * 4096 + o + data.length) by omega)]
    exact h.zero x hx
  · show setBytes _ o data w.mem p = w₀.mem p
    unfold setBytes
    have hne : p ≠ frame w₀.kmem (calls a) := fun hc => by
      rw [hc] at hp
      exact hp (h.frame_mem ha)
    rw [Function.update_of_ne hne]
    exact h.kept p hp

/-! ## `allocuvm` -/

/-- Clearing pages that are mapped. -/
theorem clear_eq (h : Built w₀.kmem user d n) (hn : n ≤ 524288) {a : Nat} (mem : Mem) (p : Page) :
    (∃ v, a ≤ v ∧ v < n ∧ frame w₀.kmem (calls v) = p) ∧ clear d a n mem p = (fun _ => 0) ∨
      (∀ v, a ≤ v → v < n → frame w₀.kmem (calls v) ≠ p) ∧ clear d a n mem p = mem p := by
  have hiff : p ∈ (List.range' a (n - a)).filterMap (fun v => (userPte d v).map Pte.page) ↔
      ∃ v, a ≤ v ∧ v < n ∧ frame w₀.kmem (calls v) = p := by
    simp only [List.mem_filterMap, List.mem_range'_1, Option.map_eq_some_iff]
    constructor
    · rintro ⟨v, ⟨hav, hvn⟩, x, hx, rfl⟩
      rw [h.userPte hn (by omega)] at hx
      cases hx
      exact ⟨v, hav, by omega, rfl⟩
    · rintro ⟨v, hav, hvn, rfl⟩
      exact ⟨v, ⟨hav, by omega⟩, _, h.userPte hn hvn, rfl⟩
  by_cases hp : ∃ v, a ≤ v ∧ v < n ∧ frame w₀.kmem (calls v) = p
  · exact Or.inl ⟨hp, if_pos (hiff.2 hp)⟩
  · exact Or.inr ⟨fun v hv hv' hc => hp ⟨v, hv, hv', hc⟩, if_neg fun hc => hp (hiff.1 hc)⟩

theorem clear_of_le (mem : Mem) {a b : Nat} (hab : b ≤ a) : clear d a b mem = mem := by
  funext p
  unfold clear
  rw [Nat.sub_eq_zero_of_le hab]
  exact if_neg List.not_mem_nil

theorem wp_allocuvm (hr : Ready kernelEnd w₀) {oldsz : Size}
    (h : Loading kernelEnd w₀ w (fun _ => true) d (pageRoundUp oldsz) g) (newsz : UInt32)
    (hfit : newsz.toNat < KERNBASE → (oldsz : Nat) ≤ newsz.toNat →
      TablesFit w₀.kmem (pageRoundUp oldsz) (pageRoundUp newsz.toNat))
    {Q : Pgdir × Size → World → Prop}
    (hbad : (newsz.toNat < KERNBASE → (oldsz : Nat) ≤ newsz.toNat ∧ ¬Avail w₀.kmem (calls (pageRoundUp newsz.toNat))) →
      ∀ d w, Failed kernelEnd w₀ w d → Q (d, 0) w)
    (hok : newsz.toNat < KERNBASE → ∀ d w (sz : Size), (sz : Nat) = max (oldsz : Nat) newsz.toNat →
      Loading kernelEnd w₀ w (fun _ => true) d (pageRoundUp sz) g → Q (d, sz) w) :
    Wp safe (allocuvm kernelEnd d oldsz newsz) Q w := by
  have hbad' : (newsz.toNat < KERNBASE → (oldsz : Nat) ≤ newsz.toNat ∧
      ¬Avail w₀.kmem (calls (pageRoundUp newsz.toNat))) → ∀ (kmem : Kmem) (d : Pgdir), Sound kernelEnd d → Wp safe (do
      Prog.modify fun w : World => { w with mem := clear d (pageRoundUp oldsz) (pageRoundUp ((0 : Size) : Nat)) w.mem }
      return (d, (0 : Size))) Q { w with kmem } := by
    intro hno kmem d hd
    have hle : pageRoundUp ((0 : Size) : Nat) ≤ pageRoundUp oldsz := Nat.zero_le _
    rw [wp_bind, wp_modify, wp_pure, clear_of_le _ hle]
    exact hbad hno d _ ⟨hd, h.kept, h.caller⟩
  unfold allocuvm
  rw [wp_bind, lift_wp, h.kmem]
  unfold Vm.allocuvm
  rw [wp_dite]
  refine ⟨fun hge => (wp_pure _ _ _).2 (hbad' (fun hlt => absurd hge (Nat.not_le.2 hlt)) _ d h.sound), fun hlt => ?_⟩
  have hlt' : newsz.toNat < KERNBASE := Nat.lt_of_not_le hlt
  rw [wp_ite]
  refine ⟨fun hsmall => (wp_pure _ _ _).2 ?_, fun hlarge => ?_⟩
  · dsimp only
    rw [wp_bind, wp_modify, wp_pure, clear_of_le _ (Nat.le_refl _)]
    refine hok hlt' d _ oldsz (by omega) ?_
    have hw : ({ w with kmem := after w₀.kmem (calls (pageRoundUp oldsz)) } : World) = w := by rw [← h.kmem]
    rw [hw]
    exact h
  · have hle : (oldsz : Nat) ≤ newsz.toNat := Nat.le_of_not_lt hlarge
    have hpages : pageRoundUp oldsz ≤ pageRoundUp newsz.toNat := Nat.div_le_div_right (by omega)
    have hfuel : pageRoundUp newsz.toNat ≤ pageRoundUp oldsz + (newsz.toNat / PGSIZE + 1) := by
      show (newsz.toNat + 4096 - 1) / 4096 ≤ _ + (newsz.toNat / 4096 + 1)
      omega
    refine wp_allocFrom hr.free oldsz ⟨newsz.toNat, by omega⟩ _ hpages hfuel h.avail h.built h.sound (hfit hlt' hle)
      (fun hno d m' hd => hbad' (fun _ => ⟨hle, hno⟩) m' d hd) fun d hA hb hd => ?_
    have hn : pageRoundUp newsz.toNat ≤ 524288 := by
      have : newsz.toNat < 0x80000000 := hlt'
      show (newsz.toNat + 4096 - 1) / 4096 ≤ 524288
      omega
    dsimp only
    rw [wp_bind, wp_modify, wp_pure]
    refine hok hlt' d _ ⟨newsz.toNat, by omega⟩ (by dsimp only; omega)
      ⟨rfl, hA, hn, hb, hd, fun x hx => ?_, fun x hx => h.zero x (Nat.le_trans hpages hx), fun p hp => ?_, h.caller⟩
    · dsimp only at hx ⊢
      rcases clear_eq hb hn (a := pageRoundUp oldsz) w.mem (frame w₀.kmem (calls (x / PGSIZE))) with
        ⟨⟨v, hv, hv', hframe⟩, hclear⟩ | ⟨hold, hclear⟩
      · have hA' := (hA.mono (calls_lt hv')).1
        have hB' := (hA.mono (calls_lt hx)).1
        have hcalls := Load.frame_inj hr.nodup hA' hB' hframe
        have hnew : pageRoundUp oldsz ≤ x / PGSIZE := by
          by_contra hlt
          have := calls_lt (show x / PGSIZE < v by omega)
          omega
        rw [hclear]
        exact (h.zero x hnew).symm
      · rw [hclear]
        exact h.bytes x (Nat.lt_of_not_le fun hnew => hold _ hnew hx rfl)
    · dsimp only
      rcases clear_eq hb hn (a := pageRoundUp oldsz) w.mem p with ⟨⟨v, -, hv', rfl⟩, -⟩ | ⟨-, hclear⟩
      · exact absurd (Load.frame_mem (hA.mono (calls_lt hv'))) hp
      · rw [hclear]
        exact h.kept p hp

/-! ## `loaduvm` -/

/-- The bytes of a segment up to byte `k`, over what was there. -/
def place (file : List UInt8) (ph : ProgHdr) (k : Nat) (g : Nat → UInt8) : Nat → UInt8 := fun x =>
  if ph.vaddr.toNat ≤ x ∧ x < ph.vaddr.toNat + min k ph.filesz.toNat then
    file.getD (ph.off.toNat + (x - ph.vaddr.toNat)) 0
  else g x

/-- The round of `loaduvm` at byte `i` reads all it asks for. -/
def Full (file : List UInt8) (ph : ProgHdr) (i : Nat) : Prop :=
  ∃ b, chunk file ph.off ph.filesz i = some b ∧ b.length = min (ph.filesz.toNat - i) PGSIZE

/-- `loaduvm` reads the whole segment. -/
def Whole (file : List UInt8) (ph : ProgHdr) : Prop := ∀ i < ph.filesz.toNat, PGSIZE ∣ i → Full file ph i

/-- A segment lies in the file and in the first `n` user pages. -/
def Within (file : List UInt8) (ph : ProgHdr) (n : Nat) : Prop :=
  ph.filesz.toNat = 0 ∨ ph.vaddr.toNat + ph.filesz.toNat ≤ n * PGSIZE ∧ ph.off.toNat + ph.filesz.toNat ≤ file.length

/-- A segment fits in `n` user pages: it starts at the beginning of a page, and every page that is loaded is one of them,
or has a page table and gets nothing. -/
def SegmentFits (file : List UInt8) (ph : ProgHdr) (n : Nat) : Prop :=
  ph.vaddr.toNat % PGSIZE = 0 ∧ ∀ i < ph.filesz.toNat, PGSIZE ∣ i → (∀ j < i, PGSIZE ∣ j → Full file ph j) →
    (ph.vaddr + UInt32.ofNat i).toNat / PGSIZE < n ∨
      ((ph.vaddr + UInt32.ofNat i).toNat / PGSIZE < 1024 * tables n ∨
        Pgdir.pdx ((ph.vaddr + UInt32.ofNat i).toNat / PGSIZE) ∈ kmap) ∧
      (chunk file ph.off ph.filesz i).getD [] = []

theorem readi_full {file b : List UInt8} (hfile : file.length < 2 ^ 32) {off n : UInt32} (h : readi file off n = some b)
    (hlen : b.length = n.toNat) : b = (file.drop off.toNat).take n.toNat ∧ off.toNat + n.toNat ≤ file.length := by
  have hsize : (UInt32.ofNat file.length).toNat = file.length := by
    rw [UInt32.toNat_ofNat']
    exact Nat.mod_eq_of_lt hfile
  have hoff := off.toNat_lt
  have hn := n.toNat_lt
  unfold readi at h
  dsimp only at h
  split at h
  · cases h
  · next hok =>
    simp only [gt_iff_lt, UInt32.lt_iff_toNat_lt, hsize, UInt32.toNat_add] at hok
    split at h
    · next hlarge =>
      simp only [gt_iff_lt, UInt32.lt_iff_toNat_lt, hsize, UInt32.toNat_add] at hlarge
      cases h
      have hsub : (UInt32.ofNat file.length - off).toNat = file.length - off.toNat := by
        rw [UInt32.toNat_sub_of_le _ _ (UInt32.le_iff_toNat_le.2 (by omega)), hsize]
      rw [List.length_take, hsub, List.length_drop] at hlen
      omega
    · next hsmall =>
      simp only [gt_iff_lt, UInt32.lt_iff_toNat_lt, hsize, UInt32.toNat_add] at hsmall
      cases h
      exact ⟨rfl, by omega⟩

theorem readi_length {file b : List UInt8} {off n : UInt32} (h : readi file off n = some b) : b.length ≤ n.toNat := by
  unfold readi at h
  dsimp only at h
  split at h
  · cases h
  · next hok =>
    cases h
    rw [List.length_take]
    split
    · next hlarge =>
      -- what is left of the file
      simp only [gt_iff_lt, not_or, UInt32.lt_iff_toNat_lt, UInt32.toNat_add] at hok hlarge
      have hoff := off.toNat_lt
      have hn := n.toNat_lt
      rw [UInt32.toNat_sub_of_le _ _ (UInt32.le_iff_toNat_le.2 (by omega))]
      omega
    · exact Nat.min_le_left _ _

theorem chunk_length {file data : List UInt8} {off sz : UInt32} {i : Nat} (h : chunk file off sz i = some data) :
    data.length ≤ PGSIZE := by
  have hlen := readi_length h
  rw [UInt32.toNat_ofNat'] at hlen
  exact Nat.le_trans (Nat.le_trans hlen (Nat.mod_le _ _)) (Nat.min_le_right _ _)

/-- A round that reads all it asks for. -/
theorem Full.data {file data : List UInt8} {ph : ProgHdr} {i : Nat} (hfile : file.length < 2 ^ 32)
    (hi : i = 0 ∨ ph.off.toNat + i ≤ file.length) (h : chunk file ph.off ph.filesz i = some data)
    (hlen : data.length = min (ph.filesz.toNat - i) PGSIZE) :
    data = (file.drop (ph.off.toNat + i)).take data.length ∧ ph.off.toNat + i + data.length ≤ file.length := by
  have hoff := ph.off.toNat_lt
  have hsz := ph.filesz.toNat_lt
  have hstart : (ph.off + UInt32.ofNat i).toNat = ph.off.toNat + i := by
    rw [UInt32.toNat_add, UInt32.toNat_ofNat']
    rcases hi with rfl | hi
    · omega
    · omega
  have hcount : (UInt32.ofNat (min (ph.filesz.toNat - i) PGSIZE)).toNat = data.length := by
    rw [UInt32.toNat_ofNat', hlen]
    exact Nat.mod_eq_of_lt (Nat.lt_of_le_of_lt (Nat.min_le_left _ _) (by omega))
  have hfull := readi_full hfile h hcount.symm
  rw [hstart, hcount] at hfull
  exact hfull

/-- A round of `loaduvm` places the next bytes. -/
theorem overlay_place {file data : List UInt8} {ph : ProgHdr} {i : Nat} (hi : i ≤ ph.filesz.toNat)
    (hlen : data.length = min (ph.filesz.toNat - i) PGSIZE)
    (hdata : data = (file.drop (ph.off.toNat + i)).take data.length) :
    overlay (ph.vaddr.toNat + i) data (place file ph i g) = place file ph (i + PGSIZE) g := by
  have hlen' : data.length = min (ph.filesz.toNat - i) 4096 := hlen
  funext x
  unfold overlay place
  show _ = if ph.vaddr.toNat ≤ x ∧ x < ph.vaddr.toNat + min (i + 4096) ph.filesz.toNat then _ else _
  by_cases hin : ph.vaddr.toNat + i ≤ x ∧ x < ph.vaddr.toNat + i + data.length
  · rw [if_pos hin, if_pos (by omega), hdata, List.getD_eq_getElem?_getD, List.getElem?_take_of_lt (by omega),
      List.getElem?_drop, List.getD_eq_getElem?_getD]
    congr 2
    omega
  · rw [if_neg hin]
    by_cases hold : ph.vaddr.toNat ≤ x ∧ x < ph.vaddr.toNat + min i ph.filesz.toNat
    · rw [if_pos hold, if_pos (by omega)]
    · rw [if_neg hold, if_neg (by omega)]

/-- The loop of `loaduvm`. -/
theorem wp_loadFrom (hr : Ready kernelEnd w₀) {file : List UInt8} (hfile : file.length < 2 ^ 32) {ph : ProgHdr}
    (hfit : SegmentFits file ph n) (fuel : Nat) : ∀ {i : Nat} {w : World}, PGSIZE ∣ i →
    ph.filesz.toNat ≤ i + PGSIZE * fuel → (i = 0 ∨ ph.vaddr.toNat + i ≤ n * PGSIZE) →
    (i = 0 ∨ ph.off.toNat + min i ph.filesz.toNat ≤ file.length) → (∀ j < i, PGSIZE ∣ j → Full file ph j) →
    Loading kernelEnd w₀ w user d n (place file ph i g) →
    ∀ {Q : Pgdir × Bool → World → Prop}, (¬Whole file ph → ∀ w, Failed kernelEnd w₀ w d → Q (d, false) w) →
    (∀ w, Within file ph n → Whole file ph →
      Loading kernelEnd w₀ w user d n (place file ph ph.filesz.toNat g) → Q (d, true) w) →
    Wp safe (loadFrom outside ph.vaddr file ph.off ph.filesz fuel i d) Q w := by
  have hpg : PGSIZE = 4096 := rfl
  have hend : ∀ {i : Nat} {w : World}, ph.filesz.toNat ≤ i → (i = 0 ∨ ph.vaddr.toNat + i ≤ n * PGSIZE) →
      (i = 0 ∨ ph.off.toNat + min i ph.filesz.toNat ≤ file.length) → (∀ j < i, PGSIZE ∣ j → Full file ph j) → Loading kernelEnd w₀ w user d n (place file ph i g) →
      ∀ {Q : Pgdir × Bool → World → Prop},
      (∀ w, Within file ph n → Whole file ph →
        Loading kernelEnd w₀ w user d n (place file ph ph.filesz.toNat g) → Q (d, true) w) → Q (d, true) w := by
    intro i w hi haddr hoff hfull h Q hok
    refine hok w (by unfold Within; omega) (fun j hj => hfull j (by omega)) ?_
    have hplace : place file ph ph.filesz.toNat g = place file ph i g := by
      unfold place
      rw [Nat.min_self, Nat.min_eq_right hi]
    rw [hplace]
    exact h
  induction fuel with
  | zero =>
    intro i w _ hfuel haddr hoff hfull h Q _ hok
    exact (wp_pure _ _ _).2 (hend (by omega) haddr hoff hfull h hok)
  | succ fuel ih =>
    intro i w hdvd hfuel haddr hoff hfull h Q hbad hok
    rw [loadFrom, wp_ite, wp_pure]
    refine ⟨fun hlt => ?_, fun hge => hend (Nat.le_of_not_lt hge) haddr hoff hfull h hok⟩
    have hsz := ph.filesz.toNat_lt
    have hvaddr := ph.vaddr.toNat_lt
    have hsize := h.size
    have hround := hfit.2 i hlt hdvd hfull
    have htable : ∃ pt, d.table (Pgdir.pdx ((ph.vaddr + UInt32.ofNat i).toNat / PGSIZE)) = some pt := by
      rcases hround with hin | ⟨hin | hin, -⟩
      · obtain ⟨pt, hpt, -⟩ := h.built.mapped _ hin
        exact ⟨pt, hpt⟩
      · exact h.built.table h.size hin
      · exact Option.isSome_iff_exists.1 (h.built.kernel _ hin)
    obtain ⟨pt, hpt⟩ := htable
    have haddr4 : i = 0 ∨ ph.vaddr.toNat + i ≤ n * 4096 := haddr
    have hfuel4 : ph.filesz.toNat ≤ i + 4096 * (fuel + 1) := hfuel
    have hdvd4 : 4096 ∣ i := hdvd
    have hal : ph.vaddr.toNat % 4096 = 0 := hfit.1
    dsimp only
    rw [hpt]
    dsimp only
    cases hchunk : chunk file ph.off ph.filesz i with
    | none =>
      refine (wp_pure _ _ _).2 (hbad (fun hwhole => ?_) w h.failed)
      obtain ⟨b, hb, -⟩ := hwhole i hlt hdvd
      rw [hchunk] at hb
      cases hb
    | some data =>
      have hpart : data.length ≠ min (ph.filesz.toNat - i) PGSIZE → ¬Whole file ph := by
        intro hlen hwhole
        obtain ⟨b, hb, hlen'⟩ := hwhole i hlt hdvd
        rw [hchunk] at hb
        cases hb
        exact hlen hlen'
      dsimp only
      by_cases hin : (ph.vaddr + UInt32.ofNat i).toNat / PGSIZE < n
      · -- the page is one of the user pages
        have haddr' : (ph.vaddr + UInt32.ofNat i).toNat = ph.vaddr.toNat + i := by
          rw [UInt32.toNat_add, UInt32.toNat_ofNat']
          omega
        rw [haddr'] at hin ⊢
        have hpage : (ph.vaddr.toNat + i) / PGSIZE * PGSIZE + 0 = ph.vaddr.toNat + i := by
          show (ph.vaddr.toNat + i) / 4096 * 4096 + 0 = _
          omega
        have hin4 : (ph.vaddr.toNat + i) / 4096 < n := hin
        have hmax : 0 + data.length ≤ PGSIZE := by
          rw [Nat.zero_add]
          exact chunk_length hchunk
        have hstore := h.store hr hin hmax
        rw [hpage] at hstore
        rw [h.built.userPte h.size hin]
        dsimp only
        rw [wp_bind, wp_modify, wp_bind, wp_pure, wp_ite, wp_pure]
        refine ⟨fun hlen => hbad (hpart hlen) _ hstore.failed, fun hlen => ?_⟩
        have hlen' := Decidable.not_not.1 hlen
        have hlen4 : data.length = min (ph.filesz.toNat - i) 4096 := hlen'
        have hoff' : i = 0 ∨ ph.off.toNat + i ≤ file.length := by omega
        obtain ⟨hdata, hfit'⟩ := Full.data hfile hoff' hchunk hlen'
        rw [overlay_place (Nat.le_of_lt hlt) hlen' hdata] at hstore
        refine ih (Nat.dvd_add hdvd (Nat.dvd_refl _)) (show _ ≤ i + 4096 + 4096 * fuel by omega)
          (Or.inr (show _ + (i + 4096) ≤ n * 4096 by omega)) (Or.inr (show _ + min (i + 4096) _ ≤ _ by omega))
          (fun j hj hdvd' => ?_) hstore hbad hok
        · have hj4 : j < i + 4096 := hj
          have hdvd4' : 4096 ∣ j := hdvd'
          by_cases hji : j < i
          · exact hfull j hji hdvd'
          · have : j = i := by omega
            subst this
            exact ⟨data, hchunk, hlen'⟩
      · -- nothing is read for the page
        have hempty : data = [] := by
          have := (hround.resolve_left hin).2
          rw [hchunk] at this
          exact this
        subst hempty
        rw [h.built.userPte_none (Nat.le_of_not_lt hin)]
        dsimp only
        rw [if_pos rfl, wp_bind, wp_pure, wp_ite, wp_pure]
        refine ⟨fun hlen => hbad (hpart hlen) w h.failed, fun hlen => ?_⟩
        have hlen4 : ([] : List UInt8).length = min (ph.filesz.toNat - i) 4096 := Decidable.not_not.1 hlen
        rw [List.length_nil] at hlen4
        omega

theorem wp_loaduvm (hr : Ready kernelEnd w₀) {file : List UInt8} (hfile : file.length < 2 ^ 32) {ph : ProgHdr}
    (hfit : SegmentFits file ph n) (h : Loading kernelEnd w₀ w user d n g) {Q : Pgdir × Bool → World → Prop}
    (hbad : ¬Whole file ph → ∀ w, Failed kernelEnd w₀ w d → Q (d, false) w)
    (hok : ∀ w, Within file ph n → Whole file ph →
      Loading kernelEnd w₀ w user d n (place file ph ph.filesz.toNat g) → Q (d, true) w) :
    Wp safe (loaduvm outside d ph.vaddr file ph.off ph.filesz) Q w := by
  have hfuel : ph.filesz.toNat ≤ 0 + PGSIZE * (ph.filesz.toNat / PGSIZE + 1) := by
    show _ ≤ 0 + 4096 * (ph.filesz.toNat / 4096 + 1)
    omega
  have hstart : place file ph 0 g = g := by
    funext x
    unfold place
    rw [Nat.zero_min, if_neg (by omega)]
  unfold loaduvm
  rw [if_neg (fun hne => hne hfit.1)]
  exact wp_loadFrom hr hfile hfit _ (Nat.dvd_zero _) hfuel (Or.inl rfl) (Or.inl rfl)
    (fun j hj => absurd hj (Nat.not_lt_zero j)) (hstart.symm ▸ h) hbad hok

/-! ## The program headers -/

/-- The segments that are loaded. -/
def segments (file : List UInt8) : Nat → UInt32 → List ProgHdr
  | 0, _ => []
  | count + 1, off =>
    match readAll file off sizeofPh with
    | none => []
    | some b =>
      if (ProgHdr.ofBytes b).type ≠ ELF_PROG_LOAD then segments file count (off + UInt32.ofNat sizeofPh)
      else ProgHdr.ofBytes b :: segments file count (off + UInt32.ofNat sizeofPh)

/-- The bytes of segments, the later ones over the earlier ones. -/
def layout (file : List UInt8) (phs : List ProgHdr) (g : Nat → UInt8) : Nat → UInt8 :=
  phs.foldl (fun g ph => place file ph ph.filesz.toNat g) g

/-- Each segment the loop reaches fits, where there is memory for it; `rest` is what has to hold of the size at the
end. -/
def SegmentsFit (m : Kmem) (file : List UInt8) (rest : Nat → Prop) : Nat → UInt32 → Nat → Prop
  | 0, _, sz => rest sz
  | count + 1, off, sz =>
    match readAll file off sizeofPh with
    | none => True
    | some b =>
      let ph := ProgHdr.ofBytes b
      let newsz := max sz (ph.vaddr + ph.memsz).toNat
      if ph.type ≠ ELF_PROG_LOAD then SegmentsFit m file rest count (off + UInt32.ofNat sizeofPh) sz
      else ph.filesz ≤ ph.memsz → (ph.vaddr + ph.memsz).toNat < KERNBASE → newsz ≠ 0 →
        TablesFit m (pageRoundUp sz) (pageRoundUp newsz) ∧
          (Avail m (calls (pageRoundUp newsz)) → SegmentFits file ph (pageRoundUp newsz) ∧
            (Whole file ph → SegmentsFit m file rest count (off + UInt32.ofNat sizeofPh) newsz))

theorem pageRoundUp_mono {a b : Nat} (h : a ≤ b) : pageRoundUp a ≤ pageRoundUp b := Nat.div_le_div_right (by omega)

theorem wp_loadSegments (hr : Ready kernelEnd w₀) {file : List UInt8} (hfile : file.length < 2 ^ 32)
    {rest : Nat → Prop} (count : Nat) : ∀ {off : UInt32} {d : Pgdir} {sz : Size} {w : World} {g : Nat → UInt8},
    SegmentsFit w₀.kmem file rest count off sz → Loading kernelEnd w₀ w (fun _ => true) d (pageRoundUp sz) g →
    ∀ {Q : Pgdir × Option Size → World → Prop}, (∀ d w, Failed kernelEnd w₀ w d → Q (d, none) w) →
    (∀ d w (newsz : Size), rest newsz → (sz : Nat) ≤ newsz →
      (∀ ph ∈ segments file count off, Within file ph (pageRoundUp newsz)) →
      Loading kernelEnd w₀ w (fun _ => true) d (pageRoundUp newsz) (layout file (segments file count off) g) →
      Q (d, some newsz) w) →
    Wp safe (loadSegments outside kernelEnd file count off d sz) Q w := by
  induction count with
  | zero =>
    intro off d sz w g hfit h Q _ hok
    exact (wp_pure _ _ _).2 (hok d w sz hfit (Nat.le_refl _) nofun h)
  | succ count ih =>
    intro off d sz w g hfit h Q hbad hok
    unfold SegmentsFit at hfit
    unfold segments at hok
    rw [loadSegments]
    cases hb : readAll file off sizeofPh with
    | none => exact (wp_pure _ _ _).2 (hbad d w h.failed)
    | some b =>
      rw [hb] at hfit hok
      dsimp only at hfit hok ⊢
      generalize ProgHdr.ofBytes b = ph at hfit hok ⊢
      rw [wp_ite]
      refine ⟨fun htype => ?_, fun htype => ?_⟩
      · -- the header is not to be loaded
        rw [if_pos htype] at hfit hok
        exact ih hfit h hbad hok
      · rw [if_neg htype] at hfit hok
        rw [wp_ite, wp_pure]
        refine ⟨fun _ => hbad d w h.failed, fun hmem => ?_⟩
        have hmem' : ph.filesz ≤ ph.memsz := UInt32.not_lt.1 hmem
        rw [wp_bind]
        refine wp_allocuvm hr h (ph.vaddr + ph.memsz) (fun hlt hle => ?_) (fun _ d w hf => ?_)
          fun hlt d w newsz hnewsz h => ?_
        · by_cases hzero : max (sz : Nat) (ph.vaddr + ph.memsz).toNat = 0
          · -- no page is allocated
            intro t _ ht
            have : (ph.vaddr + ph.memsz).toNat = 0 := by omega
            rw [this] at ht
            exact absurd ht (Nat.not_lt_zero _)
          · have := (hfit hmem' hlt hzero).1
            rw [Nat.max_eq_right hle] at this
            exact this
        · dsimp only
          rw [if_pos rfl, wp_pure]
          exact hbad d w hf
        · dsimp only
          rw [wp_ite, wp_pure]
          refine ⟨fun _ => hbad d w h.failed, fun hzero => ?_⟩
          have hzero' : max (sz : Nat) (ph.vaddr + ph.memsz).toNat ≠ 0 := by
            rw [← hnewsz]
            exact fun hc => hzero (Fin.ext hc)
          obtain ⟨hsegment, hnext⟩ := (hfit hmem' hlt hzero').2 (hnewsz ▸ h.avail)
          rw [← hnewsz] at hsegment hnext
          rw [wp_bind]
          refine wp_loaduvm hr hfile hsegment h (fun _ w hf => ?_) fun w hinside hwhole h => ?_
          · dsimp only
            rw [if_neg Bool.false_ne_true, wp_pure]
            exact hbad d w hf
          · dsimp only
            rw [if_pos rfl]
            refine ih (hnext hwhole) h hbad fun d w last hlast hle hin h => hok d w last hlast (by omega)
              (fun x hx => ?_) h
            rcases List.mem_cons.1 hx with rfl | hx
            · have := pageRoundUp_mono hle
              exact hinside.imp_right (And.imp_left fun hx => Nat.le_trans hx (Nat.mul_le_mul_right _ this))
            · exact hin x hx

end NewXv6.Vm.Load
