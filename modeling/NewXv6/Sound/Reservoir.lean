import NewXv6.Lib.Bits
import NewXv6.Lib.Run
import NewXv6.Sound.Model
import Mathlib.Tactic.IntervalCases

/-!
# The bit reservoir (`sys_getCoreBuf`)

`hputbuf` puts bytes into `corebuf.buf`, and `hgetbits` takes bits from `buf`, the array that `sys_kwrite` fills. `put`
has the bytes that were put since `sys_setSampleRate`, and `pos` the position of the reader in their bits.
-/

namespace NewXv6.Sound

open Lib

/-- `BUFSIZE` of `sound.h`. -/
abbrev BUFSIZE : Nat := 4096

/-- `struct coreBuf`. -/
structure CoreBuf where
  buf : Nat → UInt32
  buf_bit_idx : UInt32
  offset : UInt32
  totbit : UInt32
  buf_byte_idx : UInt32

def putmask : List Nat := [0x0, 0x1, 0x3, 0x7, 0xf, 0x1f, 0x3f, 0x7f, 0xff]

namespace CoreBuf

/-- What `sys_setSampleRate` does to it. -/
def setSampleRate (c : CoreBuf) : CoreBuf := { c with buf_bit_idx := 8, totbit := 0, buf_byte_idx := 0 }

def hputbuf (c : CoreBuf) (val : UInt32) : CoreBuf :=
  { c with buf := Function.update c.buf (c.offset.toNat % BUFSIZE) val, offset := c.offset + 1 }

def hsstell (c : CoreBuf) : UInt32 := c.totbit

/-- A new byte, where all bits of the last one have been taken; or the process exits. -/
def nextByte (c : CoreBuf) : Option CoreBuf :=
  if c.buf_bit_idx = 0 then
    if c.buf_byte_idx + 1 > c.offset then none
    else some { c with buf_bit_idx := 8, buf_byte_idx := c.buf_byte_idx + 1 }
  else some c

/-- The loop of `hgetbits`, which goes round at most `rounds` times. -/
def takeBits (buf : Nat → UInt8) : Nat → Nat → CoreBuf → Nat → Option (Nat × CoreBuf)
  | 0, _, c, val => some (val, c)
  | rounds + 1, j, c, val =>
    if 0 < j then
      match c.nextByte with
      | none => none
      | some c =>
        let k := min j c.buf_bit_idx.toNat
        let tmp := (buf (c.buf_byte_idx.toNat % 4096)).toNat &&& putmask.getD c.buf_bit_idx.toNat 0
        let tmp := tmp >>> (c.buf_bit_idx.toNat - k)
        takeBits buf rounds (j - k) { c with buf_bit_idx := c.buf_bit_idx - k.toUInt32 } (val ||| (tmp <<< (j - k)) % 2 ^ 32)
    else some (val, c)

/-- The bits, or `none` where the process exits. -/
def hgetbits (buf : Nat → UInt8) (c : CoreBuf) (N : Nat) : Option (Nat × CoreBuf) :=
  takeBits buf N N { c with totbit := c.totbit + N.toUInt32 } 0

/-- The loop of `rewindNbits`. -/
def backBytes : Nat → CoreBuf → CoreBuf
  | 0, c => c
  | rounds + 1, c =>
    if 8 ≤ c.buf_bit_idx then
      backBytes rounds { c with buf_bit_idx := c.buf_bit_idx - 8, buf_byte_idx := c.buf_byte_idx - 1 }
    else c

def rewindNbits (c : CoreBuf) (N : Nat) : CoreBuf :=
  let b := c.buf_bit_idx + N.toUInt32
  backBytes b.toNat { c with totbit := c.totbit - N.toUInt32, buf_bit_idx := b }

def rewindNbytes (c : CoreBuf) (N : Nat) : CoreBuf :=
  { c with totbit := c.totbit - (N * 8).toUInt32, buf_byte_idx := c.buf_byte_idx - N.toUInt32 }

end CoreBuf

/-! ## Runs -/

/-- The reservoir, the bytes that were put and the position of the reader. -/
structure Reservoir where
  core : CoreBuf
  buf : Nat → UInt8
  put : List UInt8
  pos : Nat

inductive Op
  | put (val : UInt8)
  | get (N : Nat)
  | rewindBits (N : Nat)
  | rewindBytes (N : Nat)

/-- The reader neither reads ahead nor goes back before the start, and from its byte on there are no more than `BUFSIZE`. -/
def Legal (s : Reservoir) : Op → Prop
  | .put _ => s.put.length + 1 ≤ s.pos / 8 + BUFSIZE
  | .get N => N ≤ 32 ∧ s.pos + N ≤ 8 * s.put.length
  | .rewindBits N => N ≤ s.pos ∧ s.put.length ≤ (s.pos - N) / 8 + BUFSIZE
  | .rewindBytes N => 8 * N ≤ s.pos ∧ s.put.length ≤ (s.pos - 8 * N) / 8 + BUFSIZE

instance (s : Reservoir) (op : Op) : Decidable (Legal s op) := by
  cases op <;> unfold Legal <;> infer_instance

def Reservoir.step (s : Reservoir) (op : Op) : Option Reservoir :=
  if Legal s op then
    match op with
    | .put val => some { s with core := s.core.hputbuf val.toUInt32, put := s.put ++ [val] }
    | .get N => (s.core.hgetbits s.buf N).map fun r => { s with core := r.2, pos := s.pos + N }
    | .rewindBits N => some { s with core := s.core.rewindNbits N, pos := s.pos - N }
    | .rewindBytes N => some { s with core := s.core.rewindNbytes N, pos := s.pos - 8 * N }
  else none

/-- After `sys_setSampleRate`. -/
def Reservoir.start (core : CoreBuf) (buf : Nat → UInt8) : Reservoir := ⟨core.setSampleRate, buf, [], 0⟩

/-- The bytes that were put. -/
def Reservoir.bytesPut (s : Reservoir) : Nat → UInt8 := fun i => s.put.getD i 0

/-- The bytes that the reader finds. -/
def Reservoir.bytesFound (s : Reservoir) : Nat → UInt8 := fun i => s.buf (i % 4096)

/-- `hgetbits(N)` gives the bits that were put at the position that `hsstell` reports. -/
def Reservoir.Gives (s : Reservoir) (N : Nat) : Prop :=
  s.core.hsstell.toNat = s.pos % 2 ^ 32 ∧ ∃ core, s.core.hgetbits s.buf N = some (bitsAt s.bytesPut s.pos N, core)

/-- `buf` has the bits that were put, and no byte the reader goes on to has an index above `offset` as the counters have
wrapped. -/
def Reservoir.Mirrored (s : Reservoir) (N : Nat) : Prop :=
  bitsAt s.bytesFound s.pos N = bitsAt s.bytesPut s.pos N ∧
    ∀ k, s.pos ≤ 8 * k → 8 * k < s.pos + N → k % 2 ^ 32 ≤ s.core.offset.toNat

/-! ## The position -/

/-- The reader is before bit `pos`: `q` is the byte after the one it is in. -/
structure CoreBuf.At (c : CoreBuf) (pos q : Nat) : Prop where
  bits : pos + c.buf_bit_idx.toNat = 8 * q
  bound : c.buf_bit_idx.toNat ≤ 8
  byte : (c.buf_byte_idx.toNat + 1) % 2 ^ 32 = q % 2 ^ 32

section

variable {c d : CoreBuf} {pos q j rounds val : Nat} {s t : Reservoir}

theorem toNat_toUInt32 (n : Nat) : n.toUInt32.toNat = n % 2 ^ 32 := UInt32.toNat_ofNat'

theorem putmask_and {b : Nat} (hb : b ≤ 8) (x : Nat) : x &&& putmask.getD b 0 = x % 2 ^ b := by
  have hmask : putmask.getD b 0 = 2 ^ b - 1 := by
    interval_cases b <;> rfl
  rw [hmask, Nat.and_two_pow_sub_one_eq_mod]

/-- A part is put below the bits that have been taken. -/
theorem or_part {val j k x : Nat} (hval : val % 2 ^ j = 0) (hk : k ≤ j) (hj : j ≤ 32) (hx : x < 2 ^ k) :
    val ||| (x <<< (j - k)) % 2 ^ 32 = val + x * 2 ^ (j - k) := by
  obtain ⟨m, rfl⟩ := Nat.dvd_of_mod_eq_zero hval
  have hlt : x * 2 ^ (j - k) < 2 ^ j := by
    calc x * 2 ^ (j - k) < 2 ^ k * 2 ^ (j - k) := Nat.mul_lt_mul_of_pos_right hx (Nat.two_pow_pos _)
      _ = 2 ^ j := by rw [← pow_add, Nat.add_sub_cancel' hk]
  have hword : 2 ^ j ≤ 2 ^ 32 := Nat.pow_le_pow_right (by decide) hj
  rw [Nat.shiftLeft_eq, Nat.mod_eq_of_lt (hlt.trans_le hword), Nat.mul_comm (2 ^ j) m, ← Nat.shiftLeft_eq,
    ← Nat.shiftLeft_add_eq_or_of_lt hlt]

/-- A new byte, or an exit. -/
theorem nextByte_at (h : c.At pos q) :
    (c.buf_bit_idx.toNat = 0 ∧ c.offset.toNat < q % 2 ^ 32 ∧ c.nextByte = none) ∨
    ∃ d, c.nextByte = some d ∧ d.offset = c.offset ∧ d.totbit = c.totbit ∧ d.buf = c.buf ∧ 0 < d.buf_bit_idx.toNat ∧
      (0 < c.buf_bit_idx.toNat ∧ d = c ∨ c.buf_bit_idx.toNat = 0 ∧ q % 2 ^ 32 ≤ c.offset.toNat ∧ d.At pos (q + 1)) := by
  obtain ⟨hbits, hbound, hbyte⟩ := h
  unfold CoreBuf.nextByte
  by_cases h0 : c.buf_bit_idx = 0
  · have h0' : c.buf_bit_idx.toNat = 0 := by rw [h0]; rfl
    have hq : (c.buf_byte_idx + 1).toNat = q % 2 ^ 32 := by
      rw [UInt32.toNat_add]
      exact hbyte
    rw [if_pos h0]
    by_cases hlt : c.buf_byte_idx + 1 > c.offset
    · rw [if_pos hlt]
      exact Or.inl ⟨h0', hq ▸ UInt32.lt_iff_toNat_lt.1 hlt, rfl⟩
    · rw [if_neg hlt]
      refine Or.inr ⟨_, rfl, rfl, rfl, rfl, Nat.succ_pos 7, Or.inr ⟨h0', ?_, ?_, Nat.le_refl 8, ?_⟩⟩
      · rw [← hq]
        exact Nat.le_of_not_lt fun h => hlt (UInt32.lt_iff_toNat_lt.2 h)
      · show pos + 8 = 8 * (q + 1)
        omega
      · show ((c.buf_byte_idx + 1).toNat + 1) % 2 ^ 32 = (q + 1) % 2 ^ 32
        omega
  · have h0' : c.buf_bit_idx.toNat ≠ 0 := fun h => h0 (UInt32.toNat_inj.1 h)
    rw [if_neg h0]
    exact Or.inr ⟨c, rfl, rfl, rfl, rfl, by omega, Or.inl ⟨by omega, rfl⟩⟩

/-- One part: the bits that are left of a byte, or as many as are wanted. -/
theorem part_at (buf : Nat → UInt8) (h : c.At pos q) (hb : 0 < c.buf_bit_idx.toNat) {k : Nat} (hk : k ≤ c.buf_bit_idx.toNat) :
    ((buf (c.buf_byte_idx.toNat % 4096)).toNat &&& putmask.getD c.buf_bit_idx.toNat 0) >>> (c.buf_bit_idx.toNat - k) =
      bitsAt (fun i => buf (i % 4096)) pos k ∧
    CoreBuf.At { c with buf_bit_idx := c.buf_bit_idx - k.toUInt32 } (pos + k) q := by
  obtain ⟨hbits, hbound, hbyte⟩ := h
  constructor
  · have hindex : c.buf_byte_idx.toNat % 4096 = pos / 8 % 4096 := by
      have := c.buf_byte_idx.toNat_lt
      omega
    rw [putmask_and hbound, Nat.shiftRight_eq_div_pow, bitsAt_byte (by omega) hk, hindex]
  · have hsub : (c.buf_bit_idx - k.toUInt32).toNat = c.buf_bit_idx.toNat - k := by
      rw [UInt32.toNat_sub, toNat_toUInt32]
      omega
    refine ⟨?_, ?_, hbyte⟩
    · simp only [hsub]
      omega
    · simp only [hsub]
      omega

/-- **The loop** gives the bits that are found, or the process exits. -/
theorem takeBits_spec (buf : Nat → UInt8) (h : c.At pos q) (hj : j ≤ rounds) (hj32 : j ≤ 32) (hval : val % 2 ^ j = 0) :
    (∃ d p, CoreBuf.takeBits buf rounds j c val = some (val + bitsAt (fun i => buf (i % 4096)) pos j, d) ∧
      d.At (pos + j) p ∧ d.offset = c.offset ∧ d.totbit = c.totbit ∧ (0 < j → d.buf_bit_idx.toNat < 8) ∧ (j = 0 → d = c) ∧
      ∀ k, q ≤ k → 8 * k < pos + j → k % 2 ^ 32 ≤ c.offset.toNat) ∨
    (CoreBuf.takeBits buf rounds j c val = none ∧
      ∃ k, q ≤ k ∧ 8 * k < pos + j ∧ c.offset.toNat < k % 2 ^ 32) := by
  induction rounds generalizing j c val pos q with
  | zero =>
    obtain rfl : j = 0 := by omega
    have hbits := h.bits
    exact Or.inl ⟨c, q, rfl, h, rfl, rfl, by omega, fun _ => rfl, fun k hk hlt => by omega⟩
  | succ rounds ih =>
    have hbits := h.bits
    have hbound := h.bound
    rw [CoreBuf.takeBits]
    by_cases hpos : 0 < j
    · rw [if_pos hpos]
      rcases nextByte_at h with ⟨h0, hlt, hnone⟩ | ⟨d, hd, hoffset, htot, -, hdpos, hcase⟩
      · rw [hnone]
        exact Or.inr ⟨rfl, q, Nat.le_refl q, by omega, hlt⟩
      · rw [hd]
        dsimp only
        -- the byte the reader is in now, and the first byte it has not gone on to
        obtain ⟨p, hp, hp'⟩ : ∃ p, d.At pos p ∧ (p = q ∧ 0 < c.buf_bit_idx.toNat ∨
            p = q + 1 ∧ c.buf_bit_idx.toNat = 0 ∧ q % 2 ^ 32 ≤ c.offset.toNat) := by
          rcases hcase with ⟨hc, rfl⟩ | ⟨hc, hle, hat⟩
          · exact ⟨q, h, Or.inl ⟨rfl, hc⟩⟩
          · exact ⟨q + 1, hat, Or.inr ⟨rfl, hc, hle⟩⟩
        have hdbits := hp.bits
        have hdbound := hp.bound
        generalize hk : min j d.buf_bit_idx.toNat = k
        have hkj : k ≤ j := by omega
        have hkb : k ≤ d.buf_bit_idx.toNat := by omega
        have hk0 : 0 < k := by omega
        obtain ⟨hpart, hat⟩ := part_at buf hp hdpos hkb
        rw [hpart, or_part hval hkj hj32 (bitsAt_lt _ _ _)]
        have hval' : (val + bitsAt (fun i => buf (i % 4096)) pos k * 2 ^ (j - k)) % 2 ^ (j - k) = 0 := by
          have hdvd : 2 ^ (j - k) ∣ val :=
            (Nat.pow_dvd_pow 2 (Nat.sub_le j k)).trans (Nat.dvd_of_mod_eq_zero hval)
          exact Nat.mod_eq_zero_of_dvd (Nat.dvd_add hdvd (Nat.dvd_mul_left _ _))
        have hsum : val + bitsAt (fun i => buf (i % 4096)) pos k * 2 ^ (j - k) +
            bitsAt (fun i => buf (i % 4096)) (pos + k) (j - k) = val + bitsAt (fun i => buf (i % 4096)) pos j := by
          have hadd := bitsAt_add (fun i => buf (i % 4096)) pos k (j - k)
          rw [Nat.add_sub_cancel' hkj] at hadd
          omega
        rcases ih hat (by omega) (by omega) hval' with ⟨e, r, he, hat', hoff, htot', hlt8, hzero, hfits⟩ | ⟨he, k', hk', hlt, hout⟩
        · rw [he, hsum]
          refine Or.inl ⟨e, r, rfl, ?_, hoff.trans hoffset, htot'.trans htot, fun _ => ?_, fun h0 => by omega, fun k' hk' hlt => ?_⟩
          · rwa [Nat.add_assoc, Nat.add_sub_cancel' hkj] at hat'
          · by_cases hrest : 0 < j - k
            · exact hlt8 hrest
            · rw [hzero (by omega)]
              have := hat.bits
              dsimp only at this ⊢
              omega
          · by_cases hkq : k' = q ∧ p = q + 1
            · rw [hkq.1]
              omega
            · rw [← hoffset]
              exact hfits k' (by omega) (by omega)
        · rw [he]
          refine Or.inr ⟨rfl, k', by omega, by omega, ?_⟩
          rw [← hoffset]
          exact hout
    · rw [if_neg hpos]
      obtain rfl : j = 0 := by omega
      exact Or.inl ⟨c, q, rfl, h, rfl, rfl, by omega, fun _ => rfl, fun k hk hlt => by omega⟩

/-- The loop of `rewindNbits`. -/
theorem backBytes_at (pos q : Nat) (h : c.buf_bit_idx.toNat ≤ rounds) (hbits : pos + c.buf_bit_idx.toNat = 8 * q)
    (hbyte : (c.buf_byte_idx.toNat + 1) % 2 ^ 32 = q % 2 ^ 32) :
    ∃ p, (CoreBuf.backBytes rounds c).At pos p ∧ (CoreBuf.backBytes rounds c).buf_bit_idx.toNat < 8 ∧
      (CoreBuf.backBytes rounds c).totbit = c.totbit ∧ (CoreBuf.backBytes rounds c).offset = c.offset := by
  induction rounds generalizing c q with
  | zero =>
    simp only [CoreBuf.backBytes]
    exact ⟨q, ⟨hbits, by omega, hbyte⟩, by omega, trivial, trivial⟩
  | succ rounds ih =>
    rw [CoreBuf.backBytes]
    by_cases h8 : 8 ≤ c.buf_bit_idx
    · have h8' : 8 ≤ c.buf_bit_idx.toNat := UInt32.le_iff_toNat_le.1 h8
      have hsub : (c.buf_bit_idx - 8).toNat = c.buf_bit_idx.toNat - 8 := UInt32.toNat_sub_of_le _ _ h8
      have hprev : (c.buf_byte_idx - 1).toNat = (c.buf_byte_idx.toNat + (2 ^ 32 - 1)) % 2 ^ 32 := by
        rw [UInt32.toNat_sub]
        show (2 ^ 32 - 1 + _) % 2 ^ 32 = _
        omega
      rw [if_pos h8]
      exact ih (c := { c with buf_bit_idx := c.buf_bit_idx - 8, buf_byte_idx := c.buf_byte_idx - 1 }) (q - 1)
        (by simp only [hsub]; omega) (by simp only [hsub]; omega) (by simp only [hprev]; omega)
    · have h8' : ¬8 ≤ c.buf_bit_idx.toNat := fun h => h8 (UInt32.le_iff_toNat_le.2 h)
      rw [if_neg h8]
      exact ⟨q, ⟨hbits, by omega, hbyte⟩, by omega, rfl, rfl⟩

/-! ## What a run keeps -/

/-- The reader is where its position says. -/
structure Reservoir.Good (s : Reservoir) : Prop where
  at_pos : ∃ q, s.core.At s.pos q
  total : s.core.totbit.toNat = s.pos % 2 ^ 32
  fresh : s.core.buf_bit_idx.toNat = 8 → s.pos = 0
  behind : s.pos ≤ 8 * s.put.length

theorem start_good (core : CoreBuf) (buf : Nat → UInt8) : (Reservoir.start core buf).Good where
  at_pos := ⟨1, rfl, Nat.le_refl 8, rfl⟩
  total := rfl
  fresh := fun _ => rfl
  behind := Nat.le_refl 0

/-- **`hgetbits`** gives the bits that are found, or exits; and it exits exactly where a byte it goes on to has an index
above `offset`. -/
theorem hgetbits_spec {N : Nat} (hs : s.Good) (hN : N ≤ 32) :
    (∃ d p, s.core.hgetbits s.buf N = some (bitsAt s.bytesFound s.pos N, d) ∧ d.At (s.pos + N) p ∧
      d.totbit = s.core.totbit + N.toUInt32 ∧ (d.buf_bit_idx.toNat = 8 → s.pos + N = 0) ∧
      ∀ k, s.pos ≤ 8 * k → 8 * k < s.pos + N → k % 2 ^ 32 ≤ s.core.offset.toNat) ∨
    (s.core.hgetbits s.buf N = none ∧ ∃ k, s.pos ≤ 8 * k ∧ 8 * k < s.pos + N ∧ s.core.offset.toNat < k % 2 ^ 32) := by
  obtain ⟨q, hat⟩ := hs.at_pos
  have hbits := hat.bits
  have hbound := hat.bound
  have hfresh := hs.fresh
  have hat' : CoreBuf.At { s.core with totbit := s.core.totbit + N.toUInt32 } s.pos q := ⟨hat.bits, hat.bound, hat.byte⟩
  unfold CoreBuf.hgetbits
  rcases takeBits_spec s.buf hat' (Nat.le_refl N) hN (Nat.zero_mod _) with
    ⟨d, p, hd, hdat, hoff, htot, hlt, hzero, hfits⟩ | ⟨hnone, k, hk, hlt, hout⟩
  · rw [hd, Nat.zero_add]
    refine Or.inl ⟨d, p, rfl, hdat, htot, fun h8 => ?_, fun k hk hlt' => ?_⟩
    · by_cases hN0 : 0 < N
      · have := hlt hN0
        omega
      · rw [hzero (by omega)] at h8
        have := hfresh h8
        omega
    · by_cases hkq : q ≤ k
      · exact hfits k hkq hlt'
      · -- only the first byte is not after the reader's byte
        obtain rfl : k = 0 := by
          by_cases h8 : s.core.buf_bit_idx.toNat = 8
          · have := hfresh h8
            omega
          · omega
        exact Nat.zero_le _
  · exact Or.inr ⟨hnone, k, by omega, hlt, hout⟩

theorem Reservoir.Good.step (hs : s.Good) {op : Op} (h : s.step op = some t) : t.Good := by
  simp only [Reservoir.step, Option.ite_none_right_eq_some] at h
  obtain ⟨hlegal, h⟩ := h
  obtain ⟨q, hat⟩ := hs.at_pos
  have hbits := hat.bits
  have hbound := hat.bound
  have hbyte := hat.byte
  have htotal := hs.total
  have hbehind := hs.behind
  cases op with
  | put val =>
    cases h
    refine ⟨⟨q, hat.bits, hat.bound, hat.byte⟩, hs.total, hs.fresh, ?_⟩
    rw [List.length_append]
    show s.pos ≤ 8 * (s.put.length + 1)
    omega
  | get N =>
    obtain ⟨⟨val, d⟩, hd, rfl⟩ := Option.map_eq_some_iff.1 h
    rcases hgetbits_spec hs hlegal.1 with ⟨d', p, hd', hdat, htot, hfresh, -⟩ | ⟨hnone, -⟩
    · rw [hd'] at hd
      cases hd
      refine ⟨⟨p, hdat⟩, ?_, hfresh, hlegal.2⟩
      dsimp only
      rw [htot, UInt32.toNat_add, toNat_toUInt32, htotal]
      omega
    · rw [hnone] at hd
      cases hd
  | rewindBits N =>
    cases h
    obtain ⟨hN, hroom⟩ := hlegal
    unfold BUFSIZE at hroom
    have hb : (s.core.buf_bit_idx + N.toUInt32).toNat = s.core.buf_bit_idx.toNat + N := by
      rw [UInt32.toNat_add, toNat_toUInt32]
      omega
    obtain ⟨p, hp, hlt, htot, -⟩ := backBytes_at (s.pos - N) q
      (c := { s.core with totbit := s.core.totbit - N.toUInt32, buf_bit_idx := s.core.buf_bit_idx + N.toUInt32 })
      (Nat.le_refl _) (by simp only [hb]; omega) hbyte
    refine ⟨⟨p, hp⟩, ?_, fun h8 => ?_, ?_⟩
    · show (CoreBuf.backBytes _ _).totbit.toNat = _
      rw [htot, UInt32.toNat_sub, toNat_toUInt32, htotal]
      dsimp only
      omega
    · exact absurd h8 (Nat.ne_of_lt hlt)
    · dsimp only
      omega
  | rewindBytes N =>
    cases h
    obtain ⟨hN, hroom⟩ := hlegal
    unfold BUFSIZE at hroom
    have hprev : (s.core.buf_byte_idx - N.toUInt32).toNat = (s.core.buf_byte_idx.toNat + (2 ^ 32 - N % 2 ^ 32)) % 2 ^ 32 := by
      rw [UInt32.toNat_sub, toNat_toUInt32]
      omega
    refine ⟨⟨q - N, ?_, hbound, ?_⟩, ?_, fun h8 => ?_, ?_⟩
    · show s.pos - 8 * N + s.core.buf_bit_idx.toNat = 8 * (q - N)
      omega
    · show ((s.core.buf_byte_idx - N.toUInt32).toNat + 1) % 2 ^ 32 = (q - N) % 2 ^ 32
      rw [hprev]
      omega
    · show (s.core.totbit - (N * 8).toUInt32).toNat = (s.pos - 8 * N) % 2 ^ 32
      have hN8 : N * 8 < 2 ^ 32 := by omega
      rw [UInt32.toNat_sub, toNat_toUInt32, htotal, Nat.mod_eq_of_lt hN8]
      clear hbits hbound hbyte hprev hroom hbehind
      omega
    · show s.pos - 8 * N = 0
      have := hs.fresh h8
      omega
    · show s.pos - 8 * N ≤ 8 * s.put.length
      omega

theorem run_good (core : CoreBuf) (buf : Nat → UInt8) (tr : List Op) (s : Reservoir)
    (h : run Reservoir.step (.start core buf) tr = some s) : s.Good :=
  run_induction (fun _ s => s.Good) (start_good core buf) (fun _ _ _ _ _ hs ha => hs.step ha) tr s h

/-- **The reservoir gives back what was put in** at a step of a run if and only if the array it reads has the same bits,
and the counters have not wrapped into an exit. -/
theorem reservoir_gives (core : CoreBuf) (buf : Nat → UInt8) (tr : List Op) (s : Reservoir) (N : Nat)
    (h : run Reservoir.step (.start core buf) tr = some s) (hlegal : Legal s (.get N)) : s.Gives N ↔ s.Mirrored N := by
  have hs := run_good core buf tr s h
  unfold Reservoir.Gives Reservoir.Mirrored
  rcases hgetbits_spec hs hlegal.1 with ⟨d, p, hd, -, -, -, hfits⟩ | ⟨hnone, k, hk, hlt, hout⟩
  · rw [hd]
    constructor
    · rintro ⟨-, d', hd'⟩
      exact ⟨congrArg Prod.fst (Option.some.inj hd'), hfits⟩
    · rintro ⟨hsame, -⟩
      exact ⟨hs.total, d, by rw [hsame]⟩
  · refine iff_of_false ?_ fun h => absurd (h.2 k hk hlt) (Nat.not_le_of_lt hout)
    rintro ⟨-, d, hd⟩
    rw [hnone] at hd
    cases hd

/-- Nothing has been put, and `buf` is empty. -/
def noBytes : CoreBuf := ⟨fun _ => 0, 0, 0, 0, 0⟩

theorem reservoir_gives_byte : ∃ s, run Reservoir.step (.start noBytes fun _ => 5) [.put 5, .put 7] = some s ∧
    Legal s (.get 8) ∧ (s.Gives 8 ↔ s.Mirrored 8) := by
  have h : (run Reservoir.step (.start noBytes fun _ => 5) [.put 5, .put 7]).any (fun s => decide (Legal s (.get 8))) = true := by
    decide +kernel
  obtain ⟨s, hs, hlegal⟩ := (Option.any_eq_true _ _).1 h
  exact ⟨s, hs, of_decide_eq_true hlegal, reservoir_gives noBytes (fun _ => 5) [.put 5, .put 7] s 8 hs
    (of_decide_eq_true hlegal)⟩

/-- The byte 255 is put, and the reader gets something else. -/
theorem reservoir_empty : ∃ s, run Reservoir.step (.start noBytes fun _ => 0) [.put 255] = some s ∧
    Legal s (.get 8) ∧ ¬s.Gives 8 := by
  have h : (run Reservoir.step (.start noBytes fun _ => 0) [.put 255]).any (fun s => decide (Legal s (.get 8) ∧
      (s.core.hgetbits s.buf 8).map Prod.fst ≠ some (bitsAt s.bytesPut s.pos 8))) = true := by
    decide +kernel
  obtain ⟨s, hs, hd⟩ := (Option.any_eq_true _ _).1 h
  obtain ⟨hlegal, hne⟩ := of_decide_eq_true hd
  refine ⟨s, hs, hlegal, fun hgives => hne ?_⟩
  obtain ⟨-, core, hcore⟩ := hgives
  rw [hcore, Option.map_some]

end

end NewXv6.Sound
