import NewXv6.Sound.Model
import NewXv6.Sys.Memory

/-!
# The arguments of `sys_kwrite`

`sys_kwrite` on its argument words. While it sleeps in its loop other processes run, and `others` has what it finds after
each sleep. `buf` is the kernel's memory from `buf` on, and `written` has the indices into it that `memmove` writes.
-/

namespace NewXv6.Sound

open UserMem

/-- What `sys_kwrite` shares with other calls; `decodelock` is held or not. -/
structure Shared where
  size : Int
  buf : Nat → UInt8
  isdecoding : Bool
  decodelock : Bool

/-- A call that has returned, and what it found when its loop ended. -/
structure Returned where
  value : Int
  found : Shared
  left : Shared
  written : List Nat

/-- `acquire(&decodelock.lock); while (isdecoding) sleep(..);`. -/
def waitDecoded (s : Shared) : List Shared → Option Shared
  | [] => if s.isdecoding then none else some { s with decodelock := true }
  | t :: others => if s.isdecoding then waitDecoded t others else some { s with decodelock := true }

/-- The rest of the call; `memory` is the user's memory. -/
def kwriteArgs (u : User) (memory : Int → UInt8) (s : Shared) : Returned :=
  match argint u 1 with
  | none => ⟨-1, s, s, []⟩
  | some size =>
    -- `argint` has stored the size
    match argptr u 0 size with
    | none => ⟨-1, s, { s with size }, []⟩
    | some buffer => {
      value := 0
      found := s
      left := {
        size
        buf := fun i => if (i : Int) < uint size then memory (uint (buffer + i)) else s.buf i
        isdecoding := true
        decodelock := false }
      written := List.range (uint size).toNat }

/-- `none` while it sleeps. -/
def sys_kwrite (u : User) (memory : Int → UInt8) (s : Shared) (others : List Shared) : Option Returned :=
  (waitDecoded s others).map (kwriteArgs u memory)

/-- A call that releases the lock, has no effect if it fails, and stays in `buf`. -/
structure Returned.Clean (r : Returned) : Prop where
  released : r.left.decodelock = false
  failed : r.value = -1 → r.left.size = r.found.size ∧ r.left.buf = r.found.buf ∧ r.left.isdecoding = r.found.isdecoding
  inside : ∀ i ∈ r.written, i < BUFLEN

/-- The arguments can be fetched, and the size is that of a part of `buf`. -/
def KwriteOk (u : User) : Prop := ∃ size buffer, argint u 1 = some size ∧ argptr u 0 size = some buffer ∧ 0 ≤ size ∧ size ≤ 4096

section

variable {u : User} {memory : Int → UInt8} {s t : Shared} {others : List Shared} {r : Returned}

/-- The call has the lock when its loop ends, and nothing is being decoded. -/
theorem waitDecoded_locked (h : waitDecoded s others = some t) : t.decodelock = true ∧ t.isdecoding = false := by
  induction others generalizing s with
  | nil =>
    simp only [waitDecoded] at h
    split at h
    · cases h
    · rename_i hs
      cases h
      exact ⟨rfl, by simpa using hs⟩
  | cons v others ih =>
    simp only [waitDecoded] at h
    split at h
    · exact ih h
    · rename_i hs
      cases h
      exact ⟨rfl, by simpa using hs⟩

theorem kwriteArgs_clean (hs : s.decodelock = true) : (kwriteArgs u memory s).Clean ↔ KwriteOk u := by
  unfold kwriteArgs KwriteOk
  cases hsize : argint u 1 with
  | none =>
    refine iff_of_false (fun h => ?_) fun ⟨n, p, h, _⟩ => nomatch h
    rw [h.released] at hs
    cases hs
  | some size =>
    obtain ⟨hlow, hhigh⟩ := argint_range hsize
    cases hbuffer : argptr u 0 size with
    | none =>
      refine iff_of_false (fun h => ?_) fun ⟨n, p, hn, hp, _⟩ => ?_
      · have hleft := h.released
        simp only [hbuffer, hs] at hleft
        cases hleft
      · cases hn
        rw [hbuffer] at hp
        cases hp
    | some buffer =>
      simp only [hbuffer]
      have huint : (uint size).toNat ≤ 4096 ↔ 0 ≤ size ∧ size ≤ 4096 := by
        unfold uint
        omega
      constructor
      · intro h
        refine ⟨size, buffer, rfl, hbuffer, huint.1 ?_⟩
        -- the last byte that is written
        by_contra hlarge
        have hlast := h.inside 4096 (List.mem_range.2 (by omega))
        exact absurd hlast (by decide)
      · rintro ⟨n, p, hn, -, hrange⟩
        cases hn
        exact ⟨rfl, fun h => (by cases h), fun i hi => (List.mem_range.1 hi).trans_le (huint.2 hrange)⟩

/-- **`sys_kwrite` is clean** if and only if its arguments can be fetched and the size fits into `buf`. -/
theorem sys_kwrite_clean (u : User) (memory : Int → UInt8) (s : Shared) (others : List Shared) (r : Returned)
    (h : sys_kwrite u memory s others = some r) : r.Clean ↔ KwriteOk u := by
  obtain ⟨t, ht, rfl⟩ := Option.map_eq_some_iff.1 h
  exact kwriteArgs_clean (waitDecoded_locked ht).1

/-- A process whose call has a buffer at 100 and a size. -/
def kwriteUser (size : Int) : User := ⟨40000, 4000, fun addr => if addr = 4004 then 100 else size⟩

/-- Before the first call. -/
def Shared.boot : Shared := ⟨0, fun _ => 0, false, false⟩

theorem sys_kwrite_clean_boot : ∃ r,
    sys_kwrite (kwriteUser 4096) (fun _ => 7) { Shared.boot with isdecoding := true } [.boot] = some r ∧ (r.Clean ↔ KwriteOk (kwriteUser 4096)) :=
  ⟨_, rfl, sys_kwrite_clean (kwriteUser 4096) (fun _ => 7) { Shared.boot with isdecoding := true } [.boot] _ rfl⟩

/-- The last calls of `play` have 32768 bytes, and with a size that reaches past the end of the process the call fails
with the lock held and the size stored. -/
theorem sys_kwrite_unclean :
    (∃ r, sys_kwrite (kwriteUser 32768) (fun _ => 0) .boot [] = some r ∧ 32767 ∈ r.written ∧ ¬r.Clean) ∧
    ∃ r, sys_kwrite (kwriteUser 50000) (fun _ => 0) .boot [] = some r ∧ r.value = -1 ∧ r.left.decodelock = true ∧
      r.left.size = 50000 ∧ ¬r.Clean := by
  have hsize : argint (kwriteUser 32768) 1 = some 32768 := by decide
  have hbuffer : argptr (kwriteUser 32768) 0 32768 = some 100 := by decide
  refine ⟨?_, ⟨_, rfl, rfl, rfl, rfl, fun h => ?_⟩⟩
  · refine ⟨kwriteArgs (kwriteUser 32768) (fun _ => 0) { Shared.boot with decodelock := true }, rfl, ?_⟩
    rw [kwriteArgs_clean rfl]
    constructor
    · simp only [kwriteArgs, hsize, hbuffer]
      exact List.mem_range.2 (by decide)
    · rintro ⟨n, p, hn, -, -, hle⟩
      rw [hsize] at hn
      cases hn
      exact absurd hle (by decide)
  · have hleft := h.released
    cases hleft

/-- The part of `sys_kwrite` after its loop in the system of all calls is that of `kwriteArgs`. -/
theorem kwriteArgs_audio {Proc : Type} [DecidableEq Proc] (a : Audio Proc) (u : User) (memory : Int → UInt8)
    (hsize : ∀ n, argint u 1 = some n → 0 ≤ n) :
    let b := a.kwrite (argint u 1) ((argint u 1).bind fun n => (argptr u 0 n).map fun p i => memory (uint (p + i)))
    (⟨b.size, b.buf, b.isdecoding, b.locked⟩ : Shared) =
      { (kwriteArgs u memory ⟨a.size, a.buf, a.isdecoding, true⟩).left with decodelock := b.locked } := by
  unfold kwriteArgs Audio.kwrite
  cases hn : argint u 1 with
  | none => rfl
  | some n =>
    have hpos := hsize n hn
    have hrange := argint_range hn
    cases hp : argptr u 0 n with
    | none => simp [hp]
    | some p =>
      simp only [Option.bind_some, Option.map_some, hp]
      congr 1
      funext i
      unfold memmove
      rw [uint_of_range hpos (by omega)]
      by_cases hi : (i : Int) < n
      · rw [if_pos hi, if_pos ⟨by omega, by omega⟩]
        simp
      · rw [if_neg hi, if_neg fun h => hi (by omega)]

end

end NewXv6.Sound
