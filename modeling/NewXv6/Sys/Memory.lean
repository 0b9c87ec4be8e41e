import NewXv6.Gui.Paint
import Mathlib.Tactic.LinearCombination

/-!
# The user memory system calls touch (`syscall.c`)

`argint` and `argptr` fetch the arguments of a system call from the stack of the process; `argptr` checks that a block of
memory lies in the process. A system call with pointer arguments gives `none` where it fails before it uses them, and
else the addresses it reads and writes through them. They lie in the process for most calls; a negative count, a window
of more than 2³⁰ pixels and the two calls without a check are the exceptions (`calls_inside`).
-/

namespace NewXv6.UserMem

open Lib NewXv6.Gui

/-! ## Arguments -/

abbrev KERNBASE : Int := 2 ^ 31

/-- What a `uint` keeps of a number. -/
def uint (x : Int) : Int := x % 2 ^ 32

/-- A process: its size, its stack pointer, and the words of its memory. -/
structure User where
  sz : Int
  esp : Int
  word : Int → Int

def fetchint (u : User) (addr : Int) : Option Int :=
  if addr ≥ u.sz ∨ uint (addr + 4) > u.sz then none else some (int (u.word addr))

def argint (u : User) (n : Int) : Option Int := fetchint u (uint (u.esp + 4 + 4 * n))

def argptr (u : User) (n size : Int) : Option Int :=
  match argint u n with
  | some i => if uint i ≥ u.sz ∨ uint (uint i + size) > u.sz then none else some (uint i)
  | none => none

/-- The `n` bytes at an address. -/
def bytes (start : Int) (n : Nat) : List Int := (List.range n).map fun k : Nat => uint (start + (k : Int))

/-! ## Files -/

abbrev MAXFILESIZE : Int := (12 + 128) * 512

/-- An open file: a pipe and the bytes that go through it before the call ends, a device and the bytes it takes or gives,
or an inode, its size and the offset. -/
inductive File
  | pipe (count : Nat)
  | device (count : Nat)
  | inode (size off : UInt32)

/-- The number of bytes `readi` copies, or none where it fails. -/
def readLen (size off n : Int) : Option Int :=
  if off > size ∨ uint (off + uint n) < off then none
  else if uint (off + uint n) > size then some (size - off)
  else some (uint n)

def fileread (readable : Bool) (f : File) (addr n : Int) : Option (List Int) :=
  if readable then
    match f with
    | .pipe count => some (bytes addr (min n.toNat count))
    | .device count => some (bytes addr (min n.toNat count))
    | .inode size off => (readLen size.toNat off.toNat n).map fun len => bytes addr len.toNat
  else none

/-- The blocks one call of `writei` takes. -/
abbrev maxWrite : Int := ((30 - 1 - 1 - 2) / 2) * 512

/-- The loop of `filewrite`. -/
def writeFrom (addr n : Int) : Nat → Int → Int → Int → List Int
  | 0, _, _, _ => []
  | fuel + 1, i, size, off =>
    if i < n then
      let n1 := if n - i > maxWrite then maxWrite else n - i
      if off > size ∨ uint (off + n1) < off ∨ uint (off + n1) > MAXFILESIZE then []
      else bytes (addr + i) n1.toNat ++ writeFrom addr n fuel (i + n1) (max size (off + n1)) (off + n1)
    else []

def filewrite (writable : Bool) (f : File) (addr n : Int) : Option (List Int) :=
  if writable then
    match f with
    | .pipe count => some (bytes addr (min n.toNat count))
    | .device _ => some (bytes addr n.toNat)
    | .inode size off => some (writeFrom addr n n.toNat 0 size.toNat off.toNat)
  else none

/-- The fields of `struct stat`. -/
def statBytes (addr : Int) : List Int :=
  bytes addr 2 ++ bytes (addr + 4) 4 ++ bytes (addr + 8) 4 ++ bytes (addr + 12) 2 ++ bytes (addr + 16) 4

/-! ## System calls -/

/-- A descriptor: whether its file may be read and written, and the file. -/
structure Fd where
  readable : Bool
  writable : Bool
  file : File

/-- `argfd` gives the file of the descriptor, if there is one. -/
def sys_read (u : User) (fd : Option Fd) : Option (List Int) :=
  match fd, argint u 2 with
  | some f, some n =>
    match argptr u 1 n with
    | some p => fileread f.readable f.file p n
    | none => none
  | _, _ => none

def sys_write (u : User) (fd : Option Fd) : Option (List Int) :=
  match fd, argint u 2 with
  | some f, some n =>
    match argptr u 1 n with
    | some p => filewrite f.writable f.file p n
    | none => none
  | _, _ => none

def sys_fstat (u : User) (fd : Option Fd) : Option (List Int) :=
  match fd, argptr u 1 20 with
  | some f, some st =>
    match f.file with
    | .pipe _ => none
    | _ => some (statBytes st)
  | _, _ => none

/-- `made` says whether the pipe and its two descriptors were made. -/
def sys_pipe (u : User) (made : Bool) : Option (List Int) :=
  match argptr u 0 8 with
  | some fd => if made then some (bytes fd 4 ++ bytes (fd + 4) 4) else none
  | none => none

/-- `pending` says whether there is a message. -/
def sys_getMsg (u : User) (pending : Bool) : Option (List Int) :=
  match argptr u 0 24 with
  | some ptr => some (if pending then bytes ptr 4 ++ bytes (ptr + 4) 16 else bytes ptr 4)
  | none => none

/-- The pixels of a context that `drawWindow` and `drawArea` read. -/
def contextBytes (context : Int) (r clip : Rect) : List Int :=
  (pixels clip).flatMap fun q => bytes (context + 2 * contextIndex r q.1 q.2) 2

/-- `window` is the rectangle of the window with the id, if there is one. -/
def sys_updateWindow (u : User) (window : Int → Option Rect) : Option (List Int) :=
  match argint u 0 with
  | some window_id =>
    match window window_id with
    | some r =>
      if r.count < 0 then none
      else (argptr u 1 (int (2 * r.count))).map fun context => contextBytes context r r
    | none => none
  | none => none

def sys_updatePartialWindow (u : User) (window : Int → Option Rect) : Option (List Int) :=
  match argint u 0 with
  | some window_id =>
    match window window_id with
    | some r =>
      if r.count < 0 then none
      else
        match argptr u 1 (int (2 * r.count)), argint u 2, argint u 3, argint u 4, argint u 5 with
        | some context, some x1, some y1, some x2, some y2 =>
          some (contextBytes context r (getIntersection ⟨x1, y1, x2, y2⟩ r))
        | _, _, _, _, _ => none
    | none => none
  | none => none

def sys_kwrite (u : User) : Option (List Int) :=
  match argint u 1 with
  | some size => (argptr u 0 size).map fun buffer => bytes buffer (uint size).toNat
  | none => none

/-- `sys_waitForDecode` and `sys_beginDecode`: the pointers are not checked, and where an argument cannot be fetched its
variable keeps what it had (`old`). -/
def sys_decode (u : User) (old : Int → Int) : Option (List Int) :=
  some (bytes (uint ((argint u 0).getD (old 0))) 20 ++ bytes (uint ((argint u 1).getD (old 1))) 328)

/-- A system call with pointer arguments, and what it depends on. -/
inductive Call
  | read (fd : Option Fd)
  | write (fd : Option Fd)
  | fstat (fd : Option Fd)
  | pipe (made : Bool)
  | getMsg (pending : Bool)
  | updateWindow (window : Int → Option Rect)
  | updatePartialWindow (window : Int → Option Rect)
  | kwrite
  | beginDecode (old : Int → Int)
  | waitForDecode (old : Int → Int)

/-- The addresses a call touches. -/
def touched (u : User) : Call → Option (List Int)
  | .read fd => sys_read u fd
  | .write fd => sys_write u fd
  | .fstat fd => sys_fstat u fd
  | .pipe made => sys_pipe u made
  | .getMsg pending => sys_getMsg u pending
  | .updateWindow window => sys_updateWindow u window
  | .updatePartialWindow window => sys_updatePartialWindow u window
  | .kwrite => sys_kwrite u
  | .beginDecode old => sys_decode u old
  | .waitForDecode old => sys_decode u old

/-- Every address that is touched lies in the process. -/
def Inside (u : User) (o : Option (List Int)) : Prop := ∀ l, o = some l → ∀ a ∈ l, 0 ≤ a ∧ a < u.sz

/-! ## Blocks of memory -/

variable {u : User} {start p : Int} {n : Nat}

theorem uint_of_range {x : Int} (h : 0 ≤ x) (h' : x < 2 ^ 32) : uint x = x := Int.emod_eq_of_lt h h'

theorem uint_nonneg (x : Int) : 0 ≤ uint x := Int.emod_nonneg _ (by decide)

theorem uint_lt (x : Int) : uint x < 2 ^ 32 := Int.emod_lt_of_pos _ (by decide)

theorem uint_add_uint (x y : Int) : uint (uint x + y) = uint (x + y) := by
  unfold uint
  exact Int.emod_add_emod _ _ _

theorem mem_bytes {a : Int} : a ∈ bytes start n ↔ ∃ k : Nat, k < n ∧ uint (start + k) = a := by
  simp [bytes]

/-- A block lies in the process exactly when its end does. -/
theorem bytes_inside (hsz : u.sz ≤ 2 ^ 31) (hstart : 0 ≤ start) (hstart' : start < 2 ^ 32) (hn : 0 < n) :
    (∀ a ∈ bytes start n, 0 ≤ a ∧ a < u.sz) ↔ start + n ≤ u.sz := by
  constructor
  · intro h
    by_contra hout
    -- the first byte beyond the process
    obtain ⟨k, hk, hbeyond⟩ : ∃ k : Nat, k < n ∧ u.sz ≤ start + k ∧ start + k < 2 ^ 32 := by
      by_cases hs : u.sz ≤ start
      · exact ⟨0, hn, by omega, by omega⟩
      · exact ⟨(u.sz - start).toNat, by omega, by omega, by omega⟩
    have hin := h (uint (start + k)) (mem_bytes.2 ⟨k, hk, rfl⟩)
    rw [uint_of_range (by omega) hbeyond.2] at hin
    omega
  · intro h a ha
    obtain ⟨k, hk, rfl⟩ := mem_bytes.1 ha
    rw [uint_of_range (by omega) (by omega)]
    omega

theorem bytes_inside_of_le (hsz : u.sz ≤ 2 ^ 31) (hstart : 0 ≤ start) (h : start + n ≤ u.sz) :
    ∀ a ∈ bytes start n, 0 ≤ a ∧ a < u.sz := by
  intro a ha
  obtain ⟨k, hk, rfl⟩ := mem_bytes.1 ha
  rw [uint_of_range (by omega) (by omega)]
  omega

/-- What `argptr` checks. -/
theorem argptr_some {i size : Int} (h : argptr u i size = some p) : 0 ≤ p ∧ p < u.sz ∧ uint (p + size) ≤ u.sz := by
  unfold argptr at h
  cases hi : argint u i with
  | none =>
    rw [hi] at h
    cases h
  | some j =>
    rw [hi] at h
    dsimp only at h
    split at h
    · cases h
    · next hc =>
      cases h
      exact ⟨uint_nonneg j, by omega, by omega⟩

/-- A block with a count that is not negative lies in the process. -/
theorem argptr_block (hsz : u.sz ≤ 2 ^ 31) {i size : Int} (h : argptr u i size = some p) (hsize : 0 ≤ size)
    (hsize' : size < 2 ^ 31) : 0 ≤ p ∧ p + size ≤ u.sz := by
  obtain ⟨hp, hlt, hend⟩ := argptr_some h
  rw [uint_of_range (by omega) (by omega)] at hend
  exact ⟨hp, hend⟩

theorem argint_range {i n : Int} (h : argint u i = some n) : -2 ^ 31 ≤ n ∧ n < 2 ^ 31 := by
  unfold argint fetchint at h
  split at h
  · cases h
  · cases h
    have hlt := Int.bmod_lt (x := u.word (uint (u.esp + 4 + 4 * i))) (m := 2 ^ 32) (by decide)
    have hle := Int.le_bmod (x := u.word (uint (u.esp + 4 + 4 * i))) (m := 2 ^ 32) (by decide)
    unfold int
    omega

/-! ## Files -/

/-- A count that is not negative bounds what is read. -/
theorem readLen_le {size off n len : Int} (h : readLen size off n = some len) (hoff : 0 ≤ off) (hoff' : off < 2 ^ 32)
    (hn : n < 2 ^ 31) : 0 ≤ len ∧ (0 ≤ n → len ≤ n) := by
  unfold readLen uint at h
  split at h
  · cases h
  · split at h
    · cases h
      omega
    · cases h
      omega

/-- The bytes of a count that may be negative. -/
theorem block_inside (hsz : u.sz ≤ 2 ^ 31) {i size : Int} (h : argptr u i size = some p) (hsize' : size < 2 ^ 31)
    {k : Nat} (hk : k ≤ size.toNat) : ∀ a ∈ bytes p k, 0 ≤ a ∧ a < u.sz := by
  by_cases hsize : 0 ≤ size
  · obtain ⟨hp, hend⟩ := argptr_block hsz h hsize hsize'
    exact bytes_inside_of_le hsz hp (by omega)
  · have hk0 : k = 0 := by omega
    subst hk0
    exact nofun

/-- The loop of `filewrite` stays in the block. -/
theorem mem_writeFrom {addr n : Int} {fuel : Nat} {i size off a : Int} (hi : 0 ≤ i)
    (ha : a ∈ writeFrom addr n fuel i size off) : ∃ k : Int, 0 ≤ k ∧ k < n ∧ uint (addr + k) = a := by
  induction fuel generalizing i size off with
  | zero => cases ha
  | succ fuel ih =>
    unfold writeFrom at ha
    split at ha
    · next hin =>
      have hn1 : 0 ≤ (if n - i > maxWrite then maxWrite else n - i) ∧
          (if n - i > maxWrite then maxWrite else n - i) ≤ n - i := by
        have : (0 : Int) ≤ maxWrite := by decide
        split
        · omega
        · omega
      dsimp only at ha
      generalize (if n - i > maxWrite then maxWrite else n - i) = n1 at ha hn1
      split at ha
      · cases ha
      · rcases List.mem_append.1 ha with ha | ha
        · obtain ⟨k, hk, rfl⟩ := mem_bytes.1 ha
          exact ⟨i + k, by omega, by omega, by rw [Int.add_assoc]⟩
        · exact ih (by omega) ha
    · cases ha

/-! ## Contexts -/

theorem int_eq (x : Int) : ∃ k, int x = x + 2 ^ 32 * k := by
  refine ⟨-((x + 2 ^ 31) / 2 ^ 32), ?_⟩
  unfold int
  rw [Int.bmod_def]
  split
  · omega
  · omega

theorem uint_add_mul (x k : Int) : uint (x + 2 ^ 32 * k) = uint x := Int.add_mul_emod_self_left _ _ _

/-- The index of a pixel of a context, up to the size of a word. -/
theorem contextIndex_mod (r : Rect) (i j : Int) : ∃ k, contextIndex r i j =
    (j - r.left_y) * (r.right_x - r.left_x) + (i - r.left_x) + 2 ^ 32 * k := by
  rw [contextIndex_eq]
  obtain ⟨a, ha⟩ := int_eq (j - r.left_y)
  obtain ⟨b, hb⟩ := int_eq (r.right_x - r.left_x)
  obtain ⟨c, hc⟩ := int_eq (int (j - r.left_y) * int (r.right_x - r.left_x) + i - r.left_x)
  refine ⟨(j - r.left_y) * b + a * (r.right_x - r.left_x) + 2 ^ 32 * (a * b) + c, ?_⟩
  rw [hc, ha, hb]
  ring

/-- The address of a byte of a context. -/
theorem context_address (r : Rect) (p i j b : Int) : uint (p + 2 * contextIndex r i j + b) =
    uint (p + 2 * ((j - r.left_y) * (r.right_x - r.left_x) + (i - r.left_x)) + b) := by
  obtain ⟨k, hk⟩ := contextIndex_mod r i j
  rw [hk, ← uint_add_mul (p + 2 * ((j - r.left_y) * (r.right_x - r.left_x) + (i - r.left_x)) + b) (2 * k)]
  congr 1
  ring

theorem mem_contextBytes {p a : Int} {r clip : Rect} : a ∈ contextBytes p r clip ↔
    ∃ q ∈ pixels clip, ∃ b : Nat, b < 2 ∧ uint (p + 2 * contextIndex r q.1 q.2 + b) = a := by
  simp only [contextBytes, List.mem_flatMap, mem_bytes]

/-- **A whole context** lies in the process exactly when it has less than 2³⁰ pixels. -/
theorem context_inside (hsz : u.sz < 2 ^ 31) {r : Rect} {i : Int} (hcount : 0 ≤ r.count)
    (h : argptr u i (int (2 * r.count)) = some p) : (∀ a ∈ contextBytes p r r, 0 ≤ a ∧ a < u.sz) ↔
      (r.left_x < r.right_x → r.left_y < r.right_y →
        (r.right_x - r.left_x) * (r.right_y - r.left_y) < 2 ^ 30) := by
  obtain ⟨hp, hlt, -⟩ := argptr_some h
  constructor
  · intro hin hx hy
    by_contra hbig
    -- the pixel number 2³⁰ - 1 is beyond every process
    have hw : 0 < r.right_x - r.left_x := by omega
    have hdiv : (2 ^ 30 - 1) / (r.right_x - r.left_x) < r.right_y - r.left_y :=
      Int.ediv_lt_of_lt_mul hw (by rw [Int.mul_comm]; omega)
    have hdiv' : 0 ≤ (2 ^ 30 - 1) / (r.right_x - r.left_x) := Int.ediv_nonneg (by decide) (by omega)
    have hmod := Int.emod_lt_of_pos (2 ^ 30 - 1) hw
    have hmod' := Int.emod_nonneg (2 ^ 30 - 1) (Int.ne_of_gt hw)
    have hdecomp := Int.mul_ediv_add_emod (2 ^ 30 - 1) (r.right_x - r.left_x)
    have hq : (r.left_x + (2 ^ 30 - 1) % (r.right_x - r.left_x), r.left_y + (2 ^ 30 - 1) / (r.right_x - r.left_x)) ∈
        pixels r := mem_pixels.2 ⟨⟨by dsimp only; omega, by dsimp only; omega⟩, by dsimp only; omega, by dsimp only; omega⟩
    have ha := hin _ (mem_contextBytes.2 ⟨_, hq, 1, by decide, rfl⟩)
    rw [context_address] at ha
    dsimp only at ha
    have hindex : (r.left_y + (2 ^ 30 - 1) / (r.right_x - r.left_x) - r.left_y) * (r.right_x - r.left_x) +
        (r.left_x + (2 ^ 30 - 1) % (r.right_x - r.left_x) - r.left_x) = 2 ^ 30 - 1 := by
      linear_combination hdecomp
    rw [hindex, uint_of_range (by omega) (by omega)] at ha
    omega
  · intro hsmall a ha
    obtain ⟨q, hq, b, hb, rfl⟩ := mem_contextBytes.1 ha
    obtain ⟨⟨hx, hx'⟩, hy, hy'⟩ := mem_pixels.1 hq
    have hprod := hsmall (by omega) (by omega)
    have hmul : (q.2 - r.left_y) * (r.right_x - r.left_x) + (r.right_x - r.left_x) ≤
        (r.right_x - r.left_x) * (r.right_y - r.left_y) := by nlinarith
    have hpos : 0 ≤ (q.2 - r.left_y) * (r.right_x - r.left_x) := Int.mul_nonneg (by omega) (by omega)
    have hwidth : r.right_x - r.left_x ≤ (r.right_x - r.left_x) * (r.right_y - r.left_y) := by nlinarith
    have hheight : r.right_y - r.left_y ≤ (r.right_x - r.left_x) * (r.right_y - r.left_y) := by nlinarith
    have hc : r.count = (r.right_x - r.left_x) * (r.right_y - r.left_y) := by
      unfold Rect.count
      rw [int_of_range (x := r.right_x - r.left_x) (by omega) (by omega),
        int_of_range (x := r.right_y - r.left_y) (by omega) (by omega), int_of_range (by omega) (by omega)]
    rw [int_of_range (by omega) (by omega)] at h
    obtain ⟨-, hend⟩ := argptr_block (Int.le_of_lt hsz) h (by omega) (by omega)
    rw [context_address, uint_of_range (by omega) (by omega)]
    omega

/-- A row of a context. -/
theorem row_address (r : Rect) (p x j : Int) (m b : Nat) : uint (p + 2 * contextIndex r (x + m) j + b) =
    uint (uint (p + 2 * contextIndex r x j) + ((2 * m + b : Nat) : Int)) := by
  have h₀ := context_address r p x j 0
  rw [Int.add_zero, Int.add_zero] at h₀
  rw [context_address, h₀, uint_add_uint]
  congr 1
  push_cast
  ring

/-- **Rows of a context** lie in the process exactly when their ends do. -/
theorem rows_inside (hsz : u.sz ≤ 2 ^ 31) {r clip : Rect} {p : Int} :
    (∀ a ∈ contextBytes p r clip, 0 ≤ a ∧ a < u.sz) ↔ (clip.left_x < clip.right_x → ∀ j, clip.left_y ≤ j →
      j < clip.right_y → uint (p + 2 * contextIndex r clip.left_x j) + 2 * (clip.right_x - clip.left_x) ≤ u.sz) := by
  have hrow : ∀ j, clip.left_x < clip.right_x →
      ((∀ a ∈ bytes (uint (p + 2 * contextIndex r clip.left_x j)) (2 * (clip.right_x - clip.left_x)).toNat,
        0 ≤ a ∧ a < u.sz) ↔
      uint (p + 2 * contextIndex r clip.left_x j) + 2 * (clip.right_x - clip.left_x) ≤ u.sz) := fun j hx => by
    rw [bytes_inside hsz (uint_nonneg _) (uint_lt _) (by omega), Int.toNat_of_nonneg (by omega)]
  constructor
  · intro h hx j hj hj'
    refine (hrow j hx).1 fun a ha => h a ?_
    obtain ⟨k, hk, rfl⟩ := mem_bytes.1 ha
    have hq : (clip.left_x + ((k / 2 : Nat) : Int), j) ∈ pixels clip :=
      mem_pixels.2 ⟨⟨by dsimp only; omega, by dsimp only; omega⟩, hj, hj'⟩
    refine mem_contextBytes.2 ⟨_, hq, k % 2, Nat.mod_lt _ (by decide), ?_⟩
    rw [row_address, Nat.div_add_mod]
  · intro h a ha
    obtain ⟨q, hq, b, hb, rfl⟩ := mem_contextBytes.1 ha
    obtain ⟨⟨hx, hx'⟩, hy, hy'⟩ := mem_pixels.1 hq
    obtain ⟨m, hm⟩ : ∃ m : Nat, q.1 = clip.left_x + m := ⟨(q.1 - clip.left_x).toNat, by omega⟩
    rw [hm, row_address]
    exact (hrow q.2 (by omega)).2 (h (by omega) q.2 hy hy') _ (mem_bytes.2 ⟨2 * m + b, by omega, rfl⟩)

/-! ## System calls -/

/-- When a call stays in the process: a negative count is not used, or what is read of the file fits; a window has less
than 2³⁰ pixels, or the rows that are read fit; the pointers that are not checked fit. -/
def StaysInside (u : User) : Call → Prop
  | .read fd => ∀ f n p size off len, fd = some f → argint u 2 = some n → argptr u 1 n = some p → f.readable = true →
    f.file = .inode size off → readLen size.toNat off.toNat n = some len → n < 0 → p + len ≤ u.sz
  | .updateWindow window => ∀ id r, argint u 0 = some id → window id = some r → 0 ≤ r.count →
    argptr u 1 (int (2 * r.count)) ≠ none → r.left_x < r.right_x → r.left_y < r.right_y →
    (r.right_x - r.left_x) * (r.right_y - r.left_y) < 2 ^ 30
  | .updatePartialWindow window => ∀ id r context x1 y1 x2 y2, argint u 0 = some id → window id = some r → 0 ≤ r.count →
    argptr u 1 (int (2 * r.count)) = some context → argint u 2 = some x1 → argint u 3 = some y1 → argint u 4 = some x2 →
    argint u 5 = some y2 → (getIntersection ⟨x1, y1, x2, y2⟩ r).left_x < (getIntersection ⟨x1, y1, x2, y2⟩ r).right_x →
    ∀ j, (getIntersection ⟨x1, y1, x2, y2⟩ r).left_y ≤ j → j < (getIntersection ⟨x1, y1, x2, y2⟩ r).right_y →
      uint (context + 2 * contextIndex r (getIntersection ⟨x1, y1, x2, y2⟩ r).left_x j) +
        2 * ((getIntersection ⟨x1, y1, x2, y2⟩ r).right_x - (getIntersection ⟨x1, y1, x2, y2⟩ r).left_x) ≤ u.sz
  | .kwrite => ∀ size p, argint u 1 = some size → argptr u 0 size = some p → 0 ≤ size
  | .beginDecode old | .waitForDecode old =>
    uint ((argint u 0).getD (old 0)) + 20 ≤ u.sz ∧ uint ((argint u 1).getD (old 1)) + 328 ≤ u.sz
  | _ => True

theorem inside_none : Inside u none := nofun

theorem inside_some {l : List Int} : Inside u (some l) ↔ ∀ a ∈ l, 0 ≤ a ∧ a < u.sz :=
  ⟨fun h => h l rfl, fun h l' hl => by cases hl; exact h⟩

theorem inside_append {l l' : List Int} : (∀ a ∈ l ++ l', 0 ≤ a ∧ a < u.sz) ↔
    (∀ a ∈ l, 0 ≤ a ∧ a < u.sz) ∧ ∀ a ∈ l', 0 ≤ a ∧ a < u.sz := List.forall_mem_append

theorem read_inside (hsz : u.sz ≤ 2 ^ 31) (fd : Option Fd) : Inside u (sys_read u fd) ↔ StaysInside u (.read fd) := by
  unfold sys_read StaysInside
  cases fd with
  | none =>
    refine ⟨fun _ f n p size off len hf => ?_, fun _ => inside_none⟩
    cases hf
  | some f =>
    cases hn : argint u 2 with
    | none =>
      refine ⟨fun _ f' n p size off len _ hn' => ?_, fun _ => inside_none⟩
      cases hn'
    | some n =>
      dsimp only
      cases hp : argptr u 1 n with
      | none =>
        refine ⟨fun _ f n' p _ _ _ _ hn' hp' => ?_, fun _ => inside_none⟩
        cases hn'
        cases hp.symm.trans hp'
      | some p =>
        have hlt := (argint_range hn).2
        dsimp only
        unfold fileread
        cases hr : f.readable with
        | false =>
          refine ⟨fun _ f' _ _ _ _ _ hf _ _ hr' => ?_, fun _ => inside_none⟩
          cases hf
          cases hr.symm.trans hr'
        | true =>
          simp only [if_true]
          cases hf : f.file with
          | pipe count =>
            refine ⟨fun _ f' _ _ _ _ _ hf' _ _ _ hi => ?_, fun _ => inside_some.2 ?_⟩
            · cases hf'
              cases hf.symm.trans hi
            · exact block_inside hsz hp hlt (Nat.min_le_left _ _)
          | device count =>
            refine ⟨fun _ f' _ _ _ _ _ hf' _ _ _ hi => ?_, fun _ => inside_some.2 ?_⟩
            · cases hf'
              cases hf.symm.trans hi
            · exact block_inside hsz hp hlt (Nat.min_le_left _ _)
          | inode size off =>
            obtain ⟨hp0, hplt, -⟩ := argptr_some hp
            dsimp only
            cases hlen : readLen size.toNat off.toNat n with
            | none =>
              refine ⟨fun _ f' n' _ _ _ _ hf' hn' _ _ hi hl => ?_, fun _ => inside_none⟩
              cases hf'
              cases hn'
              cases hf.symm.trans hi
              cases hlen.symm.trans hl
            | some len =>
              have hoff : ((off.toNat : Nat) : Int) < 2 ^ 32 := by
                have := off.toNat_lt
                omega
              obtain ⟨hlen0, hlenle⟩ := readLen_le hlen (by omega) hoff hlt
              rw [Option.map_some, inside_some]
              constructor
              · intro h f' n' p' size' off' len' hf' hn' hp' _ hi hl _
                cases hf'
                cases hn'
                cases hp.symm.trans hp'
                cases hf.symm.trans hi
                cases hlen.symm.trans hl
                by_cases hzero : len.toNat = 0
                · omega
                · have := (bytes_inside hsz hp0 (by omega) (Nat.pos_of_ne_zero hzero)).1 h
                  omega
              · intro h
                refine bytes_inside_of_le hsz hp0 ?_
                by_cases hneg : n < 0
                · have := h f n p size off len rfl rfl hp hr hf hlen hneg
                  omega
                · have := (argptr_block hsz hp (Int.not_lt.1 hneg) hlt).2
                  have := hlenle (Int.not_lt.1 hneg)
                  omega

theorem write_inside (hsz : u.sz ≤ 2 ^ 31) (fd : Option Fd) : Inside u (sys_write u fd) := by
  unfold sys_write
  cases fd with
  | none => exact inside_none
  | some f =>
    cases hn : argint u 2 with
    | none => exact inside_none
    | some n =>
      dsimp only
      cases hp : argptr u 1 n with
      | none => exact inside_none
      | some p =>
        have hlt := (argint_range hn).2
        dsimp only
        unfold filewrite
        cases f.writable with
        | false => exact inside_none
        | true =>
          simp only [if_true]
          cases f.file with
          | pipe count => exact inside_some.2 (block_inside hsz hp hlt (Nat.min_le_left _ _))
          | device count => exact inside_some.2 (block_inside hsz hp hlt (Nat.le_refl _))
          | inode size off =>
            refine inside_some.2 fun a ha => ?_
            obtain ⟨k, hk, hkn, rfl⟩ := mem_writeFrom (Int.le_refl 0) ha
            obtain ⟨hp0, hend⟩ := argptr_block hsz hp (by omega) hlt
            rw [uint_of_range (by omega) (by omega)]
            omega

/-- A block inside a block that was checked. -/
theorem part_inside (hsz : u.sz ≤ 2 ^ 31) {i size : Int} (h : argptr u i size = some p) (hsize : 0 ≤ size)
    (hsize' : size < 2 ^ 31) (off : Int) (k : Nat) (hoff : 0 ≤ off) (hk : off + k ≤ size) :
    ∀ a ∈ bytes (p + off) k, 0 ≤ a ∧ a < u.sz := by
  obtain ⟨hp, hend⟩ := argptr_block hsz h hsize hsize'
  exact bytes_inside_of_le hsz (by omega) (by omega)

theorem fstat_inside (hsz : u.sz ≤ 2 ^ 31) (fd : Option Fd) : Inside u (sys_fstat u fd) := by
  unfold sys_fstat
  cases fd with
  | none => exact inside_none
  | some f =>
    cases hp : argptr u 1 20 with
    | none => exact inside_none
    | some st =>
      have hpart := part_inside hsz hp (by decide) (by decide)
      have hstat : ∀ a ∈ statBytes st, 0 ≤ a ∧ a < u.sz := by
        unfold statBytes
        have hfirst := hpart 0 2 (by decide) (by decide)
        rw [Int.add_zero] at hfirst
        simp only [inside_append]
        exact ⟨⟨⟨⟨hfirst, hpart 4 4 (by decide) (by decide)⟩, hpart 8 4 (by decide) (by decide)⟩,
          hpart 12 2 (by decide) (by decide)⟩, hpart 16 4 (by decide) (by decide)⟩
      dsimp only
      cases f.file with
      | pipe count => exact inside_none
      | device count => exact inside_some.2 hstat
      | inode size off => exact inside_some.2 hstat

theorem pipe_inside (hsz : u.sz ≤ 2 ^ 31) (made : Bool) : Inside u (sys_pipe u made) := by
  unfold sys_pipe
  cases hp : argptr u 0 8 with
  | none => exact inside_none
  | some fd =>
    have hpart := part_inside hsz hp (by decide) (by decide)
    have hfirst := hpart 0 4 (by decide) (by decide)
    rw [Int.add_zero] at hfirst
    cases made with
    | false => exact inside_none
    | true => exact inside_some.2 (inside_append.2 ⟨hfirst, hpart 4 4 (by decide) (by decide)⟩)

theorem getMsg_inside (hsz : u.sz ≤ 2 ^ 31) (pending : Bool) : Inside u (sys_getMsg u pending) := by
  unfold sys_getMsg
  cases hp : argptr u 0 24 with
  | none => exact inside_none
  | some ptr =>
    have hpart := part_inside hsz hp (by decide) (by decide)
    have hfirst := hpart 0 4 (by decide) (by decide)
    rw [Int.add_zero] at hfirst
    cases pending with
    | false => exact inside_some.2 hfirst
    | true => exact inside_some.2 (inside_append.2 ⟨hfirst, hpart 4 16 (by decide) (by decide)⟩)

theorem updateWindow_inside (hsz : u.sz < 2 ^ 31) (window : Int → Option Rect) :
    Inside u (sys_updateWindow u window) ↔ StaysInside u (.updateWindow window) := by
  unfold sys_updateWindow StaysInside
  cases hid : argint u 0 with
  | none => exact ⟨fun _ => nofun, fun _ => inside_none⟩
  | some id =>
    dsimp only
    cases hr : window id with
    | none =>
      refine ⟨fun _ id' r hid' hr' => ?_, fun _ => inside_none⟩
      cases hid'
      cases hr.symm.trans hr'
    | some r =>
      dsimp only
      by_cases hcount : r.count < 0
      · rw [if_pos hcount]
        refine ⟨fun _ id' r' hid' hr' hc => ?_, fun _ => inside_none⟩
        cases hid'
        cases hr.symm.trans hr'
        omega
      · rw [if_neg hcount]
        cases hp : argptr u 1 (int (2 * r.count)) with
        | none =>
          refine ⟨fun _ id' r' hid' hr' _ hne => ?_, fun _ => inside_none⟩
          cases hid'
          cases hr.symm.trans hr'
          exact absurd hp hne
        | some context =>
          rw [Option.map_some, inside_some, context_inside hsz (Int.not_lt.1 hcount) hp]
          constructor
          · intro h id' r' hid' hr' _ _
            cases hid'
            cases hr.symm.trans hr'
            exact h
          · exact fun h => h id r rfl hr (Int.not_lt.1 hcount) fun hne => nomatch hp.symm.trans hne

theorem updatePartialWindow_inside (hsz : u.sz ≤ 2 ^ 31) (window : Int → Option Rect) :
    Inside u (sys_updatePartialWindow u window) ↔ StaysInside u (.updatePartialWindow window) := by
  unfold sys_updatePartialWindow StaysInside
  cases hid : argint u 0 with
  | none =>
    refine ⟨fun _ id r context x1 y1 x2 y2 hid' => ?_, fun _ => inside_none⟩
    cases hid'
  | some id =>
    dsimp only
    cases hr : window id with
    | none =>
      refine ⟨fun _ id' r _ _ _ _ _ hid' hr' => ?_, fun _ => inside_none⟩
      cases hid'
      cases hr.symm.trans hr'
    | some r =>
      dsimp only
      by_cases hcount : r.count < 0
      · rw [if_pos hcount]
        refine ⟨fun _ id' r' _ _ _ _ _ hid' hr' hc => ?_, fun _ => inside_none⟩
        cases hid'
        cases hr.symm.trans hr'
        omega
      · rw [if_neg hcount]
        cases hp : argptr u 1 (int (2 * r.count)) with
        | none =>
          refine ⟨fun _ id' r' _ _ _ _ _ hid' hr' _ hp' => ?_, fun _ => inside_none⟩
          cases hid'
          cases hr.symm.trans hr'
          cases hp.symm.trans hp'
        | some context =>
          cases h2 : argint u 2 with
          | none =>
            refine ⟨fun _ id' r' _ _ _ _ _ _ _ _ _ harg => ?_, fun _ => inside_none⟩
            cases harg
          | some x1 =>
            cases h3 : argint u 3 with
            | none =>
              refine ⟨fun _ id' r' _ _ _ _ _ _ _ _ _ _ harg => ?_, fun _ => inside_none⟩
              cases harg
            | some y1 =>
              cases h4 : argint u 4 with
              | none =>
                refine ⟨fun _ id' r' _ _ _ _ _ _ _ _ _ _ _ harg => ?_, fun _ => inside_none⟩
                cases harg
              | some x2 =>
                cases h5 : argint u 5 with
                | none =>
                  refine ⟨fun _ id' r' _ _ _ _ _ _ _ _ _ _ _ _ harg => ?_, fun _ => inside_none⟩
                  cases harg
                | some y2 =>
                  dsimp only
                  rw [inside_some, rows_inside hsz]
                  constructor
                  · intro h id' r' context' _ _ _ _ hid' hr' _ hp' hx1 hy1 hx2 hy2
                    cases hid'
                    cases hr.symm.trans hr'
                    cases hp.symm.trans hp'
                    cases hx1
                    cases hy1
                    cases hx2
                    cases hy2
                    exact h
                  · exact fun h => h id r context x1 y1 x2 y2 rfl hr (Int.not_lt.1 hcount) hp rfl rfl rfl rfl

/-- A part of a window with less than 2³⁰ pixels is read inside the process, whatever part it is. -/
theorem partial_inside (hsz : u.sz < 2 ^ 31) {window : Int → Option Rect}
    (hsmall : ∀ id r, argint u 0 = some id → window id = some r → r.left_x < r.right_x → r.left_y < r.right_y →
      (r.right_x - r.left_x) * (r.right_y - r.left_y) < 2 ^ 30) : Inside u (sys_updatePartialWindow u window) := by
  refine (updatePartialWindow_inside (Int.le_of_lt hsz) window).2 fun id r context x1 y1 x2 y2 hid hr hcount hp _ _ _ _ hx => ?_
  have hwhole := (context_inside hsz hcount hp).2 (hsmall id r hid hr)
  refine (rows_inside (Int.le_of_lt hsz)).1 (fun a ha => hwhole a ?_) hx
  -- the pixels of the part are pixels of the window
  obtain ⟨q, hq, b, hb, rfl⟩ := mem_contextBytes.1 ha
  have hin := mem_pixels.1 hq
  simp only [getIntersection] at hin
  exact mem_contextBytes.2 ⟨q, mem_pixels.2 ⟨⟨by omega, by omega⟩, by omega, by omega⟩, b, hb, rfl⟩

theorem kwrite_inside (hsz : u.sz < 2 ^ 31) : Inside u (sys_kwrite u) ↔ StaysInside u .kwrite := by
  unfold sys_kwrite StaysInside
  cases hn : argint u 1 with
  | none => exact ⟨fun _ => nofun, fun _ => inside_none⟩
  | some size =>
    obtain ⟨hge, hlt⟩ := argint_range hn
    dsimp only
    cases hp : argptr u 0 size with
    | none =>
      refine ⟨fun _ size' p hn' hp' => ?_, fun _ => inside_none⟩
      cases hn'
      cases hp.symm.trans hp'
    | some p =>
      obtain ⟨hp0, hplt, -⟩ := argptr_some hp
      rw [Option.map_some, inside_some]
      constructor
      · intro h size' p' hn' _
        cases hn'
        by_contra hneg
        -- a negative size is copied as a size of 2³¹ or more
        have hbig : 2 ^ 31 ≤ uint size := by
          unfold uint
          omega
        have := (bytes_inside (Int.le_of_lt hsz) hp0 (by omega) (by omega)).1 h
        omega
      · intro h
        refine block_inside (Int.le_of_lt hsz) hp hlt ?_
        rw [uint_of_range (h size p rfl hp) (by omega)]

theorem decode_inside (hsz : u.sz ≤ 2 ^ 31) (old : Int → Int) : Inside u (sys_decode u old) ↔
    uint ((argint u 0).getD (old 0)) + 20 ≤ u.sz ∧ uint ((argint u 1).getD (old 1)) + 328 ≤ u.sz := by
  unfold sys_decode
  rw [inside_some, inside_append, bytes_inside hsz (uint_nonneg _) (uint_lt _) (by decide),
    bytes_inside hsz (uint_nonneg _) (uint_lt _) (by decide)]
  rfl

/-- **System calls touch only the memory of their process** exactly when `StaysInside` holds; `write`, `fstat`, `pipe` and
`getMsg` always do. -/
theorem calls_inside (u : User) (hsz : u.sz < KERNBASE) (call : Call) : Inside u (touched u call) ↔ StaysInside u call := by
  have hle := Int.le_of_lt hsz
  cases call with
  | read fd => exact read_inside hle fd
  | write fd => exact ⟨fun _ => trivial, fun _ => write_inside hle fd⟩
  | fstat fd => exact ⟨fun _ => trivial, fun _ => fstat_inside hle fd⟩
  | pipe made => exact ⟨fun _ => trivial, fun _ => pipe_inside hle made⟩
  | getMsg pending => exact ⟨fun _ => trivial, fun _ => getMsg_inside hle pending⟩
  | updateWindow window => exact updateWindow_inside hsz window
  | updatePartialWindow window => exact updatePartialWindow_inside hle window
  | kwrite => exact kwrite_inside hsz
  | beginDecode old => exact decode_inside hle old
  | waitForDecode old => exact decode_inside hle old

/-- A process of one page whose words are 100, 3 and 100. -/
def smallUser : User := ⟨4096, 4000, fun addr => if addr = 4004 then 3 else 100⟩

theorem calls_inside_small : Inside smallUser (touched smallUser (.read (some ⟨true, false, .inode 500 0⟩))) := by
  refine (calls_inside smallUser (by decide) _).2 ?_
  rintro f n p size off len - hn - - - - hneg
  have hn100 : argint smallUser 2 = some 100 := by decide
  cases hn100.symm.trans hn
  exact absurd hneg (by decide)

/-- A count of -1: the whole file is read to an address near the end of the process. -/
def hostileUser : User := ⟨4096, 4000, fun addr => if addr = 4004 then 3 else if addr = 4008 then 4000 else -1⟩

theorem read_outside : ¬Inside hostileUser (touched hostileUser (.read (some ⟨true, false, .inode 500 0⟩))) := by
  intro h
  have htouched : touched hostileUser (.read (some ⟨true, false, .inode 500 0⟩)) = some (bytes 4000 500) := rfl
  have hin := h _ htouched 4096 (mem_bytes.2 ⟨96, by decide, by decide⟩)
  exact absurd hin.2 (by decide)

end NewXv6.UserMem
