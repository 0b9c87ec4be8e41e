import NewXv6.Fs.Dir
import NewXv6.Fs.Names

/-!
# Path lookup (`fs.c`)

`namex` with the references and locks of the inode cache, over the inodes of a tree. What it is for is a fold: the components
of the path are looked up one after another (`walk`). On the way it holds one more reference, and one lock at a time.
-/

namespace NewXv6.Fs.Lookup

open Names

/-- An entry of the inode cache. -/
structure Cached where
  inum : Nat
  ref : Nat
  busy : Bool
  valid : Bool

structure State where
  tree : Tree
  icache : Slot → Cached

/-! ## The inode cache -/

def State.setInode (s : State) (ip : Slot) (x : Cached) : State := { s with icache := Function.update s.icache ip x }

/-- The inode of a cache entry. -/
def State.inode (s : State) (ip : Slot) : Node := s.tree.node (s.icache ip).inum

def iget (s : State) (inum : Nat) : Except Stop (Slot × State) :=
  match (List.finRange NINODE).find? fun ip => decide (0 < (s.icache ip).ref ∧ (s.icache ip).inum = inum) with
  | some ip => .ok (ip, s.setInode ip { s.icache ip with ref := (s.icache ip).ref + 1 })
  | none =>
    match (List.finRange NINODE).find? fun ip => decide ((s.icache ip).ref = 0) with
    | some ip => .ok (ip, s.setInode ip { inum, ref := 1, busy := false, valid := false })
    | none => .error (.panic .igetNoInodes)

def idup (s : State) (ip : Slot) : State := s.setInode ip { s.icache ip with ref := (s.icache ip).ref + 1 }

/-- A lock that is held is waited for: no other process runs here. -/
def ilock (s : State) (ip : Slot) : Except Stop State :=
  if (s.icache ip).ref < 1 then .error (.panic .ilock)
  else if (s.icache ip).busy then .error .hang
  else if !(s.icache ip).valid && decide ((s.inode ip).type = 0) then .error (.panic .ilockNoType)
  else .ok (s.setInode ip { s.icache ip with busy := true, valid := true })

def iunlock (s : State) (ip : Slot) : Except Stop State :=
  if !(s.icache ip).busy || decide ((s.icache ip).ref < 1) then .error (.panic .iunlock)
  else .ok (s.setInode ip { s.icache ip with busy := false })

/-- `iput` frees an inode without links and without other references. -/
def iput (s : State) (ip : Slot) : Except Stop State :=
  let i := s.icache ip
  if i.ref = 1 ∧ i.valid = true ∧ (s.inode ip).nlink = 0 then
    if i.busy then .error (.panic .iputBusy)
    else .ok { (s.setInode ip { i with ref := i.ref - 1, valid := false }) with
      tree := s.tree.set i.inum { s.inode ip with type := 0, entries := [] } }
  else .ok (s.setInode ip { i with ref := i.ref - 1 })

def iunlockput (s : State) (ip : Slot) : Except Stop State := do
  let s ← iunlock s ip
  iput s ip

/-! ## `namex` -/

/-- The loop of `namex`; the first argument bounds the number of rounds. -/
def namexFrom (nameiparent : Bool) : Nat → Slot → List UInt8 → State → Except Stop (Option (Slot × List UInt8) × State)
  | 0, _, _, _ => .error .hang
  | fuel + 1, ip, path, s =>
    match skipelem path with
    | none =>
      if nameiparent then do
        let s ← iput s ip
        return (none, s)
      else return (some (ip, []), s)
    | some (name, path) => do
      let s ← ilock s ip
      if (s.inode ip).type ≠ T_DIR then do
        let s ← iunlockput s ip
        return (none, s)
      else if nameiparent = true ∧ path = [] then do
        let s ← iunlock s ip
        return (some (ip, name), s)
      else
        match (s.inode ip).entries.find? (fits name) with
        | none => do
          let s ← iunlockput s ip
          return (none, s)
        | some de => do
          let (next, s) ← iget s de.inum.toNat
          let s ← iunlockput s ip
          namexFrom nameiparent fuel next path s

def namex (s : State) (cwd : Slot) (path : List UInt8) (nameiparent : Bool) :
    Except Stop (Option (Slot × List UInt8) × State) := do
  let (ip, s) ← if path.headD 0 = slash then iget s ROOTINO else .ok (cwd, idup s cwd)
  namexFrom nameiparent (path.length + 1) ip path s

def namei (s : State) (cwd : Slot) (path : List UInt8) : Except Stop (Option Slot × State) := do
  let (r, s) ← namex s cwd path false
  return (r.map Prod.fst, s)

def nameiparent (s : State) (cwd : Slot) (path : List UInt8) : Except Stop (Option (Slot × List UInt8) × State) :=
  namex s cwd path true

/-! ## What it is for -/

/-- The components of a path: the non-empty parts between slashes, cut to `DIRSIZ` bytes. -/
def components (path : List UInt8) : List (List UInt8) :=
  ((path.splitOn slash).filter fun c => c ≠ []).map fun c => c.take DIRSIZ

/-- The inode that an entry of a directory names. -/
def lookup (t : Tree) (dp : Nat) (name : List UInt8) : Option Nat :=
  if (t.node dp).type = T_DIR then ((t.node dp).entries.find? (fits name)).map fun de => de.inum.toNat else none

/-- Names are looked up one after another. -/
def walk (t : Tree) (ip : Nat) (names : List (List UInt8)) : Option Nat :=
  names.foldlM (lookup t) ip

/-- The directory before the last name, and the name. -/
def walkParent (t : Tree) (ip : Nat) (names : List (List UInt8)) : Option (Nat × List UInt8) := do
  let last ← names.getLast?
  let dp ← walk t ip names.dropLast
  if (t.node dp).type = T_DIR then some (dp, last) else none

/-! ## Components -/

section Components

variable {path name rest : List UInt8}

/-- Leading slashes do not matter. -/
theorem components_slash (path : List UInt8) : components (slash :: path) = components path := by
  have hsplit : (slash :: path).splitOn slash = [] :: path.splitOn slash := by
    have hnil : slash ∉ ([] : List UInt8) := List.not_mem_nil
    exact List.splitOn_append_cons_self_of_not_mem hnil path
  unfold components
  rw [hsplit]
  rfl

theorem components_dropWhile (path : List UInt8) : components (path.dropWhile (· == slash)) = components path := by
  induction path with
  | nil => rfl
  | cons c path ih =>
    by_cases hc : c = slash
    · subst hc
      rw [List.dropWhile_cons_of_pos (p := (· == slash)) (beq_self_eq_true slash), ih, components_slash]
    · rw [List.dropWhile_cons_of_neg (p := (· == slash)) (by rw [beq_false_of_ne hc]; decide)]

theorem components_word {w : List UInt8} (hw : w ≠ []) (hslash : slash ∉ w) (rest : List UInt8) :
    components (w ++ slash :: rest) = w.take DIRSIZ :: components rest ∧ components w = [w.take DIRSIZ] := by
  unfold components
  rw [List.splitOn_append_cons_self_of_not_mem hslash, List.splitOn_eq_singleton hslash]
  simp [hw]

/-- The first component of a path without a leading slash. -/
theorem components_cons {c : UInt8} (hc : c ≠ slash) (r : List UInt8) :
    components (c :: r) = ((c :: r).takeWhile (· != slash)).take DIRSIZ :: components ((c :: r).dropWhile (· != slash)) := by
  have hword : (c :: r).takeWhile (· != slash) ≠ [] := by
    rw [List.takeWhile_cons_of_pos (p := (· != slash)) (bne_iff_ne.2 hc)]
    exact List.cons_ne_nil _ _
  have hno : slash ∉ (c :: r).takeWhile (· != slash) := fun h => by
    have := List.all_eq_true.1 (List.all_takeWhile (p := (· != slash)) (l := c :: r)) slash h
    simp at this
  conv_lhs => rw [← List.takeWhile_append_dropWhile (p := (· != slash)) (l := c :: r)]
  cases hd : (c :: r).dropWhile (· != slash) with
  | nil =>
    rw [List.append_nil]
    exact (components_word hword hno []).2
  | cons x y =>
    have hx : x = slash := by
      have := List.head_dropWhile_not (l := c :: r) (· != slash) (by rw [hd]; simp)
      simpa [hd] using this
    subst hx
    rw [(components_word hword hno y).1, components_slash]

/-- **`skipelem`** takes the first component off the path. -/
theorem skipelem_components (path : List UInt8) :
    (skipelem path = none ∧ components path = []) ∨
      ∃ name rest, skipelem path = some (name, rest) ∧ components path = name :: components rest ∧
        (rest = [] ↔ components rest = []) := by
  -- what is left when slashes are skipped does not begin with one
  have hhead : ∀ (l : List UInt8) c r, l.dropWhile (· == slash) = c :: r → c ≠ slash := by
    rintro l c r hl rfl
    have := List.head_dropWhile_not (l := l) (· == slash) (by rw [hl]; simp)
    simp [hl] at this
  rw [← components_dropWhile path]
  unfold skipelem
  cases hs : path.dropWhile (· == slash) with
  | nil => exact .inl ⟨rfl, rfl⟩
  | cons c r =>
    refine .inr ⟨_, _, if_neg (List.cons_ne_nil c r), ?_, ?_⟩
    · rw [components_dropWhile]
      exact components_cons (hhead path c r hs) r
    · cases hr : ((c :: r).dropWhile (· != slash)).dropWhile (· == slash) with
      | nil => exact ⟨fun _ => rfl, fun _ => rfl⟩
      | cons x y =>
        rw [components_cons (hhead _ x y hr) y]
        exact ⟨nofun, nofun⟩

end Components

/-! ## References and locks -/

/-- From `s₀` on, `namex` took the references `m` and the lock of one inode at most, and changed no inode. -/
structure Held (s₀ s : State) (m : Slot → Nat) (locked : Option Slot) : Prop where
  tree : s.tree = s₀.tree
  ref : ∀ ip, (s.icache ip).ref = (s₀.icache ip).ref + m ip
  inum : ∀ ip, 0 < (s₀.icache ip).ref → (s.icache ip).inum = (s₀.icache ip).inum
  busy : ∀ ip, (s.icache ip).busy = decide (locked = some ip)
  unique : ∀ ip jp, 0 < (s.icache ip).ref → 0 < (s.icache jp).ref → (s.icache ip).inum = (s.icache jp).inum → ip = jp

section Held

variable {s₀ s t : State} {m : Slot → Nat} {locked : Option Slot} {ip : Slot} {inum : Nat}

theorem setInode_self (s : State) (ip : Slot) (x : Cached) : (s.setInode ip x).icache ip = x := Function.update_self ..

theorem setInode_ne (s : State) {ip jp : Slot} (x : Cached) (h : jp ≠ ip) : (s.setInode ip x).icache jp = s.icache jp :=
  Function.update_of_ne h ..

/-- One entry changes. -/
theorem Held.set (h : Held s₀ s m locked) {x : Cached} {m' : Slot → Nat} {locked' : Option Slot}
    (hm : ∀ jp, jp ≠ ip → m' jp = m jp) (hlocked : ∀ jp, jp ≠ ip → (locked' = some jp ↔ locked = some jp))
    (href : x.ref = (s₀.icache ip).ref + m' ip) (hinum : 0 < (s₀.icache ip).ref → x.inum = (s₀.icache ip).inum)
    (hbusy : x.busy = decide (locked' = some ip))
    (hunique : ∀ jp, jp ≠ ip → 0 < x.ref → 0 < (s.icache jp).ref → (s.icache jp).inum ≠ x.inum) :
    Held s₀ (s.setInode ip x) m' locked' := by
  refine ⟨h.tree, fun jp => ?_, fun jp hj => ?_, fun jp => ?_, fun jp kp hj hk heq => ?_⟩
  case refine_4 =>
    by_cases hjp : jp = ip
    · by_cases hkp : kp = ip
      · rw [hjp, hkp]
      · subst hjp
        rw [setInode_self] at hj heq
        rw [setInode_ne s x hkp] at hk heq
        exact absurd heq.symm (hunique kp hkp hj hk)
    · rw [setInode_ne s x hjp] at hj heq
      by_cases hkp : kp = ip
      · subst hkp
        rw [setInode_self] at hk heq
        exact absurd heq (hunique jp hjp hk hj)
      · rw [setInode_ne s x hkp] at hk heq
        exact h.unique jp kp hj hk heq
  all_goals
    by_cases hjp : jp = ip
    · subst hjp
      rw [setInode_self]
      first
        | exact href
        | exact hinum hj
        | exact hbusy
    · rw [setInode_ne s x hjp]
      first
        | exact (h.ref jp).trans (by rw [hm jp hjp])
        | exact h.inum jp hj
        | exact (h.busy jp).trans (decide_eq_decide.2 (hlocked jp hjp).symm)

/-- An entry in use keeps its number. -/
theorem Held.set_same (h : Held s₀ s m locked) {x : Cached} {m' : Slot → Nat} {locked' : Option Slot}
    (hm : ∀ jp, jp ≠ ip → m' jp = m jp) (hlocked : ∀ jp, jp ≠ ip → (locked' = some jp ↔ locked = some jp))
    (href : x.ref = (s₀.icache ip).ref + m' ip) (hbusy : x.busy = decide (locked' = some ip))
    (hinum : x.inum = (s.icache ip).inum) (hpos : 0 < (s.icache ip).ref) : Held s₀ (s.setInode ip x) m' locked' :=
  h.set hm hlocked href (fun h₀ => hinum.trans (h.inum ip h₀)) hbusy fun jp hjp _ hj heq =>
    hjp (h.unique jp ip hj hpos (heq.trans hinum))

/-- `iget` finds an entry, or every entry is in use. -/
theorem Held.iget (h : Held s₀ s m locked) (hlocked : ∀ jp, locked = some jp → 0 < (s.icache jp).ref) (inum : Nat) :
    (iget s inum = .error (.panic .igetNoInodes) ∧ ∀ f, (s.icache f).ref ≠ 0) ∨
      ∃ ip t, iget s inum = .ok (ip, t) ∧ Held s₀ t (hold m ip) locked ∧ (t.icache ip).inum = inum ∧
        ∀ jp, 0 < (s.icache jp).ref → (t.icache jp).inum = (s.icache jp).inum := by
  unfold Lookup.iget
  split
  · next ip hfind =>
    have hip := of_decide_eq_true (List.find?_some hfind :)
    refine .inr ⟨ip, _, rfl, h.set_same (fun jp hjp => hold_of_ne hjp) (fun _ _ => Iff.rfl) ?_ (h.busy ip) rfl hip.1, ?_,
      fun jp _ => ?_⟩
    · rw [hold_self, h.ref ip, Nat.add_assoc]
    · rw [setInode_self]
      exact hip.2
    · by_cases hjp : jp = ip
      · subst hjp
        rw [setInode_self]
      · rw [setInode_ne _ _ hjp]
  · next hnotFound =>
    split
    · next ip hfind =>
      have hip : (s.icache ip).ref = 0 := of_decide_eq_true (List.find?_some hfind :)
      have hzero := h.ref ip
      rw [hip] at hzero
      have hne : locked ≠ some ip := fun hl => by
        have := hlocked ip hl
        omega
      refine .inr ⟨ip, _, rfl, h.set (fun jp hjp => hold_of_ne hjp) (fun _ _ => Iff.rfl) ?_ (fun hpos => ?_)
        (decide_eq_false hne).symm fun jp _ _ hj heq => ?_, ?_, fun jp hj => ?_⟩
      · rw [hold_self]
        show 1 = _
        omega
      · omega
      · exact List.find?_eq_none.1 hnotFound jp (List.mem_finRange jp) (decide_eq_true ⟨hj, heq⟩)
      · rw [setInode_self]
      · have hjp : jp ≠ ip := by
          rintro rfl
          omega
        rw [setInode_ne _ _ hjp]
    · next hnone =>
      exact .inl ⟨rfl, fun f hf => List.find?_eq_none.1 hnone f (List.mem_finRange f) (decide_eq_true hf)⟩

theorem Held.ilock (h : Held s₀ s m none) (href : 0 < (s.icache ip).ref) (htype : (s.inode ip).type ≠ 0) :
    ∃ t, ilock s ip = .ok t ∧ Held s₀ t m (some ip) ∧ ∀ jp, (t.icache jp).inum = (s.icache jp).inum := by
  have hbusy : (s.icache ip).busy = false := h.busy ip
  have hload : (!(s.icache ip).valid && decide ((s.inode ip).type = 0)) = false := by
    rw [decide_eq_false htype, Bool.and_false]
  refine ⟨s.setInode ip { s.icache ip with busy := true, valid := true }, ?_, ?_, fun jp => ?_⟩
  · unfold Lookup.ilock
    rw [if_neg (by omega), hbusy, hload]
    rfl
  · refine h.set_same (fun _ _ => rfl) (fun jp hjp => ⟨fun hs => ?_, nofun⟩) (h.ref ip) (decide_eq_true rfl).symm rfl href
    exact absurd (Option.some.inj hs).symm hjp
  · by_cases hjp : jp = ip
    · subst hjp
      rw [setInode_self]
    · rw [setInode_ne _ _ hjp]

theorem Held.iunlock (h : Held s₀ s m (some ip)) (href : 0 < (s.icache ip).ref) :
    ∃ t, iunlock s ip = .ok t ∧ Held s₀ t m none ∧ ∀ jp, (t.icache jp).inum = (s.icache jp).inum := by
  have hbusy : (s.icache ip).busy = true := (h.busy ip).trans (decide_eq_true rfl)
  refine ⟨s.setInode ip { s.icache ip with busy := false }, ?_, ?_, fun jp => ?_⟩
  · unfold Lookup.iunlock
    rw [hbusy, decide_eq_false (by omega)]
    rfl
  · refine h.set_same (fun _ _ => rfl) (fun jp hjp => ⟨nofun, fun hs => ?_⟩) (h.ref ip) rfl rfl href
    exact absurd (Option.some.inj hs).symm hjp
  · by_cases hjp : jp = ip
    · subst hjp
      rw [setInode_self]
    · rw [setInode_ne _ _ hjp]

/-- `iput` of a reference that was taken, to an inode that has links or another reference. -/
theorem Held.iput (h : Held s₀ s m none) (hm : 0 < m ip) (hkeep : (s.inode ip).nlink ≠ 0 ∨ 0 < (s₀.icache ip).ref) :
    ∃ t, iput s ip = .ok t ∧ Held s₀ t (drop m ip) none ∧ ∀ jp, (t.icache jp).inum = (s.icache jp).inum := by
  have href := h.ref ip
  refine ⟨s.setInode ip { s.icache ip with ref := (s.icache ip).ref - 1 }, ?_, ?_, fun jp => ?_⟩
  · unfold Lookup.iput
    refine if_neg fun hlast => ?_
    rcases hkeep with hlinks | hpos
    · exact hlinks hlast.2.2
    · have := hlast.1
      omega
  · refine h.set_same (fun jp hjp => drop_of_ne hjp) (fun _ _ => Iff.rfl) ?_ (h.busy ip) rfl (by omega)
    rw [drop_self, href]
    show (s₀.icache ip).ref + m ip - 1 = _
    omega
  · by_cases hjp : jp = ip
    · subst hjp
      rw [setInode_self]
    · rw [setInode_ne _ _ hjp]

theorem Held.iunlockput (h : Held s₀ s m (some ip)) (hm : 0 < m ip)
    (hkeep : (s.inode ip).nlink ≠ 0 ∨ 0 < (s₀.icache ip).ref) :
    ∃ t, iunlockput s ip = .ok t ∧ Held s₀ t (drop m ip) none ∧ ∀ jp, (t.icache jp).inum = (s.icache jp).inum := by
  have href := h.ref ip
  obtain ⟨u, hu, hheld, hinum⟩ := Held.iunlock h (show 0 < (s.icache ip).ref by omega)
  have hnode : u.inode ip = s.inode ip := by
    unfold State.inode
    rw [hinum, hheld.tree, h.tree]
  obtain ⟨t, ht, hheld', hinum'⟩ := hheld.iput hm (by rwa [hnode])
  refine ⟨t, ?_, hheld', fun jp => (hinum' jp).trans (hinum jp)⟩
  unfold Lookup.iunlockput
  rw [hu]
  exact ht

end Held

/-! ## The fold -/

section Fold

variable {t : Tree} {ip : Nat} {name : List UInt8} {names : List (List UInt8)}

theorem walk_cons : walk t ip (name :: names) = (lookup t ip name).bind fun next => walk t next names := by
  unfold walk
  rw [List.foldlM_cons]
  rfl

theorem walkParent_one : walkParent t ip [name] = if (t.node ip).type = T_DIR then some (ip, name) else none := rfl

theorem walkParent_cons (hnames : names ≠ []) :
    walkParent t ip (name :: names) = (lookup t ip name).bind fun next => walkParent t next names := by
  obtain ⟨x, rest, rfl⟩ := List.exists_cons_of_ne_nil hnames
  unfold walkParent
  rw [List.getLast?_cons_cons, List.dropLast_cons_cons, walk_cons]
  cases hl : (x :: rest).getLast? with
  | none =>
    cases lookup t ip name <;> rfl
  | some last =>
    cases lookup t ip name <;> rfl

/-- `lookup` finds nothing in what is no directory, and in a directory without the name. -/
theorem lookup_eq_none : lookup t ip name = none ↔
    (t.node ip).type ≠ T_DIR ∨ ∀ de ∈ (t.node ip).entries, fits name de = false := by
  unfold lookup
  by_cases hdir : (t.node ip).type = T_DIR
  · rw [if_pos hdir, Option.map_eq_none_iff, List.find?_eq_none]
    simp [hdir]
  · rw [if_neg hdir]
    exact ⟨fun _ => .inl hdir, fun _ => rfl⟩

/-- A walk ends where a name is not found. -/
theorem walk_eq_none (t : Tree) (names : List (List UInt8)) : ∀ ip, walk t ip names = none ↔
    ∃ before name after dp, names = before ++ name :: after ∧ walk t ip before = some dp ∧ lookup t dp name = none := by
  induction names with
  | nil =>
    intro ip
    refine ⟨nofun, ?_⟩
    rintro ⟨before, name, after, dp, h, -⟩
    cases before <;> cases h
  | cons x names ih =>
    intro ip
    rw [walk_cons]
    cases hx : lookup t ip x with
    | none => exact ⟨fun _ => ⟨[], x, names, ip, rfl, rfl, hx⟩, fun _ => rfl⟩
    | some next =>
      show walk t next names = none ↔ _
      rw [ih]
      constructor
      · rintro ⟨before, name, after, dp, rfl, hwalk, hnone⟩
        exact ⟨x :: before, name, after, dp, rfl, by rw [walk_cons, hx]; exact hwalk, hnone⟩
      · rintro ⟨before, name, after, dp, h, hwalk, hnone⟩
        cases before with
        | nil =>
          obtain ⟨rfl, rfl⟩ := List.cons.inj h
          cases hwalk
          rw [hx] at hnone
          cases hnone
        | cons y before =>
          obtain ⟨rfl, rfl⟩ := List.cons.inj h
          rw [walk_cons, hx] at hwalk
          exact ⟨before, name, after, dp, rfl, hwalk, hnone⟩

theorem lookup_notDir (h : (t.node ip).type ≠ T_DIR) : lookup t ip name = none := if_neg h

end Fold

/-- A tree whose directories name inodes that are there and have links; a removed directory still names itself. -/
structure WellFormed (t : Tree) : Prop where
  root : (t.node ROOTINO).type ≠ 0 ∧ (t.node ROOTINO).nlink ≠ 0
  entries : ∀ dp, (t.node dp).type = T_DIR → ∀ de ∈ (t.node dp).entries, de.inum ≠ 0 →
    (t.node de.inum.toNat).type ≠ 0 ∧ ((t.node de.inum.toNat).nlink ≠ 0 ∨ de.inum.toNat = dp)

/-- What `namex` returns is what the fold finds. -/
def Finds (parent : Bool) (t : Tree) (ip : Nat) (names : List (List UInt8)) (r : Option (Nat × List UInt8)) : Prop :=
  if parent then r = walkParent t ip names else r.map Prod.fst = walk t ip names

/-- The reference that a result is. -/
def result : Option Slot → Slot → Nat
  | none => fun _ => 0
  | some ip => hold (fun _ => 0) ip

/-- The inode of a result. -/
def State.found (s : State) (r : Option (Slot × List UInt8)) : Option (Nat × List UInt8) :=
  r.map fun x => ((s.icache x.1).inum, x.2)

section Finds

variable {parent : Bool} {t : Tree} {ip : Nat} {name : List UInt8} {names : List (List UInt8)}

/-- A name that is missing. -/
theorem finds_none (hnone : lookup t ip name = none) (hmore : parent = true → names ≠ []) :
    Finds parent t ip (name :: names) none := by
  unfold Finds
  cases parent with
  | true => rw [if_pos rfl, walkParent_cons (hmore rfl), hnone]; rfl
  | false => rw [if_neg nofun, walk_cons, hnone]; rfl

theorem finds_none_notDir (hdir : (t.node ip).type ≠ T_DIR) : Finds parent t ip (name :: names) none := by
  by_cases hlast : parent = true ∧ names = []
  · obtain ⟨rfl, rfl⟩ := hlast
    unfold Finds
    rw [if_pos rfl, walkParent_one, if_neg hdir]
  · exact finds_none (lookup_notDir hdir) fun hp hn => hlast ⟨hp, hn⟩

/-- A name that names `next`. -/
theorem finds_next {next : Nat} {r : Option (Nat × List UInt8)} (hnext : lookup t ip name = some next)
    (hmore : parent = true → names ≠ []) (h : Finds parent t next names r) : Finds parent t ip (name :: names) r := by
  unfold Finds at h ⊢
  cases parent with
  | true =>
    rw [if_pos rfl] at h ⊢
    rw [walkParent_cons (hmore rfl), hnext]
    exact h
  | false =>
    rw [if_neg nofun] at h ⊢
    rw [walk_cons, hnext]
    exact h

end Finds

/-- There are no two free entries in the inode cache. -/
def Full (s : State) : Prop := ∀ f g, (s.icache f).ref = 0 → (s.icache g).ref = 0 → f = g

/-- `r` is an outcome of `namex` that the fold allows: only a full cache stops it. -/
def Outcome (s₀ : State) (parent : Bool) (inum : Nat) (names : List (List UInt8))
    (o : Except Stop (Option (Slot × List UInt8) × State)) : Prop :=
  (o = .error (.panic .igetNoInodes) ∧ Full s₀) ∨
    ∃ r t, o = .ok (r, t) ∧ Held s₀ t (result (r.map Prod.fst)) none ∧ Finds parent s₀.tree inum names (t.found r)

section Loop

variable {s₀ : State}

/-- **The loop of `namex`**, with a reference to the inode it is at. -/
theorem namexFrom_finds (hwf : WellFormed s₀.tree) (parent : Bool) (fuel : Nat) :
    ∀ {s : State} {ip : Slot} {path : List UInt8}, Held s₀ s (hold (fun _ => 0) ip) none → path.length < fuel →
      (s.inode ip).type ≠ 0 → (s.inode ip).nlink ≠ 0 ∨ 0 < (s₀.icache ip).ref →
      Outcome s₀ parent (s.icache ip).inum (components path) (namexFrom parent fuel ip path s) := by
  induction fuel with
  | zero => exact fun _ hlen => absurd hlen (Nat.not_lt_zero _)
  | succ fuel ih =>
    intro s ip path h hlen htype hkeep
    have hpos := hold_pos (fun _ => 0) ip
    have href : 0 < (s.icache ip).ref := by
      have := h.ref ip
      omega
    rw [namexFrom]
    rcases skipelem_components path with ⟨hskip, hcomp⟩ | ⟨name, rest, hskip, hcomp, hlast⟩
    · rw [hskip, hcomp]
      dsimp only
      cases parent with
      | true =>
        obtain ⟨u, hu, hheld, -⟩ := h.iput hpos hkeep
        rw [drop_hold] at hheld
        refine .inr ⟨none, u, ?_, hheld, rfl⟩
        rw [if_pos rfl, hu]
        rfl
      | false => exact .inr ⟨some (ip, []), s, rfl, h, rfl⟩
    · have hlen' := skipelem_length hskip
      rw [hskip, hcomp]
      dsimp only
      obtain ⟨u, hu, hheld, hinum⟩ := h.ilock href htype
      have hnode : u.inode ip = s₀.tree.node (s.icache ip).inum := by
        unfold State.inode
        rw [hinum, hheld.tree]
      have hkeep' : (u.inode ip).nlink ≠ 0 ∨ 0 < (s₀.icache ip).ref := by
        rw [hnode, ← h.tree]
        exact hkeep
      rw [hu]
      show Outcome _ _ _ _ (if (u.inode ip).type ≠ T_DIR then _ else if parent = true ∧ rest = [] then _ else _)
      by_cases hdir : (u.inode ip).type = T_DIR
      · rw [if_neg (fun hn => hn hdir)]
        rw [hnode] at hdir
        by_cases hparent : parent = true ∧ rest = []
        · obtain ⟨v, hv, hheld', hinum'⟩ := hheld.iunlock (by have := hheld.ref ip; omega)
          obtain ⟨rfl, hrest⟩ := hparent
          refine .inr ⟨some (ip, name), v, ?_, hheld', ?_⟩
          · rw [if_pos ⟨rfl, hrest⟩, hv]
            rfl
          · show some ((v.icache ip).inum, name) = walkParent _ _ _
            rw [hlast.1 hrest, walkParent_one, if_pos hdir, hinum', hinum]
        · rw [if_neg hparent]
          have hmore : parent = true → components rest ≠ [] := fun hp hc => hparent ⟨hp, hlast.2 hc⟩
          cases hfind : (u.inode ip).entries.find? (fits name) with
          | none =>
            have hnone : lookup s₀.tree (s.icache ip).inum name = none := by
              unfold lookup
              rw [if_pos hdir, ← hnode, hfind]
              rfl
            obtain ⟨v, hv, hheld', -⟩ := hheld.iunlockput hpos hkeep'
            rw [drop_hold] at hheld'
            refine .inr ⟨none, v, ?_, hheld', ?_⟩
            · rw [hv]
              rfl
            · exact finds_none hnone hmore
          | some de =>
            have hnext : lookup s₀.tree (s.icache ip).inum name = some de.inum.toNat := by
              unfold lookup
              rw [if_pos hdir, ← hnode, hfind]
              rfl
            have hde : de.inum ≠ 0 := (of_decide_eq_true (List.find?_some hfind :)).1
            have hmem := List.mem_of_find?_eq_some hfind
            rw [hnode] at hmem
            obtain ⟨htype', hlinks⟩ := hwf.entries _ hdir de hmem hde
            have hrefu : ∀ jp, some ip = some jp → 0 < (u.icache jp).ref := by
              rintro jp ⟨⟩
              have := hheld.ref ip
              omega
            rcases hheld.iget hrefu de.inum.toNat with ⟨hfail, hfull⟩ | ⟨next, v, hv, hheld', hinum', hsame⟩
            · refine .inl ⟨?_, fun f g hf hg => ?_⟩
              · dsimp only
                rw [hfail]
                rfl
              · -- the only entry that `namex` took is `ip`
                have hone : ∀ f, (s₀.icache f).ref = 0 → f = ip := fun f hf => by
                  by_contra hne
                  refine hfull f ?_
                  rw [hheld.ref f, hf, hold_of_ne hne]
                rw [hone f hf, hone g hg]
            · have hnode' : v.inode ip = u.inode ip := by
                unfold State.inode
                rw [hsame ip (hrefu ip rfl), hheld'.tree, hheld.tree]
              obtain ⟨w, hw, hheld'', hinum''⟩ := hheld'.iunlockput (Nat.lt_of_lt_of_le hpos (le_hold _ next ip))
                (by rwa [hnode'])
              rw [hold_comm, drop_hold] at hheld''
              have hat : (w.icache next).inum = de.inum.toNat := (hinum'' next).trans hinum'
              have hnodew : w.inode next = s₀.tree.node de.inum.toNat := by
                unfold State.inode
                rw [hat, hheld''.tree]
              have hkeep'' : (w.inode next).nlink ≠ 0 ∨ 0 < (s₀.icache next).ref := by
                rw [hnodew]
                rcases hlinks with hlinks | hself
                · exact .inl hlinks
                · -- the directory names itself
                  have hpos' : ∀ jp, 0 < hold (hold (fun _ => 0) ip) next jp → 0 < (v.icache jp).ref := fun jp hj => by
                    rw [hheld'.ref jp]
                    omega
                  have hip : (v.icache ip).inum = (s.icache ip).inum := (hsame ip (hrefu ip rfl)).trans (hinum ip)
                  obtain rfl := hheld'.unique next ip (hpos' next (hold_pos _ next))
                    (hpos' ip (Nat.lt_of_lt_of_le hpos (le_hold _ next ip))) (by rw [hinum', hip, hself])
                  rwa [hself, ← hnode]
              have hrec := ih hheld'' (show rest.length < fuel by omega) (by rwa [hnodew]) hkeep''
              rw [hat] at hrec
              have heq : (do
                  let (next, s) ← Lookup.iget u de.inum.toNat
                  let s ← Lookup.iunlockput s ip
                  namexFrom parent fuel next rest s) = namexFrom parent fuel next rest w := by
                rw [hv]
                show (do let s ← Lookup.iunlockput v ip; namexFrom parent fuel next rest s) = _
                rw [hw]
                rfl
              dsimp only
              rw [heq]
              rcases hrec with hfull | ⟨r, t, hr, hheldr, hfinds⟩
              · exact .inl hfull
              · exact .inr ⟨r, t, hr, hheldr, finds_next hnext hmore hfinds⟩
      · rw [if_pos hdir]
        obtain ⟨v, hv, hheld', -⟩ := hheld.iunlockput hpos hkeep'
        rw [drop_hold] at hheld'
        refine .inr ⟨none, v, ?_, hheld', ?_⟩
        · rw [hv]
          rfl
        · rw [hnode] at hdir
          exact finds_none_notDir hdir

end Loop

/-! ## Names that match -/

/-- The string that bytes hold: up to the first zero. -/
def cstring (l : List UInt8) : List UInt8 := l.takeWhile (· != 0)

theorem cstring_take_succ (l : List UInt8) (n : Nat) :
    (cstring l).take (n + 1) = if l.headD 0 = 0 then [] else l.headD 0 :: (cstring l.tail).take n := by
  unfold cstring
  cases l with
  | nil => rfl
  | cons c l =>
    by_cases hc : c = 0
    · subst hc
      rfl
    · rw [List.takeWhile_cons_of_pos (p := (· != 0)) (bne_iff_ne.2 hc), List.take_succ_cons]
      exact (if_neg hc).symm

/-- What `strncmp` compares with a stored name are the first bytes of the two strings. -/
theorem strncmp_strncpy (n : Nat) : ∀ name old : List UInt8,
    strncmp name (strncpy old n) n = 0 ↔ (cstring name).take n = (cstring old).take n := by
  induction n with
  | zero => exact fun _ _ => ⟨fun _ => rfl, fun _ => rfl⟩
  | succ n ih =>
    intro name old
    rw [cstring_take_succ, cstring_take_succ, strncmp, strncpy, List.headD_cons, List.tail_cons]
    generalize name.headD 0 = a
    generalize old.headD 0 = b
    by_cases ha : a = 0
    · rw [if_neg fun h => h.1 ha, if_pos ha]
      subst ha
      by_cases hb : b = 0
      · simp [hb]
      · have : b.toNat ≠ 0 := fun h => hb (UInt8.toNat_inj.1 h)
        simp [hb, this]
    · by_cases hab : a = b
      · subst hab
        rw [if_pos ⟨ha, rfl⟩, if_neg ha, if_neg ha, if_neg ha, ih]
        simp
      · rw [if_neg fun h => hab h.2, if_neg ha]
        have hne : a.toNat ≠ b.toNat := fun h => hab (UInt8.toNat_inj.1 h)
        refine ⟨fun h => absurd h (by omega), fun h => ?_⟩
        by_cases hb : b = 0
        · rw [if_pos hb] at h
          cases h
        · rw [if_neg hb] at h
          exact absurd (List.cons.inj h).1 hab

/-! ## `namei` and `nameiparent` -/

/-- A process that calls `namei` while no lock is held: a tree, a cache and the current directory. -/
structure Caller where
  state : State
  cwd : Slot
  wellFormed : WellFormed state.tree
  idle : ∀ ip, (state.icache ip).busy = false
  cwd_ref : 0 < (state.icache cwd).ref
  cwd_type : (state.inode cwd).type ≠ 0
  unique : ∀ ip jp, 0 < (state.icache ip).ref → 0 < (state.icache jp).ref →
    (state.icache ip).inum = (state.icache jp).inum → ip = jp

/-- The inode that the lookup starts at. -/
def Caller.start (σ : Caller) (path : List UInt8) : Nat :=
  if path.headD 0 = slash then ROOTINO else (σ.state.icache σ.cwd).inum

section Caller

variable (σ : Caller) (path : List UInt8)

theorem Caller.held : Held σ.state σ.state (fun _ => 0) none :=
  ⟨rfl, fun _ => rfl, fun _ _ => rfl, σ.idle, σ.unique⟩

/-- **`namex`** is the fold. -/
theorem namex_finds (parent : Bool) :
    Outcome σ.state parent (σ.start path) (components path) (namex σ.state σ.cwd path parent) := by
  unfold namex Caller.start
  split
  · next hroot =>
    rcases σ.held.iget nofun ROOTINO with ⟨hfail, hfull⟩ | ⟨ip, t, ht, hheld, hinum, -⟩
    · exact .inl ⟨by rw [hfail]; rfl, fun f g hf => absurd hf (hfull f)⟩
    · have hnode : t.inode ip = σ.state.tree.node ROOTINO := by
        unfold State.inode
        rw [hinum, hheld.tree]
      have := namexFrom_finds σ.wellFormed parent (path.length + 1) hheld (Nat.lt_succ_self path.length)
        (by rw [hnode]; exact σ.wellFormed.root.1) (.inl (by rw [hnode]; exact σ.wellFormed.root.2))
      rw [hinum] at this
      rw [ht]
      exact this
  · have hheld : Held σ.state (idup σ.state σ.cwd) (hold (fun _ => 0) σ.cwd) none :=
      σ.held.set_same (fun jp hjp => hold_of_ne hjp) (fun _ _ => Iff.rfl) (by rw [hold_self]) (σ.idle σ.cwd) rfl σ.cwd_ref
    have hinum : ((idup σ.state σ.cwd).icache σ.cwd).inum = (σ.state.icache σ.cwd).inum := by
      unfold idup
      rw [setInode_self]
    have htype : ((idup σ.state σ.cwd).inode σ.cwd).type ≠ 0 := by
      unfold State.inode
      rw [hinum]
      exact σ.cwd_type
    have := namexFrom_finds σ.wellFormed parent (path.length + 1) hheld (Nat.lt_succ_self path.length) htype
      (.inr σ.cwd_ref)
    rw [hinum] at this
    exact this

/-- **`namei`**: the inode of the walk with one reference more; 0 where an object is no directory or a name is missing. -/
theorem namei_walk : (namei σ.state σ.cwd path = .error (.panic .igetNoInodes) ∧ Full σ.state) ∨
    ∃ r t, namei σ.state σ.cwd path = .ok (r, t) ∧ Held σ.state t (result r) none ∧
      (r.map fun ip => (t.icache ip).inum) = walk σ.state.tree (σ.start path) (components path) := by
  unfold namei
  rcases namex_finds σ path false with ⟨hfail, hfull⟩ | ⟨r, t, hr, hheld, hfinds⟩
  · exact .inl ⟨by rw [hfail]; rfl, hfull⟩
  · refine .inr ⟨r.map Prod.fst, t, by rw [hr]; rfl, hheld, ?_⟩
    rw [Finds, if_neg nofun] at hfinds
    rw [← hfinds]
    cases r <;> rfl

/-- **`nameiparent`**: the directory before the last name, and the name. -/
theorem nameiparent_walk : (nameiparent σ.state σ.cwd path = .error (.panic .igetNoInodes) ∧ Full σ.state) ∨
    ∃ r t, nameiparent σ.state σ.cwd path = .ok (r, t) ∧ Held σ.state t (result (r.map Prod.fst)) none ∧
      t.found r = walkParent σ.state.tree (σ.start path) (components path) := by
  rcases namex_finds σ path true with hfull | ⟨r, t, hr, hheld, hfinds⟩
  · exact .inl hfull
  · rw [Finds, if_pos rfl] at hfinds
    exact .inr ⟨r, t, hr, hheld, hfinds⟩

end Caller

/-- What `dirlink` stores. -/
theorem dirlink_stored {t t' : Tree} {dp inum : Nat} {old : List UInt8} (h : Names.dirlink t dp old inum = .ok (0, t')) :
    ∃ k, (t'.node dp).entries = put (t.node dp).entries k { inum := UInt16.ofNat inum, name := strncpy old DIRSIZ } := by
  cases hl : Names.dirlookup t dp old with
  | error e =>
    rw [Names.dirlink, hl] at h
    cases h
  | ok r =>
    cases r with
    | some ip =>
      rw [Names.dirlink, hl] at h
      cases h
    | none =>
      by_cases hfull : Names.Full t dp
      · rw [dirlink_full hl hfull] at h
        cases h
      · rw [dirlink_room inum hl hfull] at h
        obtain rfl := (Prod.mk.inj (Except.ok.inj h)).2
        exact ⟨_, congrArg Node.entries (set_node_self ..)⟩

/-- **Path lookup** is a walk over the components of the path, from the root or from the current directory; only a cache
without two free entries can stop it. No inode changes, no lock stays, and the one reference more is the one returned.
A component matches what `dirlink` stored for the names with the same first `DIRSIZ` bytes. -/
theorem namei_folds : (∀ (σ : Caller) (path : List UInt8),
    ((namei σ.state σ.cwd path = .error (.panic .igetNoInodes) ∧ Full σ.state) ∨
      ∃ r t, namei σ.state σ.cwd path = .ok (r, t) ∧ Held σ.state t (result r) none ∧
        (r.map fun ip => (t.icache ip).inum) = walk σ.state.tree (σ.start path) (components path) ∧
        (r = none ↔ ∃ before name after dp, components path = before ++ name :: after ∧
          walk σ.state.tree (σ.start path) before = some dp ∧ ((σ.state.tree.node dp).type ≠ T_DIR ∨
            ∀ de ∈ (σ.state.tree.node dp).entries, fits name de = false))) ∧
    ((nameiparent σ.state σ.cwd path = .error (.panic .igetNoInodes) ∧ Full σ.state) ∨
      ∃ r t, nameiparent σ.state σ.cwd path = .ok (r, t) ∧ Held σ.state t (result (r.map Prod.fst)) none ∧
        t.found r = walkParent σ.state.tree (σ.start path) (components path))) ∧
    ∀ (t t' : Tree) (dp inum : Nat) (old : List UInt8), Names.dirlink t dp old inum = .ok (0, t') →
      ∃ k de, (t'.node dp).entries = put (t.node dp).entries k de ∧ de.inum = UInt16.ofNat inum ∧
        ∀ name, namecmp name de.name = 0 ↔ (cstring name).take DIRSIZ = (cstring old).take DIRSIZ := by
  refine ⟨fun σ path => ⟨?_, nameiparent_walk σ path⟩, fun t t' dp inum old h => ?_⟩
  · rcases namei_walk σ path with hfull | ⟨r, t, hr, hheld, hwalk⟩
    · exact .inl hfull
    · refine .inr ⟨r, t, hr, hheld, hwalk, ?_⟩
      rw [← Option.map_eq_none_iff (f := fun ip => (t.icache ip).inum), hwalk, walk_eq_none]
      simp only [lookup_eq_none]
  · obtain ⟨k, hk⟩ := dirlink_stored h
    exact ⟨k, _, hk, rfl, fun name => strncmp_strncpy _ _ _⟩

/-- The root directory, a directory in it, and a file in that. -/
def nestedTree : Tree where
  ninodes := 200
  node i :=
    if i = 1 then ⟨T_DIR, 0, 0, 1, [{ inum := 1, name := strncpy dot DIRSIZ }, { inum := 1, name := strncpy dotdot DIRSIZ },
      { inum := 2, name := strncpy [97] DIRSIZ }]⟩
    else if i = 2 then ⟨T_DIR, 0, 0, 1, [{ inum := 2, name := strncpy dot DIRSIZ }, { inum := 1, name := strncpy dotdot DIRSIZ },
      { inum := 3, name := strncpy [98] DIRSIZ }]⟩
    else if i = 3 then ⟨T_FILE, 0, 0, 1, []⟩
    else Node.free

theorem nested_dir {dp : Nat} (h : (nestedTree.node dp).type = T_DIR) : dp = 1 ∨ dp = 2 := by
  unfold nestedTree at h
  dsimp only at h
  by_cases h₁ : dp = 1
  · exact .inl h₁
  by_cases h₂ : dp = 2
  · exact .inr h₂
  rw [if_neg h₁, if_neg h₂] at h
  by_cases h₃ : dp = 3
  · rw [if_pos h₃] at h
    exact absurd h (by decide)
  · rw [if_neg h₃] at h
    exact absurd h (by decide)

/-- The root is the current directory, and the rest of the cache is free. -/
def nested : Caller where
  state := {
    tree := nestedTree
    icache := fun ip => if ip.val = 0 then { inum := 1, ref := 1, busy := false, valid := true }
      else { inum := 0, ref := 0, busy := false, valid := false } }
  cwd := 0
  wellFormed := by
    refine ⟨by decide, fun dp hdp => ?_⟩
    obtain rfl | rfl := nested_dir hdp
    · decide
    · decide
  idle := fun ip => by
    dsimp only
    split <;> rfl
  cwd_ref := Nat.one_pos
  cwd_type := by decide
  unique := fun ip jp hip hjp _ => by
    have hzero : ∀ kp : Slot, 0 < (if kp.val = 0 then { inum := 1, ref := 1, busy := false, valid := true }
      else { inum := 0, ref := 0, busy := false, valid := false } : Cached).ref → kp.val = 0 := fun kp hk => by
      by_contra hne
      rw [if_neg hne] at hk
      exact absurd hk (Nat.lt_irrefl 0)
    exact Fin.ext ((hzero ip hip).trans (hzero jp hjp).symm)

theorem nested_room : ¬Full nested.state := fun h => absurd (h 1 2 rfl rfl) (by decide)

/-- The path `/a//b` leads to the file. -/
theorem namei_folds_nested : ∃ ip t, namei nested.state nested.cwd [47, 97, 47, 47, 98] = .ok (some ip, t) ∧
    (t.icache ip).inum = 3 ∧ Held nested.state t (result (some ip)) none := by
  have hwalk : walk nested.state.tree (nested.start [47, 97, 47, 47, 98]) (components [47, 97, 47, 47, 98]) = some 3 := by
    decide +kernel
  obtain ⟨r, t, hr, hheld, hfold, -⟩ := ((namei_folds.1 nested [47, 97, 47, 47, 98]).1).resolve_left fun h => nested_room h.2
  rw [hwalk] at hfold
  obtain ⟨ip, rfl, hinum⟩ := Option.map_eq_some_iff.1 hfold
  exact ⟨ip, t, hr, hinum, hheld⟩

/-! ## A full cache -/

section FullCache

/-- The root directory with one file, and files without names that are open. -/
def crowdedTree : Tree where
  ninodes := 200
  node i :=
    if i = 1 then ⟨T_DIR, 0, 0, 1, [{ inum := 1, name := strncpy dot DIRSIZ }, { inum := 1, name := strncpy dotdot DIRSIZ },
      { inum := 51, name := strncpy [102] DIRSIZ }]⟩
    else if i ≤ 50 then ⟨T_FILE, 0, 0, 0, []⟩
    else if i = 51 then ⟨T_FILE, 0, 0, 1, []⟩
    else Node.free

/-- Every entry of the cache is in use; the current directory is the root. -/
def crowded : Caller where
  state := { tree := crowdedTree, icache := fun ip => { inum := ip.val + 1, ref := 1, busy := false, valid := true } }
  cwd := 0
  wellFormed := by
    refine ⟨by decide, fun dp hdp de hde _ => ?_⟩
    by_cases hone : dp = 1
    · subst hone
      rcases List.mem_cons.1 hde with rfl | hde
      · decide
      · rcases List.mem_cons.1 hde with rfl | hde
        · decide
        · obtain rfl := List.mem_singleton.1 hde
          decide
    · -- only the root is a directory
      exfalso
      replace hdp : (crowdedTree.node dp).type = T_DIR := hdp
      unfold crowdedTree at hdp
      dsimp only at hdp
      rw [if_neg hone] at hdp
      by_cases hopen : dp ≤ 50
      · rw [if_pos hopen] at hdp
        exact absurd hdp (by decide)
      · rw [if_neg hopen] at hdp
        by_cases hfile : dp = 51
        · rw [if_pos hfile] at hdp
          exact absurd hdp (by decide)
        · rw [if_neg hfile] at hdp
          exact absurd hdp (by decide)
  idle := fun _ => rfl
  cwd_ref := Nat.one_pos
  cwd_type := by decide
  unique := fun _ _ _ _ h => Fin.ext (Nat.succ.inj h)

/-- Whether a call returns. -/
def returns {α : Type} : Except Stop α → Bool
  | .ok _ => true
  | .error _ => false

theorem crowded_stops : returns (namei crowded.state crowded.cwd [102]) = false := by decide +kernel

/-- With a full cache the file is not looked up: `iget` panics. -/
theorem not_namei_folds : ¬∀ (σ : Caller) (path : List UInt8), ∃ r t, namei σ.state σ.cwd path = .ok (r, t) ∧
    (r.map fun ip => (t.icache ip).inum) = walk σ.state.tree (σ.start path) (components path) := by
  intro h
  obtain ⟨r, t, hr, -⟩ := h crowded [102]
  have hstop := crowded_stops
  rw [hr] at hstop
  cases hstop

end FullCache

end NewXv6.Fs.Lookup
