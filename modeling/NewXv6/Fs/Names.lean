import NewXv6.Fs.Model
import NewXv6.Lib.Run
import Mathlib.Logic.Function.Basic

/-!
# Room in directories (`fs.c`, `sysfile.c`)

The calls that add and remove names, on inodes whose directories are lists of entries: an entry that is free has the inode
number 0, and `writei` fails behind `MAXFILE` blocks. There is always a free data block, and the inode cache is left out: an
inode without links may be freed at any time. (`NewXv6.Fs.Tree` and `NewXv6.Fs.Link` read such a tree off a disk.)
-/

namespace NewXv6.Fs.Names

open Lib

/-- An inode, with the entries of a directory. -/
structure Node where
  type : Int16
  major : Int16
  minor : Int16
  nlink : Int16
  entries : List Dirent

def Node.free : Node := ⟨0, 0, 0, 0, []⟩

/-- The inodes of the disk. -/
structure Tree where
  ninodes : Nat
  node : Nat → Node

namespace Tree

def set (t : Tree) (inum : Nat) (x : Node) : Tree := { t with node := Function.update t.node inum x }

/-- Add to `nlink`. -/
def addLink (t : Tree) (inum : Nat) (n : Int16) : Tree := t.set inum { t.node inum with nlink := (t.node inum).nlink + n }

def setEntries (t : Tree) (inum : Nat) (entries : List Dirent) : Tree := t.set inum { t.node inum with entries }

end Tree

/-! ## Directories -/

/-- Whether an entry matches a name. -/
def fits (name : List UInt8) (de : Dirent) : Bool := decide (de.inum ≠ 0 ∧ namecmp name de.name = 0)

def dirlookup (t : Tree) (dp : Nat) (name : List UInt8) : Except Panic (Option Nat) :=
  if (t.node dp).type ≠ T_DIR then .error .dirlookupNotDir
  else .ok (((t.node dp).entries.find? (fits name)).map fun de => de.inum.toNat)

/-- The index of the first empty entry, or behind the last. -/
def emptyAt (entries : List Dirent) : Nat := entries.findIdx fun de => decide (de.inum = 0)

/-- Write the entry `k`. -/
def put (entries : List Dirent) (k : Nat) (de : Dirent) : List Dirent := entries.take k ++ de :: entries.drop (k + 1)

def dirlink (t : Tree) (dp : Nat) (name : List UInt8) (inum : Nat) : Except Panic (Int × Tree) := do
  match ← dirlookup t dp name with
  | some _ => return (-1, t)
  | none =>
    let entries := (t.node dp).entries
    -- otherwise `writei` returns -1
    if DIRENT * emptyAt entries + DIRENT ≤ MAXFILE * BSIZE then
      return (0, t.setEntries dp (put entries (emptyAt entries) { inum := UInt16.ofNat inum, name := strncpy name DIRSIZ }))
    else .error .dirlink

/-! ## Paths -/

/-- The loop of `namex`; the first argument bounds the number of rounds. -/
def namexFrom (t : Tree) (nameiparent : Bool) : Nat → Nat → List UInt8 → Except Panic (Option (Nat × List UInt8))
  | 0, _, _ => .ok none
  | fuel + 1, ip, path =>
    match skipelem path with
    | none => .ok (if nameiparent then none else some (ip, []))
    | some (name, path) =>
      if (t.node ip).type = 0 then .error .ilockNoType
      else if (t.node ip).type ≠ T_DIR then .ok none
      else if nameiparent = true ∧ path = [] then .ok (some (ip, name))
      else do
        match ← dirlookup t ip name with
        | none => return none
        | some next => namexFrom t nameiparent fuel next path

def namex (t : Tree) (cwd : Nat) (path : List UInt8) (nameiparent : Bool) : Except Panic (Option (Nat × List UInt8)) :=
  namexFrom t nameiparent (path.length + 1) (if path.headD 0 = slash then ROOTINO else cwd) path

def namei (t : Tree) (cwd : Nat) (path : List UInt8) : Except Panic (Option (Nat × List UInt8)) := namex t cwd path false

def nameiparent (t : Tree) (cwd : Nat) (path : List UInt8) : Except Panic (Option (Nat × List UInt8)) :=
  namex t cwd path true

/-! ## System calls -/

def dot : List UInt8 := [46]

def dotdot : List UInt8 := [46, 46]

def ialloc (t : Tree) : Option Nat := (List.range' 1 (t.ninodes - 1)).find? fun inum => decide ((t.node inum).type = 0)

/-- The entries `"."` and `".."` of a new directory. -/
def dots (t : Tree) (dp ip : Nat) : Except Panic Tree := do
  let (r, t) ← dirlink (t.addLink dp 1) ip dot ip
  if r < 0 then .error .createDots
  else do
    let (r, t) ← dirlink t ip dotdot dp
    if r < 0 then .error .createDots else return t

def create (t : Tree) (cwd : Nat) (path : List UInt8) (type major minor : Int16) : Except Panic (Option Nat × Tree) := do
  match ← nameiparent t cwd path with
  | none => return (none, t)
  | some (dp, name) =>
    match ← dirlookup t dp name with
    | some ip =>
      if (t.node ip).type = 0 then .error .ilockNoType
      else if type = T_FILE ∧ (t.node ip).type = T_FILE then return (some ip, t)
      else return (none, t)
    | none =>
      match ialloc t with
      | none => .error .iallocNoInodes
      | some ip =>
        let t := t.set ip { type, major, minor, nlink := 1, entries := [] }
        let t ← if type = T_DIR then dots t dp ip else .ok t
        let (r, t) ← dirlink t dp name ip
        if r < 0 then .error .createDirlink else return (some ip, t)

/-- The calls, with their paths; `fd` is what `fdalloc` finds. -/
inductive Call
  | openCreate (path : List UInt8) (fd : Option Nat)
  | mkdir (path : List UInt8)
  | mknod (path : List UInt8) (major minor : Int16)
  | link (old new : List UInt8)
  | unlink (path : List UInt8)

/-- `bad` of `sys_link`. -/
def linkBad (t : Tree) (ip : Nat) : Int × Tree := (-1, t.addLink ip (-1))

def sysLink (t : Tree) (cwd : Nat) (old new : List UInt8) : Except Panic (Int × Tree) := do
  match ← namei t cwd old with
  | none => return (-1, t)
  | some (ip, _) =>
    if (t.node ip).type = 0 then .error .ilockNoType
    else if (t.node ip).type = T_DIR then return (-1, t)
    else do
      let t := t.addLink ip 1
      match ← nameiparent t cwd new with
      | none => return linkBad t ip
      | some (dp, name) =>
        let (r, t) ← dirlink t dp name ip
        if r < 0 then return linkBad t ip else return (0, t)

def isdirempty (x : Node) : Bool := (x.entries.drop 2).all fun de => decide (de.inum = 0)

def sysUnlink (t : Tree) (cwd : Nat) (path : List UInt8) : Except Panic (Int × Tree) := do
  match ← nameiparent t cwd path with
  | none => return (-1, t)
  | some (dp, name) =>
    if namecmp name dot = 0 ∨ namecmp name dotdot = 0 then return (-1, t)
    else
      match ← dirlookup t dp name with
      | none => return (-1, t)
      | some ip =>
        if (t.node ip).type = 0 then .error .ilockNoType
        else if (t.node ip).nlink < 1 then .error .unlinkNlink
        else if (t.node ip).type = T_DIR ∧ !isdirempty (t.node ip) then return (-1, t)
        else
          let entries := (t.node dp).entries
          let t' := t.setEntries dp (put entries (entries.findIdx (fits name))
            { inum := 0, name := List.replicate DIRSIZ 0 })
          let t' := if (t.node ip).type = T_DIR then t'.addLink dp (-1) else t'
          return (0, t'.addLink ip (-1))

/-- A system call of a process in the directory `cwd`. -/
def call (t : Tree) (cwd : Nat) : Call → Except Panic (Int × Tree)
  | .openCreate path fd => do
    match ← create t cwd path T_FILE 0 0 with
    | (none, t) => return (-1, t)
    | (some _, t) => return (match fd with | none => -1 | some fd => fd, t)
  | .mkdir path => do
    match ← create t cwd path T_DIR 0 0 with
    | (none, t) => return (-1, t)
    | (some _, t) => return (0, t)
  | .mknod path major minor => do
    match ← create t cwd path T_DEV major minor with
    | (none, t) => return (-1, t)
    | (some _, t) => return (0, t)
  | .link old new => sysLink t cwd old new
  | .unlink path => sysUnlink t cwd path

/-- A call, or an inode without links is freed. -/
inductive Act
  | call (cwd : Nat) (c : Call)
  | free (inum : Nat)

def step (t : Tree) : Act → Option Tree
  | .call cwd c =>
    match call t cwd c with
    | .ok (_, t) => some t
    | .error _ => none
  | .free inum => if (t.node inum).nlink = 0 then some (t.set inum .free) else none

/-! ## The panics of `dirlink` and `create` -/

/-- The panics of `dirlink` and `create`. -/
def DirPanic (p : Panic) : Prop := p = .dirlinkRead ∨ p = .dirlink ∨ p = .createDots ∨ p = .createDirlink

/-- There is no empty entry before the limit for files. -/
def Full (t : Tree) (dp : Nat) : Prop := MAXFILE * BSIZE < DIRENT * emptyAt (t.node dp).entries + DIRENT

/-- The directory and the name that a call adds. -/
def target (t : Tree) (cwd : Nat) : Call → Option (Nat × List UInt8)
  | .openCreate path _ | .mkdir path | .mknod path _ _ => (nameiparent t cwd path).toOption.join
  | .link old new =>
    match namei t cwd old with
    | .ok (some (ip, _)) =>
      if (t.node ip).type = 0 ∨ (t.node ip).type = T_DIR then none else (nameiparent t cwd new).toOption.join
    | _ => none
  | .unlink _ => none

/-- The name is not there, and there is no room for it. -/
def NoRoom (t : Tree) (cwd : Nat) (c : Call) : Prop :=
  ∃ dp name, target t cwd c = some (dp, name) ∧ dirlookup t dp name = .ok none ∧ Full t dp

/-- What is asked of a call: no panic of `dirlink` or `create`, and where there is no room it fails and changes nothing. -/
def FullHandled (t : Tree) (cwd : Nat) (c : Call) : Prop :=
  (∀ p, call t cwd c = .error p → ¬DirPanic p) ∧ (NoRoom t cwd c → call t cwd c = .ok (-1, t))

section

variable {t u : Tree} {cwd dp ip inum : Nat} {name path : List UInt8} {type major minor : Int16} {p : Panic}

theorem dirlookup_error (h : dirlookup t dp name = .error p) : ¬DirPanic p := by
  unfold dirlookup at h
  split at h
  · cases h
    unfold DirPanic
    simp
  · cases h

/-- A directory that has the same entries in two trees. -/
theorem dirlookup_congr (htype : (u.node dp).type = (t.node dp).type) (hentries : (u.node dp).entries = (t.node dp).entries)
    (name : List UInt8) : dirlookup u dp name = dirlookup t dp name := by
  unfold dirlookup
  rw [htype, hentries]

theorem full_congr (hentries : (u.node dp).entries = (t.node dp).entries) : Full u dp ↔ Full t dp := by
  unfold Full
  rw [hentries]

/-- `dirlink` of a name that is there. -/
theorem dirlink_found (h : dirlookup t dp name = .ok (some ip)) : dirlink t dp name inum = .ok (-1, t) := by
  rw [dirlink, h]
  rfl

theorem dirlink_error (h : dirlookup t dp name = .error p) : dirlink t dp name inum = .error p := by
  rw [dirlink, h]
  rfl

/-- `dirlink` of a new name panics where the directory is full. -/
theorem dirlink_full (h : dirlookup t dp name = .ok none) (hfull : Full t dp) :
    dirlink t dp name inum = .error .dirlink := by
  rw [dirlink, h]
  exact if_neg (Nat.not_le_of_lt hfull)

theorem dirlink_room (inum : Nat) (h : dirlookup t dp name = .ok none) (hroom : ¬Full t dp) :
    dirlink t dp name inum = .ok (0, t.setEntries dp (put (t.node dp).entries (emptyAt (t.node dp).entries)
      { inum := UInt16.ofNat inum, name := strncpy name DIRSIZ })) := by
  rw [dirlink, h]
  exact if_pos (Nat.le_of_not_lt hroom)

theorem set_node_self (t : Tree) (inum : Nat) (x : Node) : (t.set inum x).node inum = x := Function.update_self ..

theorem set_node_ne (t : Tree) {inum l : Nat} (x : Node) (h : l ≠ inum) : (t.set inum x).node l = t.node l :=
  Function.update_of_ne h ..

/-- The entries `"."` and `".."` of a new directory are always made. -/
theorem dots_ok (hip : (t.node ip).type = T_DIR) (hempty : (t.node ip).entries = []) (hne : dp ≠ ip) :
    ∃ u, dots t dp ip = .ok u ∧ (u.node dp).type = (t.node dp).type ∧ (u.node dp).entries = (t.node dp).entries := by
  have hnode : ((t.addLink dp 1).node ip) = t.node ip := set_node_ne t _ hne.symm
  have hlook : dirlookup (t.addLink dp 1) ip dot = .ok none := by
    unfold dirlookup
    rw [hnode, hip, hempty]
    rfl
  have hroom : ¬Full (t.addLink dp 1) ip := by
    unfold Full
    rw [hnode, hempty]
    decide
  have hfirst := dirlink_room ip hlook hroom
  rw [hnode, hempty] at hfirst
  generalize ht₁ : (t.addLink dp 1).setEntries ip _ = t₁ at hfirst
  have hentries : (t₁.node ip).entries = [{ inum := UInt16.ofNat ip, name := strncpy dot DIRSIZ }] := by
    rw [← ht₁]
    exact congrArg Node.entries (set_node_self _ ip _)
  have htype : (t₁.node ip).type = T_DIR := by
    rw [← ht₁]
    refine (congrArg Node.type (set_node_self _ ip _)).trans ?_
    show ((t.addLink dp 1).node ip).type = T_DIR
    rw [hnode, hip]
  have hlook' : dirlookup t₁ ip dotdot = .ok none := by
    have hfits : fits dotdot { inum := UInt16.ofNat ip, name := strncpy dot DIRSIZ } = false := by
      have hcmp : namecmp dotdot (strncpy dot DIRSIZ) ≠ 0 := by decide
      exact decide_eq_false fun h => hcmp h.2
    unfold dirlookup
    rw [htype, hentries, List.find?_cons_of_neg (by rw [hfits]; decide)]
    rfl
  have hroom' : ¬Full t₁ ip := by
    have hle : emptyAt (t₁.node ip).entries ≤ 1 := by
      rw [hentries]
      exact List.findIdx_le_length
    unfold Full
    have hlimit : MAXFILE * BSIZE = 71680 := by decide
    rw [hlimit]
    simp only [DIRENT]
    omega
  have hsecond := dirlink_room dp hlook' hroom'
  have hdp : ∀ x y, ((((t.addLink dp 1).set ip x).set ip y).node dp) = (t.addLink dp 1).node dp := fun x y =>
    (set_node_ne _ y hne).trans (set_node_ne _ x hne)
  have hself : (t.addLink dp 1).node dp = { t.node dp with nlink := (t.node dp).nlink + 1 } := set_node_self t dp _
  refine ⟨t₁.setEntries ip (put (t₁.node ip).entries (emptyAt (t₁.node ip).entries)
    { inum := UInt16.ofNat dp, name := strncpy dotdot DIRSIZ }), ?_, ?_, ?_⟩
  · unfold dots
    rw [hfirst]
    show (dirlink t₁ ip dotdot dp >>= _) = _
    rw [hsecond]
    rfl
  · subst ht₁
    refine (congrArg Node.type (hdp _ _)).trans ?_
    rw [hself]
  · subst ht₁
    refine (congrArg Node.entries (hdp _ _)).trans ?_
    rw [hself]

theorem namexFrom_error (parent : Bool) (fuel : Nat) : ∀ {ip : Nat} {path : List UInt8},
    namexFrom t parent fuel ip path = .error p → ¬DirPanic p := by
  induction fuel with
  | zero => exact nofun
  | succ fuel ih =>
    intro ip path h
    rw [namexFrom] at h
    split at h
    · cases h
    · next name rest _ =>
      split at h
      · cases h
        unfold DirPanic
        simp
      · split at h
        · cases h
        · split at h
          · cases h
          · cases hlook : dirlookup t ip name with
            | error e =>
              rw [hlook] at h
              cases h
              exact dirlookup_error hlook
            | ok r =>
              rw [hlook] at h
              cases r with
              | none => cases h
              | some next => exact ih h

theorem nameiparent_error (h : nameiparent t cwd path = .error p) : ¬DirPanic p := namexFrom_error _ _ h

/-- An inode that `ialloc` finds is free. -/
theorem ialloc_free (h : ialloc t = some ip) : (t.node ip).type = 0 := of_decide_eq_true (List.find?_some h :)

/-- What `create` does up to its last `dirlink`: the parent has the entries it had. -/
theorem create_new (type major minor : Int16) (hpath : nameiparent t cwd path = .ok (some (dp, name)))
    (hlook : dirlookup t dp name = .ok none)
    (halloc : ialloc t = some ip) : ∃ u, dirlookup u dp name = .ok none ∧ (Full u dp ↔ Full t dp) ∧
      create t cwd path type major minor = (do
        let (r, u) ← dirlink u dp name ip
        if r < 0 then .error .createDirlink else return (some ip, u)) := by
  have hdir : (t.node dp).type = T_DIR := by
    unfold dirlookup at hlook
    split at hlook
    · cases hlook
    · next h => exact Decidable.not_not.1 h
  have hne : dp ≠ ip := by
    rintro rfl
    have := hdir.symm.trans (ialloc_free halloc)
    exact absurd this (by decide)
  have hother : ∀ x, (t.set ip x).node dp = t.node dp := fun x => set_node_ne t x hne
  have hcreate : ∀ u, (if type = T_DIR then dots (t.set ip ⟨type, major, minor, 1, []⟩) dp ip
      else .ok (t.set ip ⟨type, major, minor, 1, []⟩)) = .ok u →
      create t cwd path type major minor = (do
        let (r, u) ← dirlink u dp name ip
        if r < 0 then .error .createDirlink else return (some ip, u)) := by
    intro u hu
    rw [create, hpath]
    show (dirlookup t dp name >>= _) = _
    rw [hlook]
    show (match ialloc t with | none => _ | some ip => _) = _
    rw [halloc]
    dsimp only
    by_cases htype : type = T_DIR
    · rw [if_pos htype] at hu ⊢
      rw [hu]
      rfl
    · rw [if_neg htype] at hu ⊢
      cases hu
      rfl
  by_cases htype : type = T_DIR
  · obtain ⟨u, hu, hsame, hentries⟩ := @dots_ok (t.set ip ⟨type, major, minor, 1, []⟩) dp ip
      ((congrArg Node.type (set_node_self t ip _)).trans htype) (congrArg Node.entries (set_node_self t ip _)) hne
    rw [hother] at hsame hentries
    exact ⟨u, (dirlookup_congr hsame hentries name).trans hlook, full_congr hentries, hcreate u ((if_pos htype).trans hu)⟩
  · refine ⟨_, ?_, ?_, hcreate _ (if_neg htype)⟩
    · exact (dirlookup_congr (by rw [hother]) (by rw [hother]) name).trans hlook
    · exact full_congr (by rw [hother])

/-- `create` panics for a new name in a full directory. -/
theorem create_full (type major minor : Int16) (hpath : nameiparent t cwd path = .ok (some (dp, name)))
    (hlook : dirlookup t dp name = .ok none)
    (hfull : Full t dp) : ∃ p, create t cwd path type major minor = .error p := by
  cases halloc : ialloc t with
  | none =>
    refine ⟨.iallocNoInodes, ?_⟩
    rw [create, hpath]
    show (dirlookup t dp name >>= _) = _
    rw [hlook]
    show (match ialloc t with | none => _ | some ip => _) = _
    rw [halloc]
  | some ip =>
    obtain ⟨u, hu, hiff, hcreate⟩ := create_new type major minor hpath hlook halloc
    refine ⟨.dirlink, ?_⟩
    rw [hcreate, dirlink_full hu (hiff.2 hfull)]
    rfl

/-- Where there is room, `create` does not reach the panics. -/
theorem create_room (hroom : ∀ dp name, nameiparent t cwd path = .ok (some (dp, name)) → dirlookup t dp name = .ok none →
    ¬Full t dp) (h : create t cwd path type major minor = .error p) : ¬DirPanic p := by
  cases hpath : nameiparent t cwd path with
  | error e =>
    rw [create, hpath] at h
    cases h
    exact nameiparent_error hpath
  | ok r =>
    cases r with
    | none =>
      rw [create, hpath] at h
      cases h
    | some r =>
      obtain ⟨dp, name⟩ := r
      cases hlook : dirlookup t dp name with
      | error e =>
        rw [create, hpath] at h
        have h' : (dirlookup t dp name >>= _) = Except.error p := h
        rw [hlook] at h'
        cases h'
        exact dirlookup_error hlook
      | ok r =>
        cases r with
        | some ip =>
          rw [create, hpath] at h
          have h' : (dirlookup t dp name >>= _) = Except.error p := h
          rw [hlook] at h'
          have h'' : (if (t.node ip).type = 0 then Except.error Panic.ilockNoType
            else if type = T_FILE ∧ (t.node ip).type = T_FILE then Except.ok (some ip, t)
            else Except.ok (none, t)) = .error p := h'
          split at h''
          · cases h''
            unfold DirPanic
            simp
          · split at h'' <;> cases h''
        | none =>
          cases halloc : ialloc t with
          | none =>
            rw [create, hpath] at h
            have h' : (dirlookup t dp name >>= _) = Except.error p := h
            rw [hlook] at h'
            have h'' : (match ialloc t with | none => Except.error Panic.iallocNoInodes | some ip => _) = .error p := h'
            rw [halloc] at h''
            cases h''
            unfold DirPanic
            simp
          | some ip =>
            obtain ⟨u, hu, hiff, hcreate⟩ := create_new type major minor hpath hlook halloc
            rw [hcreate, dirlink_room _ hu (fun hf => hroom dp name hpath hlook (hiff.1 hf))] at h
            cases h

/-- Links are neither a type nor entries. -/
theorem addLink_node (l : Nat) (n : Int16) (ip : Nat) : ((t.addLink l n).node ip).type = (t.node ip).type ∧
    ((t.addLink l n).node ip).entries = (t.node ip).entries := by
  by_cases hip : ip = l
  · subst hip
    have hself : (t.addLink ip n).node ip = { t.node ip with nlink := (t.node ip).nlink + n } := set_node_self t ip _
    rw [hself]
    exact ⟨rfl, rfl⟩
  · have hother : (t.addLink l n).node ip = t.node ip := set_node_ne t _ hip
    rw [hother]
    exact ⟨rfl, rfl⟩

theorem namexFrom_addLink (l : Nat) (n : Int16) (parent : Bool) (fuel : Nat) : ∀ (ip : Nat) (path : List UInt8),
    namexFrom (t.addLink l n) parent fuel ip path = namexFrom t parent fuel ip path := by
  induction fuel with
  | zero => exact fun _ _ => rfl
  | succ fuel ih =>
    intro ip path
    rw [namexFrom, namexFrom, (addLink_node l n ip).1]
    simp only [dirlookup_congr (addLink_node l n ip).1 (addLink_node l n ip).2, ih]

/-- `link` from the parent of the new name on. -/
theorem link_old {old new x : List UInt8} (hold : namei t cwd old = .ok (some (ip, x))) (hfree : (t.node ip).type ≠ 0)
    (hdir : (t.node ip).type ≠ T_DIR) : sysLink t cwd old new = (do
      match ← nameiparent t cwd new with
      | none => return linkBad (t.addLink ip 1) ip
      | some (dp, name) =>
        let (r, u) ← dirlink (t.addLink ip 1) dp name ip
        if r < 0 then return linkBad u ip else return (0, u)) := by
  have hnew : nameiparent (t.addLink ip 1) cwd new = nameiparent t cwd new := namexFrom_addLink ip 1 true _ _ _
  rw [sysLink, hold]
  show (if (t.node ip).type = 0 then _ else if (t.node ip).type = T_DIR then _ else _) = _
  rw [if_neg hfree, if_neg hdir]
  dsimp only
  rw [hnew]

theorem lookup_addLink (h : dirlookup t dp name = .ok none) (l : Nat) (n : Int16) :
    dirlookup (t.addLink l n) dp name = .ok none :=
  (dirlookup_congr (addLink_node l n dp).1 (addLink_node l n dp).2 name).trans h

/-- `link` panics for a new name in a full directory. -/
theorem link_full {old new x : List UInt8} (hold : namei t cwd old = .ok (some (ip, x))) (hfree : (t.node ip).type ≠ 0)
    (hdir : (t.node ip).type ≠ T_DIR) (hnew : nameiparent t cwd new = .ok (some (dp, name)))
    (hlook : dirlookup t dp name = .ok none) (hfull : Full t dp) : sysLink t cwd old new = .error .dirlink := by
  rw [link_old hold hfree hdir, hnew]
  show (dirlink (t.addLink ip 1) dp name ip >>= _) = _
  rw [dirlink_full (lookup_addLink hlook ip 1) ((full_congr (addLink_node ip 1 dp).2).2 hfull)]
  rfl

/-- Where there is room, `link` does not reach the panics. -/
theorem link_room {old new : List UInt8} (hroom : ∀ ip x, namei t cwd old = .ok (some (ip, x)) → (t.node ip).type ≠ 0 →
    (t.node ip).type ≠ T_DIR → ∀ dp name, nameiparent t cwd new = .ok (some (dp, name)) →
    dirlookup t dp name = .ok none → ¬Full t dp) (h : sysLink t cwd old new = .error p) : ¬DirPanic p := by
  cases hold : namei t cwd old with
  | error e =>
    rw [sysLink, hold] at h
    cases h
    exact namexFrom_error _ _ hold
  | ok r =>
    cases r with
    | none =>
      rw [sysLink, hold] at h
      cases h
    | some r =>
      obtain ⟨ip, x⟩ := r
      by_cases hfree : (t.node ip).type = 0
      · rw [sysLink, hold] at h
        have h' := (if_pos hfree).symm.trans h
        cases h'
        unfold DirPanic
        simp
      · by_cases hdir : (t.node ip).type = T_DIR
        · rw [sysLink, hold] at h
          have h' := (if_pos hdir).symm.trans ((if_neg hfree).symm.trans h)
          cases h'
        · rw [link_old hold hfree hdir] at h
          cases hnew : nameiparent t cwd new with
          | error e =>
            rw [hnew] at h
            cases h
            exact nameiparent_error hnew
          | ok r =>
            rw [hnew] at h
            cases r with
            | none => cases h
            | some r =>
              obtain ⟨dp, name⟩ := r
              have h' : (dirlink (t.addLink ip 1) dp name ip >>= _) = Except.error p := h
              cases hlook : dirlookup t dp name with
              | error e =>
                have hlook' := (dirlookup_congr (addLink_node ip 1 dp).1 (addLink_node ip 1 dp).2 name).trans hlook
                rw [dirlink_error hlook'] at h'
                cases h'
                exact dirlookup_error hlook
              | ok r =>
                cases r with
                | some jp =>
                  have hlook' := (dirlookup_congr (addLink_node ip 1 dp).1 (addLink_node ip 1 dp).2 name).trans hlook
                  rw [dirlink_found hlook'] at h'
                  cases h'
                | none =>
                  have hfull := hroom ip x hold hfree hdir dp name hnew hlook
                  rw [dirlink_room _ (lookup_addLink hlook ip 1) fun hf =>
                    hfull ((full_congr (addLink_node ip 1 dp).2).1 hf)] at h'
                  cases h'

/-- `unlink` calls neither `dirlink` nor `create`. -/
theorem unlink_error (h : sysUnlink t cwd path = .error p) : ¬DirPanic p := by
  unfold sysUnlink at h
  cases hpath : nameiparent t cwd path with
  | error e =>
    rw [hpath] at h
    cases h
    exact nameiparent_error hpath
  | ok r =>
    rw [hpath] at h
    cases r with
    | none => cases h
    | some r =>
      obtain ⟨dp, name⟩ := r
      dsimp only [bind, Except.bind] at h
      split at h
      · cases h
      · cases hlook : dirlookup t dp name with
        | error e =>
          rw [hlook] at h
          cases h
          exact dirlookup_error hlook
        | ok r =>
          rw [hlook] at h
          cases r with
          | none => cases h
          | some ip =>
            dsimp only at h
            split at h
            · cases h
              unfold DirPanic
              simp
            · split at h
              · cases h
                unfold DirPanic
                simp
              · split at h <;> cases h

/-- A call fails where `create` does. -/
theorem bind_error {α β : Type} {x : Except Panic α} {f : α → Except Panic β} (hf : ∀ a, ∃ b, f a = .ok b) (p : Panic) :
    (x >>= f) = .error p ↔ x = .error p := by
  cases x with
  | error e => exact ⟨fun h => by cases h; rfl, fun h => by cases h; rfl⟩
  | ok a =>
    obtain ⟨b, hb⟩ := hf a
    refine ⟨fun h => ?_, nofun⟩
    have : f a = .error p := h
    rw [hb] at this
    cases this

/-- What `target` is of a call that creates. -/
theorem join_target {r : Except Panic (Option (Nat × List UInt8))} {x : Nat × List UInt8} :
    r.toOption.join = some x ↔ r = .ok (some x) := by
  cases r with
  | error e => exact ⟨nofun, nofun⟩
  | ok r =>
    constructor
    · intro h
      exact congrArg Except.ok h
    · intro h
      cases h
      rfl

/-- A call that creates, by what `create` returns. -/
theorem create_handled {c : Call} (path : List UInt8) (type major minor : Int16)
    (htarget : target t cwd c = (nameiparent t cwd path).toOption.join)
    (herror : ∀ p, call t cwd c = .error p ↔ create t cwd path type major minor = .error p) :
    FullHandled t cwd c ↔ ¬NoRoom t cwd c := by
  constructor
  · rintro ⟨-, hsame⟩ hno
    obtain ⟨dp, name, hpath, hlook, hfull⟩ := hno
    rw [htarget] at hpath
    obtain ⟨p, hp⟩ := create_full type major minor (join_target.1 hpath) hlook hfull
    have := hsame ⟨dp, name, htarget.trans hpath, hlook, hfull⟩
    rw [(herror p).2 hp] at this
    cases this
  · intro hno
    refine ⟨fun p hp => create_room (fun dp name hpath hlook hfull => ?_) ((herror p).1 hp), fun h => absurd h hno⟩
    exact hno ⟨dp, name, htarget.trans (join_target.2 hpath), hlook, hfull⟩

/-- **A call is handled where the directory has room for its name**, and panics where it has not. -/
theorem call_handled (t : Tree) (cwd : Nat) (c : Call) : FullHandled t cwd c ↔ ¬NoRoom t cwd c := by
  cases c with
  | openCreate path fd =>
    refine create_handled path T_FILE 0 0 rfl fun p => bind_error (fun r => ?_) p
    rcases r with ⟨_ | ip, u⟩
    · exact ⟨_, rfl⟩
    · exact ⟨_, rfl⟩
  | mkdir path =>
    refine create_handled path T_DIR 0 0 rfl fun p => bind_error (fun r => ?_) p
    rcases r with ⟨_ | ip, u⟩
    · exact ⟨_, rfl⟩
    · exact ⟨_, rfl⟩
  | mknod path major minor =>
    refine create_handled path T_DEV major minor rfl fun p => bind_error (fun r => ?_) p
    rcases r with ⟨_ | ip, u⟩
    · exact ⟨_, rfl⟩
    · exact ⟨_, rfl⟩
  | link old new =>
    have htarget : ∀ dp name, target t cwd (.link old new) = some (dp, name) ↔ ∃ ip x, namei t cwd old = .ok (some (ip, x)) ∧
        (t.node ip).type ≠ 0 ∧ (t.node ip).type ≠ T_DIR ∧ nameiparent t cwd new = .ok (some (dp, name)) := by
      intro dp name
      simp only [target]
      constructor
      · intro h
        split at h
        · next ip x hold =>
          split at h
          · cases h
          · next htype => exact ⟨ip, x, hold, fun h0 => htype (.inl h0), fun h1 => htype (.inr h1), join_target.1 h⟩
        · cases h
      · rintro ⟨ip, x, hold, hfree, hdir, hnew⟩
        rw [hold]
        exact (if_neg fun h => h.elim hfree hdir).trans (join_target.2 hnew)
    constructor
    · rintro ⟨-, hsame⟩ hno
      have hret := hsame hno
      obtain ⟨dp, name, hpath, hlook, hfull⟩ := hno
      obtain ⟨ip, x, hold, hfree, hdir, hnew⟩ := (htarget dp name).1 hpath
      have hpanic : call t cwd (.link old new) = .error .dirlink := link_full hold hfree hdir hnew hlook hfull
      rw [hpanic] at hret
      cases hret
    · intro hno
      refine ⟨fun p hp => link_room (fun ip x hold hfree hdir dp name hnew hlook hfull => ?_) hp, fun h => absurd h hno⟩
      exact hno ⟨dp, name, (htarget dp name).2 ⟨ip, x, hold, hfree, hdir, hnew⟩, hlook, hfull⟩
  | unlink path =>
    have hno : ¬NoRoom t cwd (.unlink path) := fun ⟨_, _, h, _⟩ => nomatch h
    exact ⟨fun _ => hno, fun _ => ⟨fun p hp => unlink_error hp, fun h => absurd h hno⟩⟩

end

/-! ## A directory that is filled -/

/-- `"f"`. -/
def fname : List UInt8 := [102]

/-- A root directory with its two entries, and no other inode. -/
def start : Tree where
  ninodes := 200
  node := Function.update (fun _ => .free) ROOTINO
    ⟨T_DIR, 0, 0, 1, [{ inum := 1, name := strncpy dot DIRSIZ }, { inum := 1, name := strncpy dotdot DIRSIZ }]⟩

/-- The name of the link `k`. -/
def nameOf (k : Nat) : List UInt8 := [UInt8.ofNat (48 + k % 200), UInt8.ofNat (48 + k / 200)]

def linkEntry (k : Nat) : Dirent := { inum := 2, name := strncpy (nameOf k) DIRSIZ }

/-- The root directory has the file `"f"` and `k` links to it. -/
structure Holding (k : Nat) (t : Tree) : Prop where
  dir : (t.node ROOTINO).type = T_DIR
  entries : (t.node ROOTINO).entries = { inum := 1, name := strncpy dot DIRSIZ } ::
    { inum := 1, name := strncpy dotdot DIRSIZ } :: { inum := 2, name := strncpy fname DIRSIZ } ::
      (List.range k).map linkEntry
  file : (t.node 2).type = T_FILE

section

variable {t : Tree} {k j : Nat}

theorem nameOf_bytes (hk : k < 5000) : ∃ a b, nameOf k = [a, b] ∧ a.toNat = 48 + k % 200 ∧ b.toNat = 48 + k / 200 := by
  refine ⟨_, _, rfl, ?_, ?_⟩
  · rw [UInt8.toNat_ofNat']
    omega
  · rw [UInt8.toNat_ofNat']
    omega

theorem ne_of_toNat {a b : UInt8} (h : a.toNat ≠ b.toNat) : a ≠ b := fun he => h (congrArg UInt8.toNat he)

theorem skipelem_two {a b : UInt8} (ha : a ≠ slash) (hb : b ≠ slash) : skipelem [a, b] = some ([a, b], []) := by
  have ha' : (a == slash) = false := beq_false_of_ne ha
  have hb' : (b == slash) = false := beq_false_of_ne hb
  simp [skipelem, List.dropWhile, List.takeWhile, bne, ha', hb', DIRSIZ]

/-- Names of two bytes match if they are the same. -/
theorem namecmp_two {a b x y : UInt8} (ha : a ≠ 0) (hb : b ≠ 0) (hx : x ≠ 0) (hy : y ≠ 0)
    (h : namecmp [a, b] (strncpy [x, y] DIRSIZ) = 0) : a = x ∧ b = y := by
  by_cases hax : a = x
  · subst hax
    by_cases hby : b = y
    · exact ⟨rfl, hby⟩
    · simp [namecmp, strncmp, strncpy, ha, hb, hy, hby] at h
      exact absurd (UInt8.toNat_inj.1 (by omega)) hby
  · simp [namecmp, strncmp, strncpy, ha, hx, hax] at h
    exact absurd (UInt8.toNat_inj.1 (by omega)) hax

/-- Names of two bytes match no name of one byte. -/
theorem namecmp_one {a b x : UInt8} (ha : a ≠ 0) (hb : b ≠ 0) : namecmp [a, b] (strncpy [x] DIRSIZ) ≠ 0 := by
  intro h
  by_cases hx : x = 0
  · subst hx
    simp [namecmp, strncmp, strncpy, ha] at h
    exact ha (UInt8.toNat_inj.1 h)
  · by_cases hax : a = x
    · subst hax
      simp [namecmp, strncmp, strncpy, ha, hb] at h
      exact hb (UInt8.toNat_inj.1 h)
    · simp [namecmp, strncmp, strncpy, ha, hx, hax] at h
      exact absurd (UInt8.toNat_inj.1 (by omega)) hax

theorem nameOf_inj (hj : j < 5000) (hk : k < 5000) (h : namecmp (nameOf k) (strncpy (nameOf j) DIRSIZ) = 0) : j = k := by
  obtain ⟨a, b, hname, ha, hb⟩ := nameOf_bytes hk
  obtain ⟨x, y, hname', hx, hy⟩ := nameOf_bytes hj
  rw [hname, hname'] at h
  have hzero : ∀ c : UInt8, 48 ≤ c.toNat → c ≠ 0 := fun c hc => ne_of_toNat (by show c.toNat ≠ 0; omega)
  obtain ⟨rfl, rfl⟩ := namecmp_two (hzero a (by omega)) (hzero b (by omega)) (hzero x (by omega)) (hzero y (by omega)) h
  omega

/-- The name of a new link is not in the directory. -/
theorem Holding.new (h : Holding k t) (hk : k < 5000) : dirlookup t ROOTINO (nameOf k) = .ok none := by
  obtain ⟨a, b, hname, ha, hb⟩ := nameOf_bytes hk
  have ha₀ : a ≠ 0 := ne_of_toNat (by show a.toNat ≠ 0; omega)
  have hb₀ : b ≠ 0 := ne_of_toNat (by show b.toNat ≠ 0; omega)
  have hdotdot : namecmp (nameOf k) (strncpy dotdot DIRSIZ) ≠ 0 := fun hcmp => by
    rw [hname] at hcmp
    have hab := namecmp_two ha₀ hb₀ (by decide) (by decide) hcmp
    have : (46 : UInt8).toNat = 46 := rfl
    rw [hab.1] at ha
    omega
  have hnone : ∀ de ∈ (t.node ROOTINO).entries, ¬fits (nameOf k) de = true := by
    intro de hde hfits
    have hcmp := (of_decide_eq_true hfits).2
    rw [h.entries] at hde
    simp only [List.mem_cons, List.mem_map, List.mem_range] at hde
    rcases hde with rfl | rfl | rfl | ⟨j, hj, rfl⟩
    · rw [hname] at hcmp
      exact namecmp_one ha₀ hb₀ hcmp
    · exact hdotdot hcmp
    · rw [hname] at hcmp
      exact namecmp_one ha₀ hb₀ hcmp
    · exact Nat.ne_of_lt hj (nameOf_inj (by omega) hk hcmp)
  unfold dirlookup
  rw [h.dir, List.find?_eq_none.2 hnone]
  rfl

/-- `"f"` is inode 2. -/
theorem Holding.old (h : Holding k t) : namei t ROOTINO fname = .ok (some (2, [])) := by
  have hlook : dirlookup t ROOTINO fname = .ok (some 2) := by
    have h₁ : fits fname { inum := 1, name := strncpy dot DIRSIZ } = false := by decide
    have h₂ : fits fname { inum := 1, name := strncpy dotdot DIRSIZ } = false := by decide
    have h₃ : fits fname { inum := 2, name := strncpy fname DIRSIZ } = true := by decide
    unfold dirlookup
    rw [h.dir, h.entries]
    simp only [List.find?_cons, h₁, h₂, h₃]
    rfl
  have hskip : skipelem fname = some (fname, []) := by decide
  have hstart : (if fname.headD 0 = slash then ROOTINO else ROOTINO) = ROOTINO := ite_self _
  show namexFrom t false (fname.length + 1) _ fname = _
  rw [hstart, namexFrom, hskip]
  dsimp only
  rw [h.dir, if_neg (by decide), if_neg (by decide), if_neg (by decide), hlook]
  rfl

/-- The parent of a name of two bytes. -/
theorem Holding.parent (h : Holding k t) (hk : k < 5000) :
    nameiparent t ROOTINO (nameOf k) = .ok (some (ROOTINO, nameOf k)) := by
  obtain ⟨a, b, hname, ha, hb⟩ := nameOf_bytes hk
  have hslash : slash.toNat = 47 := rfl
  have hskip := skipelem_two (a := a) (b := b) (ne_of_toNat (by omega)) (ne_of_toNat (by omega))
  have hstart : (if (nameOf k).headD 0 = slash then ROOTINO else ROOTINO) = ROOTINO := ite_self _
  show namexFrom t true ((nameOf k).length + 1) _ (nameOf k) = _
  rw [hstart, hname, namexFrom, hskip]
  dsimp only
  rw [h.dir, if_neg (by decide), if_neg (by decide), if_pos ⟨rfl, rfl⟩]

/-- No entry is empty. -/
theorem Holding.emptyAt (h : Holding k t) : emptyAt (t.node ROOTINO).entries = 3 + k := by
  have hlen : (t.node ROOTINO).entries.length = 3 + k := by
    rw [h.entries]
    simp only [List.length_cons, List.length_map, List.length_range]
    omega
  rw [← hlen]
  refine List.findIdx_eq_length.2 fun de hde => ?_
  rw [h.entries] at hde
  simp only [List.mem_cons, List.mem_map, List.mem_range] at hde
  rcases hde with rfl | rfl | rfl | ⟨j, -, rfl⟩ <;> rfl

/-- **A link** more. -/
theorem Holding.link (h : Holding k t) (hk : k < 4477) :
    ∃ u, step t (.call ROOTINO (.link fname (nameOf k))) = some u ∧ Holding (k + 1) u := by
  have hne : (2 : Nat) ≠ ROOTINO := by decide
  have hroom : ¬Full (t.addLink 2 1) ROOTINO := by
    rw [full_congr (addLink_node 2 1 ROOTINO).2]
    unfold Full
    have hlimit : MAXFILE * BSIZE = 71680 := by decide
    rw [h.emptyAt, hlimit]
    simp only [DIRENT]
    omega
  have hlink : sysLink t ROOTINO fname (nameOf k) = _ := link_old h.old (by rw [h.file]; decide) (by rw [h.file]; decide)
  rw [h.parent (by omega)] at hlink
  have hcall : call t ROOTINO (.link fname (nameOf k)) =
      (dirlink (t.addLink 2 1) ROOTINO (nameOf k) 2 >>= fun x =>
        if x.1 < 0 then return linkBad x.2 2 else return (0, x.2)) := hlink
  rw [dirlink_room _ (lookup_addLink (h.new (by omega)) 2 1) hroom, (addLink_node 2 1 ROOTINO).2, h.emptyAt] at hcall
  have hcall' : call t ROOTINO (.link fname (nameOf k)) =
      .ok (0, (t.addLink 2 1).setEntries ROOTINO (put (t.node ROOTINO).entries (3 + k) (linkEntry k))) := hcall
  refine ⟨(t.addLink 2 1).setEntries ROOTINO (put (t.node ROOTINO).entries (3 + k) (linkEntry k)), ?_, ?_⟩
  · simp only [step, hcall']
  · refine ⟨?_, ?_, ?_⟩
    · exact (congrArg Node.type (set_node_self _ ROOTINO _)).trans ((addLink_node 2 1 ROOTINO).1.trans h.dir)
    · refine (congrArg Node.entries (set_node_self _ ROOTINO _)).trans ?_
      have hlen : (t.node ROOTINO).entries.length = 3 + k := by
        rw [h.entries]
        simp only [List.length_cons, List.length_map, List.length_range]
        omega
      show put (t.node ROOTINO).entries (3 + k) (linkEntry k) = _
      rw [put, List.take_of_length_le (by omega), List.drop_of_length_le (by omega), h.entries, List.range_succ,
        List.map_append]
      rfl
    · exact (congrArg Node.type (set_node_ne _ _ hne)).trans ((addLink_node 2 1 2).1.trans h.file)

end

/-- The directory is filled by 4477 links to a file. -/
theorem filled (k : Nat) (hk : k ≤ 4477) : ∃ tr t, run step start tr = some t ∧ Holding k t := by
  induction k with
  | zero =>
    refine ⟨[.call ROOTINO (.openCreate fname none)], _, rfl, ?_, ?_, ?_⟩
    · rfl
    · rfl
    · rfl
  | succ k ih =>
    obtain ⟨tr, t, hrun, ht⟩ := ih (by omega)
    obtain ⟨u, hstep, hu⟩ := ht.link (by omega)
    exact ⟨_, u, run_snoc.2 ⟨t, hrun, hstep⟩, hu⟩

/-- The next link panics in `dirlink`. -/
theorem not_handled : ¬∀ tr t cwd c, run step start tr = some t → FullHandled t cwd c := by
  intro h
  obtain ⟨tr, t, hrun, ht⟩ := filled 4477 (Nat.le_refl _)
  have hfull : Full t ROOTINO := by
    have hlimit : MAXFILE * BSIZE = 71680 := by decide
    unfold Full
    rw [ht.emptyAt, hlimit]
    decide
  have hpanic : call t ROOTINO (.link fname (nameOf 4477)) = .error .dirlink :=
    link_full ht.old (by rw [ht.file]; decide) (by rw [ht.file]; decide) (ht.parent (by decide)) (ht.new (by decide)) hfull
  exact (h tr t ROOTINO _ hrun).1 _ hpanic (.inr (.inl rfl))

end NewXv6.Fs.Names
