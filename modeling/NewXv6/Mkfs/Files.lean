import NewXv6.Mkfs.Append
import NewXv6.Sys.Boot

/-!
# The files of an image

`mkfs` makes the root directory, and then one file after another with its entry in the root directory (`Made`). The root
directory is rounded up at the end; where the bitmap that is written has place, the disk has the same files (`image_eq`).
-/

namespace NewXv6

open Lib

namespace Mkfs

/-! ## Inodes -/

open State

variable {s : State} {cs : List (List UInt8)} {root acc p : List UInt8}

/-- An inode is written as a new one. -/
theorem files_fresh (h : Laid s s.image) {n : Nat} (hn : n < sb.inodes) (type : Int16) :
    Laid s (s.files n { Dinode.zero with type, nlink := 1, size := 0 }) ∧
      Content (s.files n { Dinode.zero with type, nlink := 1, size := 0 }) n [] ∧
      (s.files n { Dinode.zero with type, nlink := 1, size := 0 }).type n = type ∧
      Only n s.image (s.files n { Dinode.zero with type, nlink := 1, size := 0 }) := by
  generalize hdin : ({ Dinode.zero with type, nlink := 1, size := 0 } : Dinode) = din
  have hself : Function.update s.rinode n din n = din := Function.update_self ..
  have hzero : ∀ p, (s.files n din).addr n p = 0 := fun p => by
    show (if _ then (Function.update s.rinode n din n).addr s.disk p else 0) = 0
    rw [hself, ← hdin]
    unfold Dinode.addr
    split
    · split
      · exact walk_zero _
      · rfl
    · rfl
  have hother : ∀ m, m ≠ n → (s.files n din).type m = s.image.type m ∧ (s.files n din).size m = s.image.size m ∧
      (s.files n din).addr m = s.image.addr m ∧ (s.files n din).byte m = s.image.byte m := fun m hm =>
    @filesOf_inode sb _ _ _ _ m (fun _ => by rw [Function.update_of_ne hm]; exact .rfl) fun _ _ => rfl
  have haddr : ∀ m q, (s.files n din).addr m q ≠ 0 → m ≠ n ∧ (s.files n din).addr m q = s.image.addr m q := fun m q hne => by
    have hm : m ≠ n := fun hm => hne (by rw [hm]; exact hzero q)
    exact ⟨hm, by rw [(hother m hm).2.2.1]⟩
  refine ⟨⟨fun m q m' q' hne he => ?_, fun m q hne => ?_, h.free, h.blank, h.super⟩, ?_, ?_, ?_⟩
  · have h₁ := (haddr m q hne).2
    have h₂ := (haddr m' q' (by rw [← he]; exact hne)).2
    rw [h₁] at hne
    exact h.inj m q m' q' hne (by rw [← h₁, he, h₂])
  · have h₁ := (haddr m q hne).2
    rw [h₁] at hne ⊢
    exact h.area m q hne
  · refine ⟨?_, fun o => ?_, fun o ho => absurd ho (Nat.not_lt_zero o), fun bn _ => hzero _⟩
    · have hsize : (s.files n din).size n = (Function.update s.rinode n din n).size.toNat := filesOf_size hn
      rw [hsize, hself, ← hdin]
      rfl
    · exact filesOf_byte_none hzero o
  · have htype : (s.files n din).type n = (Function.update s.rinode n din n).type := filesOf_type hn
    rw [htype, hself, ← hdin]
  · exact ⟨fun m hm => (hother m hm).1, fun m hm => (hother m hm).2.1, fun m hm => (hother m hm).2.2.1,
      fun m hm => (hother m hm).2.2.2⟩

/-- **`ialloc`** makes an empty file. -/
theorem ialloc_content (h : Laid s s.image) (hn : s.freeinode < sb.inodes) (type : Int16) :
    Laid (s.ialloc type).2 (s.ialloc type).2.image ∧ Content (s.ialloc type).2.image s.freeinode [] ∧
      (s.ialloc type).2.image.type s.freeinode = type ∧ Only s.freeinode s.image (s.ialloc type).2.image := by
  obtain ⟨hlaid, hcontent, htype, honly⟩ := files_fresh h hn type
  have hlaid' : Laid { s with freeinode := s.freeinode + 1 }
      (({ s with freeinode := s.freeinode + 1 } : State).files s.freeinode { Dinode.zero with type, nlink := 1, size := 0 }) :=
    ⟨hlaid.inj, hlaid.area, hlaid.free, hlaid.blank, hlaid.super⟩
  obtain ⟨himage, hlaid''⟩ := image_winode hlaid' hn
  have himage' : (s.ialloc type).2.image = s.files s.freeinode { Dinode.zero with type, nlink := 1, size := 0 } := himage
  refine ⟨hlaid'', ?_, ?_, ?_⟩
  · rw [himage']
    exact hcontent
  · rw [himage']
    exact htype
  · rw [himage']
    exact honly

/-- An image with the root directory `root` and files with the contents `cs`. -/
structure Made (s : State) (cs : List (List UInt8)) (root : List UInt8) : Prop where
  laid : Laid s s.image
  inode : s.freeinode = cs.length + 2
  dir : s.image.type ROOTINO = T_DIR
  root : Content s.image ROOTINO root
  file : ∀ i bs, cs[i]? = some bs → s.image.type (i + 2) = T_FILE ∧ Content s.image (i + 2) bs
  free : ∀ n, n = 0 ∨ cs.length + 2 ≤ n → s.image.type n = 0

theorem type_ne {n : Nat} (hn : n < sb.inodes) (h : s.image.type n ≠ 0) : (s.rinode n).type ≠ 0 := by
  have htype : s.image.type n = (s.rinode n).type := filesOf_type hn
  rw [← htype]
  exact h

theorem getElem?_snoc {α : Type} {xs : List α} {x y : α} {i : Nat} (h : (xs ++ [x])[i]? = some y) :
    i < xs.length ∧ xs[i]? = some y ∨ i = xs.length ∧ y = x := by
  by_cases hi : i < xs.length
  · rw [List.getElem?_append_left hi] at h
    exact Or.inl ⟨hi, h⟩
  · have hle := Nat.le_of_not_lt hi
    rw [List.getElem?_append_right hle] at h
    have hlt := (List.getElem?_eq_some_iff.1 h).1
    rw [List.length_singleton] at hlt
    have hzero : i - xs.length = 0 := by omega
    rw [hzero] at h
    exact Or.inr ⟨by omega, (Option.some.inj h).symm⟩

/-- A new file. -/
theorem Made.ialloc (h : Made s cs root) (hn : cs.length + 2 < sb.inodes) : Made (s.ialloc T_FILE).2 (cs ++ [[]]) root := by
  have hinode := h.inode
  obtain ⟨hlaid, hcontent, htype, honly⟩ := ialloc_content h.laid (by omega) T_FILE
  have hroot : ROOTINO ≠ s.freeinode := by
    show 1 ≠ s.freeinode
    omega
  refine ⟨hlaid, ?_, (honly.type _ hroot).trans h.dir, h.root.congr honly hroot, fun i bs hi => ?_, fun n hno => ?_⟩
  · show s.freeinode + 1 = _
    rw [List.length_append, hinode]
    rfl
  · obtain ⟨hi, hbs⟩ | ⟨rfl, rfl⟩ := getElem?_snoc hi
    · obtain ⟨ht, hw⟩ := h.file i bs hbs
      exact ⟨(honly.type _ (by omega)).trans ht, hw.congr honly (by omega)⟩
    · rw [← hinode]
      exact ⟨htype, hcontent⟩
  · rw [List.length_append, List.length_singleton] at hno
    rw [honly.type n (by omega)]
    exact h.free n (by omega)

/-- A new entry. -/
theorem Made.entry (h : Made s cs root) (hmax : root.length + p.length ≤ maxBlocks * 512)
    (hfew : (s.iappend ROOTINO p).freeblock < 2 ^ 32) : Made (s.iappend ROOTINO p) cs (root ++ p) := by
  have hn : ROOTINO < sb.inodes := by decide
  obtain ⟨hlaid, hcontent, htype, honly, -⟩ :=
    iappend_content h.laid hn (type_ne hn (by rw [h.dir]; decide)) h.root hmax hfew
  refine ⟨hlaid, (later_iappend s ROOTINO p).inodes.trans h.inode, ?_, hcontent, fun i bs hi => ?_, fun n hno => ?_⟩
  · rw [htype]
    exact h.dir
  · obtain ⟨ht, hw⟩ := h.file i bs hi
    refine ⟨by rw [htype]; exact ht, hw.congr honly ?_⟩
    show i + 2 ≠ 1
    omega
  · rw [htype]
    exact h.free n hno

/-- More of the last file. -/
theorem Made.read (h : Made s (cs ++ [acc]) root) (hn : cs.length + 2 < sb.inodes)
    (hmax : acc.length + p.length ≤ maxBlocks * 512) (hfew : (s.iappend (cs.length + 2) p).freeblock < 2 ^ 32) :
    Made (s.iappend (cs.length + 2) p) (cs ++ [acc ++ p]) root ∧ ∀ q, s.image.addr (cs.length + 2) q ≠ 0 →
      (s.iappend (cs.length + 2) p).image.addr (cs.length + 2) q = s.image.addr (cs.length + 2) q := by
  obtain ⟨ht, hw⟩ := h.file cs.length acc List.getElem?_concat_length
  obtain ⟨hlaid, hcontent, htype, honly, hkeep⟩ := iappend_content h.laid hn (type_ne hn (by rw [ht]; decide)) hw hmax hfew
  have hroot : ROOTINO ≠ cs.length + 2 := by
    show 1 ≠ cs.length + 2
    omega
  refine ⟨⟨hlaid, ?_, ?_, h.root.congr honly hroot, fun i bs hi => ?_, fun n hno => ?_⟩, hkeep⟩
  · rw [(later_iappend s _ p).inodes, h.inode, List.length_append, List.length_append]
    rfl
  · rw [htype]
    exact h.dir
  · obtain ⟨hi, hbs⟩ | ⟨rfl, rfl⟩ := getElem?_snoc hi
    · obtain ⟨ht', hw'⟩ := h.file i bs (by rw [List.getElem?_append_left hi]; exact hbs)
      exact ⟨by rw [htype]; exact ht', hw'.congr honly (by omega)⟩
    · exact ⟨by rw [htype]; exact ht, hcontent⟩
  · rw [List.length_append, List.length_singleton] at hno
    rw [htype]
    exact h.free n (by rw [List.length_append, List.length_singleton]; exact hno)

/-- The last file is read to its end. -/
theorem Made.reads (reads : List (List UInt8)) : ∀ {s : State} {acc : List UInt8}, Made s (cs ++ [acc]) root →
    cs.length + 2 < sb.inodes → acc.length + reads.flatten.length ≤ maxBlocks * 512 →
    (reads.foldl (fun s cc => s.iappend (cs.length + 2) cc) s).freeblock < 2 ^ 32 →
    Made (reads.foldl (fun s cc => s.iappend (cs.length + 2) cc) s) (cs ++ [acc ++ reads.flatten]) root ∧
      ∀ q, s.image.addr (cs.length + 2) q ≠ 0 →
        (reads.foldl (fun s cc => s.iappend (cs.length + 2) cc) s).image.addr (cs.length + 2) q =
          s.image.addr (cs.length + 2) q := by
  induction reads with
  | nil =>
    intro s acc h _ _ _
    rw [List.flatten_nil, List.append_nil]
    exact ⟨h, fun _ _ => rfl⟩
  | cons cc reads ih =>
    intro s acc h hn hmax hfew
    rw [List.flatten_cons, List.length_append] at hmax
    have hone := Nat.lt_of_le_of_lt (later_reads (cs.length + 2) reads).le hfew
    obtain ⟨hread, hkeep⟩ := h.read hn (by omega) hone
    obtain ⟨hmade, hkeep'⟩ := ih hread hn (by rw [List.length_append]; omega) hfew
    rw [List.append_assoc] at hmade
    rw [List.flatten_cons]
    refine ⟨hmade, fun q hne => ?_⟩
    have hq := hkeep q hne
    exact (hkeep' q (by rw [hq]; exact hne)).trans hq

/-- The entries of the files, the first with inode `n`. -/
def entriesFrom : Nat → List HostFile → List (Nat × List UInt8)
  | _, [] => []
  | n, f :: files => (n, skipUnderscore f.name) :: entriesFrom (n + 1) files

/-- The entries of the root directory. -/
def entries (files : List HostFile) : List (Nat × List UInt8) :=
  (ROOTINO, [46]) :: (ROOTINO, [46, 46]) :: entriesFrom 2 files

/-- The bytes of entries. -/
def dirBytes (es : List (Nat × List UInt8)) : List UInt8 := es.flatMap fun e => dirent e.1 e.2

theorem length_dirBytes (es : List (Nat × List UInt8)) : (dirBytes es).length = 16 * es.length := by
  induction es with
  | nil => rfl
  | cons e es ih =>
    have hcons : dirBytes (e :: es) = dirent e.1 e.2 ++ dirBytes es := rfl
    rw [hcons, List.length_append, length_dirent, ih, List.length_cons]
    omega

theorem length_entriesFrom (files : List HostFile) : ∀ n, (entriesFrom n files).length = files.length := by
  induction files with
  | nil => exact fun _ => rfl
  | cons f files ih => exact fun n => congrArg (· + 1) (ih (n + 1))

/-- **One file.** -/
theorem Made.file_added (h : Made s cs root) (f : HostFile) (hn : cs.length + 2 < sb.inodes)
    (hroot : root.length + 16 ≤ maxBlocks * 512) (hmax : f.contents.length ≤ maxBlocks * 512)
    (hfew : (addFile s f).freeblock < 2 ^ 32) :
    Made (addFile s f) (cs ++ [f.contents]) (root ++ dirent (cs.length + 2) (skipUnderscore f.name)) := by
  have hstep : addFile s f = f.reads.foldl (fun t cc => t.iappend (cs.length + 2) cc)
      ((s.ialloc T_FILE).2.iappend ROOTINO (dirent (cs.length + 2) (skipUnderscore f.name))) := by
    rw [← h.inode]
    rfl
  rw [hstep] at hfew ⊢
  have hentry := Nat.lt_of_le_of_lt (later_reads (cs.length + 2) f.reads).le hfew
  have hmade := ((h.ialloc hn).entry (p := dirent (cs.length + 2) (skipUnderscore f.name)) (by rw [length_dirent]; exact hroot)
    hentry).reads f.reads hn (by rw [List.length_nil, Nat.zero_add]; exact hmax) hfew
  rw [List.nil_append] at hmade
  exact hmade.1

/-- **All files.** -/
theorem Made.files_added (files : List HostFile) : ∀ {s : State} {cs : List (List UInt8)} {root : List UInt8}, Made s cs root →
    cs.length + 2 + files.length ≤ sb.inodes → root.length + 16 * files.length ≤ maxBlocks * 512 →
    (∀ f ∈ files, f.contents.length ≤ maxBlocks * 512) → (files.foldl addFile s).freeblock < 2 ^ 32 →
    Made (files.foldl addFile s) (cs ++ files.map HostFile.contents)
      (root ++ dirBytes (entriesFrom (cs.length + 2) files)) := by
  induction files with
  | nil =>
    intro s cs root h _ _ _ _
    rw [List.map_nil, List.append_nil]
    have hnil : dirBytes (entriesFrom (cs.length + 2) []) = [] := rfl
    rw [hnil, List.append_nil]
    exact h
  | cons f files ih =>
    intro s cs root h hn hroot hmax hfew
    rw [List.length_cons] at hn hroot
    have hone := Nat.lt_of_le_of_lt (addFiles_le files (s := addFile s f)).1 hfew
    have hmade := ih (h.file_added f (by omega) (by omega) (hmax f List.mem_cons_self) hone)
      (by rw [List.length_append, List.length_singleton]; omega)
      (by rw [List.length_append, length_dirent]; omega) (fun g hg => hmax g (List.mem_cons_of_mem f hg)) hfew
    rw [List.append_assoc, List.append_assoc, List.length_append, List.length_singleton] at hmade
    rw [List.map_cons]
    exact hmade

theorem format_image : Laid format format.image ∧ ∀ n, format.image.type n = 0 := by
  have hmeta := metablocks_eq
  have hzero : ∀ sec, sec ≠ 1 → format.disk sec = Block.zero := fun sec hsec => by
    unfold format
    dsimp only
    rw [Function.update_of_ne hsec]
  have htype : ∀ n, format.image.type n = 0 := fun n => by
    by_cases hn : n < sb.inodes
    · have htype : format.image.type n = (format.rinode n).type := filesOf_type hn
      have hsec : i2b n ≠ 1 := by
        show n / 8 + 2 ≠ 1
        omega
      rw [htype]
      unfold rinode rsect
      rw [hzero _ hsec, Block.getDinode_zero]
      rfl
    · exact if_neg hn
  have haddr : ∀ n p, format.image.addr n p = 0 := fun n p => if_neg fun hc => hc.2 (by
    have ht := htype n
    have htype : format.image.type n = (format.rinode n).type := filesOf_type hc.1
    rw [← htype, ht])
  exact ⟨⟨fun n p _ _ hne => absurd (haddr n p) hne, fun n p hne => absurd (haddr n p) hne, Nat.le_refl _, fun b hb =>
    hzero b (by have hb' : metablocks ≤ b := hb; omega), rfl⟩, htype⟩

/-- The root directory with its first entries. -/
theorem makeRoot_made : Made (makeRoot format) [] (dirBytes [(ROOTINO, [46]), (ROOTINO, [46, 46])]) := by
  obtain ⟨hlaid, htype⟩ := format_image
  have hn : format.freeinode < sb.inodes := by decide
  obtain ⟨hlaid₀, hcontent, hdir, honly⟩ := ialloc_content hlaid hn T_DIR
  have h₀ : Made (format.ialloc T_DIR).2 [] [] := by
    refine ⟨hlaid₀, rfl, hdir, hcontent, fun i bs hi => ?_, fun n hno => ?_⟩
    · rw [List.getElem?_nil] at hi
      cases hi
    · have hno' : n ≠ format.freeinode := by
        show n ≠ 1
        have hlen : ([] : List (List UInt8)).length = 0 := rfl
        omega
      rw [honly.type n hno']
      exact htype n
  have hroot : makeRoot format =
      ((format.ialloc T_DIR).2.iappend ROOTINO (dirent ROOTINO [46])).iappend ROOTINO (dirent ROOTINO [46, 46]) := rfl
  obtain ⟨-, heq, -, hhigh, -⟩ := makeRoot_small
  have hmeta := metablocks_eq
  have hfew : (makeRoot format).freeblock < 2 ^ 32 := by omega
  rw [hroot] at hfew ⊢
  have hmax : 32 ≤ maxBlocks * 512 := by decide
  have h₁ := h₀.entry (p := dirent ROOTINO [46]) (by rw [length_dirent, List.length_nil]; omega)
    (Nat.lt_of_le_of_lt (later_iappend _ _ _).le hfew)
  exact h₁.entry (by rw [List.nil_append, length_dirent, length_dirent]; exact hmax) hfew

/-- **The image before its root directory is rounded up.** -/
theorem files_made {files : List HostFile} (hfiles : files.length + 2 ≤ sb.inodes)
    (hmax : ∀ f ∈ files, f.contents.length ≤ maxBlocks * 512) (hfew : (filled files).usedblocks < 2 ^ 32) :
    Made (files.foldl addFile (makeRoot format)) (files.map HostFile.contents) (dirBytes (entries files)) := by
  rw [filled_used] at hfew
  have hfew' : (files.foldl addFile (makeRoot format)).freeblock < 2 ^ 32 := hfew
  have hinodes := inodes_eq
  have hbound : 16 * 208 ≤ maxBlocks * 512 := by decide
  have hlen := length_dirBytes [(ROOTINO, [46]), (ROOTINO, [46, 46])]
  exact makeRoot_made.files_added files (by rw [List.length_nil]; omega)
    (by rw [hlen]; show 16 * 2 + 16 * files.length ≤ _; omega) hmax hfew'

/-! ## The image on disk -/

/-- The root directory is rounded up. -/
theorem fixRoot_image (h : Made s cs root) (hroot : (root.length / 512 + 1) * 512 < 2 ^ 32) :
    Laid (fixRoot s) (fixRoot s).image ∧ (fixRoot s).image.type = s.image.type ∧ (fixRoot s).image.addr = s.image.addr ∧
      (fixRoot s).image.byte = s.image.byte ∧ (∀ m, m ≠ ROOTINO → (fixRoot s).image.size m = s.image.size m) ∧
      (fixRoot s).image.size ROOTINO = (root.length / 512 + 1) * 512 := by
  have hn : ROOTINO < sb.inodes := by decide
  have hsize : (s.rinode ROOTINO).size.toNat = root.length := by
    rw [← h.root.size]
    exact (filesOf_size hn).symm
  generalize hdin : ({ s.rinode ROOTINO with
    size := .ofNat (((s.rinode ROOTINO).size.toNat / BSIZE + 1) * BSIZE % 2 ^ 32) } : Dinode) = din
  have hself : Function.update s.rinode ROOTINO din ROOTINO = din := Function.update_self ..
  obtain ⟨htype, haddr, hbyte⟩ := @filesOf_fields sb s.rinode (Function.update s.rinode ROOTINO din) s.disk
    (fun m _ => by
      by_cases hm : m = ROOTINO
      · rw [hm, hself, ← hdin]
      · rw [Function.update_of_ne hm])
    (fun m _ => by
      by_cases hm : m = ROOTINO
      · rw [hm, hself, ← hdin]
      · rw [Function.update_of_ne hm])
  have htype' : (s.files ROOTINO din).type = s.image.type := htype
  have haddr' : (s.files ROOTINO din).addr = s.image.addr := haddr
  have hbyte' : (s.files ROOTINO din).byte = s.image.byte := hbyte
  have hlaid : Laid s (s.files ROOTINO din) := by
    refine ⟨?_, ?_, h.laid.free, h.laid.blank, h.laid.super⟩
    · rw [haddr']
      exact h.laid.inj
    · rw [haddr']
      exact h.laid.area
  obtain ⟨himage, hlaid'⟩ := image_winode hlaid hn
  have hfix : fixRoot s = s.winode ROOTINO din := by
    rw [← hdin]
    rfl
  rw [hfix, himage]
  refine ⟨himage ▸ hlaid', htype', haddr', hbyte', fun m hm => ?_, ?_⟩
  · show (if _ then _ else _) = (if _ then _ else _)
    rw [Function.update_of_ne hm]
  · have hfield : (s.files ROOTINO din).size ROOTINO = (Function.update s.rinode ROOTINO din ROOTINO).size.toNat :=
      filesOf_size hn
    rw [hfield, hself, ← hdin]
    show (UInt32.ofNat _).toNat = _
    rw [UInt32.toNat_ofNat', hsize, Nat.mod_mod]
    exact Nat.mod_eq_of_lt hroot

/-- `balloc` writes the blocks from the bitmap on. -/
theorem ballocFrom_other (used : Nat) : ∀ {s : State} {j : Nat} {buf : Block} {sec : Nat}, sec ≠ ninodes / IPB + 3 →
    (∀ i, 512 * i < used → sec ≠ ninodes / IPB + 3 + (j + i)) → (s.ballocFrom used j buf).disk sec = s.disk sec := by
  induction used using Nat.strongRecOn with
  | ind used ih =>
    intro s j buf sec hsec hno
    rw [State.ballocFrom]
    split
    · rename_i hpos
      rw [ih (used - 512) (Nat.sub_lt hpos (by decide)) hsec fun i hi => ?_]
      · exact Function.update_of_ne (hno 0 hpos) _ _
      · rw [Nat.add_assoc j 1 i]
        exact hno (1 + i) (by omega)
    · exact Function.update_of_ne hsec _ _

/-- The blocks before the bitmap, and those after it. -/
theorem balloc_other {used sec : Nat} (hused : used ≤ 512 * bitblocks) (hsec : sec < 28 ∨ metablocks ≤ sec) :
    (s.balloc used).disk sec = s.disk sec := by
  have hmeta := metablocks_eq
  have hused' : used ≤ 512 * 257 := hused
  refine ballocFrom_other used ?_ fun i hi => ?_
  · show sec ≠ 28
    omega
  · show sec ≠ 28 + (0 + i)
    omega

/-- The inodes and the blocks of files are before or after the bitmap. -/
theorem image_eq {disk : Nat → Block} (h : Laid s s.image)
    (hdisk : ∀ sec, sec < 28 ∨ metablocks ≤ sec → disk sec = s.disk sec) (n : Nat) :
    (imageFiles sb disk).type n = s.image.type n ∧ (imageFiles sb disk).size n = s.image.size n ∧
      (imageFiles sb disk).addr n = s.image.addr n ∧ (imageFiles sb disk).byte n = s.image.byte n := by
  refine @filesOf_inode sb s.rinode _ s.disk _ n (fun hn => ?_) fun p hne => ?_
  · have hinodes := inodes_eq
    have hsec : disk (IBLOCK n) = s.disk (IBLOCK n) := hdisk _ (Or.inl (by show n / 8 + 2 < 28; omega))
    have hsame : diskInode disk n = s.rinode n := by
      unfold diskInode
      rw [hsec]
      rfl
    rw [hsame]
    exact .rfl
  · exact hdisk _ (Or.inr (h.area n p hne).1)

/-- The size of the root directory. -/
theorem root_lt {files : List HostFile} (hfiles : files.length + 2 ≤ sb.inodes) :
    ((dirBytes (entries files)).length / 512 + 1) * 512 < 2 ^ 32 := by
  rw [length_dirBytes]
  have hlen : (entries files).length = files.length + 2 := congrArg (· + 2) (length_entriesFrom files 2)
  have hinodes := inodes_eq
  omega

/-- What `mkfs` writes. -/
structure Disk (files : List HostFile) (disk : Nat → Block) : Prop where
  laid : Laid (filled files) (imageFiles sb disk)
  root : (imageFiles sb disk).type ROOTINO = T_DIR ∧ (imageFiles sb disk).size ROOTINO = ((files.length + 2) / 32 + 1) * 512
  entry : ∀ o, (imageFiles sb disk).byte ROOTINO o = (dirBytes (entries files)).getD o 0
  block : ∀ bn, bn * 512 < 16 * (files.length + 2) → (imageFiles sb disk).addr ROOTINO (blockPos bn) ≠ 0
  file : ∀ i f, files[i]? = some f → (imageFiles sb disk).type (i + 2) = T_FILE ∧
    Content (imageFiles sb disk) (i + 2) f.contents
  free : ∀ n, n = 0 ∨ files.length + 2 ≤ n → (imageFiles sb disk).type n = 0

theorem mkfs_made {files : List HostFile} {disk : Nat → Block} (h : mkfs files = some disk)
    (hfiles : files.length + 2 ≤ sb.inodes) (hmax : ∀ f ∈ files, f.contents.length ≤ maxBlocks * 512)
    (hused : (filled files).usedblocks ≤ 512 * bitblocks) : Disk files disk := by
  have hused' : (filled files).usedblocks ≤ 512 * 257 := hused
  have hmade := files_made hfiles hmax (by omega)
  obtain ⟨hlaid, htype, haddr, hbyte, hsize, hrootsize⟩ := fixRoot_image hmade (root_lt hfiles)
  have himage : ∀ n, _ := fun n => image_eq hlaid (fun sec => balloc_other (s := filled files) hused) n
  rw [← mkfs_disk h] at himage
  have hlen : (dirBytes (entries files)).length = 16 * (files.length + 2) := by
    rw [length_dirBytes]
    exact congrArg (fun k => 16 * (k + 2)) (length_entriesFrom files 2)
  have haddr' : ∀ n, (imageFiles sb disk).addr n = (fixRoot (files.foldl addFile (makeRoot format))).image.addr n :=
    fun n => (himage n).2.2.1
  have htype' : ∀ n, (imageFiles sb disk).type n = (files.foldl addFile (makeRoot format)).image.type n :=
    fun n => (himage n).1.trans (congrFun htype n)
  have hcontent : ∀ {n : Nat} {bs : List UInt8}, n ≠ ROOTINO → Content (files.foldl addFile (makeRoot format)).image n bs →
      Content (imageFiles sb disk) n bs := fun {n bs} hn hc => by
    refine ⟨(himage n).2.1.trans ((hsize n hn).trans hc.size), fun o => ?_, fun o ho => ?_, fun bn hbn => ?_⟩
    · rw [(himage n).2.2.2, hbyte]
      exact hc.byte o
    · rw [haddr', haddr]
      exact hc.addr o ho
    · rw [haddr', haddr]
      exact hc.rest bn hbn
  refine ⟨⟨fun n p m q hne he => ?_, fun n p hne => ?_, hlaid.free, hlaid.blank, hlaid.super⟩, ⟨?_, ?_⟩, fun o => ?_,
    fun bn hbn => ?_, fun i f hi => ?_, fun n hno => ?_⟩
  · rw [haddr'] at hne he
    rw [haddr'] at he
    exact hlaid.inj n p m q hne he
  · rw [haddr'] at hne ⊢
    exact hlaid.area n p hne
  · rw [htype']
    exact hmade.dir
  · rw [(himage ROOTINO).2.1, hrootsize, hlen]
    omega
  · rw [(himage ROOTINO).2.2.2, hbyte]
    exact hmade.root.byte o
  · rw [haddr', haddr]
    have hne := hmade.root.addr (512 * bn) (by rw [hlen]; omega)
    have hdiv : 512 * bn / BSIZE = bn := Nat.mul_div_cancel_left bn (by decide)
    rwa [hdiv] at hne
  · obtain ⟨ht, hc⟩ := hmade.file i f.contents (by rw [List.getElem?_map, hi]; rfl)
    refine ⟨(htype' _).trans ht, hcontent ?_ hc⟩
    show i + 2 ≠ 1
    omega
  · rw [htype']
    exact hmade.free n (by rw [List.length_map]; exact hno)

end Mkfs

end NewXv6
