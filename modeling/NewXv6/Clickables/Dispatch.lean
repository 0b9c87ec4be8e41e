import NewXv6.Clickables.Model
import NewXv6.Lib.Links

/-!
# Dispatch of clicks (`clickable.c`)

What the lists are for is told without memory: a new area is put in front, those that start in a region are taken out, and a
click is for the first area with the point in it (`Lists.step`). The nodes of the three lists are all the blocks in use, each
in one place (`Refines`), and every call keeps this up: `deleteClickable` goes through the nodes with the last kept one in
`prev` (`deleteLoop_holds`), so it never uses a block that is free (`click_dispatch`).
-/

namespace NewXv6.Clickables

open Finder (Point Rect isIn)
open Lib

variable {H : Type}

/-! ## The lists without memory -/

/-- An area with its handler, and the block of its node. -/
structure Entry (H : Type) where
  block : Addr
  area : Rect
  handler : H

/-- The lists, the newest area first; the blocks of the removed ones, in order; what was run so far. -/
structure Lists (H : Type) where
  lists : Field → List (Entry H)
  freed : List Addr
  ran : List (Option H)

def startsIn (region : Rect) (e : Entry H) : Bool := decide (isIn e.area.start region)

def Lists.step (s : Lists H) : Call H → Lists H
  | .createClickable r msgType h block =>
    match msgType.field with
    | none => s
    | some f => { s with lists := Function.update s.lists f (⟨block, r, h⟩ :: s.lists f) }
  | .deleteClickable f region =>
    { s with
      lists := Function.update s.lists f ((s.lists f).filter fun e => !startsIn region e)
      freed := s.freed ++ ((s.lists f).filter (startsIn region)).map Entry.block }
  | .executeHandler f click =>
    { s with ran := s.ran ++ [((s.lists f).find? fun e => decide (isIn click e.area)).map Entry.handler] }

/-! ## A list in memory -/

def nextOf (heap : Addr → Option (Node H)) (a : Addr) : Option Addr := (heap a).bind Node.next

/-- The nodes from `head` on are the entries. -/
structure Holds (heap : Addr → Option (Node H)) (head : Option Addr) (l : List (Entry H)) : Prop where
  head : head = (l.map Entry.block).head?
  links : Linked (nextOf heap) (l.map Entry.block)
  nodes : ∀ e ∈ l, ∃ next, heap e.block = some ⟨e.area, e.handler, next⟩
  nodup : (l.map Entry.block).Nodup

variable {heap heap' : Addr → Option (Node H)} {head prev : Option Addr} {l kept rest : List (Entry H)} {e : Entry H}
  {m m' : Mem H} {region : Rect} {n : Nat} {a p : Addr}

theorem Holds.congr (h : Holds heap head l) (heq : ∀ e ∈ l, heap' e.block = heap e.block) : Holds heap' head l where
  head := h.head
  links := h.links.congr fun a ha => by
    obtain ⟨e, he, rfl⟩ := List.mem_map.1 ha
    rw [nextOf, heq e he, nextOf]
  nodes e he := by
    rw [heq e he]
    exact h.nodes e he
  nodup := h.nodup

/-- The node of an entry, with the link to the next one. -/
theorem Holds.node (h : Holds heap head (kept ++ e :: rest)) :
    heap e.block = some ⟨e.area, e.handler, (rest.map Entry.block).head?⟩ := by
  obtain ⟨next, hnode⟩ := h.nodes e (List.mem_append_right _ List.mem_cons_self)
  have hlinks := h.links
  rw [List.map_append, List.map_cons] at hlinks
  have hnext : nextOf heap e.block = (rest.map Entry.block).head? := hlinks.next_eq
  rw [nextOf, hnode] at hnext
  rw [hnode, ← hnext]
  rfl

/-- The last entry of the first part leads to the second part. -/
theorem Holds.last (h : Holds heap head (kept ++ e :: rest)) (hlast : (kept.map Entry.block).getLast? = some p) :
    ∃ node, heap p = some node ∧ node.next = some e.block := by
  obtain ⟨k, hk⟩ := List.getLast?_eq_some_iff.1 hlast
  obtain ⟨k', l', rfl, rfl, hl'⟩ := List.map_eq_append_iff.1 hk
  obtain ⟨e', t, rfl, he', ht⟩ := List.map_eq_cons_iff.1 hl'
  rw [List.map_eq_nil_iff] at ht
  subst ht
  rw [List.append_assoc, List.singleton_append] at h
  exact ⟨_, he' ▸ h.node, rfl⟩

theorem Holds.not_mem (h : Holds heap head (kept ++ e :: rest)) :
    e.block ∉ kept.map Entry.block ∧ e.block ∉ rest.map Entry.block := by
  have hnodup := h.nodup
  rw [List.map_append, List.map_cons, List.nodup_append] at hnodup
  obtain ⟨-, hrest, hdisjoint⟩ := hnodup
  exact ⟨fun hin => hdisjoint _ hin _ List.mem_cons_self rfl, (List.nodup_cons.1 hrest).1⟩

/-- A node that is not the first one has one before it. -/
theorem Holds.before (h : Holds heap head (kept ++ e :: rest)) (hne : kept ≠ []) : some e.block ≠ head ∧
    ∃ p node, (kept.map Entry.block).getLast? = some p ∧ e.block ≠ p ∧ heap p = some node ∧ node.next = some e.block := by
  obtain ⟨hkept, -⟩ := h.not_mem
  have hmap : kept.map Entry.block ≠ [] := fun hnil => hne (List.map_eq_nil_iff.1 hnil)
  have hlast := List.getLast?_eq_some_getLast hmap
  obtain ⟨node, hnode, hnext⟩ := h.last hlast
  refine ⟨?_, _, node, hlast, fun hsame => hkept (hsame ▸ List.getLast_mem hmap), hnode, hnext⟩
  obtain ⟨k, kept', rfl⟩ := List.exists_cons_of_ne_nil hne
  rw [h.head]
  intro hsame
  refine hkept ?_
  rw [Option.some.inj hsame]
  exact List.mem_cons_self

/-- The first node is taken out. -/
theorem Holds.tail (h : Holds heap head (e :: rest)) (heq : ∀ a ≠ e.block, heap' a = heap a) :
    Holds heap' (rest.map Entry.block).head? rest := by
  have hout := (show Holds heap head ([] ++ e :: rest) from h).not_mem.2
  have htail : Holds heap (rest.map Entry.block).head? rest :=
    ⟨rfl, h.links.2, fun e he => h.nodes e (List.mem_cons_of_mem _ he), (List.nodup_cons.1 h.nodup).2⟩
  exact htail.congr fun e' he' => heq _ fun hsame => hout (hsame ▸ List.mem_map_of_mem he')

/-- A later node is taken out: the one before it gets its link. -/
theorem Holds.remove (h : Holds heap head (kept ++ e :: rest)) (hlast : (kept.map Entry.block).getLast? = some p)
    {node : Node H} (hnode : heap p = some node) (hp : heap' p = some { node with next := (rest.map Entry.block).head? })
    (heq : ∀ a, a ≠ p → a ≠ e.block → heap' a = heap a) : Holds heap' head (kept ++ rest) := by
  have hlinks := h.links
  have hnodup := h.nodup
  obtain ⟨hkept, hrest⟩ := h.not_mem
  have hpmem : p ∈ kept.map Entry.block := List.mem_of_getLast? hlast
  rw [List.map_append, List.map_cons] at hlinks hnodup
  have hne : kept ≠ [] := by
    rintro rfl
    cases hlast
  have hother : ∀ e' ∈ kept ++ rest, e'.block ≠ e.block := by
    intro e' he' hsame
    rcases List.mem_append.1 he' with he' | he'
    · exact hkept (hsame ▸ List.mem_map_of_mem he')
    · exact hrest (hsame ▸ List.mem_map_of_mem he')
  constructor
  case head =>
    rw [h.head]
    obtain ⟨k, kept', rfl⟩ := List.exists_cons_of_ne_nil hne
    rfl
  case links =>
    rw [List.map_append]
    refine hlinks.remove hnodup (fun a ha => ?_) fun a ha hnot => ?_
    · have hap : a = p := Option.some.inj (ha.symm.trans hlast)
      rw [hap, nextOf, hp, nextOf, h.node]
      rfl
    · have hane : a ≠ e.block := by
        rintro rfl
        exact ha.elim hkept hrest
      have hap : a ≠ p := by
        rintro rfl
        exact hnot hlast
      rw [nextOf, heq a hap hane, nextOf]
  case nodes =>
    intro e' he'
    have he'' : e' ∈ kept ++ e :: rest := by
      rcases List.mem_append.1 he' with he' | he'
      · exact List.mem_append_left _ he'
      · exact List.mem_append_right _ (List.mem_cons_of_mem _ he')
    obtain ⟨next, hold⟩ := h.nodes e' he''
    by_cases hsame : e'.block = p
    · rw [hsame] at hold ⊢
      rw [hnode] at hold
      cases hold
      exact ⟨_, hp⟩
    · exact ⟨next, by rw [heq _ hsame (hother e' he'), hold]⟩
  case nodup =>
    rw [List.map_append]
    exact hnodup.sublist (List.Sublist.append_left (List.sublist_cons_self _ _) _)

/-! ## `deleteClickable` -/

/-- Where the loop is: `cur` is the first node that is left, `prev` the last one that was kept, if there is one. -/
structure At (kept rest : List (Entry H)) (head prev cur : Option Addr) : Prop where
  here : cur = (rest.map Entry.block).head?
  first : kept = [] → head = cur ∧ prev = cur
  last : kept ≠ [] → prev = (kept.map Entry.block).getLast?

/-- What the loop does with the nodes that are left. -/
structure Deleted (region : Rect) (kept rest : List (Entry H)) (m m' : Mem H) (head : Option Addr) : Prop where
  holds : Holds m'.heap head (kept ++ rest.filter fun e => !startsIn region e)
  freed : m'.freed = m.freed ++ (rest.filter (startsIn region)).map Entry.block
  free : ∀ e ∈ rest.filter (startsIn region), m'.heap e.block = none
  other : ∀ a, a ∉ (kept ++ rest).map Entry.block → m'.heap a = m.heap a

/-- A node that is removed, and then what is done with the others. -/
theorem Deleted.cons {m₁ : Mem H} (h : Deleted region kept rest m₁ m' head) (hin : startsIn region e = true)
    (hfreed : m₁.freed = m.freed ++ [e.block]) (hfree : m₁.heap e.block = none)
    (hout : e.block ∉ (kept ++ rest).map Entry.block)
    (hother : ∀ a, a ∉ (kept ++ e :: rest).map Entry.block → m₁.heap a = m.heap a) :
    Deleted region kept (e :: rest) m m' head where
  holds := by
    rw [List.filter_cons_of_neg (by rw [hin]; decide)]
    exact h.holds
  freed := by
    rw [List.filter_cons_of_pos hin, h.freed, hfreed, List.append_assoc]
    rfl
  free e' he' := by
    rw [List.filter_cons_of_pos hin] at he'
    rcases List.mem_cons.1 he' with rfl | he'
    · rw [h.other _ hout, hfree]
    · exact h.free e' he'
  other a ha := by
    rw [h.other a fun hmem => ha ?_, hother a ha]
    rw [List.map_append] at hmem ⊢
    rcases List.mem_append.1 hmem with hmem | hmem
    · exact List.mem_append_left _ hmem
    · exact List.mem_append_right _ (List.mem_cons_of_mem _ hmem)

/-- A node that is kept. -/
theorem Deleted.keep (h : Deleted region (kept ++ [e]) rest m m' head) (hin : startsIn region e = false) :
    Deleted region kept (e :: rest) m m' head where
  holds := by
    have hholds := h.holds
    rw [List.append_assoc, List.singleton_append] at hholds
    rwa [List.filter_cons_of_pos (by rw [hin]; rfl)]
  freed := by
    rw [List.filter_cons_of_neg (by rw [hin]; decide)]
    exact h.freed
  free := by
    rw [List.filter_cons_of_neg (by rw [hin]; decide)]
    exact h.free
  other a ha := by
    refine h.other a ?_
    rwa [List.append_assoc, List.singleton_append]

theorem write_self {node : Node H} : (m.write a node).heap a = some node := Function.update_self ..

theorem write_of_ne {node : Node H} (h : p ≠ a) : (m.write a node).heap p = m.heap p := Function.update_of_ne h _ _

theorem free_eq {node : Node H} (h : m.heap a = some node) :
    m.free a = some ⟨Function.update m.heap a none, m.freed ++ [a]⟩ := by
  rw [Mem.free, h]
  rfl

/-- The loop, with what it kept so far. -/
theorem deleteLoop_holds (region : Rect) (h : Holds m.heap head (kept ++ rest)) {cur : Option Addr} (hat : At kept rest head prev cur)
    (hn : rest.length < n) :
    ∃ m' head', deleteLoop region n m head prev cur = some (m', head') ∧ Deleted region kept rest m m' head' := by
  induction rest generalizing kept m head prev cur n with
  | nil =>
    obtain ⟨n, rfl⟩ : ∃ k, n = k + 1 := ⟨n - 1, by rw [List.length_nil] at hn; omega⟩
    rw [hat.here]
    exact ⟨m, head, rfl, h, (List.append_nil _).symm, fun e he => absurd he List.not_mem_nil, fun _ _ => rfl⟩
  | cons e rest ih =>
    obtain ⟨n, rfl⟩ : ∃ k, n = k + 1 := ⟨n - 1, by omega⟩
    have hlen : rest.length < n := Nat.lt_of_succ_lt_succ hn
    have hnode := h.node
    obtain ⟨hkept, hrest⟩ := h.not_mem
    have hcur : cur = some e.block := hat.here
    have hout : e.block ∉ (kept ++ rest).map Entry.block := by
      rw [List.map_append, List.mem_append]
      exact not_or.2 ⟨hkept, hrest⟩
    rw [hcur, deleteLoop]
    simp only [Option.bind_eq_bind]
    rw [hnode, Option.bind_some]
    dsimp only
    by_cases hin : isIn e.area.start region
    · rw [if_pos hin]
      by_cases hempty : kept = []
      · -- the head of the list is removed
        subst hempty
        rw [if_pos (hcur.symm.trans (hat.first rfl).1.symm), free_eq hnode, Option.bind_some]
        have hholds : Holds (Function.update m.heap e.block none) (rest.map Entry.block).head? ([] ++ rest) :=
          h.tail fun a ha => Function.update_of_ne ha _ _
        obtain ⟨m', head', hloop, hdel⟩ := ih (m := ⟨_, m.freed ++ [e.block]⟩) hholds
          ⟨rfl, fun _ => ⟨rfl, rfl⟩, fun hne => absurd rfl hne⟩ hlen
        refine ⟨m', head', hloop, hdel.cons (decide_eq_true hin) rfl (Function.update_self ..) hout fun a ha => ?_⟩
        refine Function.update_of_ne (fun hsame => ha ?_) _ _
        rw [hsame]
        exact List.mem_cons_self
      · -- the node before it is linked to the next one
        obtain ⟨hhead, p, node, hp, hpe, hpnode, -⟩ := h.before hempty
        have hread : (m.write p { node with next := (rest.map Entry.block).head? }).heap e.block =
            some ⟨e.area, e.handler, (rest.map Entry.block).head?⟩ := (write_of_ne hpe).trans hnode
        rw [if_neg hhead, hat.last hempty, hp, Option.bind_some, hpnode, Option.bind_some,
          hread, Option.bind_some, free_eq hread, Option.bind_some]
        have hholds : Holds (Function.update (m.write p { node with next := (rest.map Entry.block).head? }).heap e.block none)
            head (kept ++ rest) := by
          refine h.remove hp hpnode ?_ fun a hap hae => ?_
          · exact (Function.update_of_ne hpe.symm _ _).trans write_self
          · exact (Function.update_of_ne hae _ _).trans (write_of_ne hap)
        obtain ⟨m', head', hloop, hdel⟩ := ih (m := ⟨_, m.freed ++ [e.block]⟩) hholds
          ⟨rfl, fun hnil => absurd hnil hempty, fun _ => hp.symm⟩ hlen
        refine ⟨m', head', hloop, hdel.cons (decide_eq_true hin) rfl (Function.update_self ..) hout fun a ha => ?_⟩
        rw [List.map_append, List.mem_append, not_or] at ha
        have hae : a ≠ e.block := fun hsame => ha.2 (hsame ▸ List.mem_cons_self)
        have hap : a ≠ p := fun hsame => ha.1 (hsame ▸ List.mem_of_getLast? hp)
        exact (Function.update_of_ne hae _ _).trans (write_of_ne hap)
    · rw [if_neg hin]
      have hholds : Holds m.heap head ((kept ++ [e]) ++ rest) := by
        rwa [List.append_assoc, List.singleton_append]
      have hlast : ((kept ++ [e]).map Entry.block).getLast? = some e.block := by
        rw [List.map_append, List.map_singleton, List.getLast?_append_of_ne_nil _ (List.cons_ne_nil _ _)]
        rfl
      have hne : kept ++ [e] ≠ [] := List.append_ne_nil_of_right_ne_nil _ (List.cons_ne_nil _ _)
      by_cases hempty : kept = []
      · rw [if_pos (hcur.symm.trans (hat.first hempty).1.symm)]
        obtain ⟨m', head', hloop, hdel⟩ := @ih head prev (kept ++ [e]) m n hholds _
          ⟨rfl, fun hnil => absurd hnil hne, fun _ => by rw [hlast, (hat.first hempty).2, hcur]⟩ hlen
        exact ⟨m', head', hloop, hdel.keep (decide_eq_false hin)⟩
      · obtain ⟨hhead, p, node, hp, -, hpnode, hnext⟩ := h.before hempty
        rw [if_neg hhead, hat.last hempty, hp, Option.bind_some, hpnode, Option.bind_some, hnext]
        obtain ⟨m', head', hloop, hdel⟩ := @ih head (some e.block) (kept ++ [e]) m n hholds _
          ⟨rfl, fun hnil => absurd hnil hne, fun _ => hlast.symm⟩ hlen
        exact ⟨m', head', hloop, hdel.keep (decide_eq_false hin)⟩

/-! ## `executeHandler` -/

theorem executeHandler_holds {click : Point} (h : Holds m.heap head l) (hn : l.length < n) :
    executeHandler m click n head = some ((l.find? fun e => decide (isIn click e.area)).map Entry.handler) := by
  induction l generalizing head n with
  | nil =>
    obtain ⟨n, rfl⟩ : ∃ k, n = k + 1 := ⟨n - 1, by rw [List.length_nil] at hn; omega⟩
    rw [h.head]
    rfl
  | cons e l ih =>
    obtain ⟨n, rfl⟩ : ∃ k, n = k + 1 := ⟨n - 1, by omega⟩
    have hnode := (show Holds m.heap head ([] ++ e :: l) from h).node
    have hhead : head = some e.block := h.head
    rw [hhead, executeHandler]
    simp only [Option.bind_eq_bind]
    rw [hnode, Option.bind_some, List.find?_cons]
    by_cases hin : isIn click e.area
    · rw [if_pos hin, decide_eq_true hin]
      rfl
    · rw [if_neg hin, decide_eq_false hin]
      exact ih (h.tail fun _ _ => rfl) (Nat.lt_of_succ_lt_succ hn)

/-! ## Calls -/

/-- The lists in memory, and nothing else: each block in use is a node of one list. -/
structure Refines (s : State H) (t : Lists H) : Prop where
  holds : ∀ f, Holds s.mem.heap (s.cm f) (t.lists f)
  apart : ∀ f g, f ≠ g → ∀ e ∈ t.lists f, ∀ e' ∈ t.lists g, e.block ≠ e'.block
  used : ∀ a, s.mem.heap a ≠ none → ∃ f, ∃ e ∈ t.lists f, e.block = a
  freed : s.mem.freed = t.freed
  ran : s.ran = t.ran

variable {s s' : State H} {t : Lists H}

theorem Holds.in_use (h : Holds heap head l) (he : e ∈ l) : heap e.block ≠ none := by
  obtain ⟨next, hnode⟩ := h.nodes e he
  rw [hnode]
  exact nofun

theorem Refines.create (h : Refines s t) (f : Field) (r : Rect) (handler : H) {block : Addr} (hfree : s.mem.heap block = none) :
    Refines { s with mem := s.mem.write block ⟨r, handler, s.cm f⟩, cm := Function.update s.cm f (some block) }
      { t with lists := Function.update t.lists f (⟨block, r, handler⟩ :: t.lists f) } := by
  have hnew : ∀ g, ∀ e ∈ t.lists g, e.block ≠ block := fun g e he hsame => (h.holds g).in_use he (hsame ▸ hfree)
  have hold : ∀ g, Holds (s.mem.write block ⟨r, handler, s.cm f⟩).heap (s.cm g) (t.lists g) := fun g =>
    (h.holds g).congr fun e he => write_of_ne (hnew g e he)
  have hmem : ∀ g, ∀ e ∈ Function.update t.lists f (⟨block, r, handler⟩ :: t.lists f) g,
      (g = f ∧ e = ⟨block, r, handler⟩) ∨ e ∈ t.lists g := by
    intro g e he
    by_cases hg : g = f
    · subst hg
      rw [Function.update_self] at he
      exact (List.mem_cons.1 he).imp_left fun heq => ⟨rfl, heq⟩
    · rw [Function.update_of_ne hg] at he
      exact Or.inr he
  constructor
  case holds =>
    intro g
    dsimp only
    by_cases hg : g = f
    · subst hg
      rw [Function.update_self, Function.update_self]
      constructor
      case head => rfl
      case links =>
        refine ⟨?_, (hold g).links⟩
        rw [← (hold g).head, nextOf, write_self]
        rfl
      case nodes =>
        intro e he
        rcases List.mem_cons.1 he with rfl | he
        · exact ⟨_, write_self⟩
        · exact (hold g).nodes e he
      case nodup =>
        refine List.nodup_cons.2 ⟨fun hin => ?_, (hold g).nodup⟩
        obtain ⟨e, he, heq⟩ := List.mem_map.1 hin
        exact hnew g e he heq
    · rw [Function.update_of_ne hg, Function.update_of_ne hg]
      exact hold g
  case apart =>
    intro g g' hgg e he e' he'
    rcases hmem g e he with ⟨rfl, rfl⟩ | hgold
    · rcases hmem g' e' he' with ⟨rfl, -⟩ | hold'
      · exact absurd rfl hgg
      · exact (hnew g' e' hold').symm
    · rcases hmem g' e' he' with ⟨rfl, rfl⟩ | hold'
      · exact hnew g e hgold
      · exact h.apart g g' hgg e hgold e' hold'
  case used =>
    intro a ha
    dsimp only at ha ⊢
    by_cases hb : a = block
    · refine ⟨f, ⟨block, r, handler⟩, ?_, hb.symm⟩
      rw [Function.update_self]
      exact List.mem_cons_self
    · rw [write_of_ne hb] at ha
      obtain ⟨g, e, he, rfl⟩ := h.used a ha
      refine ⟨g, e, ?_, rfl⟩
      by_cases hg : g = f
      · subst hg
        rw [Function.update_self]
        exact List.mem_cons_of_mem _ he
      · rwa [Function.update_of_ne hg]
  case freed => exact h.freed
  case ran => exact h.ran

theorem Refines.delete (h : Refines s t) (f : Field) (hdel : Deleted region [] (t.lists f) s.mem m head) :
    Refines { s with mem := m, cm := Function.update s.cm f head } (t.step (.deleteClickable f region)) := by
  have hmem : ∀ g, ∀ e ∈ Function.update t.lists f ((t.lists f).filter fun e => !startsIn region e) g, e ∈ t.lists g := by
    intro g e he
    by_cases hg : g = f
    · subst hg
      rw [Function.update_self] at he
      exact List.mem_of_mem_filter he
    · rwa [Function.update_of_ne hg] at he
  constructor
  case holds =>
    intro g
    by_cases hg : g = f
    · subst hg
      show Holds m.heap (Function.update s.cm g head g) (Function.update t.lists g _ g)
      rw [Function.update_self, Function.update_self]
      exact hdel.holds
    · show Holds m.heap (Function.update s.cm f head g) (Function.update t.lists f _ g)
      rw [Function.update_of_ne hg, Function.update_of_ne hg]
      refine (h.holds g).congr fun e he => hdel.other _ fun hin => ?_
      obtain ⟨e', he', heq⟩ := List.mem_map.1 hin
      exact h.apart f g (Ne.symm hg) e' he' e he heq
  case apart =>
    intro g g' hgg e he e' he'
    exact h.apart g g' hgg e (hmem g e he) e' (hmem g' e' he')
  case used =>
    intro a ha
    by_cases hin : a ∈ (t.lists f).map Entry.block
    · obtain ⟨e, he, rfl⟩ := List.mem_map.1 hin
      -- a removed node is not in use
      have hkept : startsIn region e = false := by
        by_contra hremoved
        exact ha (hdel.free e (List.mem_filter.2 ⟨he, eq_true_of_ne_false hremoved⟩))
      refine ⟨f, e, ?_, rfl⟩
      show e ∈ Function.update t.lists f _ f
      rw [Function.update_self]
      exact List.mem_filter.2 ⟨he, by rw [hkept]; rfl⟩
    · have hold : s.mem.heap a ≠ none := fun hnone => ha ((hdel.other a hin).trans hnone)
      obtain ⟨g, e, he, rfl⟩ := h.used a hold
      refine ⟨g, e, ?_, rfl⟩
      have hg : g ≠ f := by
        rintro rfl
        exact hin (List.mem_map_of_mem he)
      show e ∈ Function.update t.lists f _ g
      rwa [Function.update_of_ne hg]
  case freed =>
    show m.freed = t.freed ++ _
    rw [hdel.freed, h.freed]
  case ran => exact h.ran

/-- **A call.** Only `malloc` can stand in its way. -/
theorem Refines.step (h : Refines s t) (c : Call H) (hn : ∀ f, (t.lists f).length < n) :
    step n s c = .error .busy ∨ ∃ s', step n s c = .ok s' ∧ Refines s' (t.step c) := by
  cases c with
  | createClickable r msgType handler block =>
    rw [Clickables.step, Lists.step]
    cases msgType.field with
    | none => exact Or.inr ⟨s, rfl, h⟩
    | some f =>
      dsimp only
      split
      · exact Or.inl rfl
      · case isFalse hfree =>
        exact Or.inr ⟨_, rfl, h.create f r handler (Option.not_isSome_iff_eq_none.1 hfree)⟩
  | deleteClickable f region =>
    have hholds : Holds s.mem.heap (s.cm f) ([] ++ t.lists f) := h.holds f
    obtain ⟨m', head', hloop, hdel⟩ := deleteLoop_holds region hholds
      ⟨(h.holds f).head, fun _ => ⟨rfl, rfl⟩, fun hne => absurd rfl hne⟩ (hn f)
    refine Or.inr ⟨_, ?_, h.delete f hdel⟩
    rw [Clickables.step, deleteClickable, hloop]
  | executeHandler f click =>
    refine Or.inr ⟨{ s with ran := s.ran ++ [((t.lists f).find? fun e => decide (isIn click e.area)).map Entry.handler] }, ?_,
      h.holds, h.apart, h.used, h.freed, ?_⟩
    · rw [Clickables.step, executeHandler_holds (h.holds f) (hn f)]
    · show s.ran ++ _ = t.ran ++ _
      rw [h.ran]

/-- A call adds one area at most. -/
theorem Lists.step_length (t : Lists H) (c : Call H) (f : Field) : ((t.step c).lists f).length ≤ (t.lists f).length + 1 := by
  cases c with
  | createClickable r msgType handler block =>
    rw [Lists.step]
    split
    · exact Nat.le_succ _
    · next g _ =>
      show (Function.update t.lists g _ f).length ≤ _
      by_cases hg : f = g
      · rw [hg, Function.update_self]
        exact Nat.le_refl _
      · rw [Function.update_of_ne hg]
        exact Nat.le_succ _
  | deleteClickable g region =>
    show (Function.update t.lists g _ f).length ≤ _
    by_cases hg : f = g
    · rw [hg, Function.update_self]
      exact Nat.le_succ_of_le (List.length_filter_le _ _)
    · rw [Function.update_of_ne hg]
      exact Nat.le_succ _
  | executeHandler g click => exact Nat.le_succ _

theorem Refines.run {calls : List (Call H)} (h : Refines s t) (hn : ∀ f, (t.lists f).length + calls.length < n) :
    run n s calls = .error .busy ∨ ∃ s', run n s calls = .ok s' ∧ Refines s' (calls.foldl Lists.step t) := by
  induction calls generalizing s t with
  | nil => exact Or.inr ⟨s, rfl, h⟩
  | cons c calls ih =>
    have hlen : ∀ f, (t.lists f).length + (calls.length + 1) < n := hn
    rw [Clickables.run, List.foldl_cons]
    rcases h.step c fun f => Nat.lt_of_le_of_lt (Nat.le_add_right _ _) (hlen f) with hbusy | ⟨s', hstep, hs'⟩
    · rw [hbusy]
      exact Or.inl rfl
    · rw [hstep]
      refine ih hs' fun f => ?_
      have hone := t.step_length c f
      have hf := hlen f
      omega

theorem init_refines : Refines (initClickManager : State H) ⟨fun _ => [], [], []⟩ where
  holds _ := ⟨rfl, trivial, fun _ he => absurd he List.not_mem_nil, List.nodup_nil⟩
  apart _ _ _ _ he := absurd he List.not_mem_nil
  used _ ha := absurd rfl ha
  freed := rfl
  ran := rfl

/-- **Clicks are dispatched by the lists**: after any calls, the memory holds the lists that the calls are for, the removed
nodes were freed in turn and no others, and the clicks ran what the lists say; no call used a block that was free. -/
theorem click_dispatch (calls : List (Call H)) :
    run (calls.length + 1) initClickManager calls = .error .busy ∨
      ∃ s, run (calls.length + 1) initClickManager calls = .ok s ∧
        Refines s (calls.foldl Lists.step ⟨fun _ => [], [], []⟩) := by
  refine init_refines.run fun f => ?_
  show 0 + calls.length < calls.length + 1
  omega

/-! ## The lists of the Finder -/

/-- An entry without its block. -/
def Entry.clickable (e : Entry Finder.Handler) : Finder.Clickable := ⟨e.area, e.handler⟩

/-- The lists of the Finder are these lists. -/
theorem finder_delete (l : List (Entry Finder.Handler)) (region : Rect) :
    Finder.deleteClickable (l.map Entry.clickable) region =
      (l.filter fun e => !startsIn region e).map Entry.clickable := by
  induction l with
  | nil => rfl
  | cons e l ih =>
    rw [List.map_cons, Finder.deleteClickable]
    by_cases hin : isIn e.area.start region
    · rw [if_pos (show isIn e.clickable.area.start region from hin), List.filter_cons_of_neg (by simpa [startsIn] using hin)]
      exact ih
    · rw [if_neg (show ¬isIn e.clickable.area.start region from hin),
        List.filter_cons_of_pos (by simpa [startsIn] using hin), List.map_cons, ih]

theorem finder_execute (l : List (Entry Finder.Handler)) (click : Point) :
    (Finder.executeHandler (l.map Entry.clickable) click).map Finder.Clickable.handler =
      (l.find? fun e => decide (isIn click e.area)).map Entry.handler := by
  induction l with
  | nil => rfl
  | cons e l ih =>
    rw [List.map_cons, Finder.executeHandler, List.find?_cons]
    by_cases hin : isIn click e.area
    · rw [if_pos (show isIn click e.clickable.area from hin), decide_eq_true hin]
      rfl
    · rw [if_neg (show ¬isIn click e.clickable.area from hin), decide_eq_false hin]
      exact ih

end NewXv6.Clickables
