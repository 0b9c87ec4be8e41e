import NewXv6.Lib.Links

/-!
# Circular lists with a sentinel

`next` and `prev` are the links of a circular doubly linked list; `none` is its sentinel. Read from the sentinel it is
the doubly linked list `links`, and the operations are those of `Links`: an element is taken out (`Circle.unlink`) or
put in behind the sentinel (`Circle.pushFront`).
-/

namespace NewXv6.Lib

/-- The links of a circular list. -/
structure Circle (I : Type) where
  next : Option I → Option I
  prev : Option I → Option I

namespace Circle

variable {I : Type} {c : Circle I} {l : List I} {p : I}

/-- The list from the sentinel to the sentinel. -/
def links (c : Circle I) : Links I where
  head := c.next none
  tail := c.prev none
  prior a := c.prev (some a)
  next a := c.next (some a)

/-- A sentinel alone. -/
def empty : Circle I where
  next _ := none
  prev _ := none

theorem empty_holds : (empty : Circle I).links.Holds [] :=
  ⟨List.nodup_nil, rfl, rfl, trivial, trivial⟩

variable [DecidableEq I]

/-- `p->next->prev = p->prev; p->prev->next = p->next`. -/
def unlink (c : Circle I) (p : I) : Circle I :=
  let prev := Function.update c.prev (c.next (some p)) (c.prev (some p))
  { next := Function.update c.next (prev (some p)) (c.next (some p)), prev }

/-- `p->next = head.next; p->prev = &head; head.next->prev = p; head.next = p`. -/
def pushFront (c : Circle I) (p : I) : Circle I :=
  let next := Function.update c.next (some p) (c.next none)
  let prev := Function.update c.prev (some p) none
  { next := Function.update next none (some p), prev := Function.update prev (next none) (some p) }

theorem links_unlink (hp : c.next (some p) ≠ some p) : (c.unlink p).links = c.links.unlink p := by
  have hprev : (Function.update c.prev (c.next (some p)) (c.prev (some p))) (some p) = c.prev (some p) :=
    Function.update_of_ne hp.symm _ _
  unfold links unlink Links.unlink
  simp only [hprev, Links.mk.injEq]
  refine ⟨?_, ?_, ?_, ?_⟩
  · cases c.prev (some p) <;> simp
  · cases c.next (some p) <;> simp
  · funext a
    cases c.next (some p) with
    | none => simp [Links.setLink]
    | some b => simp [Links.setLink, Function.update_apply]
  · funext a
    cases c.prev (some p) with
    | none => simp [Links.setLink]
    | some b => simp [Links.setLink, Function.update_apply]

/-- An element is taken out. -/
theorem unlink_holds {l₁ l₂ : List I} (h : c.links.Holds (l₁ ++ p :: l₂)) : (c.unlink p).links.Holds (l₁ ++ l₂) := by
  rw [links_unlink]
  · exact h.unlink
  · rw [show c.next (some p) = l₂.head? from h.split.2]
    intro hc
    have hnodup := (List.nodup_append.1 h.nodup).2.1
    exact (List.nodup_cons.1 hnodup).1 (List.mem_of_mem_head? hc)

/-- An element is put in behind the sentinel. -/
theorem pushFront_holds (h : c.links.Holds l) (hp : p ∉ l) : (c.pushFront p).links.Holds (p :: l) := by
  have hne : ∀ a ∈ l, a ≠ p := by
    rintro a ha rfl
    exact hp ha
  have hhead : c.next none = l.head? := h.head
  have hfirst : c.next none ≠ some p := by
    rw [hhead]
    exact fun hc => hp (List.mem_of_mem_head? hc)
  have hnone : Function.update c.next (some p) (c.next none) none = l.head? := by
    rw [Function.update_of_ne (by simp), hhead]
  refine ⟨List.nodup_cons.2 ⟨hp, h.nodup⟩, ?_, ?_, h.next.cons ?_ fun a ha => ?_, ?_⟩
  · simp [links, pushFront]
  · have htail : c.prev none = l.getLast? := h.tail
    show Function.update (Function.update c.prev (some p) none) (Function.update c.next (some p) (c.next none) none)
      (some p) none = _
    rw [hnone]
    cases l with
    | nil => simp
    | cons a l => simp [htail]
  · simp [links, pushFront, hhead]
  · simp [links, pushFront, hne a ha]
  · rw [List.reverse_cons]
    refine h.prior.snoc (List.nodup_reverse.2 h.nodup) ?_ (fun a ha => ?_) fun a ha hlast => ?_
    · simp [links, pushFront, Function.update_of_ne hfirst.symm]
    · rw [List.getLast?_reverse] at ha
      simp [links, pushFront, hhead, ha]
    · rw [List.getLast?_reverse] at hlast
      have hap := hne a (List.mem_reverse.1 ha)
      simp only [links, pushFront]
      rw [Function.update_of_ne, Function.update_of_ne]
      · exact fun hc => hap (Option.some.inj hc)
      · rw [hnone]
        exact fun hc => hlast hc.symm

end Circle

end NewXv6.Lib
