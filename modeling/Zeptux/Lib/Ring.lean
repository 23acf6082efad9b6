import Mathlib.Data.List.Nodup
import Mathlib.Logic.Function.Basic

/-!
Intrusive doubly linked rings. Every node of the heap has one `next` and one
`prev` pointer; a ring is the cycle that starts and ends at an anchor, and the
nodes met on the way are its sequence. The operations take the pointers only, so
each lemma says both how the sequence of the touched ring changes and that rings
whose nodes were not touched keep theirs.
-/

namespace IntrusiveRing

structure Links (ν : Type) where
  next : ν → ν
  prev : ν → ν

variable {ν : Type}

namespace Links

variable [DecidableEq ν]

def setNext (links : Links ν) (node target : ν) : Links ν :=
  { links with next := Function.update links.next node target }

def setPrev (links : Links ν) (node target : ν) : Links ν :=
  { links with prev := Function.update links.prev node target }

def isolate (links : Links ν) (node : ν) : Links ν :=
  (links.setNext node node).setPrev node node

def insertBefore (links : Links ν) (node item : ν) : Links ν :=
  let before := links.prev node
  (((links.setPrev node item).setNext before item).setPrev item before).setNext item node

def insertAfter (links : Links ν) (node item : ν) : Links ν :=
  let after := links.next node
  (((links.setNext node item).setPrev after item).setPrev item node).setNext item after

def detach (links : Links ν) (node : ν) : Links ν :=
  let unlinked := links.setNext (links.prev node) (links.next node)
  let unlinked := unlinked.setPrev (unlinked.next node) (unlinked.prev node)
  (unlinked.setPrev node node).setNext node node

theorem insertBefore_next (links : Links ν) (node item query : ν) :
    (links.insertBefore node item).next query =
      if query = item then node
      else if query = links.prev node then item else links.next query := by
  simp [insertBefore, setNext, setPrev, Function.update_apply]

theorem insertBefore_prev (links : Links ν) (node item query : ν) :
    (links.insertBefore node item).prev query =
      if query = item then links.prev node
      else if query = node then item else links.prev query := by
  simp [insertBefore, setNext, setPrev, Function.update_apply]

/-- Behind a node is in front of the next one, once the pointers agree. -/
theorem insertAfter_eq (links : Links ν) {node : ν} (agree : links.prev (links.next node) = node)
    (item : ν) : links.insertAfter node item = links.insertBefore (links.next node) item := by
  simp [insertAfter, insertBefore, setNext, setPrev, agree]

theorem detach_next (links : Links ν) (node query : ν) :
    (links.detach node).next query =
      if query = node then node
      else if query = links.prev node then links.next node else links.next query := by
  simp [detach, setNext, setPrev, Function.update_apply]

theorem detach_prev (links : Links ν) (node query : ν) :
    (links.detach node).prev query =
      if query = node then node
      else if query = links.next node then links.prev node else links.prev query := by
  by_cases alone : links.prev node = node <;>
    simp [detach, setNext, setPrev, Function.update_apply, eq_comm]

end Links

/-- The `next` pointers lead from `start` through `nodes` to `finish`, and the
`prev` pointers lead back. -/
def Segment (links : Links ν) : ν → List ν → ν → Prop
  | start, [], finish => links.next start = finish ∧ links.prev finish = start
  | start, node :: nodes, finish =>
      links.next start = node ∧ links.prev node = start ∧ Segment links node nodes finish

structure Ring (links : Links ν) (anchor : ν) (nodes : List ν) : Prop where
  linked : Segment links anchor nodes anchor
  nodup : (anchor :: nodes).Nodup

theorem segment_append (links : Links ν) (start middle finish : ν) (left right : List ν) :
    Segment links start (left ++ middle :: right) finish ↔
      Segment links start left middle ∧ Segment links middle right finish := by
  induction left generalizing start with
  | nil => simp [Segment, and_assoc]
  | cons node left ih => simp [Segment, ih, and_assoc]

/-- A segment only depends on the `next` pointers of its start and inner nodes and
on the `prev` pointers of its inner nodes and its end. -/
theorem segment_congr {links changed : Links ν} {start finish : ν} {nodes : List ν}
    (sameNext : ∀ node ∈ start :: nodes, changed.next node = links.next node)
    (samePrev : ∀ node ∈ nodes ++ [finish], changed.prev node = links.prev node) :
    Segment changed start nodes finish ↔ Segment links start nodes finish := by
  induction nodes generalizing start with
  | nil => simp_all [Segment]
  | cons node nodes ih =>
      have rest : Segment changed node nodes finish ↔ Segment links node nodes finish := ih
        (fun other member => sameNext other (List.mem_cons_of_mem _ member))
        (fun other member => samePrev other (by
          simp only [List.cons_append, List.mem_cons]
          exact Or.inr member))
      simp only [Segment, rest]
      rw [sameNext start (by simp), samePrev node (by simp)]

theorem Ring.congr {links changed : Links ν} {anchor : ν} {nodes : List ν}
    (ring : Ring links anchor nodes)
    (sameNext : ∀ node ∈ anchor :: nodes, changed.next node = links.next node)
    (samePrev : ∀ node ∈ anchor :: nodes, changed.prev node = links.prev node) :
    Ring changed anchor nodes := by
  refine ⟨(segment_congr sameNext ?_).mpr ring.linked, ring.nodup⟩
  intro node member
  apply samePrev
  simpa [or_comm] using member

theorem Ring.empty_iff {links : Links ν} {anchor : ν} {nodes : List ν}
    (ring : Ring links anchor nodes) : links.next anchor = anchor ↔ nodes = [] := by
  have linked := ring.linked
  have nodup := ring.nodup
  cases nodes with
  | nil => simpa [Segment] using linked.1
  | cons node nodes =>
      simp only [Segment] at linked
      simp only [List.nodup_cons, List.mem_cons, not_or] at nodup
      simp only [linked.1, List.cons_ne_nil, iff_false]
      exact fun same => nodup.1.1 same.symm

theorem Ring.first {links : Links ν} {anchor node : ν} {nodes : List ν}
    (ring : Ring links anchor (node :: nodes)) : links.next anchor = node :=
  ring.linked.1

theorem segment_prev_mem {links : Links ν} {start finish : ν} {nodes : List ν}
    (segment : Segment links start nodes finish) :
    ∀ node ∈ nodes ++ [finish], links.prev node ∈ start :: nodes := by
  induction nodes generalizing start with
  | nil =>
      intro node member
      simp only [List.nil_append, List.mem_singleton] at member
      simp [member, segment.2]
  | cons first nodes ih =>
      intro node member
      simp only [List.cons_append, List.mem_cons] at member
      rcases member with same | later
      · simp [same, segment.2.1]
      · exact List.mem_cons_of_mem _ (ih segment.2.2 node later)

theorem segment_next_mem {links : Links ν} {start finish : ν} {nodes : List ν}
    (segment : Segment links start nodes finish) :
    ∀ node ∈ start :: nodes, links.next node ∈ nodes ++ [finish] := by
  induction nodes generalizing start with
  | nil =>
      intro node member
      simp only [List.mem_singleton] at member
      simp [member, segment.1]
  | cons first nodes ih =>
      intro node member
      rcases List.mem_cons.mp member with same | later
      · simp [same, segment.1]
      · exact List.mem_cons_of_mem _ (ih segment.2.2 node later)

theorem Ring.prev_mem {links : Links ν} {anchor node : ν} {nodes : List ν}
    (ring : Ring links anchor nodes) (member : node ∈ anchor :: nodes) :
    links.prev node ∈ anchor :: nodes := by
  apply segment_prev_mem ring.linked
  simpa [or_comm] using member

theorem Ring.next_mem {links : Links ν} {anchor node : ν} {nodes : List ν}
    (ring : Ring links anchor nodes) (member : node ∈ anchor :: nodes) :
    links.next node ∈ anchor :: nodes := by
  have found := segment_next_mem ring.linked node member
  simpa [or_comm] using found

/-- The node of a ring in front of which an item goes to stand before `right`. -/
def insertionPoint (anchor : ν) (right : List ν) : ν := right.head?.getD anchor

theorem insertionPoint_mem (anchor : ν) (left right : List ν) :
    insertionPoint anchor right ∈ anchor :: (left ++ right) := by
  cases right <;> simp [insertionPoint]

theorem Ring.next_ne {links : Links ν} {anchor node : ν} {nodes : List ν}
    (ring : Ring links anchor nodes) (member : node ∈ nodes) : links.next node ≠ node := by
  obtain ⟨left, right, rfl⟩ := List.append_of_mem member
  have rest := ((segment_append links anchor node anchor left right).mp ring.linked).2
  have nodup := ring.nodup
  simp only [List.nodup_cons, List.mem_append, List.mem_cons, not_or, List.nodup_append] at nodup
  cases right with
  | nil =>
      rw [rest.1]
      exact nodup.1.2.1
  | cons after right =>
      rw [rest.1]
      rintro rfl
      exact nodup.2.2.1.1 List.mem_cons_self

section Operations

variable [DecidableEq ν]

theorem segment_insertBefore {links : Links ν} {start node item : ν} {left : List ν}
    (segment : Segment links start left node) (fresh : item ∉ start :: left)
    (distinct : item ≠ node) (nodup : (start :: left).Nodup) (absent : node ∉ left) :
    Segment (links.insertBefore node item) start (left ++ [item]) node := by
  induction left generalizing start with
  | nil =>
      have startFresh : start ≠ item := fun same => fresh (by simp [same])
      simp only [Segment] at segment
      simp [Segment, Links.insertBefore_next, Links.insertBefore_prev, segment.2, startFresh,
        distinct.symm]
  | cons first left ih =>
      have startFresh : start ≠ item := fun same => fresh (by simp [same])
      have firstFresh : first ≠ item := fun same => fresh (by simp [same])
      have firstOld : first ≠ node := fun same => absent (by simp [same])
      have startLast : start ≠ links.prev node := by
        intro same
        have inside := segment_prev_mem segment.2.2 node (by simp)
        rw [← same] at inside
        exact (List.nodup_cons.mp nodup).1 inside
      simp only [Segment] at segment
      refine ⟨?_, ?_, ?_⟩
      · simp [Links.insertBefore_next, startFresh, startLast, segment.1]
      · simp [Links.insertBefore_prev, firstFresh, firstOld, segment.2.1]
      · exact ih segment.2.2 (fun member => fresh (List.mem_cons_of_mem _ member))
          (List.nodup_cons.mp nodup).2 (fun member => absent (List.mem_cons_of_mem _ member))

theorem segment_detach {links : Links ν} {start node finish : ν} {left right : List ν}
    (segment : Segment links start (left ++ node :: right) finish)
    (nodup : (start :: (left ++ node :: right)).Nodup)
    (nodupEnd : (left ++ node :: right ++ [finish]).Nodup) :
    Segment (links.detach node) start (left ++ right) finish := by
  induction left generalizing start with
  | nil =>
      simp only [List.nil_append, Segment] at segment ⊢
      obtain ⟨forward, backward, rest⟩ := segment
      have startOther : start ≠ node := by
        simp only [List.nil_append, List.nodup_cons, List.mem_cons, not_or] at nodup
        exact nodup.1.1
      cases right with
      | nil =>
          have finishOther : finish ≠ node := by
            intro same
            simp [same] at nodupEnd
          simp [Segment] at rest
          simp [Segment, Links.detach_next, Links.detach_prev, startOther, finishOther, backward,
            rest]
      | cons first right =>
          simp only [Segment] at rest ⊢
          simp only [List.nil_append, List.cons_append, List.nodup_cons, List.mem_cons,
            List.mem_append, not_or] at nodup nodupEnd
          have firstOther : first ≠ node := fun same => nodup.2.1.1 same.symm
          refine ⟨?_, ?_, (segment_congr ?_ ?_).mpr rest.2.2⟩
          · simp [Links.detach_next, startOther, backward, rest.1]
          · simp [Links.detach_prev, firstOther, backward, rest.1]
          · intro other member
            have otherNode : other ≠ node := by
              rintro rfl
              exact (List.mem_cons.mp member).elim nodup.2.1.1 nodup.2.1.2
            have otherStart : other ≠ links.prev node := by
              rw [backward]
              rintro rfl
              exact (List.mem_cons.mp member).elim nodup.1.2.1 nodup.1.2.2
            simp [Links.detach_next, otherNode, otherStart]
          · intro other member
            have otherNode : other ≠ node := by
              rintro rfl
              rcases List.mem_append.mp member with inside | last
              · exact nodup.2.1.2 inside
              · simp only [List.mem_singleton] at last
                simp [last] at nodupEnd
            have otherFirst : other ≠ links.next node := by
              rw [rest.1]
              rintro rfl
              rcases List.mem_append.mp member with inside | last
              · exact nodupEnd.2.1.1 inside
              · exact nodupEnd.2.1.2.1 (List.mem_singleton.mp last)
            simp [Links.detach_prev, otherNode, otherFirst]
  | cons first left ih =>
      simp only [List.cons_append, Segment] at segment ⊢
      have tail := (segment_append links first node finish left right).mp segment.2.2
      have before := segment_prev_mem tail.1 node (by simp)
      have after := segment_next_mem tail.2 node (by simp)
      simp only [List.cons_append, List.nodup_cons, List.mem_cons, List.mem_append,
        not_or] at nodup nodupEnd
      have startNode : start ≠ node := nodup.1.2.2.1
      have firstNode : first ≠ node := nodup.2.1.2.1
      have startBefore : start ≠ links.prev node := by
        intro same
        rw [← same] at before
        exact (List.mem_cons.mp before).elim nodup.1.1 nodup.1.2.1
      have firstAfter : first ≠ links.next node := by
        intro same
        rw [← same] at after
        rcases List.mem_append.mp after with inside | last
        · exact nodup.2.1.2.2 inside
        · exact nodupEnd.1.2.1 (List.mem_singleton.mp last)
      refine ⟨?_, ?_, ?_⟩
      · simp [Links.detach_next, startNode, startBefore, segment.1]
      · simp [Links.detach_prev, firstNode, firstAfter, segment.2.1]
      · apply ih segment.2.2
        · simp only [List.nodup_cons, List.mem_append, List.mem_cons, not_or]
          exact nodup.2
        · simpa using nodupEnd.2

theorem Ring.insertAt {links : Links ν} {anchor item : ν} {left right : List ν}
    (ring : Ring links anchor (left ++ right)) (fresh : item ∉ anchor :: (left ++ right)) :
    Ring (links.insertBefore (insertionPoint anchor right) item) anchor (left ++ item :: right) := by
  have nodup := ring.nodup
  simp only [List.mem_cons, List.mem_append, not_or] at fresh
  simp only [List.nodup_cons, List.mem_append, not_or, List.nodup_append] at nodup
  obtain ⟨⟨anchorLeft, anchorRight⟩, leftNodup, rightNodup, across⟩ := nodup
  have freshLeft : item ∉ anchor :: left := by
    simp only [List.mem_cons, not_or]
    exact ⟨fresh.1, fresh.2.1⟩
  have leftAnchored : (anchor :: left).Nodup := List.nodup_cons.mpr ⟨anchorLeft, leftNodup⟩
  refine ⟨?_, ?_⟩
  · cases right with
    | nil =>
        have linked := ring.linked
        rw [List.append_nil] at linked
        exact segment_insertBefore linked freshLeft fresh.1 leftAnchored anchorLeft
    | cons node right =>
        have parts := (segment_append links anchor node anchor left right).mp ring.linked
        have point : insertionPoint anchor (node :: right) = node := rfl
        have itemNode : item ≠ node := fun same => fresh.2.2 (by simp [same])
        have nodeLeft : node ∉ left := fun member => across node member node (by simp) rfl
        have nodeAnchor : node ≠ anchor := fun same => anchorRight (by simp [same])
        have front := segment_insertBefore parts.1 freshLeft itemNode leftAnchored nodeLeft
        have last := segment_prev_mem parts.1 node (by simp)
        rw [point, segment_append]
        have atItem := (segment_append _ anchor item node left []).mp front
        refine ⟨atItem.1, atItem.2.1, atItem.2.2, (segment_congr ?_ ?_).mpr parts.2⟩
        · intro other member
          have otherItem : other ≠ item := fun same => fresh.2.2 (same ▸ member)
          have otherLast : other ≠ links.prev node := by
            rintro rfl
            rcases List.mem_cons.mp last with isAnchor | inLeft
            · exact anchorRight (isAnchor ▸ member)
            · exact across _ inLeft _ member rfl
          simp [Links.insertBefore_next, otherItem, otherLast]
        · intro other member
          have otherItem : other ≠ item := by
            rintro rfl
            rcases List.mem_append.mp member with inRight | isAnchor
            · exact fresh.2.2 (List.mem_cons_of_mem _ inRight)
            · exact fresh.1 (List.mem_singleton.mp isAnchor)
          have otherNode : other ≠ node := by
            rintro rfl
            rcases List.mem_append.mp member with inRight | isAnchor
            · exact (List.nodup_cons.mp rightNodup).1 inRight
            · exact nodeAnchor (List.mem_singleton.mp isAnchor)
          simp [Links.insertBefore_prev, otherItem, otherNode]
  · have moved : (anchor :: (left ++ item :: right)).Perm (item :: anchor :: (left ++ right)) :=
      (List.Perm.cons anchor List.perm_middle).trans (List.Perm.swap item anchor _)
    rw [moved.nodup_iff, List.nodup_cons]
    refine ⟨?_, ring.nodup⟩
    simp only [List.mem_cons, List.mem_append, not_or]
    exact fresh

theorem Ring.insertBefore_other {links : Links ν} {anchor other node item : ν}
    {nodes otherNodes : List ν} (ring : Ring links anchor nodes) (member : node ∈ anchor :: nodes)
    (otherRing : Ring links other otherNodes) (fresh : item ∉ other :: otherNodes)
    (apart : ∀ node ∈ anchor :: nodes, node ∉ other :: otherNodes) :
    Ring (links.insertBefore node item) other otherNodes := by
  have lastOutside := apart _ (ring.prev_mem member)
  apply otherRing.congr
  · intro query inside
    have first : query ≠ item := fun same => fresh (same ▸ inside)
    have second : query ≠ links.prev node := fun same => lastOutside (same ▸ inside)
    simp [Links.insertBefore_next, first, second]
  · intro query inside
    have first : query ≠ item := fun same => fresh (same ▸ inside)
    have second : query ≠ node := fun same => apart node member (same ▸ inside)
    simp [Links.insertBefore_prev, first, second]

theorem Ring.detach {links : Links ν} {anchor node : ν} {left right : List ν}
    (ring : Ring links anchor (left ++ node :: right)) :
    Ring (links.detach node) anchor (left ++ right) := by
  have parts := List.nodup_cons.mp ring.nodup
  refine ⟨segment_detach ring.linked ring.nodup ?_, ?_⟩
  · rw [List.nodup_append]
    refine ⟨parts.2, by simp, ?_⟩
    rintro inside member last lastMember rfl
    rw [List.mem_singleton] at lastMember
    exact parts.1 (lastMember ▸ member)
  · refine List.Nodup.sublist ?_ ring.nodup
    exact List.Sublist.cons_cons _ (List.Sublist.append_left (List.sublist_cons_self _ _) _)

theorem Ring.detach_other {links : Links ν} {anchor other node : ν}
    {nodes otherNodes : List ν} (ring : Ring links anchor nodes)
    (otherRing : Ring links other otherNodes) (member : node ∈ nodes)
    (apart : ∀ node ∈ anchor :: nodes, node ∉ other :: otherNodes) :
    Ring (links.detach node) other otherNodes := by
  have inside : node ∈ anchor :: nodes := List.mem_cons_of_mem _ member
  have before := apart _ (ring.prev_mem inside)
  have after := apart _ (ring.next_mem inside)
  apply otherRing.congr
  · intro query queryMember
    have first : query ≠ node := fun same => apart node inside (same ▸ queryMember)
    have second : query ≠ links.prev node := fun same => before (same ▸ queryMember)
    simp [Links.detach_next, first, second]
  · intro query queryMember
    have first : query ≠ node := fun same => apart node inside (same ▸ queryMember)
    have second : query ≠ links.next node := fun same => after (same ▸ queryMember)
    simp [Links.detach_prev, first, second]

/-! ## Families of rings

A heap that holds several lists at once: every anchor owns a ring, and no node is
in two of them. -/

structure Family (links : Links ν) (Anchor : ν → Prop) (sequence : ν → List ν) : Prop where
  ring : ∀ anchor, Anchor anchor → Ring links anchor (sequence anchor)
  apart : ∀ anchor other, Anchor anchor → Anchor other → anchor ≠ other →
    ∀ node ∈ anchor :: sequence anchor, node ∉ other :: sequence other

variable {links : Links ν} {Anchor : ν → Prop} {sequence : ν → List ν}

theorem Family.insertAt (family : Family links Anchor sequence) {anchor item : ν}
    {left right : List ν} (valid : Anchor anchor) (shape : sequence anchor = left ++ right)
    (fresh : ∀ other, Anchor other → item ∉ other :: sequence other) :
    Family (links.insertBefore (insertionPoint anchor right) item) Anchor
      (Function.update sequence anchor (left ++ item :: right)) := by
  have ring := family.ring anchor valid
  have point := insertionPoint_mem anchor left right
  have members : ∀ node, node ∈ anchor :: (left ++ item :: right) ↔
      node = item ∨ node ∈ anchor :: sequence anchor := by
    intro node
    rw [shape]
    simp only [List.mem_cons, List.mem_append]
    tauto
  refine ⟨?_, ?_⟩
  · intro other otherValid
    by_cases same : other = anchor
    · subst other
      have absent := fresh anchor valid
      rw [shape] at ring absent
      simpa using ring.insertAt absent
    · rw [Function.update_of_ne same]
      rw [← shape] at point
      exact ring.insertBefore_other point (family.ring other otherValid)
        (fresh other otherValid) (family.apart anchor other valid otherValid (Ne.symm same))
  · intro first second firstValid secondValid different node member
    have old := family.apart first second firstValid secondValid different
    by_cases firstSame : first = anchor
    · subst first
      have secondOther : second ≠ anchor := Ne.symm different
      rw [Function.update_self, members] at member
      rw [Function.update_of_ne secondOther]
      rcases member with rfl | inside
      · exact fresh second secondValid
      · exact old node inside
    · rw [Function.update_of_ne firstSame] at member
      by_cases secondSame : second = anchor
      · subst second
        rw [Function.update_self, members, not_or]
        refine ⟨?_, old node member⟩
        rintro rfl
        exact fresh first firstValid member
      · rw [Function.update_of_ne secondSame]
        exact old node member

theorem Family.pushBack (family : Family links Anchor sequence) {anchor item : ν}
    (valid : Anchor anchor)
    (fresh : ∀ other, Anchor other → item ∉ other :: sequence other) :
    Family (links.insertBefore anchor item) Anchor
      (Function.update sequence anchor (sequence anchor ++ [item])) :=
  family.insertAt valid (List.append_nil _).symm fresh

theorem Family.detach (family : Family links Anchor sequence) {anchor node : ν}
    (valid : Anchor anchor) (member : node ∈ sequence anchor) :
    Family (links.detach node) Anchor
      (Function.update sequence anchor ((sequence anchor).erase node)) := by
  have shrink : ∀ other query, query ∈ other :: Function.update sequence anchor
      ((sequence anchor).erase node) other → query ∈ other :: sequence other := by
    intro other query inside
    by_cases same : other = anchor
    · subst other
      rw [Function.update_self] at inside
      rcases List.mem_cons.mp inside with first | rest
      · simp [first]
      · exact List.mem_cons_of_mem _ (List.mem_of_mem_erase rest)
    · rwa [Function.update_of_ne same] at inside
  refine ⟨?_, ?_⟩
  · intro other otherValid
    by_cases same : other = anchor
    · subst other
      obtain ⟨left, right, shape⟩ := List.append_of_mem member
      have ring := family.ring anchor valid
      rw [shape] at ring
      have absent : node ∉ left := by
        have nodup := (List.nodup_cons.mp ring.nodup).2
        rw [List.nodup_append] at nodup
        exact fun inside => nodup.2.2 node inside node (by simp) rfl
      rw [Function.update_self, shape, List.erase_append_right _ absent, List.erase_cons_head]
      exact ring.detach
    · rw [Function.update_of_ne same]
      exact (family.ring anchor valid).detach_other (family.ring other otherValid) member
        (family.apart anchor other valid otherValid (Ne.symm same))
  · intro first second firstValid secondValid different query inside outside
    exact family.apart first second firstValid secondValid different query
      (shrink first query inside) (shrink second query outside)

end Operations

end IntrusiveRing
