import Mathlib.Data.List.Perm.Subperm
import Zeptux.ListCore

/-! Lists as sequences: what the operations do to every list of a heap. -/

namespace Zeptux

open IntrusiveRing

section

variable {ν : Type} {links : Links ν} {Head : ν → Prop} {sequence : ν → List ν}

/-- A node that `list_node_init` or `list_detach` left in a ring of its own. -/
structure Isolated (links : Links ν) (Head : ν → Prop) (node : ν) : Prop where
  next : links.next node = node
  prev : links.prev node = node
  notHead : ¬Head node

theorem Isolated.ring {node : ν} (isolated : Isolated links Head node) : Ring links node [] :=
  ⟨⟨isolated.next, isolated.prev⟩, List.nodup_singleton node⟩

theorem Isolated.fresh {node : ν} (isolated : Isolated links Head node)
    (family : Family links Head sequence) {list : ν} (head : Head list) :
    node ∉ list :: sequence list := by
  intro member
  rcases List.mem_cons.mp member with rfl | inside
  · exact isolated.notHead head
  · exact (family.ring list head).next_ne inside isolated.next

theorem Isolated.of_ring {node : ν} (ring : Ring links node []) (notHead : ¬Head node) :
    Isolated links Head node :=
  ⟨ring.linked.1, ring.linked.2, notHead⟩

theorem next_eq_insertionPoint {start finish : ν} {right : List ν}
    (segment : Segment links start right finish) :
    links.next start = insertionPoint finish right ∧
      links.prev (links.next start) = start := by
  cases right with
  | nil =>
      obtain ⟨forward, backward⟩ := segment
      rw [forward]
      exact ⟨rfl, backward⟩
  | cons node right =>
      obtain ⟨forward, backward, _⟩ := segment
      rw [forward]
      exact ⟨rfl, backward⟩

variable [DecidableEq ν]

/-- The list at `list` now holds `nodes` and every other list what it held; nodes that were
isolated still are, except for the one that the operation is about. -/
structure Becomes (links changed : Links ν) (Head : ν → Prop) (sequence : ν → List ν) (list : ν)
    (nodes : List ν) (node : ν) : Prop where
  family : Family changed Head (Function.update sequence list nodes)
  isolated : ∀ other, other ≠ node → Isolated links Head other → Isolated changed Head other

/-! ## Initialisation -/

theorem listNodeInit_ring (links : Links ν) (node : ν) : Ring (listNodeInit links node) node [] := by
  refine ⟨⟨?_, ?_⟩, List.nodup_singleton node⟩ <;>
    simp [listNodeInit, Links.setNext, Links.setPrev]

theorem nodeInit_family (family : Family links Head sequence) {node : ν}
    (fresh : ∀ list, Head list → node ∉ list :: sequence list) :
    Family (listNodeInit links node) Head sequence ∧
      Isolated (listNodeInit links node) Head node := by
  refine ⟨⟨?_, family.apart⟩, Isolated.of_ring (listNodeInit_ring links node) ?_⟩
  · intro list head
    apply (family.ring list head).congr
    all_goals
      intro other member
      have different : other ≠ node := fun same => fresh list head (same ▸ member)
      simp [listNodeInit, Links.setNext, Links.setPrev, different]
  · exact fun head => fresh node head List.mem_cons_self

theorem init_family (family : Family links Head sequence) {list : ν}
    (fresh : ∀ other, Head other → list ∉ other :: sequence other) (empty : sequence list = []) :
    Family (listInit links list) (fun other => other = list ∨ Head other) sequence := by
  obtain ⟨kept, _⟩ := nodeInit_family family fresh
  have apart : ∀ other, Head other → ∀ node ∈ other :: sequence other, node ∉ list :: [] := by
    intro other head node member same
    rw [List.mem_singleton.mp same] at member
    exact fresh other head member
  refine ⟨?_, ?_⟩
  · rintro other (rfl | head)
    · rw [empty]
      exact listNodeInit_ring links other
    · exact kept.ring other head
  · rintro first second (rfl | firstHead) (rfl | secondHead) different node member
    · exact absurd rfl different
    · rw [empty] at member
      exact fun inside => apart second secondHead node inside member
    · rw [empty]
      exact apart first firstHead node member
    · exact family.apart first second firstHead secondHead different node member

/-! ## Insertion -/

theorem insert_becomes (family : Family links Head sequence) {list it : ν} {left right : List ν}
    (head : Head list) (shape : sequence list = left ++ right)
    (isolated : Isolated links Head it) :
    Becomes links (links.insertBefore (insertionPoint list right) it) Head sequence list
      (left ++ it :: right) it := by
  refine ⟨family.insertAt head shape fun other otherHead => isolated.fresh family otherHead, ?_⟩
  intro other different alone
  have point := insertionPoint_mem list left right
  rw [← shape] at point
  have kept := (family.ring list head).insertBefore_other point alone.ring
    (by simpa using Ne.symm different) (by
      intro node member same
      rw [List.mem_singleton.mp same] at member
      exact alone.fresh family head member)
  exact Isolated.of_ring kept alone.notHead

theorem pushBack_becomes (family : Family links Head sequence) {list it : ν} (head : Head list)
    (isolated : Isolated links Head it) :
    Becomes links (listPushBack links list it) Head sequence list (sequence list ++ [it]) it := by
  rw [listPushBack, listNodeInsertBefore_eq]
  exact insert_becomes family head (List.append_nil _).symm isolated

theorem pushFront_becomes (family : Family links Head sequence) {list it : ν} (head : Head list)
    (isolated : Isolated links Head it) :
    Becomes links (listPushFront links list it) Head sequence list (it :: sequence list) it := by
  obtain ⟨place, agree⟩ := next_eq_insertionPoint (family.ring list head).linked
  rw [listPushFront, listNodeInsertAfter_eq, links.insertAfter_eq agree, place]
  exact insert_becomes family head (List.nil_append _).symm isolated

theorem insertBefore_becomes (family : Family links Head sequence) {list node it : ν}
    {left right : List ν} (head : Head list) (shape : sequence list = left ++ node :: right)
    (isolated : Isolated links Head it) :
    Becomes links (listNodeInsertBefore links node it) Head sequence list
      (left ++ it :: node :: right) it := by
  rw [listNodeInsertBefore_eq]
  exact insert_becomes family head shape isolated

theorem insertAfter_becomes (family : Family links Head sequence) {list node it : ν}
    {left right : List ν} (head : Head list) (shape : sequence list = left ++ node :: right)
    (isolated : Isolated links Head it) :
    Becomes links (listNodeInsertAfter links node it) Head sequence list
      (left ++ node :: it :: right) it := by
  have linked := (family.ring list head).linked
  rw [shape, segment_append] at linked
  obtain ⟨place, agree⟩ := next_eq_insertionPoint linked.2
  rw [listNodeInsertAfter_eq, links.insertAfter_eq agree, place]
  have behind : sequence list = (left ++ [node]) ++ right := by simp [shape]
  simpa using insert_becomes family head behind isolated

/-! ## Removal -/

theorem listDetach_isolated (family : Family links Head sequence) {list node : ν}
    (head : Head list) (member : node ∈ sequence list) :
    Isolated (listDetach links node) Head node := by
  refine ⟨by simp [listDetach_eq, Links.detach_next], by simp [listDetach_eq, Links.detach_prev], ?_⟩
  intro nodeHead
  by_cases same : list = node
  · subst same
    exact (List.nodup_cons.mp (family.ring list head).nodup).1 member
  · exact family.apart list node head nodeHead same node (List.mem_cons_of_mem _ member)
      List.mem_cons_self

theorem detach_becomes (family : Family links Head sequence) {list node : ν} {left right : List ν}
    (head : Head list) (shape : sequence list = left ++ node :: right) :
    Becomes links (listDetach links node) Head sequence list (left ++ right) node := by
  have ring := family.ring list head
  have member : node ∈ sequence list := by simp [shape]
  have rest : (sequence list).erase node = left ++ right := by
    have nodup := (List.nodup_cons.mp ring.nodup).2
    rw [shape, List.nodup_append] at nodup
    have absent : node ∉ left := fun inside => nodup.2.2 node inside node (by simp) rfl
    rw [shape, List.erase_append_right _ absent, List.erase_cons_head]
  refine ⟨?_, ?_⟩
  · rw [← rest]
    exact family.detach head member
  · intro other different alone
    have kept := ring.detach_other alone.ring member (by
      intro query inside same
      rw [List.mem_singleton.mp same] at inside
      exact alone.fresh family head inside)
    exact Isolated.of_ring kept alone.notHead

theorem detach_alone {node : ν} (isolated : Isolated links Head node) :
    listDetach links node = links := by
  have next := Function.update_eq_self node links.next
  have prev := Function.update_eq_self node links.prev
  rw [isolated.next] at next
  rw [isolated.prev] at prev
  simp [listDetach, Links.setNext, Links.setPrev, isolated.next, isolated.prev, next, prev]

/-! ## Loops -/

theorem listEmpty_iff {list : ν} {nodes : List ν} (ring : Ring links list nodes) :
    listEmpty links list = true ↔ nodes = [] := by
  rw [listEmpty, decide_eq_true_eq]
  exact ring.empty_iff

theorem listCountFrom_segment {list start : ν} {nodes : List ν} {rounds ret : Nat}
    (segment : Segment links start nodes list) (absent : list ∉ nodes)
    (enough : nodes.length < rounds) (small : ret + nodes.length < 2 ^ 64) :
    listCountFrom links list rounds (links.next start) ret = some (ret + nodes.length) := by
  induction nodes generalizing start rounds ret with
  | nil =>
      obtain ⟨rounds, rfl⟩ := Nat.exists_eq_succ_of_ne_zero (by omega : rounds ≠ 0)
      rw [segment.1, listCountFrom, if_neg (by simp)]
      rfl
  | cons node nodes ih =>
      obtain ⟨rounds, rfl⟩ := Nat.exists_eq_succ_of_ne_zero (by omega : rounds ≠ 0)
      obtain ⟨forward, _, rest⟩ := segment
      simp only [List.mem_cons, not_or] at absent
      simp only [List.length_cons] at enough small
      rw [forward, listCountFrom, if_pos (Ne.symm absent.1), Nat.mod_eq_of_lt (by omega),
        ih rest absent.2 (by omega) (by omega), List.length_cons]
      congr 1
      omega

theorem listCount_eq {list : ν} {nodes : List ν} {rounds : Nat} (ring : Ring links list nodes)
    (enough : nodes.length < rounds) (small : nodes.length < 2 ^ 64) :
    listCount rounds links list = some nodes.length := by
  have counted := listCountFrom_segment ring.linked (List.nodup_cons.mp ring.nodup).1 enough
    (by omega : 0 + nodes.length < 2 ^ 64)
  rwa [Nat.zero_add] at counted

/-- When the body is run for these nodes in turn, each time the list holds those that are left.
What becomes of the node that was detached is open: it may be freed, or put in another list. -/
def DetachesCurrent {σ : Type} (linksOf : σ → Links ν) (list : ν) (body : ν → σ → σ) :
    List ν → σ → Prop
  | [], _ => True
  | node :: nodes, state =>
      Ring (linksOf (body node state)) list nodes ∧
        DetachesCurrent linksOf list body nodes (body node state)

theorem listDetach_detachesCurrent {list : ν} {nodes : List ν} {links : Links ν}
    (ring : Ring links list nodes) :
    DetachesCurrent id list (fun node links => listDetach links node) nodes links := by
  induction nodes generalizing links with
  | nil => trivial
  | cons node nodes ih =>
      have rest : Ring (listDetach links node) list nodes :=
        Ring.detach (show Ring links list ([] ++ node :: nodes) from ring)
      exact ⟨rest, ih rest⟩

theorem forEachListElementSafeFrom_visits {σ : Type} {linksOf : σ → Links ν} {list : ν}
    {body : ν → σ → σ} {nodes : List ν} {state : σ} {rounds : Nat} {tmp : ν}
    (detaches : DetachesCurrent linksOf list body nodes state)
    (ring : Ring (linksOf state) list nodes)
    (saved : tmp = (linksOf state).next (insertionPoint list nodes))
    (enough : nodes.length < rounds) :
    forEachListElementSafeFrom linksOf list body rounds (insertionPoint list nodes) tmp state =
      some (nodes, nodes.foldl (fun state node => body node state) state) := by
  induction nodes generalizing state rounds tmp with
  | nil =>
      obtain ⟨rounds, rfl⟩ := Nat.exists_eq_succ_of_ne_zero (by omega : rounds ≠ 0)
      rw [forEachListElementSafeFrom, if_neg (by simp [insertionPoint])]
      rfl
  | cons node nodes ih =>
      obtain ⟨rounds, rfl⟩ := Nat.exists_eq_succ_of_ne_zero (by omega : rounds ≠ 0)
      have different : node ≠ list := by
        have nodup := (List.nodup_cons.mp ring.nodup).1
        exact fun same => nodup (by simp [same])
      obtain ⟨left, later⟩ := detaches
      have place : insertionPoint list (node :: nodes) = node := rfl
      rw [place] at saved ⊢
      rw [(next_eq_insertionPoint ring.linked.2.2).1] at saved
      rw [List.length_cons] at enough
      rw [forEachListElementSafeFrom, if_pos different, saved]
      simp only
      rw [ih later left rfl (by omega)]
      rfl

theorem forEachListElementSafe_visits {σ : Type} {linksOf : σ → Links ν} {list : ν}
    {body : ν → σ → σ} {nodes : List ν} {state : σ} {rounds : Nat}
    (detaches : DetachesCurrent linksOf list body nodes state)
    (ring : Ring (linksOf state) list nodes) (enough : nodes.length < rounds) :
    forEachListElementSafe rounds linksOf list body state =
      some (nodes, nodes.foldl (fun state node => body node state) state) := by
  rw [forEachListElementSafe, (next_eq_insertionPoint ring.linked).1]
  exact forEachListElementSafeFrom_visits detaches ring rfl enough

end

/-- The heap is addressed by 64-bit pointers, which bounds the length of its lists. -/
theorem ring_length_lt {links : Links (BitVec 64)} {list : BitVec 64} {nodes : List (BitVec 64)}
    (ring : Ring links list nodes) : nodes.length < 2 ^ 64 := by
  have nodup := ring.nodup.map (f := BitVec.toNat) fun _ _ => BitVec.eq_of_toNat_eq
  have within : (list :: nodes).map BitVec.toNat ⊆ List.range (2 ^ 64) := by
    intro value member
    obtain ⟨node, _, rfl⟩ := List.mem_map.mp member
    exact List.mem_range.mpr node.isLt
  have length := (nodup.subperm within).length_le
  rw [List.length_map, List.length_range, List.length_cons] at length
  omega

/-- Lists refine sequences, from `list_init` and `list_node_init` on. -/
theorem lists_refine_sequences {links : Links (BitVec 64)} {Head : BitVec 64 → Prop}
    {sequence : BitVec 64 → List (BitVec 64)} (family : Family links Head sequence) :
    (∀ node, (∀ list, Head list → node ∉ list :: sequence list) →
      (sequence node = [] →
        Family (listInit links node) (fun list => list = node ∨ Head list) sequence) ∧
      Family (listNodeInit links node) Head sequence ∧
      Isolated (listNodeInit links node) Head node) ∧
    (∀ list it, Head list → Isolated links Head it →
      Becomes links (listPushBack links list it) Head sequence list (sequence list ++ [it]) it ∧
      Becomes links (listPushFront links list it) Head sequence list (it :: sequence list) it) ∧
    (∀ list node it left right, Head list → sequence list = left ++ node :: right →
      Isolated links Head it →
      Becomes links (listNodeInsertBefore links node it) Head sequence list
        (left ++ it :: node :: right) it ∧
      Becomes links (listNodeInsertAfter links node it) Head sequence list
        (left ++ node :: it :: right) it) ∧
    (∀ list node left right, Head list → sequence list = left ++ node :: right →
      Becomes links (listDetach links node) Head sequence list (left ++ right) node ∧
      Isolated (listDetach links node) Head node) ∧
    (∀ node, Isolated links Head node → listDetach links node = links) ∧
    (∀ list, Head list → (listEmpty links list = true ↔ sequence list = []) ∧
      ∀ rounds > (sequence list).length,
        listCount rounds links list = some (sequence list).length) ∧
    ∀ (σ : Type) (linksOf : σ → Links (BitVec 64)) (list : BitVec 64)
      (body : BitVec 64 → σ → σ) (state : σ), Head list → linksOf state = links →
      DetachesCurrent linksOf list body (sequence list) state → ∀ rounds > (sequence list).length,
        forEachListElementSafe rounds linksOf list body state =
          some (sequence list, (sequence list).foldl (fun state node => body node state) state) := by
  refine ⟨?_, ?_, ?_, ?_, ?_, ?_, ?_⟩
  · intro node fresh
    exact ⟨init_family family fresh, nodeInit_family family fresh⟩
  · intro list it head isolated
    exact ⟨pushBack_becomes family head isolated, pushFront_becomes family head isolated⟩
  · intro list node it left right head shape isolated
    exact ⟨insertBefore_becomes family head shape isolated,
      insertAfter_becomes family head shape isolated⟩
  · intro list node left right head shape
    exact ⟨detach_becomes family head shape,
      listDetach_isolated family head (by simp [shape])⟩
  · intro node isolated
    exact detach_alone isolated
  · intro list head
    have ring := family.ring list head
    exact ⟨listEmpty_iff ring, fun rounds enough => listCount_eq ring enough (ring_length_lt ring)⟩
  · intro σ linksOf list body state head same detaches rounds enough
    have ring := family.ring list head
    rw [← same] at ring
    exact forEachListElementSafe_visits detaches ring enough

/-- Lists at `0x1000` and `0x2000`, with two elements and one, and a node at `0x6000` that is in
none, in memory that held zeros. -/
def twoLists : Links (BitVec 64) :=
  let links := listInit (listInit ⟨fun _ => 0, fun _ => 0⟩ 0x1000) 0x2000
  let links := [0x3000, 0x4000, 0x5000, 0x6000].foldl listNodeInit links
  let links := listPushBack (listPushBack links 0x1000 0x3000) 0x1000 0x4000
  listPushFront links 0x2000 0x5000

def twoSequences (list : BitVec 64) : List (BitVec 64) :=
  if list = 0x1000 then [0x3000, 0x4000] else if list = 0x2000 then [0x5000] else []

def movesTo (list node : BitVec 64) (links : Links (BitVec 64)) : Links (BitVec 64) :=
  listPushBack (listDetach links node) list node

theorem twoLists_family :
    Family twoLists (fun list => list = 0x1000 ∨ list = 0x2000) twoSequences := by
  refine ⟨?_, ?_⟩
  · rintro list (rfl | rfl)
    · exact ⟨⟨by decide, by decide, by decide, by decide, by decide, by decide⟩, by decide⟩
    · exact ⟨⟨by decide, by decide, by decide, by decide⟩, by decide⟩
  · rintro first second (rfl | rfl) (rfl | rfl) different
    · exact absurd rfl different
    · simp [twoSequences]
    · simp [twoSequences]
    · exact absurd rfl different

/-- A node is put before the second element of the first list, the first element is detached, the
elements are counted, one loop detaches them, and another moves them to the second list. -/
theorem two_lists_refine :
    Becomes twoLists (listNodeInsertBefore twoLists 0x4000 0x6000)
      (fun list => list = 0x1000 ∨ list = 0x2000) twoSequences 0x1000 [0x3000, 0x6000, 0x4000]
      0x6000 ∧
    Becomes twoLists (listDetach twoLists 0x3000) (fun list => list = 0x1000 ∨ list = 0x2000)
      twoSequences 0x1000 [0x4000] 0x3000 ∧
    listCount 3 twoLists 0x1000 = some 2 ∧
    forEachListElementSafe 3 id 0x1000 (fun node links => listDetach links node) twoLists =
      some ([0x3000, 0x4000], listDetach (listDetach twoLists 0x3000) 0x4000) ∧
    forEachListElementSafe 3 id 0x1000 (movesTo 0x2000) twoLists =
      some ([0x3000, 0x4000], movesTo 0x2000 0x4000 (movesTo 0x2000 0x3000 twoLists)) ∧
    listCount 4 (movesTo 0x2000 0x4000 (movesTo 0x2000 0x3000 twoLists)) 0x2000 = some 3 := by
  obtain ⟨_, _, inserts, detaches, _, counts, loops⟩ := lists_refine_sequences twoLists_family
  have alone : Isolated twoLists (fun list => list = 0x1000 ∨ list = 0x2000) 0x6000 :=
    ⟨by decide, by decide, by decide⟩
  have moved : DetachesCurrent id 0x1000 (movesTo 0x2000) [0x3000, 0x4000] twoLists :=
    ⟨⟨⟨by decide, by decide, by decide, by decide⟩, by decide⟩,
      ⟨⟨by decide, by decide⟩, by decide⟩, trivial⟩
  have detached := listDetach_detachesCurrent (twoLists_family.ring 0x1000 (Or.inl rfl))
  refine ⟨?_, ?_, ?_, ?_, ?_, ?_⟩
  · exact (inserts 0x1000 0x4000 0x6000 [0x3000] [] (Or.inl rfl) rfl alone).1
  · exact (detaches 0x1000 0x3000 [] [0x4000] (Or.inl rfl) rfl).1
  · exact (counts 0x1000 (Or.inl rfl)).2 3 (by decide)
  · exact loops _ id 0x1000 _ twoLists (Or.inl rfl) rfl detached 3 (by decide)
  · exact loops _ id 0x1000 (movesTo 0x2000) twoLists (Or.inl rfl) rfl moved 3 (by decide)
  · decide

end Zeptux
