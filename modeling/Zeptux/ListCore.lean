import Mathlib.Algebra.Group.Nat.Defs
import Zeptux.Lib.Ring

/-!
The lists of `include/list.h`. A `struct list` is read as the `struct list_node` at its
address: `last` is its `prev` and `first` its `next`. Elements are named by their nodes, so
`container_of` is left out. A loop gets a number of rounds, and answers nothing when they do
not suffice.
-/

namespace Zeptux

open IntrusiveRing

variable {ν : Type} [DecidableEq ν]

def listNodeInit (links : Links ν) (node : ν) : Links ν :=
  let links := links.setNext node node
  links.setPrev node node

def listInit (links : Links ν) (list : ν) : Links ν := listNodeInit links list

def listEmpty (links : Links ν) (list : ν) : Bool := links.next list = list

def listNodeInsertBefore (links : Links ν) (node it : ν) : Links ν :=
  let prev := links.prev node
  let links := links.setPrev node it
  let links := links.setNext prev it
  let links := links.setPrev it prev
  links.setNext it node

def listNodeInsertAfter (links : Links ν) (node it : ν) : Links ν :=
  let next := links.next node
  let links := links.setNext node it
  let links := links.setPrev next it
  let links := links.setPrev it node
  links.setNext it next

def listDetach (links : Links ν) (node : ν) : Links ν :=
  let links := links.setNext (links.prev node) (links.next node)
  let links := links.setPrev (links.next node) (links.prev node)
  let links := links.setPrev node node
  links.setNext node node

def listPushBack (links : Links ν) (list it : ν) : Links ν := listNodeInsertBefore links list it

def listPushFront (links : Links ν) (list it : ν) : Links ν := listNodeInsertAfter links list it

theorem listNodeInsertBefore_eq (links : Links ν) (node it : ν) :
    listNodeInsertBefore links node it = links.insertBefore node it := rfl

theorem listNodeInsertAfter_eq (links : Links ν) (node it : ν) :
    listNodeInsertAfter links node it = links.insertAfter node it := rfl

theorem listDetach_eq (links : Links ν) (node : ν) : listDetach links node = links.detach node :=
  rfl

/-- The loop of `list_count`; `ret` is a `uint64_t`. -/
def listCountFrom (links : Links ν) (list : ν) : Nat → ν → Nat → Option Nat
  | 0, _, _ => none
  | rounds + 1, node, ret =>
      if node ≠ list then listCountFrom links list rounds (links.next node) ((ret + 1) % 2 ^ 64)
      else some ret

def listCount (rounds : Nat) (links : Links ν) (list : ν) : Option Nat :=
  listCountFrom links list rounds (links.next list) 0

/-- `for_each_list_element_safe` from a given element on, over a state of which `linksOf` is the
part that holds the pointers. The nodes that `body` was run for are returned with the state. -/
def forEachListElementSafeFrom {σ : Type} (linksOf : σ → Links ν) (list : ν) (body : ν → σ → σ) :
    Nat → ν → ν → σ → Option (List ν × σ)
  | 0, _, _, _ => none
  | rounds + 1, elem, tmp, state =>
      if elem ≠ list then do
        let state := body elem state
        let (visited, last) ← forEachListElementSafeFrom linksOf list body rounds tmp
          ((linksOf state).next tmp) state
        some (elem :: visited, last)
      else some ([], state)

def forEachListElementSafe {σ : Type} (rounds : Nat) (linksOf : σ → Links ν) (list : ν)
    (body : ν → σ → σ) (state : σ) : Option (List ν × σ) :=
  let first := (linksOf state).next list
  forEachListElementSafeFrom linksOf list body rounds first ((linksOf state).next first) state

end Zeptux
