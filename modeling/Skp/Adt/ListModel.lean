import Skp.Algorithm.ListSortModel
import Skp.Foundations.Refinement
import Skp.Foundations.Walks

/-! # The lists of `include/skp/adt/list.h`

Heads and entries are the same kind of node. The poisons of `list_del` are no node's address, so
they are `none` here, and so is what a node holds that was never initialised; a read through one
fails. A loop over a list makes at most as many rounds as there are nodes. -/

namespace Skp.Adt
set_option autoImplicit false
open Skp.Algorithm Skp.Foundations

section Nodes
variable {P : Type} [DecidableEq P]

def initListHead (s : Links P) (list : P) : Links P := (s.setNext list (some list)).setPrev list (some list)

/-- `__list_add`. -/
def listAddBetween (s : Links P) (new prev next : P) : Links P :=
  (((s.setPrev next (some new)).setNext new (some next)).setPrev new (some prev)).setNext prev (some new)

def listAdd (s : Links P) (new head : P) : Option (Links P) :=
  (s.next head).map fun next => listAddBetween s new head next

def listAddTail (s : Links P) (new head : P) : Option (Links P) :=
  (s.prev head).map fun prev => listAddBetween s new prev head

/-- `__list_del`. -/
def listDelBetween (s : Links P) (prev next : P) : Links P :=
  (s.setPrev next (some prev)).setNext prev (some next)

/-- `__list_del_entry`. -/
def listDelEntry (s : Links P) (entry : P) : Option (Links P) :=
  (s.prev entry).bind fun prev => (s.next entry).map fun next => listDelBetween s prev next

def listDel (s : Links P) (entry : P) : Option (Links P) :=
  (listDelEntry s entry).map fun s => (s.setNext entry none).setPrev entry none

def listDelInit (s : Links P) (entry : P) : Option (Links P) :=
  (listDelEntry s entry).map fun s => initListHead s entry

def listReplace (s : Links P) (old new : P) : Option (Links P) :=
  (s.next old).bind fun next =>
    let s := (s.setNext new (some next)).setPrev next (some new)
    -- `old->prev` is read after the write, which is to `old` itself when `old` is alone
    (s.prev old).map fun prev => (s.setPrev new (some prev)).setNext prev (some new)

def listReplaceInit (s : Links P) (old new : P) : Option (Links P) :=
  (listReplace s old new).map fun s => initListHead s old

def listMove (s : Links P) (list head : P) : Option (Links P) :=
  (listDelEntry s list).bind fun s => listAdd s list head

def listMoveTail (s : Links P) (list head : P) : Option (Links P) :=
  (listDelEntry s list).bind fun s => listAddTail s list head

def listIsLast (s : Links P) (list head : P) : Bool := decide (s.next list = some head)

def listIsSingular (s : Links P) (head : P) : Bool := !listEmpty s head && decide (s.next head = s.prev head)

def listRotateLeft (s : Links P) (head : P) : Option (Links P) :=
  if listEmpty s head then some s else (s.next head).bind fun first => listMoveTail s first head

/-- `__list_cut_position`. -/
def listCutBetween (s : Links P) (list head entry : P) : Option (Links P) :=
  (s.next entry).bind fun newFirst =>
    (s.next head).map fun first =>
      let s := ((s.setNext list (some first)).setPrev first (some list)).setPrev list (some entry)
      ((s.setNext entry (some list)).setNext head (some newFirst)).setPrev newFirst (some head)

def listCutPosition (s : Links P) (list head entry : P) : Option (Links P) :=
  if listEmpty s head then some s
  else if listIsSingular s head ∧ s.next head ≠ some entry ∧ head ≠ entry then some s
  else if entry = head then some (initListHead s list)
  else listCutBetween s list head entry

/-- `__list_splice`. -/
def listSpliceBetween (s : Links P) (list prev next : P) : Option (Links P) :=
  (s.next list).bind fun first =>
    (s.prev list).map fun last =>
      (((s.setPrev first (some prev)).setNext prev (some first)).setNext last
        (some next)).setPrev next (some last)

def listSplice (s : Links P) (list head : P) : Option (Links P) :=
  if listEmpty s list then some s else (s.next head).bind fun next => listSpliceBetween s list head next

def listSpliceTail (s : Links P) (list head : P) : Option (Links P) :=
  if listEmpty s list then some s else (s.prev head).bind fun prev => listSpliceBetween s list prev head

def listSpliceInit (s : Links P) (list head : P) : Option (Links P) :=
  if listEmpty s list then some s
  else (s.next head).bind fun next => (listSpliceBetween s list head next).map fun s => initListHead s list

def listSpliceTailInit (s : Links P) (list head : P) : Option (Links P) :=
  if listEmpty s list then some s
  else (s.prev head).bind fun prev => (listSpliceBetween s list prev head).map fun s => initListHead s list

/-! ## Loops -/

/-- `list_for_each` and `list_for_each_prev`: the nodes met before `head` comes again. -/
def listForEach (link : P → Option P) (head : P) : ℕ → P → Option (List P)
  | 0, _ => none
  | rounds + 1, pos => if pos = head then some [] else (link pos).bind fun next =>
      (listForEach link head rounds next).map (pos :: ·)

/-- `list_for_each_safe` whose body deletes the entries that meet `p`: the next entry is read before
the body. -/
def listForEachSafeDel (p : P → Bool) (head : P) : ℕ → Links P → P → Option (Links P)
  | 0, _, _ => none
  | rounds + 1, s, pos =>
      if pos = head then some s
      else (s.next pos).bind fun next =>
        if p pos then (listDel s pos).bind fun s => listForEachSafeDel p head rounds s next
          else listForEachSafeDel p head rounds s next

/-! ## Calls -/

/-- A call. The last argument of some is the head of the list that the entry or the place is in; the
code has no use for it. -/
inductive ListCall (P : Type) where
  | init (list : P)
  | add (new place head : P)
  | addTail (new place head : P)
  | del (entry head : P)
  | delInit (entry head : P)
  | replace (old new head : P)
  | replaceInit (old new head : P)
  | move (entry head place head' : P)
  | moveTail (entry head place head' : P)
  | rotateLeft (head : P)
  | cutPosition (list head entry : P)
  | splice (list place head : P)
  | spliceTail (list place head : P)
  | spliceInit (list place head : P)
  | spliceTailInit (list place head : P)
  | delAll (p : P → Bool) (head : P)
  | isEmpty (head : P)
  | isSingular (head : P)
  | isLast (entry head : P)
  | forEach (head : P)
  | forEachPrev (head : P)

inductive ListAnswer (P : Type) where
  | done
  | flag (b : Bool)
  | nodes (l : List P)
deriving DecidableEq

variable [Fintype P]

def listExec (s : Links P) : ListCall P → Option (Links P × ListAnswer P)
  | .init list => some (initListHead s list, .done)
  | .add new place _ => (listAdd s new place).map (·, .done)
  | .addTail new place _ => (listAddTail s new place).map (·, .done)
  | .del entry _ => (listDel s entry).map (·, .done)
  | .delInit entry _ => (listDelInit s entry).map (·, .done)
  | .replace old new _ => (listReplace s old new).map (·, .done)
  | .replaceInit old new _ => (listReplaceInit s old new).map (·, .done)
  | .move entry _ place _ => (listMove s entry place).map (·, .done)
  | .moveTail entry _ place _ => (listMoveTail s entry place).map (·, .done)
  | .rotateLeft head => (listRotateLeft s head).map (·, .done)
  | .cutPosition list head entry => (listCutPosition s list head entry).map (·, .done)
  | .splice list place _ => (listSplice s list place).map (·, .done)
  | .spliceTail list place _ => (listSpliceTail s list place).map (·, .done)
  | .spliceInit list place _ => (listSpliceInit s list place).map (·, .done)
  | .spliceTailInit list place _ => (listSpliceTailInit s list place).map (·, .done)
  | .delAll p head =>
      ((s.next head).bind fun first => listForEachSafeDel p head (Fintype.card P) s first).map
        (·, .done)
  | .isEmpty head => some (s, .flag (listEmpty s head))
  | .isSingular head => some (s, .flag (listIsSingular s head))
  | .isLast entry head => some (s, .flag (listIsLast s entry head))
  | .forEach head =>
      ((s.next head).bind fun first => listForEach s.next head (Fintype.card P) first).map
        (s, .nodes ·)
  | .forEachPrev head =>
      ((s.prev head).bind fun last => listForEach s.prev head (Fintype.card P) last).map
        (s, .nodes ·)

end Nodes

/-! ## Lists by their heads

`Lists` is what a user of `list.h` has in mind: which nodes are heads, and the entries behind each.
`HoldsLists` says that the links are the rings of these lists and that no node is in two of them. -/

abbrev Lists (P : Type) := P → Option (List P)

section Rings
variable {P : Type}

/-- A head and its entries. -/
def ringOf (a : Lists P) (head : P) : List P := (a head).elim [] (head :: ·)

/-- No list has an entry `x`. -/
def Loose (a : Lists P) (x : P) : Prop := ∀ k, x ∈ ringOf a k → k = x

def entriesOf (a : Lists P) (head : P) : List P := (a head).getD []

variable {a : Lists P} {s s' : Links P} {h k x y : P} {l u v m : List P}

theorem ringOf_some (ha : a h = some l) : ringOf a h = h :: l := by
  rw [ringOf, ha]
  rfl

theorem entriesOf_some (ha : a h = some l) : entriesOf a h = l := by
  rw [entriesOf, ha]
  rfl

theorem exists_of_mem_ringOf (hx : x ∈ ringOf a h) : ∃ l, a h = some l ∧ x ∈ h :: l := by
  unfold ringOf at hx
  cases ha : a h with
  | none =>
    rw [ha] at hx
    exact nomatch hx
  | some l =>
    rw [ha] at hx
    exact ⟨l, rfl, hx⟩

structure Apart (a : Lists P) : Prop where
  nodup : ∀ h, (ringOf a h).Nodup
  owner : ∀ x h k, x ∈ ringOf a h → x ∈ ringOf a k → h = k

structure HoldsLists (s : Links P) (a : Lists P) : Prop where
  apart : Apart a
  ring : ∀ h l, a h = some l → Ring s.next s.prev h l

theorem HoldsLists.frame (hs : HoldsLists s a)
    (hsame : ∀ k, ∀ x ∈ ringOf a k, s'.next x = s.next x ∧ s'.prev x = s.prev x) :
    HoldsLists s' a where
  apart := hs.apart
  ring := by
    intro h l hh
    have hmem := ringOf_some hh
    exact (hs.ring h l hh).congr (fun x hx => (hsame h x (hmem ▸ hx)).1) fun x hx => (hsame h x (hmem ▸ hx)).2

theorem HoldsLists.nodup (hs : HoldsLists s a) (hh : a h = some l) : (h :: l).Nodup :=
  ringOf_some hh ▸ hs.apart.nodup h

theorem HoldsLists.entry_not_head (hs : HoldsLists s a) (hh : a h = some l) (hx : x ∈ l) : a x = none := by
  cases hax : a x with
  | none => rfl
  | some m =>
    have hown :=
      hs.apart.owner x x h (ringOf_some hax ▸ List.mem_cons_self)
        (ringOf_some hh ▸ List.mem_cons_of_mem h hx)
    subst hown
    exact absurd hx (List.nodup_cons.mp (hs.nodup hh)).1

theorem HoldsLists.next_head (hs : HoldsLists s a) (hh : a h = some l) : s.next h = (l ++ [h]).head? :=
  (hs.ring h l hh).next_last (u := []) (x := h) rfl

theorem HoldsLists.prev_head (hs : HoldsLists s a) (hh : a h = some l) : s.prev h = (h :: l).getLast? :=
  Ring.prev_first (v := []) (y := h) (by rw [List.append_nil]; exact hs.ring h l hh) rfl

theorem holdsLists_none (s : Links P) : HoldsLists s fun _ => none where
  apart := ⟨fun _ => List.nodup_nil, fun _ _ _ hx => nomatch hx⟩
  ring := fun _ _ h => nomatch h

variable [DecidableEq P]

theorem ringOf_update (v : Option (List P)) :
    ringOf (Function.update a h v) k = if k = h then v.elim [] (h :: ·) else ringOf a k := by
  unfold ringOf
  by_cases hk : k = h
  · subst hk
    rw [Function.update_self, if_pos rfl]
  · rw [Function.update_of_ne hk, if_neg hk]

theorem HoldsLists.forget (hs : HoldsLists s a) (h : P) : HoldsLists s (Function.update a h none) where
  apart := by
    refine ⟨fun k => ?_, fun x j k hj hk => ?_⟩
    · rw [ringOf_update]
      split
      · exact List.nodup_nil
      · exact hs.apart.nodup k
    · rw [ringOf_update] at hj hk
      split at hj
      · exact nomatch hj
      · split at hk
        · exact nomatch hk
        · exact hs.apart.owner x j k hj hk
  ring := by
    intro k l hk
    by_cases hkh : k = h
    · subst hkh
      rw [Function.update_self] at hk
      exact nomatch hk
    · rw [Function.update_of_ne hkh] at hk
      exact hs.ring k l hk

theorem HoldsLists.set (hs : HoldsLists s a) (hring : Ring s'.next s'.prev h l) (hnodup : (h :: l).Nodup)
    (hfree : ∀ x ∈ h :: l, ∀ k, k ≠ h → x ∉ ringOf a k)
    (hsame : ∀ k, k ≠ h → ∀ x ∈ ringOf a k, s'.next x = s.next x ∧ s'.prev x = s.prev x) :
    HoldsLists s' (Function.update a h (some l)) where
  apart := by
    refine ⟨fun k => ?_, fun x j k hj hk => ?_⟩
    · rw [ringOf_update]
      split
      · exact hnodup
      · exact hs.apart.nodup k
    · rw [ringOf_update] at hj hk
      split at hj <;> split at hk
      · exact ‹j = h›.trans ‹k = h›.symm
      · exact absurd hk (hfree x hj k ‹_›)
      · exact absurd hj (hfree x hk j ‹_›)
      · exact hs.apart.owner x j k hj hk
  ring := by
    intro k m hk
    by_cases hkh : k = h
    · subst hkh
      rw [Function.update_self] at hk
      exact Option.some.inj hk ▸ hring
    · rw [Function.update_of_ne hkh] at hk
      have hmem := ringOf_some hk
      exact (hs.ring k m hk).congr (fun x hx => (hsame k hkh x (hmem ▸ hx)).1) fun x hx =>
        (hsame k hkh x (hmem ▸ hx)).2

/-! ## Putting in and taking out -/

/-- Two nodes tied to each other. -/
def connect (s : Links P) (x y : P) : Links P := (s.setNext x (some y)).setPrev y (some x)

theorem connect_next_of_ne (hx : k ≠ x) : (connect s x y).next k = s.next k := Function.update_of_ne hx _ _

theorem connect_prev_of_ne (hy : k ≠ y) : (connect s x y).prev k = s.prev k := Function.update_of_ne hy _ _

theorem connect_comm {z b : P} (hxz : x ≠ z) (hby : b ≠ y) :
    connect (connect s z y) x b = connect (connect s x b) z y := by
  unfold connect Links.setNext Links.setPrev
  simp only [Function.update_comm hxz, Function.update_comm hby]

theorem HoldsLists.insert {z b : P} (hs : HoldsLists s a) (hu : (h :: u).IsChain (Tied s.next s.prev))
    (hv : (v ++ [h]).IsChain (Tied s.next s.prev)) (hm : m.IsChain (Tied s.next s.prev))
    (hx : x ∈ (h :: u).getLast?)
    (hy : y ∈ (v ++ [h]).head?) (hb : b ∈ m.head?) (hz : z ∈ m.getLast?) (hnodup : (h :: (u ++ m ++ v)).Nodup)
    (hfree : ∀ w ∈ h :: (u ++ m ++ v), ∀ k, k ≠ h → w ∉ ringOf a k) :
    HoldsLists (connect (connect s z y) x b) (Function.update a h (some (u ++ m ++ v))) := by
  have hxm := List.mem_of_mem_getLast? hx
  have hym := List.mem_of_mem_head? hy
  have hbm := List.mem_of_mem_head? hb
  have hzm := List.mem_of_mem_getLast? hz
  refine hs.set (ring_insert hu hv hm hx hy hb hz hnodup) hnodup hfree fun k hk w hw => ?_
  have hout : ∀ w' ∈ h :: (u ++ m ++ v), w ≠ w' := fun w' hw' heq => hfree w' hw' k hk (heq ▸ hw)
  rw [connect_next_of_ne (hout x (by grind)), connect_next_of_ne (hout z (by grind)),
    connect_prev_of_ne (hout b (by grind)),
    connect_prev_of_ne (hout y (by grind))]
  exact ⟨rfl, rfl⟩

theorem HoldsLists.remove (hs : HoldsLists s a) (hh : a h = some (u ++ m ++ v))
    (hx : x ∈ (h :: u).getLast?) (hy : y ∈ (v ++ [h]).head?) :
    HoldsLists (connect s x y) (Function.update a h (some (u ++ v))) := by
  have hring := hs.ring h _ hh
  have hnodup := hs.nodup hh
  have hu := (ring_append.mp (List.append_assoc u m v ▸ hring)).1
  have hv := (ring_append.mp hring).2.1
  have hxm := List.mem_of_mem_getLast? hx
  have hym := List.mem_of_mem_head? hy
  have hfree : ∀ w ∈ h :: (u ++ v), ∀ k, k ≠ h → w ∉ ringOf a k := by
    intro w hw k hk hwk
    exact hk (hs.apart.owner w k h hwk (ringOf_some hh ▸ by grind))
  refine hs.set (ring_remove hu hv hx hy (by grind)) (by grind) hfree fun k hk w hw => ?_
  have hout : ∀ w' ∈ h :: (u ++ v), w ≠ w' := fun w' hw' heq => hfree w' hw' k hk (heq ▸ hw)
  rw [connect_next_of_ne (hout x (by grind)), connect_prev_of_ne (hout y (by grind))]
  exact ⟨rfl, rfl⟩

end Rings

end Skp.Adt
