import Skp.Adt.ListModel

/-! # The lists hold what their users put in

Every run of calls on any number of lists does to the links what the same calls do to the lists, and
each answer is the lists' own. -/
namespace Skp.Adt
set_option autoImplicit false
open Skp.Foundations Skp.Algorithm

section Spec
variable {P : Type} {a : Lists P} {new k : P}

theorem Loose.not_mem (hn : Loose a new) (hk : k ≠ new) : new ∉ ringOf a k := fun hmem => hk (hn k hmem)

theorem exists_done {call : Option (Links P)} {a' : Lists P} (h : ∃ s', call = some s' ∧ HoldsLists s' a') :
    ∃ s' o, call.map (·, ListAnswer.done (P := P)) = some (s', o) ∧ o = .done ∧ HoldsLists s' a' := by
  obtain ⟨s', rfl, hs'⟩ := h
  exact ⟨s', .done, rfl, rfl, hs'⟩

variable [DecidableEq P]

/-- The number of entries up to `place`, and before it. -/
def placeAfter (head : P) (l : List P) (place : P) : ℕ := (head :: l).idxOf place

def placeBefore (head : P) (l : List P) (place : P) : ℕ := if place = head then l.length else l.idxOf place

def putAt (a : Lists P) (head : P) (i : ℕ) (m : List P) : Lists P :=
  Function.update a head (some ((entriesOf a head).take i ++ m ++ (entriesOf a head).drop i))

def takeOut (a : Lists P) (entry head : P) : Lists P :=
  Function.update a head (if entry = head then none else some ((entriesOf a head).erase entry))

def rename (a : Lists P) (old new head : P) : Lists P :=
  if old = head then Function.update (Function.update a old none) new (some (entriesOf a old))
  else Function.update (Function.update a new none) head
    (some ((entriesOf a head).map fun x => if x = old then new else x))

def spliceAt (a : Lists P) (list head : P) (i : ℕ) : Lists P :=
  if entriesOf a list = [] then a else putAt (Function.update a list none) head i (entriesOf a list)

def CanTake (a : Lists P) (entry head : P) : Prop :=
  entry ∈ ringOf a head ∧ (entry = head → entriesOf a head = [])

def CanPut (a : Lists P) (new place head : P) : Prop := Loose a new ∧ new ≠ head ∧ place ∈ ringOf a head

/-- The calls as a user sees them. -/
def listSpec : Spec (Lists P) (ListCall P) (ListAnswer P) where
  legal a
    | .init list => Loose a list
    | .add new place head => CanPut a new place head
    | .addTail new place head => CanPut a new place head
    | .del entry head => CanTake a entry head
    | .delInit entry head => CanTake a entry head
    | .replace old new head => CanPut a new old head
    | .replaceInit old new head => CanPut a new old head
    | .move entry head place head' => CanTake a entry head ∧ CanPut (takeOut a entry head) entry place head'
    | .moveTail entry head place head' =>
        CanTake a entry head ∧ CanPut (takeOut a entry head) entry place head'
    | .rotateLeft head => a head ≠ none
    | .cutPosition list head entry => CanPut a list entry head
    | .splice list place head => a list ≠ none ∧ list ≠ head ∧ place ∈ ringOf a head
    | .spliceTail list place head => a list ≠ none ∧ list ≠ head ∧ place ∈ ringOf a head
    | .spliceInit list place head => a list ≠ none ∧ list ≠ head ∧ place ∈ ringOf a head
    | .spliceTailInit list place head => a list ≠ none ∧ list ≠ head ∧ place ∈ ringOf a head
    | .delAll _ head => a head ≠ none
    | .isEmpty head => a head ≠ none
    | .isSingular head => a head ≠ none
    | .isLast entry head => entry ∈ ringOf a head
    | .forEach head => a head ≠ none
    | .forEachPrev head => a head ≠ none
  next a
    | .init list => Function.update a list (some [])
    | .add new place head =>
        putAt (Function.update a new none) head (placeAfter head (entriesOf a head) place) [new]
    | .addTail new place head =>
        putAt (Function.update a new none) head (placeBefore head (entriesOf a head) place) [new]
    | .del entry head => takeOut a entry head
    | .delInit entry head => Function.update (takeOut a entry head) entry (some [])
    | .replace old new head => rename a old new head
    | .replaceInit old new head => Function.update (rename a old new head) old (some [])
    | .move entry head place head' =>
        let a := takeOut a entry head
        putAt (Function.update a entry none) head' (placeAfter head' (entriesOf a head') place) [entry]
    | .moveTail entry head place head' =>
        let a := takeOut a entry head
        putAt (Function.update a entry none) head' (placeBefore head' (entriesOf a head') place) [entry]
    | .rotateLeft head => Function.update a head (some ((entriesOf a head).rotate 1))
    | .cutPosition list head entry =>
        -- a head without entries leaves `list` as it was
        if entriesOf a head = [] then a
        else
          let i := placeAfter head (entriesOf a head) entry
          Function.update (Function.update a list (some ((entriesOf a head).take i))) head
            (some ((entriesOf a head).drop i))
    | .splice list place head => spliceAt a list head (placeAfter head (entriesOf a head) place)
    | .spliceTail list place head => spliceAt a list head (placeBefore head (entriesOf a head) place)
    | .spliceInit list place head =>
        Function.update (spliceAt a list head (placeAfter head (entriesOf a head) place))
          list (some [])
    | .spliceTailInit list place head =>
        Function.update (spliceAt a list head (placeBefore head (entriesOf a head) place))
          list (some [])
    | .delAll p head => Function.update a head (some ((entriesOf a head).filter fun x => !p x))
    | .isEmpty _ | .isSingular _ | .isLast _ _ | .forEach _ | .forEachPrev _ => a
  out a
    | .isEmpty head, o => o = .flag (decide (entriesOf a head = []))
    | .isSingular head, o => o = .flag (decide ((entriesOf a head).length = 1))
    | .isLast entry head, o => o = .flag (decide ((ringOf a head).getLast? = some entry))
    | .forEach head, o => o = .nodes (entriesOf a head)
    | .forEachPrev head, o => o = .nodes (entriesOf a head).reverse
    | _, o => o = .done

instance [Fintype P] (a : Lists P) (x : P) : Decidable (Loose a x) :=
  inferInstanceAs (Decidable (∀ k, x ∈ ringOf a k → k = x))

instance [Fintype P] (a : Lists P) (new place head : P) : Decidable (CanPut a new place head) :=
  inferInstanceAs (Decidable (Loose a new ∧ new ≠ head ∧ place ∈ ringOf a head))

variable {a : Lists P} {s s' : Links P} {h k x y e new place list : P} {l u v m : List P}

/-! ## Places -/

theorem exists_place_after (hp : place ∈ h :: l) : ∃ u v, l = u ++ v ∧ l.take (placeAfter h l place) = u ∧
    l.drop (placeAfter h l place) = v ∧ place ∈ (h :: u).getLast? := by
  refine ⟨_, _, (List.take_append_drop _ l).symm, rfl, rfl, ?_⟩
  by_cases hph : h = place
  · rw [hph, placeAfter, List.idxOf_cons_self]
    rfl
  · obtain ⟨u, v, rfl, hu⟩ := List.eq_append_cons_of_mem ((List.mem_cons.mp hp).resolve_left (Ne.symm hph))
    have hlen : placeAfter h (u ++ place :: v) place = (u ++ [place]).length := by
      rw [placeAfter, List.idxOf_cons_ne _ hph, List.idxOf_append_of_notMem hu,
        List.idxOf_cons_self, List.length_append]
      rfl
    rw [hlen, List.append_cons u place v, List.take_left, ← List.cons_append]
    exact List.getLast?_concat

theorem exists_place_before (hp : place ∈ h :: l) : ∃ u v, l = u ++ v ∧ l.take (placeBefore h l place) = u ∧
    l.drop (placeBefore h l place) = v ∧ place ∈ (v ++ [h]).head? := by
  refine ⟨_, _, (List.take_append_drop _ l).symm, rfl, rfl, ?_⟩
  by_cases hph : place = h
  · rw [hph, placeBefore, if_pos rfl, List.drop_length]
    rfl
  · obtain ⟨u, v, rfl, hu⟩ := List.eq_append_cons_of_mem ((List.mem_cons.mp hp).resolve_left hph)
    rw [placeBefore, if_neg hph, List.idxOf_append_of_notMem hu, List.idxOf_cons_self, Nat.add_zero,
      List.drop_left]
    rfl

theorem putAt_cut {i : ℕ} (hh : a h = some l) (hu : l.take i = u) (hv : l.drop i = v) :
    putAt a h i m = Function.update a h (some (u ++ m ++ v)) := by
  rw [putAt, entriesOf_some hh, hu, hv]

/-! ## One call -/

theorem HoldsLists.init (hs : HoldsLists s a) (hl : Loose a list) :
    HoldsLists (initListHead s list) (Function.update a list (some [])) := by
  refine hs.set (ring_nil list) (List.nodup_singleton list) (fun x hx k hk => ?_) fun k hk x hx => ?_
  · rw [List.mem_singleton.mp hx]
    exact hl.not_mem hk
  · have hne : x ≠ list := fun heq => hl.not_mem hk (heq ▸ hx)
    exact ⟨Function.update_of_ne hne _ _, Function.update_of_ne hne _ _⟩

theorem HoldsLists.add_between (hs : HoldsLists s a) (hl : Loose a new) (hne : new ≠ h)
    (hh : a h = some (u ++ v))
    (hx : x ∈ (h :: u).getLast?) (hy : y ∈ (v ++ [h]).head?) :
    HoldsLists (listAddBetween s new x y)
      (Function.update (Function.update a new none) h (some (u ++ [new] ++ v))) := by
  have hopen := ring_append.mp (hs.ring h _ hh)
  have hnew : new ∉ h :: (u ++ v) := ringOf_some hh ▸ hl.not_mem hne.symm
  have hnodup := hs.nodup hh
  refine (hs.forget new).insert hopen.1 hopen.2.1 (.singleton new) hx
    hy rfl rfl (by grind) fun w hw k hk hwk => ?_
  rw [ringOf_update] at hwk
  split at hwk
  · exact nomatch hwk
  · by_cases hwn : w = new
    · exact hl.not_mem ‹k ≠ new› (hwn ▸ hwk)
    · exact hk (hs.apart.owner w k h hwk (ringOf_some hh ▸ by grind))

theorem HoldsLists.add (hs : HoldsLists s a) (hp : CanPut a new place h) :
    ∃ s', listAdd s new place = some s' ∧
    HoldsLists s' (putAt (Function.update a new none) h (placeAfter h (entriesOf a h) place) [new]) := by
  obtain ⟨hl, hne, hmem⟩ := hp
  obtain ⟨l, hh, hpl⟩ := exists_of_mem_ringOf hmem
  obtain ⟨u, v, rfl, hu, hv, hx⟩ := exists_place_after hpl
  have hnext := (hs.ring h _ hh).next_last hx
  obtain ⟨y, hy⟩ : ∃ y, (v ++ [h]).head? = some y := by cases v <;> exact ⟨_, rfl⟩
  rw [hy] at hnext
  refine ⟨listAddBetween s new place y, by rw [listAdd, hnext]; rfl, ?_⟩
  rw [entriesOf_some hh, putAt_cut ((Function.update_of_ne hne.symm _ _).trans hh) hu hv]
  exact hs.add_between hl hne hh hx hy

theorem HoldsLists.add_tail (hs : HoldsLists s a) (hp : CanPut a new place h) :
    ∃ s', listAddTail s new place = some s' ∧
    HoldsLists s' (putAt (Function.update a new none) h (placeBefore h (entriesOf a h) place) [new]) := by
  obtain ⟨hl, hne, hmem⟩ := hp
  obtain ⟨l, hh, hpl⟩ := exists_of_mem_ringOf hmem
  obtain ⟨u, v, rfl, hu, hv, hy⟩ := exists_place_before hpl
  have hprev := (hs.ring h _ hh).prev_first hy
  obtain ⟨x, hx⟩ : ∃ x, (h :: u).getLast? = some x :=
    ⟨_, List.getLast?_eq_some_getLast (List.cons_ne_nil h u)⟩
  rw [hx] at hprev
  refine ⟨listAddBetween s new x place, by rw [listAddTail, hprev]; rfl, ?_⟩
  rw [entriesOf_some hh, putAt_cut ((Function.update_of_ne hne.symm _ _).trans hh) hu hv]
  exact hs.add_between hl hne hh hx hy

theorem HoldsLists.del_entry (hs : HoldsLists s a) (ht : CanTake a e h) : ∃ s', listDelEntry s e = some s' ∧
    HoldsLists s' (takeOut a e h) ∧ ∀ k, e ∉ ringOf (takeOut a e h) k := by
  obtain ⟨hmem, hempty⟩ := ht
  obtain ⟨l, hh, hel⟩ := exists_of_mem_ringOf hmem
  rw [entriesOf_some hh] at hempty
  have hring := hs.ring h l hh
  have hown : ∀ k, k ≠ h → e ∉ ringOf a k := fun k hk hek => hk (hs.apart.owner e k h hek hmem)
  by_cases heh : e = h
  · -- a head without entries: its links to itself stay
    subst heh
    obtain rfl := hempty rfl
    have hnext : s.next e = some e := hring.next_last (u := []) (v := []) rfl
    have hprev : s.prev e = some e := hring.prev_first (u := []) (v := []) rfl
    refine ⟨connect s e e, by rw [listDelEntry, hprev, hnext]; rfl, ?_, fun k => ?_⟩
    · rw [takeOut, if_pos rfl]
      refine (hs.forget e).frame fun k x hx => ?_
      have hxe : x ≠ e := by
        intro heq
        rw [ringOf_update] at hx
        split at hx
        · exact nomatch hx
        · exact hown k ‹k ≠ e› (heq ▸ hx)
      rw [connect_next_of_ne hxe, connect_prev_of_ne hxe]
      exact ⟨rfl, rfl⟩
    · rw [takeOut, if_pos rfl, ringOf_update]
      split
      · exact fun hx => nomatch hx
      · exact hown k ‹_›
  · obtain ⟨u, v, rfl, hu⟩ := List.eq_append_cons_of_mem ((List.mem_cons.mp hel).resolve_left heh)
    obtain ⟨x, hx⟩ : ∃ x, (h :: u).getLast? = some x :=
      ⟨_, List.getLast?_eq_some_getLast (List.cons_ne_nil h u)⟩
    obtain ⟨y, hy⟩ : ∃ y, (v ++ [h]).head? = some y := by cases v <;> exact ⟨_, rfl⟩
    have herase : (u ++ e :: v).erase e = u ++ v := by rw [List.erase_append_right _ hu, List.erase_cons_head]
    rw [takeOut, if_neg heh, entriesOf_some hh, herase]
    refine ⟨connect s x y,
      by rw [listDelEntry, hring.prev_node, hx, hring.next_node, hy]; rfl, ?_, fun k => ?_⟩
    · exact hs.remove (m := [e]) (by rw [List.append_assoc]; exact hh) hx hy
    · rw [ringOf_update]
      split
      · have := hs.nodup hh
        grind
      · exact hown k ‹_›

theorem HoldsLists.del (hs : HoldsLists s a) (ht : CanTake a e h) :
    ∃ s', listDel s e = some s' ∧ HoldsLists s' (takeOut a e h) := by
  obtain ⟨s', hdel, hs', hout⟩ := hs.del_entry ht
  refine ⟨_, by rw [listDel, hdel]; rfl, hs'.frame fun k x hx => ?_⟩
  have hxe : x ≠ e := fun heq => hout k (heq ▸ hx)
  exact ⟨Function.update_of_ne hxe _ _, Function.update_of_ne hxe _ _⟩

theorem HoldsLists.del_init (hs : HoldsLists s a) (ht : CanTake a e h) :
    ∃ s', listDelInit s e = some s' ∧ HoldsLists s' (Function.update (takeOut a e h) e (some [])) := by
  obtain ⟨s', hdel, hs', hout⟩ := hs.del_entry ht
  exact ⟨_, by rw [listDelInit, hdel]; rfl, hs'.init fun k hk => absurd hk (hout k)⟩

theorem HoldsLists.move (hs : HoldsLists s a) (ht : CanTake a e h) (hp : CanPut (takeOut a e h) e place k) :
    ∃ s', listMove s e place = some s' ∧ HoldsLists s' (putAt (Function.update (takeOut a e h) e none) k
      (placeAfter k (entriesOf (takeOut a e h) k) place) [e]) := by
  obtain ⟨s₁, hdel, hs₁, -⟩ := hs.del_entry ht
  obtain ⟨s', hadd, hs'⟩ := hs₁.add hp
  exact ⟨s', by rw [listMove, hdel]; exact hadd, hs'⟩

theorem HoldsLists.move_tail (hs : HoldsLists s a) (ht : CanTake a e h)
    (hp : CanPut (takeOut a e h) e place k) :
    ∃ s', listMoveTail s e place = some s' ∧ HoldsLists s' (putAt (Function.update (takeOut a e h) e none) k
      (placeBefore k (entriesOf (takeOut a e h) k) place) [e]) := by
  obtain ⟨s₁, hdel, hs₁, -⟩ := hs.del_entry ht
  obtain ⟨s', hadd, hs'⟩ := hs₁.add_tail hp
  exact ⟨s', by rw [listMoveTail, hdel]; exact hadd, hs'⟩

theorem HoldsLists.list_empty (hs : HoldsLists s a) (hh : a h = some l) :
    listEmpty s h = decide (l = []) := by
  have hnodup := hs.nodup hh
  rw [listEmpty, hs.next_head hh]
  cases l with
  | nil => simp
  | cons x l =>
    have hxh : x ≠ h := by grind
    simp [hxh]

theorem HoldsLists.rotate_left (hs : HoldsLists s a) (hh : a h = some l) :
    ∃ s', listRotateLeft s h = some s' ∧ HoldsLists s' (Function.update a h (some (l.rotate 1))) := by
  have hempty := hs.list_empty hh
  have hnext := hs.next_head hh
  have hnodup := hs.nodup hh
  cases l with
  | nil =>
    refine ⟨s, by rw [listRotateLeft, hempty]; rfl, ?_⟩
    rw [List.rotate_nil, ← hh, Function.update_eq_self]
    exact hs
  | cons f l =>
    have hfh : f ≠ h := by grind
    have hmem : ringOf a h = h :: f :: l := ringOf_some hh
    have htake : takeOut a f h = Function.update a h (some l) := by
      rw [takeOut, if_neg hfh, entriesOf_some hh, List.erase_cons_head]
    have hput : CanPut (takeOut a f h) f h h := by
      refine ⟨fun k hk => ?_, hfh, ?_⟩ <;> rw [htake, ringOf_update] at *
      · split at hk
        · exact absurd hk (by grind)
        · exact absurd (hs.apart.owner f k h hk (by rw [hmem]; simp)) ‹_›
      · rw [if_pos rfl]
        exact List.mem_cons_self
    obtain ⟨s', hmove, hs'⟩ := hs.move_tail ⟨by rw [hmem]; simp, fun heq => absurd heq hfh⟩ hput
    refine ⟨s', by rw [listRotateLeft, hempty, hnext]; exact hmove, ?_⟩
    have hf : a f = none := hs.entry_not_head hh List.mem_cons_self
    have heq : Function.update (Function.update a h (some l)) f none = Function.update a h (some l) := by
      rw [← (Function.update_of_ne hfh (some l) a).trans hf, Function.update_eq_self]
    rw [htake, heq, putAt_cut (u := l) (v := []) (Function.update_self h _ a)] at hs'
    · rw [Function.update_idem, List.append_nil] at hs'
      rw [List.rotate_cons_succ, List.rotate_zero]
      exact hs'
    · rw [placeBefore, if_pos rfl, entriesOf_some (Function.update_self h _ a), List.take_length]
    · rw [placeBefore, if_pos rfl, entriesOf_some (Function.update_self h _ a), List.drop_length]

/-! ## Replacing -/

/-- The entries of a list that is forgotten, with a loose node before them, are in no other list. -/
theorem HoldsLists.free_of_forget (hs : HoldsLists s a) (hh : a h = some l) (hl : Loose a new) :
    ∀ w ∈ new :: l, ∀ k, k ≠ new → w ∉ ringOf (Function.update a h none) k := by
  intro w hw k hk hwk
  rw [ringOf_update] at hwk
  split at hwk
  · exact nomatch hwk
  · rcases List.mem_cons.mp hw with rfl | hwl
    · exact hl.not_mem hk hwk
    · exact absurd (hs.apart.owner w k h hwk (ringOf_some hh ▸ List.mem_cons_of_mem h hwl)) ‹_›

/-- `old` is a head without entries: the last two writes are to `new` itself. -/
theorem HoldsLists.replace_alone (hs : HoldsLists s a) (hl : Loose a new) (hh : a e = some []) :
    ∃ s', listReplace s e new = some s' ∧
      HoldsLists s' (Function.update (Function.update a e none) new (some [])) := by
  have hnext : s.next e = some e := hs.next_head hh
  refine ⟨_,
    by rw [listReplace, hnext]; simp only [Option.bind_some, Links.setPrev, Function.update_self,
    Option.map_some]; rfl,
    (hs.forget e).set ?_ (List.nodup_singleton new) (hs.free_of_forget hh hl) ?_⟩
  · exact List.isChain_pair.mpr ⟨Function.update_self new _ _, Function.update_self new _ _⟩
  · intro k hk w hw
    have hwn : w ≠ new := fun heq => hs.free_of_forget hh hl new List.mem_cons_self k hk (heq ▸ hw)
    have hwe : w ≠ e := by
      rw [ringOf_update] at hw
      split at hw
      · exact nomatch hw
      · intro heq
        exact ‹¬k = e› (hs.apart.owner w k e hw (by rw [ringOf_some hh, heq]; exact List.mem_cons_self))
    simp only [Links.setNext, Function.update_of_ne hwn, Function.update_of_ne hwe, true_and]

theorem HoldsLists.replace_head (hs : HoldsLists s a) (hl : Loose a new) (hne : new ≠ e)
    (hh : a e = some (x :: l)) :
    ∃ s', listReplace s e new = some s' ∧
      HoldsLists s' (Function.update (Function.update a e none) new (some (x :: l))) := by
  have hnodup := hs.nodup hh
  have hnew : new ∉ e :: x :: l := ringOf_some hh ▸ hl.not_mem hne.symm
  obtain ⟨z, hz⟩ : ∃ z, (x :: l).getLast? = some z :=
    ⟨_, List.getLast?_eq_some_getLast (List.cons_ne_nil x l)⟩
  have hprev : s.prev e = some z := by rw [hs.prev_head hh, List.getLast?_cons_cons, hz]
  have hzm := List.mem_of_mem_getLast? hz
  have hex : e ≠ x := by grind
  have hchain := (ring_append (u := []).mp (hs.ring e (x :: l) hh)).2.1.left_of_append
  refine ⟨connect (connect s new x) z new, ?_, ?_⟩
  · rw [listReplace, hs.next_head hh]
    simp only [List.cons_append, List.head?_cons, Option.bind_some, Links.setPrev, Links.setNext,
      Function.update_of_ne hex, hprev,
      Option.map_some]
    rfl
  · rw [connect_comm (by grind) (by grind)]
    have :=
      (hs.forget e).insert (u := []) (v := []) (m := x :: l) (h := new) (.singleton new)
        (.singleton new) hchain rfl rfl rfl hz
    simp only [List.nil_append, List.append_nil] at this
    exact this (by grind) (hs.free_of_forget hh hl)

theorem HoldsLists.replace_entry (hs : HoldsLists s a) (hl : Loose a new) (hne : new ≠ h)
    (hh : a h = some (u ++ e :: v)) :
    ∃ s', listReplace s e new = some s' ∧
      HoldsLists s' (Function.update (Function.update a new none) h (some (u ++ [new] ++ v))) := by
  have hring := hs.ring h _ hh
  have hnodup := hs.nodup hh
  have hnew : new ∉ h :: (u ++ e :: v) := ringOf_some hh ▸ hl.not_mem hne.symm
  obtain ⟨x, hx⟩ : ∃ x, (h :: u).getLast? = some x :=
    ⟨_, List.getLast?_eq_some_getLast (List.cons_ne_nil h u)⟩
  obtain ⟨y, hy⟩ : ∃ y, (v ++ [h]).head? = some y := by cases v <;> exact ⟨_, rfl⟩
  have hey : e ≠ y := by
    have := List.mem_of_mem_head? hy
    grind
  refine ⟨listAddBetween s new x y, ?_, ?_⟩
  · rw [listReplace, hring.next_node, hy]
    simp only [Option.bind_some, Links.setPrev, Links.setNext, Function.update_of_ne hey,
      hring.prev_node, hx, Option.map_some]
    rfl
  · have hu := (ring_append.mp hring).1
    have hv := (ring_append (u := u ++ [e]).mp (by rwa [List.append_assoc])).2.1
    refine (hs.forget new).insert hu hv (.singleton new) hx hy rfl rfl (by grind) fun w hw k hk hwk => ?_
    rw [ringOf_update] at hwk
    split at hwk
    · exact nomatch hwk
    · by_cases hwn : w = new
      · exact hl.not_mem ‹k ≠ new› (hwn ▸ hwk)
      · exact hk (hs.apart.owner w k h hwk (ringOf_some hh ▸ by grind))

theorem HoldsLists.replace (hs : HoldsLists s a) (hp : CanPut a new e h) :
    ∃ s', listReplace s e new = some s' ∧ HoldsLists s' (rename a e new h) := by
  obtain ⟨hl, hne, hmem⟩ := hp
  obtain ⟨l, hh, hel⟩ := exists_of_mem_ringOf hmem
  have hnodup := hs.nodup hh
  rw [rename]
  split
  · subst e
    rw [entriesOf_some hh]
    cases l with
    | nil => exact hs.replace_alone hl hh
    | cons x l => exact hs.replace_head hl hne hh
  · obtain ⟨u, v, rfl, hu⟩ := List.eq_append_cons_of_mem ((List.mem_cons.mp hel).resolve_left ‹_›)
    rw [entriesOf_some hh, map_replace hu (by grind), List.append_cons]
    exact hs.replace_entry hl hne hh

theorem HoldsLists.renamed_absent (hs : HoldsLists s a) (hp : CanPut a new e h) :
    ∀ k, e ∉ ringOf (rename a e new h) k := by
  obtain ⟨hl, hne, hmem⟩ := hp
  obtain ⟨l, hh, hel⟩ := exists_of_mem_ringOf hmem
  have hnodup := hs.nodup hh
  have hnew : new ∉ h :: l := ringOf_some hh ▸ hl.not_mem hne.symm
  have hown : ∀ k, k ≠ h → e ∉ ringOf a k := fun k hk hek => hk (hs.apart.owner e k h hek hmem)
  intro k
  rw [rename]
  split
  · subst e
    rw [entriesOf_some hh, ringOf_update, ringOf_update]
    split
    · show h ∉ new :: l
      grind
    · split
      · exact fun hx => nomatch hx
      · exact hown k ‹_›
  · obtain ⟨u, v, rfl, hu⟩ := List.eq_append_cons_of_mem ((List.mem_cons.mp hel).resolve_left ‹_›)
    rw [entriesOf_some hh, map_replace hu (by grind), ringOf_update, ringOf_update]
    split
    · show e ∉ h :: (u ++ new :: v)
      grind
    · split
      · exact fun hx => nomatch hx
      · exact hown k ‹_›

/-! ## Joining and cutting -/

theorem HoldsLists.splice_between (hs : HoldsLists s a) (hlist : a list = some m) (hm : m ≠ [])
    (hne : list ≠ h)
    (hh : a h = some (u ++ v)) (hx : x ∈ (h :: u).getLast?) (hy : y ∈ (v ++ [h]).head?) :
    ∃ s', listSpliceBetween s list x y = some s' ∧
      HoldsLists s' (Function.update (Function.update a list none) h (some (u ++ m ++ v))) := by
  have hopen := ring_append.mp (hs.ring h _ hh)
  have hmn := hs.nodup hlist
  have huv := hs.nodup hh
  have hdisj : ∀ w ∈ list :: m, w ∉ h :: (u ++ v) := fun w hw hw' =>
    hne (hs.apart.owner w list h (ringOf_some hlist ▸ hw) (ringOf_some hh ▸ hw'))
  obtain ⟨b, hb⟩ : ∃ b, m.head? = some b := ⟨_, List.head?_eq_some_head hm⟩
  obtain ⟨z, hz⟩ : ∃ z, m.getLast? = some z := ⟨_, List.getLast?_eq_some_getLast hm⟩
  have hxm := List.mem_of_mem_getLast? hx
  have hym := List.mem_of_mem_head? hy
  have hbm := List.mem_of_mem_head? hb
  have hzm := List.mem_of_mem_getLast? hz
  have hnext : s.next list = some b := by rw [hs.next_head hlist]; exact List.mem_head?_append_of_mem_head? hb
  have hprev : s.prev list = some z := by rw [hs.prev_head hlist, List.getLast?_cons, hz]; rfl
  refine ⟨connect (connect s x b) z y, by rw [listSpliceBetween, hnext, hprev]; rfl, ?_⟩
  rw [← connect_comm (by grind) (by grind)]
  have hchain := (ring_append (u := []).mp (hs.ring list m hlist)).2.1.left_of_append
  refine (hs.forget list).insert hopen.1 hopen.2.1 hchain hx hy hb hz (by grind) fun w hw k hk hwk => ?_
  rw [ringOf_update] at hwk
  split at hwk
  · exact nomatch hwk
  · have hw' : w ∈ h :: (u ++ v) ∨ w ∈ list :: m := by grind
    rcases hw' with hw' | hw'
    · exact hk (hs.apart.owner w k h hwk (ringOf_some hh ▸ hw'))
    · exact ‹¬k = list› (hs.apart.owner w k list hwk (ringOf_some hlist ▸ hw'))

theorem HoldsLists.list_is_singular (hs : HoldsLists s a) (hh : a h = some l) :
    listIsSingular s h = decide (l.length = 1) := by
  have hnodup := hs.nodup hh
  rw [listIsSingular, hs.list_empty hh, hs.next_head hh, hs.prev_head hh]
  match l, hnodup with
  | [], _ => rfl
  | [f], _ => simp
  | f :: g :: l, hnodup =>
    have hlast : (h :: f :: g :: l).getLast? ≠ some f := by
      rw [List.getLast?_cons_cons, List.getLast?_cons_cons]
      intro heq
      have := List.mem_of_mem_getLast? heq
      grind
    simpa using fun heq => hlast heq.symm

theorem HoldsLists.cut_between (hs : HoldsLists s a) (hl : Loose a list) (hne : list ≠ h)
    (hh : a h = some (u ++ v)) (he : e ∈ u.getLast?) :
    ∃ s', listCutBetween s list h e = some s' ∧
      HoldsLists s' (Function.update (Function.update a list (some u)) h (some v)) := by
  have hring := hs.ring h _ hh
  have hopen := ring_append.mp hring
  have hnodup := hs.nodup hh
  have hlist : list ∉ h :: (u ++ v) := ringOf_some hh ▸ hl.not_mem hne.symm
  have hune : u ≠ [] := by
    rintro rfl
    exact nomatch he
  obtain ⟨b, hb⟩ : ∃ b, u.head? = some b := ⟨_, List.head?_eq_some_head hune⟩
  obtain ⟨y, hy⟩ : ∃ y, (v ++ [h]).head? = some y := by cases v <;> exact ⟨_, rfl⟩
  have hbm := List.mem_of_mem_head? hb
  have hem := List.mem_of_mem_getLast? he
  have hym := List.mem_of_mem_head? hy
  have hlast : e ∈ (h :: u).getLast? := by rw [List.getLast?_cons, Option.mem_def.mp he]; rfl
  have hnext : s.next h = some b := by
    rw [hs.next_head hh, List.append_assoc]
    exact List.mem_head?_append_of_mem_head? hb
  refine ⟨connect (connect (connect s list b) e list) h y,
    by rw [listCutBetween, hring.next_last hlast, hy, hnext]; rfl, ?_⟩
  -- first `list` takes what is before the cut, and then the head is tied to what is behind it
  have hfirst : HoldsLists (connect (connect s list b) e list)
      (Function.update (Function.update a h none) list (some u)) := by
    rw [← connect_comm (by grind) (by grind)]
    have := (hs.forget h).insert (u := []) (v := []) (m := u) (h := list) (.singleton list) (.singleton list)
      ((List.isChain_cons.mp hopen.1).2) rfl rfl hb he
    simp only [List.nil_append, List.append_nil] at this
    exact this (by grind) fun w hw => hs.free_of_forget hh hl w (by grind)
  have hv : (v ++ [h]).IsChain
      (Tied (connect (connect s list b) e list).next (connect (connect s list b) e list).prev) := by
    refine chain_congr hopen.2.1 (fun w hw => ?_) fun w hw => ?_
    · rw [connect_next_of_ne (by grind), connect_next_of_ne (by grind)]
    · rw [connect_prev_of_ne (by grind), connect_prev_of_ne (by grind)]
  have hfree : ∀ w ∈ h :: v, ∀ k, k ≠ h →
      w ∉ ringOf (Function.update (Function.update a h none) list (some u)) k := by
    intro w hw k hk
    rw [ringOf_update, ringOf_update, if_neg hk]
    split
    · show w ∉ list :: u
      grind
    · exact fun hwk => hk (hs.apart.owner w k h hwk (ringOf_some hh ▸ by grind))
  have hrest : Ring (connect (connect (connect s list b) e list) h y).next
      (connect (connect (connect s list b) e list) h y).prev h v :=
    ring_remove (u := []) (x := h) (.singleton h) hv rfl hy (by grind)
  have hset := hfirst.set hrest (by grind) hfree fun k hk w hw => ?_
  · rw [Function.update_comm hne.symm, Function.update_idem] at hset
    exact hset
  · have hout : ∀ w' ∈ h :: v, w ≠ w' := fun w' hw' heq => hfree w' hw' k hk (heq ▸ hw)
    exact ⟨connect_next_of_ne (hout h List.mem_cons_self), connect_prev_of_ne (hout y (by grind))⟩

theorem HoldsLists.cut_position (hs : HoldsLists s a) (hp : CanPut a list e h) :
    ∃ s', listCutPosition s list h e = some s' ∧
      HoldsLists s' ((listSpec (P := P)).next a (.cutPosition list h e)) := by
  obtain ⟨hl, hne, hmem⟩ := hp
  obtain ⟨l, hh, hel⟩ := exists_of_mem_ringOf hmem
  show ∃ s', listCutPosition s list h e = some s' ∧ HoldsLists s' (if entriesOf a h = [] then a else _)
  rw [entriesOf_some hh, listCutPosition, hs.list_empty hh]
  by_cases hempty : l = []
  · rw [if_pos hempty, if_pos (by simpa using hempty)]
    exact ⟨s, rfl, hs⟩
  · rw [if_neg hempty, if_neg (by simpa using hempty)]
    have hguard : ¬ (listIsSingular s h = true ∧ s.next h ≠ some e ∧ h ≠ e) := by
      -- the one entry is the first, so an entry of the list or its head
      rintro ⟨hsing, hfirst, hhead⟩
      rw [hs.list_is_singular hh, decide_eq_true_eq] at hsing
      obtain ⟨f, rfl⟩ := List.length_eq_one_iff.mp hsing
      rw [hs.next_head hh] at hfirst
      simp only [List.mem_cons, List.not_mem_nil, or_false] at hel
      rcases hel with rfl | rfl
      · exact hhead rfl
      · exact hfirst rfl
    rw [if_neg hguard]
    split
    · subst e
      refine ⟨_, rfl, ?_⟩
      have hput : Function.update (Function.update a list (some [])) h (some l) =
          Function.update a list (some []) := by
        rw [Function.update_eq_self_iff, Function.update_of_ne hne.symm, hh]
      rw [placeAfter, List.idxOf_cons_self, List.take_zero, List.drop_zero, hput]
      exact hs.init hl
    · obtain ⟨u, v, rfl, hu, hv, hx⟩ := exists_place_after hel
      rw [hu, hv]
      refine hs.cut_between hl hne hh ?_
      cases u with
      | nil => exact absurd (Option.some.inj hx).symm ‹_›
      | cons b u => exact List.getLast?_cons_cons ▸ hx

theorem HoldsLists.splice (hs : HoldsLists s a) (hlist : a list ≠ none) (hne : list ≠ h)
    (hmem : place ∈ ringOf a h) :
    ∃ s', listSplice s list place = some s' ∧
      HoldsLists s' (spliceAt a list h (placeAfter h (entriesOf a h) place)) := by
  obtain ⟨m, hm⟩ := Option.ne_none_iff_exists'.mp hlist
  obtain ⟨l, hh, hpl⟩ := exists_of_mem_ringOf hmem
  obtain ⟨u, v, rfl, hu, hv, hx⟩ := exists_place_after hpl
  obtain ⟨y, hy⟩ : ∃ y, (v ++ [h]).head? = some y := by cases v <;> exact ⟨_, rfl⟩
  rw [spliceAt, entriesOf_some hm, entriesOf_some hh, listSplice, hs.list_empty hm]
  by_cases hempty : m = []
  · rw [if_pos hempty, if_pos (by simpa using hempty)]
    exact ⟨s, rfl, hs⟩
  · rw [if_neg hempty, if_neg (by simpa using hempty),
      putAt_cut ((Function.update_of_ne hne.symm _ _).trans hh) hu hv]
    obtain ⟨s', hcall, hs'⟩ := hs.splice_between hm hempty hne hh hx hy
    exact ⟨s', by rw [(hs.ring h _ hh).next_last hx, hy]; exact hcall, hs'⟩

theorem HoldsLists.splice_tail (hs : HoldsLists s a) (hlist : a list ≠ none) (hne : list ≠ h)
    (hmem : place ∈ ringOf a h) :
    ∃ s', listSpliceTail s list place = some s' ∧
      HoldsLists s' (spliceAt a list h (placeBefore h (entriesOf a h) place)) := by
  obtain ⟨m, hm⟩ := Option.ne_none_iff_exists'.mp hlist
  obtain ⟨l, hh, hpl⟩ := exists_of_mem_ringOf hmem
  obtain ⟨u, v, rfl, hu, hv, hy⟩ := exists_place_before hpl
  obtain ⟨x, hx⟩ : ∃ x, (h :: u).getLast? = some x :=
    ⟨_, List.getLast?_eq_some_getLast (List.cons_ne_nil h u)⟩
  rw [spliceAt, entriesOf_some hm, entriesOf_some hh, listSpliceTail, hs.list_empty hm]
  by_cases hempty : m = []
  · rw [if_pos hempty, if_pos (by simpa using hempty)]
    exact ⟨s, rfl, hs⟩
  · rw [if_neg hempty, if_neg (by simpa using hempty),
      putAt_cut ((Function.update_of_ne hne.symm _ _).trans hh) hu hv]
    obtain ⟨s', hcall, hs'⟩ := hs.splice_between hm hempty hne hh hx hy
    exact ⟨s', by rw [(hs.ring h _ hh).prev_first hy, hx]; exact hcall, hs'⟩

theorem HoldsLists.spliced_absent (hs : HoldsLists s a) (hm : a list = some m) (hempty : m ≠ [])
    (hne : list ≠ h) (hh : a h = some l)
    (i : ℕ) : Loose (spliceAt a list h i) list := by
  have hown : list ∉ h :: l :=
    fun hx =>
      hne (hs.apart.owner list list h (ringOf_some hm ▸ List.mem_cons_self) (ringOf_some hh ▸ hx))
  have hnodup := hs.nodup hm
  intro k hk
  by_contra hkl
  rw [spliceAt, entriesOf_some hm, if_neg hempty,
    putAt_cut ((Function.update_of_ne hne.symm _ _).trans hh) rfl rfl, ringOf_update,
    ringOf_update, if_neg hkl] at hk
  split at hk
  · have hmem : list ∈ h :: (l.take i ++ m ++ l.drop i) := hk
    have htake := List.mem_of_mem_take (a := list) (l := l) (i := i)
    have hdrop := List.mem_of_mem_drop (a := list) (l := l) (i := i)
    grind
  · exact hkl (hs.apart.owner list k list hk (ringOf_some hm ▸ List.mem_cons_self))

theorem HoldsLists.splice_then_init {i : ℕ} (hs : HoldsLists s a) (hlist : a list ≠ none)
    (hne : list ≠ h) (hmem : place ∈ ringOf a h)
    {call : Option (Links P)} (hcall : ∃ s', call = some s' ∧ HoldsLists s' (spliceAt a list h i)) :
    ∃ s', (if listEmpty s list then some s else call.map fun s => initListHead s list) = some s' ∧
      HoldsLists s' (Function.update (spliceAt a list h i) list (some [])) := by
  obtain ⟨m, hm⟩ := Option.ne_none_iff_exists'.mp hlist
  obtain ⟨l, hh, -⟩ := exists_of_mem_ringOf hmem
  rw [hs.list_empty hm]
  by_cases hempty : m = []
  · rw [if_pos (by simpa using hempty), spliceAt, entriesOf_some hm, if_pos hempty, ← hempty, ← hm,
      Function.update_eq_self]
    exact ⟨s, rfl, hs⟩
  · obtain ⟨s', rfl, hs'⟩ := hcall
    rw [if_neg (by simpa using hempty)]
    exact ⟨_, rfl, hs'.init (hs.spliced_absent hm hempty hne hh i)⟩

/-! ## Loops -/

theorem list_for_each (hring : Ring s.next s.prev h (u ++ v)) (hnodup : (h :: (u ++ v)).Nodup)
    {rounds : ℕ} (hr : v.length < rounds) :
    ((v ++ [h]).head?.bind fun pos => listForEach s.next h rounds pos) = some v := by
  induction v generalizing u rounds with
  | nil =>
    cases rounds with
    | zero => exact absurd hr (Nat.not_lt_zero _)
    | succ rounds => exact if_pos rfl
  | cons x v ih =>
    cases rounds with
    | zero => exact absurd hr (Nat.not_lt_zero _)
    | succ rounds =>
      have hxh : x ≠ h := by grind
      have hrest :=
        ih (u := u ++ [x]) (by rwa [List.append_assoc]) (by rwa [List.append_assoc])
          (Nat.lt_of_succ_lt_succ hr)
      rw [List.cons_append, List.head?_cons, Option.bind_some, listForEach, if_neg hxh, hring.next_node]
      obtain ⟨y, hy⟩ : ∃ y, (v ++ [h]).head? = some y := by cases v <;> exact ⟨_, rfl⟩
      rw [hy, Option.bind_some] at hrest ⊢
      rw [hrest]
      rfl

theorem list_for_each_prev (hring : Ring s.next s.prev h (u ++ v)) (hnodup : (h :: (u ++ v)).Nodup)
    {rounds : ℕ} (hr : u.length < rounds) :
    ((h :: u).getLast?.bind fun pos => listForEach s.prev h rounds pos) = some u.reverse := by
  induction u using List.reverseRecOn generalizing v rounds with
  | nil =>
    cases rounds with
    | zero => exact absurd hr (Nat.not_lt_zero _)
    | succ rounds => exact if_pos rfl
  | append_singleton u x ih =>
    cases rounds with
    | zero => exact absurd hr (Nat.not_lt_zero _)
    | succ rounds =>
      rw [List.append_assoc, List.singleton_append] at hring hnodup
      have hxh : x ≠ h := by grind
      rw [List.length_append, List.length_singleton] at hr
      have hrest := ih hring hnodup (Nat.lt_of_succ_lt_succ hr)
      obtain ⟨y, hy⟩ : ∃ y, (h :: u).getLast? = some y :=
        ⟨_, List.getLast?_eq_some_getLast (List.cons_ne_nil h u)⟩
      rw [← List.cons_append, List.getLast?_concat, Option.bind_some, listForEach, if_neg hxh,
        hring.prev_node, List.reverse_concat]
      rw [hy, Option.bind_some] at hrest ⊢
      rw [hrest]
      rfl

theorem HoldsLists.for_each_safe_del (p : P → Bool) {rounds : ℕ} (hs : HoldsLists s a)
    (hh : a h = some (u ++ v)) (hr : v.length < rounds) :
    ∃ s', ((v ++ [h]).head?.bind fun pos => listForEachSafeDel p h rounds s pos) = some s' ∧
      HoldsLists s' (Function.update a h (some (u ++ v.filter fun x => !p x))) := by
  induction v generalizing s a u rounds with
  | nil =>
    cases rounds with
    | zero => exact absurd hr (Nat.not_lt_zero _)
    | succ rounds =>
      refine ⟨s, if_pos rfl, ?_⟩
      rw [List.filter_nil, ← hh, Function.update_eq_self]
      exact hs
  | cons x v ih =>
    cases rounds with
    | zero => exact absurd hr (Nat.not_lt_zero _)
    | succ rounds =>
      have hnodup := hs.nodup hh
      have hxh : x ≠ h := by grind
      obtain ⟨y, hy⟩ : ∃ y, (v ++ [h]).head? = some y := by cases v <;> exact ⟨_, rfl⟩
      rw [List.cons_append, List.head?_cons, Option.bind_some, listForEachSafeDel, if_neg hxh,
        (hs.ring h _ hh).next_node, hy,
        Option.bind_some]
      by_cases hp : p x = true
      · have htake : takeOut a x h = Function.update a h (some (u ++ v)) := by
          rw [takeOut, if_neg hxh, entriesOf_some hh, List.erase_append_right _ (by grind),
            List.erase_cons_head]
        obtain ⟨s₁, hdel, hs₁⟩ :=
          hs.del (e := x) (h := h) ⟨by rw [ringOf_some hh]; simp, fun heq => absurd heq hxh⟩
        rw [htake] at hs₁
        obtain ⟨s', hrest, hs'⟩ := ih hs₁ (Function.update_self h _ a) (Nat.lt_of_succ_lt_succ hr)
        rw [hy, Option.bind_some] at hrest
        rw [Function.update_idem] at hs'
        rw [if_pos hp, hdel, Option.bind_some, List.filter_cons_of_neg (by simp [hp])]
        exact ⟨s', hrest, hs'⟩
      · obtain ⟨s', hrest, hs'⟩ :=
          ih (u := u ++ [x]) hs (by rwa [List.append_assoc]) (Nat.lt_of_succ_lt_succ hr)
        rw [hy, Option.bind_some] at hrest
        rw [if_neg hp, List.filter_cons_of_pos (by simpa using hp)]
        rw [List.append_assoc, List.singleton_append] at hs'
        exact ⟨s', hrest, hs'⟩

theorem HoldsLists.is_last (hs : HoldsLists s a) (hmem : e ∈ ringOf a h) :
    listIsLast s e h = decide ((ringOf a h).getLast? = some e) := by
  obtain ⟨l, hh, hel⟩ := exists_of_mem_ringOf hmem
  obtain ⟨u, v, rfl, -, -, he⟩ := exists_place_after hel
  have hnodup := hs.nodup hh
  rw [listIsLast, (hs.ring h _ hh).next_last he, ringOf_some hh, decide_eq_decide, ← List.cons_append]
  cases v with
  | nil =>
    rw [List.append_nil]
    exact iff_of_true rfl he
  | cons x v =>
    refine iff_of_false (fun heq => ?_) fun heq => ?_
    · have := Option.some.inj heq
      grind
    · rw [List.getLast?_append_cons] at heq
      have := List.mem_of_mem_getLast? heq
      have := List.mem_of_mem_getLast? he
      grind

theorem listSpliceInit_eq : listSpliceInit s list h =
    if listEmpty s list then some s else (listSplice s list h).map fun s => initListHead s list := by
  rw [listSpliceInit, listSplice]
  split
  · rfl
  · cases s.next h <;> rfl

theorem listSpliceTailInit_eq : listSpliceTailInit s list h =
    if listEmpty s list then some s else (listSpliceTail s list h).map fun s => initListHead s list := by
  rw [listSpliceTailInit, listSpliceTail]
  split
  · rfl
  · cases s.prev h <;> rfl

/-! ## Runs -/

theorem list_step [Fintype P] (hs : HoldsLists s a) (c : ListCall P) (hc : (listSpec (P := P)).legal a c) :
    ∃ s' o, listExec s c = some (s', o) ∧ listSpec.out a c o ∧ HoldsLists s' (listSpec.next a c) := by
  cases c with
  | init list => exact ⟨_, _, rfl, rfl, hs.init hc⟩
  | add new place head => exact exists_done (hs.add hc)
  | addTail new place head => exact exists_done (hs.add_tail hc)
  | del entry head => exact exists_done (hs.del hc)
  | delInit entry head => exact exists_done (hs.del_init hc)
  | replace old new head => exact exists_done (hs.replace hc)
  | replaceInit old new head =>
    obtain ⟨s', hcall, hs'⟩ := hs.replace hc
    exact exists_done ⟨_,
      by rw [listReplaceInit, hcall]; rfl, hs'.init fun k hk => absurd hk (hs.renamed_absent hc k)⟩
  | move entry head place head' => exact exists_done (hs.move hc.1 hc.2)
  | moveTail entry head place head' => exact exists_done (hs.move_tail hc.1 hc.2)
  | rotateLeft head =>
    obtain ⟨l, hl⟩ := Option.ne_none_iff_exists'.mp hc
    obtain ⟨s', hcall, hs'⟩ := hs.rotate_left hl
    exact exists_done ⟨s', hcall, by rw [← entriesOf_some hl] at hs'; exact hs'⟩
  | cutPosition list head entry => exact exists_done (hs.cut_position hc)
  | splice list place head => exact exists_done (hs.splice hc.1 hc.2.1 hc.2.2)
  | spliceTail list place head => exact exists_done (hs.splice_tail hc.1 hc.2.1 hc.2.2)
  | spliceInit list place head =>
    obtain ⟨s', hcall, hs'⟩ := hs.splice_then_init hc.1 hc.2.1 hc.2.2 (hs.splice hc.1 hc.2.1 hc.2.2)
    exact exists_done ⟨s', listSpliceInit_eq.trans hcall, hs'⟩
  | spliceTailInit list place head =>
    obtain ⟨s', hcall, hs'⟩ := hs.splice_then_init hc.1 hc.2.1 hc.2.2 (hs.splice_tail hc.1 hc.2.1 hc.2.2)
    exact exists_done ⟨s', listSpliceTailInit_eq.trans hcall, hs'⟩
  | delAll p head =>
    obtain ⟨l, hl⟩ := Option.ne_none_iff_exists'.mp hc
    obtain ⟨s', hcall, hs'⟩ := hs.for_each_safe_del p (u := []) hl (hs.nodup hl).length_le_card
    exact exists_done ⟨s',
      by rw [hs.next_head hl]; exact hcall, by rw [← entriesOf_some hl] at hs'; exact hs'⟩
  | isEmpty head =>
    obtain ⟨l, hl⟩ := Option.ne_none_iff_exists'.mp hc
    exact ⟨s, _, rfl, by rw [hs.list_empty hl, ← entriesOf_some hl]; rfl, hs⟩
  | isSingular head =>
    obtain ⟨l, hl⟩ := Option.ne_none_iff_exists'.mp hc
    exact ⟨s, _, rfl, by rw [hs.list_is_singular hl, ← entriesOf_some hl]; rfl, hs⟩
  | isLast entry head => exact ⟨s, _, rfl, by rw [hs.is_last hc]; rfl, hs⟩
  | forEach head =>
    obtain ⟨l, hl⟩ := Option.ne_none_iff_exists'.mp hc
    refine ⟨s, .nodes l, ?_, by rw [← entriesOf_some hl]; rfl, hs⟩
    rw [listExec, hs.next_head hl,
      list_for_each (u := []) (hs.ring head l hl) (hs.nodup hl) (hs.nodup hl).length_le_card]
    rfl
  | forEachPrev head =>
    obtain ⟨l, hl⟩ := Option.ne_none_iff_exists'.mp hc
    refine ⟨s, .nodes l.reverse, ?_, by rw [← entriesOf_some hl]; rfl, hs⟩
    have hring := hs.ring head l hl
    have hnodup := hs.nodup hl
    rw [← List.append_nil l] at hring hnodup
    rw [listExec, hs.prev_head hl, list_for_each_prev hring hnodup (hs.nodup hl).length_le_card]
    rfl

/-- Whatever the nodes hold at first, every legal run of calls returns, its answers are those of the
lists, and the links at its end are the rings of the lists. -/
theorem list_runs_hold_lists [Fintype P] (s : Links P) (cs : List (ListCall P))
    (hcs : (listSpec (P := P)).LegalRun (fun _ => none) cs) :
    ∃ s' os, runCalls listExec s cs = some (s', os) ∧ (listSpec (P := P)).Conforms (fun _ => none) cs os ∧
      HoldsLists s' ((listSpec (P := P)).after (fun _ => none) cs) :=
  Spec.conforms_calls (fun _ s a => HoldsLists s a)
    (fun _ _ _ c hs hc => (list_step hs c hc).imp fun _ ⟨o, h⟩ => ⟨o, h⟩) cs s _
    (holdsLists_none s) hcs

def spliceCalls (h list e f : P) : List (ListCall P) :=
  [.init h, .init list, .add e h h, .addTail f h h, .spliceTail h list list, .forEachPrev list]

theorem list_runs_hold_lists_witness :
    ∃ s' os, runCalls listExec ⟨fun _ => none, fun _ => none⟩ (spliceCalls (0 : Fin 4) 1 2 3) =
      some (s', os) ∧
    listSpec.Conforms (fun _ => none) (spliceCalls 0 1 2 3) os ∧
      HoldsLists s' (listSpec.after (fun _ => none) (spliceCalls 0 1 2 3)) := by
  refine list_runs_hold_lists _ _ ⟨?_, ?_, ?_, ?_, ?_, ?_, trivial⟩
  · show Loose _ _
    decide
  · show Loose _ _
    decide
  · show CanPut _ _ _ _
    decide
  · show CanPut _ _ _ _
    decide
  · show _ ≠ none ∧ _ ≠ _ ∧ _ ∈ ringOf _ _
    decide
  · show _ ≠ none
    decide

end Spec

end Skp.Adt
