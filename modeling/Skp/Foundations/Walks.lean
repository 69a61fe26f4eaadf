import Mathlib

/-! # Walks and rings of linked nodes -/

namespace Skp.Foundations
set_option autoImplicit false

/-! ## Walks along links

`Walk next p l q` leads from the link `p` through the nodes of `l` to the link `q`. `Back prev t l`
says that each node of `l` leads back to the one before it, the first to `t`. -/

section Walks
variable {N : Type*} {next next' prev prev' : N → Option N} {p q : Option N} {l l' : List N} {t x y : N}

def Walk (next : N → Option N) : Option N → List N → Option N → Prop
  | p, [], q => p = q
  | p, x :: l, q => p = some x ∧ Walk next (next x) l q

def Back (prev : N → Option N) : N → List N → Prop
  | _, [] => True
  | t, x :: l => prev x = some t ∧ Back prev x l

theorem Walk.congr (h : Walk next p l q) (heq : ∀ x, x ∈ l → next' x = next x) : Walk next' p l q := by
  induction l generalizing p with
  | nil => exact h
  | cons x l ih =>
    refine ⟨h.1, ?_⟩
    rw [heq x List.mem_cons_self]
    exact ih h.2 fun y hy => heq y (List.mem_cons_of_mem x hy)

theorem Back.congr (h : Back prev t l) (heq : ∀ x, x ∈ l → prev' x = prev x) : Back prev' t l := by
  induction l generalizing t with
  | nil => trivial
  | cons x l ih =>
    exact ⟨(heq x List.mem_cons_self).trans h.1,
      ih h.2 fun y hy => heq y (List.mem_cons_of_mem x hy)⟩

theorem walk_append : Walk next p (l ++ l') q ↔ ∃ r, Walk next p l r ∧ Walk next r l' q := by
  induction l generalizing p with
  | nil => exact ⟨fun h => ⟨p, rfl, h⟩, fun ⟨r, hr, h⟩ => hr ▸ h⟩
  | cons x l ih =>
    rw [List.cons_append, Walk, ih]
    exact ⟨fun ⟨hp, r, hr, h⟩ => ⟨r, ⟨hp, hr⟩, h⟩, fun ⟨r, ⟨hp, hr⟩, h⟩ => ⟨hp, r, hr, h⟩⟩

/-- The last node of `t :: l`. -/
def lastFrom : N → List N → N
  | t, [] => t
  | _, x :: l => lastFrom x l

theorem back_append : Back prev t (l ++ l') ↔ Back prev t l ∧ Back prev (lastFrom t l) l' := by
  induction l generalizing t with
  | nil => exact ⟨fun h => ⟨trivial, h⟩, fun h => h.2⟩
  | cons x l ih => exact (and_congr_right fun _ => ih).trans and_assoc.symm

theorem lastFrom_append (t : N) (l l' : List N) : lastFrom t (l ++ l') = lastFrom (lastFrom t l) l' := by
  induction l generalizing t with
  | nil => rfl
  | cons x l ih => exact ih x

theorem lastFrom_mem (t : N) (l : List N) : lastFrom t l ∈ t :: l := by
  induction l generalizing t with
  | nil => exact List.mem_cons_self
  | cons x l ih => exact List.mem_cons_of_mem t (ih x)

theorem walk_nil_iff : Walk next none l none ↔ l = [] := by
  cases l with
  | nil => exact iff_of_true rfl rfl
  | cons x l => exact iff_of_false (fun h => nomatch h.1) (List.cons_ne_nil x l)

theorem Walk.next_last (h : Walk next (next t) l q) : next (lastFrom t l) = q := by
  induction l generalizing t with
  | nil => exact h
  | cons x l ih => exact ih h.2

section Update
variable [DecidableEq N]

/-- The walk through the last node ends where its link is set to. -/
theorem Walk.set_last (h : Walk next (next t) l q) (hnodup : (t :: l).Nodup) (v : Option N) :
    Walk (Function.update next (lastFrom t l) v) (Function.update next (lastFrom t l) v t) l v := by
  induction l generalizing t with
  | nil => exact Function.update_self t v next
  | cons x l ih =>
    have hne : t ≠ lastFrom x l := by
      intro heq
      exact (List.nodup_cons.mp hnodup).1 (heq ▸ lastFrom_mem x l)
    refine ⟨?_, ih h.2 (List.nodup_cons.mp hnodup).2⟩
    rw [lastFrom, Function.update_of_ne hne]
    exact h.1

end Update

end Walks

/-! ## Rings of doubly linked nodes

`Tied next prev x y` says that `x` leads to `y` and `y` back to `x`. A ring is a head and the nodes
behind it, tied in that order, the last of them to the head again. A ring opens between any two
neighbours into two chains, and two chains are joined by one pair of links, so whatever is put in or
taken out is a matter of joins. -/

section Rings
variable {P : Type*} {next prev next' prev' : P → Option P} {h x y : P} {l u v m n : List P}

def Tied (next prev : P → Option P) (x y : P) : Prop := next x = some y ∧ prev y = some x

/-- From the head through `l` and back to the head. -/
def Ring (next prev : P → Option P) (h : P) (l : List P) : Prop := (h :: (l ++ [h])).IsChain (Tied next prev)

theorem chain_congr (hl : l.IsChain (Tied next prev)) (hn : ∀ x ∈ l, next' x = next x)
    (hp : ∀ x ∈ l, prev' x = prev x) :
    l.IsChain (Tied next' prev') :=
  hl.imp_of_mem_imp fun x y hx hy hxy => ⟨(hn x hx).trans hxy.1, (hp y hy).trans hxy.2⟩

theorem Ring.congr (hl : Ring next prev h l) (hn : ∀ x ∈ h :: l, next' x = next x)
    (hp : ∀ x ∈ h :: l, prev' x = prev x) :
    Ring next' prev' h l := by
  have hmem : ∀ x ∈ h :: (l ++ [h]), x ∈ h :: l := by
    intro x hx
    simp only [List.mem_cons, List.mem_append, List.not_mem_nil, or_false] at hx ⊢
    tauto
  exact chain_congr hl (fun x hx => hn x (hmem x hx)) fun x hx => hp x (hmem x hx)

/-- A ring opened between two neighbours. -/
theorem ring_append : Ring next prev h (u ++ v) ↔ (h :: u).IsChain (Tied next prev) ∧
      (v ++ [h]).IsChain (Tied next prev) ∧
    ∀ x ∈ (h :: u).getLast?, ∀ y ∈ (v ++ [h]).head?, Tied next prev x y := by
  rw [Ring, List.append_assoc, ← List.cons_append, List.isChain_append]

/-- The neighbours at an opening. -/
theorem Ring.next_last (hl : Ring next prev h (u ++ v)) (hx : x ∈ (h :: u).getLast?) :
    next x = (v ++ [h]).head? := by
  have htie := (ring_append.mp hl).2.2 x hx
  cases v with
  | nil => exact (htie h rfl).1
  | cons y v => exact (htie y rfl).1

theorem Ring.prev_first (hl : Ring next prev h (u ++ v)) (hy : y ∈ (v ++ [h]).head?) :
    prev y = (h :: u).getLast? := by
  have htie := (ring_append.mp hl).2.2
  rw [List.getLast?_eq_some_getLast (List.cons_ne_nil h u)] at htie ⊢
  exact (htie _ rfl y hy).2

theorem Ring.next_node (hl : Ring next prev h (u ++ x :: v)) : next x = (v ++ [h]).head? := by
  rw [List.append_cons] at hl
  exact hl.next_last (by rw [← List.cons_append]; exact List.getLast?_concat)

theorem Ring.prev_node (hl : Ring next prev h (u ++ x :: v)) : prev x = (h :: u).getLast? := hl.prev_first rfl

/-! ## Ends of lists without repetitions -/

theorem not_mem_dropLast (hl : l.Nodup) (hx : x ∈ l.getLast?) : x ∉ l.dropLast := by
  obtain ⟨u, rfl⟩ := List.getLast?_eq_some_iff.mp hx
  rw [List.dropLast_concat]
  exact fun hu => (List.nodup_append.mp hl).2.2 x hu x List.mem_cons_self rfl

theorem not_mem_tail (hl : l.Nodup) (hy : y ∈ l.head?) : y ∉ l.tail := by
  cases l with
  | nil => exact fun h => nomatch h
  | cons a l =>
    obtain rfl := Option.some.inj hy
    exact (List.nodup_cons.mp hl).1

theorem map_replace [DecidableEq P] (hu : x ∉ u) (hv : x ∉ v) (y : P) :
    (u ++ x :: v).map (fun w => if w = x then y else w) = u ++ y :: v := by
  have hid : ∀ l : List P, x ∉ l → l.map (fun w => if w = x then y else w) = l := by
    intro l hl
    exact (List.map_congr_left fun w (hw : w ∈ l) => if_neg fun heq : w = x => hl (heq ▸ hw)).trans
      (List.map_id' l)
  rw [List.map_append, List.map_cons, if_pos rfl, hid u hu, hid v hv]

/-! ## Setting links -/

section Update
variable [DecidableEq P]

/-- A chain keeps its links when a link is set that it does not have. -/
theorem chain_connect (hl : l.IsChain (Tied next prev)) (hx : x ∉ l.dropLast) (hy : y ∉ l.tail) :
    l.IsChain (Tied (Function.update next x (some y)) (Function.update prev y (some x))) := by
  induction l with
  | nil => exact .nil
  | cons a l ih =>
    cases l with
    | nil => exact .singleton a
    | cons b l =>
      rw [List.dropLast_cons_cons, List.mem_cons, not_or] at hx
      rw [List.tail_cons, List.mem_cons, not_or] at hy
      rw [List.isChain_cons_cons] at hl ⊢
      refine ⟨⟨?_, ?_⟩, ih hl.2 hx.2 hy.2⟩
      · rw [Function.update_of_ne (Ne.symm hx.1)]
        exact hl.1.1
      · rw [Function.update_of_ne (Ne.symm hy.1)]
        exact hl.1.2

theorem tied_connect (x y : P) :
    Tied (Function.update next x (some y)) (Function.update prev y (some x)) x y :=
  ⟨Function.update_self x _ _, Function.update_self y _ _⟩

theorem chain_join (hm : m.IsChain (Tied next prev)) (hn : n.IsChain (Tied next prev))
    (hx : x ∈ m.getLast?) (hy : y ∈ n.head?)
    (hxm : x ∉ m.dropLast) (hxn : x ∉ n.dropLast) (hym : y ∉ m.tail) (hyn : y ∉ n.tail) :
    (m ++ n).IsChain (Tied (Function.update next x (some y)) (Function.update prev y (some x))) := by
  refine (chain_connect hm hxm hym).append (chain_connect hn hxn hyn) fun a ha b hb => ?_
  obtain rfl := Option.some.inj (hx.symm.trans ha)
  obtain rfl := Option.some.inj (hy.symm.trans hb)
  exact tied_connect x y

end Update

/-! ## Putting in and taking out -/

section Operations
variable [DecidableEq P] {a z : P}

/-- A chain put between the two parts of an opened ring: its last node is tied to what follows, then
the node before it to its first. -/
theorem ring_insert (hu : (h :: u).IsChain (Tied next prev))
    (hv : (v ++ [h]).IsChain (Tied next prev)) (hm : m.IsChain (Tied next prev))
    (hx : x ∈ (h :: u).getLast?) (hy : y ∈ (v ++ [h]).head?) (ha : a ∈ m.head?)
    (hz : z ∈ m.getLast?) (hnodup : (h :: (u ++ m ++ v)).Nodup) :
    Ring (Function.update (Function.update next z (some y)) x (some a))
      (Function.update (Function.update prev y (some z)) a (some x)) h
      (u ++ m ++ v) := by
  have hmu : ∀ w ∈ m, w ∉ h :: u := by grind
  have hmv : ∀ w ∈ m, w ∉ v ++ [h] := by grind
  have hvu : ∀ w ∈ v ++ [h], w ∉ u := by grind
  have hxv : ∀ w ∈ h :: u, w ∉ m ++ v := by grind
  have ham := List.mem_of_mem_head? ha
  have hzm := List.mem_of_mem_getLast? hz
  have hyv := List.mem_of_mem_head? hy
  have hrest :=
    chain_join hm hv hz hy (not_mem_dropLast (by grind) hz)
      (by rw [List.dropLast_concat]; exact fun h => hmv z hzm (by simp [h]))
    (fun h => hmv y (List.mem_of_mem_tail h) hyv) (not_mem_tail (by grind) hy)
  have hfirst :=
    chain_connect (x := z) (y := y) hu (fun h => hmu z hzm (List.mem_of_mem_dropLast h)) (hvu y hyv)
  rw [Ring, List.append_assoc, List.append_assoc, ← List.cons_append]
  refine chain_join hfirst hrest hx ?_ (not_mem_dropLast (by grind) hx) ?_
    (fun h => hmu a ham (List.mem_cons_of_mem _ h)) ?_
  · exact List.mem_head?_append_of_mem_head? ha
  · rw [← List.append_assoc, List.dropLast_concat]
    exact hxv x (List.mem_of_mem_getLast? hx)
  · exact not_mem_tail (by grind) (List.mem_head?_append_of_mem_head? ha)

/-- What is between two nodes of a ring is taken out by one pair of links. -/
theorem ring_remove (hu : (h :: u).IsChain (Tied next prev)) (hv : (v ++ [h]).IsChain (Tied next prev))
    (hx : x ∈ (h :: u).getLast?) (hy : y ∈ (v ++ [h]).head?) (hnodup : (h :: (u ++ v)).Nodup) :
    Ring (Function.update next x (some y)) (Function.update prev y (some x)) h (u ++ v) := by
  rw [Ring, List.append_assoc, ← List.cons_append]
  have hxm : x ∈ h :: u := List.mem_of_mem_getLast? hx
  have hym : y ∈ v ++ [h] := List.mem_of_mem_head? hy
  refine chain_join hu hv hx hy (not_mem_dropLast (by grind) hx) ?_ ?_ (not_mem_tail (by grind) hy)
  · rw [List.dropLast_concat]
    grind
  · rw [List.tail_cons]
    grind

/-- A node tied to itself. -/
theorem ring_nil (h : P) : Ring (Function.update next h (some h)) (Function.update prev h (some h)) h [] := by
  exact List.isChain_pair.mpr (tied_connect h h)

end Operations

end Rings

end Skp.Foundations
