import Skp.Algorithm.ListSortMerge

/-! # The list sort

The partial lists of the table, the highest level first, then the list that is carried, then the
nodes still in the list: in this order every step keeps the elements, and equal ones stay in their
order. A merge joins two neighbours there, since the slots below are free. -/
namespace Skp.Algorithm
set_option autoImplicit false
open Skp.Foundations

variable {N : Type*} {cmp : Comparison N} {s : Links N} {t : Table N} {part : ℕ → Option N}
    {cur list : Option N}
  {out : ℕ → List N} {l c rest : List N} {head x p : N} {i lev maxLev rounds fuel : ℕ}

/-- The nodes of `l` in the middle of the sort: the partial lists `out`, the list `c` that is
carried and the nodes `rest`. -/
structure Sorting (cmp : Comparison N) (l : List N) (s : Links N) (part : ℕ → Option N)
    (cur list : Option N) (out : ℕ → List N)
    (c rest : List N) : Prop where
  parts : ∀ i, Walk s.next (part i) (out i) none
  cur : Walk s.next cur c none
  list : Walk s.next list rest none
  sorted : ∀ i, (out i).Pairwise cmp.le
  sortedCur : c.Pairwise cmp.le
  high : ∀ i, maxListLengthBits ≤ i → part i = none
  order : SameOrder cmp l (stacked out maxListLengthBits ++ (c ++ rest))

namespace Sorting

theorem out_nil (h : Sorting cmp l s part cur list out c rest) (hi : part i = none) : out i = [] := by
  have hwalk := h.parts i
  rw [hi] at hwalk
  exact walk_nil_iff.mp hwalk

theorem lt_of_part (h : Sorting cmp l s part cur list out c rest) (hp : part lev = some p) :
    lev < maxListLengthBits := by
  by_contra hge
  rw [h.high lev (not_lt.mp hge)] at hp
  cases hp

theorem lt_of_mem (h : Sorting cmp l s part cur list out c rest) (hx : x ∈ out i) :
    i < maxListLengthBits := by
  by_contra hge
  rw [h.out_nil (h.high i (not_lt.mp hge))] at hx
  cases hx

/-! ## The steps -/

theorem place (h : Sorting cmp l s part cur list out c rest) (hfree : ∀ i, i ≤ lev → part i = none)
    (hlev : lev < maxListLengthBits) :
    Sorting cmp l s (Function.update part lev cur) none list (Function.update out lev c) [] rest := by
  have hout : Function.update (Function.update out lev c) lev [] = out := by
    rw [Function.update_idem, ← h.out_nil (hfree lev le_rfl), Function.update_eq_self]
  have hbelow : ∀ i, i < lev → Function.update out lev c i = [] := by
    intro i hi
    rw [Function.update_of_ne hi.ne]
    exact h.out_nil (hfree i hi.le)
  refine ⟨?_, rfl, h.list, ?_, List.Pairwise.nil, ?_, ?_⟩
  · intro i
    by_cases hi : i = lev
    · rw [hi, Function.update_self, Function.update_self]
      exact h.cur
    · rw [Function.update_of_ne hi, Function.update_of_ne hi]
      exact h.parts i
  · rw [Function.forall_update_iff out fun _ l => l.Pairwise cmp.le]
    exact ⟨h.sortedCur, fun i _ => h.sorted i⟩
  · intro i hi
    rw [Function.update_of_ne (hlev.trans_le hi).ne']
    exact h.high i hi
  · rw [stacked_split hbelow hlev, hout, Function.update_self, List.append_assoc]
    exact h.order

variable [DecidableEq N]

theorem split (h : Sorting cmp l s part none (some x) out [] rest) (hl : l.Nodup) :
    ∃ rest', rest = x :: rest' ∧ Sorting cmp l (s.setNext x none) part (some x) (s.next x) out [x] rest' := by
  have hnodup := h.order.perm.nodup_iff.mpr hl
  have hlist := h.list
  cases rest with
  | nil => cases hlist
  | cons y rest =>
    obtain ⟨hy, hrest⟩ := hlist
    obtain rfl := Option.some.inj hy
    rw [List.nil_append] at hnodup
    have hapart := List.nodup_append.mp hnodup
    have hkeep (z : N) (hz : z ≠ x) : (s.setNext x none).next z = s.next z := by
      simp [Links.setNext, hz]
    refine ⟨rest, rfl, ?_, ⟨rfl, ?_⟩, ?_, h.sorted, List.pairwise_singleton _ x, h.high, h.order⟩
    · intro i
      apply (h.parts i).congr
      intro z hz
      apply hkeep
      exact hapart.2.2 z (mem_stacked (h.lt_of_mem hz) hz) x List.mem_cons_self
    · simp [Links.setNext, Walk]
    · apply hrest.congr
      intro z hz
      apply hkeep
      rintro rfl
      exact (List.nodup_cons.mp hapart.2.1).1 hz

theorem merge (h : Sorting cmp l s part cur list out c rest) (hl : l.Nodup)
    (hbelow : ∀ i, i < lev → part i = none)
    (hp : part lev = some p) (hfuel : l.length < fuel) :
    ∃ m, Skp.Algorithm.merge cmp.run fuel s (some p) cur = some m ∧
      Sorting cmp l m.links (Function.update part lev none) m.first list
        (Function.update out lev []) (cmp.merge (out lev) c) rest := by
  have hlev : lev < maxListLengthBits := h.lt_of_part hp
  have horder := h.order
  rw [stacked_split (fun i hi => h.out_nil (hbelow i hi)) hlev, List.append_assoc,
    ← List.append_assoc (out lev)] at horder
  have hnodup := horder.perm.nodup_iff.mpr hl
  have hlength := horder.perm.length_eq
  simp only [List.length_append] at hlength
  have hapart := List.nodup_append.mp hnodup
  have hapart' := List.nodup_append.mp hapart.2.1
  have hwalk := h.parts lev
  rw [hp] at hwalk
  obtain ⟨m, hm, hfirst, hkeep⟩ :=
    merge_ok cmp hwalk h.cur hapart'.1 (by omega : (out lev).length + c.length < fuel)
  refine ⟨m, hm, ?_, hfirst, ?_, ?_, sorted_merge (h.sorted lev) h.sortedCur, ?_,
    horder.trans (sameOrder_merge (h.sorted lev) _ c rest)⟩
  · intro i
    by_cases hi : i = lev
    · rw [hi, Function.update_self, Function.update_self]
      rfl
    · have hout : Function.update out lev [] i = out i := Function.update_of_ne hi [] out
      rw [Function.update_of_ne hi, hout]
      apply (h.parts i).congr
      intro x hx
      apply hkeep
      intro hmem
      have hx' : x ∈ stacked (Function.update out lev []) maxListLengthBits :=
        mem_stacked (h.lt_of_mem hx) (hout.symm ▸ hx)
      exact hapart.2.2 x hx' x (List.mem_append_left rest hmem) rfl
  · apply h.list.congr
    intro x hx
    apply hkeep
    intro hmem
    exact hapart'.2.2 x hmem x hx rfl
  · rw [Function.forall_update_iff out fun _ l => l.Pairwise cmp.le]
    exact ⟨List.Pairwise.nil, fun i _ => h.sorted i⟩
  · intro i hi
    rw [Function.update_of_ne (hlev.trans_le hi).ne']
    exact h.high i hi

end Sorting

/-! ## The loops -/

/-- The highest level in use. -/
structure Topped (t : Table N) : Prop where
  bound : t.maxLev < maxListLengthBits
  above : ∀ i, t.maxLev < i → t.part i = none

theorem put_ok (h : Sorting cmp l s part cur list out c rest) (hfree : ∀ i, i ≤ lev → part i = none)
    (hlev : lev ≤ maxLev)
    (hbound : maxLev < maxListLengthBits) (habove : ∀ i, maxLev < i → part i = none) :
    ∃ out', Sorting cmp l s (Function.update part lev cur) none list out' [] rest ∧
      Topped ⟨s, Function.update part lev cur, maxLev⟩ := by
  refine ⟨_, h.place hfree (hlev.trans_lt hbound), hbound, ?_⟩
  intro i hi
  have hne : i ≠ lev := (hlev.trans_lt hi).ne'
  exact (Function.update_of_ne hne cur part).trans (habove i hi)

theorem place_ok (h : Sorting cmp l t.links t.part cur list out c rest)
    (hfree : ∀ i, i ≤ lev → t.part i = none)
    (hlev : lev ≤ maxListLengthBits) (hbound : t.maxLev < maxListLengthBits)
    (habove : ∀ i, t.maxLev < i → lev ≤ i → t.part i = none) :
    ∃ out', Sorting cmp l (t.place lev cur).links (t.place lev cur).part none list out' [] rest ∧
      Topped (t.place lev cur) := by
  rw [Table.place]
  split_ifs with hmax hfull
  · -- all slots are free and the list goes into the last one
    have hpos : 0 < maxListLengthBits := hbound.pos
    apply put_ok h (fun i hi => hfree i (by omega)) le_rfl (by omega)
    intro i hi
    exact habove i (by omega) (by omega)
  · apply put_ok h hfree le_rfl (not_le.mp hfull)
    intro i hi
    exact habove i (hmax.trans hi) hi.le
  · apply put_ok h hfree (not_lt.mp hmax) hbound
    intro i hi
    exact habove i hi (by omega)

theorem order_top {m : Merging N}
    (h : Sorting cmp l m.links (fun i => if i < t.maxLev then none else t.part i) m.first
      none out c [])
    (htop : Topped t) : SameOrder cmp l (out t.maxLev ++ c) := by
  have hbelow : ∀ i, i < t.maxLev → out i = [] := fun i hi => h.out_nil (if_pos hi)
  have hrest : ∀ i, i < maxListLengthBits → Function.update out t.maxLev [] i = [] := by
    intro i _
    rcases lt_trichotomy i t.maxLev with hlt | rfl | hgt
    · rw [Function.update_of_ne hlt.ne]
      exact hbelow i hlt
    · exact Function.update_self t.maxLev [] out
    · rw [Function.update_of_ne hgt.ne']
      exact h.out_nil ((if_neg hgt.not_gt).trans (htop.above i hgt))
  have horder := h.order
  rw [stacked_split hbelow htop.bound, stacked_nil hrest, List.nil_append, List.append_nil] at horder
  exact horder

variable [DecidableEq N]

theorem carryLoop_ok (h : Sorting cmp l t.links t.part cur list out c rest) (hl : l.Nodup)
    (hbelow : ∀ i, i < lev → t.part i = none)
    (hlev : lev ≤ maxListLengthBits) (hrounds : maxListLengthBits < lev + rounds) (hfuel : l.length < fuel) :
    ∃ t' lev' cur' out' c', carryLoop cmp.run fuel rounds t lev cur = some (t', lev', cur') ∧
      Sorting cmp l t'.links t'.part cur' list out' c' rest ∧ (∀ i, i ≤ lev' → t'.part i = none) ∧
        lev' ≤ maxListLengthBits ∧
      lev ≤ lev' ∧ (∀ i, lev' ≤ i → t'.part i = t.part i) ∧ t'.maxLev = t.maxLev := by
  induction rounds generalizing t lev cur out c with
  | zero => omega
  | succ rounds ih =>
    rw [carryLoop, if_neg (not_lt.mpr hlev)]
    cases hp : t.part lev with
    | none =>
      refine ⟨t, lev, cur, out, c, rfl, h, ?_, hlev, le_rfl, fun _ _ => rfl, rfl⟩
      intro i hi
      rcases hi.lt_or_eq with hlt | rfl
      · exact hbelow i hlt
      · exact hp
    | some p =>
      have hlt := h.lt_of_part hp
      obtain ⟨m, hm, hmerged⟩ := h.merge hl hbelow hp hfuel
      have hbelow' : ∀ i, i < lev + 1 → Function.update t.part lev none i = none := by
        intro i hi
        rcases Nat.lt_succ_iff_lt_or_eq.mp hi with hlt | rfl
        · rw [Function.update_of_ne hlt.ne]
          exact hbelow i hlt
        · exact Function.update_self i none t.part
      obtain ⟨t', lev', cur', out', c', hrun, hsort, hfree, hle, hge, hkeep, hmax⟩ :=
        ih (t := { t with links := m.links, part := Function.update t.part lev none }) hmerged
          hbelow' hlt (by omega)
      simp only [hm, Option.bind_some]
      refine ⟨t', lev', cur', out', c', hrun, hsort, hfree, hle, by omega, ?_, hmax⟩
      intro i hi
      rw [hkeep i (by omega)]
      exact Function.update_of_ne (by omega : i ≠ lev) none t.part

theorem splitLoop_ok (h : Sorting cmp l t.links t.part none list out [] rest) (hl : l.Nodup) (htop : Topped t)
    (hrounds : rest.length < rounds) (hfuel : l.length < fuel) (hlevels : maxListLengthBits < fuel) :
    ∃ t' out', splitLoop cmp.run fuel rounds t list = some t' ∧
      Sorting cmp l t'.links t'.part none none out' [] [] ∧ Topped t' := by
  induction rounds generalizing t list rest out with
  | zero => exact absurd hrounds (Nat.not_lt_zero _)
  | succ rounds ih =>
    cases list with
    | none =>
      obtain rfl : rest = [] := walk_nil_iff.mp h.list
      exact ⟨t, out, rfl, h, htop⟩
    | some x =>
      obtain ⟨rest', rfl, hsplit⟩ := h.split hl
      obtain ⟨t₁, lev, cur, out₁, c, hcarry, hsort, hfree, hlev, -, hkeep, hmax⟩ :=
        carryLoop_ok (t := { t with links := t.links.setNext x none }) hsplit hl
          (fun i hi => absurd hi i.not_lt_zero) (Nat.zero_le _)
          (by omega : maxListLengthBits < 0 + fuel) hfuel
      have habove : ∀ i, t₁.maxLev < i → lev ≤ i → t₁.part i = none := by
        intro i hi hle
        rw [hkeep i hle]
        exact htop.above i (hmax ▸ hi)
      obtain ⟨out₂, hplaced, htop'⟩ := place_ok hsort hfree hlev (hmax ▸ htop.bound) habove
      rw [splitLoop, hcarry, Option.bind_some]
      exact ih hplaced htop' (Nat.lt_of_succ_lt_succ hrounds)

theorem foldLoop_ok (h : Sorting cmp l t.links t.part none none out [] []) (hl : l.Nodup)
    (hfuel : l.length < fuel) (lev : ℕ) :
    ∃ m out' c, foldLoop cmp.run fuel t lev = some m ∧
      Sorting cmp l m.links (fun i => if i < lev then none else t.part i) m.first none out' c [] := by
  induction lev with
  | zero =>
    refine ⟨⟨t.links, none⟩, out, [], rfl, ?_⟩
    simpa using h
  | succ lev ih =>
    obtain ⟨m, out', c, hrun, hsort⟩ := ih
    rw [foldLoop, hrun, Option.bind_some]
    have hupdate : Function.update (fun i => if i < lev then none else t.part i) lev none =
        fun i => if i < lev + 1 then none else t.part i := by
      funext i
      rw [Function.update_apply]
      split_ifs with h₁ h₂ h₃ h₄ h₅
      all_goals first | rfl | omega
    cases hp : t.part lev with
    | none =>
      have hfree : (if lev < lev then none else t.part lev) = none := by rw [if_neg (lt_irrefl lev), hp]
      refine ⟨m, out', c, rfl, ?_⟩
      rw [← hupdate]
      nth_rewrite 2 [← hfree]
      rw [Function.update_eq_self]
      exact hsort
    | some p =>
      have hslot : (if lev < lev then none else t.part lev) = some p := by rw [if_neg (lt_irrefl lev), hp]
      obtain ⟨m', hm', hmerged⟩ := hsort.merge hl (fun i hi => if_pos hi) hslot hfuel
      rw [hupdate] at hmerged
      exact ⟨m', _, _, hm', hmerged⟩

/-! ## The whole sort -/

theorem start (cmp : Comparison N) (h : Circular s head l) (hne : l ≠ []) :
    ∃ last, s.prev head = some last ∧ listEmpty s head = false ∧
      Sorting cmp l (s.setNext last none) (fun _ => none) none ((s.setNext last none).next head)
        (fun _ => []) [] l := by
  have hback := (back_append.mp h.prev).2.1
  have hempty : s.next head ≠ some head := by
    intro heq
    have hwalk := h.next
    cases l with
    | nil => exact hne rfl
    | cons x l =>
      obtain rfl := Option.some.inj (heq.symm.trans hwalk.1)
      exact (List.nodup_cons.mp h.nodup).1 List.mem_cons_self
  refine ⟨lastFrom head l, hback, decide_eq_false hempty, fun _ => rfl, rfl, ?_,
    fun _ => List.Pairwise.nil, List.Pairwise.nil,
    fun _ _ => rfl, ?_⟩
  · exact h.next.set_last h.nodup none
  · rw [stacked_nil fun _ _ => rfl]
    exact SameOrder.refl cmp l

/-- The sort of a circular list ends with a circular list of the same nodes, sorted, equal ones in
their order. -/
theorem listSort_sorts (cmp : Comparison N) (h : Circular s head l)
    (hfuel : l.length + maxListLengthBits < fuel) :
    ∃ s' out, listSort cmp.run fuel s head = some s' ∧ Circular s' head out ∧ out.Perm l ∧
      out.Pairwise cmp.le ∧
      ∀ x, out.filter (cmp.same x) = l.filter (cmp.same x) := by
  rw [listSort]
  by_cases hne : l = []
  · subst hne
    have hempty : listEmpty s head = true := decide_eq_true h.next
    rw [if_pos hempty]
    exact ⟨s, [], rfl, h, List.Perm.refl [], List.Pairwise.nil, fun _ => rfl⟩
  · obtain ⟨last, hlast, hempty, hstart⟩ := start cmp h hne
    have hl : l.Nodup := (List.nodup_cons.mp h.nodup).2
    have htop : Topped (⟨s.setNext last none, fun _ => none, 0⟩ : Table N) :=
      ⟨Nat.zero_lt_succ 19, fun _ _ => rfl⟩
    obtain ⟨t, out, hsplit, hsort, htop'⟩ :=
      splitLoop_ok (t := ⟨s.setNext last none, fun _ => none, 0⟩) hstart hl htop
      (by omega : l.length < fuel) (by omega : l.length < fuel) (by omega)
    obtain ⟨m, out', c, hfold, hsort'⟩ := foldLoop_ok hsort hl (by omega : l.length < fuel) t.maxLev
    have horder := order_top hsort' htop'
    have hwalk := hsort'.parts t.maxLev
    rw [if_neg (lt_irrefl t.maxLev)] at hwalk
    have hnodup : (head :: (out' t.maxLev ++ c)).Nodup := (horder.perm.cons head).nodup_iff.mpr h.nodup
    have hne' : out' t.maxLev ++ c ≠ [] := by
      intro hnil
      have hperm := horder.perm
      rw [hnil] at hperm
      exact hne (List.nil_perm.mp hperm)
    have hlength := horder.perm.length_eq
    rw [List.length_append] at hlength
    obtain ⟨s', hrun, hcircular⟩ := mergeAndRestoreBackLinks_ok cmp hwalk hsort'.cur hnodup hne'
      (by omega : (out' t.maxLev).length + c.length < fuel)
    have hmerge : SameOrder cmp (out' t.maxLev ++ c) (cmp.merge (out' t.maxLev) c) := by
      simpa using sameOrder_merge (hsort'.sorted t.maxLev) [] c []
    have hsorted := sorted_merge (hsort'.sorted t.maxLev) hsort'.sortedCur
    refine ⟨s', cmp.merge (out' t.maxLev) c, ?_, hcircular, (horder.trans hmerge).perm, hsorted,
      (horder.trans hmerge).stable⟩
    rw [hempty, if_neg Bool.false_ne_true, hlast, Option.bind_some]
    simp only [hsplit, Option.bind_some, hfold, hrun]

/-- The nodes 1 and 3 are equal and greater than 2. -/
def byParity : Comparison (Fin 4) where
  run x y := (x.val % 2 : ℤ) - y.val % 2
  total x y := by omega
  trans x y z := by omega

theorem listSort_sorts_three :
    ∃ s' out, listSort byParity.run 24 ⟨fun i => some (i + 1), fun i => some (i - 1)⟩ 0 = some s' ∧
    Circular s' 0 out ∧ out.Perm [1, 2, 3] ∧ out.Pairwise byParity.le ∧
      ∀ x, out.filter (byParity.same x) = [1, 2, 3].filter (byParity.same x) :=
  listSort_sorts byParity ⟨⟨rfl, rfl, rfl, rfl⟩, ⟨rfl, rfl, rfl, rfl, trivial⟩, by decide⟩ (by decide)

end Skp.Algorithm
