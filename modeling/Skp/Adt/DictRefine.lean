import Skp.Adt.DictInvariant
import Skp.Foundations.FiniteMap
import Skp.Foundations.Refinement

/-! # The dict is a finite map from keys to nodes

The abstract state is a finite map together with the key each entry embeds. A client may rewrite the
key of an entry that is not in the dict, and passes `dict_insert` the key its entry embeds. Below
`2 ^ 32` nodes every call answers as the map does, in the middle of a move as well as between moves,
whatever the allocations of new tables return. -/
namespace Skp.Adt
set_option autoImplicit false
open Skp.Foundations

variable {K N : Type}

/-- The compare callbacks decide equality of keys. -/
structure DictOps.Lawful (ops : DictOps K) : Prop where
  key : ∀ e k, ops.compareKey e k (ops.calcHash k) = 0 ↔ e = k
  node : ∀ a b, ops.compareNode a b = 0 ↔ a = b

/-! ## Lookup -/

section Lookup
variable {ops : DictOps K} {d : Dict K N}

theorem lookupKeyIn_node (ops : DictOps K) (d : Dict K N) (w : Bool) (key : K) (h : UInt32) :
    (lookupKeyIn ops d w key h).node =
      ((d.tables w).bucket ((d.tables w).getBucket h)).find? fun n => ops.compareKey
        (d.node n).key key h == 0 :=
  List.find?_eq_getElem?_findIdx.symm

theorem lookupKeyIn_sound (hops : ops.Lawful) (h : DictInv ops d) {w : Bool} {key : K} {n : N}
    (hf : (lookupKeyIn ops d w key (ops.calcHash key)).node = some n) :
    (d.node n).linked = true ∧ (d.node n).key = key := by
  rw [lookupKeyIn_node] at hf
  have hmatch := List.find?_some hf
  refine ⟨h.linked_of_holds ⟨_, List.mem_of_find?_eq_some hf⟩, ?_⟩
  exact (hops.key _ _).mp (by simpa using hmatch)

theorem lookupKeyIn_complete (hops : ops.Lawful) (h : DictInv ops d) {w : Bool} {n : N}
    (hn : (d.tables w).Holds n) :
    (lookupKeyIn ops d w (d.node n).key (ops.calcHash (d.node n).key)).node = some n := by
  obtain ⟨i, hi⟩ := hn
  have hat := (h.table w).place i n hi
  have hhome : (d.tables w).getBucket (ops.calcHash (d.node n).key) = i := by
    rw [hat.home, hat.hvalue]
    rfl
  cases hf : (lookupKeyIn ops d w (d.node n).key (ops.calcHash (d.node n).key)).node with
  | none =>
    rw [lookupKeyIn_node, hhome] at hf
    have hno := List.find?_eq_none.mp hf n hi
    rw [(hops.key _ _).mpr rfl] at hno
    exact absurd rfl hno
  | some m =>
    obtain ⟨hml, hmk⟩ := lookupKeyIn_sound hops h hf
    rw [h.keys m n hml hat.linked hmk]

theorem startLookup_eq_some_iff (hops : ops.Lawful) (h : DictInv ops d) (key : K) (n : N) :
    (startLookup ops d key).node = some n ↔ (d.node n).linked = true ∧ (d.node n).key = key := by
  constructor
  · intro hf
    unfold startLookup at hf
    simp only at hf
    split at hf
    · exact lookupKeyIn_sound hops h hf
    · exact lookupKeyIn_sound hops h hf
  · rintro ⟨hl, rfl⟩
    obtain ⟨w, hw⟩ := h.linked n hl
    have hfind := lookupKeyIn_complete hops h hw
    have hlive := h.live_of_holds hw
    unfold startLookup
    simp only
    rcases eq_active_or_rehash d w with rfl | rfl
    · rw [if_neg (by simp [hfind])]
      exact hfind
    · have hr : d.isRehashing = true := hlive.resolve_left (rehash_ne_active d)
      split
      · exact hfind
      · rename_i hsome
        cases hf : (lookupKeyIn ops d d.active (d.node n).key (ops.calcHash (d.node n).key)).node with
        | none => exact absurd ⟨by rw [hf]; rfl, hr⟩ hsome
        | some m =>
          obtain ⟨hml, hmk⟩ := lookupKeyIn_sound hops h hf
          rw [h.keys m n hml hl hmk]

theorem startLookup_place (ops : DictOps K) (d : Dict K N) (key : K) :
    (startLookup ops d key).idx = (d.tables (startLookup ops d key).tab).getBucket (ops.calcHash key) ∧
      (startLookup ops d key).node =
        ((d.tables (startLookup ops d key).tab).bucket
          (startLookup ops d key).idx)[(startLookup ops d key).link]? ∧
      (startLookup ops d key).link ≤
        ((d.tables (startLookup ops d key).tab).bucket (startLookup ops d key).idx).length := by
  unfold startLookup
  simp only
  split <;> exact ⟨rfl, rfl, List.findIdx_le_length⟩

theorem startLookup_miss {key : K} (hf : (startLookup ops d key).node = none) :
    (startLookup ops d key).tab = if d.isRehashing then d.rehash else d.active := by
  unfold startLookup at hf ⊢
  simp only at hf ⊢
  cases hr : d.isRehashing with
  | false => simp [lookupKeyIn]
  | true =>
    simp only [hr, and_true] at hf ⊢
    split at hf
    · rename_i hnone
      rw [if_pos hnone]
      rfl
    · rename_i hsome
      exact absurd (by rw [hf]; rfl) hsome

end Lookup

/-! ## Linking and unlinking one node -/

section Link
variable [DecidableEq N] {ops : DictOps K} {d : Dict K N}

/-- `dict_insert` once the place is known. -/
def linkNode (ops : DictOps K) (d : Dict K N) (n : N) (w : Bool) (idx link : ℕ) (key : K) : Dict K N :=
  let d := d.setNode n
    { d.node n with hvalue := ops.calcHash key, whichb := w, bindex := idx % 2 ^ 31, linked := true }
  let t := (d.tables w).insertNodeBefore idx
  d.setTable w (t.setBucket idx ((t.bucket idx).insertIdx link n))

theorem linkNode_keeps (h : DictInv ops d) (hm : d.Moved) {n : N} {key : K} {w : Bool} {idx link : ℕ}
    (hn : (d.node n).linked = false) (hkey : (d.node n).key = key)
    (hfree : ∀ m, (d.node m).linked = true → (d.node m).key ≠ key)
    (hw : w = if d.isRehashing then d.rehash else d.active)
    (hidx : idx = (d.tables w).getBucket (ops.calcHash key))
    (hlink : link ≤ ((d.tables w).bucket idx).length) (hroom : d.total + 1 < 2 ^ 32) :
    DictInv ops (linkNode ops d n w idx link key) ∧ (linkNode ops d n w idx link key).Moved ∧
      (∀ m, ((linkNode ops d n w idx link key).node m).linked = true ↔ (d.node m).linked = true ∨ m = n) ∧
      (∀ m, ((linkNode ops d n w idx link key).node m).key = (d.node m).key) ∧
      (linkNode ops d n w idx link key).total = d.total + 1 := by
  set d' := linkNode ops d n w idx link key with hd'
  have hlive : d.Live w := by
    rw [hw]
    cases hr : d.isRehashing with
    | false => exact Or.inl rfl
    | true => exact Or.inr hr
  have hout : ∀ v, ¬ (d.tables v).Holds n := fun v hv => by
    rw [h.linked_of_holds hv] at hn
    exact Bool.noConfusion hn
  have hsize := h.size w hlive
  have hlt : idx < (d.tables w).size := hidx ▸ hsize.bucket_lt _
  have hsum := total_split d w
  have hnode : d'.node = Function.update d.node n
      { d.node n with hvalue := ops.calcHash key, whichb := w, bindex := idx % 2 ^ 31, linked := true } := rfl
  have htab : d'.tables w = ((d.tables w).insertNodeBefore idx).setBucket idx
      (((d.tables w).bucket idx).insertIdx link n) := Function.update_self ..
  have hother : ∀ v, v ≠ w → d'.tables v = d.tables v := fun v hv => Function.update_of_ne hv _ _
  have hat : NodeAt ops (d'.node n) w idx (d.tables w).size := by
    rw [hnode, Function.update_self]
    refine ⟨rfl, rfl, Nat.mod_eq_of_lt (lt_of_lt_of_le hlt hsize.le), ?_, hidx⟩
    rw [hkey]
  have hwf0 : TableWf ops d'.node w (d.tables w) := hnode ▸ (h.table w).setNode (hout w) _
  obtain ⟨hwf, hnr, hholds⟩ := hwf0.insert (List.perm_insertIdx n _ hlink) hlt hat (hout w) (by omega)
  rw [← htab] at hwf hnr hholds
  have hlinked : ∀ m, (d'.node m).linked = true ↔ (d.node m).linked = true ∨ m = n := by
    intro m
    rw [hnode]
    by_cases he : m = n
    · subst he
      simp
    · simp [he]
  have hkeys : ∀ m, (d'.node m).key = (d.node m).key := by
    intro m
    rw [hnode]
    by_cases he : m = n
    · subst he
      simp
    · simp [he]
  have htotal : d'.total = d.total + 1 := by
    have hw' : (!w) ≠ w := by cases w <;> decide
    rw [total_split d' w, hother _ hw', hnr, hsum]
    omega
  refine ⟨⟨h.initSize, ?_, ?_, ?_, ?_, ?_, by omega⟩, ⟨hm.1, ?_⟩, hlinked, hkeys, htotal⟩
  · intro v
    by_cases hv : v = w
    · exact hv ▸ hwf
    · rw [hother v hv, hnode]
      exact (h.table v).setNode (hout v) _
  · intro v hv
    by_cases he : v = w
    · rw [he, htab]
      exact hsize
    · rw [hother v he]
      exact h.size v hv
  · intro v hv
    by_cases he : v = w
    · exact absurd (he ▸ hlive) hv
    · rw [hother v he]
      exact h.idle v hv
  · intro m hml
    rcases (hlinked m).mp hml with hold | rfl
    · obtain ⟨v, hv⟩ := h.linked m hold
      by_cases he : v = w
      · exact ⟨w, (hholds m).mpr (Or.inl (he ▸ hv))⟩
      · exact ⟨v, by rwa [hother v he]⟩
    · exact ⟨w, (hholds m).mpr (Or.inr rfl)⟩
  · intro a b ha hb hab
    rw [hkeys, hkeys] at hab
    rcases (hlinked a).mp ha with hao | rfl <;> rcases (hlinked b).mp hb with hbo | rfl
    · exact h.keys a b hao hbo hab
    · exact absurd (hab.trans hkey) (hfree a hao)
    · exact absurd (hab.symm.trans hkey) (hfree b hbo)
    · rfl
  · intro i hi
    -- while a move is under way the node goes to the other table, so the active one is untouched
    have hi' : (i : ℤ) < d.rehashidx := hi
    have hr : d.isRehashing = true := by
      have : d.rehashidx ≠ -1 := by omega
      simpa [Dict.isRehashing] using this
    have hne : d.active ≠ w := by
      rw [hw, hr]
      exact (rehash_ne_active d).symm
    have hact : d'.activeTab = d.activeTab := hother d.active hne
    rw [hact]
    exact hm.2 i hi'

theorem dictTableInit_setNode (d : Dict K N) (n : N) (v : DictNode K) (w : Bool) (size : ℕ)
    (mapOk bucketOk : Bool) :
    (dictTableInit (d.setNode n v) w size mapOk bucketOk).1 =
      (dictTableInit d w size mapOk bucketOk).1.setNode n v := by
  by_cases hs : size = 0 <;> by_cases hw : w = !d.active <;> by_cases hr : d.rehashidx = -1 <;>
    cases mapOk <;> cases bucketOk <;>
    simp [dictTableInit, Dict.setNode, Dict.setTable, Dict.rehash, Dict.isRehashing, hs, hw, hr]

omit [DecidableEq N] in
theorem dictTableInit_node (d : Dict K N) (w : Bool) (size : ℕ) (mapOk bucketOk : Bool) :
    (dictTableInit d w size mapOk bucketOk).1.node = d.node := by
  unfold dictTableInit
  cases mapOk <;> cases bucketOk <;> simp <;> split_ifs <;> rfl

/-- A resize attempt does not look at the node memory. -/
theorem dictResizeIfNeeded_setNode (d : Dict K N) (n : N) (v : DictNode K) (isexpand mapOk bucketOk : Bool) :
    (dictResizeIfNeeded (d.setNode n v) isexpand mapOk bucketOk).1 =
      (dictResizeIfNeeded d isexpand mapOk bucketOk).1.setNode n v := by
  have hreh : (d.setNode n v).rehash = d.rehash := rfl
  dsimp only [dictResizeIfNeeded, dictStartResize]
  simp only [hreh, apply_ite Prod.fst, apply_ite fun e : Dict K N => e.setNode n v, dictTableInit_setNode]
  rfl

omit [DecidableEq N] in
theorem dictResizeIfNeeded_node (d : Dict K N) (isexpand mapOk bucketOk : Bool) :
    (dictResizeIfNeeded d isexpand mapOk bucketOk).1.node = d.node := by
  dsimp only [dictResizeIfNeeded, dictStartResize]
  simp only [apply_ite Prod.fst, apply_ite Dict.node, dictTableInit_node, ite_self]

/-- The removals' common tail without the resize attempt at its end. -/
def unlinkNode (d : Dict K N) (w : Bool) (idx link : ℕ) (n : N) : Dict K N :=
  let t := (d.tables w).setBucket idx (((d.tables w).bucket idx).eraseIdx link)
  (d.setTable w (t.eraseNodeAfter idx)).setNode n (dictNodeInit (d.node n))

theorem dictUnlink_eq (d : Dict K N) (w : Bool) (idx link : ℕ) (n : N) (mapOk bucketOk : Bool) :
    dictUnlink d w idx link n mapOk bucketOk =
      (dictResizeIfNeeded (unlinkNode d w idx link n) false mapOk bucketOk).1 := by
  unfold dictUnlink unlinkNode
  simp only [dictResizeIfNeeded_setNode, dictResizeIfNeeded_node]
  rfl

theorem unlinkNode_keeps (h : DictInv ops d) (hm : d.Moved) {n : N} {w : Bool} {idx link : ℕ}
    (hn : ((d.tables w).bucket idx)[link]? = some n) :
    DictInv ops (unlinkNode d w idx link n) ∧ (unlinkNode d w idx link n).Moved ∧
      (∀ m, ((unlinkNode d w idx link n).node m).linked = true ↔ (d.node m).linked = true ∧ m ≠ n) ∧
      (∀ m, ((unlinkNode d w idx link n).node m).key = (d.node m).key) ∧
      (unlinkNode d w idx link n).total + 1 = d.total := by
  set d' := unlinkNode d w idx link n with hd'
  obtain ⟨hlt, hget⟩ := List.getElem?_eq_some_iff.mp hn
  have hmem : (d.tables w).Holds n := ⟨idx, hget ▸ List.getElem_mem hlt⟩
  have hperm : (n :: ((d.tables w).bucket idx).eraseIdx link).Perm ((d.tables w).bucket idx) :=
    hget ▸ List.getElem_cons_eraseIdx_perm hlt
  have hsum := total_split d w
  have hroom := h.room
  have hnode : d'.node = Function.update d.node n (dictNodeInit (d.node n)) := rfl
  have htab : d'.tables w =
      ((d.tables w).setBucket idx (((d.tables w).bucket idx).eraseIdx link)).eraseNodeAfter idx :=
    Function.update_self ..
  have hother : ∀ v, v ≠ w → d'.tables v = d.tables v := fun v hv => Function.update_of_ne hv _ _
  obtain ⟨hwf, hnr, hholds⟩ := (h.table w).erase hperm (by omega)
  rw [← htab] at hwf hnr hholds
  have hout : ∀ v, ¬ (d'.tables v).Holds n := by
    intro v hv
    by_cases he : v = w
    · exact ((hholds n).mp (he ▸ hv)).2 rfl
    · rw [hother v he] at hv
      exact he (h.table_unique hv hmem)
  have hlinked : ∀ m, (d'.node m).linked = true ↔ (d.node m).linked = true ∧ m ≠ n := by
    intro m
    rw [hnode]
    by_cases he : m = n
    · subst he
      simp [dictNodeInit]
    · simp [he]
  have hkeys : ∀ m, (d'.node m).key = (d.node m).key := by
    intro m
    rw [hnode]
    by_cases he : m = n
    · subst he
      simp [dictNodeInit]
    · simp [he]
  have htotal : d'.total + 1 = d.total := by
    have hw' : (!w) ≠ w := by cases w <;> decide
    rw [total_split d' w, hother _ hw', hsum]
    omega
  refine ⟨⟨h.initSize, ?_, ?_, ?_, ?_, ?_, by omega⟩, ⟨hm.1, ?_⟩, hlinked, hkeys, htotal⟩
  · intro v
    rw [hnode]
    by_cases hv : v = w
    · exact hv ▸ hwf.setNode (hout w) _
    · rw [hother v hv]
      exact (h.table v).setNode (hother v hv ▸ hout v) _
  · intro v hv
    by_cases he : v = w
    · rw [he, htab]
      exact h.size w (he ▸ hv)
    · rw [hother v he]
      exact h.size v hv
  · intro v hv
    by_cases he : v = w
    · exact absurd (h.live_of_holds hmem) (he ▸ hv)
    · rw [hother v he]
      exact h.idle v hv
  · intro m hml
    obtain ⟨hold, hne⟩ := (hlinked m).mp hml
    obtain ⟨v, hv⟩ := h.linked m hold
    by_cases he : v = w
    · exact ⟨w, (hholds m).mpr ⟨he ▸ hv, hne⟩⟩
    · exact ⟨v, by rwa [hother v he]⟩
  · intro a b ha hb hab
    rw [hkeys, hkeys] at hab
    exact h.keys a b ((hlinked a).mp ha).1 ((hlinked b).mp hb).1 hab
  · intro i hi
    have hold := hm.2 i hi
    by_cases he : d.active = w
    · subst he
      have hne : i ≠ idx := by
        rintro rfl
        have hnil : (d.tables d.active).bucket i = [] := hold
        rw [hnil] at hlt
        exact absurd hlt (Nat.not_lt_zero _)
      have hact : d'.activeTab = d'.tables d.active := rfl
      rw [hact, htab]
      exact (Function.update_of_ne hne _ _).trans hold
    · have hact : d'.activeTab = d.activeTab := hother d.active he
      rw [hact]
      exact hold

end Link

/-! ## The finite map -/

section Refine
variable [DecidableEq K] [DecidableEq N]

/-- The bindings, and the key each entry embeds. -/
structure DictAbs (K N : Type) [DecidableEq K] where
  map : Finmap fun _ : K => N
  key : N → K

/-- The entry is in the map, under its own key. -/
def DictAbs.Bound (a : DictAbs K N) (n : N) : Prop := a.map.lookup (a.key n) = some n

instance (a : DictAbs K N) (n : N) : Decidable (a.Bound n) := inferInstanceAs (Decidable (_ = _))

/-- What the dict is for. An insertion of a new key is legal while the map stays below `2 ^ 32` keys. -/
def dictSpec : Spec (DictAbs K N) (DictCmd K N) (DictOut N) where
  legal a
    | .insert k n _ _ => a.key n = k ∧ (k ∈ a.map ∨ a.map.keys.card + 1 < 2 ^ 32)
    | .setKey n _ => ¬ a.Bound n
    | _ => True
  next a
    | .insert k n _ _ => if k ∈ a.map then a else { a with map := a.map.insert k n }
    | .lookup _ => a
    | .lookupRemove k _ _ => { a with map := a.map.erase k }
    | .directRemove n _ _ => if a.Bound n then { a with map := a.map.erase (a.key n) } else a
    | .checkRehashing => a
    | .setKey n k => { a with key := Function.update a.key n k }
  out a
    | .insert k _ _ _, o => o = .node (a.map.lookup k)
    | .lookup k, o => o = .node (a.map.lookup k)
    | .lookupRemove k _ _, o => o = .node (a.map.lookup k)
    | .directRemove n _ _, o => o = .rc (if a.Bound n then 0 else eINVAL)
    | .checkRehashing, o => ∃ b, o = .flag b
    | .setKey _ _, o => o = .rc 0

/-- The dict stands for the map: linked nodes are the bound ones, and the counts agree. -/
structure DictRefines (ops : DictOps K) (d : Dict K N) (a : DictAbs K N) : Prop where
  inv : DictInv ops d
  moved : d.Moved
  key : ∀ n, (d.node n).key = a.key n
  linked : ∀ n, (d.node n).linked = true ↔ a.Bound n
  own : ∀ k n, a.map.lookup k = some n → a.key n = k
  count : d.total = a.map.keys.card

variable {ops : DictOps K} {d d' : Dict K N} {a : DictAbs K N}

section
omit [DecidableEq N]

theorem DictRefines.lookup_iff (h : DictRefines ops d a) (k : K) (n : N) :
    a.map.lookup k = some n ↔ (d.node n).linked = true ∧ (d.node n).key = k := by
  constructor
  · intro hk
    have hown := h.own k n hk
    refine ⟨(h.linked n).mpr ?_, (h.key n).trans hown⟩
    unfold DictAbs.Bound
    rw [hown]
    exact hk
  · rintro ⟨hl, rfl⟩
    rw [h.key]
    exact (h.linked n).mp hl

theorem DictRefines.startLookup_eq (hops : ops.Lawful) (h : DictRefines ops d a) (k : K) :
    (startLookup ops d k).node = a.map.lookup k := by
  refine Option.ext fun n => ?_
  rw [startLookup_eq_some_iff hops h.inv, h.lookup_iff]

theorem DictRefines.nodes_eq (h : DictRefines ops d a) : d.nodes = a.map.keys.card :=
  (h.inv.total_nodes h.moved.1).trans h.count

theorem DictRefines.sameContent (h : DictRefines ops d a) (hi : DictInv ops d') (hm : d'.Moved)
    (hs : SameContent d d') : DictRefines ops d' a where
  inv := hi
  moved := hm
  key := fun n => (hs.key n).trans (h.key n)
  linked := fun n => by rw [hs.linked]; exact h.linked n
  own := h.own
  count := hs.total.trans h.count

end

theorem DictRefines.checkRehashing (h : DictRefines ops d a) (debug : Bool) :
    DictRefines ops (dictCheckRehashing debug d).1 a := by
  obtain ⟨hi, hm, hs⟩ := dictCheckRehashing_keeps debug h.inv h.moved
  exact h.sameContent hi hm hs

omit [DecidableEq N] in
theorem DictRefines.resize (h : DictRefines ops d a) (isexpand mapOk bucketOk : Bool) :
    DictRefines ops (dictResizeIfNeeded d isexpand mapOk bucketOk).1 a := by
  obtain ⟨hi, hm, hs⟩ := dictResizeIfNeeded_keeps h.inv h.moved isexpand mapOk bucketOk
  exact h.sameContent hi hm hs

omit [DecidableEq N] in
theorem dictLookup_eq (hops : ops.Lawful) (h : DictRefines ops d a) (k : K) :
    dictLookup ops d k = .node (a.map.lookup k) := by
  unfold dictLookup
  split
  · rename_i hz
    rw [h.nodes_eq, Finset.card_eq_zero] at hz
    have hnone : a.map.lookup k = none := by
      rw [Finmap.lookup_eq_none, ← Finmap.mem_keys, hz]
      exact Finset.notMem_empty k
    rw [hnone]
  · rw [h.startLookup_eq hops]

omit [DecidableEq N] in
theorem mem_map_iff_lookup (m : Finmap fun _ : K => N) (k : K) : k ∈ m ↔ m.lookup k ≠ none := by
  rw [Ne, Finmap.lookup_eq_none, not_not]

/-! ## One call -/

theorem dictInsert_refines (hops : ops.Lawful) (h : DictRefines ops d a) (debug : Bool) {k : K} {n : N}
    (mapOk bucketOk : Bool) (hkey : a.key n = k) (hroom : k ∈ a.map ∨ a.map.keys.card + 1 < 2 ^ 32) :
    (dictInsert ops debug d k n mapOk bucketOk).2 = .node (a.map.lookup k) ∧
      DictRefines ops (dictInsert ops debug d k n mapOk bucketOk).1
        (if k ∈ a.map then a else { a with map := a.map.insert k n }) := by
  have h2 := (h.checkRehashing debug).resize true mapOk bucketOk
  unfold dictInsert
  simp only
  generalize (dictResizeIfNeeded (dictCheckRehashing debug d).1 true mapOk bucketOk).1 = d2 at h2 ⊢
  have hfind := h2.startLookup_eq hops k
  split
  · rename_i old hold
    rw [hold] at hfind
    have hmem : k ∈ a.map := (mem_map_iff_lookup _ _).mpr (by rw [← hfind]; exact Option.some_ne_none old)
    rw [if_pos hmem]
    exact ⟨by rw [← hfind], h2⟩
  · rename_i hnone
    rw [hnone] at hfind
    have hmem : k ∉ a.map := fun hm => (mem_map_iff_lookup _ _).mp hm hfind.symm
    rw [if_neg hmem]
    have hunlinked : (d2.node n).linked = false := by
      cases hl : (d2.node n).linked with
      | false => rfl
      | true =>
        have hb : a.map.lookup (a.key n) = some n := (h2.linked n).mp hl
        rw [hkey, ← hfind] at hb
        exact absurd hb (Option.some_ne_none n).symm
    have hfree : ∀ m, (d2.node m).linked = true → (d2.node m).key ≠ k := by
      intro m hm he
      have hb := (h2.lookup_iff k m).mpr ⟨hm, he⟩
      rw [← hfind] at hb
      exact absurd hb (Option.some_ne_none m).symm
    obtain ⟨hidx, -, hlink⟩ := startLookup_place ops d2 k
    obtain ⟨hi, hm, hl, hk, ht⟩ := linkNode_keeps h2.inv h2.moved hunlinked ((h2.key n).trans hkey) hfree
      (startLookup_miss hnone) hidx hlink (by rw [h2.count]; exact hroom.resolve_left hmem)
    refine ⟨by rw [← hfind], hi, hm, fun m => (hk m).trans (h2.key m), ?_, ?_, ?_⟩
    · intro m
      refine (hl m).trans ?_
      rw [h2.linked m]
      unfold DictAbs.Bound
      simp only [lookup_insert_eq]
      split
      · rename_i he
        rw [he, ← hfind]
        constructor
        · rintro (hb | rfl)
          · exact absurd hb (Option.some_ne_none m).symm
          · rfl
        · intro hb
          exact Or.inr (Option.some.inj hb).symm
      · rename_i he
        constructor
        · rintro (hb | rfl)
          · exact hb
          · exact absurd hkey he
        · exact Or.inl
    · intro j m hj
      simp only [lookup_insert_eq] at hj
      split at hj
      · rename_i he
        rw [← Option.some.inj hj, he]
        exact hkey
      · exact h2.own j m hj
    · rw [card_insert_new n hfind.symm, ← h2.count]
      exact ht

/-- Unlinking a bound node erases its binding. -/
theorem dictUnlink_refines (h : DictRefines ops d a) {n : N} {w : Bool} {idx link : ℕ}
    (hn : ((d.tables w).bucket idx)[link]? = some n) (mapOk bucketOk : Bool) :
    DictRefines ops (dictUnlink d w idx link n mapOk bucketOk) { a with map := a.map.erase (a.key n) } := by
  have hl : (d.node n).linked = true := h.inv.linked_of_holds ⟨idx, List.mem_of_getElem? hn⟩
  have hb : a.map.lookup (a.key n) = some n := (h.linked n).mp hl
  obtain ⟨hi, hm, hlk, hk, ht⟩ := unlinkNode_keeps h.inv h.moved hn
  have hcount : (unlinkNode d w idx link n).total = (a.map.erase (a.key n)).keys.card := by
    have hc := card_erase_bound hb
    have ht0 := h.count
    omega
  rw [dictUnlink_eq]
  suffices hbase : DictRefines ops (unlinkNode d w idx link n) { a with map := a.map.erase (a.key n) } from
    hbase.resize false mapOk bucketOk
  refine ⟨hi, hm, fun m => (hk m).trans (h.key m), ?_, ?_, hcount⟩
  · intro m
    rw [hlk m, h.linked m]
    unfold DictAbs.Bound
    simp only [lookup_erase_eq]
    split
    · rename_i he
      constructor
      · rintro ⟨hbm, hne⟩
        rw [he, hb] at hbm
        exact absurd (Option.some.inj hbm).symm hne
      · exact fun hbm => absurd hbm.symm (Option.some_ne_none m)
    · rename_i he
      exact ⟨fun hbm => hbm.1, fun hbm => ⟨hbm, fun hmn => he (hmn ▸ rfl)⟩⟩
  · intro j m hj
    simp only [lookup_erase_eq] at hj
    split at hj
    · exact absurd hj.symm (Option.some_ne_none m)
    · exact h.own j m hj

omit [DecidableEq N] in
theorem erase_eq_self {m : Finmap fun _ : K => N} {k : K} (h : m.lookup k = none) : m.erase k = m := by
  refine Finmap.ext_lookup fun j => ?_
  rw [lookup_erase_eq]
  split
  · rename_i he
    rw [he, h]
  · rfl

theorem dictLookupRemove_refines (hops : ops.Lawful) (h : DictRefines ops d a) (debug : Bool) (k : K)
    (mapOk bucketOk : Bool) :
    (dictLookupRemove ops debug d k mapOk bucketOk).2 = .node (a.map.lookup k) ∧
      DictRefines ops (dictLookupRemove ops debug d k mapOk bucketOk).1 { a with map := a.map.erase k } := by
  have h1 := h.checkRehashing debug
  unfold dictLookupRemove
  simp only
  generalize (dictCheckRehashing debug d).1 = d1 at h1 ⊢
  have hfind := h1.startLookup_eq hops k
  split
  · rename_i hz
    rw [h1.nodes_eq, Finset.card_eq_zero] at hz
    have hnone : a.map.lookup k = none := by
      rw [Finmap.lookup_eq_none, ← Finmap.mem_keys, hz]
      exact Finset.notMem_empty k
    rw [hnone, erase_eq_self hnone]
    exact ⟨rfl, h1⟩
  · split
    · rename_i hnone
      rw [hnone] at hfind
      rw [erase_eq_self hfind.symm, ← hfind]
      exact ⟨rfl, h1⟩
    · rename_i n hn
      rw [hn] at hfind
      obtain ⟨-, hplace, -⟩ := startLookup_place ops d1 k
      have hown := h1.own k n hfind.symm
      have hun := dictUnlink_refines h1 (hplace.symm.trans hn) mapOk bucketOk
      rw [hown] at hun
      exact ⟨by rw [← hfind], hun⟩

/-- A linked node is found where its own fields say, and the two `BUG_ON` tests pass. -/
theorem dictDirectRemove_refines (hops : ops.Lawful) (h : DictRefines ops d a) (n : N)
    (mapOk bucketOk : Bool) :
    (dictDirectRemove ops d n mapOk bucketOk).2 = .rc (if a.Bound n then 0 else eINVAL) ∧
      DictRefines ops (dictDirectRemove ops d n mapOk bucketOk).1
        (if a.Bound n then { a with map := a.map.erase (a.key n) } else a) := by
  unfold dictDirectRemove
  simp only
  by_cases hb : a.Bound n
  · have hl : (d.node n).linked = true := (h.linked n).mpr hb
    obtain ⟨w, i, hi⟩ := h.inv.linked n hl
    have hat := (h.inv.table w).place i n hi
    have hhome : (d.tables w).getBucket (d.node n).hvalue = i := hat.home.symm
    have hfind : ((d.tables w).bucket i)[((d.tables w).bucket i).findIdx fun m =>
        ops.compareNode (d.node m).key (d.node n).key == 0]? = some n := by
      rw [← List.find?_eq_getElem?_findIdx]
      cases hf : ((d.tables w).bucket i).find? fun m =>
        ops.compareNode (d.node m).key (d.node n).key == 0 with
      | none =>
        have hno := List.find?_eq_none.mp hf n hi
        rw [(hops.node _ _).mpr rfl] at hno
        exact absurd rfl hno
      | some m =>
        have hmk : (d.node m).key = (d.node n).key := (hops.node _ _).mp (by simpa using List.find?_some hf)
        have hml := h.inv.linked_of_holds ⟨i, List.mem_of_find?_eq_some hf⟩
        rw [h.inv.keys m n hml hl hmk]
    have hun := dictUnlink_refines h hfind mapOk bucketOk
    simp only [hl, hat.whichb, hhome, hat.bindex, hfind, hb, Bool.not_true, Bool.false_eq_true,
      if_false, ne_eq,
      not_true_eq_false, if_true]
    exact ⟨trivial, hun⟩
  · have hl : (d.node n).linked = false := by
      cases hl : (d.node n).linked with
      | false => rfl
      | true => exact absurd ((h.linked n).mp hl) hb
    simp only [hl, Bool.not_false, if_true, hb, if_false]
    exact ⟨trivial, h⟩

theorem setKey_refines (h : DictRefines ops d a) {n : N} (hn : ¬ a.Bound n) (k : K) :
    DictRefines ops (d.setNode n { d.node n with key := k }) { a with key := Function.update a.key n k } := by
  have hl : (d.node n).linked = false := by
    cases hl : (d.node n).linked with
    | false => rfl
    | true => exact absurd ((h.linked n).mp hl) hn
  have hout : ∀ w, ¬ (d.tables w).Holds n := fun w hw => by
    rw [h.inv.linked_of_holds hw] at hl
    exact Bool.noConfusion hl
  have hlinked : ∀ m, ((d.setNode n { d.node n with key := k }).node m).linked = (d.node m).linked := by
    intro m
    by_cases he : m = n
    · subst he
      simp [Dict.setNode]
    · simp [Dict.setNode, he]
  have hsame : ∀ m, (d.node m).linked = true →
      ((d.setNode n { d.node n with key := k }).node m).key = (d.node m).key := by
    intro m hm
    have he : m ≠ n := by
      rintro rfl
      rw [hl] at hm
      exact Bool.noConfusion hm
    simp [Dict.setNode, he]
  have hnot : ∀ j, a.map.lookup j ≠ some n := by
    intro j hj
    have hown := h.own j n hj
    exact hn (by unfold DictAbs.Bound; rwa [hown])
  refine ⟨⟨h.inv.initSize, fun w => (h.inv.table w).setNode (hout w) _, h.inv.size, h.inv.idle, ?_, ?_,
    h.inv.room⟩, h.moved, ?_, ?_, ?_, h.count⟩
  · intro m hm
    rw [hlinked] at hm
    exact h.inv.linked m hm
  · intro x y hx hy hxy
    rw [hlinked] at hx hy
    rw [hsame x hx, hsame y hy] at hxy
    exact h.inv.keys x y hx hy hxy
  · intro m
    by_cases he : m = n
    · subst he
      simp [Dict.setNode]
    · simpa [Dict.setNode, he] using h.key m
  · intro m
    rw [hlinked]
    by_cases he : m = n
    · subst he
      rw [hl]
      exact ⟨fun hf => Bool.noConfusion hf, fun hb => absurd hb (hnot _)⟩
    · rw [h.linked m]
      have hkm : Function.update a.key n k m = a.key m := Function.update_of_ne he _ _
      change a.map.lookup (a.key m) = some m ↔ a.map.lookup (Function.update a.key n k m) = some m
      rw [hkm]
  · intro j m hj
    have he : m ≠ n := fun hmn => hnot j (hmn ▸ hj)
    simp only [Function.update_of_ne he]
    exact h.own j m hj

theorem dictExec_refines (hops : ops.Lawful) (debug : Bool) (d : Dict K N) (a : DictAbs K N) (c : DictCmd K N)
    (h : DictRefines ops d a) (hc : dictSpec.legal a c) :
    dictSpec.out a c (dictExec ops debug d c).2 ∧
      DictRefines ops (dictExec ops debug d c).1 (dictSpec.next a c) := by
  cases c with
  | insert k n mapOk bucketOk => exact dictInsert_refines hops h debug mapOk bucketOk hc.1 hc.2
  | lookup k => exact ⟨dictLookup_eq hops h k, h⟩
  | lookupRemove k mapOk bucketOk => exact dictLookupRemove_refines hops h debug k mapOk bucketOk
  | directRemove n mapOk bucketOk => exact dictDirectRemove_refines hops h n mapOk bucketOk
  | checkRehashing => exact ⟨⟨_, rfl⟩, h.checkRehashing debug⟩
  | setKey n k => exact ⟨rfl, setKey_refines h hc k⟩

/-! ## From `dict_init` on -/

theorem roundupPowOfTwo_tableSize {n : ℕ} (h : n ≤ 2 ^ 31) : TableSize (roundupPowOfTwo n % 2 ^ 32) := by
  have hsize : Nat.size (n - 1) ≤ 31 := Nat.size_le.mpr (by omega)
  refine ⟨Nat.size (n - 1), hsize, ?_⟩
  have hlt : 2 ^ Nat.size (n - 1) < 2 ^ 32 := Nat.pow_lt_pow_right (by decide) (by omega)
  unfold roundupPowOfTwo flsl
  rw [Nat.shiftLeft_eq, Nat.one_mul, Nat.mod_eq_of_lt hlt]

omit [DecidableEq N] in
theorem dictInit_refines {attr : DictAttr} {mem : N → DictNode K} {mapOk bucketOk : Bool}
    (hattr : attr.initSize ≤ 2 ^ 31) (hmem : ∀ n, (mem n).linked = false)
    (h0 : dictInit attr mem mapOk bucketOk = some d) :
    DictRefines ops d { map := ∅, key := fun n => (mem n).key } := by
  have hsize : TableSize (roundupPowOfTwo (orDefault attr.initSize dictInitSize) % 2 ^ 32) := by
    refine roundupPowOfTwo_tableSize ?_
    unfold orDefault
    split
    · decide
    · exact hattr
  have hfields : d.initSize = roundupPowOfTwo (orDefault attr.initSize dictInitSize) % 2 ^ 32 ∧
      d.rehashidx = -1 ∧ d.active = false ∧ d.node = mem ∧
      d.tables false = DictTable.fresh (roundupPowOfTwo (orDefault attr.initSize dictInitSize) % 2 ^ 32) ∧
      d.tables true = DictTable.fresh 0 := by
    have hpos := hsize.pos.ne'
    simp only [dictInit] at h0
    generalize roundupPowOfTwo (orDefault attr.initSize dictInitSize) % 2 ^ 32 = sz at hpos h0 ⊢
    split at h0
    · exact absurd h0.symm (Option.some_ne_none d)
    · split at h0
      · exact absurd h0.symm (Option.some_ne_none d)
      · rename_i hok
        have hboth : mapOk = true ∧ bucketOk = true := by
          cases mapOk <;> cases bucketOk <;> simp [dictTableInit, hpos, eNOMEM] at hok ⊢
        obtain ⟨rfl, rfl⟩ := hboth
        simp only [dictTableInit, Dict.setTable, Dict.rehash, Dict.isRehashing, if_neg hpos] at h0
        rw [← Option.some.inj h0]
        exact ⟨rfl, rfl, rfl, rfl, rfl, rfl⟩
  obtain ⟨hinit, hidx, hact, hnode, hfalse, htrue⟩ := hfields
  have hstop : d.isRehashing = false := (isRehashing_eq_false_iff d).mpr hidx
  have hunlinked : ∀ n, (d.node n).linked = false := fun n => hnode ▸ hmem n
  have htable : ∀ w, ∃ size, d.tables w = DictTable.fresh size := by
    intro w
    cases w with
    | false => exact ⟨_, hfalse⟩
    | true => exact ⟨_, htrue⟩
  have htotal : d.total = 0 := by
    unfold Dict.total
    rw [hfalse, htrue]
    rfl
  refine ⟨⟨hinit ▸ hsize, ?_, ?_, ?_, ?_, ?_, by omega⟩, ⟨by omega, fun i hi => by omega⟩, ?_, ?_, ?_, htotal⟩
  · intro w
    obtain ⟨size, hw⟩ := htable w
    rw [hw]
    exact tableWf_fresh ops d.node w size
  · rintro w (hw | hw)
    · rw [hw, hact, hfalse]
      exact hsize
    · rw [hstop] at hw
      exact Bool.noConfusion hw
  · intro w _
    obtain ⟨size, hw⟩ := htable w
    rw [hw]
    rfl
  · intro n hn
    rw [hunlinked] at hn
    exact Bool.noConfusion hn
  · intro m n hm
    rw [hunlinked] at hm
    exact Bool.noConfusion hm
  · exact fun n => by rw [hnode]
  · intro n
    rw [hunlinked]
    unfold DictAbs.Bound
    rw [Finmap.lookup_empty]
    exact ⟨fun hf => Bool.noConfusion hf, fun hf => absurd hf.symm (Option.some_ne_none n)⟩
  · intro k n hk
    rw [Finmap.lookup_empty] at hk
    exact absurd hk.symm (Option.some_ne_none n)

/-- After `dict_init` and any legal run of calls the answers were those of the map, `dict_nodes` is its
size, a lookup of any key agrees with it, and exactly its nodes are linked. -/
theorem dict_refines_finite_map (hops : ops.Lawful) (debug : Bool) (attr : DictAttr)
    (hattr : attr.initSize ≤ 2 ^ 31) (mem : N → DictNode K) (hmem : ∀ n, (mem n).linked = false)
    (mapOk bucketOk : Bool) (h0 : dictInit attr mem mapOk bucketOk = some d) (cs : List (DictCmd K N))
    (hcs : dictSpec.LegalRun { map := ∅, key := fun n => (mem n).key } cs) :
    let r := runCmds (dictExec ops debug) d cs
    let m := dictSpec.after { map := ∅, key := fun n => (mem n).key } cs
    dictSpec.Conforms { map := ∅, key := fun n => (mem n).key } cs r.2 ∧ r.1.nodes = m.map.keys.card ∧
      (∀ k, dictLookup ops r.1 k = .node (m.map.lookup k)) ∧
      ∀ n, (r.1.node n).linked = true ↔ m.map.lookup (m.key n) = some n := by
  intro r m
  have hinit : DictRefines ops d { map := ∅, key := fun n => (mem n).key } := dictInit_refines hattr hmem h0
  obtain ⟨hconf, hfin⟩ :=
    Spec.conforms (fun s a c hR hl => dictExec_refines hops debug s a c hR hl) cs d _ hinit hcs
  exact ⟨hconf, hfin.nodes_eq, dictLookup_eq hops hfin, hfin.linked⟩

end Refine

/-! ## A run with moves, and the run that wraps the counters -/

/-- Entries that embed their own number as key, all hashed to one bucket. -/
def natOps : DictOps ℕ where
  calcHash := fun _ => 0
  compareKey := fun e k _ => (e : ℤ) - k
  compareNode := fun a b => (a : ℤ) - b

theorem natOps_lawful : natOps.Lawful where
  key := fun e k => by simp only [natOps]; omega
  node := fun a b => by simp only [natOps]; omega

def natMem (n : ℕ) : DictNode ℕ := { key := n, linked := false, hvalue := 0, whichb := true, bindex := 0 }

/-- One bucket, and a ratio: `u16Max` switches expansion off. -/
def natDict (expandRatio : ℕ) : Dict ℕ ℕ where
  rehashidx := -1
  expandRatio := expandRatio
  reduceRatio := 1
  initSize := 1
  active := false
  tables := fun w => if w then DictTable.fresh 0 else DictTable.fresh 1
  node := natMem

theorem natDict_init {ratio : ℕ} (h : 1 < ratio) :
    dictInit { expandRatio := ratio, reduceRatio := 1, initSize := 1 } natMem true true =
      some (natDict ratio) := by
  have hr : orDefault ratio dictExpandRatio = ratio := if_neg (by omega)
  have hle : ¬ ratio ≤ 1 := by omega
  have hsize : roundupPowOfTwo (orDefault 1 dictInitSize) % 2 ^ 32 = 1 := by decide
  have h1 : orDefault 1 dictReduceRatio = 1 := by decide
  have htab : Function.update (Function.update (fun _ => DictTable.fresh 0) false (DictTable.fresh 1)) true
      (DictTable.fresh 0 : DictTable ℕ) = fun w => if w then DictTable.fresh 0 else DictTable.fresh 1 := by
    funext w
    cases w <;> rfl
  simp only [dictInit, hr, h1, hsize, if_neg hle, natDict, ← htab]
  rfl

def natInsert (i : ℕ) : DictCmd ℕ ℕ := .insert i i true true

def natAbs : DictAbs ℕ ℕ := { map := ∅, key := fun n => n }

/-- The first `n` entries inserted one by one: the map binds exactly them. -/
theorem after_natInserts (n : ℕ) :
    (dictSpec.after natAbs ((List.range n).map natInsert)).map.keys = Finset.range n ∧
      (dictSpec.after natAbs ((List.range n).map natInsert)).key = fun i => i := by
  induction n with
  | zero => exact ⟨rfl, rfl⟩
  | succ k ih =>
    obtain ⟨hkeys, hkey⟩ := ih
    rw [List.range_succ, List.map_append, Spec.after_append]
    generalize dictSpec.after natAbs ((List.range k).map natInsert) = a at hkeys hkey ⊢
    have hnot : k ∉ a.map := by
      rw [← Finmap.mem_keys, hkeys]
      exact Finset.notMem_range_self
    have hstep : dictSpec.next a (natInsert k) = { a with map := a.map.insert k k } := if_neg hnot
    change (dictSpec.next a (natInsert k)).map.keys = _ ∧ (dictSpec.next a (natInsert k)).key = _
    rw [hstep, keys_insert_eq, hkeys, Finset.range_add_one]
    exact ⟨rfl, hkey⟩

theorem legalRun_natInserts (n : ℕ) (hn : n < 2 ^ 32) :
    dictSpec.LegalRun natAbs ((List.range n).map natInsert) := by
  induction n with
  | zero => trivial
  | succ k ih =>
    obtain ⟨hkeys, hkey⟩ := after_natInserts k
    rw [List.range_succ, List.map_append, Spec.legalRun_append]
    refine ⟨ih (by omega), ⟨?_, Or.inr ?_⟩, trivial⟩
    · rw [hkey]
    · rw [hkeys, Finset.card_range]
      exact hn

/-- Five entries at ratio two: the last insertion starts a move, and the removals run through it. -/
theorem dict_refines_finite_map_five :
    dictSpec.LegalRun natAbs ((List.range 5).map natInsert ++
      [.directRemove 1 true true, .lookupRemove 2 false true]) ∧
      let r := runCmds (dictExec natOps false) (natDict 2)
        ((List.range 5).map natInsert ++ [.directRemove 1 true true, .lookupRemove 2 false true])
      let m := dictSpec.after natAbs
        ((List.range 5).map natInsert ++ [.directRemove 1 true true, .lookupRemove 2 false true])
      r.1.nodes = m.map.keys.card ∧ ∀ k, dictLookup natOps r.1 k = .node (m.map.lookup k) := by
  have hlegal : dictSpec.LegalRun natAbs
      ((List.range 5).map natInsert ++ [.directRemove 1 true true, .lookupRemove 2 false true]) := by
    rw [Spec.legalRun_append]
    exact ⟨legalRun_natInserts 5 (by omega), trivial, trivial, trivial⟩
  obtain ⟨-, hnodes, hlookup, -⟩ := dict_refines_finite_map natOps_lawful false
    { expandRatio := 2, reduceRatio := 1, initSize := 1 } (by decide) natMem (fun _ => rfl) true true
    (natDict_init (by decide)) _ hlegal
  exact ⟨hlegal, hnodes, hlookup⟩

theorem dictInsert_idle {K N : Type} [DecidableEq N] (ops : DictOps K) (debug : Bool) {d : Dict K N} (key : K)
    (n : N) (mapOk bucketOk : Bool) (hr : d.isRehashing = false) (he : d.expandRatio = u16Max) :
    dictInsert ops debug d key n mapOk bucketOk =
      match (startLookup ops d key).node with
      | some old => (d, .node (some old))
      | none => (linkNode ops d n (startLookup ops d key).tab (startLookup ops d key).idx
          (startLookup ops d key).link key, .node none) := by
  have hcheck : (dictCheckRehashing debug d).1 = d := by
    unfold dictCheckRehashing
    rw [if_neg (by simp [hr])]
  have hresize : (dictResizeIfNeeded d true mapOk bucketOk).1 = d := by
    simp [dictResizeIfNeeded, he]
  unfold dictInsert
  simp only [hcheck, hresize]
  rfl

theorem natInserts_idle (n : ℕ) :
    (runCmds (dictExec natOps false) (natDict u16Max) ((List.range n).map natInsert)).1.isRehashing = false ∧
      (runCmds (dictExec natOps false) (natDict u16Max)
        ((List.range n).map natInsert)).1.expandRatio = u16Max := by
  induction n with
  | zero => exact ⟨rfl, rfl⟩
  | succ k ih =>
    rw [List.range_succ, List.map_append, runCmds_append]
    generalize (runCmds (dictExec natOps false) (natDict u16Max) ((List.range k).map natInsert)).1 = d at ih ⊢
    obtain ⟨hr, he⟩ := ih
    have hstep : (runCmds (dictExec natOps false) d (List.map natInsert [k])).1 =
        (dictInsert natOps false d k k true true).1 := rfl
    rw [hstep, dictInsert_idle natOps false k k true true hr he]
    split
    · exact ⟨hr, he⟩
    · exact ⟨hr, he⟩

/-- The insertion that makes the count of a table reach `2 ^ 32`. -/
theorem natInserts_wrap {n : ℕ} (hn : n + 1 = 2 ^ 32) :
    (runCmds (dictExec natOps false) (natDict u16Max) ((List.range (n + 1)).map natInsert)).1.nodes = 0 := by
  have hinit : DictRefines natOps (natDict u16Max) natAbs :=
    dictInit_refines (by decide) (fun _ => rfl) (natDict_init (by decide))
  obtain ⟨-, hR⟩ := Spec.conforms (fun s a c hR hl => dictExec_refines natOps_lawful false s a c hR hl)
    ((List.range n).map natInsert) (natDict u16Max) natAbs hinit (legalRun_natInserts n (by omega))
  obtain ⟨hr, he⟩ := natInserts_idle n
  obtain ⟨hkeys, hkey⟩ := after_natInserts n
  rw [List.range_succ, List.map_append, runCmds_append]
  generalize (runCmds (dictExec natOps false) (natDict u16Max) ((List.range n).map natInsert)).1 =
    d at hR hr he ⊢
  generalize dictSpec.after natAbs ((List.range n).map natInsert) = a at hR hkeys hkey
  have hmiss : (startLookup natOps d n).node = none := by
    rw [hR.startLookup_eq natOps_lawful, Finmap.lookup_eq_none, ← Finmap.mem_keys, hkeys]
    exact Finset.notMem_range_self
  have hstep : (runCmds (dictExec natOps false) d (List.map natInsert [n])).1 =
      linkNode natOps d n (startLookup natOps d n).tab (startLookup natOps d n).idx
        (startLookup natOps d n).link n := by
    change (dictInsert natOps false d n n true true).1 = _
    rw [dictInsert_idle natOps false n n true true hr he, hmiss]
  have htab := startLookup_miss hmiss
  rw [hr] at htab
  have hidle : d.rehashTab.nrNodes = 0 := by
    refine hR.inv.idle d.rehash ?_
    rintro (hact | hact)
    · exact rehash_ne_active d hact
    · simp [hr] at hact
  have hcount : d.activeTab.nrNodes = n := by
    have h1 := total_eq d
    have h2 := hR.count
    rw [hkeys, Finset.card_range] at h2
    omega
  have hidx : ¬ d.rehashidx > -1 := by
    rw [(isRehashing_eq_false_iff d).mp hr]
    decide
  have hnew : (linkNode natOps d n d.active (startLookup natOps d n).idx
      (startLookup natOps d n).link n).activeTab.nrNodes =
      inc32 d.activeTab.nrNodes := by
    simp [linkNode, Dict.activeTab, Dict.setTable, Dict.setNode, DictTable.setBucket,
      DictTable.insertNodeBefore]
  rw [hstep, htab]
  change ((linkNode natOps d n d.active _ _ n).activeTab.nrNodes + if d.rehashidx > -1 then _
      else 0) % 2 ^ 32 = 0
  rw [if_neg hidx, Nat.add_zero, hnew, hcount, inc32, if_pos hn, Nat.zero_mod]

/-- Expansion off, one bucket, `2 ^ 32` entries under as many keys: `dict_nodes` is zero and a lookup of
a bound key answers `NULL`. -/
theorem dict_counter_wraps :
    dictInit { expandRatio := u16Max, reduceRatio := 1, initSize := 1 } natMem true true =
      some (natDict u16Max) ∧
      (dictSpec.after natAbs ((List.range (2 ^ 32)).map natInsert)).map.keys.card = 2 ^ 32 ∧
      0 ∈ (dictSpec.after natAbs ((List.range (2 ^ 32)).map natInsert)).map ∧
      (runCmds (dictExec natOps false) (natDict u16Max) ((List.range (2 ^ 32)).map natInsert)).1.nodes = 0 ∧
      dictLookup natOps (runCmds (dictExec natOps false) (natDict u16Max)
        ((List.range (2 ^ 32)).map natInsert)).1 0 =
        .node none := by
  have hpow : 2 ^ 32 - 1 + 1 = 2 ^ 32 := by omega
  have hzero := natInserts_wrap hpow
  rw [hpow] at hzero
  have hkeys := (after_natInserts (2 ^ 32)).1
  refine ⟨natDict_init (by decide), ?_, ?_, hzero, ?_⟩
  · rw [hkeys, Finset.card_range]
  · rw [← Finmap.mem_keys, hkeys, Finset.mem_range]
    omega
  · unfold dictLookup
    rw [if_pos hzero]

end Skp.Adt
