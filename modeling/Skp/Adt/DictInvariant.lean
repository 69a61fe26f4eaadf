import Skp.Adt.DictTable

/-! # The invariant of the dict and its incremental move

`DictInv` is what holds between any two steps of `dict.c`, in the middle of a bucket move as well as
between calls. A resize attempt and a move change where the nodes are, never which nodes are linked,
their keys or their number (`SameContent`). -/
namespace Skp.Adt
set_option autoImplicit false
open Skp.Foundations

variable {K N : Type}

/-- A size a table may have: a power of two that an index of 31 bits reaches. -/
def TableSize (n : ℕ) : Prop := ∃ a, a ≤ 31 ∧ n = 2 ^ a

theorem TableSize.pos {n : ℕ} (h : TableSize n) : 0 < n := by
  obtain ⟨a, -, rfl⟩ := h
  exact Nat.two_pow_pos a

theorem TableSize.le {n : ℕ} (h : TableSize n) : n ≤ 2 ^ 31 := by
  obtain ⟨a, ha, rfl⟩ := h
  exact Nat.pow_le_pow_right (by decide) ha

theorem TableSize.max {m n : ℕ} (hm : TableSize m) (hn : TableSize n ∨ n = 0) : TableSize (max m n) := by
  rcases hn with hn | rfl
  · rcases le_total m n with h | h
    · rwa [max_eq_right h]
    · rwa [max_eq_left h]
  · rwa [Nat.max_zero]

theorem TableSize.double {n : ℕ} (h : TableSize n) :
    TableSize ((n <<< 1) % 2 ^ 32) ∨ (n <<< 1) % 2 ^ 32 = 0 := by
  obtain ⟨a, ha, rfl⟩ := h
  rw [Nat.shiftLeft_eq, ← pow_add]
  rcases Nat.lt_or_ge a 31 with hlt | hge
  · refine Or.inl ⟨a + 1, by omega, Nat.mod_eq_of_lt ?_⟩
    exact Nat.pow_lt_pow_right (by decide) (by omega)
  · have : a = 31 := by omega
    subst this
    exact Or.inr (by decide)

theorem TableSize.half {n : ℕ} (h : TableSize n) : TableSize (n >>> 1) ∨ n >>> 1 = 0 := by
  obtain ⟨a, ha, rfl⟩ := h
  rw [Nat.shiftRight_eq_div_pow]
  cases a with
  | zero => exact Or.inr (by decide)
  | succ b => exact Or.inl ⟨b, by omega, by rw [pow_succ]; simp⟩

theorem TableSize.bucket_lt {n : ℕ} (h : TableSize n) (hv : UInt32) : hv.toNat &&& (n - 1) < n := by
  obtain ⟨a, -, rfl⟩ := h
  rw [Nat.and_two_pow_sub_one_eq_mod]
  exact Nat.mod_lt _ (Nat.two_pow_pos a)

/-- `tables[w]` is the active table, or the other one while a move is under way. -/
def Dict.Live (d : Dict K N) (w : Bool) : Prop := w = d.active ∨ d.isRehashing = true

/-- The nodes of both tables. -/
def Dict.total (d : Dict K N) : ℕ := (d.tables false).nrNodes + (d.tables true).nrNodes

structure DictInv (ops : DictOps K) (d : Dict K N) : Prop where
  initSize : TableSize d.initSize
  table : ∀ w, TableWf ops d.node w (d.tables w)
  size : ∀ w, d.Live w → TableSize (d.tables w).size
  idle : ∀ w, ¬ d.Live w → (d.tables w).nrNodes = 0
  linked : ∀ n, (d.node n).linked = true → ∃ w, (d.tables w).Holds n
  keys : ∀ m n, (d.node m).linked = true → (d.node n).linked = true →
    (d.node m).key = (d.node n).key → m = n
  room : d.total < 2 ^ 32

/-- Every bucket of the active table below the move's position has been emptied. -/
def Dict.Moved (d : Dict K N) : Prop :=
  -1 ≤ d.rehashidx ∧ ∀ i : ℕ, (i : ℤ) < d.rehashidx → d.activeTab.bucket i = []

/-- Two states of the dict with the same linked nodes, the same keys and the same count. -/
structure SameContent (d d' : Dict K N) : Prop where
  linked : ∀ n, (d'.node n).linked = (d.node n).linked
  key : ∀ n, (d'.node n).key = (d.node n).key
  total : d'.total = d.total

theorem SameContent.refl (d : Dict K N) : SameContent d d := ⟨fun _ => rfl, fun _ => rfl, rfl⟩

theorem SameContent.trans {a b c : Dict K N} (h : SameContent a b) (h' : SameContent b c) :
    SameContent a c :=
  ⟨fun n => (h'.linked n).trans (h.linked n), fun n => (h'.key n).trans (h.key n), h'.total.trans h.total⟩

theorem total_eq (d : Dict K N) : d.total = d.activeTab.nrNodes + d.rehashTab.nrNodes := by
  unfold Dict.total Dict.activeTab Dict.rehashTab Dict.rehash
  cases d.active with
  | false => rfl
  | true => exact Nat.add_comm _ _

theorem total_setTable (d : Dict K N) (w : Bool) (t : DictTable N) :
    (d.setTable w t).total = t.nrNodes + (d.tables (!w)).nrNodes := by
  cases w with
  | false => simp [Dict.total, Dict.setTable]
  | true => simp [Dict.total, Dict.setTable, Nat.add_comm]

theorem total_split (d : Dict K N) (w : Bool) : d.total = (d.tables w).nrNodes + (d.tables (!w)).nrNodes := by
  cases w with
  | false => rfl
  | true => exact Nat.add_comm _ _

theorem rehash_ne_active (d : Dict K N) : d.rehash ≠ d.active := by
  unfold Dict.rehash
  cases d.active <;> decide

theorem eq_active_or_rehash (d : Dict K N) (w : Bool) : w = d.active ∨ w = d.rehash := by
  unfold Dict.rehash
  cases w <;> cases d.active <;> decide

section Inv
variable {ops : DictOps K} {d : Dict K N}

theorem DictInv.live_of_holds (h : DictInv ops d) {w : Bool} {n : N} (hn : (d.tables w).Holds n) :
    d.Live w := by
  by_contra hl
  exact (h.table w).not_holds_of_empty (h.idle w hl) n hn

theorem DictInv.linked_of_holds (h : DictInv ops d) {w : Bool} {n : N} (hn : (d.tables w).Holds n) :
    (d.node n).linked = true := by
  obtain ⟨i, hi⟩ := hn
  exact ((h.table w).place i n hi).linked

theorem DictInv.table_unique (h : DictInv ops d) {v w : Bool} {n : N} (hv : (d.tables v).Holds n)
    (hw : (d.tables w).Holds n) : v = w := by
  obtain ⟨i, hi⟩ := hv
  obtain ⟨j, hj⟩ := hw
  rw [← ((h.table v).place i n hi).whichb, ((h.table w).place j n hj).whichb]

theorem DictInv.total_nodes (h : DictInv ops d) (hidx : -1 ≤ d.rehashidx) : d.nodes = d.total := by
  have hroom := h.room
  have hsum := total_eq d
  unfold Dict.nodes
  by_cases hr : d.rehashidx > -1
  · rw [if_pos hr, ← hsum, Nat.mod_eq_of_lt hroom]
  · have hz : d.rehashTab.nrNodes = 0 := by
      refine h.idle d.rehash ?_
      rintro (he | he)
      · exact rehash_ne_active d he
      · have : d.rehashidx = -1 := by omega
        simp [Dict.isRehashing, this] at he
    rw [if_neg hr, Nat.add_zero, Nat.mod_eq_of_lt (by omega)]
    omega

/-! ## Starting a resize -/

/-- What an attempt to allocate the other table leaves: an empty table there, and a move at bucket 0
when both allocations succeed. -/
def Dict.withRehashTable (d : Dict K N) (size : ℕ) (ok : Bool) : Dict K N :=
  { d.setTable d.rehash (DictTable.fresh size) with rehashidx := if ok then 0 else d.rehashidx }

theorem dictTableInit_rehash (d : Dict K N) {size : ℕ} (hs : size ≠ 0) (mapOk bucketOk : Bool) :
    (dictTableInit d d.rehash size mapOk bucketOk).1 = d.withRehashTable size (mapOk && bucketOk) := by
  unfold dictTableInit
  cases mapOk <;> cases bucketOk <;>
    simp [hs, Dict.withRehashTable, DictTable.fresh, Dict.setTable, Dict.rehash]

theorem dictStartResize_cases (d : Dict K N) {size : ℕ} (hs : TableSize size) (mapOk bucketOk : Bool) :
    (dictStartResize d size mapOk bucketOk).1 = d ∨
      (dictStartResize d size mapOk bucketOk).1 = d.withRehashTable size (mapOk && bucketOk) := by
  unfold dictStartResize
  split
  · exact Or.inl rfl
  · exact Or.inr (dictTableInit_rehash d hs.pos.ne' mapOk bucketOk)

/-- All that `__dict_resize_if_needed` can do to the dict. -/
theorem dictResizeIfNeeded_cases (h : DictInv ops d) (isexpand mapOk bucketOk : Bool) :
    (dictResizeIfNeeded d isexpand mapOk bucketOk).1 = d ∨
      d.isRehashing = false ∧ ∃ size, TableSize size ∧
        (dictResizeIfNeeded d isexpand mapOk bucketOk).1 = d.withRehashTable size (mapOk && bucketOk) := by
  have hold : TableSize d.activeTab.size := h.size d.active (Or.inl rfl)
  have hup := hold.max hold.double
  have hdown := h.initSize.max hold.half
  unfold dictResizeIfNeeded
  simp only
  split
  · exact Or.inl rfl
  · rename_i hguard
    have hidle : d.isRehashing = false := by
      cases hr : d.isRehashing with
      | false => rfl
      | true => exact absurd (Or.inr hr) hguard
    split
    · exact (dictStartResize_cases d hup mapOk bucketOk).imp_right fun he => ⟨hidle, _, hup, he⟩
    · split
      · exact (dictStartResize_cases d hdown mapOk bucketOk).imp_right fun he => ⟨hidle, _, hdown, he⟩
      · exact Or.inl rfl

theorem isRehashing_eq_false_iff (d : Dict K N) : d.isRehashing = false ↔ d.rehashidx = -1 := by
  simp [Dict.isRehashing]

theorem withRehashTable_keeps (h : DictInv ops d) (hidle : d.isRehashing = false) {size : ℕ}
    (hs : TableSize size) (ok : Bool) :
    DictInv ops (d.withRehashTable size ok) ∧ (d.withRehashTable size ok).Moved ∧
      SameContent d (d.withRehashTable size ok) := by
  have hidx : d.rehashidx = -1 := (isRehashing_eq_false_iff d).mp hidle
  have hempty : d.rehashTab.nrNodes = 0 := by
    refine h.idle d.rehash ?_
    rintro (he | he)
    · exact rehash_ne_active d he
    · simp [hidle] at he
  have htotal : (d.withRehashTable size ok).total = d.total := by
    have h1 := total_setTable d d.rehash (DictTable.fresh size)
    have h2 := total_split d d.rehash
    have h3 : (d.withRehashTable size ok).total = (d.setTable d.rehash (DictTable.fresh size)).total := rfl
    have h4 : (d.tables d.rehash).nrNodes = 0 := hempty
    have h5 : (DictTable.fresh size : DictTable N).nrNodes = 0 := rfl
    omega
  have hact : ∀ w, w ≠ d.rehash → (d.withRehashTable size ok).tables w = d.tables w := fun w hw =>
    Function.update_of_ne hw _ _
  have hreh : (d.withRehashTable size ok).tables d.rehash = DictTable.fresh size := Function.update_self ..
  have hother : ∀ w, w ≠ d.rehash → w = d.active := fun w hw =>
    (eq_active_or_rehash d w).resolve_right hw
  refine ⟨⟨h.initSize, ?_, ?_, ?_, ?_, h.keys, htotal ▸ h.room⟩, ⟨?_, ?_⟩, fun _ => rfl, fun _ => rfl, htotal⟩
  · intro w
    by_cases hw : w = d.rehash
    · subst hw
      rw [hreh]
      exact tableWf_fresh ops d.node d.rehash size
    · rw [hact w hw]
      exact h.table w
  · intro w _
    by_cases hw : w = d.rehash
    · subst hw
      rw [hreh]
      exact hs
    · rw [hact w hw]
      exact h.size w (Or.inl (hother w hw))
  · intro w hw
    by_cases he : w = d.rehash
    · subst he
      rw [hreh]
      rfl
    · exact absurd (Or.inl (hother w he)) hw
  · intro n hn
    obtain ⟨w, hw⟩ := h.linked n hn
    by_cases he : w = d.rehash
    · subst he
      exact absurd hw ((h.table d.rehash).not_holds_of_empty hempty n)
    · exact ⟨w, by rwa [hact w he]⟩
  · cases ok <;> simp [Dict.withRehashTable, hidx]
  · intro i hi
    cases ok <;> simp [Dict.withRehashTable, hidx] at hi <;> omega

theorem dictResizeIfNeeded_keeps (h : DictInv ops d) (hm : d.Moved) (isexpand mapOk bucketOk : Bool) :
    DictInv ops (dictResizeIfNeeded d isexpand mapOk bucketOk).1 ∧
      (dictResizeIfNeeded d isexpand mapOk bucketOk).1.Moved ∧
      SameContent d (dictResizeIfNeeded d isexpand mapOk bucketOk).1 := by
  rcases dictResizeIfNeeded_cases h isexpand mapOk bucketOk with he | ⟨hidle, size, hs, he⟩
  · rw [he]
    exact ⟨h, hm, SameContent.refl d⟩
  · rw [he]
    exact withRehashTable_keeps h hidle hs _

/-! ## Moving a bucket -/

section Move
variable [DecidableEq N]

/-- The bucket of the other table that a node being moved goes to. -/
def Dict.target (d : Dict K N) (n : N) : ℕ := d.rehashTab.getBucket (d.node n).hvalue

theorem bucketRehashOne_active (d : Dict K N) (bit : ℕ) (n : N) (rest : List N) :
    (bucketRehashOne d bit n rest).tables d.active = (d.activeTab.setBucket bit rest).eraseNodeAfter bit := by
  simp [bucketRehashOne, Dict.setTable, Dict.setNode, Dict.rehash, Dict.activeTab]

theorem bucketRehashOne_rehash (d : Dict K N) (bit : ℕ) (n : N) (rest : List N) :
    (bucketRehashOne d bit n rest).tables d.rehash =
      (d.rehashTab.insertNodeBefore (d.target n)).setBucket (d.target n)
        (n :: d.rehashTab.bucket (d.target n)) := by
  simp [bucketRehashOne, Dict.setTable, Dict.setNode, Dict.rehash, Dict.rehashTab, Dict.target,
    DictTable.insertNodeBefore]

theorem bucketRehashOne_node (d : Dict K N) (bit : ℕ) (n : N) (rest : List N) :
    (bucketRehashOne d bit n rest).node = Function.update d.node n
      { d.node n with bindex := d.target n % 2 ^ 31, whichb := d.rehash } := by
  simp [bucketRehashOne, Dict.setTable, Dict.setNode, Dict.rehash, Dict.rehashTab, Dict.target]

theorem bucketRehashOne_sameContent_node (d : Dict K N) (bit : ℕ) (n : N) (rest : List N) (m : N) :
    ((bucketRehashOne d bit n rest).node m).linked = (d.node m).linked ∧
      ((bucketRehashOne d bit n rest).node m).key = (d.node m).key := by
  rw [bucketRehashOne_node]
  by_cases hm : m = n
  · subst hm
    simp
  · simp [hm]

theorem bucketRehashOne_keeps (h : DictInv ops d) (hr : d.isRehashing = true) {bit : ℕ} {n : N}
    {rest : List N} (hc : d.activeTab.bucket bit = n :: rest) :
    DictInv ops (bucketRehashOne d bit n rest) ∧ SameContent d (bucketRehashOne d bit n rest) := by
  have hlive : ∀ w, d.Live w := fun _ => Or.inr hr
  have hA : TableWf ops d.node d.active d.activeTab := h.table d.active
  have hB : TableWf ops d.node d.rehash d.rehashTab := h.table d.rehash
  have hroom := h.room
  have hsum := total_eq d
  have hmem : n ∈ d.activeTab.bucket bit := by rw [hc]; exact List.mem_cons_self
  have hnA : d.activeTab.Holds n := ⟨bit, hmem⟩
  have hnB : ¬ d.rehashTab.Holds n := fun hb => rehash_ne_active d (h.table_unique hb hnA)
  have hperm : (n :: rest).Perm (d.activeTab.bucket bit) := by rw [hc]
  obtain ⟨hA', hAnr, hAholds⟩ := hA.erase hperm (by omega)
  have hpos : 0 < d.activeTab.nrNodes := by omega
  have hsize : TableSize d.rehashTab.size := h.size d.rehash (hlive _)
  have hidx : d.target n < d.rehashTab.size := hsize.bucket_lt _
  have hat := hA.place bit n hmem
  have hmod : d.target n % 2 ^ 31 = d.target n := Nat.mod_eq_of_lt (lt_of_lt_of_le hidx hsize.le)
  have hBn : NodeAt ops ((bucketRehashOne d bit n rest).node n) d.rehash (d.target n) d.rehashTab.size := by
    rw [bucketRehashOne_node, Function.update_self, hmod]
    exact ⟨hat.linked, rfl, rfl, hat.hvalue, rfl⟩
  have hB0 : TableWf ops (bucketRehashOne d bit n rest).node d.rehash d.rehashTab := by
    rw [bucketRehashOne_node]
    exact hB.setNode hnB _
  obtain ⟨hB', hBnr, hBholds⟩ := hB0.insert (c := n :: d.rehashTab.bucket (d.target n))
    (List.Perm.refl _) hidx hBn hnB (by omega)
  rw [← bucketRehashOne_rehash d bit n rest] at hB' hBnr hBholds
  have hA0 : TableWf ops (bucketRehashOne d bit n rest).node d.active
      ((bucketRehashOne d bit n rest).tables d.active) := by
    rw [bucketRehashOne_node, bucketRehashOne_active]
    exact hA'.setNode (fun hh => ((hAholds n).mp hh).2 rfl) _
  rw [← bucketRehashOne_active d bit n rest] at hAnr hAholds
  have hsum' := total_eq (bucketRehashOne d bit n rest)
  have htotal : (bucketRehashOne d bit n rest).total = d.total := by
    have h1 : (bucketRehashOne d bit n rest).activeTab = (bucketRehashOne d bit n rest).tables d.active := rfl
    have h2 : (bucketRehashOne d bit n rest).rehashTab = (bucketRehashOne d bit n rest).tables d.rehash := rfl
    rw [hsum', h1, h2, hBnr, hsum]
    omega
  have hsame := bucketRehashOne_sameContent_node d bit n rest
  have hcontent : SameContent d (bucketRehashOne d bit n rest) :=
    ⟨fun m => (hsame m).1, fun m => (hsame m).2, htotal⟩
  refine ⟨⟨h.initSize, ?_, ?_, ?_, ?_, ?_, htotal ▸ hroom⟩, hcontent⟩
  · intro w
    rcases eq_active_or_rehash d w with rfl | rfl
    · exact hA0
    · exact hB'
  · intro w _
    rcases eq_active_or_rehash d w with rfl | rfl
    · rw [bucketRehashOne_active]
      exact h.size d.active (hlive _)
    · rw [bucketRehashOne_rehash]
      exact hsize
  · exact fun w hw => absurd (Or.inr hr) hw
  · intro m hm
    by_cases hmn : m = n
    · exact ⟨d.rehash, (hBholds m).mpr (Or.inr hmn)⟩
    · rw [hcontent.linked] at hm
      obtain ⟨w, hw⟩ := h.linked m hm
      rcases eq_active_or_rehash d w with rfl | rfl
      · exact ⟨d.active, (hAholds m).mpr ⟨hw, hmn⟩⟩
      · exact ⟨d.rehash, (hBholds m).mpr (Or.inl hw)⟩
  · intro a b ha hb hab
    rw [hcontent.linked] at ha hb
    rw [hcontent.key, hcontent.key] at hab
    exact h.keys a b ha hb hab

/-- The whole chain of bucket `bit` moves; the other chains of the active table stay. -/
theorem bucketRehash_keeps (bit : ℕ) (c : List N) (d : Dict K N) (h : DictInv ops d)
    (hr : d.isRehashing = true) (hc : d.activeTab.bucket bit = c) :
    DictInv ops (bucketRehash bit c d) ∧ SameContent d (bucketRehash bit c d) ∧
      (bucketRehash bit c d).rehashidx = d.rehashidx ∧
      (bucketRehash bit c d).activeTab.bucket = Function.update d.activeTab.bucket bit [] := by
  induction c generalizing d with
  | nil => exact ⟨h, SameContent.refl d, rfl, by rw [bucketRehash, ← hc, Function.update_eq_self]⟩
  | cons n rest ih =>
    obtain ⟨h1, hs1⟩ := bucketRehashOne_keeps h hr hc
    have hact : (bucketRehashOne d bit n rest).activeTab =
        (d.activeTab.setBucket bit rest).eraseNodeAfter bit := bucketRehashOne_active d bit n rest
    have hbucket : (bucketRehashOne d bit n rest).activeTab.bucket =
        Function.update d.activeTab.bucket bit rest := by rw [hact]; rfl
    obtain ⟨h2, hs2, hi2, hb2⟩ := ih (bucketRehashOne d bit n rest) h1 hr
      (by rw [hbucket, Function.update_self])
    refine ⟨h2, hs1.trans hs2, hi2, ?_⟩
    rw [bucketRehash, hb2, hbucket, Function.update_idem]

theorem findNextBit_spec {mapping : ℕ → Bool} {size start i : ℕ} (hs : start ≤ i) (hi : i < size)
    (hm : mapping i = true) :
    findNextBit mapping size start < size ∧
      ∀ j, start ≤ j → j < findNextBit mapping size start → mapping j = false := by
  unfold findNextBit
  cases hf : (List.range' start (size - start)).find? mapping with
  | none =>
    have hno := List.find?_eq_none.mp hf i (List.mem_range'_1.mpr ⟨hs, by omega⟩)
    exact absurd hm hno
  | some k =>
    obtain ⟨-, hk, hbelow⟩ := List.find?_range'_eq_some.mp hf
    have hk' := List.mem_range'_1.mp hk
    refine ⟨by simp only [Option.getD_some]; omega, fun j hj hlt => ?_⟩
    simpa using hbelow j hj hlt

theorem rehashRound_keeps (h : DictInv ops d) (hm : d.Moved) (hr : d.isRehashing = true)
    (hne : d.activeTab.nrNodes ≠ 0) {index : ℕ}
    (hindex : index = findNextBit d.activeTab.mapping d.activeTab.size d.rehashidx.toNat) :
    let d1 : Dict K N := { d with rehashidx := (index : ℤ) + 1 }
    let d2 := bucketRehash index (d1.activeTab.bucket index) d1
    DictInv ops d2 ∧ d2.Moved ∧ SameContent d d2 ∧ d2.isRehashing = true := by
  intro d1 d2
  have hA : TableWf ops d.node d.active d.activeTab := h.table d.active
  -- a non-empty bucket exists, and it lies at or above the position of the move
  obtain ⟨i, hi, hbi⟩ := chainLoad_pos (hA.count ▸ hne)
  have hstart : d.rehashidx.toNat ≤ i := by
    by_contra hlt
    have hnn : d.rehashidx ≠ -1 := by simpa [Dict.isRehashing] using hr
    have h1 := hm.1
    exact hbi (hm.2 i (by omega))
  obtain ⟨-, hbelow⟩ := findNextBit_spec hstart hi ((hA.mapping i).mpr hbi)
  rw [← hindex] at hbelow
  have hr1 : d1.isRehashing = true := by
    have hnn : ¬ ((index : ℤ) + 1 = -1) := by omega
    simpa [d1, Dict.isRehashing] using hnn
  have h1 : DictInv ops d1 :=
    ⟨h.initSize, h.table, fun w _ => h.size w (Or.inr hr), fun w hw => absurd (Or.inr hr1) hw, h.linked,
      h.keys, h.room⟩
  obtain ⟨h2, hs2, hi2, hb2⟩ := bucketRehash_keeps index _ d1 h1 hr1 rfl
  have hidx2 : d2.rehashidx = (index : ℤ) + 1 := hi2
  have hbucket2 : d2.activeTab.bucket = Function.update d.activeTab.bucket index [] := hb2
  have hs1 : SameContent d d1 := ⟨fun _ => rfl, fun _ => rfl, rfl⟩
  refine ⟨h2, ⟨by omega, ?_⟩, hs1.trans hs2, ?_⟩
  · intro j hj
    rw [hbucket2]
    by_cases he : j = index
    · rw [he, Function.update_self]
    · rw [Function.update_of_ne he]
      rcases Nat.lt_or_ge j d.rehashidx.toNat with hlt | hge
      · exact hm.2 j (by omega)
      · have hmap : d.activeTab.mapping j = false := hbelow j hge (by omega)
        by_contra hbj
        rw [(hA.mapping j).mpr hbj] at hmap
        exact Bool.noConfusion hmap
  · have hnn : ¬ ((index : ℤ) + 1 = -1) := by omega
    simpa [Dict.isRehashing, hidx2] using hnn

omit [DecidableEq N] in
theorem swapTables_keeps (h : DictInv ops d) (hr : d.isRehashing = true) (hz : d.activeTab.nrNodes = 0) :
    let d1 : Dict K N := { d with active := d.rehash }
    let d2 := tableRelease d1 d1.rehash
    DictInv ops d2 ∧ d2.Moved ∧ SameContent d d2 := by
  intro d1 d2
  have hback : d1.rehash = d.active := by simp [d1, Dict.rehash]
  have hd2 : d2 = { d1.setTable d.active (DictTable.fresh 0) with rehashidx := -1 } := by
    have hr1 : (d1.setTable d1.rehash (DictTable.fresh 0)).isRehashing = true := hr
    have hreh : (d1.setTable d1.rehash (DictTable.fresh 0)).rehash = d1.rehash := rfl
    rw [← hback]
    simp only [d2, tableRelease, dictTableInit]
    rw [if_pos trivial]
    exact if_pos ⟨hreh.symm, hr1⟩
  have hother : d2.tables d.rehash = d.tables d.rehash := by
    rw [hd2]
    exact Function.update_of_ne (rehash_ne_active d) _ _
  have hgone : d2.tables d.active = DictTable.fresh 0 := by
    rw [hd2]
    exact Function.update_self ..
  have hnode : d2.node = d.node := by rw [hd2]; rfl
  have hactive : d2.active = d.rehash := by rw [hd2]; rfl
  have hidx : d2.rehashidx = -1 := by rw [hd2]
  have hstop : d2.isRehashing = false := (isRehashing_eq_false_iff d2).mpr hidx
  have htotal : d2.total = d.total := by
    have hz' : (d.tables d.active).nrNodes = 0 := hz
    have hreh : (!d.active) = d.rehash := rfl
    rw [total_split d2 d.active, total_split d d.active, hreh, hgone, hother, hz']
    rfl
  refine ⟨⟨?_, ?_, ?_, ?_, ?_, ?_, htotal ▸ h.room⟩, ⟨by omega, fun i hi => by omega⟩,
    fun n => by rw [hnode], fun n => by rw [hnode], htotal⟩
  · rw [hd2]
    exact h.initSize
  · intro w
    rw [hnode]
    rcases eq_active_or_rehash d w with rfl | rfl
    · rw [hgone]
      exact tableWf_fresh ops d.node d.active 0
    · rw [hother]
      exact h.table d.rehash
  · rintro w (hw | hw)
    · rw [hw, hactive, hother]
      exact h.size d.rehash (Or.inr hr)
    · rw [hstop] at hw
      exact Bool.noConfusion hw
  · intro w hw
    rcases eq_active_or_rehash d w with rfl | rfl
    · rw [hgone]
      rfl
    · exact absurd (Or.inl hactive.symm) hw
  · intro n hn
    rw [hnode] at hn
    obtain ⟨w, hw⟩ := h.linked n hn
    rcases eq_active_or_rehash d w with rfl | rfl
    · exact absurd hw ((h.table d.active).not_holds_of_empty hz n)
    · exact ⟨d.rehash, by rwa [hother]⟩
  · rw [hnode]
    exact h.keys

theorem dictRehashLoop_keeps (step : ℕ) (d : Dict K N) (h : DictInv ops d) (hm : d.Moved)
    (hr : d.isRehashing = true) :
    DictInv ops (dictRehashLoop step d).1 ∧ (dictRehashLoop step d).1.Moved ∧
      SameContent d (dictRehashLoop step d).1 := by
  induction step generalizing d with
  | zero => exact ⟨h, hm, SameContent.refl d⟩
  | succ k ih =>
    rw [dictRehashLoop]
    split
    · rename_i hz
      exact swapTables_keeps h hr hz
    · rename_i hne
      obtain ⟨h2, hm2, hs2, hr2⟩ := rehashRound_keeps h hm hr hne rfl
      obtain ⟨h3, hm3, hs3⟩ := ih _ h2 hm2 hr2
      exact ⟨h3, hm3, hs2.trans hs3⟩

theorem dictCheckRehashing_keeps (debug : Bool) (h : DictInv ops d) (hm : d.Moved) :
    DictInv ops (dictCheckRehashing debug d).1 ∧ (dictCheckRehashing debug d).1.Moved ∧
      SameContent d (dictCheckRehashing debug d).1 := by
  unfold dictCheckRehashing dictRehash
  by_cases hr : d.isRehashing = true
  · rw [if_pos hr, if_pos hr, if_pos hr]
    cases debug with
    | true => exact dictRehashLoop_keeps 1 d h hm hr
    | false => exact dictRehashLoop_keeps _ d h hm hr
  · rw [if_neg hr]
    exact ⟨h, hm, SameContent.refl d⟩

end Move

end Inv

end Skp.Adt
