import Skp.Adt.RadixRefine

/-! # The tags of the radix tree

`radix_tree_tag_set`, `radix_tree_tag_clear`, `radix_tree_tag_get` and `radix_tree_tagged`, and
which tag bits a tree has for a set of tagged indices: a slot's bit is set exactly when a tagged
index leads through the slot. -/
namespace Skp.Adt
set_option autoImplicit false
open Skp.Foundations

variable {V : Type}

/-! ## The operations -/

def RadixSlot.setTag (s : RadixSlot V) (tag : Fin 3) (off : Fin 64) : Fin 3 → Fin 64 → Bool :=
  Function.update s.tags tag (Function.update (s.tags tag) off true)

/-- The way down of `radix_tree_tag_set`; `none` is the `BUG_ON` of an empty slot on it. -/
def tagSetWalk (index : BitVec 64) (tag : Fin 3) : ℕ → RadixSlot V → Option (RadixSlot V)
  | 0, s => some s
  | h + 1, s =>
      let off := calcOffset index (h * radixMapShift)
      if s.isNull || (s.slots off).isNull then none
      else (tagSetWalk index tag h (s.slots off)).map fun t =>
        .node s.count (s.setTag tag off) (Function.update s.slots off t)

/-- `radix_tree_tag_set`; `none` is a `BUG_ON`. -/
def radixTreeTagSet (root : RadixRoot V) (index : BitVec 64) (tag : Fin 3) :
    Option (RadixRoot V × Option V) :=
  if rdtreeMaxindex root.height < index then some (root, none)
  else (tagSetWalk index tag root.height root.rnode).map fun t =>
    ({ root with rnode := t }, (walkSlot index root.height t).value)

/-- `radix_tree_tag_clear`; `none` is the `BUG_ON` of a path without a node. -/
def radixTreeTagClear (root : RadixRoot V) (index : BitVec 64) (tag : Fin 3) :
    Option (RadixRoot V × Option V) :=
  match fillPath root index with
  | none => some (root, none)
  | some v =>
      if root.height = 0 then none
      else some ({ root with rnode := (clearNodeTag index tag root.height root.rnode).1 }, some v)

/-- The loop of `radix_tree_tag_get`; `saw` is `saw_unset_tag`, and `none` is the `BUG_ON` that it
contradicts the tag of the last level. -/
def tagGetWalk (index : BitVec 64) (tag : Fin 3) : ℕ → RadixSlot V → Bool → Option Bool
  | 0, _, _ => some false
  | h + 1, s, saw =>
      if s.isNull then some false
      else
        let bit := s.tags tag (calcOffset index (h * radixMapShift))
        let saw := saw || !bit
        if h = 0 then (if bit && saw then none else some bit)
        else tagGetWalk index tag h (s.slots (calcOffset index (h * radixMapShift))) saw

def radixTreeTagGet (root : RadixRoot V) (index : BitVec 64) (tag : Fin 3) : Option Bool :=
  if rdtreeMaxindex root.height < index then some false else tagGetWalk index tag root.height root.rnode false

def radixTreeTagged (root : RadixRoot V) (tag : Fin 3) : Bool :=
  !root.rnode.isNull && anyTag (root.rnode.tags tag)

/-! ## The bits for a set of indices -/

theorem anyTag_iff {bits : Fin 64 → Bool} : anyTag bits = true ↔ ∃ off, bits off = true := by
  simp [anyTag]

/-- The tag bits below a slot of height `h` are those of the set `T`: a slot's bit is set if and
only if an index of the set leads through it, and each index of the set leads to an item. -/
def TagsAre (tag : Fin 3) : ℕ → (BitVec 64 → Prop) → RadixSlot V → Prop
  | 0, T, s => (∃ i, T i) → s.isNull = false
  | h + 1, T, s => ∀ off,
      (s.tags tag off = true ↔ ∃ i, T i ∧ calcOffset i (h * radixMapShift) = off) ∧
      TagsAre tag h (fun i => T i ∧ calcOffset i (h * radixMapShift) = off) (s.slots off)

section TagsAre
variable {tag : Fin 3} {h : ℕ} {T T' : BitVec 64 → Prop} {s : RadixSlot V}

theorem TagsAre.congr (hT : ∀ i, T' i ↔ T i) (hs : TagsAre tag h T s) : TagsAre tag h T' s := by
  rwa [show T' = T from funext fun i => propext (hT i)]

theorem tagsAre_empty (h : ℕ) (hT : ∀ i, ¬ T i) : TagsAre tag h T (.null : RadixSlot V) := by
  induction h generalizing T with
  | zero => exact fun hex => absurd hex.choose_spec (hT _)
  | succ h ih =>
    refine fun off =>
      ⟨iff_of_false (fun hbit => ?_) fun hex => hT _ hex.choose_spec.1, ih fun i hi => hT i hi.1⟩
    cases hbit

theorem TagsAre.not_of_null (hs : TagsAre tag h T s) (hn : s.isNull = true) (i : BitVec 64) : ¬ T i := by
  intro hi
  cases h with
  | zero =>
    rw [hs ⟨i, hi⟩] at hn
    cases hn
  | succ h =>
    have hbit := (hs (calcOffset i (h * radixMapShift))).1.mpr ⟨i, hi, rfl⟩
    rw [eq_null_of_isNull hn] at hbit
    cases hbit

theorem TagsAre.exchange (hs : TagsAre tag (h + 1) T s) {off : Fin 64} {t : RadixSlot V} {c : ℕ}
    {tags : Fin 3 → Fin 64 → Bool} (hbits : ∀ o, o ≠ off → tags tag o = s.tags tag o)
    (hT : ∀ i, calcOffset i (h * radixMapShift) ≠ off → (T' i ↔ T i))
    (hbit : tags tag off = true ↔ ∃ i, T' i ∧ calcOffset i (h * radixMapShift) = off)
    (ht : TagsAre tag h (fun i => T' i ∧ calcOffset i (h * radixMapShift) = off) t) :
    TagsAre tag (h + 1) T' (.node c tags (Function.update s.slots off t)) := by
  intro o
  change (tags tag o = true ↔ _) ∧ TagsAre tag h _ (Function.update s.slots off t o)
  by_cases ho : o = off
  · subst ho
    rw [Function.update_self]
    exact ⟨hbit, ht⟩
  · obtain ⟨hold, hslot⟩ := hs o
    have hiff : ∀ i, (T' i ∧ calcOffset i (h * radixMapShift) = o) ↔ T i ∧
        calcOffset i (h * radixMapShift) = o :=
      fun i => and_congr_left fun hi => hT i (by rw [hi]; exact ho)
    rw [Function.update_of_ne ho, hbits o ho, hold]
    exact ⟨exists_congr fun i => (hiff i).symm, hslot.congr hiff⟩

end TagsAre

/-! ## What the operations do to the bits -/

section Operations
variable {tag : Fin 3} {T : BitVec 64 → Prop}

theorem insertWalk_tags {alloc : ℕ → Bool} {index : BitVec 64} {v : V} {h : ℕ} {s : RadixSlot V} {k : ℕ}
    (hs : TagsAre tag h T s) : TagsAre tag h T (insertWalk alloc index v h s k).1 := by
  induction h generalizing s k T with
  | zero =>
    unfold insertWalk
    split
    · exact fun _ => rfl
    · exact hs
  | succ h ih =>
    unfold insertWalk
    split
    · exact hs
    · exact hs.exchange (fun _ _ => rfl) (fun _ _ => Iff.rfl) (hs _).1 (ih (hs _).2)

theorem pushRoot_tags {root : RadixRoot V} {tags : Fin 3 → Bool}
    (htags : ∀ t, tags t = anyTag (root.rnode.tags t)) (hpos : 0 < root.height)
    (hs : TagsAre tag root.height T root.rnode) (hT : ∀ i, T i → i.toNat < 64 ^ root.height) :
    TagsAre tag (root.height + 1) T (pushRoot tags root).rnode := by
  have hzero : ∀ i, T i → calcOffset i (root.height * radixMapShift) = 0 := fun i hi => by
    have hlt := hT i hi
    have hle : 64 ^ root.height ≤ 64 ^ (root.height + 1) := Nat.pow_le_pow_right (by decide) (by omega)
    exact (calcOffset_eq_zero (by omega)).mpr hlt
  obtain ⟨h, hh⟩ : ∃ h, root.height = h + 1 := ⟨root.height - 1, by omega⟩
  have hany : tags tag = true ↔ ∃ i, T i := by
    rw [htags, anyTag_iff]
    rw [hh] at hs
    constructor
    · rintro ⟨off, hoff⟩
      obtain ⟨i, hi, -⟩ := (hs off).1.mp hoff
      exact ⟨i, hi⟩
    · rintro ⟨i, hi⟩
      exact ⟨_, (hs _).1.mpr ⟨i, hi, rfl⟩⟩
  intro off
  rw [pushRoot_rnode]
  change ((tags tag && off == 0) = true ↔ _) ∧
    TagsAre tag root.height _ (Function.update (RadixSlot.null : RadixSlot V).slots 0 root.rnode off)
  by_cases hoff : off = 0
  · subst hoff
    rw [Function.update_self, beq_self_eq_true, Bool.and_true, hany]
    exact ⟨exists_congr fun i => ⟨fun hi => ⟨hi, hzero i hi⟩, fun hi => hi.1⟩,
      hs.congr fun i => ⟨fun hi => hi.1, fun hi => ⟨hi, hzero i hi⟩⟩⟩
  · have hnone : ∀ i, ¬ (T i ∧ calcOffset i (root.height * radixMapShift) = off) := fun i hi =>
      hoff (hi.2.symm.trans (hzero i hi.1))
    rw [Function.update_of_ne hoff]
    refine ⟨iff_of_false (by simp [hoff]) fun hex => hnone _ hex.choose_spec, tagsAre_empty _ hnone⟩

theorem tagSetWalk_tags {index : BitVec 64} {h : ℕ} {s : RadixSlot V}
    (hp : (walkSlot index h s).isNull = false)
    (hs : TagsAre tag h T s) :
    ∃ t, tagSetWalk index tag h s = some t ∧ TagsAre tag h (fun i => T i ∨ i = index) t := by
  induction h generalizing s T with
  | zero => exact ⟨s, rfl, fun _ => hp⟩
  | succ h ih =>
    have hnull := walkSlot_used hp
    rw [walkSlot_succ] at hp
    have hchild := walkSlot_used hp
    obtain ⟨t, ht, htags⟩ := ih hp (hs _).2
    unfold tagSetWalk
    dsimp only
    rw [hnull, hchild, Bool.or_false, if_neg Bool.false_ne_true, ht]
    refine ⟨_, rfl, hs.exchange (fun o ho => ?_) (fun i hi => ?_) ?_ (htags.congr fun i => ?_)⟩
    · rw [RadixSlot.setTag, Function.update_self, Function.update_of_ne ho]
    · exact or_iff_left fun heq => hi (by rw [heq])
    · rw [RadixSlot.setTag, Function.update_self, Function.update_self]
      exact iff_of_true rfl ⟨index, Or.inr rfl, rfl⟩
    · rw [or_and_right]
      exact or_congr_right ⟨fun hi => hi.1, fun hi => ⟨hi, by rw [hi]⟩⟩

theorem tagSetWalk_sameItems {index : BitVec 64} {h : ℕ} {s t : RadixSlot V} (hw : RadixWf h s)
    (ht : tagSetWalk index tag h s = some t) : SameItems h s t := by
  induction h generalizing s t with
  | zero =>
    cases ht
    exact ⟨hw, rfl, fun _ => rfl, rfl⟩
  | succ h ih =>
    unfold tagSetWalk at ht
    dsimp only at ht
    split at ht
    · cases ht
    · rename_i hused
      rw [Bool.or_eq_true, not_or, Bool.not_eq_true] at hused
      obtain ⟨u, hu, rfl⟩ := Option.map_eq_some_iff.mp ht
      exact (ih (hw.slots _) hu).node hw hused.1 _

theorem tagSetWalk_other {tag' : Fin 3} (htag : tag' ≠ tag) {index : BitVec 64} {h : ℕ} {s t : RadixSlot V}
    (hs : TagsAre tag' h T s) (ht : tagSetWalk index tag h s = some t) : TagsAre tag' h T t := by
  induction h generalizing s t T with
  | zero =>
    cases ht
    exact hs
  | succ h ih =>
    unfold tagSetWalk at ht
    dsimp only at ht
    split at ht
    · cases ht
    · obtain ⟨u, hu, rfl⟩ := Option.map_eq_some_iff.mp ht
      have hsame : s.setTag tag (calcOffset index (h * radixMapShift)) tag' = s.tags tag' :=
        Function.update_of_ne htag _ _
      refine hs.exchange (fun o _ => by rw [hsame]) (fun _ _ => Iff.rfl) ?_ (ih (hs _).2 hu)
      rw [hsame]
      exact (hs _).1

/-- The item of the index loses the tag. The way up goes on exactly when the index was the last one
with the tag below the slot; at the item itself it always starts. -/
theorem clearNodeTag_tags {index : BitVec 64} {h : ℕ} {s : RadixSlot V}
    (hT : ∀ i, T i → SamePath h i index → i = index) (hs : TagsAre tag h T s) :
    TagsAre tag h (fun i => T i ∧ i ≠ index) (clearNodeTag index tag h s).1 ∧
      ((clearNodeTag index tag h s).2 = true ↔ (h = 0 ∨ T index) ∧ ∀ i, T i → i = index) := by
  induction h generalizing s T with
  | zero =>
    refine ⟨fun ⟨i, hi, _⟩ => hs ⟨i, hi⟩, iff_of_true rfl ⟨Or.inl rfl, fun i hi => hT i hi fun k hk => ?_⟩⟩
    exact absurd hk (Nat.not_lt_zero k)
  | succ h ih =>
    obtain ⟨hrec, hgo⟩ := ih (s := s.slots (calcOffset index (h * radixMapShift)))
      (fun i hi hpath => hT i hi.1 (samePath_succ.mpr ⟨hi.2, hpath⟩)) (hs _).2
    simp only [clearNodeTag]
    have hbit := (hs (calcOffset index (h * radixMapShift))).1
    generalize hoff : calcOffset index (h * radixMapShift) = off at hrec hgo hbit
    generalize clearNodeTag index tag h (s.slots off) = r at hrec hgo
    have hother : ∀ i, calcOffset i (h * radixMapShift) ≠ off → (T i ∧ i ≠ index ↔ T i) := fun i hi =>
      and_iff_left fun heq => hi (by rw [heq, hoff])
    have hslot : TagsAre tag h (fun i => (T i ∧ i ≠ index) ∧ calcOffset i (h * radixMapShift) = off) r.1 :=
      hrec.congr fun i => and_right_comm
    -- the bit goes exactly when the index is the only one with the tag below this slot
    have hcond : (r.2 && s.tags tag off) = true ↔
        T index ∧ ∀ i, T i → calcOffset i (h * radixMapShift) = off → i = index := by
      rw [Bool.and_eq_true, hgo, hbit]
      constructor
      · rintro ⟨⟨-, hall⟩, i, hi, hio⟩
        have heq := hall i ⟨hi, hio⟩
        exact ⟨heq ▸ hi, fun j hj hjo => hall j ⟨hj, hjo⟩⟩
      · rintro ⟨hi, hall⟩
        exact ⟨⟨Or.inr ⟨hi, rfl⟩, fun j hj => hall j hj.1 hj.2⟩, index, hi, hoff⟩
    split
    · rename_i htrue
      obtain ⟨hindex, honly⟩ := hcond.mp htrue
      have hset : Function.update (s.tags tag) off false off = false := Function.update_self _ _ _
      have hnew : TagsAre tag (h + 1) (fun i => T i ∧ i ≠ index)
          (.node s.count (Function.update s.tags tag (Function.update (s.tags tag) off false))
            (Function.update s.slots off r.1)) := by
        refine hs.exchange (fun o ho => ?_) hother ?_ hslot
        · rw [Function.update_self, Function.update_of_ne ho]
        · rw [Function.update_self, hset]
          refine iff_of_false Bool.false_ne_true ?_
          rintro ⟨i, ⟨hi, hne⟩, hio⟩
          exact hne (honly i hi hio)
      refine ⟨hnew, ?_⟩
      have hany : anyTag (Function.update (s.tags tag) off false) = true ↔ ∃ i, T i ∧ i ≠ index := by
        rw [anyTag_iff]
        have hbits := fun o => (hnew o).1
        simp only [RadixSlot.tags, Function.update_self] at hbits
        constructor
        · rintro ⟨o, ho⟩
          obtain ⟨i, hi, -⟩ := (hbits o).mp ho
          exact ⟨i, hi⟩
        · rintro ⟨i, hi⟩
          exact ⟨_, (hbits _).mpr ⟨i, hi, rfl⟩⟩
      rw [Bool.not_eq_true', ← Bool.not_eq_true, hany]
      constructor
      · intro hno
        refine ⟨Or.inr hindex, fun i hi => ?_⟩
        by_contra hne
        exact hno ⟨i, hi, hne⟩
      · rintro ⟨-, hall⟩ ⟨i, hi, hne⟩
        exact hne (hall i hi)
    · rename_i hfalse
      refine ⟨hs.exchange (fun _ _ => rfl) hother ?_ hslot, iff_of_false Bool.false_ne_true ?_⟩
      · rw [hbit]
        constructor
        · rintro ⟨i, hi, hio⟩
          by_contra hno
          refine hfalse (hcond.mpr ?_)
          have hall : ∀ j, T j → calcOffset j (h * radixMapShift) = off → j = index := fun j hj hjo => by
            by_contra hne
            exact hno ⟨j, ⟨hj, hne⟩, hjo⟩
          exact ⟨hall i hi hio ▸ hi, hall⟩
        · rintro ⟨i, hi, hio⟩
          exact ⟨i, hi.1, hio⟩
      · rintro ⟨hzero | hindex, hall⟩
        · exact Nat.succ_ne_zero h hzero
        · exact hfalse (hcond.mpr ⟨hindex, fun i hi _ => hall i hi⟩)

theorem clearNodeTag_other {tag' : Fin 3} (htag : tag' ≠ tag) {index : BitVec 64} {h : ℕ} {s : RadixSlot V}
    (hs : TagsAre tag' h T s) : TagsAre tag' h T (clearNodeTag index tag h s).1 := by
  induction h generalizing s T with
  | zero => exact hs
  | succ h ih =>
    have hrec := ih (hs (calcOffset index (h * radixMapShift))).2
    simp only [clearNodeTag]
    split
    · refine hs.exchange (fun o _ => ?_) (fun _ _ => Iff.rfl) ?_ hrec
      · rw [Function.update_of_ne htag]
      · rw [Function.update_of_ne htag]
        exact (hs _).1
    · exact hs.exchange (fun _ _ => rfl) (fun _ _ => Iff.rfl) (hs _).1 hrec

theorem pruneWalk_tags {index : BitVec 64} {h : ℕ} {s : RadixSlot V} (hw : RadixWf h s)
    (hp : (walkSlot index h s).isNull = false) (hT : ∀ i, T i → SamePath h i index → i = index)
    (hindex : ¬ T index)
    (hs : TagsAre tag h T s) : TagsAre tag h T (pruneWalk index h s) := by
  induction h generalizing s T with
  | zero =>
    refine fun hex => ?_
    obtain ⟨i, hi⟩ := hex
    have heq := hT i hi fun k hk => absurd hk (Nat.not_lt_zero k)
    exact absurd (heq ▸ hi) hindex
  | succ h ih =>
    have hpos := hw.count_pos (walkSlot_used hp)
    have hcount := hw.count_eq
    rw [walkSlot_succ] at hp
    have hrec := ih (hw.slots _) hp (fun i hi hpath => hT i hi.1 (samePath_succ.mpr ⟨hi.2, hpath⟩))
      (fun hi => hindex hi.1) (hs _).2
    have hchild := walkSlot_used hp
    simp only [pruneWalk]
    generalize hoff : calcOffset index (h * radixMapShift) = off at hrec hchild
    generalize pruneWalk index h (s.slots off) = t at hrec
    have hnode : ∀ c, TagsAre tag (h + 1) T (.node c s.tags (Function.update s.slots off t)) := fun c =>
      hs.exchange (fun _ _ => rfl) (fun _ _ => Iff.rfl) (hs off).1 hrec
    split
    · rename_i htn
      split
      · -- all slots of the node are empty now, so no tagged index leads through it
        have hup := used_update s.slots off t
        rw [hchild, htn] at hup
        simp only [Bool.false_eq_true, if_false, if_true] at hup
        have hempty : used (Function.update s.slots off t) = 0 := by omega
        refine tagsAre_empty _ fun i hi => ?_
        have hslot := (hnode 0 (calcOffset i (h * radixMapShift))).2
        refine hslot.not_of_null ?_ i ⟨hi, rfl⟩
        change (Function.update s.slots off t _).isNull = true
        rw [slots_null_of_used hempty]
        rfl
      · exact hnode _
    · exact hnode _

theorem tagGetWalk_eq {index : BitVec 64} {h : ℕ} {s : RadixSlot V} {saw : Bool} (hh : h ≠ 0)
    (hT : ∀ i, T i → SamePath h i index → i = index) (hs : TagsAre tag h T s)
    (hsaw : saw = true → ¬ T index) :
    ∃ b, tagGetWalk index tag h s saw = some b ∧ (b = true ↔ T index) := by
  induction h generalizing s saw T with
  | zero => exact absurd rfl hh
  | succ h ih =>
    unfold tagGetWalk
    split
    · rename_i hn
      exact ⟨false, rfl, iff_of_false Bool.false_ne_true (hs.not_of_null hn index)⟩
    · dsimp only
      obtain ⟨hbit, hslot⟩ := hs (calcOffset index (h * radixMapShift))
      have hsaw' : (saw || !s.tags tag (calcOffset index (h * radixMapShift))) = true → ¬ T index :=
        fun hor hi => by
        rw [hbit.mpr ⟨index, hi, rfl⟩, Bool.not_true, Bool.or_false] at hor
        exact hsaw hor hi
      by_cases hzero : h = 0
      · subst hzero
        have hlast : s.tags tag (calcOffset index (0 * radixMapShift)) = true ↔ T index := by
          rw [hbit]
          constructor
          · rintro ⟨i, hi, hio⟩
            have heq := hT i hi (samePath_succ.mpr ⟨hio, fun k hk => absurd hk (Nat.not_lt_zero k)⟩)
            exact heq ▸ hi
          · exact fun hi => ⟨index, hi, rfl⟩
        rw [if_pos rfl, if_neg]
        · exact ⟨_, rfl, hlast⟩
        · rw [Bool.and_eq_true]
          exact fun hboth => hsaw' hboth.2 (hlast.mp hboth.1)
      · rw [if_neg hzero]
        obtain ⟨b, hb, hiff⟩ := ih hzero (fun i hi hpath => hT i hi.1 (samePath_succ.mpr ⟨hi.2, hpath⟩)) hslot
          (fun hor hi => hsaw' hor hi.1)
        exact ⟨b, hb, hiff.trans ⟨fun hi => hi.1, fun hi => ⟨hi, rfl⟩⟩⟩

end Operations

end Skp.Adt
