import Skp.Utils.ParselistLoose

/-! # Lists of items

What `__bitmap_parselist` makes of a text whose items have numbers that unsigned ints hold and no
misplaced colon or slash that passes the checks. -/
namespace Skp.Utils
set_option autoImplicit false
open Skp.Foundations

variable {s s' : ScanState} {map map' : ℕ → BitVec 64} {nbits n m u g i : ℕ} {c : UInt8}
    {cs buf rest : List UInt8} {item : Item}

/-! ## One item -/

/-- The item is rejected, or the bits of `P` are added. -/
def Outcome (accepted : Prop) (P : ℕ → Prop) (map : ℕ → BitVec 64) :
    Option (ScanState × (ℤ ⊕ (ℕ → BitVec 64))) → Prop
  | none => False
  | some (_, .inl e) => ¬accepted ∧ IsError e
  | some (_, .inr map') => accepted ∧ ∀ i, bitAt map' i = true ↔ bitAt map i = true ∨ P i

theorem Outcome.congr {p q : Prop} {P Q : ℕ → Prop} {r : Option (ScanState × (ℤ ⊕ (ℕ → BitVec 64)))}
    (h : Outcome p P map r)
    (hpq : p ↔ q) (hPQ : ∀ i, P i ↔ Q i) : Outcome q Q map r := by
  obtain rfl := propext hpq
  obtain rfl : P = Q := funext fun i => propext (hPQ i)
  exact h

theorem Outcome.reject {p q : Prop} {P Q : ℕ → Prop}
    {r : Option (ScanState × (ℤ ⊕ (ℕ → BitVec 64)))} (h : Outcome p P map r)
    (hp : ¬p) (hq : ¬q) : Outcome q Q map r := by
  match r, h with
  | some (_, .inl _), h => exact ⟨hq, h.2⟩
  | some (_, .inr _), h => exact absurd h.1 hp

theorem groupLoop_outcome (hb : m + 1 < 2 ^ 32) (hab : n ≤ m) (hg : 0 < g) (hu : u ≤ g)
    (hend : stepEnd n m g < 2 ^ 32)
    (hlen : min (m - n + 1) u < 2 ^ 31) (map : ℕ → BitVec 64) :
    ∃ map', groupLoop (2 ^ 32) map n m g u = some map' ∧
      ∀ i, bitAt map' i = true ↔ bitAt map i = true ∨ InGroups n m u g i := by
  obtain ⟨map', hloop, hbits⟩ :=
    groupLoop_spec (2 ^ 32) map n (by omega) (by omega) hb hg (fun _ => hend) hlen hu
  refine ⟨map', hloop, fun i => ?_⟩
  rw [hbits, Bool.or_eq_true, decide_eq_true_eq]

theorem setItem_plain (hstart : s.atStart = false) (hpart : s.inPartialRange = false) (ha : s.a < 2 ^ 32)
    (hb : s.b < 2 ^ 32) (hrun : s.a ≤ s.b → s.b < nbits → s.b - s.a + 1 < 2 ^ 31) (hnbits : nbits < 2 ^ 32) :
    Outcome (s.a ≤ s.b ∧ s.b < nbits) (fun i => s.a ≤ i ∧ i ≤ s.b) map (setItem s map nbits) := by
  have hopen : ¬(s.atStart = true ∧ s.inRange = true) := by
    rw [hstart]
    exact fun h => absurd h.1 Bool.false_ne_true
  simp only [setItem, hpart, Bool.false_eq_true, if_false, if_neg hopen]
  split_ifs with hbad hrange
  · refine ⟨fun hvalid => ?_, .inl rfl⟩
    omega
  · refine ⟨fun hvalid => ?_, .inr rfl⟩
    omega
  · have hle : s.a ≤ s.b := by omega
    have hrun' := hrun hle (by omega)
    have hsize : (s.b + 2 ^ 32 - s.a + 1) % 2 ^ 32 = s.b - s.a + 1 := by omega
    have hend : stepEnd s.a s.b (s.b - s.a + 1) < 2 ^ 32 := by
      rw [stepEnd, Nat.div_eq_of_lt (Nat.lt_succ_self _), Nat.zero_add, Nat.one_mul]
      omega
    obtain ⟨map', hloop, hbits⟩ := groupLoop_outcome (show s.b + 1 < 2 ^ 32 by omega) hle (Nat.succ_pos _)
      (le_refl (s.b - s.a + 1)) hend (by omega) map
    rw [hsize, hloop]
    refine ⟨⟨hle, by omega⟩, fun i => (hbits i).trans (or_congr_right ?_)⟩
    constructor
    · exact fun h => ⟨h.1, h.2.1⟩
    · rintro ⟨hlow, hhigh⟩
      exact ⟨hlow, hhigh, Nat.mod_lt _ (Nat.succ_pos _)⟩

theorem setItem_groups (hstart : s.atStart = false) (hpart : s.inPartialRange = true)
    (hrun : s.oldA ≤ s.oldB → s.oldB < nbits → s.usedSize ≤ s.a → 0 < s.a →
      stepEnd s.oldA s.oldB s.a < 2 ^ 32 ∧ min (s.oldB - s.oldA + 1) s.usedSize < 2 ^ 31)
        (hnbits : nbits < 2 ^ 32) :
    Outcome (s.oldA ≤ s.oldB ∧ s.oldB < nbits ∧ s.usedSize ≤ s.a ∧ 0 < s.a)
      (InGroups s.oldA s.oldB s.usedSize s.a) map (setItem s map nbits) := by
  have hopen : ¬(s.atStart = true ∧ s.inRange = true) := by
    rw [hstart]
    exact fun h => absurd h.1 Bool.false_ne_true
  simp only [setItem, hpart, if_true, if_neg hopen]
  split_ifs with hbad hrange
  · refine ⟨fun hvalid => ?_, .inl rfl⟩
    omega
  · refine ⟨fun hvalid => ?_, .inr rfl⟩
    omega
  · obtain ⟨hend, hlen⟩ := hrun (by omega) (by omega) (by omega) (by omega)
    obtain ⟨map', hloop, hbits⟩ :=
      groupLoop_outcome (show s.oldB + 1 < 2 ^ 32 by omega) (show s.oldA ≤ s.oldB by omega)
      (show 0 < s.a by omega) (show s.usedSize ≤ s.a by omega) hend hlen map
    rw [hloop]
    exact ⟨by omega, hbits⟩

theorem finishItem_wrap (map : ℕ → BitVec 64) (hs : Scanned item s) (hsmall : item.wrap.Small nbits)
    (hnbits : nbits < 2 ^ 32) :
    Outcome (item.wrap.Valid nbits) item.wrap.Denotes map (finishItem s map nbits) := by
  cases item with
  | blank =>
    have hdigits : s.ndigits = s.totaldigits := hs
    rw [finishItem, if_pos hdigits]
    exact ⟨trivial, fun i => (or_iff_left id).symm⟩
  | single n =>
    obtain ⟨hdigits, hstart, hpart, ha, hb⟩ := hs
    rw [finishItem, if_neg hdigits]
    apply (setItem_plain hstart hpart (by omega) (by omega) (fun _ _ => by omega) hnbits).congr
    · rw [ha, hb]
      exact and_iff_right (le_refl _)
    · intro i
      rw [ha, hb]
      exact ⟨fun h => Nat.le_antisymm h.2 h.1, fun h => ⟨h.symm.le, h.le⟩⟩
  | range n m =>
    obtain ⟨hdigits, hstart, hpart, ha, hb⟩ := hs
    obtain ⟨hn, hm, hrun⟩ := hsmall
    rw [finishItem, if_neg hdigits]
    rw [← ha] at hn hrun
    rw [← hb] at hm hrun
    rw [Item.wrap, ← ha, ← hb]
    exact setItem_plain hstart hpart hn hm hrun hnbits
  | groups n m u g =>
    obtain ⟨hdigits, hstart, hpart, ha, hb, hu, hg⟩ := hs
    obtain ⟨-, -, -, -, hrun⟩ := hsmall
    rw [finishItem, if_neg hdigits]
    rw [← ha, ← hb, ← hu, ← hg] at hrun
    rw [Item.wrap, ← ha, ← hb, ← hu, ← hg]
    exact setItem_groups hstart hpart hrun hnbits

theorem Item.Small.wrap_eq (h : item.Small nbits) : item.wrap = item := by
  cases item with
  | blank => rfl
  | single n => rw [Item.wrap, Nat.mod_eq_of_lt h]
  | range n m => rw [Item.wrap, Nat.mod_eq_of_lt h.1, Nat.mod_eq_of_lt h.2.1]
  | groups n m u g =>
    obtain ⟨hn, hm, hu, hg, -⟩ := h
    rw [Item.wrap, Nat.mod_eq_of_lt hn, Nat.mod_eq_of_lt hm, Nat.mod_eq_of_lt hu, Nat.mod_eq_of_lt hg]

theorem Item.small_wrap (h : ¬item.wrap.Valid nbits) : item.wrap.Small nbits := by
  have hpos : 0 < 2 ^ 32 := by decide
  cases item with
  | blank => trivial
  | single n => exact Nat.mod_lt n hpos
  | range n m => exact ⟨Nat.mod_lt n hpos, Nat.mod_lt m hpos, fun hle hlt => absurd ⟨hle, hlt⟩ h⟩
  | groups n m u g =>
    exact ⟨Nat.mod_lt n hpos, Nat.mod_lt m hpos, Nat.mod_lt u hpos, Nat.mod_lt g hpos,
      fun hle hlt hu hg => absurd ⟨hle, hlt, hu, hg⟩ h⟩

theorem finishItem_scanned (hs : Scanned item s) (hfits : item.Fits nbits) (hnbits : nbits < 2 ^ 32) :
    Outcome (item.Valid nbits) item.Denotes map (finishItem s map nbits) := by
  rcases hfits with hsmall | ⟨hwrong, hwrap⟩
  · have hsame := hsmall.wrap_eq
    have hwrapped := finishItem_wrap map hs (hsame.symm ▸ hsmall) hnbits
    rwa [hsame] at hwrapped
  · exact (finishItem_wrap map hs (Item.small_wrap hwrap) hnbits).reject hwrap hwrong

/-! ## The domain -/

def Accepted (nbits : ℕ) (cs : List UInt8) : Prop := ∃ item, IsItem cs item ∧ item.Valid nbits

def DenotedBy (cs : List UInt8) (i : ℕ) : Prop := ∃ item, IsItem cs item ∧ item.Denotes i

/-- Fewer digits than an int counts, numbers that unsigned ints hold, and no colons and slashes out
of place in an item that passes the checks all the same. -/
structure Plain (nbits : ℕ) (cs : List UInt8) : Prop where
  count : cs.countP isDigit < 2 ^ 32
  fits : ∀ item, IsItem cs item → item.Fits nbits
  placed : NoGroups cs ∨ (∃ item, IsItem cs item) ∨ ¬Taken nbits cs

theorem scanned_of_isItem (hitem : IsItem cs item) (hn : cs.countP isDigit < 2 ^ 32)
    (hscan : scanItem (startItem s) cs = some s') : Scanned item s' := by
  obtain ⟨s₁, hscan₁, hs₁⟩ := scanItem_item hitem hn s
  rw [hscan] at hscan₁
  exact Option.some.inj hscan₁ ▸ hs₁

/-- An item is spelled right, or it does not pass the checks. -/
theorem Plain.item_or (h : Plain nbits cs) : (∃ item, IsItem cs item) ∨ ¬Taken nbits cs := by
  rcases h.placed with hno | hplaced
  · by_cases htaken : Taken nbits cs
    · exact .inl ((item_of_loose hno htaken.loose).resolve_right htaken.closed)
    · exact .inr htaken
  · exact hplaced

theorem finishItem_outcome (hplain : Plain nbits cs) (hnbits : nbits < 2 ^ 32)
    (hscan : scanItem (startItem s) cs = some s')
    (c : UInt8) (map : ℕ → BitVec 64) :
    Outcome (Accepted nbits cs) (DenotedBy cs) map (finishItem { s' with c := c } map nbits) := by
  have hall : ∀ item, IsItem cs item →
      Outcome (item.Valid nbits) item.Denotes map (finishItem { s' with c := c } map nbits) :=
        fun item hitem =>
    finishItem_scanned ((scanned_of_isItem hitem hplain.count hscan).spaces c) (hplain.fits item hitem) hnbits
  by_cases hitem : ∃ item, IsItem cs item
  · obtain ⟨item, hitem⟩ := hitem
    have hone := hall item hitem
    cases hresult : finishItem { s' with c := c } map nbits with
    | none =>
      rw [hresult] at hone
      exact hone
    | some r =>
      obtain ⟨s₁, e | map'⟩ := r
      · -- an error: no reading of the item is valid
        rw [hresult] at hone
        refine ⟨?_, hone.2⟩
        rintro ⟨item', hitem', hvalid⟩
        have hother := hall item' hitem'
        rw [hresult] at hother
        exact hother.1 hvalid
      · rw [hresult] at hone
        refine ⟨⟨item, hitem, hone.1⟩, fun i => ⟨fun hi => ?_, ?_⟩⟩
        · exact ((hone.2 i).mp hi).imp_right fun hdenotes => ⟨item, hitem, hdenotes⟩
        · rintro (hold | ⟨item', hitem', hdenotes⟩)
          · exact (hone.2 i).mpr (.inl hold)
          · have hother := hall item' hitem'
            rw [hresult] at hother
            exact (hother.2 i).mpr (.inr hdenotes)
  · have htaken := hplain.item_or.resolve_left hitem
    have hreads := itemRead_scanItem hplain.count hscan
    obtain ⟨s₁, e, hresult, he⟩ := finishItem_misplaced hreads hplain.count htaken c map
    rw [hresult]
    refine ⟨?_, he⟩
    rintro ⟨item, hitem', -⟩
    exact hitem ⟨item, hitem'⟩

/-! ## The list -/

/-- The text up to its end or a NUL, cut at the commas. -/
def itemsOf (buf : List UInt8) : List (List UInt8) := (buf.takeWhile (· ≠ 0)).splitOn comma

theorem cut_cases (buf : List UInt8) : ∃ cs rest, (∀ c ∈ cs, c ≠ 0 ∧ c ≠ comma) ∧
    (buf = cs ∨ buf = cs ++ 0 :: rest ∨ buf = cs ++ comma :: rest) := by
  induction buf with
  | nil => exact ⟨[], [], fun c hc => absurd hc List.not_mem_nil, .inl rfl⟩
  | cons c buf ih =>
    by_cases hnul : c = 0
    · exact ⟨[], buf, fun c hc => absurd hc List.not_mem_nil, .inr (.inl (hnul ▸ rfl))⟩
    · by_cases hcomma : c = comma
      · exact ⟨[], buf, fun c hc => absurd hc List.not_mem_nil, .inr (.inr (hcomma ▸ rfl))⟩
      · obtain ⟨cs, rest, hcs, hbuf⟩ := ih
        refine ⟨c :: cs, rest, List.forall_mem_cons.mpr ⟨⟨hnul, hcomma⟩, hcs⟩, ?_⟩
        rcases hbuf with rfl | rfl | rfl
        · exact .inl rfl
        · exact .inr (.inl rfl)
        · exact .inr (.inr rfl)

theorem takeWhile_text (hcs : ∀ c ∈ cs, c ≠ 0 ∧ c ≠ comma) (rest : List UInt8) :
    (cs ++ rest).takeWhile (· ≠ 0) = cs ++ rest.takeWhile (· ≠ 0) := by
  apply List.takeWhile_append_of_pos
  intro c hc
  exact decide_eq_true (hcs c hc).1

theorem itemsOf_last (hcs : ∀ c ∈ cs, c ≠ 0 ∧ c ≠ comma) :
    itemsOf cs = [cs] ∧ ∀ rest, itemsOf (cs ++ 0 :: rest) = [cs] := by
  have hcomma : comma ∉ cs := fun h => (hcs comma h).2 rfl
  constructor
  · have htext := takeWhile_text hcs []
    rw [List.append_nil, List.takeWhile_nil, List.append_nil] at htext
    rw [itemsOf, htext, List.splitOn_eq_singleton hcomma]
  · intro rest
    rw [itemsOf, takeWhile_text hcs, List.takeWhile_cons_of_neg (by decide), List.append_nil,
      List.splitOn_eq_singleton hcomma]

theorem itemsOf_comma (hcs : ∀ c ∈ cs, c ≠ 0 ∧ c ≠ comma) (rest : List UInt8) :
    itemsOf (cs ++ comma :: rest) = cs :: itemsOf rest := by
  have hcomma : comma ∉ cs := fun h => (hcs comma h).2 rfl
  rw [itemsOf, takeWhile_text hcs, List.takeWhile_cons_of_pos (by decide),
    List.splitOn_append_cons_self_of_not_mem hcomma, itemsOf]

/-- What the whole list gives. -/
def ListOutcome (nbits : ℕ) (items : List (List UInt8)) (map : ℕ → BitVec 64)
    (r : ℤ × (ℕ → BitVec 64)) : Prop :=
  (r.1 = 0 ∧ (∀ cs ∈ items, Accepted nbits cs) ∧
    ∀ i, bitAt r.2 i = true ↔ bitAt map i = true ∨ ∃ cs ∈ items, DenotedBy cs i) ∨
  (IsError r.1 ∧ ¬∀ cs ∈ items, Accepted nbits cs)

theorem not_accepted_of_scanItem (hn : cs.countP isDigit < 2 ^ 32)
    (hscan : scanItem (startItem s) cs = none) :
    ¬Accepted nbits cs := by
  rintro ⟨item, hitem, -⟩
  obtain ⟨s', hsome, -⟩ := scanItem_item hitem hn s
  rw [hscan] at hsome
  cases hsome

theorem listOutcome_error {items : List (List UInt8)} {e : ℤ} (hcs : cs ∈ items)
    (hno : ¬Accepted nbits cs) (he : IsError e) :
    ListOutcome nbits items map (e, map') :=
  .inr ⟨he, fun h => hno (h cs hcs)⟩

theorem denotedBy_nil : ¬DenotedBy [] i := by
  rintro ⟨item, ⟨ws, body, ws', -, hbody, -, hnil⟩, hdenotes⟩
  obtain ⟨-, hnil⟩ := List.append_eq_nil_iff.mp hnil.symm
  obtain ⟨hnil, -⟩ := List.append_eq_nil_iff.mp hnil
  cases hbody with
  | blank => exact hdenotes
  | single _ hds => exact hds.1 hnil
  | range _ _ hds => exact hds.1 (List.append_eq_nil_iff.mp hnil).1
  | groups _ _ _ _ hds => exact hds.1 (List.append_eq_nil_iff.mp hnil).1

theorem accepted_nil : Accepted nbits [] := by
  have hnone : Spaces [] := fun c hc => absurd hc List.not_mem_nil
  exact ⟨.blank, ⟨[], [], [], hnone, .blank, hnone, rfl⟩, trivial⟩

theorem listOutcome_nil (map : ℕ → BitVec 64) : ListOutcome nbits [[]] map (0, map) := by
  refine .inl ⟨rfl, fun cs hcs => List.mem_singleton.mp hcs ▸ accepted_nil, fun i => ⟨.inl, ?_⟩⟩
  rintro (hi | ⟨cs, hcs, hdenotes⟩)
  · exact hi
  · rw [List.mem_singleton.mp hcs] at hdenotes
    exact absurd hdenotes denotedBy_nil

theorem ListOutcome.cons {items : List (List UInt8)} {r : ℤ × (ℕ → BitVec 64)} (haccepted : Accepted nbits cs)
    (hbits : ∀ i, bitAt map' i = true ↔ bitAt map i = true ∨ DenotedBy cs i)
    (hrest : ListOutcome nbits items map' r) :
    ListOutcome nbits (cs :: items) map r := by
  rcases hrest with ⟨hzero, hall, hr⟩ | ⟨herror, hno⟩
  · refine .inl ⟨hzero, List.forall_mem_cons.mpr ⟨haccepted, hall⟩, fun i => ?_⟩
    rw [hr, hbits, or_assoc, List.exists_mem_cons_iff]
  · exact .inr ⟨herror, fun h => hno (List.forall_mem_cons.mp h).2⟩

theorem setItem_c {r : ℤ ⊕ (ℕ → BitVec 64)} (hset : setItem s map nbits = some (s', r)) : s'.c = s.c := by
  cases hpart : s.inPartialRange <;>
  · simp only [setItem, hpart, Bool.false_eq_true, if_false, if_true] at hset
    split_ifs at hset
    · cases hset
      rfl
    · cases hset
      rfl
    · cases hset
      rfl
    · split at hset
      · cases hset
      · cases hset
        rfl

theorem finishItem_c {r : ℤ ⊕ (ℕ → BitVec 64)} (hfinish : finishItem s map nbits = some (s', r)) :
    s'.c = s.c := by
  rw [finishItem] at hfinish
  split_ifs at hfinish
  · cases hfinish
    rfl
  · exact setItem_c hfinish

theorem parseLoop_round (n : ℕ) {tail : List UInt8} {more : Bool} (hcs : ∀ c ∈ cs, c ≠ 0 ∧ c ≠ comma)
    (htail : ∀ s, ∃ c, scanLoop tail s = some ({ s with c := c }, rest) ∧
      (rest ≠ [] ∧ c = comma ↔ more = true))
    (s : ScanState) (map : ℕ → BitVec 64) (hplain : Plain nbits cs) (hnbits : nbits < 2 ^ 32) :
    (∃ e, parseLoop nbits (n + 1) (cs ++ tail) s map = some (e, map) ∧ ¬Accepted nbits cs ∧ IsError e) ∨
      ∃ s' map', Accepted nbits cs ∧ (∀ i, bitAt map' i = true ↔ bitAt map i = true ∨ DenotedBy cs i) ∧
        parseLoop nbits (n + 1) (cs ++ tail) s map =
          if more = true then parseLoop nbits n rest s' map' else some (0, map') := by
  have hscan : scanLoop (cs ++ tail) (startItem s) = (scanItem (startItem s) cs).bind fun s =>
    scanLoop tail s :=
    scanLoop_append hcs (startItem s)
  cases hitem : scanItem (startItem s) cs with
  | none =>
    rw [hitem, Option.bind_none] at hscan
    left
    refine ⟨eINVAL, by rw [parseLoop, hscan], not_accepted_of_scanItem hplain.count hitem, .inl rfl⟩
  | some s₁ =>
    obtain ⟨c, hend, hmore⟩ := htail s₁
    rw [hitem, Option.bind_some, hend] at hscan
    have houtcome := finishItem_outcome hplain hnbits hitem c map
    have hround : parseLoop nbits (n + 1) (cs ++ tail) s map = match finishItem { s₁ with c := c }
        map nbits with
        | none => none
        | some (_, .inl e) => some (e, map)
        | some (s, .inr map) => if rest ≠ [] ∧ s.c = comma then parseLoop nbits n rest s map
            else some (0, map) := by
      rw [parseLoop, hscan]
      rfl
    cases hresult : finishItem { s₁ with c := c } map nbits with
    | none =>
      rw [hresult] at houtcome
      exact absurd houtcome id
    | some r =>
      obtain ⟨s₂, e | map'⟩ := r
      · rw [hresult] at houtcome hround
        exact .inl ⟨e, hround, houtcome⟩
      · have hc : s₂.c = c := finishItem_c hresult
        rw [hresult] at houtcome hround
        simp only [hc] at hround
        refine .inr ⟨s₂, map', houtcome.1, houtcome.2, hround.trans ?_⟩
        exact if_congr hmore rfl rfl

theorem parseLoop_spec (hnbits : nbits < 2 ^ 32) (n : ℕ) (buf : List UInt8) (s : ScanState)
    (map : ℕ → BitVec 64)
    (hn : buf.length < n) (hplain : ∀ cs ∈ itemsOf buf, Plain nbits cs) :
    ∃ r, parseLoop nbits n buf s map = some r ∧ ListOutcome nbits (itemsOf buf) map r := by
  induction n generalizing buf s map with
  | zero => exact absurd hn (Nat.not_lt_zero _)
  | succ n ih =>
    obtain ⟨cs, rest, hcs, hbuf⟩ := cut_cases buf
    obtain ⟨hlast, hnul⟩ := itemsOf_last hcs
    have hcomma := itemsOf_comma hcs rest
    -- the last item: the loop ends after it
    have hend : ∀ tail rest, (∀ s, ∃ c, scanLoop tail s = some ({ s with c := c }, rest) ∧
        ¬(rest ≠ [] ∧ c = comma)) →
        itemsOf (cs ++ tail) = [cs] → (∀ cs' ∈ itemsOf (cs ++ tail), Plain nbits cs') →
        ∃ r, parseLoop nbits (n + 1) (cs ++ tail) s map = some r ∧
          ListOutcome nbits (itemsOf (cs ++ tail)) map r := by
      intro tail rest htail hitems hplain
      rw [hitems] at hplain ⊢
      have hone := hplain cs (List.mem_singleton_self cs)
      have hstop : ∀ s, ∃ c, scanLoop tail s = some ({ s with c := c }, rest) ∧
          (rest ≠ [] ∧ c = comma ↔ false = true) := by
        intro s
        obtain ⟨c, hc, hno⟩ := htail s
        exact ⟨c, hc, fun h => absurd h hno, fun h => absurd h Bool.false_ne_true⟩
      rcases parseLoop_round n hcs hstop s map hone hnbits with
        ⟨e, hloop, hno, he⟩ | ⟨s', map', haccepted, hbits, hloop⟩
      · exact ⟨_, hloop, listOutcome_error (List.mem_singleton_self cs) hno he⟩
      · refine ⟨_, hloop, .inl ⟨rfl, fun cs' hcs' => List.mem_singleton.mp hcs' ▸ haccepted, fun i => ?_⟩⟩
        rw [hbits]
        simp
    rcases hbuf with rfl | rfl | rfl
    · have hnil := hend [] [] (fun s => ⟨s.c, rfl, fun h => h.1 rfl⟩)
      rw [List.append_nil] at hnil
      exact hnil hlast hplain
    · exact hend (0 :: rest) rest (fun s => ⟨0, rfl, fun h => absurd h.2 (by decide)⟩) (hnul rest) hplain
    · rw [hcomma] at hplain ⊢
      have hone := hplain cs List.mem_cons_self
      have htail : ∀ s : ScanState, ∃ c, scanLoop (comma :: rest) s = some ({ s with c := c }, rest) ∧
          (rest ≠ [] ∧ c = comma ↔ (!rest.isEmpty) = true) := fun s => ⟨comma, rfl, by simp⟩
      rcases parseLoop_round n hcs htail s map hone hnbits with
        ⟨e, hloop, hno, he⟩ | ⟨s', map', haccepted, hbits, hloop⟩
      · exact ⟨_, hloop, listOutcome_error List.mem_cons_self hno he⟩
      · by_cases hrest : rest = []
        · subst hrest
          exact ⟨_, hloop, (listOutcome_nil map').cons haccepted hbits⟩
        · rw [if_pos (by simp [hrest])] at hloop
          have hlen : rest.length < n := by
            rw [List.length_append, List.length_cons] at hn
            omega
          obtain ⟨r, hr, houtcome⟩ := ih rest s' map' hlen fun cs' hcs' =>
            hplain cs' (List.mem_cons_of_mem cs hcs')
          exact ⟨r, hloop.trans hr, houtcome.cons haccepted hbits⟩

theorem bitAt_zeroWords {nbits : ℕ} (hi : i < nbits) (map : ℕ → BitVec 64) :
    bitAt (zeroWords map 0 (bitsToLongs nbits)) i = false := by
  have hword : 0 ≤ i / 64 ∧ i / 64 < 0 + bitsToLongs nbits := by
    rw [bitsToLongs]
    omega
  rw [bitAt, zeroWords, if_pos hword]
  exact BitVec.getLsbD_zero

/-- A list is accepted exactly when each of its items is, and then the bitmap has the bits that they
denote. -/
theorem bitmapParselist_spec (buf : List UInt8) (map : ℕ → BitVec 64) (nbits : ℕ) (hnbits : nbits < 2 ^ 32)
    (hplain : ∀ cs ∈ itemsOf buf, Plain nbits cs) :
    ∃ code map', bitmapParselist buf map nbits = some (code, map') ∧
      (code = 0 ↔ ∀ cs ∈ itemsOf buf, Accepted nbits cs) ∧ (code = 0 ∨ code = eINVAL ∨ code = eRANGE) ∧
      (code = 0 → ∀ i, i < nbits → (bitAt map' i = true ↔ ∃ cs ∈ itemsOf buf, DenotedBy cs i)) := by
  obtain ⟨⟨code, map'⟩, hloop, houtcome⟩ := parseLoop_spec hnbits (buf.length + 1) buf scanInit
    (zeroWords map 0 (bitsToLongs nbits)) (Nat.lt_succ_self _) hplain
  refine ⟨code, map', hloop, ?_⟩
  rcases houtcome with ⟨hzero, hall, hbits⟩ | ⟨herror, hno⟩
  · refine ⟨iff_of_true hzero hall, .inl hzero, fun _ i hi => ?_⟩
    rw [hbits i, bitAt_zeroWords hi]
    exact or_iff_right Bool.false_ne_true
  · have hne : code ≠ 0 := by
      intro hzero
      have herror' : code = eINVAL ∨ code = eRANGE := herror
      rw [hzero] at herror'
      exact absurd herror' (by decide)
    exact ⟨iff_of_false hne hno, .inr herror, fun h => absurd h hne⟩

/-! ## Short items -/

theorem decimal_short {ds : List UInt8} (hds : Digits ds) (hlen : ds.length ≤ 9) : decimal ds < 10 ^ 9 :=
  lt_of_lt_of_le (decimal_lt hds.2) (Nat.pow_le_pow_right (by omega) hlen)

theorem small_of_short (hlen : cs.length ≤ 9) (hitem : IsItem cs item) (nbits : ℕ) : item.Small nbits := by
  obtain ⟨ws, body, ws', -, hbody, -, rfl⟩ := hitem
  simp only [List.length_append] at hlen
  cases hbody with
  | blank => trivial
  | single _ hds =>
    have hn := decimal_short hds (by omega)
    exact lt_trans hn (by decide)
  | range ds es hds hes =>
    simp only [List.length_append, List.length_cons] at hlen
    have hn := decimal_short hds (by omega)
    have hm := decimal_short hes (by omega)
    refine ⟨by omega, by omega, fun _ _ => by omega⟩
  | groups ds es us gs hds hes hus hgs =>
    simp only [List.length_append, List.length_cons] at hlen
    have hn := decimal_short hds (by omega)
    have hm := decimal_short hes (by omega)
    have hu := decimal_short hus (by omega)
    have hg := decimal_short hgs (by omega)
    refine ⟨by omega, by omega, by omega, by omega, fun hle _ _ _ => ⟨?_, by omega⟩⟩
    have hdiv := Nat.div_mul_le_self (decimal es - decimal ds) (decimal gs)
    rw [stepEnd, Nat.add_mul, Nat.one_mul]
    omega

/-- `0-31:1/4` -/
def everyFourth : List UInt8 := [48, 45, 51, 49, 58, 49, 47, 52]

theorem bitmapParselist_spec_everyFourth :
    ∃ code map', bitmapParselist everyFourth (fun _ => 0) 32 = some (code, map') ∧
    (code = 0 ↔ ∀ cs ∈ itemsOf everyFourth, Accepted 32 cs) ∧ (code = 0 ∨ code = eINVAL ∨ code = eRANGE) ∧
    (code = 0 → ∀ i, i < 32 → (bitAt map' i = true ↔ ∃ cs ∈ itemsOf everyFourth, DenotedBy cs i)) := by
  apply bitmapParselist_spec everyFourth (fun _ => 0) 32 (by decide)
  intro cs hcs
  obtain rfl : cs = everyFourth := List.mem_singleton.mp hcs
  have hnone : Spaces [] := fun c hc => absurd hc List.not_mem_nil
  have hspells :=
    Spells.groups [48] [51, 49] [49] [52] (by decide +kernel) (by decide +kernel)
      (by decide +kernel)
    (by decide +kernel)
  exact
    { count := by decide
      fits := fun item hitem => .inl (small_of_short (by decide) hitem 32)
      placed := .inr (.inl ⟨_, [], everyFourth, [], hnone, hspells, hnone, rfl⟩) }

/-- `1,,2` is accepted although it has an item that is none, and so is `4294967296` for eight bits. -/
theorem blank_item_accepted :
    (bitmapParselist [49, 44, 44, 50] (fun _ => 0) 8).map Prod.fst = some 0 ∧ [] ∈ itemsOf [49, 44, 44, 50] ∧
    (∀ item, Spells [] item → item = .blank) ∧
    (bitmapParselist [52, 50, 57, 52, 57, 54, 55, 50, 57, 54] (fun _ => 0) 8).map Prod.fst = some 0 ∧
    ¬decimal [52, 50, 57, 52, 57, 54, 55, 50, 57, 54] < 8 := by
  refine ⟨by decide +kernel, by decide, ?_, by decide +kernel, by decide⟩
  intro item hbody
  generalize hnil : ([] : List UInt8) = cs at hbody
  cases hbody with
  | blank => rfl
  | single _ hds => exact absurd hnil.symm hds.1
  | range ds => exact absurd (congrArg List.length hnil) (by simp)
  | groups ds => exact absurd (congrArg List.length hnil) (by simp)

end Skp.Utils
