import Skp.Mm.UmallocPages

/-! # The bytes of the blocks

No two blocks share a byte, so a step leaves the bytes of a block that a user keeps as they are, and
the free lists of every cache stay linked through the memory. -/
namespace Skp.Mm
set_option autoImplicit false
open Skp.Foundations

variable {T : Type} {s s' : UmallocState T} {x y b : UserBlock} {a : ℕ} {i : CacheIndex}

namespace UserBlock

/-- Its pages. -/
def home : UserBlock → ℕ × ℕ
  | .obj i o => slabBlock i o.1
  | .pages b => b

/-- An object, free or not, of a live page, or a block of pages. -/
def Known (s : UmallocState T) : UserBlock → Prop
  | .obj i o => o.1 ∈ (s.cache i).live ∧ o.2 < (classOf i).objects
  | .pages b => b ∈ s.blocks

def Covers (b : UserBlock) (a : ℕ) : Prop := b.addr ≤ a ∧ a < b.addr + b.size

/-- An object that fits on its page. -/
def Fits : UserBlock → Prop
  | .obj i o => o.2 < (classOf i).objects
  | .pages _ => True

/-- The act is neither the block's free nor a write in it. -/
def Spares (b : UserBlock) : UmallocAct T → Prop
  | .slab i a => ∀ o, freedObj a = some o → b ≠ .obj i o
  | .givePages b' => b ≠ .pages b'
  | .write b' _ _ => b ≠ b'
  | _ => True

theorem Known.fits (h : x.Known s) : x.Fits := by
  cases x with
  | obj i o => exact h.2
  | pages b => trivial

theorem Known.taken (h : x.Known s) : s.Taken x.home := by
  cases x with
  | obj i o => exact Or.inr ⟨i, h.1, rfl⟩
  | pages b => exact Or.inl h

theorem Fits.page (h : x.Fits) (ha : x.Covers a) : virtToPage a ∈ span x.home := by
  have hpos : 0 < vpageSize := by decide
  cases x with
  | obj i o =>
    obtain ⟨hlow, hhigh⟩ := ha
    have hroom := (classOf_ok i).2.2.2
    have hlast : (classOf i).size * o.2 + (classOf i).size ≤ vpageSize * 2 ^ (classOf i).order := by
      calc (classOf i).size * o.2 + (classOf i).size = (o.2 + 1) * (classOf i).size := by ring
        _ ≤ (classOf i).objects * (classOf i).size := Nat.mul_le_mul_right _ h
        _ ≤ _ := hroom
    simp only [addr, size, objAddr, pageToVirt] at hlow hhigh
    constructor
    · exact (Nat.le_div_iff_mul_le hpos).mpr (by
        show o.1 * vpageSize ≤ a
        rw [Nat.mul_comm]
        omega)
    · exact (Nat.div_lt_iff_lt_mul hpos).mpr (by
        show a < (o.1 + 2 ^ (classOf i).order) * vpageSize
        rw [Nat.add_mul, Nat.mul_comm o.1, Nat.mul_comm (2 ^ _)]
        omega)
  | pages b =>
    obtain ⟨hlow, hhigh⟩ := ha
    simp only [addr, size, pageToVirt] at hlow hhigh
    constructor
    · exact (Nat.le_div_iff_mul_le hpos).mpr (by
        show b.1 * vpageSize ≤ a
        rw [Nat.mul_comm]
        omega)
    · exact (Nat.div_lt_iff_lt_mul hpos).mpr (by
        show a < (b.1 + 2 ^ b.2) * vpageSize
        rw [Nat.add_mul, Nat.mul_comm b.1, Nat.mul_comm (2 ^ _)]
        omega)

theorem obj_apart {p n n' : ℕ} (hne : n ≠ n') (ha : (obj i (p, n)).Covers a) : ¬(obj i (p, n')).Covers a := by
  obtain ⟨hlow, hhigh⟩ := ha
  rintro ⟨hlow', hhigh'⟩
  simp only [addr, size, objAddr] at hlow hhigh hlow' hhigh'
  have hstep {j k : ℕ} (hjk : j < k) : (classOf i).size * j + (classOf i).size ≤ (classOf i).size * k := by
    calc (classOf i).size * j + (classOf i).size = (classOf i).size * (j + 1) := by ring
      _ ≤ (classOf i).size * k := Nat.mul_le_mul_left _ hjk
  rcases Nat.lt_or_gt_of_ne hne with hlt | hlt
  · have := hstep hlt
    omega
  · have := hstep hlt
    omega

end UserBlock

theorem Owners.held_known (h : Owners s) (hx : x.Held s) : x.Known s := by
  cases x with
  | obj i o => exact (h.cache i).live_of_mem .user hx
  | pages b => exact hx

theorem Owners.known_apart (h : Owners s) (hx : x.Known s) (hy : y.Known s) (hne : x ≠ y)
    (ha : x.Covers a) : ¬y.Covers a := by
  intro ha'
  have hhome : x.home = y.home :=
    h.nodes.unique (h.taken _ hx.taken) (h.taken _ hy.taken) (hx.fits.page ha) (hy.fits.page ha')
  cases x with
  | obj i o =>
    cases y with
    | obj j o' =>
      have hslab : slabBlock i o.1 = slabBlock j o'.1 := hhome
      have hpage : o.1 = o'.1 := (Prod.ext_iff.mp hslab).1
      have hcache : i = j := h.once i j o.1 hx.1 (hpage ▸ hy.1)
      subst hcache
      obtain ⟨p, n⟩ := o
      obtain ⟨p', n'⟩ := o'
      obtain rfl : p = p' := hpage
      have hn : n ≠ n' := fun heq => hne (heq ▸ rfl)
      exact UserBlock.obj_apart hn ha ha'
    | pages b =>
      have hin : slabBlock i o.1 ∈ s.blocks := by
        have hb : b ∈ s.blocks := hy
        have heq : slabBlock i o.1 = b := hhome
        rwa [heq]
      exact h.apart i o.1 hx.1 hin
  | pages b =>
    cases y with
    | obj j o' =>
      have hin : slabBlock j o'.1 ∈ s.blocks := by
        have hb : b ∈ s.blocks := hx
        have heq : b = slabBlock j o'.1 := hhome
        rwa [← heq]
      exact h.apart j o'.1 hy.1 hin
    | pages b' => exact hne (congrArg UserBlock.pages hhome)

theorem Owners.new_apart (h : Owners s) (hx : x.Fits) (halloc : s.Allocated x.home)
    (hfree : ¬s.Taken x.home) (hy : y.Known s)
    (ha : x.Covers a) : ¬y.Covers a :=
  fun ha' => h.ne_of_not_taken halloc hfree hy.taken (hx.page ha) (hy.fits.page ha')

theorem UserBlock.Known.takenPage (hx : x.Known s) (ha : x.Covers a) : s.TakenPage (virtToPage a) := by
  have hspan := hx.fits.page ha
  cases x with
  | obj i o => exact Or.inr ⟨i, o.1, hx.1, hspan⟩
  | pages b => exact Or.inl ⟨b, hx, hspan⟩

/-! ## The words of a step -/

variable [DecidableEq T]

section Words
variable {act : SlabAct T} {c : SlabState T}

/-- The words that a step of a cache writes are in blocks other than `y`. -/
theorem Owners.storeWords_frame (h : Owners s) (hmay : s.MaySlab i act)
    (hs : slabStep (umallocParams i) (s.cache i) act = some c)
    (hy : y.Known s) (hnot : ∀ w ∈ slabLinks (umallocParams i) (s.cache i) act, y ≠ .obj i w.1)
    (ha : y.Covers a) :
    storeWords (objAddr i) (freepointer i) s.mem (slabLinks (umallocParams i) (s.cache i) act)
      a = s.mem a := by
  apply storeWords_of_outside (w := 8) fun o => length_leBytes 8 _
  intro w hw
  obtain ⟨hpage, hlt, -⟩ := slabLinks_apart (h.cache i) hs hw
  have hword : ¬(objAddr i w.1 ≤ a ∧ a < objAddr i w.1 + 8) := by
    rintro ⟨hlow, hhigh⟩
    have hcovers : (UserBlock.obj i w.1).Covers a := by
      have hsize := (classOf_ok i).1
      exact ⟨hlow, show a < objAddr i w.1 + (classOf i).size by omega⟩
    rcases hpage with hlive | hnew
    · exact h.known_apart (x := .obj i w.1) ⟨hlive, hlt⟩ hy (fun heq => hnot w hw heq.symm) hcovers ha
    · obtain ⟨halloc, hfree⟩ := hmay _ hnew
      exact h.new_apart (x := .obj i w.1) hlt halloc hfree hy hcovers ha
  omega

end Words

/-! ## Blocks that are kept -/

theorem Owners.held_step {act : UmallocAct T} (h : Owners s) (hs : umallocStep s act = some s')
    (hb : b.Held s) (hspare : b.Spares act) :
    b.Held s' ∧ ∀ a, b.Covers a → s'.mem a = s.mem a := by
  cases act with
  | page nid act =>
    obtain ⟨-, heq⟩ := Option.ite_none_right_eq_some.mp hs
    obtain ⟨n, -, rfl⟩ := Option.map_eq_some_iff.mp heq
    exact ⟨by cases b <;> exact hb, fun _ _ => rfl⟩
  | slab i act =>
    obtain ⟨hmay, heq⟩ := Option.ite_none_right_eq_some.mp hs
    obtain ⟨c, hc, rfl⟩ := Option.map_eq_some_iff.mp heq
    have hmove := slabStep_move hc
    -- the object is still on the list of those handed out
    have hheld (o : Obj) (ho : o ∈ (s.cache i).held) (hne : b = .obj i o) : o ∈ c.held := by
      cases hhand : handedObj (umallocParams i) (s.cache i) act with
      | some o' =>
        rw [hmove.handed o' hhand]
        exact List.mem_cons_of_mem _ ho
      | none =>
        cases hfreed : freedObj act with
        | some o' =>
          rw [(hmove.freed o' hfreed).2]
          apply (List.mem_erase_of_ne ?_).mpr ho
          rintro rfl
          exact hspare o hfreed hne
        | none =>
          rw [hmove.rest hhand hfreed]
          exact ho
    refine ⟨?_, fun a ha => h.storeWords_frame hmay hc (h.held_known hb) ?_ ha⟩
    · cases b with
      | pages b => exact hb
      | obj j o =>
        show o ∈ (Function.update s.cache i c j).held
        by_cases hj : j = i
        · subst hj
          rw [Function.update_self]
          exact hheld o hb rfl
        · rw [Function.update_of_ne hj]
          exact hb
    · rintro w hw rfl
      exact (slabLinks_apart (h.cache i) hc hw).2.2 (hheld w.1 hb rfl)
  | takePages b' =>
    obtain ⟨-, heq⟩ := Option.ite_none_right_eq_some.mp hs
    obtain rfl := Option.some.inj heq
    refine ⟨?_, fun _ _ => rfl⟩
    cases b with
    | obj j o => exact hb
    | pages b => exact Finset.mem_insert_of_mem hb
  | givePages b' =>
    obtain ⟨-, heq⟩ := Option.ite_none_right_eq_some.mp hs
    obtain rfl := Option.some.inj heq
    refine ⟨?_, fun _ _ => rfl⟩
    cases b with
    | obj j o => exact hb
    | pages b => exact Finset.mem_erase.mpr ⟨fun heq => hspare (congrArg UserBlock.pages heq), hb⟩
  | write b' k v =>
    obtain ⟨⟨hheld, hk⟩, heq⟩ := Option.ite_none_right_eq_some.mp hs
    obtain rfl := Option.some.inj heq
    refine ⟨by cases b <;> exact hb, fun a ha => Function.update_of_ne ?_ _ _⟩
    rintro rfl
    have hcovers : b'.Covers (b'.addr + k) := ⟨Nat.le_add_right _ _, Nat.add_lt_add_left hk _⟩
    exact h.known_apart (h.held_known hb) (h.held_known hheld) hspare ha hcovers
  | outside x v =>
    obtain ⟨hout, heq⟩ := Option.ite_none_left_eq_some.mp hs
    obtain rfl := Option.some.inj heq
    refine ⟨by cases b <;> exact hb, fun a ha => Function.update_of_ne ?_ _ _⟩
    rintro rfl
    exact hout ((h.held_known hb).takenPage ha)

/-! ## The free lists -/

/-- The lists of every cache are linked through the memory. -/
def Threads (s : UmallocState T) : Prop := ∀ i, Threaded (freepointer i) (freeWord i s.mem) (s.cache i)

omit [DecidableEq T] in
theorem threads_init : Threads (umallocInit : UmallocState T) := fun _ => threaded_init _ _

omit [DecidableEq T] in
theorem Owners.listed_known (h : Owners s) {pl : Place T} {o : Obj} (ho : o ∈ objsAt (s.cache i) [] pl) :
    (UserBlock.obj i o).Known s := (h.cache i).live_of_mem pl ho

theorem covers_word {o : Obj} {k : ℕ} (hk : k < 8) : (UserBlock.obj i o).Covers (objAddr i o + k) := by
  have hsize := (classOf_ok i).1
  exact ⟨Nat.le_add_right _ _, Nat.add_lt_add_left (show k < (classOf i).size by omega) _⟩

omit [DecidableEq T] in
theorem Threads.setMem (h : Threads s) {m : ℕ → UInt8}
    (hsame : ∀ (i : CacheIndex) (pl : Place T), pl ≠ .user → ∀ o ∈ objsAt (s.cache i) [] pl, ∀ a,
      (UserBlock.obj i o).Covers a →
      m a = s.mem a) : Threads { s with mem := m } := by
  intro i
  apply (h i).congr
  intro pl hpl o ho
  apply readBytes_congr
  intro k hk
  exact hsame i pl hpl o ho _ (covers_word hk)

omit [DecidableEq T] in
theorem Owners.listed_not_held (h : Owners s) {pl : Place T} (hpl : pl ≠ .user) {o : Obj}
    (ho : o ∈ objsAt (s.cache i) [] pl)
    (hb : b.Held s) : b ≠ .obj i o := by
  rintro rfl
  exact ((h.cache i).listed pl hpl ho).2.2 hb

omit [DecidableEq T] in
/-- Two objects of a cache, on live pages or on its new one, have words that do not overlap. -/
theorem Owners.wordsApart {act : SlabAct T} (h : Owners s) (hmay : s.MaySlab i act) :
    WordsApart (objAddr i) 8 (freepointer i)
      {o | (o.1 ∈ (s.cache i).live ∨ newPage act = some o.1) ∧ o.2 < (classOf i).objects} where
  length := fun _ => length_leBytes 8 _
  apart := by
    rintro o o' ⟨hpage, hlt⟩ ⟨hpage', hlt'⟩ hne
    have hapart (a : ℕ) (ha : (UserBlock.obj i o).Covers a) : ¬(UserBlock.obj i o').Covers a := by
      intro ha'
      rcases hpage with hlive | hnew
      · rcases hpage' with hlive' | hnew'
        · exact h.known_apart (x := .obj i o) (y := .obj i o') ⟨hlive, hlt⟩ ⟨hlive', hlt'⟩
            (fun heq => hne (by injection heq)) ha ha'
        · obtain ⟨halloc, hfree⟩ := hmay _ hnew'
          exact h.new_apart (x := .obj i o') (y := .obj i o) hlt' halloc hfree ⟨hlive, hlt⟩ ha' ha
      · rcases hpage' with hlive' | hnew'
        · obtain ⟨halloc, hfree⟩ := hmay _ hnew
          exact h.new_apart (x := .obj i o) (y := .obj i o') hlt halloc hfree ⟨hlive', hlt'⟩ ha ha'
        · obtain ⟨p, n⟩ := o
          obtain ⟨p', n'⟩ := o'
          obtain rfl : p = p' := Option.some.inj (hnew.symm.trans hnew')
          exact UserBlock.obj_apart (fun heq : n = n' => hne (by rw [heq])) ha ha'
    have hsize := (classOf_ok i).1
    rcases Nat.le_total (objAddr i o) (objAddr i o') with hle | hle
    · left
      by_contra hgt
      exact hapart (objAddr i o') ⟨hle, show objAddr i o' < objAddr i o + (classOf i).size by omega⟩
        (covers_word (by decide : 0 < 8))
    · right
      by_contra hgt
      exact hapart (objAddr i o) (covers_word (by decide : 0 < 8))
        ⟨hle, show objAddr i o < objAddr i o' + (classOf i).size by omega⟩

theorem Threads.slab {act : SlabAct T} {c : SlabState T} (h : Threads s) (hown : Owners s)
    (hmay : s.MaySlab i act)
    (hs : slabStep (umallocParams i) (s.cache i) act = some c) (d : ℕ → PageDesc) :
    Threads { s with
      cache := Function.update s.cache i c
      desc := d
      mem :=
        storeWords (objAddr i) (freepointer i) s.mem
          (slabLinks (umallocParams i) (s.cache i) act) } := by
  intro j
  by_cases hj : j = i
  · subst hj
    have hstep := slabStep_threaded (hown.cache j) (h j) hs
    have hinv := slabStep_inv (hown.cache j) hs
    show Threaded (freepointer j) _ (Function.update s.cache j c j)
    rw [Function.update_self]
    apply hstep.congr
    intro pl hpl o ho
    obtain ⟨hlive, hlt, -⟩ := hinv.listed pl hpl ho
    exact readBytes_storeWords (hown.wordsApart hmay)
      (fun w hw => ⟨(slabLinks_apart (hown.cache j) hs hw).1, (slabLinks_apart (hown.cache j) hs hw).2.1⟩)
      ⟨(slabStep_move hs).live _ hlive, hlt⟩
  · show Threaded (freepointer j) _ (Function.update s.cache i c j)
    rw [Function.update_of_ne hj]
    apply (h j).congr
    intro pl _ o ho
    apply readBytes_congr
    intro k hk
    exact hown.storeWords_frame hmay hs (hown.listed_known ho)
      (fun w _ heq => hj (by injection heq)) (covers_word hk)

theorem threads_step {act : UmallocAct T} (hown : Owners s) (h : Threads s)
    (hs : umallocStep s act = some s') : Threads s' := by
  cases act with
  | page nid act =>
    obtain ⟨-, heq⟩ := Option.ite_none_right_eq_some.mp hs
    obtain ⟨n, -, rfl⟩ := Option.map_eq_some_iff.mp heq
    exact h
  | slab i act =>
    obtain ⟨hmay, heq⟩ := Option.ite_none_right_eq_some.mp hs
    obtain ⟨c, hc, rfl⟩ := Option.map_eq_some_iff.mp heq
    exact h.slab hown hmay hc _
  | takePages b =>
    obtain ⟨-, heq⟩ := Option.ite_none_right_eq_some.mp hs
    obtain rfl := Option.some.inj heq
    exact h
  | givePages b =>
    obtain ⟨-, heq⟩ := Option.ite_none_right_eq_some.mp hs
    obtain rfl := Option.some.inj heq
    exact h
  | write b k v =>
    obtain ⟨⟨hheld, hk⟩, heq⟩ := Option.ite_none_right_eq_some.mp hs
    obtain rfl := Option.some.inj heq
    apply h.setMem
    intro i pl hpl o ho a ha
    apply Function.update_of_ne
    rintro rfl
    have hcovers : b.Covers (b.addr + k) := ⟨Nat.le_add_right _ _, Nat.add_lt_add_left hk _⟩
    exact hown.known_apart (hown.held_known hheld) (hown.listed_known ho)
      (hown.listed_not_held hpl ho hheld) hcovers ha
  | outside x v =>
    obtain ⟨hout, heq⟩ := Option.ite_none_left_eq_some.mp hs
    obtain rfl := Option.some.inj heq
    apply h.setMem
    intro i pl _ o ho a ha
    apply Function.update_of_ne
    rintro rfl
    exact hout ((hown.listed_known ho).takenPage ha)

end Skp.Mm
