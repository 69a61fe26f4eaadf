import Mathlib
import Skp.Foundations.ByteMem

/-! # Lists linked through words

Each item has a word; in a linked list it encodes the next item. A list of writes says which words a
step sets. Putting an item in front of a list, or a list in front of another, takes one write,
linking the items of a new list one for each item. -/

namespace Skp.Foundations
set_option autoImplicit false

section WordLinks
variable {O W : Type*}

/-- The word of each item encodes the next. -/
def Linked (enc : Option O → W) (word : O → W) : List O → Prop
  | [] => True
  | o :: rest => word o = enc rest.head? ∧ Linked enc word rest

/-- The write that puts one list in front of another: it sets the last item's word. -/
def joinWrites (objs list : List O) : List (O × Option O) :=
  match objs.getLast? with
  | none => []
  | some o => [(o, list.head?)]

/-- The writes that link the items of a list. -/
def chainWrites : List O → List (O × Option O)
  | [] => []
  | o :: rest => (o, rest.head?) :: chainWrites rest

variable {enc : Option O → W} {word word' : O → W} {l l' : List O} {o : O} {v : W} {ws : List (O × Option O)}

theorem Linked.congr (h : Linked enc word l) (heq : ∀ o ∈ l, word' o = word o) : Linked enc word' l := by
  induction l with
  | nil => trivial
  | cons o rest ih =>
    exact ⟨(heq o List.mem_cons_self).trans h.1, ih h.2 fun p hp => heq p (List.mem_cons_of_mem _ hp)⟩

theorem Linked.suffix (h : Linked enc word l) (hsuffix : l' <:+ l) : Linked enc word l' := by
  induction l with
  | nil => exact List.suffix_nil.mp hsuffix ▸ trivial
  | cons o rest ih =>
    rcases List.suffix_cons_iff.mp hsuffix with rfl | hrest
    · exact h
    · exact ih h.2 hrest

theorem mem_joinWrites {w : O × Option O} (hw : w ∈ joinWrites l l') : w.1 ∈ l := by
  rw [joinWrites] at hw
  cases hlast : l.getLast? with
  | none => simp [hlast] at hw
  | some o =>
    rw [hlast, List.mem_singleton] at hw
    rw [hw]
    exact List.mem_of_getLast? hlast

theorem mem_chainWrites {w : O × Option O} (hw : w ∈ chainWrites l) : w.1 ∈ l := by
  induction l with
  | nil => cases hw
  | cons o rest ih =>
    rcases List.mem_cons.mp hw with rfl | hw
    · exact List.mem_cons_self
    · exact List.mem_cons_of_mem _ (ih hw)

section Words
variable [DecidableEq O]

def applyWrites (enc : Option O → W) (word : O → W) (ws : List (O × Option O)) : O → W :=
  ws.foldl (fun word w => Function.update word w.1 (enc w.2)) word

theorem Linked.update (h : Linked enc word l) (ho : o ∉ l) : Linked enc (Function.update word o v) l := by
  apply h.congr
  intro p hp
  apply Function.update_of_ne
  rintro rfl
  exact ho hp

/-- An item comes in front. -/
theorem Linked.cons (h : Linked enc word l) (ho : o ∉ l) :
    Linked enc (Function.update word o (enc l.head?)) (o :: l) :=
  ⟨Function.update_self .., h.update ho⟩

theorem applyWrites_of_notMem (ho : ∀ w ∈ ws, w.1 ≠ o) : applyWrites enc word ws o = word o := by
  induction ws generalizing word with
  | nil => rfl
  | cons w ws ih =>
    have hne : o ≠ w.1 := (ho w List.mem_cons_self).symm
    rw [applyWrites, List.foldl_cons]
    exact (ih fun u hu => ho u (List.mem_cons_of_mem _ hu)).trans (Function.update_of_ne hne ..)

theorem Linked.applyWrites (h : Linked enc word l) (hl : ∀ w ∈ ws, w.1 ∉ l) :
    Linked enc (applyWrites enc word ws) l := by
  apply h.congr
  intro o ho
  apply applyWrites_of_notMem
  rintro w hw rfl
  exact hl w hw ho

/-- A list comes in front of another. -/
theorem Linked.join (h : Linked enc word l) (h' : Linked enc word l') (hn : (l ++ l').Nodup) :
    Linked enc (Foundations.applyWrites enc word (joinWrites l l')) (l ++ l') := by
  induction l with
  | nil => exact h'
  | cons o rest ih =>
    rw [List.cons_append, List.nodup_cons] at hn
    cases rest with
    | nil => exact h'.cons hn.1
    | cons o' rest =>
      have hlinked := ih h.2 hn.2
      have hjoin : joinWrites (o :: o' :: rest) l' = joinWrites (o' :: rest) l' := by simp [joinWrites]
      rw [hjoin]
      refine ⟨?_, hlinked⟩
      rw [applyWrites_of_notMem]
      · exact h.1
      · rintro w hw rfl
        exact hn.1 (List.mem_append_left _ (mem_joinWrites hw))

theorem linked_chainWrites (word : O → W) (hn : l.Nodup) :
    Linked enc (applyWrites enc word (chainWrites l)) l := by
  induction l generalizing word with
  | nil => trivial
  | cons o rest ih =>
    rw [List.nodup_cons] at hn
    refine ⟨?_, ih _ hn.2⟩
    have hword : applyWrites enc (Function.update word o (enc rest.head?)) (chainWrites rest) o =
        Function.update word o (enc rest.head?) o := by
      apply applyWrites_of_notMem
      rintro w hw rfl
      exact hn.1 (mem_chainWrites hw)
    exact hword.trans (Function.update_self ..)

end Words

end WordLinks

/-! ## Words in byte memory

The words of linked items, as bytes at their addresses. As long as no two words overlap, storing the
words of a list of writes does to the words what the writes do, and it changes no byte outside of
them. -/

section WordStore
variable {O : Type*} {addr : O → ℕ} {w : ℕ} {enc : Option O → List UInt8} {m : ℕ → UInt8}
    {ws : List (O × Option O)} {S : Set O}
  {o : O} {a : ℕ}

def storeWords (addr : O → ℕ) (enc : Option O → List UInt8) (m : ℕ → UInt8)
    (ws : List (O × Option O)) : ℕ → UInt8 :=
  ws.foldl (fun m x => writeBytes m (addr x.1) (enc x.2)) m

/-- The words of the items of `S` have `w` bytes and do not overlap. -/
structure WordsApart (addr : O → ℕ) (w : ℕ) (enc : Option O → List UInt8) (S : Set O) : Prop where
  length : ∀ x, (enc x).length = w
  apart : ∀ x y, x ∈ S → y ∈ S → x ≠ y → addr x + w ≤ addr y ∨ addr y + w ≤ addr x

theorem storeWords_of_outside (hlen : ∀ x, (enc x).length = w)
    (ha : ∀ x ∈ ws, a < addr x.1 ∨ addr x.1 + w ≤ a) :
    storeWords addr enc m ws a = m a := by
  induction ws generalizing m with
  | nil => rfl
  | cons x ws ih =>
    have hfirst : writeBytes m (addr x.1) (enc x.2) a = m a := by
      apply writeBytes_of_outside
      rw [hlen]
      exact ha x List.mem_cons_self
    rw [storeWords, List.foldl_cons]
    exact (ih fun y hy => ha y (List.mem_cons_of_mem _ hy)).trans hfirst

variable [DecidableEq O]

theorem readBytes_storeWords (h : WordsApart addr w enc S) (hws : ∀ x ∈ ws, x.1 ∈ S) (ho : o ∈ S) :
    readBytes (storeWords addr enc m ws) (addr o) w =
      applyWrites enc (fun o => readBytes m (addr o) w) ws o := by
  have hwords (m : ℕ → UInt8) (word : O → List UInt8) (hsame : ∀ o ∈ S, readBytes m (addr o) w = word o) :
      readBytes (storeWords addr enc m ws) (addr o) w = applyWrites enc word ws o := by
    induction ws generalizing m word with
    | nil => exact hsame o ho
    | cons x ws ih =>
      rw [storeWords, List.foldl_cons, applyWrites, List.foldl_cons]
      apply ih fun y hy => hws y (List.mem_cons_of_mem _ hy)
      intro y hy
      by_cases heq : y = x.1
      · rw [heq, Function.update_self]
        have hself : readBytes (writeBytes m (addr x.1) (enc x.2)) (addr x.1) (enc x.2).length =
            enc x.2 := readBytes_writeBytes_self
        rwa [h.length] at hself
      · rw [Function.update_of_ne heq, ← hsame y hy]
        apply readBytes_congr
        intro i hi
        apply writeBytes_of_outside
        have hapart := h.apart y x.1 hy (hws x List.mem_cons_self) heq
        rw [h.length]
        omega
  exact hwords m _ fun _ _ => rfl

end WordStore

end Skp.Foundations
