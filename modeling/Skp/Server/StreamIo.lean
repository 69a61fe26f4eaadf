import Skp.Errno
import Skp.Foundations.ByteMem

/-! # Reading and writing a stream socket

`stream_read` and `stream_write` of `socket.c` over every way in which the kernel answers. The two
loops differ in the call that moves the bytes only. A transfer takes the pointer on by the length
that was asked for, and the length by what was moved; so the pointer is right as long as the first
transfer moves everything. -/
namespace Skp.Server
set_option autoImplicit false
open Skp.Foundations

/-- What `select` gives: a descriptor, none before the timeout, or a failure with its `errno`. -/
inductive SelectAnswer where
  | ready
  | empty
  | failed (errno : ℕ)
deriving DecidableEq

/-- What `read` or `write` gives: a failure, 0, or bytes moved. -/
inductive IoAnswer (D : Type) where
  | failed (errno : ℕ)
  | eof
  | moved (d : D)

/-- `check_channel` -/
def checkChannel : SelectAnswer → ℤ
  | .ready => 0
  | .empty => eTIMEDOUT
  | .failed errno => if -(errno : ℤ) = eINTR then eTIMEDOUT else -(errno : ℤ)

section Loop
variable {D : Type} (size : D → ℕ)

/-- The value after the loop. -/
def ioDone (buff : ℕ) : ℤ := if buff = 0 then eTIMEDOUT else buff

/-- The loop of both functions: `buff` is the offset of the pointer, `l` what is left. The result is
the return value, with the offset of each transfer and what it moved; `none` while the kernel has
not answered. -/
def ioLoop (buff l : ℕ) : List (SelectAnswer × IoAnswer D) → Option (ℤ × List (ℕ × D))
  | [] => if l = 0 then some (ioDone buff, []) else none
  | (sel, io) :: as =>
      if l = 0 then some (ioDone buff, [])
      else if checkChannel sel = 0 then
        match io with
        | .failed errno => some (-(errno : ℤ), [])
        | .eof => some ((buff : ℤ), [])
        | .moved d => (ioLoop (buff + l) (l - size d) as).map fun r => (r.1, (buff, d) :: r.2)
      else if checkChannel sel ≠ eTIMEDOUT then some (checkChannel sel, [])
      else some (ioDone buff, [])

/-- A call with its check of the arguments. -/
def ioCall (fd : ℤ) (l : ℕ) (as : List (SelectAnswer × IoAnswer D)) : Option (ℤ × List (ℕ × D)) :=
  if fd < 0 ∨ l = 0 then some (eINVAL, []) else ioLoop size 0 l as

/-- The kernel moves between 1 and the asked number of bytes, and an error has its number. -/
def answersOk (l : ℕ) : List (SelectAnswer × IoAnswer D) → Prop
  | [] => True
  | (sel, io) :: as =>
      (∀ errno, sel = .failed errno → 0 < errno) ∧
        match io with
        | .failed errno => 0 < errno
        | .eof => True
        | .moved d => l = 0 ∨ (0 < size d ∧ size d ≤ l ∧ answersOk (l - size d) as)

end Loop

/-- `stream_write`: the return value and the bytes sent from the memory `m` at `b`. -/
def streamWrite (fd : ℤ) (m : ℕ → UInt8) (l : ℕ) (as : List (SelectAnswer × IoAnswer ℕ)) :
    Option (ℤ × List UInt8) :=
  (ioCall id fd l as).map fun r => (r.1, r.2.flatMap fun t => readBytes m t.1 t.2)

/-- `stream_read`: the return value and the memory at `b` afterwards. -/
def streamRead (fd : ℤ) (m : ℕ → UInt8) (l : ℕ) (as : List (SelectAnswer × IoAnswer (List UInt8))) :
    Option (ℤ × (ℕ → UInt8)) :=
  (ioCall List.length fd l as).map fun r => (r.1, r.2.foldl (fun m t => writeBytes m t.1 t.2) m)

/-- The bytes that `stream_read` has got. -/
def received (fd : ℤ) (l : ℕ) (as : List (SelectAnswer × IoAnswer (List UInt8))) : List UInt8 :=
  ((ioCall List.length fd l as).map fun r => (r.2.map Prod.snd).flatten).getD []

/-! ## What should be -/

/-- For every buffer, the bytes sent are the first `n` of it, and without an error `n` is returned. -/
def WritesInOrder (fd : ℤ) (l : ℕ) (as : List (SelectAnswer × IoAnswer ℕ)) : Prop :=
  ∀ m rc sent, streamWrite fd m l as = some (rc, sent) → ∃ n, sent = readBytes m 0 n ∧ (0 ≤ rc → rc = n)

/-- For every buffer, what was received is at its start, nothing beyond `l` bytes is touched, and
without an error the number of bytes received is returned. -/
def ReadsInOrder (fd : ℤ) (l : ℕ) (as : List (SelectAnswer × IoAnswer (List UInt8))) : Prop :=
  ∀ m rc m', streamRead fd m l as = some (rc, m') →
    readBytes m' 0 (received fd l as).length = received fd l as ∧ (∀ i, l ≤ i → m' i = m i) ∧
      (0 ≤ rc → rc = (received fd l as).length)

section Whole
variable {D : Type} (size : D → ℕ)

/-- The call fails at its next answer. -/
def failsNext : List (SelectAnswer × IoAnswer D) → Prop
  | (sel, .failed _) :: _ => checkChannel sel ≠ eTIMEDOUT
  | (sel, _) :: _ => checkChannel sel ≠ 0 ∧ checkChannel sel ≠ eTIMEDOUT
  | [] => False

/-- The first transfer moves all `l` bytes, or there is none, or the call fails right after it. -/
def WholeAtOnce (fd : ℤ) (l : ℕ) : List (SelectAnswer × IoAnswer D) → Prop
  | (.ready, .moved d) :: as => fd < 0 ∨ l = 0 ∨ size d = l ∨ failsNext as
  | _ => True

/-! ## The loop -/

variable {size} {buff l : ℕ} {fd rc : ℤ} {sel : SelectAnswer}
    {as : List (SelectAnswer × IoAnswer D)} {ts : List (ℕ × D)} {d : D}

theorem ioLoop_cons (buff l : ℕ) (sel : SelectAnswer) (io : IoAnswer D)
    (as : List (SelectAnswer × IoAnswer D)) :
    ioLoop size buff l ((sel, io) :: as) =
      if l = 0 then some (ioDone buff, [])
      else if checkChannel sel = 0 then
        match io with
        | .failed errno => some (-(errno : ℤ), [])
        | .eof => some ((buff : ℤ), [])
        | .moved d => (ioLoop size (buff + l) (l - size d) as).map fun r => (r.1, (buff, d) :: r.2)
      else if checkChannel sel ≠ eTIMEDOUT then some (checkChannel sel, [])
      else some (ioDone buff, []) := by
  cases io <;> rfl

theorem checkChannel_neg (hsel : ∀ errno, sel = .failed errno → 0 < errno)
    (hne : checkChannel sel ≠ 0) : checkChannel sel < 0 := by
  cases sel with
  | ready => exact absurd rfl hne
  | empty => decide
  | failed errno =>
    have hpos := hsel errno rfl
    simp only [checkChannel]
    split
    · decide
    · omega

theorem checkChannel_eq_zero (hsel : ∀ errno, sel = .failed errno → 0 < errno)
    (hzero : checkChannel sel = 0) : sel = .ready := by
  cases sel with
  | ready => rfl
  | empty => exact absurd hzero (by decide)
  | failed errno =>
    have hneg := hsel errno rfl
    simp only [checkChannel] at hzero
    split at hzero
    · exact absurd hzero (by decide)
    · omega

theorem ioDone_pos (hb : 0 < buff) : ioDone buff = buff := if_neg (by omega)

theorem ioLoop_zero (buff : ℕ) (as : List (SelectAnswer × IoAnswer D)) :
    ioLoop size buff 0 as = some (ioDone buff, []) := by
  cases as with
  | nil => rfl
  | cons a as => rw [ioLoop_cons, if_pos rfl]

/-- A transfer that does not come at once moves nothing and gives no number. -/
theorem ioLoop_idle (hl : 0 < l) {io : IoAnswer D} (hsel : ∀ errno, sel = .failed errno → 0 < errno)
    (hio : ∀ errno, io = .failed errno → 0 < errno) (hmove : ∀ d, (sel, io) ≠ (.ready, .moved d))
    (hr : ioLoop size 0 l ((sel, io) :: as) = some (rc, ts)) : ts = [] ∧ (0 ≤ rc → rc = 0) := by
  rw [ioLoop_cons, if_neg (by omega)] at hr
  by_cases hready : checkChannel sel = 0
  · rw [if_pos hready] at hr
    cases io with
    | failed errno =>
      have hpos := hio errno rfl
      simp only [Option.some.injEq, Prod.mk.injEq] at hr
      exact ⟨hr.2.symm, by omega⟩
    | eof =>
      simp only [Option.some.injEq, Prod.mk.injEq] at hr
      exact ⟨hr.2.symm, fun _ => hr.1.symm⟩
    | moved d =>
      obtain rfl := checkChannel_eq_zero hsel hready
      exact absurd rfl (hmove d)
  · rw [if_neg hready] at hr
    have hneg := checkChannel_neg hsel hready
    split at hr
    · simp only [Option.some.injEq, Prod.mk.injEq] at hr
      exact ⟨hr.2.symm, by omega⟩
    · simp only [Option.some.injEq, Prod.mk.injEq] at hr
      refine ⟨hr.2.symm, fun hrc => ?_⟩
      rw [← hr.1] at hrc
      exact absurd hrc (by decide)

theorem ioLoop_fails (hl : 0 < l) (hok : answersOk size l as) (hfails : failsNext as)
    (hr : ioLoop size buff l as = some (rc, ts)) : ts = [] ∧ rc < 0 := by
  cases as with
  | nil => exact hfails.elim
  | cons a as =>
    obtain ⟨sel, io⟩ := a
    obtain ⟨hsel, hio⟩ := hok
    rw [ioLoop_cons, if_neg (by omega)] at hr
    by_cases hready : checkChannel sel = 0
    · rw [if_pos hready] at hr
      cases io with
      | failed errno =>
        simp only at hio
        simp only [Option.some.injEq, Prod.mk.injEq] at hr
        exact ⟨hr.2.symm, by omega⟩
      | eof => exact absurd hready hfails.1
      | moved d => exact absurd hready hfails.1
    · have hother : checkChannel sel ≠ eTIMEDOUT := by
        cases io with
        | failed errno => exact hfails
        | eof => exact hfails.2
        | moved d => exact hfails.2
      rw [if_neg hready, if_pos hother] at hr
      have hneg := checkChannel_neg hsel hready
      simp only [Option.some.injEq, Prod.mk.injEq] at hr
      exact ⟨hr.2.symm, by omega⟩

theorem ioLoop_offsets (as : List (SelectAnswer × IoAnswer D)) (buff l : ℕ) (rc : ℤ) (ts : List (ℕ × D))
    (hr : ioLoop size buff l as = some (rc, ts)) : ∀ t ∈ ts, buff ≤ t.1 := by
  induction as generalizing buff l rc ts with
  | nil =>
    obtain ⟨-, hr⟩ := Option.ite_none_right_eq_some.mp hr
    obtain ⟨-, rfl⟩ := Prod.mk.inj (Option.some.inj hr)
    intro t ht
    cases ht
  | cons a as ih =>
    obtain ⟨sel, io⟩ := a
    have hnone : ts = [] → ∀ t ∈ ts, buff ≤ t.1 := by
      rintro rfl t ht
      cases ht
    rw [ioLoop_cons] at hr
    split at hr
    · exact hnone (Prod.mk.inj (Option.some.inj hr)).2.symm
    · split at hr
      · cases io with
        | failed errno => exact hnone (Prod.mk.inj (Option.some.inj hr)).2.symm
        | eof => exact hnone (Prod.mk.inj (Option.some.inj hr)).2.symm
        | moved d =>
          obtain ⟨⟨rc', ts'⟩, hrest, heq⟩ := Option.map_eq_some_iff.mp hr
          obtain ⟨-, rfl⟩ := Prod.mk.inj heq
          intro t ht
          rcases List.mem_cons.mp ht with rfl | ht
          · exact le_refl _
          · have hle := ih _ _ _ _ hrest t ht
            omega
      · split at hr
        · exact hnone (Prod.mk.inj (Option.some.inj hr)).2.symm
        · exact hnone (Prod.mk.inj (Option.some.inj hr)).2.symm

/-- One transfer at most, from the start, and its length is what is returned without an error. -/
theorem ioCall_whole (hwhole : WholeAtOnce size fd l as) (hok : answersOk size l as)
    (hr : ioCall size fd l as = some (rc, ts)) :
    (ts = [] ∧ (0 ≤ rc → rc = 0)) ∨ ∃ d, ts = [(0, d)] ∧ size d ≤ l ∧ (0 ≤ rc → rc = size d) := by
  rw [ioCall] at hr
  split at hr
  · left
    obtain ⟨rfl, rfl⟩ := Prod.mk.inj (Option.some.inj hr)
    exact ⟨rfl, fun hrc => absurd hrc (by decide)⟩
  · rename_i hargs
    push Not at hargs
    obtain ⟨hfd, hl⟩ := hargs
    cases as with
    | nil =>
      rw [ioLoop, if_neg hl] at hr
      cases hr
    | cons a as =>
      obtain ⟨sel, io⟩ := a
      by_cases hmove : ∃ d, (sel, io) = (.ready, .moved d)
      · right
        obtain ⟨d, heq⟩ := hmove
        obtain ⟨rfl, rfl⟩ := Prod.mk.inj heq
        obtain ⟨-, hio⟩ := hok
        obtain ⟨hpos, hle, hrest⟩ := hio.resolve_left hl
        have hready : checkChannel .ready = 0 := rfl
        rw [ioLoop_cons, if_neg hl, if_pos hready] at hr
        obtain ⟨⟨rc', ts'⟩, hmore, heq⟩ := Option.map_eq_some_iff.mp hr
        obtain ⟨rfl, rfl⟩ := Prod.mk.inj heq
        by_cases hall : size d = l
        · rw [hall, Nat.sub_self, Nat.zero_add, ioLoop_zero] at hmore
          obtain ⟨rfl, rfl⟩ := Prod.mk.inj (Option.some.inj hmore)
          exact ⟨d, rfl, hle, fun _ => by rw [ioDone_pos (by omega), hall]⟩
        · rcases hwhole with hneg | hzero | hall' | hfails
          · omega
          · exact absurd hzero hl
          · exact absurd hall' hall
          · obtain ⟨rfl, hneg⟩ := ioLoop_fails (by omega) hrest hfails hmore
            exact ⟨d, rfl, hle, fun hrc => absurd hrc (by omega)⟩
      · left
        push Not at hmove
        obtain ⟨hsel, hio⟩ := hok
        refine ioLoop_idle (by omega) hsel (fun errno heq => ?_) hmove hr
        subst heq
        exact hio

/-- The answer after a transfer is no error: either the pointer is what is returned, or more is
moved there. -/
theorem ioLoop_next (hb : 0 < buff) (hl : 0 < l) (hok : answersOk size l as) (hfails : ¬failsNext as)
    (hr : ioLoop size buff l as = some (rc, ts)) :
    (ts = [] ∧ rc = buff) ∨ ∃ d ts', ts = (buff, d) :: ts' ∧ 0 < size d ∧ ∀ t ∈ ts', buff + l ≤ t.1 := by
  cases as with
  | nil =>
    rw [ioLoop, if_neg (by omega)] at hr
    cases hr
  | cons a as =>
    obtain ⟨sel, io⟩ := a
    obtain ⟨hsel, hio⟩ := hok
    rw [ioLoop_cons, if_neg (by omega)] at hr
    by_cases hready : checkChannel sel = 0
    · rw [if_pos hready] at hr
      cases io with
      | failed errno =>
        refine absurd ?_ hfails
        rw [failsNext, hready]
        decide
      | eof =>
        left
        obtain ⟨rfl, rfl⟩ := Prod.mk.inj (Option.some.inj hr)
        exact ⟨rfl, rfl⟩
      | moved d =>
        right
        obtain ⟨⟨rc', ts'⟩, hrest, heq⟩ := Option.map_eq_some_iff.mp hr
        obtain ⟨rfl, rfl⟩ := Prod.mk.inj heq
        obtain ⟨hpos, -⟩ := hio.resolve_left (by omega)
        exact ⟨d, ts', rfl, hpos, ioLoop_offsets _ _ _ _ _ hrest⟩
    · left
      have htimeout : checkChannel sel = eTIMEDOUT := by
        by_contra hother
        apply hfails
        cases io with
        | failed errno => exact hother
        | eof => exact ⟨hready, hother⟩
        | moved d => exact ⟨hready, hother⟩
      rw [if_neg hready, if_neg (not_not.mpr htimeout)] at hr
      obtain ⟨rfl, rfl⟩ := Prod.mk.inj (Option.some.inj hr)
      exact ⟨rfl, ioDone_pos hb⟩

/-- A first transfer of less than `l` bytes: its length is not what is returned, or the next one is at `l`. -/
theorem ioCall_partial (hpart : ¬WholeAtOnce size fd l as) (hok : answersOk size l as)
    (hr : ioCall size fd l as = some (rc, ts)) :
    ∃ d, size d < l ∧ ((ts = [(0, d)] ∧ rc = l) ∨
      ∃ d' ts', ts = (0, d) :: (l, d') :: ts' ∧ 0 < size d' ∧ ∀ t ∈ ts', l < t.1) := by
  cases as with
  | nil => exact absurd trivial hpart
  | cons a as =>
    obtain ⟨sel, io⟩ := a
    by_cases hmove : ∃ d, (sel, io) = (.ready, .moved d)
    · obtain ⟨d, heq⟩ := hmove
      obtain ⟨rfl, rfl⟩ := Prod.mk.inj heq
      rw [WholeAtOnce] at hpart
      push Not at hpart
      obtain ⟨hfd, hl, hall, hfails⟩ := hpart
      obtain ⟨-, hio⟩ := hok
      obtain ⟨hpos, hle, hrest⟩ := hio.resolve_left hl
      have hready : checkChannel .ready = 0 := rfl
      rw [ioCall, if_neg (by omega), ioLoop_cons, if_neg hl, if_pos hready] at hr
      obtain ⟨⟨rc', ts'⟩, hmore, heq⟩ := Option.map_eq_some_iff.mp hr
      obtain ⟨rfl, rfl⟩ := Prod.mk.inj heq
      rw [Nat.zero_add] at hmore
      refine ⟨d, by omega, ?_⟩
      rcases ioLoop_next (by omega) (by omega) hrest hfails hmore
        with ⟨rfl, rfl⟩ | ⟨d', ts', rfl, hpos', hbeyond⟩
      · exact .inl ⟨rfl, rfl⟩
      · refine .inr ⟨d', ts', rfl, hpos', fun t ht => ?_⟩
        have hle' := hbeyond t ht
        omega
    · refine absurd ?_ hpart
      cases sel with
      | ready =>
        cases io with
        | failed errno => trivial
        | eof => trivial
        | moved d => exact absurd ⟨d, rfl⟩ hmove
      | empty => trivial
      | failed errno => trivial

/-- A transfer moves at least one byte, so `l` answers are enough for the call to return. -/
theorem ioLoop_returns (as : List (SelectAnswer × IoAnswer D)) (buff l : ℕ)
    (hok : answersOk size l as) (hlen : l ≤ as.length) :
    (ioLoop size buff l as).isSome := by
  induction as generalizing buff l with
  | nil =>
    have hl : l = 0 := by simpa using hlen
    simp [ioLoop, hl]
  | cons a as ih =>
    obtain ⟨sel, io⟩ := a
    obtain ⟨-, hio⟩ := hok
    rw [ioLoop_cons]
    split
    · rfl
    · rename_i hl
      split
      · cases io with
        | failed errno => rfl
        | eof => rfl
        | moved d =>
          obtain ⟨hpos, hle, hrest⟩ := hio.resolve_left hl
          rw [List.length_cons] at hlen
          rw [Option.isSome_map]
          exact ih _ _ hrest (by omega)
      · split <;> rfl

theorem ioCall_returns (hok : answersOk size l as) (hlen : l ≤ as.length) : (ioCall size fd l as).isSome := by
  rw [ioCall]
  split
  · rfl
  · exact ioLoop_returns as 0 l hok hlen

end Whole

/-! ## Both directions -/

variable {fd rc : ℤ} {l : ℕ} {m : ℕ → UInt8}

theorem streamWrite_eq {as : List (SelectAnswer × IoAnswer ℕ)} {ts : List (ℕ × ℕ)}
    (hr : ioCall id fd l as = some (rc, ts)) :
    streamWrite fd m l as = some (rc, ts.flatMap fun t => readBytes m t.1 t.2) := by
  rw [streamWrite, hr]
  rfl

theorem writesInOrder_iff {as : List (SelectAnswer × IoAnswer ℕ)} (hok : answersOk id l as)
    (hret : (ioCall id fd l as).isSome) :
    WritesInOrder fd l as ↔ WholeAtOnce id fd l as := by
  obtain ⟨⟨rc, ts⟩, hr⟩ := Option.isSome_iff_exists.mp hret
  constructor
  · intro horder
    by_contra hpart
    obtain ⟨d, hlt, hcase⟩ := ioCall_partial hpart hok hr
    rw [id] at hlt
    rcases hcase with ⟨rfl, rfl⟩ | ⟨d', ts', rfl, hpos, -⟩
    · obtain ⟨n, hsent, hrc⟩ := horder (fun _ => 0) _ _ (streamWrite_eq hr)
      have hlen := congrArg List.length hsent
      simp only [List.flatMap_cons, List.flatMap_nil, List.append_nil, length_readBytes] at hlen
      have hn := hrc (by omega)
      omega
    · -- one byte of the buffer differs from the others: the one at `l`, which is sent too early
      obtain ⟨n, hsent, -⟩ := horder (fun i => if i = l then 1 else 0) _ _ (streamWrite_eq hr)
      rw [id] at hpos
      have hat := congrArg (fun bs : List UInt8 => bs[d]?) hsent
      have hlen := congrArg List.length hsent
      simp only [List.flatMap_cons, List.length_append, length_readBytes] at hlen
      simp only [List.flatMap_cons] at hat
      rw [List.getElem?_append_right (by simp), List.getElem?_append_left (by simpa using hpos),
        length_readBytes, Nat.sub_self,
        getElem?_readBytes hpos, getElem?_readBytes (by omega)] at hat
      simp at hat
      omega
  · intro hwhole m rc' sent hsent
    rw [streamWrite_eq hr] at hsent
    obtain ⟨rfl, rfl⟩ := Prod.mk.inj (Option.some.inj hsent)
    rcases ioCall_whole hwhole hok hr with ⟨rfl, hrc⟩ | ⟨d, rfl, -, hrc⟩
    · exact ⟨0, rfl, hrc⟩
    · refine ⟨d, ?_, hrc⟩
      simp

theorem streamRead_eq {as : List (SelectAnswer × IoAnswer (List UInt8))} {ts : List (ℕ × List UInt8)}
    (hr : ioCall List.length fd l as = some (rc, ts)) :
    streamRead fd m l as = some (rc, ts.foldl (fun m t => writeBytes m t.1 t.2) m) ∧
      received fd l as = (ts.map Prod.snd).flatten := by
  rw [streamRead, received, hr]
  exact ⟨rfl, rfl⟩

/-- Stores beyond `i` leave it alone. -/
theorem foldl_writeBytes_of_lt {i : ℕ} (ts : List (ℕ × List UInt8)) (hbeyond : ∀ t ∈ ts, i < t.1) :
    ts.foldl (fun m t => writeBytes m t.1 t.2) m i = m i := by
  induction ts generalizing m with
  | nil => rfl
  | cons t ts ih =>
    rw [List.foldl_cons, ih fun u hu => hbeyond u (List.mem_cons_of_mem _ hu)]
    exact writeBytes_of_outside (.inl (hbeyond t List.mem_cons_self))

theorem readsInOrder_iff {as : List (SelectAnswer × IoAnswer (List UInt8))} (hok : answersOk List.length l as)
    (hret : (ioCall List.length fd l as).isSome) :
    ReadsInOrder fd l as ↔ WholeAtOnce List.length fd l as := by
  obtain ⟨⟨rc, ts⟩, hr⟩ := Option.isSome_iff_exists.mp hret
  constructor
  · intro horder
    by_contra hpart
    obtain ⟨d, hlt, hcase⟩ := ioCall_partial hpart hok hr
    rcases hcase with ⟨rfl, rfl⟩ | ⟨d', ts', rfl, hpos, hbeyond⟩
    · obtain ⟨hread, hreceived⟩ := streamRead_eq (m := fun _ => 0) hr
      obtain ⟨-, -, hrc⟩ := horder _ _ _ hread
      have hn := hrc (by omega)
      simp only [hreceived, List.map_cons, List.map_nil, List.flatten_cons, List.flatten_nil,
        List.append_nil] at hn
      omega
    · -- the byte at `l` is stored, whatever was there
      obtain ⟨hread, -⟩ := streamRead_eq (m := fun _ => d'[0] + 1) hr
      obtain ⟨-, huntouched, -⟩ := horder _ _ _ hread
      have hat := huntouched l (le_refl l)
      rw [List.foldl_cons, List.foldl_cons, foldl_writeBytes_of_lt ts' hbeyond] at hat
      have hstored := writeBytes_apply (m := writeBytes (fun _ => d'[0] + 1) 0 d) (a := l) hpos
      rw [Nat.add_zero] at hstored
      rw [hstored] at hat
      simp at hat
  · intro hwhole m rc' m' hread
    obtain ⟨heq, hreceived⟩ := streamRead_eq (m := m) hr
    rw [heq] at hread
    obtain ⟨rfl, rfl⟩ := Prod.mk.inj (Option.some.inj hread)
    rw [hreceived]
    rcases ioCall_whole hwhole hok hr with ⟨rfl, hrc⟩ | ⟨d, rfl, hle, hrc⟩
    · exact ⟨rfl, fun _ _ => rfl, hrc⟩
    · simp only [List.map_cons, List.map_nil, List.flatten_cons, List.flatten_nil, List.append_nil,
        List.foldl_cons, List.foldl_nil]
      refine ⟨readBytes_writeBytes_self, fun i hi => ?_, hrc⟩
      apply writeBytes_of_outside
      omega

/-- A call with an answer for each byte returns; one that returns keeps the bytes and their number
in order exactly when its first transfer moves everything, there is none, or an error follows it. -/
theorem stream_in_order_iff (fd : ℤ) (l : ℕ) :
    (∀ as, answersOk id l as → (l ≤ as.length → (ioCall id fd l as).isSome) ∧
        ((ioCall id fd l as).isSome → (WritesInOrder fd l as ↔ WholeAtOnce id fd l as))) ∧
      ∀ as, answersOk List.length l as → (l ≤ as.length → (ioCall List.length fd l as).isSome) ∧
        ((ioCall List.length fd l as).isSome → (ReadsInOrder fd l as ↔ WholeAtOnce List.length fd l as)) :=
  ⟨fun _ hok => ⟨ioCall_returns hok, writesInOrder_iff hok⟩,
    fun _ hok => ⟨ioCall_returns hok, readsInOrder_iff hok⟩⟩

def atOnce {D : Type} (d : D) : List (SelectAnswer × IoAnswer D) := [(.ready, .moved d)]

theorem stream_in_order_iff_atOnce :
    WritesInOrder 3 4 (atOnce 4) ∧ ReadsInOrder 3 4 (atOnce [1, 2, 3, 4]) := by
  obtain ⟨hwrite, hread⟩ := stream_in_order_iff 3 4
  have hwhole : WholeAtOnce id 3 4 (atOnce 4) := .inr (.inr (.inl rfl))
  have hwhole' : WholeAtOnce List.length 3 4 (atOnce ([1, 2, 3, 4] : List UInt8)) := .inr (.inr (.inl rfl))
  have hok : answersOk id 4 (atOnce 4) := ⟨nofun, .inr ⟨by decide, by decide, trivial⟩⟩
  have hok' : answersOk List.length 4 (atOnce ([1, 2, 3, 4] : List UInt8)) :=
    ⟨nofun, .inr ⟨by decide, by decide, trivial⟩⟩
  exact ⟨((hwrite _ hok).2 rfl).mpr hwhole, ((hread _ hok').2 rfl).mpr hwhole'⟩

def inTwo : List (SelectAnswer × IoAnswer ℕ) := [(.ready, .moved 2), (.ready, .moved 2)]

/-- Four bytes in two transfers: the last two come from behind the buffer, and 6 is returned. -/
theorem second_half_lost :
    answersOk id 4 inTwo ∧ streamWrite 3 UInt8.ofNat 4 inTwo = some (6, [0, 1, 4, 5]) ∧
      ¬WritesInOrder 3 4 inTwo := by
  have hsent : streamWrite 3 UInt8.ofNat 4 inTwo = some (6, [0, 1, 4, 5]) := by decide
  refine ⟨⟨fun errno heq => ?_, .inr ⟨by decide, by decide, fun errno heq => ?_, ?_⟩⟩, hsent,
    fun horder => ?_⟩
  · cases heq
  · cases heq
  · exact .inr ⟨by decide, by decide, trivial⟩
  · obtain ⟨n, hbytes, -⟩ := horder _ _ _ hsent
    have hlen := congrArg List.length hbytes
    rw [length_readBytes] at hlen
    subst hlen
    exact absurd hbytes (by decide)

end Skp.Server
