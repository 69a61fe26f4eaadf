import Mathlib

/-! # The list sort of `algorithm/list_sort.c`

A node is a `list_head` and a null link is `none`. The comparison is the one of the caller at its
`priv`; it changes no link. A loop over nodes takes the number of rounds it may make, and a read
through a null link fails. -/
namespace Skp.Algorithm
set_option autoImplicit false

/-- The links of all nodes. -/
structure Links (N : Type*) where
  next : N → Option N
  prev : N → Option N

/-- The links while `merge` runs; `first` is the `next` of its local head. -/
structure Merging (N : Type*) where
  links : Links N
  first : Option N

/-- The table of sorted partial lists. -/
structure Table (N : Type*) where
  links : Links N
  part : ℕ → Option N
  maxLev : ℕ

section Nodes
variable {N : Type*} [DecidableEq N]

def Links.setNext (s : Links N) (x : N) (v : Option N) : Links N :=
  { s with next := Function.update s.next x v }

def Links.setPrev (s : Links N) (x : N) (v : Option N) : Links N :=
  { s with prev := Function.update s.prev x v }

def listEmpty (s : Links N) (head : N) : Bool := decide (s.next head = some head)

/-- Writes `tail->next`; the tail `none` is the local head. -/
def Merging.link (m : Merging N) (tail v : Option N) : Merging N :=
  match tail with
  | none => { m with first := v }
  | some t => { m with links := m.links.setNext t v }

/-! ## Merges -/

variable (cmp : N → N → ℤ)

def mergeLoop : ℕ → Merging N → Option N → Option N → Option N → Option (Merging N)
  | 0, _, _, _, _ => none
  | fuel + 1, m, tail, some a, some b =>
      -- if equal, take `a`
      if cmp a b ≤ 0 then
        mergeLoop fuel (m.link tail (some a)) (some a)
        ((m.link tail (some a)).links.next a) (some b)
      else mergeLoop fuel (m.link tail (some b)) (some b) (some a) ((m.link tail (some b)).links.next b)
  | _ + 1, m, tail, a, b => some (m.link tail (a.or b))

def merge (fuel : ℕ) (s : Links N) (a b : Option N) : Option (Merging N) :=
  mergeLoop cmp fuel ⟨s, none⟩ none a b

/-- A node behind `tail`, with its back link. -/
def Links.linkBack (s : Links N) (tail x : N) : Links N := (s.setNext tail (some x)).setPrev x (some tail)

/-- The first loop of `merge_and_restore_back_links`, and the last tail. -/
def mergeBackLoop : ℕ → Links N → N → Option N → Option N → Option (Links N × N)
  | 0, _, _, _, _ => none
  | fuel + 1, s, tail, some a, some b =>
      if cmp a b ≤ 0 then mergeBackLoop fuel (s.linkBack tail a) a ((s.linkBack tail a).next a) (some b)
      else mergeBackLoop fuel (s.linkBack tail b) b (some a) ((s.linkBack tail b).next b)
  | _ + 1, s, tail, a, b => some (s.setNext tail (a.or b), tail)

/-- The second loop; the calls of the comparison in it have no effect. -/
def backLoop : ℕ → Links N → N → Option (Links N × N)
  | 0, _, _ => none
  | fuel + 1, s, tail =>
      (s.next tail).bind fun x =>
        if s.next x = none then some (s.setPrev x (some tail), x)
          else backLoop fuel (s.setPrev x (some tail)) x

def mergeAndRestoreBackLinks (fuel : ℕ) (s : Links N) (head : N) (a b : Option N) : Option (Links N) :=
  (mergeBackLoop cmp fuel s head a b).bind fun r =>
    (backLoop fuel r.1 r.2).map fun r => (r.1.setNext r.2 (some head)).setPrev head (some r.2)

/-! ## The sort -/

def maxListLengthBits : ℕ := 20

/-- The merges of a new list `cur` with the partial lists from `lev` on; they end at a free slot. -/
def carryLoop (fuel : ℕ) : ℕ → Table N → ℕ → Option N → Option (Table N × ℕ × Option N)
  | 0, _, _, _ => none
  | rounds + 1, t, lev, cur =>
      if maxListLengthBits < lev then none
      else
        match t.part lev with
        | none => some (t, lev, cur)
        | some p =>
            (merge cmp fuel t.links (some p) cur).bind fun m =>
              carryLoop fuel rounds { t with
                links := m.links
                part := Function.update t.part lev none } (lev + 1) m.first

/-- The new list enters the table. -/
def Table.place (t : Table N) (lev : ℕ) (cur : Option N) : Table N :=
  if t.maxLev < lev then
    -- the last slot stays free
    let lev' := if maxListLengthBits ≤ lev then lev - 1 else lev
    { t with part := Function.update t.part lev' cur, maxLev := lev' }
  else { t with part := Function.update t.part lev cur }

/-- The loop over the nodes of the list. -/
def splitLoop (fuel : ℕ) : ℕ → Table N → Option N → Option (Table N)
  | 0, _, _ => none
  | _ + 1, t, none => some t
  | rounds + 1, t, some cur =>
      (carryLoop cmp fuel fuel { t with links := t.links.setNext cur none } 0 (some cur)).bind fun r =>
        splitLoop fuel rounds (r.1.place r.2.1 r.2.2) (t.links.next cur)

/-- The merges of the partial lists below `lev` into `list`. -/
def foldLoop (fuel : ℕ) (t : Table N) : ℕ → Option (Merging N)
  | 0 => some ⟨t.links, none⟩
  | lev + 1 =>
      (foldLoop fuel t lev).bind fun m =>
        match t.part lev with
        | none => some m
        | some p => merge cmp fuel m.links (some p) m.first

/-- `list_sort`; each loop makes at most `fuel` rounds. -/
def listSort (fuel : ℕ) (s : Links N) (head : N) : Option (Links N) :=
  if listEmpty s head = true then some s
  else
    (s.prev head).bind fun last =>
      let s := s.setNext last none
      (splitLoop cmp fuel fuel ⟨s, fun _ => none, 0⟩ (s.next head)).bind fun t =>
        (foldLoop cmp fuel t t.maxLev).bind fun m =>
          mergeAndRestoreBackLinks cmp fuel m.links head (t.part t.maxLev) m.first

end Nodes

end Skp.Algorithm
