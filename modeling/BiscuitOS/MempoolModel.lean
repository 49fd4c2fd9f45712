import BiscuitOS.MachineWord

/-!
# Memory pools

`mm/mempool.c` with `alloc_fn` and `free_fn` as an environment: each call of
`alloc_fn` answers with an element or fails, and both keep a record of the
elements that passed through them. The locks are not modelled, since nothing
runs between their release and their retake here. Waiting in `mempool_alloc`
is a loop with the attempts left.
-/

namespace BiscuitOS.MempoolModel

open MachineWord

/-- `mempool_t`. -/
structure Mempool where
  /-- `min_nr`. -/
  minNr : ℤ
  /-- `curr_nr`. -/
  currNr : ℤ
  /-- The entries of `elements`, by index. -/
  elements : ℤ → ℕ
  /-- Number of entries allocated for `elements`. -/
  room : ℕ

/-- A pool and the elements that passed its two functions. -/
structure PoolWorld where
  /-- The pool. -/
  pool : Mempool
  /-- Elements that `alloc_fn` returned, the last one first. -/
  obtained : List ℕ
  /-- Elements given to `free_fn`, the last one first. -/
  freed : List ℕ

/-- `add_element`; the check only reports. -/
def addElement (p : Mempool) (element : ℕ) : Mempool :=
  { p with elements := Function.update p.elements p.currNr element, currNr := p.currNr + 1 }

/-- `remove_element`: the element and the pool without it. -/
def removeElement (p : Mempool) : ℕ × Mempool :=
  (p.elements (p.currNr - 1), { p with currNr := p.currNr - 1 })

/-- `remove_element` followed by `free_fn`. -/
def dropElement (w : PoolWorld) : PoolWorld :=
  { w with pool := (removeElement w.pool).2, freed := (removeElement w.pool).1 :: w.freed }

/-- `alloc_fn` returned an element that goes to the pool. -/
def takeIn (w : PoolWorld) (element : ℕ) : PoolWorld :=
  { w with pool := addElement w.pool element, obtained := element :: w.obtained }

/-- The loop of `mempool_resize` that shrinks the pool, with the rounds left. -/
def shrinkTo (w : PoolWorld) (newMinNr : ℤ) : ℕ → PoolWorld
  | 0 => w
  | n + 1 => if newMinNr < w.pool.currNr then shrinkTo (dropElement w) newMinNr n else w

/-- The loop that fills the pool up to `min_nr`, with the rounds left: whether no call of
`alloc_fn`, the first of which is numbered `k`, failed. -/
def fillFrom (w : PoolWorld) (answers : ℕ → Option ℕ) (k : ℕ) : ℕ → Bool × PoolWorld
  | 0 => (true, w)
  | n + 1 =>
    if w.pool.currNr < w.pool.minNr then
      match answers k with
      | none => (false, w)
      | some element => fillFrom (takeIn w element) answers (k + 1) n
    else (true, w)

/-- `kmalloc` of an array of `n` pointers, by an allocator that may fail and never returns half
of the address space: the number of entries. -/
def arrayRoom (succeeds : Bool) (n : ℤ) : Option ℕ :=
  if succeeds ∧ toUnsigned 64 (n * 8) < 2 ^ 63 then some (toUnsigned 64 (n * 8) / 8) else none

/-- `-ENOMEM`. -/
def enomem : ℤ := -12

/-- `mempool_resize`, whose call of `kmalloc` succeeds as given. Only the first `curr_nr` entries
of a new array are copied; the others are zero here. -/
def mempoolResize (w : PoolWorld) (newMinNr : ℤ) (arraySucceeds : Bool)
    (answers : ℕ → Option ℕ) : ℤ × PoolWorld :=
  if newMinNr ≤ w.pool.minNr then
    let shrunk := shrinkTo w newMinNr w.pool.currNr.toNat
    (0, { shrunk with pool := { shrunk.pool with minNr := newMinNr } })
  else
    match arrayRoom arraySucceeds newMinNr with
    | none => (enomem, w)
    | some room =>
      let pool : Mempool :=
        { minNr := newMinNr
          currNr := w.pool.currNr
          elements := fun i => if 0 ≤ i ∧ i < w.pool.currNr then w.pool.elements i else 0
          room := room }
      (0, (fillFrom { w with pool := pool } answers 0 (newMinNr - w.pool.currNr).toNat).2)

/-- `mempool_alloc`, with the attempts left, from the call of `alloc_fn` numbered `k` on. -/
def mempoolAllocFrom (w : PoolWorld) (answers : ℕ → Option ℕ) (wait : Bool) (k : ℕ) :
    ℕ → Option (Option ℕ × PoolWorld)
  | 0 => none
  | n + 1 =>
    match answers k with
    | some element => some (some element, { w with obtained := element :: w.obtained })
    | none =>
      if w.pool.currNr ≠ 0 then
        let removed := removeElement w.pool
        some (some removed.1, { w with pool := removed.2 })
      else if wait then mempoolAllocFrom w answers wait (k + 1) n
      else some (none, w)

/-- `mempool_alloc` without `__GFP_WAIT`, which calls `alloc_fn` once. -/
def mempoolAllocNoWait (w : PoolWorld) (answer : Option ℕ) : Option (Option ℕ × PoolWorld) :=
  mempoolAllocFrom w (fun _ => answer) false 0 1

/-- `mempool_free`. -/
def mempoolFree (w : PoolWorld) (element : ℕ) : PoolWorld :=
  if w.pool.currNr < w.pool.minNr then { w with pool := addElement w.pool element }
  else { w with freed := element :: w.freed }

end BiscuitOS.MempoolModel
