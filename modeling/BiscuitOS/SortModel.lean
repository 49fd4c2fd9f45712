import BiscuitOS.MachineWord

/-!
# Sorting an array

`sort` of `lib/sort.c`. The array is its bytes by offset, `int` variables are
signed words of 32 bits, and an offset at which no whole element lies ends a
call of `cmp_func` or `swap_func` in a fault.
-/

namespace BiscuitOS.SortModel

open MachineWord

/-- The bytes of the array. -/
abbrev Bytes : Type := ℕ → UInt8

/-- The bytes of a value at an offset. -/
def element (mem : Bytes) (size o : ℕ) : List UInt8 := (List.range size).map fun k => mem (o + k)

/-- Store the bytes of a value at an offset. -/
def putElement (mem : Bytes) (o : ℕ) (value : List UInt8) : Bytes := fun i =>
  if o ≤ i ∧ i < o + value.length then value.getD (i - o) 0 else mem i

/-- `u32_swap`. -/
def u32Swap (mem : Bytes) (a b : ℕ) (_ : ℤ) : Bytes :=
  let t := element mem 4 a
  putElement (putElement mem a (element mem 4 b)) b t

/-- The rounds of `generic_swap` after the first one. -/
def genericSwapLoop (mem : Bytes) (a b : ℕ) : ℕ → Bytes
  | 0 => mem
  | n + 1 =>
    genericSwapLoop (Function.update (Function.update mem a (mem b)) b (mem a)) (a + 1) (b + 1) n

/-- `generic_swap`, which goes round at least once. -/
def genericSwap (mem : Bytes) (a b : ℕ) (size : ℤ) : Bytes :=
  genericSwapLoop mem a b (max 1 size.toNat)

/-- The arguments of `sort` besides the array. -/
structure SortCall where
  /-- `num`. -/
  num : ℕ
  /-- `size`. -/
  size : ℕ
  /-- `cmp_func`. -/
  cmpFunc : List UInt8 → List UInt8 → ℤ
  /-- `swap_func`, none for `NULL`. -/
  swapFunc : Option (Bytes → ℕ → ℕ → ℤ → Bytes)

/-- A value as an `int`. -/
def toInt (x : ℤ) : ℤ := toSigned 32 x

/-- An `int` as a `size_t`. -/
def toSize (x : ℤ) : ℕ := toUnsigned 64 x

/-- The end of the array, `n`. -/
def SortCall.stop (p : SortCall) : ℤ := toInt (wrap 64 (p.num * p.size))

/-- The function that swaps. -/
def SortCall.swapper (p : SortCall) : Bytes → ℕ → ℕ → ℤ → Bytes :=
  p.swapFunc.getD (if p.size = 4 then u32Swap else genericSwap)

/-- A whole element of the array lies at an offset. -/
def SortCall.inside (p : SortCall) (o : ℤ) : Bool :=
  decide (0 ≤ o) && decide (o + p.size ≤ p.num * p.size)

/-- A call of `cmp_func`. -/
def compare (p : SortCall) (mem : Bytes) (a b : ℤ) : Option ℤ :=
  if p.inside a && p.inside b then
    some (p.cmpFunc (element mem p.size a.toNat) (element mem p.size b.toNat))
  else none

/-- A call of `swap_func`. -/
def exchange (p : SortCall) (mem : Bytes) (a b : ℤ) : Option Bytes :=
  if p.inside a && p.inside b then some (p.swapper mem a.toNat b.toNat (toInt p.size)) else none

/-- The test `r * 2 + size < bound`. -/
def below (p : SortCall) (r bound : ℤ) : Bool :=
  decide (wrap 64 (toSize (toInt (r * 2)) + p.size) < toSize bound)

/-- The first child, `r * 2 + size`. -/
def childOf (p : SortCall) (r : ℤ) : ℤ := toInt (wrap 64 (toSize (toInt (r * 2)) + p.size))

/-- The inner loops of `sort`, with fuel: `go` is the test of the loop. -/
def siftDown (p : SortCall) (mem : Bytes) (go : ℤ → Bool) (bound r : ℤ) : ℕ → Option Bytes
  | 0 => none
  | fuel + 1 =>
    if go r then
      let c := childOf p r
      (if toSize c < wrapSub 64 (toSize bound) p.size then
        (compare p mem c (c + p.size)).map fun v =>
          if v < 0 then toInt (wrap 64 (toSize c + p.size)) else c
        else some c).bind fun c =>
      (compare p mem r c).bind fun v =>
        if 0 ≤ v then some mem
        else (exchange p mem r c).bind fun mem => siftDown p mem go bound c fuel
    else some mem

/-- `i -= size`. -/
def lower (p : SortCall) (i : ℤ) : ℤ := toInt (wrapSub 64 (toSize i) p.size)

/-- The loop that builds the heap, with fuel. The test of its inner loop looks at `i`. -/
def heapify (p : SortCall) (mem : Bytes) (i : ℤ) : ℕ → Option Bytes
  | 0 => none
  | fuel + 1 =>
    if 0 ≤ i then
      (siftDown p mem (fun _ => below p i p.stop) p.stop i (fuel + 1)).bind fun mem =>
        heapify p mem (lower p i) fuel
    else some mem

/-- The loop that puts the greatest elements behind, with fuel. -/
def sortDown (p : SortCall) (mem : Bytes) (i : ℤ) : ℕ → Option Bytes
  | 0 => none
  | fuel + 1 =>
    if 0 < i then
      (exchange p mem 0 i).bind fun mem =>
      (siftDown p mem (fun r => below p r i) i 0 (fuel + 1)).bind fun mem =>
        sortDown p mem (lower p i) fuel
    else some mem

/-- `sort`, with fuel for its loops. -/
def sort (p : SortCall) (mem : Bytes) (fuel : ℕ) : Option Bytes :=
  (heapify p mem (toInt (wrap 64 (wrapSub 64 (p.num / 2) 1 * p.size))) fuel).bind fun mem =>
    sortDown p mem (toInt (wrapSub 64 (toSize p.stop) p.size)) fuel

end BiscuitOS.SortModel
