import BiscuitOS.PercpuSearch
import BiscuitOS.PercpuUndo

/-!
# Runs of the per-cpu allocator

Calls of `pcpu_alloc` and `free_percpu` from `pcpu_setup_first_chunk` on. As
long as a release moves the right entries of a map and no chunk that is tried
and refuses changes its slot, every chunk stands on the list of its slot, every
call returns with at most one new chunk, and a search that finds nothing has
met every chunk with room. A refused chunk that changes its slot leads the walk
astray.
-/

namespace BiscuitOS.PercpuSearchHistory

open MachineWord TransitionRun LoopRun BucketLists PercpuModel PercpuHistory PercpuFirst
open PercpuSlots PercpuSlotted PercpuSearch

/-- A call of `pcpu_alloc` goes to the lists. -/
def Searches (s : PcpuSystem) (ask : Request) : Prop :=
  0 < ask.size ∧ ask.size ≤ pcpuMinUnitSize ∧ ask.align ≤ pageSize ∧
    (ask.reserved = true → s.reserved = none)

/-- What callers promise: an alignment that is a power of two, and releases of live areas. -/
def LegalCall (w : PcpuWorld) : PcpuOp → Prop
  | .alloc ask _ => ∃ k < 64, ask.align = 2 ^ k
  | .free id freeme => ∃ a ∈ w.live id, a.offset = freeme

/-- A call that moves the right entries, or in whose search the chunks that are tried before one
serves keep their slots. -/
def Meets (w : PcpuWorld) : PcpuOp → Prop
  | .alloc ask fuel => LegalCall w (.alloc ask fuel) ∧ (Searches w.sys ask →
      Clears w.sys.unitSize ask.size ask.align w.sys.chunks (scanned w.sys ask.size))
  | .free id freeme => LegalCall w (.free id freeme) ∧ MovesRight (w.sys.chunks id) (.free freeme)

/-- The search is behind the last list. -/
def Exhausted (p : AllocPoint) : Prop :=
  ∃ slot cursor, p.place = .walk slot cursor ∧ pcpuNrSlots p.sys.unitSize ≤ slot

variable {w : PcpuWorld} {ask : Request}

instance (size align : ℕ) (c : PcpuChunk) : Decidable (Serves size align c) :=
  inferInstanceAs (Decidable (_ ∧ _))

instance (unitSize size align : ℕ) (c : PcpuChunk) : Decidable (Passes unitSize size align c) :=
  inferInstanceAs (Decidable (_ ∨ _ ∧ _))

instance decidableClears (unitSize size align : ℕ) (chunks : ℕ → PcpuChunk) :
    (l : List ℕ) → Decidable (Clears unitSize size align chunks l)
  | [] => isTrue trivial
  | _ :: rest =>
    have := decidableClears unitSize size align chunks rest
    inferInstanceAs (Decidable (_ ∨ _ ∧ _))

instance (s : PcpuSystem) (ask : Request) : Decidable (Searches s ask) :=
  inferInstanceAs (Decidable (_ ∧ _ ∧ _ ∧ (_ → _)))

instance (w : PcpuWorld) : (op : PcpuOp) → Decidable (LegalCall w op)
  | .alloc ask _ => inferInstanceAs (Decidable (∃ k < 64, ask.align = 2 ^ k))
  | .free id freeme => inferInstanceAs (Decidable (∃ a ∈ w.live id, a.offset = freeme))

instance (w : PcpuWorld) : (op : PcpuOp) → Decidable (Meets w op)
  | .alloc _ _ => inferInstanceAs (Decidable (_ ∧ (_ → _)))
  | .free _ _ => inferInstanceAs (Decidable (_ ∧ _))

end BiscuitOS.PercpuSearchHistory
