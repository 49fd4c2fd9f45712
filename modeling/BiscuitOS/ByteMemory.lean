import Mathlib

/-!
# Words in a memory of bytes

A word of `n` bytes is stored with its lowest byte first. What was stored is
loaded again, and a change elsewhere does not matter to a word. A chain of
words is followed from a cell to the next one until it is zero.
-/

namespace BiscuitOS.ByteMemory

/-- The bytes of a memory, by address. -/
abbrev Memory := ℕ → ℕ

/-- Store the lowest `n` bytes of a value. -/
def store (m : Memory) (a n v : ℕ) : Memory := fun b =>
  if a ≤ b ∧ b < a + n then v / 256 ^ (b - a) % 256 else m b

/-- Load a word of `n` bytes. -/
def load (m : Memory) (a : ℕ) : ℕ → ℕ
  | 0 => 0
  | n + 1 => m a + 256 * load m (a + 1) n

/-- The memories agree on the bytes from `a` on. -/
def Same (m m' : Memory) (a n : ℕ) : Prop := ∀ b, a ≤ b → b < a + n → m' b = m b

/-- A function on memories that changes no byte outside `n` bytes from `a` on. -/
def Within (f : Memory → Memory) (a n : ℕ) : Prop := ∀ m b, ¬(a ≤ b ∧ b < a + n) → f m b = m b

variable {m m' : Memory} {a b n v : ℕ}

/-- A word is made of its bytes only. -/
theorem load_congr (h : Same m m' a n) : load m' a n = load m a n := by
  induction n generalizing a with
  | zero => rfl
  | succ n ih =>
    have hfirst : m' a = m a := h a le_rfl (by omega)
    have hrest : load m' (a + 1) n = load m (a + 1) n := ih fun b hb hb' => h b (by omega) (by omega)
    rw [load, load, hfirst, hrest]

/-- A word stored is loaded again, as far as it fits. -/
theorem load_store (m : Memory) (a n v : ℕ) : load (store m a n v) a n = v % 256 ^ n := by
  induction n generalizing m a v with
  | zero => simp [load, Nat.mod_one]
  | succ n ih =>
    have hfirst : store m a (n + 1) v a = v % 256 := by
      rw [store, if_pos ⟨le_rfl, by omega⟩, Nat.sub_self, pow_zero, Nat.div_one]
    have hrest : load (store m a (n + 1) v) (a + 1) n = load (store m (a + 1) n (v / 256)) (a + 1) n := by
      refine load_congr fun b hb hb' => ?_
      have hpow : 256 ^ (b - a) = 256 * 256 ^ (b - (a + 1)) := by
        rw [← pow_succ']
        congr 1
        omega
      rw [store, store, if_pos ⟨by omega, by omega⟩, if_pos ⟨hb, hb'⟩, hpow, Nat.div_div_eq_div_mul]
    rw [load, hfirst, hrest, ih, pow_succ', Nat.mod_mul]

/-- A word stored elsewhere does not matter. -/
theorem load_store_apart {c k : ℕ} (h : c + k ≤ a ∨ a + n ≤ c) (w : ℕ) :
    load (store m c k w) a n = load m a n :=
  load_congr fun b hb hb' => by
    rw [store, if_neg]
    omega

/-- A change elsewhere does not matter. -/
theorem load_within {f : Memory → Memory} {c k : ℕ} (hf : Within f c k)
    (h : c + k ≤ a ∨ a + n ≤ c) : load (f m) a n = load m a n :=
  load_congr fun b hb hb' => hf m b (by omega)

/-- The cells of a chain: the address of the next one is the word at `offset` of a cell. -/
def chain (m : Memory) (offset : ℕ) : ℕ → ℕ → List ℕ
  | 0, _ => []
  | fuel + 1, p => if p = 0 then [] else p :: chain m offset fuel (load m (p + offset) 8)

/-- Cells at equal distances, each with the address of the next one and the last with zero, are
the chain. -/
theorem chain_eq {offset start size count : ℕ} (hstart : start ≠ 0)
    (hnext : ∀ k, k + 1 < count → load m (start + k * size + offset) 8 = start + (k + 1) * size)
    (hlast : load m (start + (count - 1) * size + offset) 8 = 0) (k : ℕ) (hk : k < count)
    (fuel : ℕ) (hfuel : count < k + fuel) :
    chain m offset fuel (start + k * size) =
      (List.range' k (count - k)).map fun i => start + i * size := by
  induction fuel generalizing k with
  | zero => omega
  | succ fuel ih =>
    have hne : start + k * size ≠ 0 := by omega
    obtain ⟨rest, hrest⟩ : ∃ rest, count - k = rest + 1 := ⟨count - k - 1, by omega⟩
    rw [chain, if_neg hne, hrest, List.range'_succ, List.map_cons]
    congr 1
    by_cases hend : k + 1 < count
    · have hind := ih (k + 1) hend (by omega)
      have hcount : count - (k + 1) = rest := by omega
      rw [hnext k hend, hind, hcount]
    · have hk' : k = count - 1 := by omega
      have hzero : rest = 0 := by omega
      rw [hk', hlast, hzero]
      cases fuel with
      | zero => rfl
      | succ fuel => rw [chain, if_pos rfl]; rfl

end BiscuitOS.ByteMemory
