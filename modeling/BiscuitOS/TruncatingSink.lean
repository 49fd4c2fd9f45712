import Mathlib

/-!
# Sinks that truncate

A sink stores what it is given as long as there is room and counts all of it.
An emitter is a computation over a sink that may end in a fault. Emitters that
only append, and may look at the number of elements given so far, do the same
over every sink: what they give does not depend on the room.
-/

namespace BiscuitOS.TruncatingSink

/-- Memory with a cursor and an end. -/
structure Sink (α : Type) where
  /-- The elements, by offset. -/
  mem : ℕ → α
  /-- The offset of the cursor. -/
  pos : ℕ
  /-- The offset of the end. -/
  room : ℕ

variable {α β γ : Type}

/-- Store in front of the end, and advance in any case. -/
def Sink.put (s : Sink α) (x : α) : Sink α :=
  { s with
    mem := if s.pos < s.room then Function.update s.mem s.pos x else s.mem
    pos := s.pos + 1 }

/-- Put one element after the other. -/
def Sink.write (s : Sink α) : List α → Sink α
  | [] => s
  | x :: xs => (s.put x).write xs

/-- Memory with a list laid over it from an offset on. -/
def overlay (mem : ℕ → α) (pos : ℕ) (xs : List α) (i : ℕ) : α :=
  if pos ≤ i then (xs[i - pos]?).getD (mem i) else mem i

/-- Copy as much of a block as there is room for, and advance by all of it. -/
def Sink.copy (s : Sink α) (xs : List α) : Sink α :=
  { s with
    mem := if s.pos < s.room then overlay s.mem s.pos (xs.take (s.room - s.pos)) else s.mem
    pos := s.pos + xs.length }

/-- Nothing is laid over memory. -/
theorem overlay_nil (mem : ℕ → α) (pos : ℕ) : overlay mem pos [] = mem := by
  funext i
  rw [overlay, List.getElem?_nil, Option.getD_none, ite_self]

/-- The head is laid over memory first. -/
theorem overlay_cons (mem : ℕ → α) (pos : ℕ) (x : α) (xs : List α) :
    overlay mem pos (x :: xs) = overlay (Function.update mem pos x) (pos + 1) xs := by
  funext i
  unfold overlay
  obtain hlt | rfl | hgt := lt_trichotomy i pos
  · rw [if_neg (by omega), if_neg (by omega), Function.update_of_ne (by omega)]
  · rw [if_pos le_rfl, if_neg (by omega), Nat.sub_self, List.getElem?_cons_zero,
      Option.getD_some, Function.update_self]
  · have hi : i - pos = (i - (pos + 1)) + 1 := by omega
    rw [if_pos (by omega), if_pos (by omega), hi, List.getElem?_cons_succ,
      Function.update_of_ne (by omega)]

/-- Behind the list memory is as before. -/
theorem overlay_of_le (mem : ℕ → α) {pos i : ℕ} {xs : List α} (h : pos + xs.length ≤ i) :
    overlay mem pos xs i = mem i := by
  rw [overlay, List.getElem?_eq_none (by omega), Option.getD_none, ite_self]

/-- The list is found where it was laid. -/
theorem overlay_add (mem : ℕ → α) (pos : ℕ) {xs : List α} {i : ℕ} (h : i < xs.length) :
    overlay mem pos xs (pos + i) = xs[i] := by
  rw [overlay, if_pos (by omega), Nat.add_sub_cancel_left, List.getElem?_eq_getElem h,
    Option.getD_some]

/-- The cursor counts everything. -/
theorem write_pos (s : Sink α) (xs : List α) : (s.write xs).pos = s.pos + xs.length := by
  induction xs generalizing s with
  | nil => rfl
  | cons x xs ih =>
    rw [Sink.write, ih, Sink.put, List.length_cons]
    dsimp only
    omega

/-- The end stays. -/
theorem write_room (s : Sink α) (xs : List α) : (s.write xs).room = s.room := by
  induction xs generalizing s with
  | nil => rfl
  | cons x xs ih => rw [Sink.write, ih, Sink.put]

/-- What there is room for is laid over memory. -/
theorem write_mem (s : Sink α) (xs : List α) :
    (s.write xs).mem = overlay s.mem s.pos (xs.take (s.room - s.pos)) := by
  induction xs generalizing s with
  | nil => rw [Sink.write, List.take_nil, overlay_nil]
  | cons x xs ih =>
    rw [Sink.write, ih, Sink.put]
    dsimp only
    by_cases hroom : s.pos < s.room
    · have htake : s.room - s.pos = (s.room - (s.pos + 1)) + 1 := by omega
      rw [if_pos hroom, htake, List.take_succ_cons, overlay_cons]
    · have hnone : s.room - s.pos = 0 := by omega
      have hnext : s.room - (s.pos + 1) = 0 := by omega
      rw [if_neg hroom, hnone, hnext, List.take_zero, List.take_zero, overlay_nil, overlay_nil]

/-- Two lists are written one after the other. -/
theorem write_append (s : Sink α) (xs ys : List α) : s.write (xs ++ ys) = (s.write xs).write ys := by
  induction xs generalizing s with
  | nil => rfl
  | cons x xs ih => rw [List.cons_append, Sink.write, ih, Sink.write]

/-- A computation over a sink that may end in a fault. -/
abbrev Emitter (α : Type) := StateT (Sink α) Option

/-- Put one element. -/
def put (x : α) : Emitter α Unit := fun s => some ((), s.put x)

/-- Copy a block. -/
def copyBlock (xs : List α) : Emitter α Unit := fun s => some ((), s.copy xs)

/-- How many elements were given so far. -/
def position : Emitter α ℕ := fun s => some (s.pos, s)

/-- A value that may be missing. -/
def fetch (o : Option β) : Emitter α β := fun s => o.map fun b => (b, s)

/-- Put an element several times. -/
def fill (x : α) : ℕ → Emitter α Unit
  | 0 => pure ()
  | n + 1 => do
    put x
    fill x n

/-- Put the elements of a list. -/
def putAll : List α → Emitter α Unit
  | [] => pure ()
  | x :: xs => do
    put x
    putAll xs

/-- Store without looking at the end: outside the memory of the sink this is a fault. -/
def putWithin (x : α) : Emitter α Unit := fun s =>
  if s.pos < s.room then some ((), s.put x) else none

/-- The computation appends what depends on the position only. -/
def Emits (m : Emitter α β) : Prop :=
  ∃ r : ℕ → Option (β × List α), ∀ s, m s = (r s.pos).map fun x => (x.1, s.write x.2)

/-- What two computations append is appended in turn. -/
theorem Emits.bind {m : Emitter α β} {f : β → Emitter α γ} (hm : Emits m)
    (hf : ∀ b, Emits (f b)) : Emits (m >>= f) := by
  obtain ⟨r, hr⟩ := hm
  choose rf hrf using hf
  refine ⟨fun p => (r p).bind fun x => (rf x.1 (p + x.2.length)).map fun y => (y.1, x.2 ++ y.2),
    fun s => ?_⟩
  have hrun : (m >>= f) s = (m s).bind fun x => f x.1 x.2 := rfl
  rw [hrun, hr]
  dsimp only
  cases hx : r s.pos with
  | none => rfl
  | some x =>
    dsimp only [Option.map_some, Option.bind_some]
    rw [hrf, write_pos, Option.map_map]
    refine congrArg (Option.map · _) (funext fun y => ?_)
    rw [Function.comp_apply, write_append]

/-- Every value that the computation returns satisfies a property. -/
def Returns (m : Emitter α β) (p : β → Prop) : Prop := ∀ s b s', m s = some (b, s') → p b

/-- A value is returned. -/
theorem returns_pure {p : β → Prop} {b : β} (h : p b) : Returns (pure b : Emitter α β) p := by
  intro s b' s' hrun
  obtain ⟨rfl, -⟩ : b = b' ∧ s = s' := Prod.mk.inj (Option.some.inj hrun)
  exact h

/-- No value is returned. -/
theorem returns_fetch_none (p : β → Prop) : Returns (fetch none : Emitter α β) p :=
  fun _ _ _ hrun => by cases hrun

/-- What the second computation returns is returned. -/
theorem Returns.bind {m : Emitter α β} {q : β → Prop} {f : β → Emitter α γ} {p : γ → Prop}
    (hm : Returns m q) (hf : ∀ b, q b → Returns (f b) p) : Returns (m >>= f) p := by
  intro s c s' hrun
  have hbind : (m >>= f) s = (m s).bind fun x => f x.1 x.2 := rfl
  rw [hbind] at hrun
  obtain ⟨x, hx, hfx⟩ := Option.bind_eq_some_iff.mp hrun
  exact hf x.1 (hm s x.1 x.2 hx) x.2 c s' hfx

/-- What the second computation returns is returned, whatever the first one does. -/
theorem returns_bind {m : Emitter α β} {f : β → Emitter α γ} {p : γ → Prop}
    (hf : ∀ b, Returns (f b) p) : Returns (m >>= f) p :=
  Returns.bind (fun _ _ _ _ => trivial) fun b (_ : True) => hf b

/-- Computations that go on alike after every value that is returned are alike. -/
theorem Returns.bind_congr {m : Emitter α β} {q : β → Prop} {f g : β → Emitter α γ}
    (hm : Returns m q) (hfg : ∀ b, q b → f b = g b) : (m >>= f) = (m >>= g) := by
  funext s
  have hf : (m >>= f) s = (m s).bind fun x => f x.1 x.2 := rfl
  have hg : (m >>= g) s = (m s).bind fun x => g x.1 x.2 := rfl
  rw [hf, hg]
  cases hx : m s with
  | none => rfl
  | some x => rw [Option.bind_some, Option.bind_some, hfg x.1 (hm s x.1 x.2 hx)]

/-- Whenever the first computation returns, so does the second, with the same sink and a related
value. -/
def Carries (m : Emitter α β) (m' : Emitter α γ) (R : β → γ → Prop) : Prop :=
  ∀ s b s', m s = some (b, s') → ∃ c, m' s = some (c, s') ∧ R b c

/-- Related values. -/
theorem carries_pure {R : β → γ → Prop} {b : β} {c : γ} (h : R b c) :
    Carries (pure b : Emitter α β) (pure c) R := by
  intro s b' s' hrun
  obtain ⟨rfl, rfl⟩ : b = b' ∧ s = s' := Prod.mk.inj (Option.some.inj hrun)
  exact ⟨c, rfl, h⟩

/-- The same computation. -/
theorem carries_refl (m : Emitter α β) : Carries m m Eq := fun _ b _ hrun => ⟨b, hrun, rfl⟩

/-- Values that may be missing. -/
theorem carries_fetch {R : β → γ → Prop} {o : Option β} {o' : Option γ}
    (h : ∀ b, o = some b → ∃ c, o' = some c ∧ R b c) :
    Carries (fetch o : Emitter α β) (fetch o') R := by
  intro s b s' hrun
  obtain ⟨x, hx, heq⟩ := Option.map_eq_some_iff.mp hrun
  obtain ⟨rfl, rfl⟩ := Prod.mk.inj heq
  obtain ⟨c, hc, hR⟩ := h x hx
  exact ⟨c, by rw [fetch, hc, Option.map_some], hR⟩

/-- Two computations one after the other. -/
theorem Carries.bind {δ : Type} {m : Emitter α β} {m' : Emitter α γ} {R : β → γ → Prop}
    {ε : Type} {f : β → Emitter α δ} {g : γ → Emitter α ε} {S : δ → ε → Prop}
    (hm : Carries m m' R) (hf : ∀ b c, R b c → Carries (f b) (g c) S) :
    Carries (m >>= f) (m' >>= g) S := by
  intro s d s' hrun
  have hbind : (m >>= f) s = (m s).bind fun x => f x.1 x.2 := rfl
  rw [hbind] at hrun
  obtain ⟨x, hx, hfx⟩ := Option.bind_eq_some_iff.mp hrun
  obtain ⟨c, hc, hR⟩ := hm s x.1 x.2 hx
  obtain ⟨e, he, hS⟩ := hf x.1 c hR x.2 d s' hfx
  have hbind' : (m' >>= g) s = (m' s).bind fun x => g x.1 x.2 := rfl
  exact ⟨e, by rw [hbind', hc, Option.bind_some, he], hS⟩

/-- The same computation, and then two. -/
theorem carries_bind {δ : Type} {ε : Type} (m : Emitter α β) {f : β → Emitter α δ}
    {g : β → Emitter α ε} {S : δ → ε → Prop} (hf : ∀ b, Carries (f b) (g b) S) :
    Carries (m >>= f) (m >>= g) S :=
  (carries_refl m).bind fun b _ hb => hb ▸ hf b

/-- What is written from the front on is laid over memory as far as there is room. -/
theorem write_front (mem : ℕ → α) (room : ℕ) (xs : List α) :
    Sink.write ⟨mem, 0, room⟩ xs = ⟨overlay mem 0 (xs.take room), xs.length, room⟩ := by
  have hmem := write_mem ⟨mem, 0, room⟩ xs
  have hpos := write_pos ⟨mem, 0, room⟩ xs
  have hroom := write_room ⟨mem, 0, room⟩ xs
  dsimp only at hmem hpos hroom
  rw [Nat.sub_zero] at hmem
  rw [Nat.zero_add] at hpos
  cases hw : Sink.write ⟨mem, 0, room⟩ xs
  rw [hw] at hmem hpos hroom
  dsimp only at hmem hpos hroom
  rw [hmem, hpos, hroom]

/-- Over an empty sink the computation gives the same elements whatever the room: all of them are
counted, and those with room are stored. -/
theorem Emits.run {m : Emitter α β} (hm : Emits m) :
    ∃ o : Option (β × List α), ∀ mem room, m ⟨mem, 0, room⟩ =
      o.map fun x => (x.1, ⟨overlay mem 0 (x.2.take room), x.2.length, room⟩) := by
  obtain ⟨r, hr⟩ := hm
  refine ⟨r 0, fun mem room => ?_⟩
  rw [hr]
  exact congrArg (Option.map · _) (funext fun x => by rw [write_front])

/-- The computation returns a value and appends a list, whatever the sink is. -/
def Puts (m : Emitter α β) (b : β) (xs : List α) : Prop := ∀ s, m s = some (b, s.write xs)

/-- Over an empty sink what is put is stored as far as there is room. -/
theorem Puts.run {m : Emitter α β} {b : β} {xs : List α} (h : Puts m b xs) (mem : ℕ → α)
    (room : ℕ) : m ⟨mem, 0, room⟩ =
      some (b, ⟨overlay mem 0 (xs.take room), xs.length, room⟩) := by
  rw [h, write_front]

/-- A value puts nothing. -/
theorem puts_pure (b : β) : Puts (pure b : Emitter α β) b [] := fun _ => rfl

/-- A value that is there puts nothing. -/
theorem puts_fetch (b : β) : Puts (fetch (some b) : Emitter α β) b [] := fun _ => rfl

/-- One element is put. -/
theorem puts_put (x : α) : Puts (put x) () [x] := fun _ => rfl

/-- What two computations put is put in turn. -/
theorem Puts.bind {m : Emitter α β} {f : β → Emitter α γ} {b : β} {c : γ} {xs ys : List α}
    (hm : Puts m b xs) (hf : Puts (f b) c ys) : Puts (m >>= f) c (xs ++ ys) := by
  intro s
  have hrun : (m >>= f) s = (m s).bind fun x => f x.1 x.2 := rfl
  rw [hrun, hm s, Option.bind_some, hf, write_append]

/-- Filling puts copies of the element. -/
theorem puts_fill (x : α) (n : ℕ) : Puts (fill x n) () (List.replicate n x) := by
  induction n with
  | zero => exact puts_pure ()
  | succ n ih => exact (puts_put x).bind ih

/-- The elements of a list are put. -/
theorem puts_putAll (xs : List α) : Puts (putAll xs) () xs := by
  induction xs with
  | nil => exact puts_pure ()
  | cons x xs ih => exact (puts_put x).bind ih

/-- A computation puts one list only. -/
theorem Puts.unique {m : Emitter α β} {b c : β} {xs ys : List α} (h : Puts m b xs)
    (h' : Puts m c ys) (x : α) : xs = ys := by
  have hlist : ∀ {zs : List α} {s : Sink α}, s = Sink.write ⟨fun _ => x, 0, xs.length + ys.length⟩ zs →
      zs.length ≤ xs.length + ys.length →
      zs = (List.range s.pos).map s.mem := by
    intro zs s hs hle
    have hpos : s.pos = zs.length := by
      rw [hs, write_pos, Nat.zero_add]
    have hmem : s.mem = overlay (fun _ => x) 0 zs := by
      rw [hs, write_mem, Nat.sub_zero, List.take_of_length_le hle]
    refine List.ext_getElem (by rw [List.length_map, List.length_range, hpos]) fun i hi hi' => ?_
    rw [List.getElem_map, List.getElem_range, hmem]
    have hat := overlay_add (fun _ => x) 0 hi
    rw [Nat.zero_add] at hat
    exact hat.symm
  have hrun := (h ⟨fun _ => x, 0, xs.length + ys.length⟩).symm.trans
    (h' ⟨fun _ => x, 0, xs.length + ys.length⟩)
  have hsink := (Prod.mk.inj (Option.some.inj hrun)).2
  exact (hlist rfl (Nat.le_add_right _ _)).trans (hlist hsink (Nat.le_add_left _ _)).symm

end BiscuitOS.TruncatingSink
