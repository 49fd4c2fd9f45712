import BiscuitOS.LoopRun
import BiscuitOS.RangeOrder
import BiscuitOS.TransitionRun

/-!
# Resource trees

`kernel/resource.c`. The children of a resource form a list linked through
`sibling`; a request walks along it with a pointer to the link it came from.
Over every run of requests the children stay in order and apart, and a request
is refused exactly when its range is bad or meets a child.
-/

namespace BiscuitOS.ResourceTree

open LoopRun RangeOrder TransitionRun

/-- `struct resource`, without the name and the flags. -/
structure Resource where
  /-- `start`. -/
  start : ℕ
  /-- `end`, the last address of the range. -/
  stop : ℕ
  /-- `parent`. -/
  parent : Option ℕ
  /-- `sibling`. -/
  sibling : Option ℕ
  /-- `child`. -/
  child : Option ℕ

/-- The resources, by their addresses. -/
abbrev Resources := ℕ → Resource

/-- What a pointer to a link points to. -/
inductive Link
  /-- `&root->child`. -/
  | child
  /-- `&tmp->sibling`. -/
  | sibling (tmp : ℕ)

/-- Load a link. -/
def loadLink (s : Resources) (root : ℕ) : Link → Option ℕ
  | .child => (s root).child
  | .sibling tmp => (s tmp).sibling

/-- Set `sibling`. -/
def setSibling (s : Resources) (a : ℕ) (v : Option ℕ) : Resources :=
  Function.update s a { s a with sibling := v }

/-- Set `child`. -/
def setChild (s : Resources) (a : ℕ) (v : Option ℕ) : Resources :=
  Function.update s a { s a with child := v }

/-- Set `parent`. -/
def setParent (s : Resources) (a : ℕ) (v : Option ℕ) : Resources :=
  Function.update s a { s a with parent := v }

/-- Store a link. -/
def storeLink (s : Resources) (root : ℕ) (v : Option ℕ) : Link → Resources
  | .child => setChild s root v
  | .sibling tmp => setSibling s tmp v

/-- Put a resource into the list before `tmp`, at the link that led there. -/
def linkResource (s : Resources) (root new : ℕ) (p : Link) (tmp : Option ℕ) : Resources :=
  setParent (storeLink (setSibling s new tmp) root (some new) p) new (some root)

/-- One round of the loop of `__request_resource`: the next link, or what is returned and the
resources. -/
def requestStep (s : Resources) (root new : ℕ) (p : Link) : Link ⊕ Option ℕ × Resources :=
  match loadLink s root p with
  | none => .inr (none, linkResource s root new p none)
  | some tmp =>
    if (s new).stop < (s tmp).start then .inr (none, linkResource s root new p (some tmp))
    else if (s tmp).stop < (s new).start then .inl (.sibling tmp)
    else .inr (some tmp, s)

/-- `__request_resource`, with the rounds allowed. -/
def requestResourceCore (fuel : ℕ) (s : Resources) (root new : ℕ) : Option (Option ℕ × Resources) :=
  if (s new).stop < (s new).start then some (some root, s)
  else if (s new).start < (s root).start then some (some root, s)
  else if (s root).stop < (s new).stop then some (some root, s)
  else loop (requestStep s root new) fuel .child

/-- `request_resource_conflict`. -/
def requestResourceConflict (fuel : ℕ) (s : Resources) (root new : ℕ) :
    Option (Option ℕ × Resources) := requestResourceCore fuel s root new

/-- `-EBUSY`. -/
def ebusy : ℤ := -16

/-- `request_resource`. -/
def requestResource (fuel : ℕ) (s : Resources) (root new : ℕ) : Option (ℤ × Resources) :=
  (requestResourceConflict fuel s root new).map fun r => (if r.1.isSome then ebusy else 0, r.2)

/-- The list linked through `sibling` from a link on. -/
inductive Chain (s : Resources) : Option ℕ → List ℕ → Prop
  /-- The end. -/
  | nil : Chain s none []
  /-- A resource. -/
  | cons (a : ℕ) (l : List ℕ) (rest : Chain s (s a).sibling l) : Chain s (some a) (a :: l)

/-- The children of a resource. -/
structure Ordered (s : Resources) (root : ℕ) (l : List ℕ) : Prop where
  /-- They are linked from `child` on. -/
  chain : Chain s (s root).child l
  /-- They are sorted and disjoint. -/
  apart : Apart (fun a => (s a).start) (fun a => (s a).stop + 1) l
  /-- They lie inside the resource. -/
  inside : ∀ a ∈ l, (s root).start ≤ (s a).start ∧ (s a).stop ≤ (s root).stop
  /-- They have it as parent. -/
  parent : ∀ a ∈ l, (s a).parent = some root
  /-- It is none of them. -/
  root : root ∉ l

/-- The range of a new resource lies inside the root and meets no child. -/
def Fits (s : Resources) (root : ℕ) (l : List ℕ) (new : ℕ) : Prop :=
  (s new).start ≤ (s new).stop ∧ (s root).start ≤ (s new).start ∧ (s new).stop ≤ (s root).stop ∧
    ∀ a ∈ l, (s new).stop < (s a).start ∨ (s a).stop < (s new).start

/-- The range of a resource meets that of another one. -/
def Meets (s : Resources) (a b : ℕ) : Prop :=
  (s a).start ≤ (s b).stop ∧ (s b).start ≤ (s a).stop

variable {s s' : Resources} {root new : ℕ} {p : Option ℕ} {l xs ys : List ℕ}

/-- A field that an update keeps. -/
theorem update_field {α : Type} (f : Resource → α) {r : Resource} {a : ℕ} (h : f r = f (s a)) (b : ℕ) :
    f (Function.update s a r b) = f (s b) := by
  by_cases hb : b = a
  · rw [hb, Function.update_self, h]
  · rw [Function.update_of_ne hb]

variable (s) (a : ℕ) (v : Option ℕ) (b : ℕ)

/-- `setSibling` keeps the child. -/
@[simp] theorem setSibling_child : (setSibling s a v b).child = (s b).child := by
  rw [setSibling]
  exact update_field Resource.child (by rfl) b

/-- `setSibling` keeps the parent. -/
@[simp] theorem setSibling_parent : (setSibling s a v b).parent = (s b).parent := by
  rw [setSibling]
  exact update_field Resource.parent (by rfl) b

/-- `setSibling` keeps the range. -/
@[simp] theorem setSibling_range :
    (setSibling s a v b).start = (s b).start ∧ (setSibling s a v b).stop = (s b).stop := by
  rw [setSibling]
  exact ⟨update_field Resource.start (by rfl) b, update_field Resource.stop (by rfl) b⟩

/-- The sibling set. -/
@[simp] theorem setSibling_self : (setSibling s a v a).sibling = v := by
  rw [setSibling, Function.update_self]

/-- `setChild` keeps the sibling. -/
@[simp] theorem setChild_sibling : (setChild s a v b).sibling = (s b).sibling := by
  rw [setChild]
  exact update_field Resource.sibling (by rfl) b

/-- `setChild` keeps the parent. -/
@[simp] theorem setChild_parent : (setChild s a v b).parent = (s b).parent := by
  rw [setChild]
  exact update_field Resource.parent (by rfl) b

/-- `setChild` keeps the range. -/
@[simp] theorem setChild_range :
    (setChild s a v b).start = (s b).start ∧ (setChild s a v b).stop = (s b).stop := by
  rw [setChild]
  exact ⟨update_field Resource.start (by rfl) b, update_field Resource.stop (by rfl) b⟩

/-- The child set. -/
@[simp] theorem setChild_self : (setChild s a v a).child = v := by
  rw [setChild, Function.update_self]

/-- `setParent` keeps the sibling. -/
@[simp] theorem setParent_sibling : (setParent s a v b).sibling = (s b).sibling := by
  rw [setParent]
  exact update_field Resource.sibling (by rfl) b

/-- `setParent` keeps the child. -/
@[simp] theorem setParent_child : (setParent s a v b).child = (s b).child := by
  rw [setParent]
  exact update_field Resource.child (by rfl) b

/-- `setParent` keeps the range. -/
@[simp] theorem setParent_range :
    (setParent s a v b).start = (s b).start ∧ (setParent s a v b).stop = (s b).stop := by
  rw [setParent]
  exact ⟨update_field Resource.start (by rfl) b, update_field Resource.stop (by rfl) b⟩

/-- The parent set. -/
@[simp] theorem setParent_self : (setParent s a v a).parent = v := by
  rw [setParent, Function.update_self]

variable {s a b v}

/-- The other siblings. -/
theorem setSibling_other (h : b ≠ a) : (setSibling s a v b).sibling = (s b).sibling := by
  rw [setSibling, Function.update_of_ne h]

/-- The other children. -/
theorem setChild_other (h : b ≠ a) : (setChild s a v b).child = (s b).child := by
  rw [setChild, Function.update_of_ne h]

/-- The other parents. -/
theorem setParent_other (h : b ≠ a) : (setParent s a v b).parent = (s b).parent := by
  rw [setParent, Function.update_of_ne h]

/-- A chain depends only on its siblings. -/
theorem Chain.congr (h : Chain s p l) (he : ∀ a ∈ l, (s' a).sibling = (s a).sibling) :
    Chain s' p l := by
  induction h with
  | nil => exact .nil
  | cons a l rest ih =>
    refine .cons a l ?_
    rw [he a List.mem_cons_self]
    exact ih fun b hb => he b (List.mem_cons_of_mem _ hb)

/-- A chain starts with its first resource. -/
theorem Chain.head (h : Chain s p l) : p = l.head? := by
  cases h with
  | nil => rfl
  | cons a l rest => rfl

/-- The link that leads behind the resources passed. -/
def linkAfter (xs : List ℕ) : Link :=
  match xs.getLast? with
  | none => .child
  | some a => .sibling a

/-- The link behind the last resource. -/
theorem linkAfter_concat (xs : List ℕ) (a : ℕ) : linkAfter (xs ++ [a]) = .sibling a := by
  rw [linkAfter, List.getLast?_concat]

/-- The rest of a chain is found at the link behind the resources passed. -/
theorem Chain.rest (h : Chain s p (xs ++ ys)) (hxs : xs ≠ []) :
    Chain s (loadLink s root (linkAfter xs)) ys := by
  induction xs generalizing p with
  | nil => exact absurd rfl hxs
  | cons a xs ih =>
    cases h with
    | cons a _ rest =>
      by_cases hnil : xs = []
      · rw [hnil] at rest ⊢
        exact rest
      · have hlast := ih rest hnil
        rwa [linkAfter, List.getLast?_cons_of_ne_nil hnil]

/-- What linking a resource behind some others changes. -/
structure LinkedBehind (s : Resources) (root new : ℕ) (xs : List ℕ) (next : Option ℕ)
    (s' : Resources) : Prop where
  /-- The link of the new resource. -/
  next : (s' new).sibling = next
  /-- Its parent. -/
  parent : (s' new).parent = some root
  /-- The link to it behind the last resource. -/
  last : ∀ a, xs.getLast? = some a → (s' a).sibling = some new
  /-- The link to it from the root. -/
  first : xs = [] → (s' root).child = some new
  /-- The other links. -/
  siblings : ∀ a, a ≠ new → xs.getLast? ≠ some a → (s' a).sibling = (s a).sibling
  /-- The other children. -/
  children : ∀ a, a ≠ root ∨ xs ≠ [] → (s' a).child = (s a).child
  /-- The other parents. -/
  parents : ∀ a, a ≠ new → (s' a).parent = (s a).parent
  /-- The ranges. -/
  ranges : ∀ a, (s' a).start = (s a).start ∧ (s' a).stop = (s a).stop

/-- Linking a resource changes two links and its parent. -/
theorem linkResource_linked (s : Resources) (root : ℕ) (hnew : new ∉ xs) (next : Option ℕ) :
    LinkedBehind s root new xs next (linkResource s root new (linkAfter xs) next) := by
  rw [linkAfter, linkResource]
  cases hlast : xs.getLast? with
  | none =>
    have hnil : xs = [] := List.getLast?_eq_none_iff.mp hlast
    simp only [storeLink]
    refine ⟨?_, setParent_self _ _ _, fun a ha => (by rw [hlast] at ha; cases ha), fun _ => ?_,
      fun a ha _ => ?_, fun a ha => ?_, fun a ha => ?_, fun a => ?_⟩
    · rw [setParent_sibling, setChild_sibling, setSibling_self]
    · rw [setParent_child, setChild_self]
    · rw [setParent_sibling, setChild_sibling, setSibling_other ha]
    · rw [setParent_child, setChild_other (ha.resolve_right fun hne => hne hnil), setSibling_child]
    · rw [setParent_other ha, setChild_parent, setSibling_parent]
    · rw [(setParent_range _ _ _ a).1, (setParent_range _ _ _ a).2, (setChild_range _ _ _ a).1,
        (setChild_range _ _ _ a).2]
      exact setSibling_range _ _ _ a
  | some b =>
    have hb : b ≠ new := fun he => hnew (he ▸ List.mem_of_getLast? hlast)
    simp only [storeLink]
    refine ⟨?_, setParent_self _ _ _, fun a ha => ?_, fun hnil => ?_, fun a ha hne => ?_, fun a _ => ?_,
      fun a ha => ?_, fun a => ?_⟩
    · rw [setParent_sibling, setSibling_other hb.symm, setSibling_self]
    · rw [hlast, Option.some.injEq] at ha
      rw [setParent_sibling, ← ha, setSibling_self]
    · rw [hnil] at hlast
      cases hlast
    · have hab : a ≠ b := fun he => hne (he ▸ hlast)
      rw [setParent_sibling, setSibling_other hab, setSibling_other ha]
    · rw [setParent_child, setSibling_child, setSibling_child]
    · rw [setParent_other ha, setSibling_parent, setSibling_parent]
    · rw [(setParent_range _ _ _ a).1, (setParent_range _ _ _ a).2, (setSibling_range _ _ _ a).1,
        (setSibling_range _ _ _ a).2]
      exact setSibling_range _ _ _ a

/-- A chain with a resource linked behind some of it. -/
theorem chain_insert (hlast : ∀ a, xs.getLast? = some a → (s' a).sibling = some new)
    (hsame : ∀ a ∈ xs ++ ys, xs.getLast? ≠ some a → (s' a).sibling = (s a).sibling)
    (hrest : Chain s' (s' new).sibling ys) (hchain : Chain s p (xs ++ ys)) (hnodup : (xs ++ ys).Nodup)
    (hxs : xs ≠ []) : Chain s' p (xs ++ new :: ys) := by
  induction xs generalizing p with
  | nil => exact absurd rfl hxs
  | cons a xs ih =>
    cases hchain with
    | cons a _ rest =>
      obtain ⟨hfresh, hnodup⟩ := List.nodup_cons.mp hnodup
      refine .cons a _ ?_
      by_cases hnil : xs = []
      · rw [hlast a (by rw [hnil]; rfl), hnil]
        exact .cons new ys hrest
      · have hkeep : (a :: xs).getLast? = xs.getLast? := List.getLast?_cons_of_ne_nil hnil
        have ha : (a :: xs).getLast? ≠ some a := fun he => by
          rw [hkeep] at he
          exact hfresh (List.mem_append_left _ (List.mem_of_getLast? he))
        rw [hsame a List.mem_cons_self ha]
        exact ih (fun b hb => hlast b (hkeep.trans hb))
          (fun b hb hne => hsame b (List.mem_cons_of_mem _ hb) fun he => hne (hkeep ▸ he)) rest hnodup hnil

/-- No child is listed twice. -/
theorem Ordered.nodup (h : Ordered s root l) : l.Nodup := by
  refine h.apart.sorted.imp_of_mem fun {a b} ha hb hab heq => ?_
  have hrange := h.apart.nonempty b hb
  rw [heq] at hab
  exact absurd hab (not_le.mpr hrange)

/-- The link behind the resources passed leads to the next one. -/
theorem Ordered.loadLink_eq (h : Ordered s root (xs ++ ys)) :
    loadLink s root (linkAfter xs) = ys.head? := by
  by_cases hxs : xs = []
  · rw [hxs]
    have hchain := h.chain
    rw [hxs] at hchain
    exact hchain.head
  · exact (h.chain.rest hxs).head

/-- A new resource linked between its neighbours. -/
theorem Ordered.insert {next : Option ℕ} (h : Ordered s root (xs ++ ys))
    (hlinked : LinkedBehind s root new xs next s') (hnext : next = ys.head?)
    (hnew : new ∉ xs ++ ys) (hroot : new ≠ root) (hrange : (s new).start ≤ (s new).stop)
    (hinside : (s root).start ≤ (s new).start ∧ (s new).stop ≤ (s root).stop)
    (hbefore : ∀ a ∈ xs, (s a).stop < (s new).start) (hafter : ∀ a ∈ ys, (s new).stop < (s a).start) :
    Ordered s' root (xs ++ new :: ys) := by
  have hne : ∀ a ∈ xs ++ ys, a ≠ new := fun a ha he => hnew (he ▸ ha)
  have hlast : ∀ a ∈ ys, xs.getLast? ≠ some a := fun a ha he =>
    (List.disjoint_of_nodup_append h.nodup) (List.mem_of_getLast? he) ha
  have hsame : ∀ a ∈ xs ++ ys, xs.getLast? ≠ some a → (s' a).sibling = (s a).sibling :=
    fun a ha hno => hlinked.siblings a (hne a ha) hno
  have hrest : Chain s' (s' new).sibling ys := by
    have hys : Chain s (loadLink s root (linkAfter xs)) ys := by
      by_cases hxs : xs = []
      · have hchain := h.chain
        rw [hxs] at hchain ⊢
        exact hchain
      · exact h.chain.rest hxs
    rw [h.loadLink_eq] at hys
    rw [hlinked.next, hnext]
    exact hys.congr fun a ha => hsame a (List.mem_append_right _ ha) (hlast a ha)
  have hlo : (fun a => (s' a).start) = fun a => (s a).start := funext fun a => (hlinked.ranges a).1
  have hhi : (fun a => (s' a).stop + 1) = fun a => (s a).stop + 1 :=
    funext fun a => congrArg (· + 1) (hlinked.ranges a).2
  have hmem : ∀ a, a ∈ xs ++ new :: ys → a = new ∨ a ∈ xs ++ ys := fun a ha => by
    simp only [List.mem_append, List.mem_cons] at ha ⊢
    tauto
  constructor
  · by_cases hxs : xs = []
    · rw [hlinked.first hxs, hxs]
      exact .cons new ys hrest
    · rw [hlinked.children root (.inr hxs)]
      exact chain_insert hlinked.last hsame hrest h.chain h.nodup hxs
  · rw [hlo, hhi]
    exact h.apart.insert (Nat.lt_succ_of_le hrange) hbefore hafter
  · intro a ha
    rw [(hlinked.ranges a).1, (hlinked.ranges a).2, (hlinked.ranges root).1, (hlinked.ranges root).2]
    rcases hmem a ha with rfl | hin
    · exact hinside
    · exact h.inside a hin
  · intro a ha
    rcases hmem a ha with rfl | hin
    · exact hlinked.parent
    · rw [hlinked.parents a (hne a hin)]
      exact h.parent a hin
  · intro ha
    rcases hmem root ha with he | hin
    · exact hroot he.symm
    · exact h.root hin

/-- The walk returns a child that meets the range, or links the resource between its neighbours. -/
theorem loop_request {fuel : ℕ} (h : Ordered s root (xs ++ ys)) (hfuel : ys.length < fuel)
    (hpassed : ∀ a ∈ xs, (s a).stop < (s new).start) :
    (∃ a ∈ ys, Meets s new a ∧
        loop (requestStep s root new) fuel (linkAfter xs) = some (some a, s)) ∨
      ∃ zs ws, ys = zs ++ ws ∧ (∀ a ∈ zs, (s a).stop < (s new).start) ∧
        (∀ a ∈ ws, (s new).stop < (s a).start) ∧
        loop (requestStep s root new) fuel (linkAfter xs) =
          some (none, linkResource s root new (linkAfter (xs ++ zs)) ws.head?) := by
  have hload := h.loadLink_eq
  induction ys generalizing xs fuel with
  | nil =>
    obtain ⟨fuel, rfl⟩ : ∃ n, fuel = n + 1 := ⟨fuel - 1, by omega⟩
    refine .inr ⟨[], [], rfl, fun a ha => (by cases ha), fun a ha => (by cases ha), ?_⟩
    rw [loop_inr (r := (none, linkResource s root new (linkAfter xs) none)), List.append_nil]
    · rfl
    · rw [requestStep, hload]
      rfl
  | cons a ys ih =>
    obtain ⟨fuel, rfl⟩ : ∃ n, fuel = n + 1 := ⟨fuel - 1, by omega⟩
    have hstep : requestStep s root new (linkAfter xs) =
        if (s new).stop < (s a).start then
          .inr (none, linkResource s root new (linkAfter xs) (some a))
        else if (s a).stop < (s new).start then .inl (.sibling a) else .inr (some a, s) := by
      rw [requestStep, hload]
      rfl
    by_cases hbefore : (s new).stop < (s a).start
    · rw [if_pos hbefore] at hstep
      refine .inr ⟨[], a :: ys, rfl, fun b hb => (by cases hb), fun b hb => ?_, ?_⟩
      · rcases List.mem_cons.mp hb with rfl | hb
        · exact hbefore
        · have hrange := h.apart.range
          have hafter := h.apart.after b hb
          omega
      · rw [loop_inr hstep, List.append_nil]
        rfl
    · rw [if_neg hbefore] at hstep
      by_cases hafter : (s a).stop < (s new).start
      · rw [if_pos hafter, ← linkAfter_concat xs] at hstep
        have happend : xs ++ a :: ys = (xs ++ [a]) ++ ys := by
          rw [List.append_assoc, List.singleton_append]
        have hpassed' : ∀ b ∈ xs ++ [a], (s b).stop < (s new).start := fun b hb => by
          rcases List.mem_append.mp hb with hb | hb
          · exact hpassed b hb
          · rw [List.mem_singleton.mp hb]
            exact hafter
        have h' := happend ▸ h
        have hleft : ys.length < fuel := Nat.lt_of_succ_lt_succ hfuel
        rw [loop_inl hstep]
        rcases ih h' hleft hpassed' h'.loadLink_eq with
          ⟨b, hb, hmeets, hloop⟩ | ⟨zs, ws, hys, hzs, hws, hloop⟩
        · exact .inl ⟨b, List.mem_cons_of_mem _ hb, hmeets, hloop⟩
        · refine .inr ⟨a :: zs, ws, by rw [hys, List.cons_append], fun b hb => ?_, hws, ?_⟩
          · rcases List.mem_cons.mp hb with rfl | hb
            · exact hafter
            · exact hzs b hb
          · rw [hloop, List.append_assoc, List.singleton_append]
      · rw [if_neg hafter] at hstep
        refine .inl ⟨a, List.mem_cons_self, ⟨by omega, by omega⟩, ?_⟩
        rw [loop_inr hstep]

/-- What a request answers and changes. -/
structure Answers (s : Resources) (root : ℕ) (l : List ℕ) (new : ℕ) (conflict : Option ℕ)
    (result : ℤ) (s' : Resources) : Prop where
  /-- It succeeds exactly when the range fits. -/
  success : result = 0 ↔ Fits s root l new
  /-- It fails with `-EBUSY`. -/
  busy : result ≠ 0 → result = ebusy
  /-- A conflict is returned exactly when it fails. -/
  conflicts : conflict = none ↔ result = 0
  /-- The conflict is a child that meets the range, or the root when the range is bad. -/
  reason : ∀ c, conflict = some c → c ∈ l ∧ Meets s new c ∨ c = root ∧
    ((s new).stop < (s new).start ∨ (s new).start < (s root).start ∨ (s root).stop < (s new).stop)
  /-- A failed request changes nothing. -/
  unchanged : result ≠ 0 → s' = s
  /-- A successful one adds the resource, and changes no range and no other parent. -/
  added : result = 0 → ∃ xs ys, l = xs ++ ys ∧ Ordered s' root (xs ++ new :: ys) ∧
    LinkedBehind s root new xs ys.head? s'

/-- A request for a resource that is not in the list is answered, and keeps the children in order. -/
theorem requestResource_answers {fuel : ℕ} (h : Ordered s root l) (hfuel : l.length < fuel)
    (hroot : new ≠ root) (hnew : new ∉ l) :
    ∃ conflict result s', requestResourceConflict fuel s root new = some (conflict, s') ∧
      requestResource fuel s root new = some (result, s') ∧
      Answers s root l new conflict result s' := by
  have hrefused : ∀ c, requestResourceConflict fuel s root new = some (some c, s) → ¬Fits s root l new →
      (c ∈ l ∧ Meets s new c ∨ c = root ∧ ((s new).stop < (s new).start ∨
        (s new).start < (s root).start ∨ (s root).stop < (s new).stop)) →
      ∃ conflict result s', requestResourceConflict fuel s root new = some (conflict, s') ∧
        requestResource fuel s root new = some (result, s') ∧
        Answers s root l new conflict result s' := by
    intro c hc hno hreason
    have hbusy : ebusy ≠ 0 := by decide
    refine ⟨some c, ebusy, s, hc, by rw [requestResource, hc]; rfl, ?_⟩
    exact
      { success := ⟨fun he => absurd he hbusy, fun hf => absurd hf hno⟩
        busy := fun _ => rfl
        conflicts := ⟨fun he => (by cases he), fun he => absurd he hbusy⟩
        reason := fun d hd => Option.some.inj hd ▸ hreason
        unchanged := fun _ => rfl
        added := fun he => absurd he hbusy }
  by_cases hbad : (s new).stop < (s new).start ∨ (s new).start < (s root).start ∨
      (s root).stop < (s new).stop
  · refine hrefused root ?_ (fun hf => ?_) (.inr ⟨rfl, hbad⟩)
    · rw [requestResourceConflict, requestResourceCore]
      split_ifs with h1 h2 h3
      · rfl
      · rfl
      · rfl
      · tauto
    · obtain ⟨h1, h2, h3, -⟩ := hf
      omega
  · obtain ⟨h1, h2, h3⟩ : (s new).start ≤ (s new).stop ∧ (s root).start ≤ (s new).start ∧
        (s new).stop ≤ (s root).stop := by omega
    have hcore : requestResourceConflict fuel s root new =
        loop (requestStep s root new) fuel (linkAfter []) := by
      rw [requestResourceConflict, requestResourceCore, if_neg (by omega), if_neg (by omega),
        if_neg (by omega)]
      rfl
    have hpassed : ∀ a ∈ ([] : List ℕ), (s a).stop < (s new).start := fun a ha => by cases ha
    rcases loop_request (show Ordered s root ([] ++ l) from h) hfuel hpassed with
      ⟨a, ha, hmeets, hloop⟩ | ⟨zs, ws, rfl, hzs, hws, hloop⟩
    · refine hrefused a (hcore.trans hloop) (fun hf => ?_) (.inl ⟨ha, hmeets⟩)
      obtain ⟨hm1, hm2⟩ := hmeets
      have := hf.2.2.2 a ha
      omega
    · have hconflict := hcore.trans hloop
      have hlinked := linkResource_linked s root
        (fun hin => hnew (List.mem_append_left ws hin)) ws.head?
      refine ⟨none, 0, _, hconflict, by rw [requestResource, hconflict]; rfl, ?_⟩
      exact
        { success := by
            refine ⟨fun _ => ⟨h1, h2, h3, fun a ha => ?_⟩, fun _ => rfl⟩
            exact (List.mem_append.mp ha).elim (fun hz => .inr (hzs a hz)) fun hw => .inl (hws a hw)
          busy := fun he => absurd rfl he
          conflicts := ⟨fun _ => rfl, fun _ => rfl⟩
          reason := fun c hc => (by cases hc)
          unchanged := fun he => absurd rfl he
          added := fun _ => ⟨zs, ws, rfl,
            h.insert hlinked rfl hnew hroot h1 ⟨h2, h3⟩ hzs hws, hlinked⟩ }

/-- Perform a request. -/
def perform (fuel root : ℕ) (s : Resources) (new : ℕ) : Option Resources :=
  (requestResource fuel s root new).map Prod.snd

/-- A request leaves distinct resources, of which it adds at most the new one to the list. -/
theorem perform_ordered {fuel : ℕ} {rest : List ℕ} (h : Ordered s root l)
    (hfuel : l.length < fuel) (hroot : new ≠ root) (hfresh : (l ++ new :: rest).Nodup) :
    ∃ t children, perform fuel root s new = some t ∧ Ordered t root children ∧
      children.length ≤ l.length + 1 ∧ (children ++ rest).Nodup := by
  have hperm : (l ++ new :: rest).Perm (new :: (l ++ rest)) := List.perm_middle
  obtain ⟨hnotin, hrest⟩ := List.nodup_cons.mp (hperm.nodup_iff.mp hfresh)
  have hnew : new ∉ l := fun hin => hnotin (List.mem_append_left _ hin)
  obtain ⟨conflict, result, s', -, hr, hanswers⟩ := requestResource_answers h hfuel hroot hnew
  have hp : perform fuel root s new = some s' := by rw [perform, hr, Option.map_some]
  by_cases hresult : result = 0
  · obtain ⟨xs, ys, rfl, hordered, -⟩ := hanswers.added hresult
    refine ⟨s', _, hp, hordered, by simp only [List.length_append, List.length_cons]; omega, ?_⟩
    have hmoved : (xs ++ new :: ys ++ rest).Perm (xs ++ ys ++ new :: rest) := by
      rw [List.append_assoc, List.append_assoc, List.cons_append]
      exact (List.perm_middle.symm.append_left xs)
    exact hmoved.nodup_iff.mpr hfresh
  · rw [hanswers.unchanged hresult] at hp
    exact ⟨s, l, hp, h, Nat.le_succ _, hrest⟩

/-- Over every run of requests for distinct resources that are not in the list, the children stay
in order, and each request returns and is answered as its range asks. -/
theorem requests_ordered (fuel : ℕ) (s : Resources) (root : ℕ) (l ops : List ℕ)
    (h : Ordered s root l) (hfuel : l.length + ops.length < fuel) (hroot : root ∉ ops)
    (hfresh : (l ++ ops).Nodup) (done rest : List ℕ) (hops : ops = done ++ rest) :
    ∃ t children, exec (perform fuel root) s done = some t ∧ Ordered t root children ∧
      ∀ new later, rest = new :: later → ∃ conflict result t',
        requestResourceConflict fuel t root new = some (conflict, t') ∧
          requestResource fuel t root new = some (result, t') ∧
          Answers t root children new conflict result t' := by
  subst hops
  induction done generalizing s l with
  | nil =>
    refine ⟨s, l, rfl, h, fun new later hrest => ?_⟩
    rw [List.nil_append] at hfuel hroot hfresh
    subst hrest
    have hne : new ≠ root := fun he => hroot (he ▸ List.mem_cons_self)
    refine requestResource_answers h (by omega) hne fun hin => ?_
    exact (List.disjoint_of_nodup_append hfresh) hin List.mem_cons_self
  | cons new done ih =>
    rw [List.cons_append] at hfuel hroot hfresh
    have hne : new ≠ root := fun he => hroot (he ▸ List.mem_cons_self)
    have hleft : l.length < fuel := by omega
    obtain ⟨t, children, ht, hordered, hlength, hnodup⟩ := perform_ordered h hleft hne hfresh
    rw [exec, ht, Option.bind_some]
    refine ih t children hordered ?_ (fun hin => hroot (List.mem_cons_of_mem _ hin)) hnodup
    rw [List.length_cons] at hfuel
    omega

/-- A root over the first hundred addresses, and resources at 10 to 19, 15 to 24 and 20 to 29. -/
def threeResources (a : ℕ) : Resource :=
  if a = 0 then ⟨0, 99, none, none, none⟩ else ⟨5 * (a + 1), 5 * (a + 1) + 9, none, none, none⟩

/-- After a request for the first of three resources, the second one is answered. -/
theorem requests_ordered_three :
    ∃ t children, exec (perform 4 0) threeResources [1] = some t ∧ Ordered t 0 children ∧
      ∀ new later, [2, 3] = new :: later → ∃ conflict result t',
        requestResourceConflict 4 t 0 new = some (conflict, t') ∧
          requestResource 4 t 0 new = some (result, t') ∧
          Answers t 0 children new conflict result t' :=
  requests_ordered 4 threeResources 0 [] [1, 2, 3]
    ⟨.nil, ⟨fun a ha => (by cases ha), .nil⟩, fun a ha => (by cases ha), fun a ha => (by cases ha),
      List.not_mem_nil⟩ (by decide) (by decide) (by decide) [1] [2, 3] rfl

end BiscuitOS.ResourceTree
