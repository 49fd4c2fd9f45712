import BiscuitOS.TransitionRun
import BiscuitOS.ListTable
import BiscuitOS.PageAddressModel

/-!
# The page-address hash table over whole runs

A run sets and clears the addresses of pages. Clearing takes the first element
of a bucket, so the table is a map as long as this is the element of the page.
-/

namespace BiscuitOS.PageAddressHistory

open TransitionRun ListTable PageAddressModel

/-- The table, and the pages that have an address with these addresses, in the order in which
they were set. -/
structure AddressWorld where
  /-- The table. -/
  table : PageAddressTable
  /-- The pages with an address. -/
  given : List PageAddressMap

/-- After `page_address_init`. -/
def initWorld : AddressWorld := ⟨PageAddressModel.pageAddressInit, []⟩

/-- Perform a call for a page with an address. -/
def perform (w : AddressWorld) (call : ℕ × ℕ) : Option AddressWorld :=
  (setPageAddress w.table call.1 call.2).map fun table =>
    ⟨table, if call.2 ≠ 0 then w.given ++ [⟨call.1, call.2⟩]
      else w.given.filter fun pam => pam.page ≠ call.1⟩

/-- What callers promise: pages are not `NULL`, a page is given an address only while it has none,
and at most `LAST_PKMAP` pages have one. -/
def Legal (w : AddressWorld) (call : ℕ × ℕ) : Prop :=
  0 < call.1 ∧ (call.2 ≠ 0 →
    (∀ pam ∈ w.given, pam.page ≠ call.1) ∧ w.given.length < lastPkmap)

/-- The pages with an address in a bucket, in the order in which they were set. -/
def waiting (given : List PageAddressMap) (bucket : ℕ) : List PageAddressMap :=
  given.filter fun pam => pageSlot pam.page = bucket

/-- The page whose address is cleared comes first among the pages in its bucket, if there are
any. -/
def ClearsFirst (w : AddressWorld) (call : ℕ × ℕ) : Prop :=
  call.2 = 0 → ∀ pam ∈ (waiting w.given (pageSlot call.1)).head?, pam.page = call.1

/-- Promises of callers are decided. -/
instance decidableLegal (w : AddressWorld) (call : ℕ × ℕ) : Decidable (Legal w call) :=
  inferInstanceAs (Decidable (0 < call.1 ∧ (call.2 ≠ 0 →
    (∀ pam ∈ w.given, pam.page ≠ call.1) ∧ w.given.length < lastPkmap)))

/-- Whether the page comes first is decided. -/
instance decidableClearsFirst (w : AddressWorld) (call : ℕ × ℕ) : Decidable (ClearsFirst w call) :=
  inferInstanceAs (Decidable (call.2 = 0 →
    ∀ pam ∈ (waiting w.given (pageSlot call.1)).head?, pam.page = call.1))

/-- The addresses after a call. -/
def assign (f : ℕ → ℕ) (call : ℕ × ℕ) : ℕ → ℕ := Function.update f call.1 call.2

/-- The address of the last call for each page, zero if there was none. -/
def lastAddress (calls : List (ℕ × ℕ)) : ℕ → ℕ := calls.foldl assign fun _ => 0

/-- The pool and the buckets. -/
def places (w : PageAddressTable) (place : Option ℕ) : List ℕ :=
  place.elim w.pageAddressPool w.pageAddressHtable

/-- The table is the map `f`, and every element is in exactly one place. -/
structure IsMap (w : PageAddressTable) (f : ℕ → ℕ) : Prop where
  /-- `page_address`. -/
  address : ∀ page, 0 < page → PageAddressModel.pageAddress w page = f page
  /-- No element is in two places, or twice in one. -/
  separate : Separate (places w)
  /-- Every element is in some place, which is the pool or a bucket. -/
  placed : ∀ pam < lastPkmap, pam ∈ w.pageAddressPool ∨
    ∃ bucket < buckets, pam ∈ w.pageAddressHtable bucket

/-- The address of a page that has one, zero for others. -/
def addressOf (given : List PageAddressMap) (page : ℕ) : ℕ :=
  (given.find? fun pam => pam.page = page).elim 0 PageAddressMap.virtual

/-- The table holds the pages that have an address. -/
structure TableInv (w : AddressWorld) : Prop where
  /-- The elements of a bucket are the pages waiting there. -/
  entries : ∀ bucket, (w.table.pageAddressHtable bucket).map w.table.pageAddressMaps =
    waiting w.given bucket
  /-- A page has one address. -/
  pages : (w.given.map PageAddressMap.page).Nodup
  /-- Pages and addresses are not `NULL`. -/
  positive : ∀ pam ∈ w.given, 0 < pam.page ∧ pam.virtual ≠ 0
  /-- No element is in two places. -/
  separate : Separate (places w.table)
  /-- The elements in the places. -/
  elements : members (places w.table) = {pam | pam < lastPkmap}
  /-- The pool holds what is not used. -/
  room : w.table.pageAddressPool.length + w.given.length = lastPkmap

variable {w : AddressWorld} {page virtual : ℕ}

/-- Buckets are those of the table. -/
theorem pageSlot_lt (page : ℕ) : pageSlot page < buckets := by
  rw [pageSlot, MachineWord.wrap, buckets]
  omega

/-- The address of a page by the first of those that have one. -/
theorem addressOf_cons (pam : PageAddressMap) (given : List PageAddressMap) (page : ℕ) :
    addressOf (pam :: given) page = if pam.page = page then pam.virtual else addressOf given page := by
  rw [addressOf, List.find?_cons]
  by_cases hp : pam.page = page
  · simp [hp]
  · simp [hp, addressOf]

/-- A page that has no address. -/
theorem addressOf_zero {given : List PageAddressMap} (hnone : ∀ pam ∈ given, pam.page ≠ page) :
    addressOf given page = 0 := by
  induction given with
  | nil => rfl
  | cons pam given ih =>
    rw [addressOf_cons, if_neg (hnone pam List.mem_cons_self)]
    exact ih fun pam hpam => hnone pam (List.mem_cons_of_mem _ hpam)

/-- Only the pages waiting in the bucket of a page matter. -/
theorem addressOf_waiting (given : List PageAddressMap) (page : ℕ) :
    addressOf (waiting given (pageSlot page)) page = addressOf given page := by
  induction given with
  | nil => rfl
  | cons pam given ih =>
    rw [waiting, List.filter_cons, addressOf_cons, ← ih]
    by_cases hp : pam.page = page
    · rw [if_pos (by rw [hp]; exact decide_eq_true rfl), addressOf_cons, if_pos hp, if_pos hp]
    · rw [if_neg hp]
      split
      · rw [addressOf_cons, if_neg hp, waiting]
      · rfl

/-- The first element with a page holds its address. -/
theorem addressOf_map (maps : ℕ → PageAddressMap) (bucket : List ℕ) (page : ℕ) :
    addressOf (bucket.map maps) page =
      (bucket.find? fun pam => (maps pam).page = page).elim 0 fun pam => (maps pam).virtual := by
  induction bucket with
  | nil => rfl
  | cons pam bucket ih =>
    rw [List.map_cons, addressOf_cons, List.find?_cons, ih]
    by_cases hp : (maps pam).page = page
    · simp [hp]
    · simp [hp]

/-- A page that is given an address. -/
theorem addressOf_append {given : List PageAddressMap} (hnew : ∀ pam ∈ given, pam.page ≠ page) :
    addressOf (given ++ [⟨page, virtual⟩]) = assign (addressOf given) (page, virtual) := by
  funext q
  rw [assign, Function.update_apply]
  induction given with
  | nil =>
    rw [List.nil_append, addressOf_cons]
    by_cases hq : q = page
    · rw [if_pos hq.symm, if_pos hq]
    · rw [if_neg (Ne.symm hq), if_neg hq]
  | cons pam given ih =>
    have hne := hnew pam List.mem_cons_self
    rw [List.cons_append, addressOf_cons, addressOf_cons,
      ih fun pam hpam => hnew pam (List.mem_cons_of_mem _ hpam)]
    by_cases hq : q = page
    · rw [hq, if_neg hne, if_pos rfl, if_pos rfl]
    · rw [if_neg hq, if_neg hq]

/-- A page whose address is cleared. -/
theorem addressOf_filter (given : List PageAddressMap) (page : ℕ) :
    addressOf (given.filter fun pam => pam.page ≠ page) = assign (addressOf given) (page, 0) := by
  funext q
  rw [assign, Function.update_apply]
  induction given with
  | nil => exact (ite_self (0 : ℕ)).symm
  | cons pam given ih =>
    rw [List.filter_cons, addressOf_cons]
    by_cases hp : pam.page = page
    · rw [if_neg (by simp [hp]), ih]
      by_cases hq : q = page
      · rw [if_pos hq, if_pos hq]
      · rw [if_neg hq, if_neg hq, if_neg (by rw [hp]; exact Ne.symm hq)]
    · rw [if_pos (decide_eq_true hp), addressOf_cons, ih]
      by_cases hq : q = page
      · rw [if_pos hq, if_pos hq, if_neg (by rw [hq]; exact hp)]
      · rw [if_neg hq, if_neg hq]

/-- `page_address` gives the address of the page. -/
theorem TableInv.pageAddress_eq (h : TableInv w) (page : ℕ) :
    PageAddressModel.pageAddress w.table page = addressOf w.given page := by
  rw [← addressOf_waiting, ← h.entries, addressOf_map, PageAddressModel.pageAddress]

/-- The invariant gives the map. -/
theorem TableInv.isMap (h : TableInv w) : IsMap w.table (addressOf w.given) where
  address page _ := h.pageAddress_eq page
  separate := h.separate
  placed pam hpam := by
    have hmem : pam ∈ members (places w.table) := by
      rw [h.elements]
      exact hpam
    obtain ⟨place, hplace⟩ := mem_members.mp hmem
    cases place with
    | none => exact .inl hplace
    | some bucket =>
      refine .inr ⟨bucket, ?_, hplace⟩
      have hentry : w.table.pageAddressMaps pam ∈ waiting w.given bucket :=
        h.entries bucket ▸ List.mem_map_of_mem hplace
      rw [waiting, List.mem_filter, decide_eq_true_eq] at hentry
      rw [← hentry.2]
      exact pageSlot_lt _

/-- An element outside a bucket may change. -/
theorem map_update {maps : ℕ → PageAddressMap} {bucket : List ℕ} {pam : ℕ} (h : pam ∉ bucket)
    (entry : PageAddressMap) : bucket.map (Function.update maps pam entry) = bucket.map maps :=
  List.map_congr_left fun _ ha => Function.update_of_ne (ne_of_mem_of_not_mem ha h) _ _

/-- The places after an element of the pool went to a bucket. -/
theorem places_add {w : PageAddressTable} {pam bucket : ℕ} {pool : List ℕ} {maps : ℕ → PageAddressMap}
    (hs : Separate (places w)) (hpool : w.pageAddressPool = pam :: pool) :
    places ⟨maps, pool, Function.update w.pageAddressHtable bucket
        (w.pageAddressHtable bucket ++ [pam])⟩ =
      Function.update (unlink (places w) pam) (some bucket)
        (w.pageAddressHtable bucket ++ [pam]) := by
  have hhead : Function.update (places w) none pool = unlink (places w) pam :=
    hs.unlink_head hpool
  funext place
  rw [← hhead]
  cases place with
  | none => rfl
  | some b =>
    rw [Function.update_apply]
    by_cases hb : b = bucket
    · rw [if_pos (congrArg some hb), hb]
      exact Function.update_self _ _ _
    · rw [if_neg (by simpa using hb), Function.update_of_ne (by simp)]
      exact Function.update_of_ne hb _ _

/-- The places after the first element of a bucket went to the pool. -/
theorem places_clear {w : PageAddressTable} {pam bucket : ℕ} {rest : List ℕ} {maps : ℕ → PageAddressMap}
    (hs : Separate (places w)) (hbucket : w.pageAddressHtable bucket = pam :: rest) :
    places ⟨maps, w.pageAddressPool ++ [pam],
        Function.update w.pageAddressHtable bucket rest⟩ =
      Function.update (unlink (places w) pam) none (w.pageAddressPool ++ [pam]) := by
  have hhead : Function.update (places w) (some bucket) rest =
      unlink (places w) pam := hs.unlink_head hbucket
  funext place
  rw [← hhead]
  cases place with
  | none => rfl
  | some b =>
    rw [Function.update_of_ne (by simp)]
    by_cases hb : b = bucket
    · rw [hb, Function.update_self]
      exact Function.update_self _ _ _
    · rw [Function.update_of_ne (by simpa using hb)]
      exact Function.update_of_ne hb _ _

/-- Setting an address keeps the invariant and assigns the address. -/
theorem TableInv.add (h : TableInv w) (hlegal : Legal w (page, virtual)) (hv : virtual ≠ 0) :
    ∃ t, perform w (page, virtual) = some t ∧ TableInv t ∧
      addressOf t.given = assign (addressOf w.given) (page, virtual) := by
  obtain ⟨hpage, hfree⟩ := hlegal
  obtain ⟨hnew, hroom⟩ := hfree hv
  cases hpool : w.table.pageAddressPool with
  | nil =>
    have := h.room
    rw [hpool, List.length_nil] at this
    omega
  | cons pam pool =>
    have hmem : pam ∈ places w.table none := by
      rw [places, Option.elim_none, hpool]
      exact List.mem_cons_self
    have hout : ∀ b, pam ∉ w.table.pageAddressHtable b := fun b hb =>
      Option.some_ne_none b (h.separate.unique pam (some b) none hb hmem)
    have hl : (w.table.pageAddressHtable (pageSlot page) ++ [pam]).Perm
        (pam :: places w.table (some (pageSlot page))) := List.perm_append_singleton _ _
    obtain ⟨hsep, hmembers⟩ := h.separate.move hmem (Option.some_ne_none (pageSlot page)) hl
    refine ⟨_, by rw [perform, setPageAddress_add hv hpool, Option.map_some, if_pos hv], ?_,
      addressOf_append hnew⟩
    constructor
    · intro b
      dsimp only
      rw [waiting, List.filter_append, ← waiting, ← h.entries b, Function.update_apply]
      by_cases hb : b = pageSlot page
      · rw [if_pos hb, hb, List.map_append, map_update (hout _), List.map_singleton,
          Function.update_self, List.filter_cons_of_pos (by simp), List.filter_nil]
      · rw [if_neg hb, map_update (hout _), List.filter_cons_of_neg (by simpa using Ne.symm hb),
          List.filter_nil, List.append_nil]
    · dsimp only
      rw [List.map_append, List.map_singleton, ← List.concat_eq_append, List.nodup_concat]
      refine ⟨fun hm => ?_, h.pages⟩
      obtain ⟨pam, hpam, heq⟩ := List.mem_map.mp hm
      exact hnew pam hpam heq
    · intro pam hpam
      rcases List.mem_append.mp hpam with hold | hlast
      · exact h.positive pam hold
      · rw [List.mem_singleton.mp hlast]
        exact ⟨hpage, hv⟩
    · rw [places_add h.separate hpool]
      exact hsep
    · rw [places_add h.separate hpool, hmembers, h.elements]
    · have := h.room
      rw [hpool, List.length_cons] at this
      rw [List.length_append, List.length_singleton]
      dsimp only
      omega

/-- The page that waits first in a bucket is the one of the first element. -/
theorem TableInv.first (h : TableInv w) {bucket pam : ℕ} {rest : List ℕ}
    (hbucket : w.table.pageAddressHtable bucket = pam :: rest) :
    waiting w.given bucket =
      w.table.pageAddressMaps pam :: rest.map w.table.pageAddressMaps := by
  rw [← h.entries, hbucket, List.map_cons]

/-- Without the first of some waiting pages, the rest waits. -/
theorem waiting_filter {given : List PageAddressMap} {first : PageAddressMap}
    {rest : List PageAddressMap} (hpages : (given.map PageAddressMap.page).Nodup)
    (hwaiting : waiting given (pageSlot first.page) = first :: rest) (bucket : ℕ) :
    waiting (given.filter fun pam => pam.page ≠ first.page) bucket =
      if bucket = pageSlot first.page then rest else waiting given bucket := by
  have hcomm : waiting (given.filter fun pam => pam.page ≠ first.page) bucket =
      (waiting given bucket).filter fun pam => pam.page ≠ first.page := by
    rw [waiting, waiting, List.filter_filter, List.filter_filter]
    exact List.filter_congr fun pam _ => Bool.and_comm _ _
  rw [hcomm]
  by_cases hb : bucket = pageSlot first.page
  · have hnodup : ((waiting given (pageSlot first.page)).map PageAddressMap.page).Nodup :=
      hpages.sublist (List.filter_sublist.map _)
    rw [hwaiting, List.map_cons, List.nodup_cons] at hnodup
    rw [if_pos hb, hb, hwaiting, List.filter_cons_of_neg (by simp)]
    refine List.filter_eq_self.mpr fun pam hpam => decide_eq_true fun heq => hnodup.1 ?_
    exact List.mem_map.mpr ⟨pam, hpam, heq⟩
  · rw [if_neg hb]
    refine List.filter_eq_self.mpr fun pam hpam => decide_eq_true fun heq => hb ?_
    rw [waiting, List.mem_filter, decide_eq_true_eq] at hpam
    rw [← hpam.2, heq]

/-- One page less has an address. -/
theorem length_without {given : List PageAddressMap} {pam : PageAddressMap}
    (hpages : (given.map PageAddressMap.page).Nodup) (hin : pam ∈ given) :
    (given.filter fun other => other.page ≠ pam.page).length + 1 = given.length := by
  induction given with
  | nil => cases hin
  | cons first rest ih =>
    rw [List.map_cons, List.nodup_cons] at hpages
    rcases List.mem_cons.mp hin with rfl | hin
    · have hall : (rest.filter fun other => other.page ≠ pam.page) = rest := by
        refine List.filter_eq_self.mpr fun other hother => decide_eq_true fun heq => hpages.1 ?_
        exact List.mem_map.mpr ⟨other, hother, heq⟩
      rw [List.filter_cons_of_neg (by simp), hall, List.length_cons]
    · have hne : first.page ≠ pam.page := fun heq =>
        hpages.1 (List.mem_map.mpr ⟨pam, hin, heq.symm⟩)
      rw [List.filter_cons_of_pos (by simpa using hne), List.length_cons, List.length_cons,
        ih hpages.2 hin]

/-- Clearing an address keeps the invariant and assigns `NULL`, if the page comes first. -/
theorem TableInv.clear (h : TableInv w) (hpage : 0 < page) (hfirst : ClearsFirst w (page, 0)) :
    ∃ t, perform w (page, 0) = some t ∧ TableInv t ∧
      addressOf t.given = assign (addressOf w.given) (page, 0) := by
  have hgiven : (if (0 : ℕ) ≠ 0 then w.given ++ [⟨page, 0⟩] else
      w.given.filter fun pam => pam.page ≠ page) = w.given.filter fun pam => pam.page ≠ page :=
    if_neg (not_not.mpr rfl)
  cases hbucket : w.table.pageAddressHtable (pageSlot page) with
  | nil =>
    have hsame : (w.given.filter fun pam => pam.page ≠ page) = w.given := by
      refine List.filter_eq_self.mpr fun pam hpam => decide_eq_true fun heq => ?_
      have hentries := h.entries (pageSlot page)
      rw [hbucket, List.map_nil] at hentries
      have hin : pam ∈ waiting w.given (pageSlot page) :=
        List.mem_filter.mpr ⟨hpam, decide_eq_true (congrArg pageSlot heq)⟩
      rw [← hentries] at hin
      cases hin
    refine ⟨w, ?_, h, ?_⟩
    · rw [perform, setPageAddress_empty hbucket, Option.map_some, hgiven, hsame]
    · rw [← addressOf_filter, hsame]
  | cons pam rest =>
    have hwaiting := h.first hbucket
    have hown : (w.table.pageAddressMaps pam).page = page :=
      hfirst rfl _ (by rw [hwaiting]; exact rfl)
    have hmem : pam ∈ places w.table (some (pageSlot page)) := by
      rw [places, Option.elim_some, hbucket]
      exact List.mem_cons_self
    have hl : (w.table.pageAddressPool ++ [pam]).Perm (pam :: places w.table none) :=
      List.perm_append_singleton _ _
    obtain ⟨hsep, hmembers⟩ :=
      h.separate.move hmem (Option.some_ne_none (pageSlot page)).symm hl
    refine ⟨_, by rw [perform, setPageAddress_clear hpage.ne' hbucket, Option.map_some, hgiven],
      ?_, addressOf_filter w.given page⟩
    have hkeep : Function.update w.table.pageAddressMaps pam
        { w.table.pageAddressMaps pam with page := page } = w.table.pageAddressMaps := by
      rw [← hown]
      exact Function.update_eq_self _ _
    rw [hkeep]
    constructor
    · intro b
      have hrest := waiting_filter h.pages (by rw [hown]; exact hwaiting) b
      rw [hown] at hrest
      dsimp only
      rw [hrest, Function.update_apply]
      by_cases hb : b = pageSlot page
      · rw [if_pos hb, if_pos hb]
      · rw [if_neg hb, if_neg hb, h.entries b]
    · exact h.pages.sublist (List.filter_sublist.map _)
    · exact fun pam hpam => h.positive pam (List.mem_of_mem_filter hpam)
    · rw [places_clear h.separate hbucket]
      exact hsep
    · rw [places_clear h.separate hbucket, hmembers, h.elements]
    · have hroom := h.room
      have hin : w.table.pageAddressMaps pam ∈ w.given := by
        have hin : w.table.pageAddressMaps pam ∈ waiting w.given (pageSlot page) := by
          rw [hwaiting]
          exact List.mem_cons_self
        exact List.mem_of_mem_filter hin
      have hlen := length_without h.pages hin
      rw [hown] at hlen
      rw [List.length_append, List.length_singleton]
      dsimp only
      omega

/-- Clearing an address takes the address of the page that comes first. -/
theorem TableInv.clear_wrong (h : TableInv w) (hpage : 0 < page)
    (hfirst : ¬ ClearsFirst w (page, 0)) {t : AddressWorld} (ht : perform w (page, 0) = some t) :
    ∃ other, 0 < other ∧
      PageAddressModel.pageAddress t.table other ≠ assign (addressOf w.given) (page, 0) other := by
  cases hbucket : w.table.pageAddressHtable (pageSlot page) with
  | nil =>
    refine absurd (fun _ pam hpam => ?_) hfirst
    rw [← h.entries, hbucket] at hpam
    cases hpam
  | cons pam rest =>
    have hwaiting := h.first hbucket
    have hother : (w.table.pageAddressMaps pam).page ≠ page := by
      intro heq
      refine hfirst fun _ pam hpam => ?_
      rw [hwaiting] at hpam
      rw [← Option.some.inj hpam, heq]
    have hin : w.table.pageAddressMaps pam ∈ waiting w.given (pageSlot page) := by
      rw [hwaiting]
      exact List.mem_cons_self
    rw [waiting, List.mem_filter, decide_eq_true_eq] at hin
    obtain ⟨hgiven, hslot⟩ := hin
    obtain ⟨hpositive, hvirtual⟩ := h.positive _ hgiven
    refine ⟨_, hpositive, ?_⟩
    have hold : addressOf w.given (w.table.pageAddressMaps pam).page =
        (w.table.pageAddressMaps pam).virtual := by
      rw [← addressOf_waiting, hslot, hwaiting, addressOf_cons, if_pos rfl]
    have hout : pam ∉ rest := by
      have hnodup := h.separate.nodup (some (pageSlot page))
      rw [places, Option.elim_some, hbucket, List.nodup_cons] at hnodup
      exact hnodup.1
    have hgone : PageAddressModel.pageAddress t.table (w.table.pageAddressMaps pam).page = 0 := by
      rw [perform, setPageAddress_clear hpage.ne' hbucket, Option.map_some, Option.some.injEq] at ht
      rw [← ht, PageAddressModel.pageAddress, ← addressOf_map]
      dsimp only
      rw [hslot, Function.update_self, map_update hout]
      have hnodup : ((waiting w.given (pageSlot page)).map PageAddressMap.page).Nodup :=
        h.pages.sublist (List.filter_sublist.map _)
      rw [hwaiting, List.map_cons, List.nodup_cons] at hnodup
      refine addressOf_zero fun other hmem heq => hnodup.1 ?_
      exact List.mem_map.mpr ⟨other, hmem, heq⟩
    rw [hgone, assign, Function.update_of_ne hother, hold]
    exact hvirtual.symm

/-- Adding elements at the head one after the other. -/
theorem foldl_cons (l acc : List ℕ) : l.foldl (fun pool i => i :: pool) acc = l.reverse ++ acc := by
  induction l generalizing acc with
  | nil => rfl
  | cons i l ih => rw [List.foldl_cons, ih, List.reverse_cons, List.append_assoc, List.singleton_append]

/-- The pool after `page_address_init`. -/
theorem initWorld_pool : initWorld.table.pageAddressPool = (List.range lastPkmap).reverse := by
  rw [initWorld, PageAddressModel.pageAddressInit, foldl_cons, List.append_nil]

/-- The buckets are empty after `page_address_init`. -/
theorem initWorld_places (place : Option ℕ) :
    places initWorld.table place = if place = none then (List.range lastPkmap).reverse else [] := by
  cases place with
  | none => rw [if_pos rfl, places, Option.elim_none, initWorld_pool]
  | some bucket => rw [if_neg (Option.some_ne_none bucket)]; rfl

/-- `page_address_init` establishes the invariant. -/
theorem initWorld_inv : TableInv initWorld := by
  constructor
  · exact fun _ => rfl
  · exact List.nodup_nil
  · exact fun _ h => by cases h
  · constructor
    · intro place
      rw [initWorld_places]
      split
      · exact List.nodup_reverse.mpr List.nodup_range
      · exact List.nodup_nil
    · intro i j k hj hk
      rw [initWorld_places] at hj hk
      split at hj
      · split at hk
        · simp_all
        · cases hk
      · cases hj
  · ext i
    rw [mem_members]
    constructor
    · rintro ⟨place, hplace⟩
      rw [initWorld_places] at hplace
      split at hplace
      · exact List.mem_range.mp (List.mem_reverse.mp hplace)
      · cases hplace
    · intro hi
      refine ⟨none, ?_⟩
      rw [initWorld_places, if_pos rfl]
      exact List.mem_reverse.mpr (List.mem_range.mpr hi)
  · rw [initWorld_pool, List.length_reverse, List.length_range]
    exact Nat.add_zero _

/-- A call that clears the first page only keeps the invariant and is the one of the map. -/
theorem TableInv.step (h : TableInv w) {call : ℕ × ℕ} (hlegal : Legal w call)
    (hfirst : ClearsFirst w call) :
    ∃ t, perform w call = some t ∧ TableInv t ∧
      addressOf t.given = assign (addressOf w.given) call := by
  obtain ⟨page, virtual⟩ := call
  by_cases hv : virtual = 0
  · subst hv
    exact h.clear hlegal.1 hfirst
  · exact h.add hlegal hv

/-- A run that clears first pages only ends with the map. -/
theorem TableInv.run (h : TableInv w) {calls : List (ℕ × ℕ)}
    (hlegal : Admissible perform Legal w calls) (hfirst : Admissible perform ClearsFirst w calls) :
    ∃ t, exec perform w calls = some t ∧
      IsMap t.table (calls.foldl assign (addressOf w.given)) := by
  obtain ⟨t, ht, hinv, hgiven⟩ := exec_refines assign
    (fun w f => TableInv w ∧ addressOf w.given = f) (fun w f call hi hok => by
      obtain ⟨t, ht, hinv, hgiven⟩ := hi.1.step hok.1 hok.2
      exact ⟨t, ht, hinv, by rw [hgiven, hi.2]⟩)
    (show TableInv w ∧ addressOf w.given = addressOf w.given from ⟨h, rfl⟩) (hlegal.and hfirst)
  exact ⟨t, ht, hgiven ▸ hinv.isMap⟩

/-- A run all of whose states hold the map clears first pages only. -/
theorem TableInv.run_first (h : TableInv w) {calls : List (ℕ × ℕ)}
    (hlegal : Admissible perform Legal w calls)
    (hmap : ∀ before after, calls = before ++ after → ∃ t, exec perform w before = some t ∧
      IsMap t.table (before.foldl assign (addressOf w.given))) :
    Admissible perform ClearsFirst w calls := by
  induction calls generalizing w with
  | nil => trivial
  | cons call calls ih =>
    have hfirst : ClearsFirst w call := by
      by_contra hwrong
      obtain ⟨page, virtual⟩ := call
      have hv : virtual = 0 := by
        by_contra hv
        exact hwrong fun h0 => absurd h0 hv
      subst hv
      obtain ⟨t, ht, hat⟩ := hmap [(page, 0)] calls rfl
      rw [exec, Option.bind_eq_some_iff] at ht
      obtain ⟨u, hu, ht⟩ := ht
      rw [exec, Option.some.injEq] at ht
      subst ht
      obtain ⟨other, hpos, hne⟩ := h.clear_wrong hlegal.1.1 hwrong hu
      exact hne (hat.address other hpos)
    obtain ⟨t, ht, hinv, hgiven⟩ := h.step hlegal.1 hfirst
    refine ⟨hfirst, fun u hu => ?_⟩
    rw [ht, Option.some.injEq] at hu
    subst hu
    refine ih hinv (hlegal.2 t ht) fun before after hsplit => ?_
    obtain ⟨u, hu, hat⟩ := hmap (call :: before) after (by rw [hsplit, List.cons_append])
    rw [exec, ht, Option.bind_some] at hu
    rw [hgiven]
    exact ⟨u, hu, hat⟩

/-- The table is a map in every state of a run exactly when every call that clears an address finds
the page first in its bucket, or the bucket empty. -/
theorem history_isMap_iff (calls : List (ℕ × ℕ)) (hlegal : Admissible perform Legal initWorld calls) :
    Admissible perform ClearsFirst initWorld calls ↔
      ∀ before after, calls = before ++ after → ∃ w, exec perform initWorld before = some w ∧
        IsMap w.table (lastAddress before) := by
  constructor
  · rintro hfirst before after rfl
    exact initWorld_inv.run hlegal.prefix hfirst.prefix
  · exact initWorld_inv.run_first hlegal

/-- A page is set and cleared, and so is another one in its bucket. -/
theorem history_isMap_iff_pair : ∃ w,
    exec perform initWorld [(64, 8192), (64, 0), (7808, 8192), (7808, 0)] = some w ∧
      IsMap w.table (lastAddress [(64, 8192), (64, 0), (7808, 8192), (7808, 0)]) := by
  have hlegal : Admissible perform Legal initWorld [(64, 8192), (64, 0), (7808, 8192), (7808, 0)] := by
    decide +kernel
  have hfirst :
      Admissible perform ClearsFirst initWorld [(64, 8192), (64, 0), (7808, 8192), (7808, 0)] := by
    decide +kernel
  exact (history_isMap_iff _ hlegal).mp hfirst _ [] rfl

/-- Two pages of one bucket are set, and clearing the second one clears the first one. -/
theorem clear_second :
    Admissible perform Legal initWorld [(64, 8192), (7808, 12288), (7808, 0)] ∧
      (exec perform initWorld [(64, 8192), (7808, 12288), (7808, 0)]).map
          (fun w => (PageAddressModel.pageAddress w.table 64, PageAddressModel.pageAddress w.table 7808)) =
        some (0, 12288) ∧
      lastAddress [(64, 8192), (7808, 12288), (7808, 0)] 64 = 8192 ∧
      lastAddress [(64, 8192), (7808, 12288), (7808, 0)] 7808 = 0 := by
  refine ⟨?_, ?_, ?_, ?_⟩ <;> decide +kernel

end BiscuitOS.PageAddressHistory
