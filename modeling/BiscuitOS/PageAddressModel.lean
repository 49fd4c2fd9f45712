import BiscuitOS.MachineWord

/-!
# The page-address hash table

`page_address_init`, `set_page_address` and `page_address` of `mm/highmem.c`
with the elements of `page_address_maps`, which are moved between a pool and
the buckets of a hash table. Elements are their indices, and pages are the
addresses of their descriptors, in high memory: the check of
`set_page_address` for them is not part of it here.
-/

namespace BiscuitOS.PageAddressModel

open MachineWord

/-- `LAST_PKMAP`. -/
def lastPkmap : ℕ := 512

/-- `page_slot`: the bucket of a page, by `hash_ptr` with `PA_HASH_ORDER` bits. -/
def pageSlot (page : ℕ) : ℕ := wrap 32 (wrap 32 page * 0x9e370001) / 2 ^ (32 - 7)

/-- `struct page_address_map`. -/
structure PageAddressMap where
  /-- `page`. -/
  page : ℕ
  /-- `virtual`. -/
  virtual : ℕ
  deriving DecidableEq

/-- `1 << PA_HASH_ORDER`. -/
def buckets : ℕ := 1 <<< 7

/-- The static data of the table. -/
structure PageAddressTable where
  /-- `page_address_maps`. -/
  pageAddressMaps : ℕ → PageAddressMap
  /-- `page_address_pool`. -/
  pageAddressPool : List ℕ
  /-- `page_address_htable`. -/
  pageAddressHtable : ℕ → List ℕ

/-- `page_address_init`. -/
def pageAddressInit : PageAddressTable where
  pageAddressMaps := fun _ => ⟨0, 0⟩
  pageAddressPool := (List.range lastPkmap).foldl (fun pool i => i :: pool) []
  pageAddressHtable := fun _ => []

/-- `page_address`. -/
def pageAddress (w : PageAddressTable) (page : ℕ) : ℕ :=
  ((w.pageAddressHtable (pageSlot page)).find? fun pam =>
    (w.pageAddressMaps pam).page = page).elim 0 fun pam => (w.pageAddressMaps pam).virtual

/-- The loop of `set_page_address` over a bucket. Its test `pam->page = page` stores the page in
each element it visits, and succeeds unless the page is `NULL`. -/
def visitBucket (page : ℕ) : (ℕ → PageAddressMap) → List ℕ → (ℕ → PageAddressMap) × Option ℕ
  | maps, [] => (maps, none)
  | maps, pam :: rest =>
    let maps := Function.update maps pam { maps pam with page := page }
    if page ≠ 0 then (maps, some pam) else visitBucket page maps rest

/-- `set_page_address`. With an empty pool the head of the list is taken for an element, which
does not return. -/
def setPageAddress (w : PageAddressTable) (page virtual : ℕ) : Option PageAddressTable :=
  let pas := pageSlot page
  if virtual ≠ 0 then
    match w.pageAddressPool with
    | [] => none
    | pam :: pool =>
      some
        { pageAddressMaps := Function.update w.pageAddressMaps pam ⟨page, virtual⟩
          pageAddressPool := pool
          pageAddressHtable := Function.update w.pageAddressHtable pas
            (w.pageAddressHtable pas ++ [pam]) }
  else
    let visited := visitBucket page w.pageAddressMaps (w.pageAddressHtable pas)
    match visited.2 with
    | none => some { w with pageAddressMaps := visited.1 }
    | some pam =>
      some
        { pageAddressMaps := visited.1
          pageAddressPool := w.pageAddressPool ++ [pam]
          pageAddressHtable := Function.update w.pageAddressHtable pas
            ((w.pageAddressHtable pas).erase pam) }

variable {w : PageAddressTable} {page virtual pam : ℕ} {pool rest : List ℕ}

/-- `set_page_address` with an address takes the first element of the pool. -/
theorem setPageAddress_add (hvirtual : virtual ≠ 0) (hpool : w.pageAddressPool = pam :: pool) :
    setPageAddress w page virtual = some
      ⟨Function.update w.pageAddressMaps pam ⟨page, virtual⟩, pool,
        Function.update w.pageAddressHtable (pageSlot page)
          (w.pageAddressHtable (pageSlot page) ++ [pam])⟩ := by
  rw [setPageAddress]
  simp only [hvirtual, ne_eq, not_false_eq_true, if_true, hpool]

/-- `set_page_address` with `NULL` takes the first element of the bucket. -/
theorem setPageAddress_clear (hpage : page ≠ 0)
    (hbucket : w.pageAddressHtable (pageSlot page) = pam :: rest) :
    setPageAddress w page 0 = some
      ⟨Function.update w.pageAddressMaps pam { w.pageAddressMaps pam with page := page },
        w.pageAddressPool ++ [pam], Function.update w.pageAddressHtable (pageSlot page) rest⟩ := by
  rw [setPageAddress]
  simp only [ne_eq, not_true_eq_false, if_false, hbucket, visitBucket, hpage, not_false_eq_true,
    if_true, List.erase_cons_head]

/-- `set_page_address` with `NULL` does nothing when the bucket is empty. -/
theorem setPageAddress_empty (hbucket : w.pageAddressHtable (pageSlot page) = []) :
    setPageAddress w page 0 = some w := by
  rw [setPageAddress]
  simp only [ne_eq, not_true_eq_false, if_false, hbucket, visitBucket]

end BiscuitOS.PageAddressModel
