import Icecast.Format.OggHeaders
import Mathlib.Algebra.BigOperators.Group.Finset.Piecewise

/-!
# The counts of the header pages

Along a run in which header pages are only linked where no data buffer would come to them, the count
of a page is the number of its holders. What a state has to satisfy is said with the lists that the
pointers stand for: the header list, and for each data buffer the pages that it holds.
-/

namespace Icecast.Format.OggHeaders

open Lib Lib.LinkedList Lib.Machine

/-! ## Counting holders -/

/-- The number of buffers among the first `n` that hold a page. -/
def tally (held : ℕ → List ℕ) (n page : ℕ) : ℕ :=
  ∑ id ∈ Finset.range n, if page ∈ held id then 1 else 0

/-- The number of references to a page. -/
def refs (list : List ℕ) (held : ℕ → List ℕ) (n page : ℕ) : ℕ :=
  (if page ∈ list then 1 else 0) + tally held n page

theorem tally_alloc (held : ℕ → List ℕ) (n page : ℕ) (list : List ℕ) :
    tally (Function.update held n list) (n + 1) page =
      tally held n page + if page ∈ list then 1 else 0 := by
  have hold : ∀ id ∈ Finset.range n,
      (if page ∈ Function.update held n list id then 1 else 0) =
        if page ∈ held id then 1 else 0 := by
    intro id hid
    rw [Function.update_of_ne (Nat.ne_of_lt (Finset.mem_range.mp hid))]
  rw [tally, Finset.sum_range_succ, Finset.sum_congr rfl hold, Function.update_self, tally]

theorem tally_clear (held : ℕ → List ℕ) {n id : ℕ} (hid : id < n) (page : ℕ) :
    tally (Function.update held id []) n page + (if page ∈ held id then 1 else 0) =
      tally held n page := by
  have hmem : id ∈ Finset.range n := Finset.mem_range.mpr hid
  have hrest : ∀ other ∈ (Finset.range n).erase id,
      (if page ∈ Function.update held id [] other then 1 else 0) =
        if page ∈ held other then 1 else 0 := by
    intro other hother
    rw [Function.update_of_ne (Finset.ne_of_mem_erase hother)]
  calc tally (Function.update held id []) n page + (if page ∈ held id then 1 else 0)
      = ∑ other ∈ (Finset.range n).erase id, (if page ∈ held other then 1 else 0) +
          (if page ∈ held id then 1 else 0) := by
        rw [tally, ← Finset.add_sum_erase _ _ hmem, Finset.sum_congr rfl hrest]
        simp
    _ = tally held n page := by rw [tally, ← Finset.sum_erase_add _ _ hmem]

theorem tally_pos {held : ℕ → List ℕ} {n id page : ℕ} (hid : id < n) (hpage : page ∈ held id) :
    0 < tally held n page := by
  have h := tally_clear held hid page
  rw [if_pos hpage] at h
  omega

/-! ## The loops over linked pages -/

/-- What is left of a page when one of its references is dropped. -/
def dropped (page : Page) : Option Page :=
  if page.count = 1 then none else some { page with count := page.count - 1 }

/-- One reference to each page of a list has been dropped. -/
structure Released (nodes : List ℕ) (pages pages' : Heap Page) : Prop where
  next : pages'.next = pages.next
  objects : ∀ id, pages'.objects id =
    if id ∈ nodes then (pages.objects id).bind dropped else pages.objects id

/-- One reference to each page of a list has been taken. -/
structure Referenced (nodes : List ℕ) (pages pages' : Heap Page) : Prop where
  next : pages'.next = pages.next
  objects : ∀ id, pages'.objects id =
    (pages.objects id).map fun page ↦
      if id ∈ nodes then { page with count := page.count + 1 } else page

theorem refbufRelease_spec {id : ℕ} {pages : Heap Page} {page : Page}
    (h : pages.objects id = some page) :
    ∃ pages', refbufRelease id pages = some pages' ∧ pages'.next = pages.next ∧
      pages'.objects id = dropped page ∧
      ∀ other, other ≠ id → pages'.objects other = pages.objects other := by
  unfold dropped
  by_cases hlast : page.count = 1
  · refine ⟨pages.free id, ?_, rfl, ?_, fun other hother ↦ pages.objects_free_of_ne hother⟩
    · simp [refbufRelease, h, hlast]
    · simp [hlast]
  · refine ⟨pages.modify id fun page ↦ { page with count := page.count - 1 }, ?_, rfl, ?_, ?_⟩
    · simp [refbufRelease, h, hlast]
    · simp [h, hlast]
    · intro other hother
      exact pages.objects_modify_of_ne _ hother

/-- Clearing the link of a page before it is freed changes nothing. -/
theorem refbufReleaseAssociated_eq (fuel : ℕ) (first : Option ℕ) (pages : Heap Page) :
    refbufReleaseAssociated fuel first pages = releaseHeaders fuel first pages := by
  induction fuel generalizing first pages with
  | zero => cases first <;> rfl
  | succ fuel ih =>
    cases first with
    | none => rfl
    | some id =>
      cases hpage : pages.objects id with
      | none => simp [refbufReleaseAssociated, releaseHeaders, hpage]
      | some page =>
        by_cases hlast : page.count = 1
        · simp [refbufReleaseAssociated, releaseHeaders, refbufRelease, hpage, hlast,
            Heap.free_modify, ih]
        · simp [refbufReleaseAssociated, releaseHeaders, hpage, hlast, ih]

theorem nextOf_eq {pages : Heap Page} {id : ℕ} {page : Page} (h : pages.objects id = some page) :
    nextOf pages id = page.next := by
  rw [nextOf, h, Option.bind_some]

theorem nextOf_congr {pages pages' : Heap Page} {id : ℕ}
    (h : pages'.objects id = pages.objects id) : nextOf pages' id = nextOf pages id := by
  rw [nextOf, h, nextOf]

theorem nextOf_alloc {pages : Heap Page} {id : ℕ} (page : Page)
    (h : (pages.objects id).isSome) : nextOf (pages.alloc page) id = nextOf pages id :=
  nextOf_congr (pages.objects_alloc_of_isSome page h)

/-- The loops over linked pages change the page at hand and go on with the rest of the list, which
is still as it was. -/
theorem chain_rest {id : ℕ} {nodes : List ℕ} {first : Option ℕ} {pages pages' : Heap Page}
    (hchain : Chain (nextOf pages) first (id :: nodes))
    (hlive : ∀ other ∈ id :: nodes, (pages.objects other).isSome)
    (hsame : ∀ other, other ≠ id → pages'.objects other = pages.objects other) :
    Chain (nextOf pages') (nextOf pages id) nodes ∧
      ∀ other ∈ nodes, (pages'.objects other).isSome := by
  have hrest (other : ℕ) (hmem : other ∈ nodes) : pages'.objects other = pages.objects other := by
    refine hsame other ?_
    rintro rfl
    exact (List.nodup_cons.mp hchain.nodup).1 hmem
  constructor
  · exact hchain.2.congr fun other hmem ↦ nextOf_congr (hrest other hmem)
  · intro other hmem
    rw [hrest other hmem]
    exact hlive other (List.mem_cons_of_mem id hmem)

theorem releaseHeaders_spec {nodes : List ℕ} {first : Option ℕ} {pages : Heap Page} {fuel : ℕ}
    (hchain : Chain (nextOf pages) first nodes)
    (hlive : ∀ id ∈ nodes, (pages.objects id).isSome) (hfuel : nodes.length ≤ fuel) :
    ∃ pages', releaseHeaders fuel first pages = some pages' ∧ Released nodes pages pages' := by
  induction nodes generalizing first pages fuel with
  | nil =>
    rw [chain_nil.mp hchain]
    refine ⟨pages, ?_, rfl, fun id ↦ by simp⟩
    cases fuel <;> rfl
  | cons id nodes ih =>
    obtain ⟨fuel, rfl⟩ : ∃ n, fuel = n + 1 := ⟨fuel - 1, by simp at hfuel; omega⟩
    obtain ⟨page, hpage⟩ := Option.isSome_iff_exists.mp (hlive id List.mem_cons_self)
    obtain ⟨between, hrelease, hnext, hself, hother⟩ := refbufRelease_spec hpage
    have hnotin : id ∉ nodes := (List.nodup_cons.mp hchain.nodup).1
    obtain ⟨hrest, hliveRest⟩ := chain_rest hchain hlive hother
    rw [nextOf_eq hpage] at hrest
    obtain ⟨pages', hloop, hreleased⟩ := ih hrest hliveRest (by simpa using hfuel)
    refine ⟨pages', ?_, hreleased.next.trans hnext, ?_⟩
    · rw [hchain.1]
      simp [releaseHeaders, hpage, hrelease, hloop]
    · intro other
      rw [hreleased.objects other]
      by_cases hid : other = id
      · simp [hid, hnotin, hself, hpage]
      · simp [hid, hother other hid]

theorem addrefHeaders_spec {nodes : List ℕ} {first : Option ℕ} {pages : Heap Page} {fuel : ℕ}
    (hchain : Chain (nextOf pages) first nodes)
    (hlive : ∀ id ∈ nodes, (pages.objects id).isSome) (hfuel : nodes.length ≤ fuel) :
    ∃ pages', addrefHeaders fuel first pages = some pages' ∧ Referenced nodes pages pages' := by
  induction nodes generalizing first pages fuel with
  | nil =>
    rw [chain_nil.mp hchain]
    refine ⟨pages, ?_, rfl, fun id ↦ by simp⟩
    cases fuel <;> rfl
  | cons id nodes ih =>
    obtain ⟨fuel, rfl⟩ : ∃ n, fuel = n + 1 := ⟨fuel - 1, by simp at hfuel; omega⟩
    obtain ⟨page, hpage⟩ := Option.isSome_iff_exists.mp (hlive id List.mem_cons_self)
    have hnotin : id ∉ nodes := (List.nodup_cons.mp hchain.nodup).1
    obtain ⟨hrest, hliveRest⟩ := chain_rest hchain hlive fun other hid ↦
      pages.objects_modify_of_ne (fun page ↦ { page with count := page.count + 1 }) hid
    rw [nextOf_eq hpage] at hrest
    obtain ⟨pages', hloop, hreferenced⟩ := ih hrest hliveRest (by simpa using hfuel)
    refine ⟨pages', ?_, hreferenced.next, ?_⟩
    · rw [hchain.1]
      simp [addrefHeaders, hpage, hloop]
    · intro other
      rw [hreferenced.objects other]
      by_cases hid : other = id
      · simp [hid, hnotin, hpage]
      · simp [hid, pages.objects_modify_of_ne _ hid]

/-! ## The invariant -/

/-- The first page that a data buffer remembers. -/
def associatedOf (s : State) (id : ℕ) : Option ℕ := (s.data.objects id).bind (·.associated)

/-- The pointers stand for the lists, and the counts are the numbers of references. As long as only
BOS pages have been seen, no data buffer holds a page of the header list. -/
structure Layout (s : State) (list : List ℕ) (held : ℕ → List ℕ) : Prop where
  fault : s.fault = false
  header_chain : Chain (nextOf s.pages) s.headerPages list
  held_chain : ∀ id, Chain (nextOf s.pages) (associatedOf s id) (held id)
  header_live : ∀ page ∈ list, (s.pages.objects page).isSome
  held_live : ∀ id, ∀ page ∈ held id, (s.pages.objects page).isSome
  tail : s.headerPagesTail = list.getLast?
  bos_end : ∀ last, s.bosEnd = some last → last ∈ list
  count : ∀ id page, s.pages.objects id = some page → page.count = refs list held s.data.next id
  apart : s.bosCompleted = false → ∀ id, ∀ page ∈ held id, page ∉ list

def Inv (s : State) : Prop := ∃ list held, Layout s list held

section Layout

variable {s : State} {list : List ℕ} {held : ℕ → List ℕ}

theorem Layout.lt_next (h : Layout s list held) {id page : ℕ} (hpage : page ∈ held id) :
    id < s.data.next := by
  by_contra hid
  have hchain := h.held_chain id
  rw [associatedOf, s.data.fresh id (Nat.le_of_not_lt hid), Option.bind_none] at hchain
  cases hheld : held id with
  | nil =>
    rw [hheld] at hpage
    cases hpage
  | cons first rest =>
    rw [hheld] at hchain
    cases hchain.1

/-- A list of live pages without repetition is no longer than the number of pages. -/
theorem length_le_next {pages : Heap Page} {nodes : List ℕ} (hnodup : nodes.Nodup)
    (hlive : ∀ id ∈ nodes, (pages.objects id).isSome) : nodes.length ≤ pages.next := by
  have hsubset : nodes.toFinset ⊆ Finset.range pages.next := by
    intro id hid
    obtain ⟨page, hpage⟩ := Option.isSome_iff_exists.mp (hlive id (List.mem_toFinset.mp hid))
    exact Finset.mem_range.mpr (Heap.lt_next_of_objects hpage)
  calc nodes.length = nodes.toFinset.card := (List.toFinset_card_of_nodup hnodup).symm
    _ ≤ (Finset.range pages.next).card := Finset.card_le_card hsubset
    _ = pages.next := Finset.card_range _

theorem Layout.headers_eq (h : Layout s list held) : headers s = list :=
  h.header_chain.walk_eq (length_le_next h.header_chain.nodup h.header_live)

theorem Layout.associatedPages_eq (h : Layout s list held) (id : ℕ) :
    associatedPages s id = held id :=
  (h.held_chain id).walk_eq (length_le_next (h.held_chain id).nodup (h.held_live id))

theorem Layout.holders_eq (h : Layout s list held) (page : ℕ) :
    holders s page = tally held s.data.next page := by
  have hfilter : (s.data.live.filter fun id ↦ page ∈ associatedPages s id) =
      (Finset.range s.data.next).filter fun id ↦ page ∈ held id := by
    ext id
    rw [Finset.mem_filter, Finset.mem_filter, h.associatedPages_eq, Finset.mem_range, Heap.mem_live]
    constructor
    · rintro ⟨-, hpage⟩
      exact ⟨h.lt_next hpage, hpage⟩
    · rintro ⟨-, hpage⟩
      refine ⟨?_, hpage⟩
      -- a buffer that is gone holds nothing
      by_contra hgone
      have hchain := h.held_chain id
      rw [associatedOf, Option.not_isSome_iff_eq_none.mp hgone, Option.bind_none] at hchain
      rw [hchain.unique (chain_nil.mpr rfl)] at hpage
      cases hpage
  rw [holders, hfilter, Finset.card_filter, tally]

theorem Layout.counted (h : Layout s list held) : Counted s := by
  refine ⟨h.fault, ?_, ?_, ?_⟩
  · rw [h.headers_eq]
    exact h.header_live
  · intro id
    rw [h.associatedPages_eq]
    exact h.held_live id
  · intro id page hpage
    rw [h.headers_eq, h.holders_eq]
    exact h.count id page hpage

/-- Dropping references: a page that is still referred to stays where it is. -/
theorem Layout.drop (h : Layout s list held) {nodes : List ℕ} {pages' : Heap Page}
    (list' : List ℕ) (held' : ℕ → List ℕ) (hreleased : Released nodes s.pages pages')
    (hrefs : ∀ page, refs list' held' s.data.next page + (if page ∈ nodes then 1 else 0) =
      refs list held s.data.next page) :
    (∀ page, 0 < refs list' held' s.data.next page → (s.pages.objects page).isSome →
      nextOf pages' page = nextOf s.pages page ∧ (pages'.objects page).isSome) ∧
    ∀ id page, pages'.objects id = some page → page.count = refs list' held' s.data.next id := by
  constructor
  · intro id hpos hlive
    obtain ⟨page, hpage⟩ := Option.isSome_iff_exists.mp hlive
    have hcount := h.count id page hpage
    have hid := hreleased.objects id
    have hsum := hrefs id
    by_cases hmem : id ∈ nodes
    · rw [if_pos hmem] at hid hsum
      have hmore : page.count ≠ 1 := by omega
      rw [hpage, Option.bind_some, dropped, if_neg hmore] at hid
      exact ⟨by rw [nextOf_eq hid, nextOf_eq hpage], by rw [hid]; rfl⟩
    · rw [if_neg hmem] at hid
      exact ⟨nextOf_congr hid, by rw [hid]; exact hlive⟩
  · intro id page hpage
    have hid := hreleased.objects id
    have hsum := hrefs id
    rw [hpage] at hid
    by_cases hmem : id ∈ nodes
    · rw [if_pos hmem] at hid hsum
      obtain ⟨old, hold, hdropped⟩ := Option.bind_eq_some_iff.mp hid.symm
      have hcount := h.count id old hold
      unfold dropped at hdropped
      split at hdropped
      · cases hdropped
      · rw [← Option.some.inj hdropped]
        change old.count - 1 = _
        omega
    · rw [if_neg hmem] at hid hsum
      have hcount := h.count id page hid.symm
      omega

theorem refs_pos_of_header {page : ℕ} (hpage : page ∈ list) (n : ℕ) : 0 < refs list held n page := by
  rw [refs, if_pos hpage]
  omega

theorem refs_pos_of_held {id page n : ℕ} (hid : id < n) (hpage : page ∈ held id) :
    0 < refs list held n page := by
  have hpos := tally_pos hid hpage
  rw [refs]
  omega

/-! ## The operations -/

theorem Layout.formatOggFreeHeaders (h : Layout s list held) :
    ∃ s', formatOggFreeHeaders s = some s' ∧ Layout s' [] held ∧ s'.bosCompleted = s.bosCompleted := by
  obtain ⟨pages', hloop, hreleased⟩ := releaseHeaders_spec h.header_chain h.header_live
    (length_le_next h.header_chain.nodup h.header_live)
  obtain ⟨hkept, hcount⟩ := h.drop [] held hreleased (by
    intro page
    simp [refs, Nat.add_comm])
  have hheld (id page : ℕ) (hpage : page ∈ held id) := hkept page
    (refs_pos_of_held (h.lt_next hpage) hpage) (h.held_live id page hpage)
  refine ⟨{ s with
    pages := pages', headerPages := none, headerPagesTail := none, bosEnd := none }, ?_, ?_, rfl⟩
  · simp [OggHeaders.formatOggFreeHeaders, hloop]
  · exact {
      fault := h.fault
      header_chain := rfl
      held_chain := fun id ↦ (h.held_chain id).congr fun page hpage ↦ (hheld id page hpage).1
      header_live := fun page hpage ↦ nomatch hpage
      held_live := fun id page hpage ↦ (hheld id page hpage).2
      tail := rfl
      bos_end := fun last hlast ↦ nomatch hlast
      count := hcount
      apart := fun _ _ _ _ ↦ List.not_mem_nil }

/-- A data buffer whose count changes holds the same pages. -/
theorem Layout.recount (h : Layout s list held) (id : ℕ) (f : Data → Data)
    (hf : ∀ buffer, (f buffer).associated = buffer.associated) :
    Layout { s with data := s.data.modify id f } list held := by
  have hsame (other : ℕ) :
      associatedOf { s with data := s.data.modify id f } other = associatedOf s other := by
    by_cases hother : other = id
    · rw [hother, associatedOf, Heap.objects_modify_self, associatedOf]
      cases s.data.objects id with
      | none => rfl
      | some buffer => exact hf buffer
    · rw [associatedOf, Heap.objects_modify_of_ne _ _ hother, associatedOf]
  exact { h with held_chain := fun other ↦ by rw [hsame]; exact h.held_chain other }

theorem Layout.releaseData (h : Layout s list held) (id : ℕ) :
    ∃ s' held', releaseData id s = some s' ∧ Layout s' list held' ∧
      s'.bosCompleted = s.bosCompleted := by
  unfold OggHeaders.releaseData
  cases hbuffer : s.data.objects id with
  | none => exact ⟨s, held, rfl, h, rfl⟩
  | some buffer =>
    by_cases hlast : buffer.count = 1
    · have hassociated : associatedOf s id = buffer.associated := by
        rw [associatedOf, hbuffer, Option.bind_some]
      have hid := Heap.lt_next_of_objects hbuffer
      have hchain := h.held_chain id
      rw [hassociated] at hchain
      obtain ⟨pages', hloop, hreleased⟩ := releaseHeaders_spec hchain (h.held_live id)
        (length_le_next hchain.nodup (h.held_live id))
      obtain ⟨hkept, hcount⟩ := h.drop list (Function.update held id []) hreleased (by
          intro page
          have hclear := tally_clear held hid page
          simp only [refs]
          omega)
      -- the other buffers, and the header list, only see pages that are kept
      have hheld (other page : ℕ) (hpage : page ∈ Function.update held id [] other) :
          page ∈ held other ∧ nextOf pages' page = nextOf s.pages page ∧
            (pages'.objects page).isSome := by
        have hne : other ≠ id := by
          rintro rfl
          simp at hpage
        have hold := hpage
        rw [Function.update_of_ne hne] at hold
        exact ⟨hold, hkept page (refs_pos_of_held (h.lt_next hold) hpage)
          (h.held_live other page hold)⟩
      have hheader (page : ℕ) (hpage : page ∈ list) :=
        hkept page (refs_pos_of_header hpage _) (h.header_live page hpage)
      refine ⟨{ s with pages := pages', data := s.data.free id }, Function.update held id [], ?_, ?_,
        rfl⟩
      · simp [hlast, refbufReleaseAssociated_eq, hloop]
      · exact {
          fault := h.fault
          header_chain := h.header_chain.congr fun page hpage ↦ (hheader page hpage).1
          held_chain := by
            intro other
            by_cases hother : other = id
            · rw [hother, Function.update_self, associatedOf, Heap.objects_free_self]
              rfl
            · have hsame : associatedOf { s with pages := pages', data := s.data.free id } other =
                  associatedOf s other := by
                rw [associatedOf, Heap.objects_free_of_ne _ hother, associatedOf]
              rw [hsame, Function.update_of_ne hother]
              refine (h.held_chain other).congr fun page hpage ↦ (hheld other page ?_).2.1
              rwa [Function.update_of_ne hother]
          header_live := fun page hpage ↦ (hheader page hpage).2
          held_live := fun other page hpage ↦ (hheld other page hpage).2.2
          tail := h.tail
          bos_end := h.bos_end
          count := hcount
          apart := fun hbos other page hpage ↦ h.apart hbos other page (hheld other page hpage).1 }
    · refine ⟨_, held, if_neg hlast, ?_, rfl⟩
      exact h.recount id _ fun old ↦ rfl

theorem Layout.completeBuffer (h : Layout s list held) (hbos : s.bosCompleted = true) :
    ∃ s', completeBuffer s = some s' ∧ Layout s' list (Function.update held s.data.next list) := by
  obtain ⟨pages', hloop, hreferenced⟩ := addrefHeaders_spec h.header_chain h.header_live
    (length_le_next h.header_chain.nodup h.header_live)
  have hnext (page : ℕ) : nextOf pages' page = nextOf s.pages page := by
    rw [nextOf, nextOf, hreferenced.objects]
    cases s.pages.objects page with
    | none => rfl
    | some old =>
      simp only [Option.map_some, Option.bind_some]
      split <;> rfl
  have hlive (page : ℕ) (hpage : (s.pages.objects page).isSome) : (pages'.objects page).isSome := by
    rw [hreferenced.objects, Option.isSome_map]
    exact hpage
  refine ⟨{ s with pages := pages', data := s.data.alloc ⟨s.headerPages, 1⟩ }, ?_, ?_⟩
  · simp [OggHeaders.completeBuffer, hloop]
  · exact {
      fault := h.fault
      header_chain := h.header_chain.congr fun page _ ↦ hnext page
      held_chain := by
        intro id
        by_cases hid : id = s.data.next
        · rw [hid, Function.update_self, associatedOf, Heap.objects_alloc_self]
          exact h.header_chain.congr fun page _ ↦ hnext page
        · have hsame : associatedOf
              { s with pages := pages', data := s.data.alloc ⟨s.headerPages, 1⟩ } id =
              associatedOf s id := by
            rw [associatedOf, Heap.objects_alloc_of_ne _ _ hid, associatedOf]
          rw [hsame, Function.update_of_ne hid]
          exact (h.held_chain id).congr fun page _ ↦ hnext page
      header_live := fun page hpage ↦ hlive page (h.header_live page hpage)
      held_live := by
        intro id page hpage
        by_cases hid : id = s.data.next
        · rw [hid, Function.update_self] at hpage
          exact hlive page (h.header_live page hpage)
        · rw [Function.update_of_ne hid] at hpage
          exact hlive page (h.held_live id page hpage)
      tail := h.tail
      bos_end := h.bos_end
      count := by
        intro id page hpage
        rw [hreferenced.objects] at hpage
        obtain ⟨old, hold, rfl⟩ := Option.map_eq_some_iff.mp hpage
        have hcount := h.count id old hold
        rw [refs] at hcount
        rw [Heap.alloc_next, refs, tally_alloc]
        by_cases hid : id ∈ list
        · simp only [if_pos hid] at hcount ⊢
          omega
        · simp only [if_neg hid] at hcount ⊢
          omega
      apart := fun hnot ↦ by
        rw [hbos] at hnot
        cases hnot }

/-- Linking a new page of count one behind a page that no data buffer comes to, or in front. -/
theorem Layout.link (h : Layout s list held) {s' : State} {list' : List ℕ} (page : Page)
    (hpage : page.count = 1) (hmem : ∀ id, id ∈ list' ↔ id = s.pages.next ∨ id ∈ list)
    (hobjects : ∀ id, id ≠ s.pages.next →
      ∃ f : Page → Page, s'.pages.objects id = (s.pages.objects id).map f ∧
        ∀ old, (f old).count = old.count)
    (hnew : s'.pages.objects s.pages.next = some page) (hdata : s'.data = s.data)
    (hfault : s'.fault = s.fault) (hbosCompleted : s'.bosCompleted = s.bosCompleted)
    (hchain : Chain (nextOf s'.pages) s'.headerPages list')
    (hheld : ∀ id, ∀ other ∈ held id, nextOf s'.pages other = nextOf s.pages other)
    (htail : s'.headerPagesTail = list'.getLast?)
    (hend : ∀ last, s'.bosEnd = some last → last ∈ list') : Layout s' list' held := by
  have hfresh (id : ℕ) : s.pages.next ∉ held id := by
    intro hin
    exact Heap.ne_next_of_isSome (h.held_live id _ hin) rfl
  have hlive (id : ℕ) (hid : (s.pages.objects id).isSome) : (s'.pages.objects id).isSome := by
    obtain ⟨f, hf, -⟩ := hobjects id (Heap.ne_next_of_isSome hid)
    rw [hf, Option.isSome_map]
    exact hid
  have hassociated (id : ℕ) : associatedOf s' id = associatedOf s id := by
    rw [associatedOf, hdata, associatedOf]
  exact {
    fault := hfault.trans h.fault
    header_chain := hchain
    held_chain := fun id ↦ by
      rw [hassociated]
      exact (h.held_chain id).congr (hheld id)
    header_live := by
      intro id hid
      rcases (hmem id).mp hid with rfl | hold
      · rw [hnew]
        rfl
      · exact hlive id (h.header_live id hold)
    held_live := fun id other hother ↦ hlive other (h.held_live id other hother)
    tail := htail
    bos_end := hend
    count := by
      intro id found hfound
      rw [hdata]
      by_cases hid : id = s.pages.next
      · have hnone : tally held s.data.next s.pages.next = 0 :=
          Finset.sum_eq_zero fun other _ ↦ if_neg (hfresh other)
        rw [hid, hnew] at hfound
        rw [← Option.some.inj hfound, hid, refs, if_pos ((hmem _).mpr (Or.inl rfl)), hnone, hpage]
      · obtain ⟨f, hf, hcount⟩ := hobjects id hid
        rw [hf] at hfound
        obtain ⟨old, hold, rfl⟩ := Option.map_eq_some_iff.mp hfound
        rw [hcount, h.count id old hold, refs, refs]
        simp only [hmem, hid, false_or]
    apart := by
      intro hbos id other hother hin
      rw [hbosCompleted] at hbos
      rcases (hmem other).mp hin with rfl | hold
      · exact hfresh id hother
      · exact h.apart hbos id other hother hold }

/-- A new page in front of the list. -/
theorem Layout.linkFront (h : Layout s list held) (page : Page) (hpage : page.count = 1)
    (hnext : page.next = s.headerPages) {s' : State} (hpages : s'.pages = s.pages.alloc page)
    (hdata : s'.data = s.data) (hfault : s'.fault = s.fault)
    (hbosCompleted : s'.bosCompleted = s.bosCompleted)
    (hstart : s'.headerPages = some s.pages.next)
    (htail : s'.headerPagesTail = (s.pages.next :: list).getLast?)
    (hend : ∀ last, s'.bosEnd = some last → last ∈ s.pages.next :: list) :
    Layout s' (s.pages.next :: list) held := by
  have hnew : s'.pages.objects s.pages.next = some page := by
    rw [hpages, Heap.objects_alloc_self]
  refine h.link page hpage (fun id ↦ List.mem_cons) ?_ hnew hdata hfault hbosCompleted ?_ ?_ htail
    hend
  · intro id hid
    refine ⟨fun old ↦ old, ?_, fun old ↦ rfl⟩
    rw [hpages, Heap.objects_alloc_of_ne _ _ hid, Option.map_id_fun']
    rfl
  · refine ⟨hstart, ?_⟩
    rw [nextOf_eq hnew, hnext, hpages]
    exact h.header_chain.congr fun id hid ↦ nextOf_alloc page (h.header_live id hid)
  · intro id other hother
    rw [hpages]
    exact nextOf_alloc page (h.held_live id other hother)

/-- A new page behind the page `last`. -/
def linked (pages : Heap Page) (last : ℕ) (page : Page) : Heap Page :=
  (pages.alloc page).modify last ({ · with next := some pages.next })

theorem Layout.linkBehind (h : Layout s list held) {front back : List ℕ} {last : ℕ} (page : Page)
    (hlist : list = front ++ last :: back) (hpage : page.count = 1)
    (hnext : page.next = nextOf s.pages last) (hfree : ∀ id, last ∉ held id)
    {s' : State} (hpages : s'.pages = linked s.pages last page) (hdata : s'.data = s.data)
    (hfault : s'.fault = s.fault) (hbosCompleted : s'.bosCompleted = s.bosCompleted)
    (hstart : s'.headerPages = s.headerPages)
    (htail : s'.headerPagesTail = (front ++ last :: s.pages.next :: back).getLast?)
    (hend : ∀ other, s'.bosEnd = some other → other ∈ front ++ last :: s.pages.next :: back) :
    Layout s' (front ++ last :: s.pages.next :: back) held := by
  have hlast : last ≠ s.pages.next :=
    Heap.ne_next_of_isSome (h.header_live last (by simp [hlist]))
  have hother (id : ℕ) (hnew : id ≠ s.pages.next) (hne : id ≠ last) :
      s'.pages.objects id = s.pages.objects id := by
    rw [hpages, linked, Heap.objects_modify_of_ne _ _ hne, Heap.objects_alloc_of_ne _ _ hnew]
  have hself : s'.pages.objects last = (s.pages.objects last).map
      ({ · with next := some s.pages.next }) := by
    rw [hpages, linked, Heap.objects_modify_self, Heap.objects_alloc_of_ne _ _ hlast]
  have hnew : s'.pages.objects s.pages.next = some page := by
    rw [hpages, linked, Heap.objects_modify_of_ne _ _ hlast.symm, Heap.objects_alloc_self]
  have hnextOf (id : ℕ) (hlive : (s.pages.objects id).isSome) (hne : id ≠ last) :
      nextOf s'.pages id = nextOf s.pages id :=
    nextOf_congr (hother id (Heap.ne_next_of_isSome hlive) hne)
  have hsplit := h.header_chain.nodup
  rw [hlist] at hsplit
  refine h.link page hpage ?_ ?_ hnew hdata hfault hbosCompleted ?_ ?_ htail hend
  · intro id
    rw [hlist]
    simp only [List.mem_append, List.mem_cons]
    tauto
  · intro id hid
    by_cases hne : id = last
    · refine ⟨({ · with next := some s.pages.next }), ?_, fun old ↦ rfl⟩
      rw [hne]
      exact hself
    · refine ⟨fun old ↦ old, ?_, fun old ↦ rfl⟩
      rw [hother id hid hne, Option.map_id_fun']
      rfl
  · have hchain := h.header_chain
    rw [hlist] at hchain
    rw [hstart]
    refine hchain.insert ?_ ?_ ?_
    · obtain ⟨old, hold⟩ := Option.isSome_iff_exists.mp (h.header_live last (by simp [hlist]))
      rw [nextOf, hself, hold]
      rfl
    · rw [nextOf_eq hnew, hnext]
    · intro other hmem
      refine hnextOf other (h.header_live other ?_) ?_
      · rw [hlist]
        simp only [List.mem_append, List.mem_cons] at hmem ⊢
        tauto
      · rintro rfl
        rw [List.nodup_middle] at hsplit
        exact (List.nodup_cons.mp hsplit).1 hmem
  · intro id other hin
    refine hnextOf other (h.held_live id other hin) ?_
    rintro rfl
    exact hfree id hin

theorem Layout.attachBos (h : Layout s list held)
    (hfree : ∀ last, s.bosEnd = some last → ∀ id, last ∉ held id) :
    ∃ s' list', attachBos s = some s' ∧ Layout s' list' held ∧
      s'.bosCompleted = s.bosCompleted := by
  unfold OggHeaders.attachBos
  cases hbosEnd : s.bosEnd with
  | none =>
    refine ⟨_, s.pages.next :: list, rfl, ?_, rfl⟩
    refine h.linkFront ⟨true, s.headerPages, 1⟩ rfl rfl rfl rfl rfl rfl rfl ?_ ?_
    · cases list with
      | nil =>
        have hnone : s.headerPages = none := h.header_chain
        simp [hnone]
      | cons first rest =>
        have hsome : s.headerPages ≠ none := by
          rw [h.header_chain.1]
          simp
        rw [if_neg hsome, h.tail]
        rfl
    · intro last hlast
      rw [← Option.some.inj hlast]
      exact List.mem_cons_self
  | some last =>
    have hmem := h.bos_end last hbosEnd
    obtain ⟨front, back, hlist⟩ := List.append_of_mem hmem
    obtain ⟨page, hpage⟩ := Option.isSome_iff_exists.mp (h.header_live last hmem)
    have hback : Chain (nextOf s.pages) page.next back := by
      have hchain := h.header_chain
      rw [hlist] at hchain
      rw [← nextOf_eq hpage]
      exact hchain.suffix.2
    refine ⟨{ s with
      pages := linked s.pages last ⟨true, page.next, 1⟩
      headerPagesTail := if page.next = none then some s.pages.next else s.headerPagesTail
      bosEnd := some s.pages.next }, front ++ last :: s.pages.next :: back, ?_, ?_, rfl⟩
    · simp [hpage, linked]
    · refine h.linkBehind ⟨true, page.next, 1⟩ hlist rfl (nextOf_eq hpage).symm (hfree last hbosEnd)
        rfl rfl rfl rfl rfl ?_ ?_
      · cases back with
        | nil =>
          have hnone : page.next = none := hback
          simp [hnone]
        | cons first rest =>
          have hsome : page.next ≠ none := by
            rw [hback.1]
            simp
          simp [hsome, h.tail, hlist]
      · intro other hother
        rw [← Option.some.inj hother]
        simp

theorem Layout.attachOther (h : Layout s list held)
    (hfree : ∀ last, s.headerPagesTail = some last → ∀ id, last ∉ held id) :
    ∃ s' list', attachOther s = some s' ∧ Layout s' list' held ∧
      s'.bosCompleted = s.bosCompleted := by
  unfold OggHeaders.attachOther
  cases htail : s.headerPagesTail with
  | none =>
    have hnil : list = [] := by
      rw [h.tail] at htail
      exact List.getLast?_eq_none_iff.mp htail
    have hnone : s.headerPages = none := by
      have hchain := h.header_chain
      rwa [hnil] at hchain
    have hbosEnd : s.bosEnd = none := by
      by_contra hsome
      obtain ⟨last, hlast⟩ := Option.ne_none_iff_exists'.mp hsome
      have hmem := h.bos_end last hlast
      rw [hnil] at hmem
      cases hmem
    refine ⟨_, s.pages.next :: list, rfl, ?_, rfl⟩
    refine h.linkFront ⟨false, none, 1⟩ rfl hnone.symm rfl rfl rfl rfl ?_ ?_ ?_
    · simp [hnone]
    · simp [hnil]
    · intro last hlast
      rw [hbosEnd] at hlast
      cases hlast
  | some last =>
    obtain ⟨front, hlist⟩ : ∃ front, list = front ++ [last] := by
      rw [h.tail] at htail
      exact List.getLast?_eq_some_iff.mp htail
    have hmem : last ∈ list := by simp [hlist]
    obtain ⟨page, hpage⟩ := Option.isSome_iff_exists.mp (h.header_live last hmem)
    have hnone : nextOf s.pages last = none := by
      have hchain := h.header_chain
      rw [hlist] at hchain
      exact hchain.suffix.2
    have hsome : s.headerPages ≠ none := by
      intro hnil
      have hchain := h.header_chain
      rw [hnil] at hchain
      rw [hchain.unique (chain_nil.mpr rfl)] at hmem
      cases hmem
    refine ⟨{ s with
      pages := linked s.pages last ⟨false, none, 1⟩
      headerPagesTail := some s.pages.next }, front ++ [last, s.pages.next], ?_, ?_, rfl⟩
    · simp [hpage, hsome, linked]
    · refine h.linkBehind ⟨false, none, 1⟩ hlist rfl hnone.symm (hfree last htail) rfl rfl rfl rfl
        rfl ?_ ?_
      · simp
      · intro other hother
        have hin := h.bos_end other hother
        rw [hlist] at hin
        simp only [List.mem_append, List.mem_cons, List.not_mem_nil, or_false] at hin ⊢
        tauto

theorem Layout.formatOggAttachHeader (h : Layout s list held) (bos : Bool)
    (hfree : ∀ last ∈ linkedBehind s bos, ∀ id, last ∉ held id) :
    ∃ s' list', formatOggAttachHeader bos s = some s' ∧ Layout s' list' held ∧
      s'.bosCompleted = s.bosCompleted := by
  cases bos with
  | true => exact h.attachBos hfree
  | false => exact h.attachOther hfree

theorem Layout.releaseAll (h : Layout s list held) (starts : List ℕ) :
    ∃ s' held', starts.foldlM (fun s id ↦ OggHeaders.releaseData id s) s = some s' ∧
      Layout s' list held' := by
  induction starts generalizing s held with
  | nil => exact ⟨s, held, rfl, h⟩
  | cons id starts ih =>
    obtain ⟨between, held', hrelease, hlayout, -⟩ := h.releaseData id
    obtain ⟨s', held'', hrest, hlayout'⟩ := ih hlayout
    refine ⟨s', held'', ?_, hlayout'⟩
    rw [List.foldlM_cons, hrelease]
    exact hrest

theorem Layout.freeOggCodecs (h : Layout s list held) (starts : List ℕ) :
    ∃ s' held', freeOggCodecs starts s = some s' ∧ Layout s' [] held' ∧ s'.bosCompleted = false := by
  obtain ⟨between, hfree, hlayout, -⟩ := h.formatOggFreeHeaders
  obtain ⟨s', held', hrelease, hlayout'⟩ := hlayout.releaseAll starts
  refine ⟨{ s' with bosCompleted := false }, held', ?_, ?_, rfl⟩
  · simp [OggHeaders.freeOggCodecs, hfree, hrelease]
  · exact { hlayout' with apart := fun _ _ _ _ ↦ List.not_mem_nil }

/-- BOS pages are attached to a list that no data buffer has seen. -/
theorem Layout.processInitialPage (h : Layout s list held) (starts : List ℕ) (attached : Bool) :
    ∃ s', processInitialPage starts attached s = some s' ∧ Inv s' := by
  obtain ⟨between, list', held', hzap, hlayout, hbos⟩ : ∃ between list' held',
      (if s.bosCompleted then OggHeaders.freeOggCodecs starts s else some s) = some between ∧
        Layout between list' held' ∧ between.bosCompleted = false := by
    cases hbos : s.bosCompleted with
    | true =>
      obtain ⟨s', held', hfree, hlayout, hnew⟩ := h.freeOggCodecs starts
      exact ⟨s', [], held', hfree, hlayout, hnew⟩
    | false => exact ⟨s, list, held, rfl, h, hbos⟩
  cases attached with
  | false =>
    refine ⟨between, ?_, list', held', hlayout⟩
    simp [OggHeaders.processInitialPage, hzap]
  | true =>
    obtain ⟨s', list'', hattach, hlayout', -⟩ := hlayout.formatOggAttachHeader true (by
      intro last hlast id hheld
      exact hlayout.apart hbos id last hheld (hlayout.bos_end last hlast))
    refine ⟨s', ?_, list'', held', hlayout'⟩
    rw [OggHeaders.processInitialPage, hzap]
    exact hattach

theorem Layout.exec (h : Layout s list held) {event : Event} (hsettled : Settled s event) :
    ∃ s', exec s event = some s' ∧ Inv s' := by
  -- the first page that is not a BOS page ends the group of BOS pages
  have hseen : Layout { s with bosCompleted := true } list held :=
    { h with apart := fun hbos ↦ nomatch hbos }
  cases event with
  | initialPage starts attached => exact h.processInitialPage starts attached
  | headerPage bos =>
    obtain ⟨s', list', hattach, hlayout, -⟩ := hseen.formatOggAttachHeader bos (by
      intro last hlast id hheld
      rw [← h.associatedPages_eq id] at hheld
      have hlt := h.lt_next (h.associatedPages_eq id ▸ hheld)
      exact hsettled last hlast id hlt hheld)
    exact ⟨s', hattach, list', held, hlayout⟩
  | freeHeaders =>
    obtain ⟨s', hfree, hlayout, -⟩ := h.formatOggFreeHeaders
    exact ⟨s', hfree, [], held, hlayout⟩
  | dataPage =>
    obtain ⟨s', hcomplete, hlayout⟩ := hseen.completeBuffer rfl
    exact ⟨s', hcomplete, list, _, hlayout⟩
  | freePlugin starts =>
    obtain ⟨s', held', hfree, hlayout, -⟩ := h.freeOggCodecs starts
    exact ⟨s', hfree, [], held', hlayout⟩
  | addref id => exact ⟨_, rfl, list, held, h.recount id _ fun old ↦ rfl⟩
  | release id =>
    obtain ⟨s', held', hrelease, hlayout, -⟩ := h.releaseData id
    exact ⟨s', hrelease, list, held', hlayout⟩

end Layout

theorem inv_start : Inv start :=
  ⟨[], fun _ ↦ [], {
    fault := rfl
    header_chain := rfl
    held_chain := fun _ ↦ rfl
    header_live := fun _ h ↦ nomatch h
    held_live := fun _ _ h ↦ nomatch h
    tail := rfl
    bos_end := fun _ h ↦ nomatch h
    count := fun _ _ h ↦ nomatch h
    apart := fun _ _ _ h ↦ nomatch h }⟩

theorem step_inv (s : State) (event : Event) (h : Inv s) (hsettled : Settled s event) :
    Inv (step s event) := by
  obtain ⟨list, held, hlayout⟩ := h
  obtain ⟨s', hexec, hinv⟩ := hlayout.exec hsettled
  rw [step, hexec]
  exact hinv

/-! ## The result -/

/-- If header pages are only linked where no live data buffer would come to them, the counts of the
header pages are right in every state of the run. -/
theorem header_page_counts (events : List Event) (hsettled : Guarded step Settled start events) :
    Counted (run step start events) := by
  obtain ⟨list, held, hlayout⟩ :=
    run_invariant_of_guarded step Inv step_inv events inv_start hsettled
  exact hlayout.counted

/-- The headers of two chained links, with a data buffer of the first that goes during the second. -/
theorem header_page_counts_chained :
    Counted (run step start [.initialPage [] true, .headerPage false, .dataPage, .addref 0,
      .release 0, .initialPage [] true, .headerPage false, .release 0, .dataPage]) :=
  header_page_counts _ (by decide)

/-- A stream with a Skeleton and a MIDI track: a second Skeleton page comes behind the first MIDI
page. -/
def lateHeaderPage : List Event :=
  [.initialPage [] true, .initialPage [] true, .dataPage, .headerPage false]

/-- The page is counted once although there are two that will release it, and it is freed with the
data buffer although it is in the header list. -/
theorem header_page_freed_early :
    (¬∀ events, Counted (run step start events)) ∧
      2 ∈ headers (run step start (lateHeaderPage ++ [.release 0])) ∧
      (run step start (lateHeaderPage ++ [.release 0])).pages.objects 2 = none := by
  refine ⟨?_, by decide, by decide⟩
  intro hall
  have hcount := (hall lateHeaderPage).2.2.2 2 ⟨false, none, 1⟩ (by decide)
  exact absurd hcount (by decide)

end Icecast.Format.OggHeaders
