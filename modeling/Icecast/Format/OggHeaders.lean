import Icecast.Lib.Heap
import Icecast.Lib.LinkedList
import Icecast.Lib.Machine

/-!
# Header pages of an Ogg stream and their reference counts

The pages that a listener needs before any data are kept in a linked list (`format_ogg.c`): the BOS
pages first, then the other header pages. A data buffer takes a reference to every page of the list
when it is completed, and remembers only the first page; when the buffer goes, `refbuf.c` follows the
links from there and releases what it meets. The two agree as long as nothing has been linked into
the list meanwhile.

Which codec a page belongs to matters for one thing only, namely whether the page is kept as a header
page or is turned into a data buffer, so that this is part of the event.
-/

namespace Icecast.Format.OggHeaders

open Lib Lib.LinkedList Lib.Machine

/-- The `refbuf_t` of a header page. -/
structure Page where
  bos : Bool
  next : Option ℕ
  count : ℕ
  deriving DecidableEq

/-- The `refbuf_t` of a data page. -/
structure Data where
  associated : Option ℕ
  count : ℕ
  deriving DecidableEq

/-- `ogg_state_t` with all buffers of the source. `bosEnd` is the page whose `next` field `bos_end`
points to, or `none` for the field `header_pages`. `fault` says that freed memory has been used. -/
structure State where
  pages : Heap Page
  data : Heap Data
  headerPages : Option ℕ
  headerPagesTail : Option ℕ
  bosEnd : Option ℕ
  bosCompleted : Bool
  fault : Bool

def start : State := ⟨.empty, .empty, none, none, none, false, false⟩

def nextOf (pages : Heap Page) (id : ℕ) : Option ℕ := (pages.objects id).bind (·.next)

/-! ## Reference counts -/

/-- `refbuf_release` of a page; there is no result for a page that has been freed. -/
def refbufRelease (id : ℕ) (pages : Heap Page) : Option (Heap Page) :=
  (pages.objects id).map fun page ↦
    if page.count = 1 then pages.free id
    else pages.modify id fun page ↦ { page with count := page.count - 1 }

/-- The loop of `refbuf_release_associated`. The link of a page that is about to be freed is
cleared. -/
def refbufReleaseAssociated : ℕ → Option ℕ → Heap Page → Option (Heap Page)
  | _, none, pages => some pages
  | 0, some _, _ => none
  | fuel + 1, some id, pages => do
    let page ← pages.objects id
    let pages := if page.count = 1 then pages.modify id ({ · with next := none }) else pages
    refbufReleaseAssociated fuel page.next (← refbufRelease id pages)

/-- The loop of `format_ogg_free_headers`. -/
def releaseHeaders : ℕ → Option ℕ → Heap Page → Option (Heap Page)
  | _, none, pages => some pages
  | 0, some _, _ => none
  | fuel + 1, some id, pages => do
    let page ← pages.objects id
    releaseHeaders fuel page.next (← refbufRelease id pages)

/-- The loop of `complete_buffer`. -/
def addrefHeaders : ℕ → Option ℕ → Heap Page → Option (Heap Page)
  | _, none, pages => some pages
  | 0, some _, _ => none
  | fuel + 1, some id, pages => do
    let page ← pages.objects id
    addrefHeaders fuel page.next (pages.modify id fun page ↦ { page with count := page.count + 1 })

/-! ## The header list -/

/-- `format_ogg_attach_header` for a BOS page. -/
def attachBos (s : State) : Option State := do
  let id := s.pages.next
  match s.bosEnd with
  | none =>
    some { s with
      pages := s.pages.alloc ⟨true, s.headerPages, 1⟩
      headerPages := some id
      headerPagesTail := if s.headerPages = none then some id else s.headerPagesTail
      bosEnd := some id }
  | some last =>
    let page ← s.pages.objects last
    some { s with
      pages := (s.pages.alloc ⟨true, page.next, 1⟩).modify last ({ · with next := some id })
      headerPagesTail := if page.next = none then some id else s.headerPagesTail
      bosEnd := some id }

/-- `format_ogg_attach_header` for any other header page. -/
def attachOther (s : State) : Option State := do
  let id := s.pages.next
  let pages := s.pages.alloc ⟨false, none, 1⟩
  let headerPages := if s.headerPages = none then some id else s.headerPages
  match s.headerPagesTail with
  | none => some { s with pages, headerPages, headerPagesTail := some id }
  | some last =>
    let _ ← s.pages.objects last
    some { s with
      pages := pages.modify last ({ · with next := some id })
      headerPages
      headerPagesTail := some id }

def formatOggAttachHeader (bos : Bool) (s : State) : Option State :=
  if bos then attachBos s else attachOther s

def formatOggFreeHeaders (s : State) : Option State := do
  let pages ← releaseHeaders s.pages.next s.headerPages s.pages
  some { s with pages, headerPages := none, headerPagesTail := none, bosEnd := none }

/-! ## Data buffers -/

/-- A data page becomes a buffer, and `complete_buffer` associates it with the header list. -/
def completeBuffer (s : State) : Option State := do
  let pages ← addrefHeaders s.pages.next s.headerPages s.pages
  some { s with pages, data := s.data.alloc ⟨s.headerPages, 1⟩ }

/-- `refbuf_release` of a data buffer by one of its holders. -/
def releaseData (id : ℕ) (s : State) : Option State :=
  match s.data.objects id with
  | none => some s
  | some buffer =>
    if buffer.count = 1 then do
      let pages ← refbufReleaseAssociated s.pages.next buffer.associated s.pages
      some { s with pages, data := s.data.free id }
    else
      some { s with
        data := s.data.modify id fun buffer ↦ { buffer with count := buffer.count - 1 } }

/-- `free_ogg_codecs`; `starts` are the buffers that the codecs hold as a possible start. -/
def freeOggCodecs (starts : List ℕ) (s : State) : Option State := do
  let s ← formatOggFreeHeaders s
  let s ← starts.foldlM (fun s id ↦ releaseData id s) s
  some { s with bosCompleted := false }

/-- `process_initial_page`. A codec may keep its BOS page for later. -/
def processInitialPage (starts : List ℕ) (attached : Bool) (s : State) : Option State :=
  (if s.bosCompleted then freeOggCodecs starts s else some s).bind fun s ↦
    if attached then formatOggAttachHeader true s else some s

inductive Event where
  | initialPage (starts : List ℕ) (attached : Bool)
  /-- A codec attaches a page while it works on a page that is not a BOS page. -/
  | headerPage (bos : Bool)
  /-- The headers of a Vorbis stream are going to be rebuilt. -/
  | freeHeaders
  | dataPage
  | freePlugin (starts : List ℕ)
  | addref (id : ℕ)
  | release (id : ℕ)
  deriving DecidableEq

def exec (s : State) : Event → Option State
  | .initialPage starts attached => processInitialPage starts attached s
  | .headerPage bos => formatOggAttachHeader bos { s with bosCompleted := true }
  | .freeHeaders => formatOggFreeHeaders s
  | .dataPage => completeBuffer { s with bosCompleted := true }
  | .freePlugin starts => freeOggCodecs starts s
  | .addref id =>
    some { s with data := s.data.modify id fun buffer ↦ { buffer with count := buffer.count + 1 } }
  | .release id => releaseData id s

def step (s : State) (event : Event) : State :=
  (exec s event).getD { s with fault := true }

/-! ## What the counts should be -/

/-- The pages of the header list. -/
def headers (s : State) : List ℕ := walk (nextOf s.pages) s.pages.next s.headerPages

/-- The pages that the release of a data buffer releases. -/
def associatedPages (s : State) (id : ℕ) : List ℕ :=
  walk (nextOf s.pages) s.pages.next ((s.data.objects id).bind (·.associated))

/-- The number of live data buffers that will release a page. -/
def holders (s : State) (page : ℕ) : ℕ :=
  (s.data.live.filter fun id ↦ page ∈ associatedPages s id).card

/-- Nothing freed has been used, every page that is referred to is there, and every count is the
number of references. -/
def Counted (s : State) : Prop :=
  s.fault = false ∧
    (∀ page ∈ headers s, (s.pages.objects page).isSome) ∧
    (∀ id, ∀ page ∈ associatedPages s id, (s.pages.objects page).isSome) ∧
    ∀ id page, s.pages.objects id = some page →
      page.count = (if id ∈ headers s then 1 else 0) + holders s id

/-- The page behind which a header page is linked. -/
def linkedBehind (s : State) (bos : Bool) : Option ℕ := if bos then s.bosEnd else s.headerPagesTail

/-- A codec links a header page only where no live data buffer would come to it. -/
def Settled (s : State) : Event → Prop
  | .headerPage bos => ∀ last ∈ linkedBehind s bos, ∀ id < s.data.next, last ∉ associatedPages s id
  | _ => True

instance (s : State) (event : Event) : Decidable (Settled s event) := by
  cases event <;> unfold Settled <;> infer_instance
end Icecast.Format.OggHeaders
