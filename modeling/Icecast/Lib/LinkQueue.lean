import Icecast.Lib.LinkedList
import Mathlib.Logic.Function.Basic

/-!
# Queues that are written at their tail

A queue has a head, and a tail that is the link a new node is written to: the head of an empty queue and
else the `next` field of the last node. Nodes are taken out through the link that they are reached by, so
that the tail has to follow when the last node goes.
-/

namespace Icecast.Lib.LinkQueue

open Function LinkedList

/-- A place for a pointer to a node: the head of a queue, or a field of a node. -/
inductive Link (κ ι : Type*) where
  | head (queue : κ)
  | next (node : ι)
  deriving DecidableEq

variable {κ ι : Type*}

/-- Following the links from a first one passes the nodes. -/
def Path (mem : Link κ ι → Option ι) : Link κ ι → List ι → Prop
  | _, [] => True
  | link, node :: nodes => mem link = some node ∧ Path mem (.next node) nodes

/-- The link behind the nodes. -/
def lastLink : Link κ ι → List ι → Link κ ι
  | link, [] => link
  | _, node :: nodes => lastLink (.next node) nodes

/-- A link and the fields of some nodes. -/
def links (link : Link κ ι) (nodes : List ι) : List (Link κ ι) := link :: nodes.map .next

variable {mem mem' : Link κ ι → Option ι} {link : Link κ ι} {nodes front back : List ι} {node new : ι}

theorem lastLink_append : lastLink link (front ++ back) = lastLink (lastLink link front) back := by
  induction front generalizing link with
  | nil => rfl
  | cons node front ih => exact ih

theorem lastLink_mem : lastLink link nodes ∈ links link nodes := by
  induction nodes generalizing link with
  | nil => exact List.mem_singleton_self link
  | cons node nodes ih => exact List.mem_cons_of_mem link ih

theorem mem_links_head {queue : κ} :
    link ∈ links (.head queue) nodes ↔ link = .head queue ∨ ∃ node ∈ nodes, link = .next node := by
  simp [links, eq_comm]

theorem next_mem_links {queue : κ} : .next node ∈ links (.head queue) nodes ↔ node ∈ nodes := by
  simp [links]

theorem nodup_links {queue : κ} : (links (.head queue) nodes).Nodup ↔ nodes.Nodup := by
  have hinj : Injective (Link.next : ι → Link κ ι) := fun _ _ h ↦ Link.next.inj h
  simp [links, List.nodup_map_iff hinj]

/-- Queues without a common node have no link in common. -/
theorem notMem_links_of_mem {queue other : κ} {nodes' : List ι} (hqueue : queue ≠ other)
    (hnodes : ∀ node ∈ nodes, node ∉ nodes') (hlink : link ∈ links (.head queue) nodes) :
    link ∉ links (.head other) nodes' := by
  rw [mem_links_head] at hlink ⊢
  grind

/-! ## Paths -/

theorem path_append :
    Path mem link (front ++ back) ↔ Path mem link front ∧ Path mem (lastLink link front) back := by
  induction front generalizing link with
  | nil => exact (true_and _).to_iff.symm
  | cons node front ih =>
    calc Path mem link (node :: (front ++ back))
        ↔ mem link = some node ∧ Path mem (.next node) front ∧
            Path mem (lastLink (.next node) front) back := and_congr_right fun _ ↦ ih
      _ ↔ Path mem link (node :: front) ∧ Path mem (lastLink link (node :: front)) back :=
          and_assoc.symm

theorem Path.congr (h : Path mem link nodes) (hsame : ∀ other ∈ links link nodes, mem' other = mem other) :
    Path mem' link nodes := by
  induction nodes generalizing link with
  | nil => trivial
  | cons node nodes ih =>
    constructor
    · rw [hsame link List.mem_cons_self]
      exact h.1
    · exact ih h.2 fun other hother ↦ hsame other (List.mem_cons_of_mem link hother)

/-- What is written behind the nodes does not change the way to there. -/
theorem Path.update_lastLink [DecidableEq κ] [DecidableEq ι] (h : Path mem link nodes)
    (hnodup : (links link nodes).Nodup) (value : Option ι) :
    Path (update mem (lastLink link nodes) value) link nodes := by
  induction nodes generalizing link with
  | nil => trivial
  | cons node nodes ih =>
    obtain ⟨hnot, hnodup⟩ := List.nodup_cons.mp hnodup
    have hne : link ≠ lastLink (.next node) nodes := by
      intro heq
      apply hnot
      rw [heq]
      exact lastLink_mem
    constructor
    · rw [lastLink, update_of_ne hne]
      exact h.1
    · exact ih h.2 hnodup

/-- A path may start from another link with the same pointer. -/
theorem Path.move {link' : Link κ ι} (h : Path mem link nodes) (hlink : mem' link' = mem link)
    (hsame : ∀ other ∈ nodes, mem' (.next other) = mem (.next other)) :
    Path mem' link' nodes ∧ mem' (lastLink link' nodes) = mem (lastLink link nodes) := by
  cases nodes with
  | nil => exact ⟨trivial, hlink⟩
  | cons node nodes =>
    have hfields : ∀ other ∈ links (.next node) nodes, mem' other = mem other := by
      intro other hother
      have hmem : other ∈ (node :: nodes).map Link.next := hother
      obtain ⟨behind, hbehind, rfl⟩ := List.mem_map.mp hmem
      exact hsame behind hbehind
    exact ⟨⟨hlink.trans h.1, h.2.congr hfields⟩, hfields _ lastLink_mem⟩

/-! ## Queues -/

variable {queue : κ} {tail : Link κ ι}

/-- The links lead through exactly these nodes, and the tail is the link behind them. -/
structure Queue (mem : Link κ ι → Option ι) (tail : Link κ ι) (queue : κ) (nodes : List ι) : Prop where
  path : Path mem (.head queue) nodes
  ends : mem (lastLink (.head queue) nodes) = none
  tail_eq : tail = lastLink (.head queue) nodes

namespace Queue

theorem chain (h : Queue mem tail queue nodes) :
    Chain (fun node ↦ mem (.next node)) (mem (.head queue)) nodes := by
  have hgeneral : ∀ (link : Link κ ι) (nodes : List ι), Path mem link nodes →
      mem (lastLink link nodes) = none → Chain (fun node ↦ mem (.next node)) (mem link) nodes := by
    intro link nodes
    induction nodes generalizing link with
    | nil => exact fun _ hends ↦ hends
    | cons node nodes ih => exact fun hpath hends ↦ ⟨hpath.1, ih _ hpath.2 hends⟩
  exact hgeneral _ _ h.path h.ends

theorem nodup (h : Queue mem tail queue nodes) : nodes.Nodup := h.chain.nodup

/-- What the link behind some of the nodes points to. -/
theorem mem_lastLink (h : Queue mem tail queue (front ++ back)) :
    mem (lastLink (.head queue) front) = back.head? := by
  cases back with
  | nil => exact (congrArg (fun nodes ↦ mem (lastLink _ nodes)) (List.append_nil front)).symm.trans h.ends
  | cons node back => exact (path_append.mp h.path).2.1

/-- The tail is a field of a node if and only if that node is the last one. -/
theorem tail_eq_next_iff (h : Queue mem tail queue (front ++ node :: back)) :
    tail = .next node ↔ back = [] := by
  rw [h.tail_eq, lastLink_append]
  constructor
  · intro heq
    by_contra hne
    obtain ⟨before, last, rfl⟩ : ∃ before last, back = before ++ [last] :=
      ⟨back.dropLast, back.getLast hne, (List.dropLast_append_getLast hne).symm⟩
    have hlast : (Link.next last : Link κ ι) = .next node := by
      calc Link.next last = lastLink (lastLink (.head queue) front) (node :: (before ++ [last])) := by
            rw [← List.cons_append, lastLink_append]
            rfl
        _ = .next node := heq
    have hnot := (List.nodup_cons.mp (List.nodup_append.mp h.nodup).2.1).1
    rw [Link.next.inj hlast] at hnot
    exact hnot (List.mem_append_right before (List.mem_singleton_self node))
  · rintro rfl
    rfl

/-- Changes elsewhere. -/
theorem congr (h : Queue mem tail queue nodes)
    (hsame : ∀ link ∈ links (.head queue) nodes, mem' link = mem link) : Queue mem' tail queue nodes where
  path := h.path.congr hsame
  ends := (hsame _ lastLink_mem).trans h.ends
  tail_eq := h.tail_eq

variable [DecidableEq κ] [DecidableEq ι]

/-- Writing a new node to the tail. -/
theorem append (h : Queue mem tail queue nodes) (hnew : mem (.next new) = none) (hnot : new ∉ nodes) :
    Queue (update mem tail (some new)) (.next new) queue (nodes ++ [new]) := by
  rw [h.tail_eq]
  have hother : .next new ≠ lastLink (.head queue) nodes := by
    intro heq
    have hmem : .next new ∈ links (.head queue) nodes := heq ▸ lastLink_mem
    exact hnot (next_mem_links.mp hmem)
  refine ⟨path_append.mpr ⟨?_, ?_, trivial⟩, ?_, ?_⟩
  · exact h.path.update_lastLink (nodup_links.mpr h.nodup) _
  · exact update_self _ _ _
  · rw [lastLink_append]
    exact (update_of_ne hother _ _).trans hnew
  · rw [lastLink_append]
    rfl

/-- Taking a node out through the link that it is reached by. -/
theorem remove (h : Queue mem tail queue (front ++ node :: back)) :
    Queue (update (update mem (lastLink (.head queue) front) (mem (.next node))) (.next node) none)
      (if tail = .next node then lastLink (.head queue) front else tail) queue (front ++ back) := by
  obtain ⟨hfront, -, hback⟩ := path_append.mp h.path
  obtain ⟨hnodup, hrest, hapart⟩ := List.nodup_append.mp h.nodup
  obtain ⟨hnode, -⟩ := List.nodup_cons.mp hrest
  have hlink : lastLink (.head queue) front ∈ links (.head queue) front := lastLink_mem
  have hreached : ∀ other ∈ node :: back, lastLink (.head queue) front ≠ .next other := by
    intro other hother heq
    rw [heq, next_mem_links] at hlink
    exact hapart other hlink other hother rfl
  have hne := hreached node List.mem_cons_self
  -- The way to the node does not pass it, and the way on starts with the pointer that it had.
  have hbefore : Path (update (update mem (lastLink (.head queue) front) (mem (.next node))) (.next node)
      none) (.head queue) front := by
    apply (hfront.update_lastLink (nodup_links.mpr hnodup) (mem (.next node))).congr
    intro other hother
    apply update_of_ne
    rintro rfl
    exact hapart node (next_mem_links.mp hother) node List.mem_cons_self rfl
  have hfields : ∀ other ∈ back, update (update mem (lastLink (.head queue) front) (mem (.next node)))
      (.next node) none (.next other) = mem (.next other) := by
    intro other hother
    have hnext : Link.next other ≠ (Link.next node : Link κ ι) := by
      intro heq
      exact hnode (Link.next.inj heq ▸ hother)
    rw [update_of_ne hnext, update_of_ne (hreached other (List.mem_cons_of_mem node hother)).symm]
  obtain ⟨hbehind, hends⟩ := hback.move (by rw [update_of_ne hne, update_self]) hfields
  refine ⟨path_append.mpr ⟨hbefore, hbehind⟩, ?_, ?_⟩
  · calc _ = mem (lastLink (.next node) back) := by rw [lastLink_append, hends]
      _ = mem (lastLink (.head queue) (front ++ node :: back)) := by rw [lastLink_append]; rfl
      _ = none := h.ends
  · by_cases hlast : back = []
    · rw [if_pos (h.tail_eq_next_iff.mpr hlast), hlast, List.append_nil]
    · rw [if_neg fun htail ↦ hlast (h.tail_eq_next_iff.mp htail), h.tail_eq, lastLink_append,
        lastLink_append]
      cases back with
      | nil => exact absurd rfl hlast
      | cons _ back => rfl

end Queue

end Icecast.Lib.LinkQueue
