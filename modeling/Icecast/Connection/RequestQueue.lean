import Icecast.Connection.Reuse
import Icecast.Lib.Heap
import Icecast.Lib.LinkQueue

/-!
# The queues of clients whose requests are read

A client stands in the request queue while its header is read, and in the connection queue when the header
is complete. Both are singly linked lists with a pointer to the link behind their last node
(`connection.c`). `held` lists the nodes that a caller has in hand: created or taken from a queue, and not
yet put into one or freed.
-/

namespace Icecast.Connection.RequestQueue

open Function Lib Lib.CString Lib.LinkQueue Lib.Machine

/-! ## Nodes, links and the four pointers -/

inductive Which where
  | request
  | connection
  deriving DecidableEq

abbrev Link := LinkQueue.Link Which ℕ

/-- `client_queue_t`; what else belongs to the client comes with the readings below. -/
structure Node where
  shoutcast : ℕ
  next : Option ℕ

structure State where
  nodes : Heap Node
  head : Which → Option ℕ
  tail : Which → Link
  held : List ℕ

/-- As `connection_initialize` leaves the pointers. -/
def empty : State := ⟨Heap.empty, fun _ ↦ none, .head, []⟩

/-- `*link` -/
def State.deref (st : State) : Link → Option ℕ
  | .head queue => st.head queue
  | .next node => (st.nodes.objects node).bind Node.next

/-- `*link = value` -/
def State.assign (st : State) (link : Link) (value : Option ℕ) : State :=
  match link with
  | .head queue => { st with head := update st.head queue value }
  | .next node => { st with nodes := st.nodes.modify node fun fields ↦ { fields with next := value } }

def State.setTail (st : State) (queue : Which) (link : Link) : State :=
  { st with tail := update st.tail queue link }

def State.shoutcast (st : State) (node : ℕ) : ℕ := (st.nodes.objects node).elim 0 Node.shoutcast

def State.setShoutcast (st : State) (node value : ℕ) : State :=
  { st with nodes := st.nodes.modify node fun fields ↦ { fields with shoutcast := value } }

/-! ## The operations -/

/-- `create_client_node`; the listener decides about `shoutcast`. -/
def createClientNode (shoutcast : ℕ) (st : State) : State :=
  { st with nodes := st.nodes.alloc ⟨shoutcast, none⟩, held := st.nodes.next :: st.held }

def freeNode (node : ℕ) (st : State) : State :=
  { st with nodes := st.nodes.free node, held := st.held.erase node }

/-- `*tail = node; tail = &node->next` -/
def enqueue (queue : Which) (node : ℕ) (st : State) : State :=
  { (st.assign (st.tail queue) (some node)).setTail queue (.next node) with held := st.held.erase node }

def addConnection : ℕ → State → State := enqueue .connection

def addRequestQueue : ℕ → State → State := enqueue .request

def getConnection (st : State) : Option ℕ × State :=
  match st.head .connection with
  | none => (none, st)
  | some node =>
    let st := st.assign (.head .connection) (st.deref (.next node))
    let st := if st.head .connection = none then st.setTail .connection (.head .connection) else st
    (some node, { st.assign (.next node) none with held := node :: st.held })

/-- If the tail of the request queue is in the node, it goes to the link that the node is reached by. -/
def State.leaveNode (st : State) (node : ℕ) (nodeRef : Link) : State :=
  if st.tail .request = .next node then st.setTail .request nodeRef else st

/-- Taking a node out of the request queue. -/
def unlink (nodeRef : Link) (node : ℕ) (st : State) : State :=
  let st := st.leaveNode node nodeRef
  { st.assign nodeRef (st.deref (.next node)) with held := node :: st.held }

/-! ## Reading requests -/

/-- What a round finds for a client: the room in its buffer, whether it has had its time, what
`client_read_bytes` returns, the error flag of the connection, and the text in the buffer behind that. -/
structure Reading where
  room : ℤ
  timedOut : Bool
  read : ℤ
  error : Bool
  data : Reuse.Bytes

inductive Outcome where
  | ready
  | gone
  | stay
  deriving DecidableEq

/-- The end of a password line. -/
def hasLineEnd (data : Reuse.Bytes) : Bool :=
  (strstr [13, 13, 10] (Reuse.cString data)).isSome || (strstr [13, 10] (Reuse.cString data)).isSome ||
    (strstr [10] (Reuse.cString data)).isSome

def passIt (shoutcast : ℕ) (data : Reuse.Bytes) : Bool :=
  if shoutcast = 1 && hasLineEnd data then true else (Reuse.streamOffset data).isSome

def outcome (shoutcast : ℕ) (reading : Reading) : Outcome :=
  let len := if 0 < reading.room then if reading.timedOut then 0 else reading.read else reading.room
  if 0 < len then
    if passIt shoutcast reading.data then .ready else .stay
  else if len = 0 || reading.error then .gone
  else .stay

/-- The loop of `process_request_queue` along the links of the request queue. -/
def readRequests (readings : ℕ → Reading) : ℕ → Link → State → State
  | 0, _, st => st
  | fuel + 1, nodeRef, st =>
    match st.deref nodeRef with
    | none => st
    | some node =>
      match outcome (st.shoutcast node) (readings node) with
      | .ready =>
        readRequests readings fuel nodeRef
          (addConnection node ((unlink nodeRef node st).assign (.next node) none))
      -- A client without an answer is closed by `client_destroy`, so that no node is added here.
      | .gone => readRequests readings fuel nodeRef (freeNode node (unlink nodeRef node st))
      | .stay => readRequests readings fuel (.next node) st

/-- What `_handle_connection` does with a node: a password line sends it back for its headers, as
`_handle_shoutcast_compatible` has it, and every other node is freed. -/
def handleNode (data : Reuse.Bytes) (node : ℕ) (st : State) : State :=
  if st.shoutcast node = 1 && hasLineEnd data then addRequestQueue node (st.setShoutcast node 2)
  else freeNode node st

def handleConnection (data : ℕ → Reuse.Bytes) : ℕ → State → State
  | 0, st => st
  | fuel + 1, st =>
    match getConnection st with
    | (none, st) => st
    | (some node, st) => handleConnection data fuel (handleNode (data node) node st)

/-- No queue has more nodes than have been allocated. -/
def processRequestQueue (readings : ℕ → Reading) (data : ℕ → Reuse.Bytes) (st : State) : State :=
  let st := readRequests readings st.nodes.next (.head .request) st
  handleConnection data st.nodes.next st

/-! ## Calls -/

/-- The parts of `process_request_queue` are calls as well: a handler may answer a client and have its
connection queued anew before the next node is taken. -/
inductive Call where
  | createClientNode (shoutcast : ℕ)
  | addRequestQueue (node : ℕ)
  | addConnection (node : ℕ)
  | getConnection
  | handleNode (data : Reuse.Bytes) (node : ℕ)
  | freeNode (node : ℕ)
  | connectionQueue (shoutcast : ℕ)
  | readRequests (readings : ℕ → Reading)
  | processRequestQueue (readings : ℕ → Reading) (data : ℕ → Reuse.Bytes)

/-- A caller only passes a node that it has in hand. -/
def step (st : State) : Call → State
  | .createClientNode shoutcast => createClientNode shoutcast st
  | .addRequestQueue node => if node ∈ st.held then addRequestQueue node st else st
  | .addConnection node => if node ∈ st.held then addConnection node st else st
  | .getConnection => (getConnection st).2
  | .handleNode data node => if node ∈ st.held then handleNode data node st else st
  | .freeNode node => if node ∈ st.held then freeNode node st else st
  | .connectionQueue shoutcast => addRequestQueue st.nodes.next (createClientNode shoutcast st)
  | .readRequests readings => readRequests readings st.nodes.next (.head .request) st
  | .processRequestQueue readings data => processRequestQueue readings data st

/-! ## What the queues are -/

/-- The queues that the pointers make up. Their nodes and those in hand are different, and are all that
are allocated. -/
structure State.Queues (st : State) (lists : Which → List ℕ) : Prop where
  queue : ∀ which, Queue st.deref (st.tail which) which (lists which)
  held : ∀ node ∈ st.held, st.deref (.next node) = none
  nodup : (lists .request ++ lists .connection ++ st.held).Nodup
  live : ∀ node, (st.nodes.objects node).isSome ↔ node ∈ lists .request ++ lists .connection ++ st.held

variable {st : State} {lists : Which → List ℕ} {queue : Which} {node : ℕ}

namespace State.Queues

theorem mem_of_mem (h : node ∈ lists queue) : node ∈ lists .request ++ lists .connection ++ st.held := by
  cases queue
  · simp [h]
  · simp [h]

theorem isSome_of_mem (h : st.Queues lists) (hnode : node ∈ lists queue) :
    (st.nodes.objects node).isSome := (h.live node).mpr (mem_of_mem hnode)

/-- Every allocated node that no caller has in hand is in exactly one of the queues. -/
theorem exactly_one (h : st.Queues lists) (hlive : (st.nodes.objects node).isSome)
    (hheld : node ∉ st.held) : Xor (node ∈ lists .request) (node ∈ lists .connection) := by
  have hnodup := h.nodup
  have hmem := (h.live node).mp hlive
  unfold Xor
  grind

theorem notMem_of_ne (h : st.Queues lists) {other : Which} (hne : queue ≠ other)
    (hnode : node ∈ lists queue) : node ∉ lists other := by
  have hnodup := h.nodup
  cases queue <;> cases other <;> grind

theorem notMem_of_held (h : st.Queues lists) (hnode : node ∈ st.held) (queue : Which) :
    node ∉ lists queue := by
  have hnodup := h.nodup
  cases queue <;> grind

end State.Queues

/-! ## Writing to a link -/

theorem deref_assign {link : Link} (hlive : ∀ node, link = .next node → (st.nodes.objects node).isSome)
    (value : Option ℕ) : (st.assign link value).deref = update st.deref link value := by
  funext other
  cases link with
  | head queue =>
    cases other with
    | head other =>
      by_cases heq : other = queue
      · rw [heq, update_self]
        exact update_self _ _ _
      · rw [update_of_ne (fun h ↦ heq (Link.head.inj h))]
        exact update_of_ne heq _ _
    | next other => rw [update_of_ne (by simp)]; rfl
  | next node =>
    cases other with
    | head other => rw [update_of_ne (by simp)]; rfl
    | next other =>
      by_cases heq : other = node
      · obtain ⟨fields, hfields⟩ := Option.isSome_iff_exists.mp (hlive node rfl)
        simp [heq, State.deref, State.assign, hfields]
      · rw [update_of_ne (fun h ↦ heq (Link.next.inj h))]
        simp [State.deref, State.assign, Heap.objects_modify_of_ne _ _ heq]

theorem isSome_assign (link : Link) (value : Option ℕ) (node : ℕ) :
    ((st.assign link value).nodes.objects node).isSome = (st.nodes.objects node).isSome := by
  cases link with
  | head queue => rfl
  | next other =>
    by_cases heq : node = other
    · simp [State.assign, heq]
    · simp [State.assign, Heap.objects_modify_of_ne _ _ heq]

theorem shoutcast_assign (link : Link) (value : Option ℕ) (node : ℕ) :
    (st.assign link value).shoutcast node = st.shoutcast node := by
  cases link with
  | head queue => rfl
  | next other =>
    by_cases heq : node = other
    · cases hnode : st.nodes.objects other with
      | none => simp [State.assign, State.shoutcast, heq, hnode]
      | some fields => simp [State.assign, State.shoutcast, heq, hnode]
    · simp [State.assign, State.shoutcast, Heap.objects_modify_of_ne _ _ heq]

@[simp] theorem held_assign (link : Link) (value : Option ℕ) : (st.assign link value).held = st.held := by
  cases link with
  | head queue => rfl
  | next node => rfl

@[simp] theorem tail_assign (link : Link) (value : Option ℕ) : (st.assign link value).tail = st.tail := by
  cases link with
  | head queue => rfl
  | next node => rfl

/-! ## Putting a node into a queue -/

theorem perm_enqueue (lists : Which → List ℕ) {held : List ℕ} (hheld : node ∈ held) (queue : Which) :
    (update lists queue (lists queue ++ [node]) .request ++ update lists queue (lists queue ++ [node])
      .connection ++ held.erase node).Perm (lists .request ++ lists .connection ++ held) := by
  rw [List.perm_iff_count]
  intro other
  have hcount := (List.perm_cons_erase hheld).count_eq other
  simp only [List.count_cons, beq_iff_eq] at hcount
  cases queue <;> simp [List.count_cons] <;> omega

theorem State.Queues.enqueue (h : st.Queues lists) (hheld : node ∈ st.held) (queue : Which) :
    (enqueue queue node st).Queues (update lists queue (lists queue ++ [node])) := by
  have htail : st.tail queue ∈ links (.head queue) (lists queue) := by
    rw [(h.queue queue).tail_eq]
    exact lastLink_mem
  have hderef : (RequestQueue.enqueue queue node st).deref =
      update st.deref (st.tail queue) (some node) := by
    apply deref_assign
    intro last hlast
    rw [hlast, next_mem_links] at htail
    exact h.isSome_of_mem htail
  have hperm := perm_enqueue lists hheld queue
  constructor
  · intro other
    rw [hderef]
    by_cases heq : other = queue
    · subst heq
      rw [update_self]
      have happend := (h.queue other).append (h.held node hheld) (h.notMem_of_held hheld other)
      simpa [RequestQueue.enqueue, State.setTail] using happend
    · rw [update_of_ne heq]
      have hsame : ∀ link ∈ links (.head other) (lists other),
          update st.deref (st.tail queue) (some node) link = st.deref link := by
        intro link hlink
        apply update_of_ne
        rintro rfl
        exact notMem_links_of_mem (Ne.symm heq) (fun _ ↦ h.notMem_of_ne (Ne.symm heq)) htail hlink
      simpa [RequestQueue.enqueue, State.setTail, heq] using (h.queue other).congr hsame
  · intro other hother
    have hmem : other ∈ st.held := List.mem_of_mem_erase hother
    have hne : Link.next other ≠ st.tail queue := by
      intro heq
      rw [← heq, next_mem_links] at htail
      exact h.notMem_of_held hmem queue htail
    rw [hderef, update_of_ne hne]
    exact h.held other hmem
  · exact hperm.nodup_iff.mpr h.nodup
  · intro other
    have hsome : ((RequestQueue.enqueue queue node st).nodes.objects other).isSome =
        (st.nodes.objects other).isSome := isSome_assign _ _ _
    rw [hsome, h.live other]
    exact hperm.mem_iff.symm

/-! ## Taking a node out of a queue -/

theorem perm_take {front back : List ℕ} (hlist : lists queue = front ++ node :: back) (held : List ℕ) :
    (update lists queue (front ++ back) .request ++ update lists queue (front ++ back) .connection ++
      node :: held).Perm (lists .request ++ lists .connection ++ held) := by
  rw [List.perm_iff_count]
  intro other
  cases queue <;> simp [hlist, List.count_cons] <;> omega

/-- The node is unlinked from a queue and cleared; `unlink` and `getConnection` both do this. -/
theorem State.Queues.take {after : State} {front back : List ℕ} (h : st.Queues lists)
    (hlist : lists queue = front ++ node :: back)
    (hderef : after.deref = update (update st.deref (lastLink (.head queue) front) (st.deref (.next node)))
      (.next node) none)
    (htail : after.tail = update st.tail queue
      (if st.tail queue = .next node then lastLink (.head queue) front else st.tail queue))
    (hheld : after.held = node :: st.held)
    (hsome : ∀ other, (after.nodes.objects other).isSome = (st.nodes.objects other).isSome) :
    after.Queues (update lists queue (front ++ back)) := by
  have hnode : node ∈ lists queue := by simp [hlist]
  have hperm := perm_take hlist st.held
  have hwritten : ∀ link, link ∉ links (.head queue) (lists queue) → after.deref link = st.deref link := by
    intro link hlink
    have hfront : link ≠ lastLink (.head queue) front := by
      rintro rfl
      have hmem : lastLink (.head queue) front ∈ links (.head queue) front := lastLink_mem
      rw [mem_links_head] at hmem hlink
      grind
    have hfield : link ≠ .next node := by
      rintro rfl
      exact hlink (next_mem_links.mpr hnode)
    rw [hderef, update_of_ne hfield, update_of_ne hfront]
  constructor
  · intro other
    rw [htail]
    by_cases heq : other = queue
    · subst heq
      rw [hderef, update_self, update_self]
      exact (hlist ▸ h.queue other).remove
    · rw [update_of_ne heq, update_of_ne heq]
      apply (h.queue other).congr
      intro link hlink
      exact hwritten link (notMem_links_of_mem heq (fun _ ↦ h.notMem_of_ne heq) hlink)
  · intro other hother
    rw [hheld] at hother
    cases hother with
    | head => rw [hderef, update_self]
    | tail _ hother =>
      rw [hwritten _ (fun hlink ↦ h.notMem_of_held hother queue (next_mem_links.mp hlink))]
      exact h.held other hother
  · rw [hheld]
    exact hperm.nodup_iff.mpr h.nodup
  · intro other
    rw [hsome, h.live other, hheld]
    exact hperm.mem_iff.symm

/-- The tail is set in either case. -/
theorem ite_setTail (cond : Prop) [Decidable cond] (queue : Which) (link : Link) :
    (if cond then st.setTail queue link else st) =
      st.setTail queue (if cond then link else st.tail queue) := by
  split_ifs
  · rfl
  · rw [State.setTail, update_eq_self]

theorem leaveNode_eq (st : State) (node : ℕ) (nodeRef : Link) : st.leaveNode node nodeRef =
    st.setTail .request (if st.tail .request = .next node then nodeRef else st.tail .request) :=
  ite_setTail _ _ _

theorem leaveNode_deref (st : State) (node : ℕ) (nodeRef : Link) :
    (st.leaveNode node nodeRef).deref = st.deref := by
  rw [leaveNode_eq]
  rfl

theorem leaveNode_nodes (st : State) (node : ℕ) (nodeRef : Link) :
    (st.leaveNode node nodeRef).nodes = st.nodes := by
  rw [leaveNode_eq]
  rfl

theorem leaveNode_held (st : State) (node : ℕ) (nodeRef : Link) :
    (st.leaveNode node nodeRef).held = st.held := by
  rw [leaveNode_eq]
  rfl

theorem leaveNode_tail (st : State) (node : ℕ) (nodeRef : Link) : (st.leaveNode node nodeRef).tail =
    update st.tail .request (if st.tail .request = .next node then nodeRef else st.tail .request) := by
  rw [leaveNode_eq]
  rfl

theorem State.Queues.live_of_lastLink (h : st.Queues lists) {front back : List ℕ}
    (hlist : lists queue = front ++ back) (last : ℕ) (hlast : lastLink (.head queue) front = .next last) :
    (st.nodes.objects last).isSome := by
  have hmem : Link.next last ∈ links (.head queue) front := hlast ▸ lastLink_mem
  have hfront : last ∈ lists queue := by
    rw [hlist]
    exact List.mem_append_left back (next_mem_links.mp hmem)
  exact h.isSome_of_mem hfront

/-- The node of a queue that is reached by a link, cleared when the link leads past it. -/
theorem deref_unlinked {link : Link} (hlink : ∀ last, link = .next last → (st.nodes.objects last).isSome)
    (hnode : (st.nodes.objects node).isSome) (value : Option ℕ) :
    ((st.assign link value).assign (.next node) none).deref =
      update (update st.deref link value) (.next node) none := by
  have hlive : ∀ other, (Link.next node : Link) = .next other →
      ((st.assign link value).nodes.objects other).isSome := by
    intro other heq
    rw [isSome_assign, ← Link.next.inj heq]
    exact hnode
  calc ((st.assign link value).assign (.next node) none).deref
      = update (st.assign link value).deref (.next node) none := deref_assign hlive none
    _ = update (update st.deref link value) (.next node) none := by rw [deref_assign hlink]

theorem State.Queues.unlink {front back : List ℕ} (h : st.Queues lists)
    (hlist : lists .request = front ++ node :: back) :
    ((unlink (lastLink (.head .request) front) node st).assign (.next node) none).Queues
      (update lists .request (front ++ back)) := by
  have hnode : (st.nodes.objects node).isSome :=
    h.isSome_of_mem (hlist ▸ List.mem_append_right front List.mem_cons_self)
  apply h.take hlist
  · calc _ = update (update (st.leaveNode node (lastLink (.head .request) front)).deref
            (lastLink (.head .request) front)
            ((st.leaveNode node (lastLink (.head .request) front)).deref (.next node)))
              (.next node) none := by
          apply deref_unlinked
          · rw [leaveNode_nodes]
            exact h.live_of_lastLink hlist
          · rw [leaveNode_nodes]
            exact hnode
      _ = _ := by rw [leaveNode_deref]
  · rw [tail_assign]
    exact (tail_assign _ _).trans (leaveNode_tail st node _)
  · rw [held_assign, RequestQueue.unlink, leaveNode_held]
  · intro other
    rw [isSome_assign]
    exact (isSome_assign _ _ _).trans (by rw [leaveNode_nodes])

theorem getConnection_none (h : st.head .connection = none) : getConnection st = (none, st) := by
  unfold getConnection
  rw [h]

theorem getConnection_some (h : st.head .connection = some node) :
    getConnection st = (some node,
      { ((st.setTail .connection (if st.deref (.next node) = none then .head .connection
          else st.tail .connection)).assign (.head .connection) (st.deref (.next node))).assign
            (.next node) none with
        held := node :: st.held }) := by
  have hhead : (st.assign (.head .connection) (st.deref (.next node))).head .connection =
      st.deref (.next node) := by simp [State.assign]
  unfold getConnection
  rw [h]
  dsimp only
  rw [hhead, ite_setTail]
  rfl

/-- `_get_connection` takes the first node of the connection queue. -/
theorem State.Queues.getConnection {back : List ℕ} (h : st.Queues lists)
    (hlist : lists .connection = node :: back) :
    (getConnection st).1 = some node ∧ (getConnection st).2.held = node :: st.held ∧
      (getConnection st).2.Queues (update lists .connection back) := by
  have hqueue := h.queue .connection
  rw [hlist] at hqueue
  have hnext : st.deref (.next node) = back.head? := by
    have hone : Queue st.deref (st.tail .connection) .connection ([node] ++ back) := hqueue
    exact hone.mem_lastLink
  have hlast : st.tail .connection = .next node ↔ st.deref (.next node) = none := by
    have hnone : Queue st.deref (st.tail .connection) .connection ([] ++ node :: back) := hqueue
    rw [hnext, hnone.tail_eq_next_iff]
    exact List.head?_eq_none_iff.symm
  have hnode : (st.nodes.objects node).isSome := h.isSome_of_mem (hlist ▸ List.mem_cons_self)
  have hend : ∀ last, (Link.head .connection : Link) = .next last →
      (st.nodes.objects last).isSome := by simp
  rw [getConnection_some hqueue.path.1]
  refine ⟨rfl, rfl, ?_⟩
  apply h.take (hlist.trans (List.nil_append _).symm)
  · exact deref_unlinked hend hnode _
  · simp only [hlast]
    exact (tail_assign _ _).trans (tail_assign _ _)
  · rfl
  · exact fun _ ↦ (isSome_assign _ _ _).trans (isSome_assign _ _ _)

/-! ## Nodes in hand -/

theorem State.Queues.createClientNode (h : st.Queues lists) (shoutcast : ℕ) :
    (createClientNode shoutcast st).Queues lists := by
  have hfresh : st.nodes.next ∉ lists .request ++ lists .connection ++ st.held := by
    rw [← h.live, st.nodes.fresh _ (Nat.le_refl _)]
    simp
  have hderef : (RequestQueue.createClientNode shoutcast st).deref = st.deref := by
    funext link
    cases link with
    | head queue => rfl
    | next other =>
      by_cases heq : other = st.nodes.next
      · simp [heq, State.deref, RequestQueue.createClientNode, st.nodes.fresh _ (Nat.le_refl _)]
      · simp [State.deref, RequestQueue.createClientNode, Heap.objects_alloc_of_ne _ _ heq]
  constructor
  · rw [hderef]
    exact h.queue
  · intro other hother
    rw [hderef]
    cases hother with
    | head => simp [State.deref, st.nodes.fresh _ (Nat.le_refl _)]
    | tail _ hother => exact h.held other hother
  · rw [RequestQueue.createClientNode, List.nodup_middle]
    exact List.nodup_cons.mpr ⟨hfresh, h.nodup⟩
  · intro other
    by_cases heq : other = st.nodes.next
    · simp [heq, RequestQueue.createClientNode]
    · have hlive := h.live other
      simp [RequestQueue.createClientNode, Heap.objects_alloc_of_ne _ _ heq, heq] at hlive ⊢
      exact hlive

theorem State.Queues.freeNode (h : st.Queues lists) (hheld : node ∈ st.held) :
    (freeNode node st).Queues lists := by
  have hderef : (RequestQueue.freeNode node st).deref = st.deref := by
    funext link
    cases link with
    | head queue => rfl
    | next other =>
      by_cases heq : other = node
      · rw [heq, h.held node hheld]
        simp [State.deref, RequestQueue.freeNode]
      · simp [State.deref, RequestQueue.freeNode, Heap.objects_free_of_ne _ heq]
  have hperm : (lists .request ++ lists .connection ++ st.held).Perm
      (node :: (lists .request ++ lists .connection ++ st.held.erase node)) :=
    ((List.perm_cons_erase hheld).append_left _).trans List.perm_middle
  have hnodup := hperm.nodup_iff.mp h.nodup
  constructor
  · rw [hderef]
    exact h.queue
  · intro other hother
    rw [hderef]
    exact h.held other (List.mem_of_mem_erase hother)
  · exact (List.nodup_cons.mp hnodup).2
  · intro other
    by_cases heq : other = node
    · have hnot := (List.nodup_cons.mp hnodup).1
      rw [heq]
      simp [RequestQueue.freeNode] at hnot ⊢
      exact hnot
    · have hlive := (h.live other).trans hperm.mem_iff
      simp [RequestQueue.freeNode, Heap.objects_free_of_ne _ heq, heq] at hlive ⊢
      exact hlive

theorem State.Queues.setShoutcast (h : st.Queues lists) (node value : ℕ) :
    (st.setShoutcast node value).Queues lists := by
  have hderef : (st.setShoutcast node value).deref = st.deref := by
    funext link
    cases link with
    | head queue => rfl
    | next other =>
      by_cases heq : other = node
      · cases hnode : st.nodes.objects node with
        | none => simp [State.deref, State.setShoutcast, heq, hnode]
        | some fields => simp [State.deref, State.setShoutcast, heq, hnode]
      · simp [State.deref, State.setShoutcast, Heap.objects_modify_of_ne _ _ heq]
  constructor
  · rw [hderef]
    exact h.queue
  · rw [hderef]
    exact h.held
  · exact h.nodup
  · intro other
    rw [← Heap.mem_live, State.setShoutcast, Heap.live_modify, Heap.mem_live]
    exact h.live other

/-! ## Reading the requests of a queue -/

def State.outcomes (st : State) (readings : ℕ → Reading) (node : ℕ) : Outcome :=
  outcome (st.shoutcast node) (readings node)

/-- The nodes that are still to come, after those that stay and those that are handed over. -/
def afterReading (outcomes : ℕ → Outcome) (lists : Which → List ℕ) (front rest : List ℕ) : Which → List ℕ :=
  update (update lists .request (front ++ rest.filter (outcomes · = .stay))) .connection
    (lists .connection ++ rest.filter (outcomes · = .ready))

variable {readings : ℕ → Reading}

theorem shoutcast_unlink (nodeRef : Link) (node other : ℕ) :
    (unlink nodeRef node st).shoutcast other = st.shoutcast other := by
  calc (unlink nodeRef node st).shoutcast other
      = (st.leaveNode node nodeRef).shoutcast other := shoutcast_assign _ _ _
    _ = st.shoutcast other := by rw [State.shoutcast, leaveNode_nodes, State.shoutcast]

theorem shoutcast_freeNode {other : ℕ} (hne : other ≠ node) :
    (freeNode node st).shoutcast other = st.shoutcast other := by
  rw [State.shoutcast, freeNode, Heap.objects_free_of_ne _ hne, State.shoutcast]

/-- What becomes of the others does not depend on a node that has been looked at. -/
theorem afterReading_congr {st' : State} {front rest : List ℕ} (hnot : node ∉ rest)
    (hsame : ∀ other, other ≠ node → st'.shoutcast other = st.shoutcast other) :
    afterReading (st'.outcomes readings) lists front rest =
      afterReading (st.outcomes readings) lists front rest := by
  have hfilter : ∀ wanted : Outcome, rest.filter (st'.outcomes readings · = wanted) =
      rest.filter (st.outcomes readings · = wanted) := by
    intro wanted
    apply List.filter_congr
    intro other hother
    rw [State.outcomes, hsame other (ne_of_mem_of_not_mem hother hnot), State.outcomes]
  rw [afterReading, hfilter, hfilter, afterReading]

/-- A client that is gone is freed without clearing its node. -/
theorem freeNode_assign (node : ℕ) (st : State) :
    freeNode node (st.assign (.next node) none) = freeNode node st := by
  rw [freeNode, freeNode, State.assign, Heap.free_modify]

section AfterReading

variable {outcomes : ℕ → Outcome} {front rest : List ℕ}

theorem afterReading_nil (hlist : lists .request = front) :
    afterReading outcomes lists front [] = lists := by
  funext which
  cases which <;> simp [afterReading, hlist]

theorem afterReading_ready (houtcome : outcomes node = .ready) :
    afterReading outcomes (update (update lists .request (front ++ rest)) .connection
      (update lists .request (front ++ rest) .connection ++ [node])) front rest =
        afterReading outcomes lists front (node :: rest) := by
  funext which
  cases which <;> simp [afterReading, houtcome]

theorem afterReading_gone (houtcome : outcomes node = .gone) :
    afterReading outcomes (update lists .request (front ++ rest)) front rest =
      afterReading outcomes lists front (node :: rest) := by
  funext which
  cases which <;> simp [afterReading, houtcome]

theorem afterReading_stay (houtcome : outcomes node = .stay) :
    afterReading outcomes lists (front ++ [node]) rest =
      afterReading outcomes lists front (node :: rest) := by
  funext which
  cases which <;> simp [afterReading, houtcome]

end AfterReading

theorem held_unlink (nodeRef : Link) (node : ℕ) : (unlink nodeRef node st).held = node :: st.held := by
  rw [unlink, leaveNode_held]

/-- A client that is ready: its node goes from the one queue to the other. -/
theorem State.Queues.handOver {front rest : List ℕ} (h : st.Queues lists)
    (hlist : lists .request = front ++ node :: rest) :
    ∃ after, addConnection node ((RequestQueue.unlink (lastLink (.head .request) front) node st).assign
        (.next node) none) = after ∧
      after.Queues (update (update lists .request (front ++ rest)) .connection
        (update lists .request (front ++ rest) .connection ++ [node])) ∧
      after.held = st.held ∧ ∀ other, after.shoutcast other = st.shoutcast other := by
  have hheld : ((RequestQueue.unlink (lastLink (.head .request) front) node st).assign (.next node)
      none).held = node :: st.held := (held_assign _ _).trans (held_unlink _ node)
  refine ⟨_, rfl, (h.unlink hlist).enqueue (hheld ▸ List.mem_cons_self) .connection, ?_, ?_⟩
  · calc _ = (node :: st.held).erase node := congrArg (List.erase · node) hheld
      _ = st.held := List.erase_cons_head node st.held
  · intro other
    calc _ = ((RequestQueue.unlink (lastLink (.head .request) front) node st).assign (.next node)
            none).shoutcast other := shoutcast_assign _ _ _
      _ = (RequestQueue.unlink (lastLink (.head .request) front) node st).shoutcast other :=
          shoutcast_assign _ _ _
      _ = st.shoutcast other := shoutcast_unlink _ node other

/-- A client that is gone: its node is taken out and freed. -/
theorem State.Queues.drop {front rest : List ℕ} (h : st.Queues lists)
    (hlist : lists .request = front ++ node :: rest) :
    ∃ after, RequestQueue.freeNode node (RequestQueue.unlink (lastLink (.head .request) front) node st) =
        after ∧ after.Queues (update lists .request (front ++ rest)) ∧ after.held = st.held ∧
      ∀ other, other ≠ node → after.shoutcast other = st.shoutcast other := by
  refine ⟨_, rfl, ?_, ?_, ?_⟩
  · rw [← freeNode_assign]
    apply (h.unlink hlist).freeNode
    rw [held_assign, held_unlink]
    exact List.mem_cons_self
  · calc _ = (node :: st.held).erase node := congrArg (List.erase · node) (held_unlink _ node)
      _ = st.held := List.erase_cons_head node st.held
  · intro other hne
    rw [shoutcast_freeNode hne, shoutcast_unlink]

/-- The loop keeps the nodes before its link and sorts out those from there on, in their order. -/
theorem State.Queues.readRequests {fuel : ℕ} {front rest : List ℕ} (h : st.Queues lists)
    (hlist : lists .request = front ++ rest) (hfuel : rest.length ≤ fuel) :
    (readRequests readings fuel (lastLink (.head .request) front) st).Queues
        (afterReading (st.outcomes readings) lists front rest) ∧
      (readRequests readings fuel (lastLink (.head .request) front) st).held = st.held := by
  induction fuel generalizing st lists front rest with
  | zero =>
    obtain rfl := List.eq_nil_of_length_eq_zero (Nat.le_zero.mp hfuel)
    rw [afterReading_nil (hlist.trans (List.append_nil front))]
    exact ⟨h, rfl⟩
  | succ fuel ih =>
    have hderef : st.deref (lastLink (.head .request) front) = rest.head? := by
      apply Queue.mem_lastLink
      exact hlist ▸ h.queue .request
    cases rest with
    | nil =>
      rw [RequestQueue.readRequests, hderef, afterReading_nil (hlist.trans (List.append_nil front))]
      exact ⟨h, rfl⟩
    | cons node rest =>
      have hrest : rest.length ≤ fuel := Nat.le_of_succ_le_succ hfuel
      have hnot : node ∉ rest := by
        have hnodup := (h.queue .request).nodup
        rw [hlist] at hnodup
        exact (List.nodup_cons.mp (List.nodup_append.mp hnodup).2.1).1
      rw [RequestQueue.readRequests, hderef]
      dsimp only [List.head?_cons]
      cases houtcome : outcome (st.shoutcast node) (readings node) with
      | ready =>
        obtain ⟨after, heq, hqueues, hheld, hsame⟩ := h.handOver hlist
        have hlater := ih hqueues (by rw [update_of_ne (by decide), update_self]) hrest
        rw [afterReading_congr hnot fun other _ ↦ hsame other, afterReading_ready houtcome] at hlater
        dsimp only
        rw [heq]
        exact ⟨hlater.1, hlater.2.trans hheld⟩
      | gone =>
        obtain ⟨after, heq, hqueues, hheld, hsame⟩ := h.drop hlist
        have hlater := ih hqueues (update_self _ _ _) hrest
        rw [afterReading_congr hnot hsame, afterReading_gone houtcome] at hlater
        dsimp only
        rw [heq]
        exact ⟨hlater.1, hlater.2.trans hheld⟩
      | stay =>
        have hbehind : lists .request = front ++ [node] ++ rest := by simp [hlist]
        have hlater := ih h hbehind hrest
        rw [lastLink_append, afterReading_stay houtcome] at hlater
        exact hlater

/-! ## The connection queue -/

/-- The nodes that go back to the request queue: those that wait for their headers. -/
def State.sentBack (st : State) (data : ℕ → Reuse.Bytes) (node : ℕ) : Bool :=
  st.shoutcast node = 1 && hasLineEnd (data node)

theorem State.Queues.handleNode (h : st.Queues lists) (hheld : node ∈ st.held) (data : ℕ → Reuse.Bytes) :
    (handleNode (data node) node st).Queues
        (update lists .request (lists .request ++ [node].filter (st.sentBack data))) ∧
      (handleNode (data node) node st).held = st.held.erase node := by
  unfold RequestQueue.handleNode
  by_cases hback : st.sentBack data node
  · have hcond : (st.shoutcast node = 1 && hasLineEnd (data node)) = true := hback
    rw [if_pos hcond, List.filter_cons_of_pos hback, List.filter_nil]
    exact ⟨(h.setShoutcast node 2).enqueue hheld .request, rfl⟩
  · have hcond : ¬ (st.shoutcast node = 1 && hasLineEnd (data node)) = true := hback
    rw [if_neg hcond, List.filter_cons_of_neg hback, List.filter_nil, List.append_nil, update_eq_self]
    exact ⟨h.freeNode hheld, rfl⟩

theorem shoutcast_getConnection (st : State) (other : ℕ) :
    (getConnection st).2.shoutcast other = st.shoutcast other := by
  cases hhead : st.head .connection with
  | none => rw [getConnection_none hhead]
  | some node =>
    rw [getConnection_some hhead]
    exact (shoutcast_assign _ _ _).trans (shoutcast_assign _ _ _)

theorem shoutcast_handleNode {other : ℕ} (hne : other ≠ node) (data : Reuse.Bytes) :
    (handleNode data node st).shoutcast other = st.shoutcast other := by
  unfold handleNode
  split_ifs
  · calc _ = (st.setShoutcast node 2).shoutcast other := shoutcast_assign _ _ _
      _ = st.shoutcast other := by
        rw [State.shoutcast, State.setShoutcast, Heap.objects_modify_of_ne _ _ hne, State.shoutcast]
  · exact shoutcast_freeNode hne

/-- Behind `_handle_connection` the connection queue is empty. -/
def afterHandling (back : ℕ → Bool) (lists : Which → List ℕ) : Which → List ℕ :=
  update (update lists .request (lists .request ++ (lists .connection).filter back)) .connection []

theorem State.Queues.handleConnection {fuel : ℕ} (h : st.Queues lists) (data : ℕ → Reuse.Bytes)
    (hfuel : (lists .connection).length ≤ fuel) :
    (handleConnection data fuel st).Queues (afterHandling (st.sentBack data) lists) ∧
      (handleConnection data fuel st).held = st.held := by
  induction fuel generalizing st lists with
  | zero =>
    have hnil := List.eq_nil_of_length_eq_zero (Nat.le_zero.mp hfuel)
    have hlists : afterHandling (st.sentBack data) lists = lists := by
      funext which
      cases which <;> simp [afterHandling, hnil]
    rw [hlists]
    exact ⟨h, rfl⟩
  | succ fuel ih =>
    cases hlist : lists .connection with
    | nil =>
      have hnone : st.head .connection = none := (hlist ▸ h.queue .connection).ends
      have hlists : afterHandling (st.sentBack data) lists = lists := by
        funext which
        cases which <;> simp [afterHandling, hlist]
      rw [RequestQueue.handleConnection, getConnection_none hnone, hlists]
      exact ⟨h, rfl⟩
    | cons node back =>
      obtain ⟨hnode, hheld, hqueues⟩ := h.getConnection hlist
      have hshoutcast := shoutcast_getConnection st
      have htaken : RequestQueue.getConnection st = (some node, (RequestQueue.getConnection st).2) :=
        Prod.ext hnode rfl
      rw [RequestQueue.handleConnection, htaken]
      dsimp only
      generalize (RequestQueue.getConnection st).2 = taken at hheld hqueues hshoutcast ⊢
      obtain ⟨hhandled, hleft⟩ := hqueues.handleNode (hheld ▸ List.mem_cons_self) data
      have hnot : node ∉ back := by
        have hnodup := (h.queue .connection).nodup
        rw [hlist] at hnodup
        exact (List.nodup_cons.mp hnodup).1
      have hlater := ih hhandled (by
        rw [update_of_ne (by decide), update_self]
        rw [hlist] at hfuel
        exact Nat.le_of_succ_le_succ hfuel)
      have hfirst : [node].filter (taken.sentBack data) = [node].filter (st.sentBack data) := by
        apply List.filter_congr
        intro other _
        rw [State.sentBack, hshoutcast, State.sentBack]
      have hrest : back.filter ((RequestQueue.handleNode (data node) node taken).sentBack data) =
          back.filter (st.sentBack data) := by
        apply List.filter_congr
        intro other hother
        rw [State.sentBack, shoutcast_handleNode (ne_of_mem_of_not_mem hother hnot), hshoutcast,
          State.sentBack]
      have hlists : afterHandling ((RequestQueue.handleNode (data node) node taken).sentBack data)
          (update (update lists .connection back) .request
            (update lists .connection back .request ++ [node].filter (taken.sentBack data))) =
              afterHandling (st.sentBack data) lists := by
        funext which
        cases which with
        | request =>
          calc _ = lists .request ++ [node].filter (st.sentBack data) ++
                back.filter (st.sentBack data) := by
                simp only [afterHandling, update_self, ne_eq, reduceCtorEq, not_false_eq_true,
                  update_of_ne, hfirst, hrest]
            _ = lists .request ++ (node :: back).filter (st.sentBack data) := by
                rw [List.append_assoc, ← List.filter_append, List.singleton_append]
            _ = _ := by simp [afterHandling, hlist]
        | connection => simp [afterHandling]
      rw [hlists] at hlater
      refine ⟨hlater.1, hlater.2.trans ?_⟩
      rw [hleft, hheld, List.erase_cons_head]

/-! ## Every run -/

/-- The nodes that a queue may have are as many as have been allocated. -/
theorem State.Queues.length_le (h : st.Queues lists) (queue : Which) :
    (lists queue).length ≤ st.nodes.next :=
  Heap.length_le_next (h.queue queue).nodup fun _ hnode ↦ h.isSome_of_mem hnode

/-- The lists of both queues behind a call. -/
def Call.effect (st : State) (lists : Which → List ℕ) : Call → Which → List ℕ
  | .createClientNode _ => lists
  | .addRequestQueue node =>
    if node ∈ st.held then update lists .request (lists .request ++ [node]) else lists
  | .addConnection node =>
    if node ∈ st.held then update lists .connection (lists .connection ++ [node]) else lists
  | .getConnection => update lists .connection (lists .connection).tail
  | .handleNode data node =>
    if node ∈ st.held then
      update lists .request (lists .request ++ [node].filter (st.sentBack fun _ ↦ data))
    else lists
  | .freeNode _ => lists
  | .connectionQueue _ => update lists .request (lists .request ++ [st.nodes.next])
  | .readRequests readings => afterReading (st.outcomes readings) lists [] (lists .request)
  | .processRequestQueue readings data =>
    afterHandling ((step st (.readRequests readings)).sentBack data)
      (afterReading (st.outcomes readings) lists [] (lists .request))

/-- The calls of the loop that accepts connections; no node is left in hand between these. -/
def Call.Whole : Call → Prop
  | .connectionQueue _ => True
  | .processRequestQueue _ _ => True
  | _ => False

theorem State.Queues.readWhole (h : st.Queues lists) (readings : ℕ → Reading) :
    (step st (.readRequests readings)).Queues
        (afterReading (st.outcomes readings) lists [] (lists .request)) ∧
      (step st (.readRequests readings)).held = st.held :=
  h.readRequests (List.nil_append _).symm (h.length_le .request)

/-- `process_request_queue` sorts out the request queue and then empties the connection queue. -/
theorem State.Queues.processRequestQueue (h : st.Queues lists) (readings : ℕ → Reading)
    (data : ℕ → Reuse.Bytes) :
    (step st (.processRequestQueue readings data)).Queues
        ((Call.processRequestQueue readings data).effect st lists) ∧
      (step st (.processRequestQueue readings data)).held = st.held := by
  have hread := h.readWhole readings
  have hhandle := hread.1.handleConnection data (hread.1.length_le .connection)
  exact ⟨hhandle.1, hhandle.2.trans hread.2⟩

theorem State.Queues.step (h : st.Queues lists) (call : Call) :
    (step st call).Queues (call.effect st lists) := by
  cases call with
  | createClientNode shoutcast => exact h.createClientNode shoutcast
  | addRequestQueue node =>
    simp only [RequestQueue.step, Call.effect]
    split_ifs with hheld
    · exact h.enqueue hheld .request
    · exact h
  | addConnection node =>
    simp only [RequestQueue.step, Call.effect]
    split_ifs with hheld
    · exact h.enqueue hheld .connection
    · exact h
  | getConnection =>
    simp only [RequestQueue.step, Call.effect]
    cases hlist : lists .connection with
    | nil =>
      have hnone : st.head .connection = none := (hlist ▸ h.queue .connection).ends
      rw [getConnection_none hnone, List.tail_nil, ← hlist, update_eq_self]
      exact h
    | cons node back => exact (h.getConnection hlist).2.2
  | handleNode data node =>
    simp only [RequestQueue.step, Call.effect]
    split_ifs with hheld
    · exact (h.handleNode hheld fun _ ↦ data).1
    · exact h
  | freeNode node =>
    simp only [RequestQueue.step, Call.effect]
    split_ifs with hheld
    · exact h.freeNode hheld
    · exact h
  | connectionQueue shoutcast =>
    exact (h.createClientNode shoutcast).enqueue List.mem_cons_self .request
  | readRequests readings => exact (h.readWhole readings).1
  | processRequestQueue readings data => exact (h.processRequestQueue readings data).1

theorem queues_empty : empty.Queues fun _ ↦ [] where
  queue which := ⟨trivial, rfl, rfl⟩
  held _ h := absurd h List.not_mem_nil
  nodup := List.nodup_nil
  live _ := by simp [empty, Heap.empty]

theorem exists_queues (calls : List Call) : ∃ lists, (run step empty calls).Queues lists :=
  run_invariant step (fun st ↦ ∃ lists, st.Queues lists) (fun _ call ⟨_, h⟩ ↦ ⟨_, h.step call⟩) calls
    ⟨_, queues_empty⟩

theorem held_of_whole {calls : List Call} (h : ∀ call ∈ calls, call.Whole) :
    (run step empty calls).held = [] := by
  induction calls using List.reverseRecOn with
  | nil => rfl
  | append_singleton calls call ih =>
    have hbefore := ih fun other hother ↦ h other (List.mem_append_left _ hother)
    have hwhole := h call (List.mem_append_right calls (List.mem_singleton_self call))
    obtain ⟨lists, hqueues⟩ := exists_queues calls
    rw [run_append, run_cons, run_nil]
    cases call with
    | connectionQueue shoutcast =>
      calc _ = ((run step empty calls).nodes.next :: (run step empty calls).held).erase
            (run step empty calls).nodes.next := rfl
        _ = [] := by rw [List.erase_cons_head, hbefore]
    | processRequestQueue readings data => exact (hqueues.processRequestQueue readings data).2.trans hbefore
    | _ => exact absurd hwhole id

/-- In every state that calls lead to, the pointers make up two queues without a cycle whose tails are the
links behind their last nodes, and an allocated node that no caller has in hand is in exactly one of them.
A further call changes the queues as `Call.effect` says: nodes are put behind the others, taken from the
front, or sorted out in their order. -/
theorem request_queues (calls : List Call) (call : Call) :
    ∃ lists, (run step empty calls).Queues lists ∧
      (∀ node, ((run step empty calls).nodes.objects node).isSome → node ∉ (run step empty calls).held →
        Xor (node ∈ lists .request) (node ∈ lists .connection)) ∧
      ((∀ call ∈ calls, call.Whole) → (run step empty calls).held = []) ∧
      (step (run step empty calls) call).Queues (call.effect (run step empty calls) lists) := by
  obtain ⟨lists, h⟩ := exists_queues calls
  exact ⟨lists, h, fun _ hlive hheld ↦ h.exactly_one hlive hheld, held_of_whole, h.step call⟩

end Icecast.Connection.RequestQueue
