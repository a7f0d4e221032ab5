import Icecast.Format.Comments
import Icecast.Lib.Checked
import Icecast.Lib.MachineInt

/-!
# The comment header of an Opus stream

A packet that begins with `OpusTags` has the comments of the stream: the text of the vendor, the number
of comments and the comments, each text with its length before it. `__handle_header_opustags`
(`format_opus.c`) reads it with a pointer and a count of the bytes that are left. All lengths are the
source client's, so every one of them is compared with what is left before it is used.

Reads of the packet are checked here: one outside of it is a fault.
-/

namespace Icecast.Format.OpusTags

open Comments (Bytes VorbisComments bytes lawful_listComments listComments)
open Lib.Checked Lib.MachineInt

/-! ## The function -/

/-- What can go wrong with an access to memory. -/
inductive Fault where
  | packet
  deriving DecidableEq

/-- `ogg_packet`; its length is a `long`. -/
structure OggPacket where
  packet : Bytes
  bytes_lt : packet.length < 2 ^ 63

/-- What the function changes: `plugin->vc` and `ogg_info->log_metadata`. -/
structure State where
  vc : List Bytes
  logMetadata : Bool
  deriving DecidableEq

/-- `__read_header_u32be_unaligned` -/
def readHeaderU32 (packet : Bytes) (p : ℕ) : Except Fault ℕ := do
  let ret := (← load .packet packet (p + 3)).toNat
  let ret := ret * 2 ^ 8 + (← load .packet packet (p + 2)).toNat
  let ret := ret * 2 ^ 8 + (← load .packet packet (p + 1)).toNat
  return ret * 2 ^ 8 + (← load .packet packet p).toNat

/-- The `while` loop, with the places and lengths as `size_t`; `realloc` says whether the request for memory
succeeds that is made for the comment with so many behind it. -/
def commentLoop (lib : VorbisComments) (realloc : ℕ → Bool) (packet : Bytes) :
    ℕ → ℕ → ℕ → ℕ → State → Except Fault State
  | 0, _, _, _, state => return { state with logMetadata := true }
  | comments + 1, p, left, buflen, state => do
    let next ← readHeaderU32 packet p
    let p := p + 4
    let left := usub 64 left 4
    if left < next then return { state with vc := [] }
    let buflen := if buflen < next + 1 ∧ realloc comments then next + 1 else buflen
    let vc ←
      if next + 1 ≤ buflen then do
        let buf ← loadRange .packet packet p next
        pure (lib.add state.vc buf)
      else pure state.vc
    let p := p + next
    let left := usub 64 left next
    if comments ≠ 0 ∧ left < 4 then return { state with vc := [] }
    commentLoop lib realloc packet comments p left buflen { state with vc }

def handleHeaderOpustags (lib : VorbisComments) (realloc : ℕ → Bool) (packet : OggPacket)
    (state : State) : Except Fault State := do
  let left := packet.packet.length
  if left < 16 then return state
  -- the magic, and the length of the vendor's text
  let p := 8
  let left := usub 64 left 8
  let next ← readHeaderU32 packet.packet p
  let p := p + 4
  let left := usub 64 left 4
  if left < next + 4 then return state
  let p := p + next
  let left := usub 64 left next
  let comments ← readHeaderU32 packet.packet p
  let p := p + 4
  let left := usub 64 left 4
  if left < comments * 4 then return state
  commentLoop lib realloc packet.packet comments p left 0 { state with vc := [] }

/-! ## The format -/

def u32le (n : ℕ) : Bytes :=
  [UInt8.ofNat n, UInt8.ofNat (n / 2 ^ 8), UInt8.ofNat (n / 2 ^ 16), UInt8.ofNat (n / 2 ^ 24)]

/-- A text with its length before it. -/
def block (text : Bytes) : Bytes := u32le text.length ++ text

/-- The number that the first four bytes are. -/
def u32Value : Bytes → ℕ
  | b0 :: b1 :: b2 :: b3 :: _ =>
    ((b3.toNat * 2 ^ 8 + b2.toNat) * 2 ^ 8 + b1.toNat) * 2 ^ 8 + b0.toNat
  | _ => 0

theorem u32Value_lt (data : Bytes) : u32Value data < 2 ^ 32 := by
  unfold u32Value
  split
  · rename_i b0 b1 b2 b3 rest
    have h0 := b0.toNat_lt
    have h1 := b1.toNat_lt
    have h2 := b2.toNat_lt
    have h3 := b3.toNat_lt
    omega
  · decide

theorem u32Value_u32le {n : ℕ} (h : n < 2 ^ 32) (rest : Bytes) : u32Value (u32le n ++ rest) = n := by
  simp only [u32le, List.cons_append, List.nil_append, u32Value, UInt8.toNat_ofNat']
  omega

theorem u32le_u32Value {data : Bytes} (h : 4 ≤ data.length) : u32le (u32Value data) = data.take 4 := by
  match data, h with
  | b0 :: b1 :: b2 :: b3 :: rest, _ =>
    have h0 := b0.toNat_lt
    have h1 := b1.toNat_lt
    have h2 := b2.toNat_lt
    have h3 := b3.toNat_lt
    simp only [u32Value, u32le, List.take_succ_cons, List.take_zero, List.cons.injEq, and_true,
      ← UInt8.toNat_inj, UInt8.toNat_ofNat']
    omega

/-- Reading a number from four bytes of the packet. -/
theorem readHeaderU32_of_drop {packet data : Bytes} {p : ℕ} (hdrop : packet.drop p = data)
    (h : 4 ≤ data.length) : readHeaderU32 packet p = .ok (u32Value data) := by
  match data, h with
  | b0 :: b1 :: b2 :: b3 :: rest, _ =>
    have hload : ∀ k byte, (b0 :: b1 :: b2 :: b3 :: rest)[k]? = some byte →
        load Fault.packet packet (p + k) = .ok byte := by
      intro k byte hbyte
      apply load_of_getElem?
      rw [← List.getElem?_drop, hdrop, hbyte]
    have h0 : load Fault.packet packet p = .ok b0 := hload 0 b0 rfl
    rw [readHeaderU32, hload 3 b3 rfl, ok_bind, hload 2 b2 rfl, ok_bind, hload 1 b1 rfl, ok_bind, h0,
      ok_bind]
    rfl

/-- The first text in a row of texts with their lengths, and what is behind it. -/
def splitBlock (data : Bytes) : Option (Bytes × Bytes) :=
  if data.length < 4 ∨ data.length - 4 < u32Value data then none
  else some ((data.drop 4).take (u32Value data), (data.drop 4).drop (u32Value data))

def splitBlocks : ℕ → Bytes → Option (List Bytes)
  | 0, _ => some []
  | count + 1, data =>
    (splitBlock data).bind fun (text, rest) ↦ (splitBlocks count rest).map (text :: ·)

theorem splitBlock_block {text : Bytes} (h : text.length < 2 ^ 32) (rest : Bytes) :
    splitBlock (block text ++ rest) = some (text, rest) := by
  have hvalue : u32Value (block text ++ rest) = text.length := by
    rw [block, List.append_assoc, u32Value_u32le h]
  have hdrop : (block text ++ rest).drop 4 = text ++ rest := rfl
  have hlength : (block text ++ rest).length = 4 + (text.length + rest.length) := by
    simp [block, u32le]
    omega
  rw [splitBlock, if_neg (by omega), hvalue, hdrop, List.take_left, List.drop_left]

theorem eq_block_of_splitBlock {data text rest : Bytes} (h : splitBlock data = some (text, rest)) :
    data = block text ++ rest ∧ text.length < 2 ^ 32 := by
  unfold splitBlock at h
  split at h
  · cases h
  · rename_i hfits
    obtain ⟨rfl, rfl⟩ := Prod.mk.inj (Option.some.inj h)
    have hlength : ((data.drop 4).take (u32Value data)).length = u32Value data := by
      rw [List.length_take, List.length_drop]
      omega
    refine ⟨?_, by rw [hlength]; exact u32Value_lt data⟩
    rw [block, hlength, u32le_u32Value (by omega), List.append_assoc, List.take_append_drop,
      List.take_append_drop]

/-- So many texts can be split off just if the data begins with so many. -/
theorem splitBlocks_eq_some_iff {count : ℕ} {data : Bytes} {comments : List Bytes} :
    splitBlocks count data = some comments ↔
      comments.length = count ∧ (∀ comment ∈ comments, comment.length < 2 ^ 32) ∧
        ∃ rest, data = comments.flatMap block ++ rest := by
  induction count generalizing data comments with
  | zero =>
    rw [splitBlocks, Option.some_inj, List.length_eq_zero_iff]
    constructor
    · rintro rfl
      exact ⟨rfl, nofun, data, rfl⟩
    · rintro ⟨rfl, -⟩
      rfl
  | succ count ih =>
    rw [splitBlocks, Option.bind_eq_some_iff]
    constructor
    · rintro ⟨⟨text, rest⟩, hsplit, htail⟩
      obtain ⟨comments, hcomments, rfl⟩ := Option.map_eq_some_iff.mp htail
      obtain ⟨rfl, hsmall, behind, rfl⟩ := ih.mp hcomments
      obtain ⟨rfl, htext⟩ := eq_block_of_splitBlock hsplit
      exact ⟨rfl, List.forall_mem_cons.mpr ⟨htext, hsmall⟩, behind, by simp⟩
    · rintro ⟨hlength, hsmall, rest, rfl⟩
      cases comments with
      | nil => exact absurd hlength nofun
      | cons text comments =>
        obtain ⟨htext, hsmall⟩ := List.forall_mem_cons.mp hsmall
        refine ⟨(text, comments.flatMap block ++ rest), ?_, ?_⟩
        · rw [List.flatMap_cons, List.append_assoc]
          exact splitBlock_block htext _
        · dsimp only
          rw [ih.mpr ⟨Nat.succ.inj hlength, hsmall, rest, rfl⟩, Option.map_some]

/-! ## What the loop does -/

/-- A comment as it is kept. -/
def cut (comment : Bytes) : Bytes := comment.takeWhile (· ≠ 0)

/-- How the loop may leave the state, when so many texts are expected in the data that is left. -/
structure Ends (lib : VorbisComments) (realloc : ℕ → Bool) (count : ℕ) (data : Bytes)
    (state after : State) : Prop where
  formed : ∀ comments, splitBlocks count data = some comments → after.logMetadata = true ∧
    ((∀ call, realloc call = true) → after.vc = comments.foldl lib.add state.vc)
  malformed : splitBlocks count data = none → after = ⟨[], state.logMetadata⟩

section Header

variable {lib : VorbisComments} {realloc : ℕ → Bool}

theorem Ends.of_none {count : ℕ} {data : Bytes} {state : State} (h : splitBlocks count data = none) :
    Ends lib realloc count data state ⟨[], state.logMetadata⟩ := by
  refine ⟨?_, fun _ ↦ rfl⟩
  intro comments hcomments
  rw [h] at hcomments
  exact absurd hcomments nofun

/-- One text more in front. -/
theorem Ends.cons {count : ℕ} {data text rest : Bytes} {state after : State} {vc : List Bytes}
    (hsplit : splitBlock data = some (text, rest))
    (hvc : (∀ call, realloc call = true) → vc = lib.add state.vc text)
    (h : Ends lib realloc count rest { state with vc } after) :
    Ends lib realloc (count + 1) data state after where
  formed := by
    intro comments hcomments
    rw [splitBlocks, hsplit, Option.bind_some] at hcomments
    obtain ⟨comments, hrest, rfl⟩ := Option.map_eq_some_iff.mp hcomments
    obtain ⟨hlog, hafter⟩ := h.formed comments hrest
    refine ⟨hlog, fun halloc ↦ ?_⟩
    rw [hafter halloc, hvc halloc, List.foldl_cons]
  malformed := by
    intro hnone
    rw [splitBlocks, hsplit, Option.bind_some] at hnone
    exact h.malformed (Option.map_eq_none_iff.mp hnone)

theorem splitBlocks_of_short {count : ℕ} {data : Bytes} (hcount : count ≠ 0)
    (h : splitBlock data = none) : splitBlocks count data = none := by
  obtain ⟨fewer, rfl⟩ := Nat.exists_eq_succ_of_ne_zero hcount
  rw [splitBlocks, h, Option.bind_none]

theorem commentLoop_ends {packet data : Bytes} {count p buflen : ℕ} {state : State}
    (hdrop : packet.drop p = data) (hlt : data.length < 2 ^ 64)
    (hfirst : count ≠ 0 → 4 ≤ data.length) :
    ∃ after, commentLoop lib realloc packet count p data.length buflen state = .ok after ∧
      Ends lib realloc count data state after := by
  induction count generalizing p data buflen state with
  | zero =>
    refine ⟨_, rfl, ?_, nofun⟩
    rintro comments ⟨⟩
    exact ⟨rfl, fun _ ↦ rfl⟩
  | succ count ih =>
    have hlength : 4 ≤ data.length := hfirst (Nat.succ_ne_zero count)
    have hplace : p + data.length = packet.length := by
      rw [← hdrop, List.length_drop] at hlength ⊢
      omega
    rw [commentLoop, readHeaderU32_of_drop hdrop hlength, ok_bind, usub_of_le hlength hlt]
    by_cases hshort : data.length - 4 < u32Value data
    · have hnone : splitBlock data = none := if_pos (.inr hshort)
      rw [if_pos hshort]
      exact ⟨_, rfl, .of_none (splitBlocks_of_short (Nat.succ_ne_zero count) hnone)⟩
    · let text := (data.drop 4).take (u32Value data)
      let rest := (data.drop 4).drop (u32Value data)
      have hsplit : splitBlock data = some (text, rest) := if_neg (by omega)
      have hrest : rest.length = data.length - 4 - u32Value data := by
        rw [List.length_drop, List.length_drop]
      have htext : loadRange Fault.packet packet (p + 4) (u32Value data) = .ok text := by
        rw [loadRange_of_le (by omega), ← List.drop_drop, hdrop]
      have hbehind : packet.drop (p + 4 + u32Value data) = rest := by
        rw [← List.drop_drop, ← List.drop_drop, hdrop]
      -- what follows does not depend on whether the text has been kept
      have hgoes : ∀ vc buflen, ((∀ call, realloc call = true) → vc = lib.add state.vc text) →
          ∃ after, (if count ≠ 0 ∧ rest.length < 4 then pure ⟨[], state.logMetadata⟩
            else commentLoop lib realloc packet count (p + 4 + u32Value data) rest.length buflen
              ⟨vc, state.logMetadata⟩) = Except.ok after ∧
            Ends lib realloc (count + 1) data state after := by
        intro vc buflen hvc
        by_cases hend : count ≠ 0 ∧ rest.length < 4
        · have hnone : splitBlock rest = none := if_pos (.inl hend.2)
          rw [if_pos hend]
          exact ⟨_, rfl, .cons hsplit hvc (.of_none (splitBlocks_of_short hend.1 hnone))⟩
        · rw [if_neg hend]
          obtain ⟨after, hrun, hends⟩ := ih hbehind (by omega) (by omega)
          exact ⟨after, hrun, .cons hsplit hvc hends⟩
      rw [if_neg hshort, usub_of_le (not_lt.mp hshort) (by omega), ← hrest]
      by_cases hbuf : u32Value data + 1 ≤
          if buflen < u32Value data + 1 ∧ realloc count then u32Value data + 1 else buflen
      · simp only [hbuf, if_true, htext, ok_bind, pure_bind]
        exact hgoes _ _ fun _ ↦ rfl
      · simp only [hbuf, if_false, pure_bind]
        refine hgoes _ _ fun halloc ↦ absurd ?_ hbuf
        simp only [halloc, and_true]
        split <;> omega

/-- The beginning of a packet: the magic, the vendor's text and the number of comments. -/
def header (vendor : Bytes) (count : ℕ) : Bytes := bytes "OpusTags" ++ block vendor ++ u32le count

theorem handleHeaderOpustags_header {packet : OggPacket} {state : State} {vendor data : Bytes}
    {count : ℕ} (hvendor : vendor.length < 2 ^ 32) (hcount : count < 2 ^ 32)
    (hpacket : packet.packet = header vendor count ++ data) :
    handleHeaderOpustags lib realloc packet state =
      if data.length < count * 4 then .ok state
      else commentLoop lib realloc packet.packet count (16 + vendor.length) data.length 0
        { state with vc := [] } := by
  have hlength : packet.packet.length = 16 + vendor.length + data.length := by
    rw [hpacket]
    simp [header, block, u32le, bytes]
    omega
  have hlt := packet.bytes_lt
  have hfirst : packet.packet.drop 8 = u32le vendor.length ++ (vendor ++ u32le count ++ data) := by
    rw [hpacket]
    simp [header, block, u32le, bytes]
  have hsecond : packet.packet.drop (8 + 4 + vendor.length) = u32le count ++ data := by
    rw [← List.drop_drop, ← List.drop_drop, hfirst]
    simp [u32le]
  have hlong : ∀ n rest, 4 ≤ (u32le n ++ rest).length := by
    intro n rest
    simp [u32le]
  have hafter8 : usub 64 packet.packet.length 8 = packet.packet.length - 8 :=
    usub_of_le (by omega) (by omega)
  have hafter12 : usub 64 (packet.packet.length - 8) 4 = vendor.length + (data.length + 4) := by
    rw [usub_of_le (by omega) (by omega)]
    omega
  have hafterVendor : usub 64 (vendor.length + (data.length + 4)) vendor.length = data.length + 4 := by
    rw [usub_of_le (by omega) (by omega), Nat.add_sub_cancel_left]
  have hafterCount : usub 64 (data.length + 4) 4 = data.length := by
    rw [usub_of_le (by omega) (by omega), Nat.add_sub_cancel]
  have hplace : 8 + 4 + vendor.length + 4 = 16 + vendor.length := by omega
  rw [handleHeaderOpustags, if_neg (by omega), hafter8]
  dsimp only
  rw [readHeaderU32_of_drop hfirst (hlong _ _), ok_bind, u32Value_u32le hvendor, hafter12,
    if_neg (by omega), hafterVendor, readHeaderU32_of_drop hsecond (hlong _ _), ok_bind,
    u32Value_u32le hcount, hafterCount, hplace]
  rfl

/-- A packet that is too short for its vendor's text leaves everything as it was. -/
theorem handleHeaderOpustags_cases {packet : OggPacket} (state : State)
    (hmagic : packet.packet.take 8 = bytes "OpusTags") :
    handleHeaderOpustags lib realloc packet state = .ok state ∨
    ∃ vendor count data, vendor.length < 2 ^ 32 ∧ count < 2 ^ 32 ∧
      packet.packet = header vendor count ++ data := by
  have hlt := packet.bytes_lt
  by_cases hsmall : packet.packet.length < 16
  · exact .inl (if_pos hsmall)
  let data := packet.packet.drop 8
  have hlength : data.length = packet.packet.length - 8 := List.length_drop
  by_cases hshort : packet.packet.length - 8 - 4 < u32Value data + 4
  · left
    rw [handleHeaderOpustags, if_neg hsmall, usub_of_le (by omega) (by omega)]
    dsimp only
    rw [@readHeaderU32_of_drop packet.packet data 8 rfl (by omega), ok_bind, usub_of_le (by omega) (by omega),
      if_pos hshort]
    rfl
  · right
    let vendor := (data.drop 4).take (u32Value data)
    let rest := (data.drop 4).drop (u32Value data)
    have hsplit : splitBlock data = some (vendor, rest) := if_neg (by omega)
    have hrest : 4 ≤ rest.length := by
      rw [List.length_drop, List.length_drop]
      omega
    obtain ⟨hdata, hvendor⟩ := eq_block_of_splitBlock hsplit
    refine ⟨vendor, u32Value rest, rest.drop 4, hvendor, u32Value_lt rest, ?_⟩
    calc
      packet.packet = packet.packet.take 8 ++ data := (List.take_append_drop 8 _).symm
      _ = bytes "OpusTags" ++ (block vendor ++ rest) := by rw [hmagic, ← hdata]
      _ = bytes "OpusTags" ++ (block vendor ++ (rest.take 4 ++ rest.drop 4)) := by
        rw [List.take_append_drop]
      _ = header vendor (u32Value rest) ++ rest.drop 4 := by
        rw [header, u32le_u32Value hrest]
        simp only [List.append_assoc]

/-- The texts of the comments, each with its length, stand at the beginning of the data. -/
def Holds (data : Bytes) (comments : List Bytes) : Prop :=
  (∀ comment ∈ comments, comment.length < 2 ^ 32) ∧ ∃ rest, data = comments.flatMap block ++ rest

theorem Holds.le {data : Bytes} {comments : List Bytes} (h : Holds data comments) :
    comments.length * 4 ≤ data.length := by
  obtain ⟨-, rest, rfl⟩ := h
  induction comments with
  | nil => exact Nat.zero_le _
  | cons comment comments ih =>
    simp only [List.flatMap_cons, block, u32le, List.length_append, List.length_cons, List.length_nil]
      at ih ⊢
    omega

/-- A packet with room for its comments: the loop over them ends as it should. -/
theorem handleHeaderOpustags_ends {packet : OggPacket} (state : State) {vendor data : Bytes}
    {count : ℕ} (hvendor : vendor.length < 2 ^ 32) (hcount : count < 2 ^ 32)
    (hpacket : packet.packet = header vendor count ++ data) (hfits : count * 4 ≤ data.length) :
    ∃ after, handleHeaderOpustags lib realloc packet state = .ok after ∧
      Ends lib realloc count data { state with vc := [] } after := by
  have hlength : packet.packet.length = 16 + vendor.length + data.length := by
    rw [hpacket]
    simp [header, block, u32le, bytes]
    omega
  have hdrop : packet.packet.drop (16 + vendor.length) = data := by
    rw [hpacket]
    apply List.drop_left'
    simp [header, block, u32le, bytes]
    omega
  have hlt := packet.bytes_lt
  rw [handleHeaderOpustags_header hvendor hcount hpacket, if_neg (by omega)]
  exact commentLoop_ends hdrop (by omega) (by omega)

/-- No read is outside of the packet. -/
theorem handleHeaderOpustags_ok {packet : OggPacket} (state : State)
    (hmagic : packet.packet.take 8 = bytes "OpusTags") :
    ∃ after, handleHeaderOpustags lib realloc packet state = .ok after := by
  rcases handleHeaderOpustags_cases state hmagic with
    hstate | ⟨vendor, count, data, hvendor, hcount, hpacket⟩
  · exact ⟨state, hstate⟩
  · by_cases hfits : count * 4 ≤ data.length
    · obtain ⟨after, hafter, -⟩ := handleHeaderOpustags_ends state hvendor hcount hpacket hfits
      exact ⟨after, hafter⟩
    · rw [handleHeaderOpustags_header hvendor hcount hpacket, if_pos (not_le.mp hfits)]
      exact ⟨state, rfl⟩

end Header

/-- Every read is inside of the packet. A packet that is well formed leaves its comments, and one with
a bad length behind a good number of comments leaves none. -/
theorem opus_tags {lib : VorbisComments} (hlawful : lib.Lawful) (realloc : ℕ → Bool)
    (packet : OggPacket) (state : State) (hmagic : packet.packet.take 8 = bytes "OpusTags") :
    ∃ after, handleHeaderOpustags lib realloc packet state = .ok after ∧
      ∀ vendor count data, vendor.length < 2 ^ 32 → count < 2 ^ 32 →
        packet.packet = header vendor count ++ data →
        (∀ comments, comments.length = count → Holds data comments → after.logMetadata = true ∧
          ((∀ call, realloc call = true) → after.vc = comments.map cut)) ∧
        (count * 4 ≤ data.length → (∀ comments, comments.length = count → ¬ Holds data comments) →
          after = ⟨[], state.logMetadata⟩) := by
  obtain ⟨after, hrun⟩ : ∃ after, handleHeaderOpustags lib realloc packet state = .ok after :=
    handleHeaderOpustags_ok state hmagic
  refine ⟨after, hrun, ?_⟩
  intro vendor count data hvendor hcount hpacket
  have hafter : count * 4 ≤ data.length → Ends lib realloc count data { state with vc := [] } after := by
    intro hfits
    obtain ⟨other, hother, hended⟩ := handleHeaderOpustags_ends state hvendor hcount hpacket hfits
    rw [hrun] at hother
    exact Except.ok.inj hother ▸ hended
  constructor
  · intro comments hlength hholds
    have hsplit : splitBlocks count data = some comments :=
      splitBlocks_eq_some_iff.mpr ⟨hlength, hholds⟩
    obtain ⟨hlog, hvc⟩ := (hafter (hlength ▸ hholds.le)).formed comments hsplit
    exact ⟨hlog, fun halloc ↦ (hvc halloc).trans (hlawful.foldl_add comments [])⟩
  · intro hfits hnone
    apply (hafter hfits).malformed
    cases hsplit : splitBlocks count data with
    | none => rfl
    | some comments =>
      obtain ⟨hlength, hholds⟩ := splitBlocks_eq_some_iff.mp hsplit
      exact absurd hholds (hnone comments hlength)

/-- A packet with two comments, of which the second has a zero byte in it. -/
def examplePacket : OggPacket :=
  ⟨header (bytes "v") 2 ++ [bytes "TITLE=a", bytes "X=1\x00y"].flatMap block, by decide⟩

theorem opus_tags_two :
    ∃ after, handleHeaderOpustags listComments (fun _ ↦ true) examplePacket ⟨[], false⟩ = .ok after ∧
      ∀ vendor count data, vendor.length < 2 ^ 32 → count < 2 ^ 32 →
        examplePacket.packet = header vendor count ++ data →
        (∀ comments, comments.length = count → Holds data comments → after.logMetadata = true ∧
          ((∀ call, (fun _ : ℕ ↦ true) call = true) → after.vc = comments.map cut)) ∧
        (count * 4 ≤ data.length → (∀ comments, comments.length = count → ¬ Holds data comments) →
          after = ⟨[], false⟩) := by
  exact opus_tags lawful_listComments (fun _ ↦ true) examplePacket ⟨[], false⟩ (by decide)

end Icecast.Format.OpusTags
