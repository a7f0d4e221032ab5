import Icecast.Lib.CString

/-!
# The comments of a stream

Titles are kept in a `vorbis_comment` by all formats: a list of texts of the form `TAG=value`, where
the case of the tag does not matter (`format_set_vorbiscomment` in `format.c`).
-/

namespace Icecast.Format.Comments

open Lib.CString

abbrev Bytes := List UInt8

/-- A text as it is in memory, where a zero byte ends it. -/
abbrev CString := { text : Bytes // 0 ∉ text }

theorem zero_not_mem_replicate (n : ℕ) : (0 : UInt8) ∉ List.replicate n 97 := by
  simp

def bytes (text : String) : Bytes := text.toList.map fun char ↦ UInt8.ofNat char.toNat

/-- The bytes of a literal are those of its characters, without the detour over UTF-8. -/
theorem bytes_ofList (text : List Char) :
    bytes (String.ofList text) = text.map fun char ↦ UInt8.ofNat char.toNat := by
  rw [bytes, String.toList_ofList]

def toLower (byte : UInt8) : UInt8 := if 65 ≤ byte ∧ byte ≤ 90 then byte + 32 else byte

/-- `strncasecmp` with the tag finds no difference, and an equals sign follows. -/
def hasTag (tag comment : Bytes) : Bool :=
  (comment.take tag.length).map toLower = tag.map toLower ∧ comment[tag.length]? = some 61

/-- What is called from libvorbis for the comments of a stream. `query` is asked for the first value of a
tag. -/
structure VorbisComments where
  query : List Bytes → Bytes → Option Bytes
  queryCount : List Bytes → Bytes → ℕ
  add : List Bytes → Bytes → List Bytes
  addTag : List Bytes → Bytes → Bytes → List Bytes

/-- A text that is added is copied up to its zero byte. -/
structure VorbisComments.Lawful (lib : VorbisComments) : Prop where
  query : ∀ vc tag, lib.query vc tag =
    (vc.find? (hasTag tag)).map fun comment ↦ comment.drop (tag.length + 1)
  queryCount : ∀ vc tag, lib.queryCount vc tag = vc.countP (hasTag tag)
  add : ∀ vc comment, lib.add vc comment = vc ++ [comment.takeWhile (· ≠ 0)]
  addTag : ∀ vc tag value, lib.addTag vc tag value = lib.add vc (tag ++ 61 :: value)

def listComments : VorbisComments where
  query vc tag := (vc.find? (hasTag tag)).map fun comment ↦ comment.drop (tag.length + 1)
  queryCount vc tag := vc.countP (hasTag tag)
  add vc comment := vc ++ [comment.takeWhile (· ≠ 0)]
  addTag vc tag value := vc ++ [(tag ++ 61 :: value).takeWhile (· ≠ 0)]

theorem lawful_listComments : listComments.Lawful :=
  ⟨fun _ _ ↦ rfl, fun _ _ ↦ rfl, fun _ _ ↦ rfl, fun _ _ _ ↦ rfl⟩

/-- The comments with other tags are copied one by one if there is one to be deleted. -/
def formatSetVorbiscomment (lib : VorbisComments) (vc : List Bytes) (tag value : Bytes) : List Bytes :=
  let vc := if lib.queryCount vc tag ≠ 0 then (vc.filter (!hasTag tag ·)).foldl lib.add [] else vc
  lib.addTag vc tag value

theorem hasTag_addTag (tag value : Bytes) : hasTag tag (tag ++ 61 :: value) = true := by
  simp [hasTag]

/-- A text with the tag has it also if it goes on. -/
theorem hasTag_append {tag first text : Bytes} (hstart : first <+: text)
    (htag : hasTag tag first = true) : hasTag tag text = true := by
  obtain ⟨rest, rfl⟩ := hstart
  rw [hasTag, decide_eq_true_eq] at htag ⊢
  obtain ⟨hequal, hsign⟩ := htag
  obtain ⟨hlt, -⟩ := List.getElem?_eq_some_iff.mp hsign
  rw [List.take_append_of_le_length (Nat.le_of_lt hlt), List.getElem?_append_left hlt]
  exact ⟨hequal, hsign⟩

section Lawful

variable {lib : VorbisComments} (hlawful : lib.Lawful)

include hlawful

theorem VorbisComments.Lawful.foldl_add (comments vc : List Bytes) :
    comments.foldl lib.add vc = vc ++ comments.map (·.takeWhile (· ≠ 0)) := by
  induction comments generalizing vc with
  | nil => rw [List.foldl_nil, List.map_nil, List.append_nil]
  | cons comment comments ih =>
    rw [List.foldl_cons, ih, hlawful.add, List.map_cons, List.append_assoc, List.singleton_append]

/-- A tag that has been set is found. -/
theorem query_formatSetVorbiscomment (vc : List Bytes) {tag value : Bytes} (htag : 0 ∉ tag)
    (hvalue : 0 ∉ value) :
    lib.query (formatSetVorbiscomment lib vc tag value) tag = some value := by
  have hnone : (if lib.queryCount vc tag ≠ 0 then (vc.filter (!hasTag tag ·)).foldl lib.add []
      else vc).find? (hasTag tag) = none := by
    rw [hlawful.queryCount, hlawful.foldl_add, List.nil_append]
    split
    · rw [List.find?_eq_none]
      intro comment hcomment hfound
      obtain ⟨text, htext, rfl⟩ := List.mem_map.mp hcomment
      have hother := (List.mem_filter.mp htext).2
      rw [hasTag_append (List.takeWhile_prefix _) hfound] at hother
      cases hother
    · rename_i hcount
      simpa using hcount
  have hnul : 0 ∉ 61 :: value := by
    rw [List.mem_cons, not_or]
    exact ⟨by decide, hvalue⟩
  have htext : (tag ++ 61 :: value).takeWhile (· ≠ 0) = tag ++ 61 :: value := by
    rw [takeWhile_ne_append htag, ← List.append_nil (61 :: value), takeWhile_ne_append hnul]
    rfl
  rw [hlawful.query, formatSetVorbiscomment, hlawful.addTag, hlawful.add, htext, List.find?_append, hnone,
    Option.none_or, List.find?_singleton, hasTag_addTag]
  simp

end Lawful

end Icecast.Format.Comments
