import Icecast.Auth.HtpasswdAdd
import Icecast.Auth.UrlPost
import Icecast.Util.Md5

/-!
# The hash of a password

`get_hash` writes the MD5 digest of a password with 32 hexadecimal digits, which is all that a password
file asks of a hash. A user who has been added is let in with the passwords of the same digest and with
no others.
-/

namespace Icecast.Auth.Htpasswd

open Auth.UrlPost (hexChar)
open Lib.Lines
open Util.Md5 (ByteOrder md5Init md5Update md5Final digest)

/-- `util_bin_to_hex` -/
def utilBinToHex (data : Bytes) : Bytes :=
  data.flatMap fun byte : UInt8 ↦ [hexChar ((byte &&& 0xf0) >>> 4), hexChar (byte &&& 0x0f)]

/-- `get_hash`; the length of the text is converted to 32 bits, and the context is on the stack. -/
def getHash (machine : ByteOrder) (stack : Bytes) (data : Bytes) : Bytes :=
  utilBinToHex (md5Final machine (md5Update machine (md5Init stack) data (UInt32.ofNat data.length))).1

/-- What `get_hash` reads of a text: all of it, unless it has 2^32 bytes or more. -/
def hashed (data : Bytes) : Bytes := data.take (data.length % 2 ^ 32)

/-! ## Digits -/

theorem forall_byte {property : UInt8 → Prop} (h : ∀ value : Fin 256, property (UInt8.ofFin value))
    (byte : UInt8) : property byte :=
  h byte.toFin

theorem hexChar_isHexDigit : ∀ byte : UInt8, IsHexDigit (hexChar ((byte &&& 0xf0) >>> 4)) ∧
    IsHexDigit (hexChar (byte &&& 0x0f)) := by
  apply forall_byte
  decide +kernel

/-- The half of a byte that a digit stands for. -/
def hexValue (digit : UInt8) : UInt8 := if digit ≤ 57 then digit - 48 else digit - 87

theorem hexValue_hexChar : ∀ byte : UInt8,
    hexValue (hexChar ((byte &&& 0xf0) >>> 4)) <<< 4 ||| hexValue (hexChar (byte &&& 0x0f)) = byte := by
  apply forall_byte
  decide +kernel

def hexToBin : Bytes → Bytes
  | high :: low :: hex => (hexValue high <<< 4 ||| hexValue low) :: hexToBin hex
  | _ => []

theorem hexToBin_utilBinToHex (data : Bytes) : hexToBin (utilBinToHex data) = data := by
  induction data with
  | nil => rfl
  | cons byte data ih =>
    rw [utilBinToHex, List.flatMap_cons, List.cons_append, List.cons_append, List.nil_append, hexToBin,
      hexValue_hexChar]
    exact congrArg _ ih

theorem utilBinToHex_length (data : Bytes) : (utilBinToHex data).length = 2 * data.length := by
  induction data with
  | nil => rfl
  | cons byte data ih =>
    rw [utilBinToHex, List.flatMap_cons, List.length_append, List.length_cons, ← utilBinToHex, ih]
    simp only [List.length_cons, List.length_nil]
    omega

theorem isHexDigit_of_mem {data : Bytes} {digit : UInt8} (hmem : digit ∈ utilBinToHex data) :
    IsHexDigit digit := by
  obtain ⟨byte, -, hbyte⟩ := List.mem_flatMap.mp hmem
  simp only [List.mem_cons, List.not_mem_nil, or_false] at hbyte
  rcases hbyte with rfl | rfl
  · exact (hexChar_isHexDigit byte).1
  · exact (hexChar_isHexDigit byte).2

/-! ## The hash -/

section Hash

variable {machine : ByteOrder} {stack : Bytes}

theorem getHash_eq (hstack : stack.length = 64) (data : Bytes) :
    getHash machine stack data = utilBinToHex (digest (hashed data)) := by
  have hlen : (UInt32.ofNat data.length).toNat = data.length % 2 ^ 32 := UInt32.toNat_ofNat'
  have hreads := (Util.Md5.reads_md5Init hstack).md5Update machine data (UInt32.ofNat data.length)
    (by rw [hlen]; exact Nat.mod_le _ _)
  rw [hlen, List.nil_append] at hreads
  rw [getHash, hreads.md5Final machine, hashed]

theorem digest_length (message : Bytes) : (digest message).length = 16 := by
  simp only [digest, Util.Md5.Quad.bytes, List.length_append, Util.Md5.littleBytes_length]

theorem getHash_length (hstack : stack.length = 64) (data : Bytes) :
    (getHash machine stack data).length = 32 := by
  rw [getHash_eq hstack, utilBinToHex_length, digest_length]

/-- The same hash means the same digest. -/
theorem getHash_eq_iff {other : Bytes} (hstack : stack.length = 64) (hother : other.length = 64)
    (first second : Bytes) : getHash machine stack first = getHash machine other second ↔
      digest (hashed first) = digest (hashed second) := by
  rw [getHash_eq hstack, getHash_eq hother]
  constructor
  · intro hhex
    rw [← hexToBin_utilBinToHex (digest (hashed first)), hhex, hexToBin_utilBinToHex]
  · exact fun hdigest ↦ congrArg utilBinToHex hdigest

end Hash

/-! ## The password file -/

section File

variable {find : List User → Bytes → Option User} {s : State} {file : File} {username password : Bytes}
  {now : ℤ} {machine : ByteOrder} {stack : Bytes → Bytes}

/-- The hash is what is assumed of it, whatever the stack contains. -/
theorem getHash_hexHash (hstack : ∀ data, (stack data).length = 64) :
    HexHash fun data ↦ getHash machine (stack data) data where
  nonempty data := by
    apply List.ne_nil_of_length_pos
    rw [getHash_length (hstack data)]
    decide
  hex data := by
    rw [getHash_eq (hstack data)]
    exact fun _ ↦ isHexDigit_of_mem

/-- Once the hash of the password stands on the line of a user, a password is let in by its digest. -/
theorem htpasswdAuth_iff_digest (hstack : ∀ data, (stack data).length = 64)
    (haccepted : (htpasswdAuth find (fun data ↦ getHash machine (stack data) data) s username password).1 =
      .ok) (attempt : Bytes) :
    (htpasswdAuth find (fun data ↦ getHash machine (stack data) data) s username attempt).1 = .ok ↔
      digest (hashed attempt) = digest (hashed password) := by
  rw [htpasswdAuth_eq, authWith_eq_ok_iff] at haccepted
  obtain ⟨user, hfound, hpass⟩ := haccepted
  rw [htpasswdAuth_eq, authWith_eq_ok_iff]
  calc
    _ ↔ getHash machine (stack attempt) attempt = getHash machine (stack password) password := by
      constructor
      · rintro ⟨other, hother, hattempt⟩
        rw [hfound, Option.some.injEq] at hother
        rw [← hattempt, ← hother, hpass]
      · intro hsame
        exact ⟨user, hfound, hpass.trans hsame.symm⟩
    _ ↔ _ := getHash_eq_iff (hstack attempt) (hstack password) attempt password

/-- A user is added to a file that ends with a complete line, that has been read, and in which no name has
two passwords. If the name makes a line and the second is another one, every later attempt is decided by
the digests, for all other users nothing changes, and the name is taken. -/
theorem htpasswd_digest_round_trip (hlookup : Lookup find) (hstack : ∀ data, (stack data).length = 64)
    (hnull : (0 : UInt8) ∉ username) (hfile : s.file = some file) (hok : FileOk s file)
    (hadded : (htpasswdAdduser find (fun data ↦ getHash machine (stack data) data) s username password
      now).1 = .useradded)
    (hnow : now ≠ file.mtime) (hbreak : newline ∉ username) (hcomment : username.head? ≠ some hashSign)
    (hfits : username.length ≤ 478) :
    let added := (htpasswdAdduser find (fun data ↦ getHash machine (stack data) data) s username password
      now).2
    let auth := fun name attempt ↦
      (htpasswdAuth find (fun data ↦ getHash machine (stack data) data) added name attempt).1
    (∀ attempt, auth username attempt = .ok ↔ digest (hashed attempt) = digest (hashed password)) ∧
    (∀ other, other ≠ username → ∀ attempt, auth other attempt =
      (htpasswdAuth find (fun data ↦ getHash machine (stack data) data) s other attempt).1) ∧
    ∀ attempt later,
      (htpasswdAdduser find (fun data ↦ getHash machine (stack data) data) added username attempt later).1 =
        .userexists := by
  have hstorable : Storable username (getHash machine (stack password) password) := by
    refine ⟨hbreak, hcomment, ?_⟩
    rw [getHash_length (hstack password), lineSize]
    omega
  have hround := addRoundTrip_of_storable hlookup (getHash_hexHash hstack) hnull hfile hok hadded hnow
    hstorable
  refine ⟨?_, hround.2.1, hround.2.2⟩
  exact htpasswdAuth_iff_digest hstack hround.1

end File

/-! ## A user is added -/

/-- `get_hash` on a machine with the low byte first, with zeros on the stack. -/
def hashOnZeros (data : Bytes) : Bytes := getHash .little (List.replicate 64 0) data

example : hashOnZeros secret = hashOfSecret := by decide +kernel

theorem oneUser_fileOk : FileOk oneUser ⟨bob ++ [colon] ++ hashOfSecret ++ [newline], 100⟩ := by
  have hload : loadUsers (bob ++ [colon] ++ hashOfSecret ++ [newline]) = [⟨bob, hashOfSecret⟩] :=
    loadUsers_line (by decide) (by decide) (by decide) (hashOfSecret_hex.hex [])
  refine ⟨by decide, hload.symm, ?_⟩
  rw [hload]
  decide

theorem alice_is_let_in :
    (htpasswdAuth findFirst hashOnZeros (htpasswdAdduser findFirst hashOnZeros oneUser alice secret 101).2
      alice secret).1 = .ok :=
  ((htpasswd_digest_round_trip findFirst_lookup (fun _ ↦ List.length_replicate) (by decide) rfl
    oneUser_fileOk (by decide) (by decide) (by decide) (by decide) (by decide)).1 secret).mpr rfl

end Icecast.Auth.Htpasswd
