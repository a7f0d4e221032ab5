import Mathlib.Data.List.Basic

/-!
# Bytes as digits in base 64

Three bytes are four digits. At the end one byte is two digits and two bytes are three; the bits that
are left over there do not count.
-/

namespace Icecast.Lib.Base64

def sextets : List ℕ → List ℕ
  | a :: b :: c :: rest =>
    a / 4 :: (a % 4 * 16 + b / 16) :: (b % 16 * 4 + c / 64) :: c % 64 :: sextets rest
  | [a, b] => [a / 4, a % 4 * 16 + b / 16, b % 16 * 4]
  | [a] => [a / 4, a % 4 * 16]
  | [] => []

def octets : List ℕ → List ℕ
  | a :: b :: c :: d :: rest =>
    (a * 4 + b / 16) :: (b % 16 * 16 + c / 4) :: (c % 4 * 64 + d) :: octets rest
  | [a, b, c] => [a * 4 + b / 16, b % 16 * 16 + c / 4]
  | [a, b] => [a * 4 + b / 16]
  | _ => []

theorem octets_sextets {bytes : List ℕ} (hbytes : ∀ byte ∈ bytes, byte < 256) :
    octets (sextets bytes) = bytes := by
  induction bytes using sextets.induct with
  | case1 a b c rest ih =>
    simp only [List.forall_mem_cons] at hbytes
    obtain ⟨ha, hb, hc, hrest⟩ := hbytes
    rw [sextets, octets, ih hrest]
    congr 1
    · omega
    · congr 1
      · omega
      · congr 1
        omega
  | case2 a b =>
    simp only [List.forall_mem_cons] at hbytes
    obtain ⟨ha, hb, -⟩ := hbytes
    rw [sextets, octets]
    congr 1
    · omega
    · congr 1
      omega
  | case3 a =>
    simp only [List.forall_mem_cons] at hbytes
    rw [sextets, octets]
    congr 1
    omega
  | case4 => rfl

theorem sextets_lt {bytes : List ℕ} (hbytes : ∀ byte ∈ bytes, byte < 256) :
    ∀ digit ∈ sextets bytes, digit < 64 := by
  induction bytes using sextets.induct with
  | case1 a b c rest ih =>
    simp only [List.forall_mem_cons] at hbytes
    obtain ⟨ha, hb, hc, hrest⟩ := hbytes
    simp only [sextets, List.forall_mem_cons]
    exact ⟨by omega, by omega, by omega, by omega, ih hrest⟩
  | case2 a b =>
    simp only [List.forall_mem_cons] at hbytes
    obtain ⟨ha, hb, -⟩ := hbytes
    simp only [sextets, List.forall_mem_cons]
    exact ⟨by omega, by omega, by omega, nofun⟩
  | case3 a =>
    simp only [List.forall_mem_cons] at hbytes
    simp only [sextets, List.forall_mem_cons]
    exact ⟨by omega, by omega, nofun⟩
  | case4 => exact nofun

end Icecast.Lib.Base64
