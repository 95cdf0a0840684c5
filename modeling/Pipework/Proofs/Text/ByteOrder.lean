import Mathlib

/-! Texts ordered by their characters are ordered by their bytes, since UTF-8 keeps the order of code
points. -/

namespace Pipework.Text

/-- A text in UTF-8. -/
def bytes (s : String) : List UInt8 := s.toByteArray.data.toList

theorem bytes_length (s : String) : (bytes s).length = s.utf8ByteSize := rfl

theorem bytes_eq_flatMap (s : String) : bytes s = s.toList.flatMap String.utf8EncodeChar := by
  rw [bytes, ← String.utf8Encode_toList]
  simp [List.utf8Encode]

/-! ## Characters -/

theorem toNat_ofNat_ascii {n : Nat} (h : n ≤ 127) : (UInt8.ofNat n).toNat = n := by
  rw [UInt8.toNat_ofNat']
  omega

/-- A byte with bits of a code point below a marker. -/
theorem toNat_ofNat_marked {n m k : Nat} (hm : 0 < m) (h : m + k ≤ 256) :
    (UInt8.ofNat (n % m + k)).toNat = n % m + k := by
  have := Nat.mod_lt n hm
  rw [UInt8.toNat_ofNat']
  omega

/-- Where characters differ, their bytes decide, whatever follows. -/
theorem utf8EncodeChar_append_lt {c d : Char} (h : c < d) (as bs : List UInt8) :
    String.utf8EncodeChar c ++ as < String.utf8EncodeChar d ++ bs := by
  have hlt : c.val.toNat < d.val.toNat := h
  have hd : d.val.toNat < 1114112 := by
    have := d.valid
    omega
  have h₂ (n : Nat) : n / 4096 = n / 64 / 64 := by omega
  have h₃ (n : Nat) : n / 262144 = n / 64 / 64 / 64 := by omega
  simp only [String.utf8EncodeChar, h₂, h₃]
  generalize c.val.toNat = v at *
  generalize d.val.toNat = w at *
  -- As many cases as there are pairs of lengths; the first byte tells the lengths apart.
  split_ifs <;>
    simp (disch := omega) only [List.cons_append, List.nil_append, List.cons_lt_cons_iff,
      UInt8.lt_iff_toNat_lt, ← UInt8.toNat_inj, toNat_ofNat_marked, toNat_ofNat_ascii] <;> omega

/-! ## Texts -/

theorem flatMap_utf8EncodeChar_lt {cs ds : List Char} (h : cs < ds) :
    cs.flatMap String.utf8EncodeChar < ds.flatMap String.utf8EncodeChar := by
  induction h with
  | @nil d ds =>
    obtain ⟨b, bs, hb⟩ := List.exists_cons_of_ne_nil (String.utf8EncodeChar_ne_nil (c := d))
    rw [List.flatMap_cons, hb]
    exact List.nil_lt_cons ..
  | rel h => exact utf8EncodeChar_append_lt h ..
  | cons _ ih => exact List.append_left_lt ih

theorem lt_iff_bytes_lt {s t : String} : s < t ↔ bytes s < bytes t := by
  have hlt {s t : String} (h : s < t) : bytes s < bytes t := by
    rw [bytes_eq_flatMap, bytes_eq_flatMap]
    exact flatMap_utf8EncodeChar_lt h
  refine ⟨hlt, fun h => ?_⟩
  rcases lt_trichotomy s t with hst | rfl | hts
  · exact hst
  · exact absurd h (List.lt_irrefl _)
  · exact absurd h (List.lt_asymm (hlt hts))

end Pipework.Text
