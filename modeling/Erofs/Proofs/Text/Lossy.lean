import Erofs.Text
/-!
# Names that are text

A name that is well-formed UTF-8 is shown as the very text that it holds
(`Text.toUTF8_lossy`): the bytes of a character are read as that character
(`Text.lossyChars_utf8EncodeChar`), whatever bytes follow.
-/

namespace Erofs.Text

variable {n v q : Nat} {low high b : UInt8} {rest : List UInt8}

/-! ## Bytes of a sequence -/

theorem toNat_ofNat_of_lt (h : n < 256) : (UInt8.ofNat n).toNat = n := by
  rw [UInt8.toNat_ofNat']
  omega

/-- A byte within the bounds adds its six bits. -/
theorem finishSequence_cons (bits following : Nat) (hn : n < 64) (hlow : low.toNat ≤ n + 128)
    (hhigh : n + 128 ≤ high.toNat) :
    finishSequence low high bits (following + 1) (UInt8.ofNat (n + 128) :: rest) =
      finishSequence 0x80 0xBF (bits * 64 + n) following rest := by
  have hbyte : (UInt8.ofNat (n + 128)).toNat = n + 128 := toNat_ofNat_of_lt (by omega)
  have hbits : (n + 128) % 64 = n := by omega
  rw [finishSequence, if_pos ⟨UInt8.le_iff_toNat_le.mpr (by omega),
    UInt8.le_iff_toNat_le.mpr (by omega)⟩, hbyte, hbits]

/-- So does every later byte. -/
theorem finishSequence_later (bits following : Nat) (hn : n < 64) :
    finishSequence 0x80 0xBF bits (following + 1) (UInt8.ofNat (n + 128) :: rest) =
      finishSequence 0x80 0xBF (bits * 64 + n) following rest :=
  finishSequence_cons bits following hn (by simp) (by simp; omega)

theorem ofByte?_two (hlow : 2 ≤ q) (hhigh : q < 32) :
    Lead.ofByte? (UInt8.ofNat (q + 192)) = some ⟨1, 0x80, 0xBF, q⟩ := by
  rw [Lead.ofByte?, toNat_ofNat_of_lt (by omega)]
  grind

/-- The first byte of three, and what it asks of the second one. -/
theorem exists_ofByte?_three (hq : q < 16) (hzero : q = 0 → 32 ≤ n)
    (hsurrogate : q = 13 → n < 32) (hn : n < 64) :
    ∃ low high, Lead.ofByte? (UInt8.ofNat (q + 224)) = some ⟨2, low, high, q⟩ ∧
      low.toNat ≤ n + 128 ∧ n + 128 ≤ high.toNat := by
  rw [Lead.ofByte?, toNat_ofNat_of_lt (by omega)]
  by_cases h0 : q = 0
  · exact ⟨0xA0, 0xBF, by grind, by simp; omega, by simp; omega⟩
  · by_cases h13 : q = 13
    · exact ⟨0x80, 0x9F, by grind, by simp, by simp; omega⟩
    · exact ⟨0x80, 0xBF, by grind, by simp, by simp; omega⟩

/-- The first byte of four. -/
theorem exists_ofByte?_four (hq : q < 5) (hzero : q = 0 → 16 ≤ n)
    (hlast : q = 4 → n < 16) (hn : n < 64) :
    ∃ low high, Lead.ofByte? (UInt8.ofNat (q + 240)) = some ⟨3, low, high, q⟩ ∧
      low.toNat ≤ n + 128 ∧ n + 128 ≤ high.toNat := by
  rw [Lead.ofByte?, toNat_ofNat_of_lt (by omega)]
  by_cases h0 : q = 0
  · exact ⟨0x90, 0xBF, by grind, by simp; omega, by simp; omega⟩
  · by_cases h4 : q = 4
    · exact ⟨0x80, 0x8F, by grind, by simp, by simp; omega⟩
    · exact ⟨0x80, 0xBF, by grind, by simp, by simp; omega⟩

/-! ## Characters -/

/-- The first character of a string of bytes, in front of the others. -/
theorem lossyChars_cons {c : Char} {bytes : List UInt8} (h : firstChar b bytes = (c, rest)) :
    lossyChars (b :: bytes) = c :: lossyChars rest := by
  rw [lossyChars, h]

theorem firstChar_of_lead {lead : Lead} {bytes : List UInt8} (h : Lead.ofByte? b = some lead) :
    firstChar b bytes = finishSequence lead.low lead.high lead.bits lead.following bytes := by
  rw [firstChar, h]

/-- **The bytes of a character** are read as that character. -/
theorem lossyChars_utf8EncodeChar (c : Char) (rest : List UInt8) :
    lossyChars (String.utf8EncodeChar c ++ rest) = c :: lossyChars rest := by
  have hchar : Char.ofNat c.val.toNat = c := Char.ofNat_toNat c
  have hvalid : c.val.toNat < 0xD800 ∨ 0xDFFF < c.val.toNat ∧ c.val.toNat < 0x110000 := c.valid
  unfold String.utf8EncodeChar
  generalize c.val.toNat = v at hchar hvalid ⊢
  simp only
  split
  · -- one byte, which is the character
    have hlead : Lead.ofByte? (UInt8.ofNat v) = some ⟨0, 0x80, 0xBF, v⟩ := by
      rw [Lead.ofByte?, toNat_ofNat_of_lt (by omega), if_pos (by omega)]
    refine lossyChars_cons ?_
    rw [firstChar_of_lead hlead, finishSequence, hchar]
    rfl
  split
  · have hq : v / 64 % 32 = v / 64 := by omega
    have hbits : v / 64 * 64 + v % 64 = v := by omega
    simp only [List.cons_append, List.nil_append]
    refine lossyChars_cons ?_
    rw [hq, firstChar_of_lead (ofByte?_two (by omega) (by omega)),
      finishSequence_later (n := v % 64) _ _ (by omega), hbits, finishSequence, hchar]
  split
  · have hq : v / 4096 % 16 = v / 4096 := by omega
    have hbits : (v / 4096 * 64 + v / 64 % 64) * 64 + v % 64 = v := by omega
    obtain ⟨low, high, hlead, hlow, hhigh⟩ := exists_ofByte?_three (q := v / 4096)
      (n := v / 64 % 64) (by omega) (by omega) (by omega) (by omega)
    simp only [List.cons_append, List.nil_append]
    refine lossyChars_cons ?_
    rw [hq, firstChar_of_lead hlead, finishSequence_cons _ _ (by omega) hlow hhigh,
      finishSequence_later (n := v % 64) _ _ (by omega), hbits, finishSequence, hchar]
  · have hq : v / 262144 % 8 = v / 262144 := by omega
    have hbits : ((v / 262144 * 64 + v / 4096 % 64) * 64 + v / 64 % 64) * 64 + v % 64 = v := by
      omega
    obtain ⟨low, high, hlead, hlow, hhigh⟩ := exists_ofByte?_four (q := v / 262144)
      (n := v / 4096 % 64) (by omega) (by omega) (by omega) (by omega)
    simp only [List.cons_append, List.nil_append]
    refine lossyChars_cons ?_
    rw [hq, firstChar_of_lead hlead, finishSequence_cons _ _ (by omega) hlow hhigh,
      finishSequence_later (n := v / 64 % 64) _ _ (by omega),
      finishSequence_later (n := v % 64) _ _ (by omega), hbits, finishSequence, hchar]

theorem lossyChars_flatMap (chars : List Char) :
    lossyChars (chars.flatMap String.utf8EncodeChar) = chars := by
  induction chars with
  | nil => rw [List.flatMap_nil, lossyChars]
  | cons c chars ih => rw [List.flatMap_cons, lossyChars_utf8EncodeChar, ih]

/-- **A name that is text is shown as this text.** -/
theorem toUTF8_lossy {name : ByteArray} (h : name.IsValidUTF8) : (lossy name).toUTF8 = name := by
  obtain ⟨chars, rfl⟩ := h
  have hchars : lossyChars chars.utf8Encode.data.toList = chars := by
    rw [List.utf8Encode, List.data_toByteArray]
    exact lossyChars_flatMap chars
  rw [lossy, hchars]
  exact String.toByteArray_ofList

end Erofs.Text
