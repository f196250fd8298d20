import Erofs.Compression.CompactIndex
/-!
# Where the lclusters of a compact index stand

The three stretches of a compact index: two-slot packs up to a multiple of
32 bytes, sixteen-slot packs, and two-slot packs again. In each of them
the pack and the slot of an lcluster follow from its number by a division
(`packPlace_leading`, `packPlace_middle`, `packPlace_trailing`), provided
the index starts at a multiple of eight bytes.
-/

namespace Erofs

namespace PackPlace

/-- Two places are in one pack. -/
def SamePack (p q : PackPlace) : Prop := p.kind = q.kind ∧ p.base = q.base

instance (p q : PackPlace) : Decidable (SamePack p q) :=
  inferInstanceAs (Decidable (_ ∧ _))

end PackPlace

namespace CompressedFile

variable {f : CompressedFile} {lcn : Nat}

/-- The index is at a multiple of 32 bytes after the leading packs. -/
theorem leadingCount_aligns (h8 : f.headerEnd % 8 = 0) :
    f.leadingCount % 2 = 0 ∧ f.leadingCount < 8 ∧ (f.headerEnd + f.leadingCount * 4) % 32 = 0 := by
  unfold leadingCount
  omega

/-- The lclusters in packs of sixteen slots fill these. -/
theorem twoByteCount_mod (f : CompressedFile) : f.twoByteCount % 16 = 0 := by
  unfold twoByteCount
  split <;> omega

theorem packPlace_leading (h8 : f.headerEnd % 8 = 0) (h : lcn < f.leadingCount) :
    (f.packPlace lcn).kind = .fourByte ∧
      (f.packPlace lcn).base = f.headerEnd + lcn / 2 * 8 ∧ (f.packPlace lcn).slot = lcn % 2 := by
  simp only [packPlace, if_pos h, PackPlace.base, PackPlace.slot, PackKind.size, PackKind.slots,
    PackKind.slotSize, true_and]
  omega

theorem packPlace_middle (h8 : f.headerEnd % 8 = 0) (h : f.leadingCount ≤ lcn)
    (hm : lcn - f.leadingCount < f.twoByteCount) :
    (f.packPlace lcn).kind = .twoByte ∧
      (f.packPlace lcn).base =
        f.headerEnd + f.leadingCount * 4 + (lcn - f.leadingCount) / 16 * 32 ∧
      (f.packPlace lcn).slot = (lcn - f.leadingCount) % 16 := by
  obtain ⟨-, -, h32⟩ := leadingCount_aligns h8
  simp only [packPlace, if_neg (Nat.not_lt.mpr h), if_pos hm, PackPlace.base, PackPlace.slot,
    PackKind.size, PackKind.slots, PackKind.slotSize, true_and]
  omega

theorem packPlace_trailing (h8 : f.headerEnd % 8 = 0) (h : f.leadingCount ≤ lcn)
    (hm : f.twoByteCount ≤ lcn - f.leadingCount) :
    (f.packPlace lcn).kind = .fourByte ∧
      (f.packPlace lcn).base = f.headerEnd + f.leadingCount * 4 + f.twoByteCount * 2 +
        (lcn - f.leadingCount - f.twoByteCount) / 2 * 8 ∧
      (f.packPlace lcn).slot = (lcn - f.leadingCount - f.twoByteCount) % 2 := by
  obtain ⟨-, -, h32⟩ := leadingCount_aligns h8
  have h16 := f.twoByteCount_mod
  simp only [packPlace, if_neg (Nat.not_lt.mpr h), if_neg (Nat.not_lt.mpr hm), PackPlace.base,
    PackPlace.slot, PackKind.size, PackKind.slots, PackKind.slotSize, true_and]
  omega

/-- The stretch that an lcluster is in. -/
theorem stretch_cases (f : CompressedFile) (lcn : Nat) :
    lcn < f.leadingCount ∨ (f.leadingCount ≤ lcn ∧ lcn - f.leadingCount < f.twoByteCount) ∨
      (f.leadingCount ≤ lcn ∧ f.twoByteCount ≤ lcn - f.leadingCount) := by
  omega

/-- There are packs of sixteen slots only where they are advised. -/
theorem advises_of_twoByte (h : (f.packPlace lcn).kind = .twoByte) :
    f.advises MapAdvice.twoBytePacks = true := by
  unfold packPlace at h
  simp only at h
  split at h
  · cases h
  · split at h
    · next hm =>
      unfold twoByteCount at hm
      split at hm
      · next hadvised => exact hadvised.1
      · omega
    · cases h

/-- A slot is one of its pack. -/
theorem slot_lt (h8 : f.headerEnd % 8 = 0) (lcn : Nat) :
    (f.packPlace lcn).slot < (f.packPlace lcn).kind.slots := by
  rcases f.stretch_cases lcn with h | ⟨h, hm⟩ | ⟨h, hm⟩
  · obtain ⟨hk, -, hs⟩ := packPlace_leading h8 h
    rw [hk, hs, PackKind.slots]
    omega
  · obtain ⟨hk, -, hs⟩ := packPlace_middle h8 h hm
    rw [hk, hs, PackKind.slots]
    omega
  · obtain ⟨hk, -, hs⟩ := packPlace_trailing h8 h hm
    rw [hk, hs, PackKind.slots]
    omega

/-- **The lclusters between two of one pack are in it**, in the slots
between theirs. -/
theorem samePack_of_between {a b k : Nat} (h8 : f.headerEnd % 8 = 0)
    (hpack : (f.packPlace a).SamePack (f.packPlace b)) (hak : a ≤ k) (hkb : k ≤ b) :
    (f.packPlace k).SamePack (f.packPlace a) ∧
      (f.packPlace k).slot = (f.packPlace a).slot + (k - a) := by
  obtain ⟨hkind, hbase⟩ := hpack
  have hlead := leadingCount_aligns h8
  have h16 := f.twoByteCount_mod
  -- two stretches have no pack in common, by its kind or else by its base
  rcases f.stretch_cases a with ha | ⟨ha, ham⟩ | ⟨ha, ham⟩
  · obtain ⟨hka, hba, hsa⟩ := packPlace_leading h8 ha
    rcases f.stretch_cases b with hb | ⟨hb, hbm⟩ | ⟨hb, hbm⟩
    · obtain ⟨hkb, hbb, hsb⟩ := packPlace_leading h8 hb
      obtain ⟨hkk, hbk, hsk⟩ := @packPlace_leading f k h8 (by omega)
      exact ⟨⟨by rw [hkk, hka], by omega⟩, by omega⟩
    · obtain ⟨hkb, hbb, hsb⟩ := packPlace_middle h8 hb hbm
      rw [hka, hkb] at hkind
      cases hkind
    · obtain ⟨hkb, hbb, hsb⟩ := packPlace_trailing h8 hb hbm
      omega
  · obtain ⟨hka, hba, hsa⟩ := packPlace_middle h8 ha ham
    rcases f.stretch_cases b with hb | ⟨hb, hbm⟩ | ⟨hb, hbm⟩
    · omega
    · obtain ⟨hkb, hbb, hsb⟩ := packPlace_middle h8 hb hbm
      obtain ⟨hkk, hbk, hsk⟩ := @packPlace_middle f k h8 (by omega) (by omega)
      exact ⟨⟨by rw [hkk, hka], by omega⟩, by omega⟩
    · obtain ⟨hkb, hbb, hsb⟩ := packPlace_trailing h8 hb hbm
      rw [hka, hkb] at hkind
      cases hkind
  · obtain ⟨hka, hba, hsa⟩ := packPlace_trailing h8 ha ham
    obtain ⟨hkb, hbb, hsb⟩ := @packPlace_trailing f b h8 (by omega) (by omega)
    obtain ⟨hkk, hbk, hsk⟩ := @packPlace_trailing f k h8 (by omega) (by omega)
    exact ⟨⟨by rw [hkk, hka], by omega⟩, by omega⟩

/-! ## Packs one after the other -/

/-- The first lcluster has the first slot of the pack right after the map
header. -/
theorem packPlace_zero (h8 : f.headerEnd % 8 = 0) :
    (f.packPlace 0).slot = 0 ∧ (f.packPlace 0).base = f.headerEnd := by
  rcases f.stretch_cases 0 with h | ⟨h, hm⟩ | ⟨h, hm⟩
  · obtain ⟨-, hb, hs⟩ := packPlace_leading h8 h
    omega
  · obtain ⟨-, hb, hs⟩ := packPlace_middle h8 h hm
    omega
  · obtain ⟨-, hb, hs⟩ := packPlace_trailing h8 h hm
    omega

/-- **When a pack has sixteen slots**: if that is advised, it is at a
multiple of 32 bytes, and there are lclusters for all slots. -/
theorem kind_of_slot_zero (h8 : f.headerEnd % 8 = 0) (hlcn : lcn < f.lclusterCount)
    (hslot : (f.packPlace lcn).slot = 0) :
    (f.packPlace lcn).kind = .twoByte ↔
      f.advises MapAdvice.twoBytePacks = true ∧ (f.packPlace lcn).base % 32 = 0 ∧
        16 ≤ f.lclusterCount - lcn := by
  obtain ⟨heven, hlt, h32⟩ := leadingCount_aligns h8
  have hleading : f.leadingCount = (32 - f.headerEnd % 32) / 4 % 8 := rfl
  have hmiddle : f.twoByteCount =
      if f.advises MapAdvice.twoBytePacks ∧ f.leadingCount < f.lclusterCount then
        (f.lclusterCount - f.leadingCount) / 16 * 16
      else 0 := rfl
  rcases f.stretch_cases lcn with h | ⟨h, hm⟩ | ⟨h, hm⟩
  · obtain ⟨hk, hb, hs⟩ := packPlace_leading h8 h
    rw [hk, hb]
    constructor
    · intro h
      cases h
    · -- the leading packs end at the first multiple of 32 bytes
      rintro ⟨-, haligned, -⟩
      omega
  · obtain ⟨hk, hb, hs⟩ := packPlace_middle h8 h hm
    rw [hk, hb]
    split at hmiddle
    · next hadvised =>
      constructor
      · intro _
        exact ⟨hadvised.1, by omega, by omega⟩
      · intro _
        rfl
    · omega
  · obtain ⟨hk, hb, hs⟩ := packPlace_trailing h8 h hm
    rw [hk]
    constructor
    · intro h
      cases h
    · -- with sixteen lclusters left the middle stretch would go on
      rintro ⟨hadvised, -, hleft⟩
      rw [if_pos ⟨hadvised, by omega⟩] at hmiddle
      omega

/-- **The lclusters of a pack** have its slots in their order. -/
theorem packPlace_add (h8 : f.headerEnd % 8 = 0) (hslot : (f.packPlace lcn).slot = 0) {k : Nat}
    (hk : k < (f.packPlace lcn).kind.slots) :
    (f.packPlace (lcn + k)).kind = (f.packPlace lcn).kind ∧
      (f.packPlace (lcn + k)).base = (f.packPlace lcn).base ∧
      (f.packPlace (lcn + k)).slot = k := by
  -- a stretch holds whole packs, so the other lcluster is in the same one
  obtain ⟨heven, -, -⟩ := leadingCount_aligns h8
  have h16 := f.twoByteCount_mod
  rcases f.stretch_cases lcn with h | ⟨h, hm⟩ | ⟨h, hm⟩
  · obtain ⟨hkind, hb, hs⟩ := packPlace_leading h8 h
    rw [hkind, PackKind.slots] at hk
    obtain ⟨hkind', hb', hs'⟩ := @packPlace_leading f (lcn + k) h8 (by omega)
    exact ⟨hkind'.trans hkind.symm, by omega, by omega⟩
  · obtain ⟨hkind, hb, hs⟩ := packPlace_middle h8 h hm
    rw [hkind, PackKind.slots] at hk
    obtain ⟨hkind', hb', hs'⟩ := @packPlace_middle f (lcn + k) h8 (by omega) (by omega)
    exact ⟨hkind'.trans hkind.symm, by omega, by omega⟩
  · obtain ⟨hkind, hb, hs⟩ := packPlace_trailing h8 h hm
    rw [hkind, PackKind.slots] at hk
    obtain ⟨hkind', hb', hs'⟩ := @packPlace_trailing f (lcn + k) h8 (by omega) (by omega)
    exact ⟨hkind'.trans hkind.symm, by omega, by omega⟩

/-- **The next pack** comes right after it. -/
theorem packPlace_next (h8 : f.headerEnd % 8 = 0) (hslot : (f.packPlace lcn).slot = 0) :
    (f.packPlace (lcn + (f.packPlace lcn).kind.slots)).slot = 0 ∧
      (f.packPlace (lcn + (f.packPlace lcn).kind.slots)).base =
        (f.packPlace lcn).base + (f.packPlace lcn).kind.size := by
  -- the next pack is in the same stretch, or the first one of a later one
  obtain ⟨heven, -, -⟩ := leadingCount_aligns h8
  have h16 := f.twoByteCount_mod
  rcases f.stretch_cases lcn with h | ⟨h, hm⟩ | ⟨h, hm⟩
  · obtain ⟨hkind, hb, hs⟩ := packPlace_leading h8 h
    rw [hkind, hb, PackKind.size, PackKind.slots, PackKind.slotSize]
    rcases f.stretch_cases (lcn + 2) with h' | ⟨h', hm'⟩ | ⟨h', hm'⟩
    · obtain ⟨-, hb', hs'⟩ := packPlace_leading h8 h'
      omega
    · obtain ⟨-, hb', hs'⟩ := packPlace_middle h8 h' hm'
      omega
    · obtain ⟨-, hb', hs'⟩ := packPlace_trailing h8 h' hm'
      omega
  · obtain ⟨hkind, hb, hs⟩ := packPlace_middle h8 h hm
    rw [hkind, hb, PackKind.size, PackKind.slots, PackKind.slotSize]
    rcases f.stretch_cases (lcn + 16) with h' | ⟨h', hm'⟩ | ⟨h', hm'⟩
    · omega
    · obtain ⟨-, hb', hs'⟩ := packPlace_middle h8 h' hm'
      omega
    · obtain ⟨-, hb', hs'⟩ := packPlace_trailing h8 h' hm'
      omega
  · obtain ⟨hkind, hb, hs⟩ := packPlace_trailing h8 h hm
    rw [hkind, hb, PackKind.size, PackKind.slots, PackKind.slotSize]
    obtain ⟨-, hb', hs'⟩ := @packPlace_trailing f (lcn + 2) h8 (by omega) (by omega)
    omega

end CompressedFile

end Erofs
