import Erofs.Proofs.Lz4.Runs
/-!
# Decoding a block

The first bytes of what a block expands to are decoded from it, whatever
follows it (`exists_decode`). The decoder stops inside a sequence once it
has the bytes asked for; since a match only adds bytes, what it has then
is the front of what the whole sequence would have given.
-/

namespace Erofs.Lz4

variable {out : ByteArray} {src rest : List UInt8} {target literals length n : Nat} {token : UInt8}

/-! ## Reading tokens and lengths -/

theorem half_lt (n : Nat) : half n < 16 :=
  Nat.lt_succ_of_le (Nat.min_le_right ..)

theorem tokenOf_div (a b : Nat) : (tokenOf a b).toNat / 16 = half a := by
  have ha := half_lt a
  have hb := half_lt b
  simp only [tokenOf, Nat.toUInt8_eq, UInt8.toNat_ofNat']
  omega

theorem tokenOf_mod (a b : Nat) : (tokenOf a b).toNat % 16 = half b := by
  have ha := half_lt a
  have hb := half_lt b
  simp only [tokenOf, Nat.toUInt8_eq, UInt8.toNat_ofNat']
  omega

theorem extendLength_replicate (length count : Nat) (last : UInt8) (hlast : last ≠ 255)
    (rest : List UInt8) :
    extendLength length (List.replicate count 255 ++ last :: rest) =
      .ok (length + 255 * count + last.toNat, rest) := by
  induction count generalizing length with
  | zero => simp [extendLength, hlast]
  | succ count ih =>
    rw [List.replicate_succ, List.cons_append, extendLength, if_pos rfl, ih]
    congr 2
    omega

/-- **A length is read as it is written.** -/
theorem readLength_lengthBytes (n : Nat) (rest : List UInt8) :
    readLength (half n) (lengthBytes n ++ rest) = .ok (n, rest) := by
  unfold readLength lengthBytes
  rcases Nat.lt_or_ge n nibbleLimit with hlt | hge
  · have hhalf : half n = n := Nat.min_eq_left (Nat.le_of_lt hlt)
    rw [hhalf, if_neg (by omega), if_pos hlt, List.nil_append]
  · have hhalf : half n = nibbleLimit := Nat.min_eq_right hge
    have hbyte : ((n - nibbleLimit) % 255).toUInt8.toNat = (n - nibbleLimit) % 255 := by
      rw [Nat.toUInt8_eq, UInt8.toNat_ofNat']
      omega
    have hlast : ((n - nibbleLimit) % 255).toUInt8 ≠ 255 := by
      intro h
      rw [h] at hbyte
      have : (255 : UInt8).toNat = 255 := rfl
      omega
    rw [hhalf, if_pos rfl, if_neg (by omega), List.append_assoc, List.singleton_append,
      extendLength_replicate _ _ _ hlast, hbyte]
    congr 2
    omega

/-! ## One sequence -/

/-- The decoder stops among literal bytes if there are enough of them. -/
theorem decodeFrom_of_literals (hlt : out.size < target)
    (hread : readLength (token.toNat / 16) src = .ok (literals, rest))
    (henough : target ≤ out.size + literals) (hrest : target ≤ out.size + rest.length) :
    ∃ d, decodeFrom target out (token :: src) = .ok d ∧
      d.bytes = out ++ ⟨(rest.take (target - out.size)).toArray⟩ := by
  have hwanted : min literals (target - out.size) = target - out.size := by omega
  have htaken : literalsOf target out literals rest =
      .ok (out ++ ⟨(rest.take (target - out.size)).toArray⟩) := by
    refine literalsOf_eq_ok.mpr ⟨by omega, ?_⟩
    rw [hwanted]
  have hend := size_eq_of_literalsOf htaken
  exact ⟨_, (Decodes.literals hlt hread htaken (by omega)).decodeFrom_eq, rfl⟩

/-- **Else it goes on behind the match.** -/
theorem decodeFrom_of_match {low high : UInt8} {lengthAndRest : List UInt8}
    {after : List UInt8} (hlt : out.size + literals < target)
    (hread : readLength (token.toNat / 16) src = .ok (literals, rest))
    (hdrop : rest.drop literals = low :: high :: lengthAndRest)
    (hpos : 0 < low.toNat + 256 * high.toNat)
    (hdistance : low.toNat + 256 * high.toNat ≤ out.size + literals)
    (hmatch : readLength (token.toNat % 16) lengthAndRest = .ok (length, after)) :
    decodeFrom target out (token :: src) =
      decodeFrom target (copyMatch (low.toNat + 256 * high.toNat)
        (min (length + minMatch) (target - (out.size + literals)))
        (out ++ ⟨(rest.take literals).toArray⟩)) after := by
  have hlen : literals ≤ rest.length := by
    have := congrArg List.length hdrop
    rw [List.length_drop, List.length_cons] at this
    omega
  have hwanted : min literals (target - out.size) = literals := by omega
  have htaken : literalsOf target out literals rest =
      .ok (out ++ ⟨(rest.take literals).toArray⟩) := by
    refine literalsOf_eq_ok.mpr ⟨by omega, ?_⟩
    rw [hwanted]
  have hsize := size_eq_of_literalsOf htaken
  rw [hwanted] at hsize
  have hmatched : matchOf target (token.toNat % 16) (out ++ ⟨(rest.take literals).toArray⟩)
      (rest.drop literals) = .ok (copyMatch (low.toNat + 256 * high.toNat)
        (min (length + minMatch) (target - (out.size + literals)))
        (out ++ ⟨(rest.take literals).toArray⟩), after) := by
    rw [← hsize] at hdistance ⊢
    exact matchOf_eq_ok.mpr ⟨low, high, lengthAndRest, length, hdrop, hpos, hdistance, hmatch, rfl⟩
  rw [decodeFrom_cons _ _ _ _ (by omega), hread]
  change literalsOf target out literals rest >>= _ = _
  rw [htaken]
  change ite _ _ _ = _
  rw [if_neg (by omega)]
  change matchOf _ _ _ (rest.drop literals) >>= _ = _
  rw [hmatched]
  rfl

/-! ## A whole block -/

theorem take_eq_of_front {l whole : List UInt8} (h : l <+: whole) (hn : l.length = n) :
    whole.take n = l := by
  rw [← hn]
  exact (List.prefix_iff_eq_take.mp h).symm

/-- A distance is read as it is written. -/
theorem distance_eq (s : Step) :
    (s.distance % 256).toUInt8.toNat + 256 * (s.distance / 256).toUInt8.toNat = s.distance := by
  have hle := s.distance_le
  simp only [maxDistance] at hle
  simp only [Nat.toUInt8_eq, UInt8.toNat_ofNat']
  omega

/-- **The decoder over one sequence**: it stops with the front of what the
sequence leads to, or goes on behind the sequence with all of it. -/
theorem decodeFrom_step (s : Step) (after : List UInt8) (hlt : out.size < target)
    (hreach : s.distance ≤ (out.data.toList ++ s.literals).length) :
    (∃ d, decodeFrom target out (s.bytes ++ after) = .ok d ∧
        d.bytes.data.toList <+: s.extend out.data.toList ∧ d.bytes.size = target) ∨
      ∃ out', decodeFrom target out (s.bytes ++ after) = decodeFrom target out' after ∧
        out'.data.toList = s.extend out.data.toList ∧ out'.size ≤ target := by
  have hreachSize : s.distance ≤ out.size + s.literals.length := by simpa using hreach
  have hread : ∀ rest, readLength ((tokenOf s.literals.length (s.matched - minMatch)).toNat / 16)
      (lengthBytes s.literals.length ++ rest) = .ok (s.literals.length, rest) := by
    intro rest
    rw [tokenOf_div]
    exact readLength_lengthBytes _ _
  have hmatch : ∀ rest, readLength ((tokenOf s.literals.length (s.matched - minMatch)).toNat % 16)
      (lengthBytes (s.matched - minMatch) ++ rest) = .ok (s.matched - minMatch, rest) := by
    intro rest
    rw [tokenOf_mod]
    exact readLength_lengthBytes _ _
  have hmin : s.matched - minMatch + minMatch = s.matched := Nat.sub_add_cancel s.minMatch_le
  simp only [Step.bytes, sequenceBytes, List.cons_append, List.append_assoc]
  rcases Nat.lt_or_ge (out.size + s.literals.length) target with hmore | henough
  · have hgo := decodeFrom_of_match hmore (hread _) (List.drop_left ..)
      (by rw [distance_eq]; exact s.distance_pos) (by rw [distance_eq]; exact hreachSize)
      (hmatch after)
    rw [distance_eq, hmin, List.take_left] at hgo
    rw [hgo]
    have hlist : ∀ n, (copyMatch s.distance n (out ++ ⟨s.literals.toArray⟩)).data.toList =
        repeatBack s.distance n (out.data.toList ++ s.literals) := by
      intro n
      rw [toList_copyMatch, toList_append_mk]
    have hsize : ∀ n, (copyMatch s.distance n (out ++ ⟨s.literals.toArray⟩)).size =
        out.size + s.literals.length + n := by
      intro n
      rw [size_copyMatch, size_append_mk]
    rcases Nat.le_total s.matched (target - (out.size + s.literals.length)) with hall | hpart
    · rw [Nat.min_eq_left hall]
      exact .inr ⟨_, rfl, hlist s.matched, by rw [hsize]; omega⟩
    · -- the match is cut short
      rw [Nat.min_eq_right hpart]
      refine .inl ⟨_, decodeFrom_of_le (by rw [hsize]; omega), ?_, by rw [hsize]; omega⟩
      rw [hlist, Step.extend, ← Nat.add_sub_cancel' hpart, repeatBack_add]
      exact prefix_repeatBack ..
  · -- so are the literal bytes
    generalize (s.distance % 256).toUInt8 :: (s.distance / 256).toUInt8 ::
      (lengthBytes (s.matched - minMatch) ++ after) = behind
    have htake := Nat.sub_le_iff_le_add'.mpr henough
    obtain ⟨d, hd, hbytes⟩ := decodeFrom_of_literals hlt (hread (s.literals ++ behind)) henough
      (by rw [List.length_append]; omega)
    refine .inl ⟨d, hd, ?_, ?_⟩
    · rw [hbytes, toList_append_mk, List.take_append_of_le_length htake]
      refine List.IsPrefix.trans ?_ (prefix_extend ..)
      exact (List.prefix_append_right_inj _).mpr <| List.take_prefix ..
    · rw [hbytes, size_append_mk, List.take_append_of_le_length htake, List.length_take]
      omega

/-- **The decoder over the rest of a block.** -/
theorem exists_decodeFrom {steps : List Step} {tail : List UInt8} (garbage : List UInt8)
    (hreach : ReachesFrom out.data.toList steps) (hle : out.size ≤ target)
    (htarget : target ≤ (expandFrom out.data.toList steps ++ tail).length) :
    ∃ d, decodeFrom target out (steps.flatMap Step.bytes ++ (tailBytes tail ++ garbage)) = .ok d ∧
      d.bytes.data.toList = (expandFrom out.data.toList steps ++ tail).take target := by
  induction steps generalizing out with
  | nil =>
    rcases Nat.eq_or_lt_of_le hle with heq | hlt
    · exact ⟨_, decodeFrom_of_le (Nat.le_of_eq heq.symm),
        (take_eq_of_front (List.prefix_append ..) heq).symm⟩
    · -- the rest of what is wanted is literal
      have hlength : out.data.toList.length = out.size := rfl
      rw [expandFrom, List.length_append, hlength] at htarget
      have hread : readLength ((tokenOf tail.length 0).toNat / 16)
          (lengthBytes tail.length ++ (tail ++ garbage)) = .ok (tail.length, tail ++ garbage) := by
        rw [tokenOf_div]
        exact readLength_lengthBytes _ _
      obtain ⟨d, hd, hbytes⟩ := decodeFrom_of_literals hlt hread htarget
        (by rw [List.length_append]; omega)
      refine ⟨d, ?_, ?_⟩
      · simpa [tailBytes] using hd
      · rw [hbytes, toList_append_mk, expandFrom,
          List.take_append_of_le_length (Nat.sub_le_iff_le_add'.mpr htarget), List.take_append,
          hlength, List.take_of_length_le hle]
  | cons s rest ih =>
    rcases Nat.eq_or_lt_of_le hle with heq | hlt
    · exact ⟨_, decodeFrom_of_le (Nat.le_of_eq heq.symm), (take_eq_of_front
        ((prefix_expandFrom _ _).trans (List.prefix_append ..)) heq).symm⟩
    · rw [List.flatMap_cons, List.append_assoc]
      rcases decodeFrom_step s _ hlt hreach.1 with ⟨d, hd, hfront, hsize⟩ | ⟨out', hgo, hout, hsize⟩
      · -- what comes after this sequence is not wanted any more
        exact ⟨d, hd, (take_eq_of_front (hfront.trans ((prefix_expandFrom _ rest).trans
          (List.prefix_append ..))) hsize).symm⟩
      · rw [hgo, expandFrom, ← hout]
        rw [expandFrom, ← hout] at htarget
        exact ih (hout ▸ hreach.2) hsize htarget

/-- **The first bytes of what a block expands to are decoded from it**,
whatever follows it. -/
theorem exists_decode {b : Block} {bytes : ByteArray} {garbage : List UInt8}
    (hbytes : bytes.data.toList = b.bytes ++ garbage) (htarget : target ≤ b.expansion.length) :
    ∃ d, decode bytes target = .ok d ∧ d.bytes.data.toList = b.expansion.take target := by
  unfold decode
  rw [hbytes, Block.bytes, List.append_assoc]
  exact exists_decodeFrom garbage b.reaches (Nat.zero_le _) htarget

/-- All of it is what the block decodes to. -/
theorem IsBlock.exists_decode {bytes plain : ByteArray} (h : IsBlock bytes plain)
    (garbage : ByteArray) :
    ∃ d, decode (bytes ++ garbage) plain.size = .ok d ∧ d.bytes = plain := by
  obtain ⟨b, hbytes, hplain⟩ := h
  have hwhole : (bytes ++ garbage).data.toList = b.bytes ++ garbage.data.toList := by
    rw [hbytes]
    exact ByteArray.toList_data_append
  have hsize : plain.size ≤ b.expansion.length := by
    rw [hplain]
    exact Nat.le_refl _
  obtain ⟨d, hd, htake⟩ := Lz4.exists_decode hwhole hsize
  refine ⟨d, hd, ?_⟩
  have hlength : plain.data.toList.length = plain.size := rfl
  rw [hplain, List.take_of_length_le (Nat.le_of_eq hlength)] at htake
  exact ByteArray.ext (Array.toList_inj.mp htake)

end Erofs.Lz4
