import Erofs.Proofs.Compression.Allocation
import Erofs.Proofs.Compression.Failures
import Erofs.Proofs.Lz4.Runs
/-!
# Decoding less, and from more

Bytes that are decoded from a source stay what they are if fewer of them
are asked for and if more bytes follow the source, whether the source is a
block or not. The two runs take the same turns up to the one in which the
shorter one has enough, and there it stops with a front of what the longer
one has then (`Decodes.cut`). A source that does not lead to all bytes is
corrupted, and nothing else goes wrong (`decodePartial_stable`).
-/

namespace Erofs.Lz4

variable {target front half literals : Nat} {out next : ByteArray} {src rest : List UInt8}
variable {d : Decoded}

/-! ## One turn of both runs -/

/-- What a step yields if `front` bytes are asked for, beside what it
yields if more are: the same, or a front of it that is all that is asked
for. -/
def CutAt (front : Nat) (cut whole : ByteArray) : Prop :=
  cut.data.toList <+: whole.data.toList ∧ (cut = whole ∨ cut.size = front)

/-- Literal bytes, of which fewer are wanted. -/
theorem literalsOf_front (h : literalsOf target out literals src = .ok next)
    (hout : out.size ≤ front) (hfront : front ≤ target) (garbage : List UInt8) :
    ∃ cut, literalsOf front out literals (src ++ garbage) = .ok cut ∧ CutAt front cut next := by
  obtain ⟨hle, rfl⟩ := literalsOf_eq_ok.mp h
  have hfewer : min literals (front - out.size) ≤ min literals (target - out.size) := by omega
  have htake : (src ++ garbage).take (min literals (front - out.size)) =
      src.take (min literals (front - out.size)) :=
    List.take_append_of_le_length (Nat.le_trans hfewer hle)
  refine ⟨_, literalsOf_eq_ok.mpr ⟨?_, rfl⟩, ?_, ?_⟩
  · rw [List.length_append]
    omega
  · rw [htake, toList_append_mk, toList_append_mk]
    exact (List.prefix_append_right_inj _).mpr (List.take_prefix_take_left hfewer)
  · rw [htake]
    by_cases hall : literals ≤ front - out.size
    · -- all literal bytes of the sequence are wanted by both
      left
      rw [Nat.min_eq_left hall, Nat.min_eq_left (by omega)]
    · right
      rw [size_append_mk, List.length_take]
      omega

/-- A match, of which less is wanted. It is read in the same way, and the
bytes behind it are the same. -/
theorem matchOf_front (h : matchOf target half out src = .ok (next, rest))
    (hout : out.size ≤ front) (hfront : front ≤ target) (garbage : List UInt8) :
    ∃ cut, matchOf front half out (src ++ garbage) = .ok (cut, rest ++ garbage) ∧
      CutAt front cut next := by
  obtain ⟨low, high, after, length, rfl, hpos, hreach, hread, rfl⟩ := matchOf_eq_ok.mp h
  refine ⟨_, matchOf_eq_ok.mpr ⟨low, high, after ++ garbage, length, rfl, hpos, hreach,
    readLength_append hread garbage, rfl⟩, ?_, ?_⟩
  · have hfewer : min (length + minMatch) (front - out.size) ≤
        min (length + minMatch) (target - out.size) := by omega
    rw [toList_copyMatch, toList_copyMatch, ← Nat.add_sub_cancel' hfewer, repeatBack_add]
    exact prefix_repeatBack ..
  · by_cases hall : length + minMatch ≤ front - out.size
    · left
      rw [Nat.min_eq_left hall, Nat.min_eq_left (by omega)]
    · right
      rw [size_copyMatch]
      omega

/-! ## Whole runs -/

/-- **A run that is asked for less takes the same turns**, and ends inside
one of them or behind it with a front of the bytes. -/
theorem Decodes.cut (h : Decodes target out src d) (hout : out.size ≤ front)
    (hfront : front ≤ target) (garbage : List UInt8) :
    ∃ cut, Decodes front out (src ++ garbage) cut ∧
      cut.bytes.data.toList <+: d.bytes.data.toList := by
  induction h with
  | enough hge => exact ⟨_, .enough (Nat.le_trans hfront hge), List.prefix_refl _⟩
  | @literals out next token src rest n hlt hread hnext hend =>
    rcases Nat.eq_or_lt_of_le hout with heq | hless
    · exact ⟨_, .enough (Nat.le_of_eq heq.symm), prefix_of_literalsOf hnext⟩
    · obtain ⟨cut, hcut, hprefix, hcases⟩ := literalsOf_front hnext hout hfront garbage
      have hsize : cut.size = front := by
        rcases hcases with rfl | hsize
        · have := size_of_literalsOf hout hcut
          omega
        · exact hsize
      exact ⟨_, .literals hless (readLength_append hread garbage) hcut hsize, hprefix⟩
  | @sequence out next after token src rest behind n d hlt hread hnext hmore hmatch hgo ih =>
    have hafter := hgo.prefix_bytes
    have hnextPrefix := (prefix_of_matchOf hmatch).trans hafter
    rcases Nat.eq_or_lt_of_le hout with heq | hless
    · exact ⟨_, .enough (Nat.le_of_eq heq.symm), (prefix_of_literalsOf hnext).trans hnextPrefix⟩
    · obtain ⟨cut, hcut, hprefix, hcases⟩ := literalsOf_front hnext hout hfront garbage
      have hcutSize := size_of_literalsOf hout hcut
      have hread' := readLength_append hread garbage
      by_cases hend : cut.size = front
      · -- the literal bytes are enough for the shorter run
        exact ⟨_, .literals hless hread' hcut hend, hprefix.trans hnextPrefix⟩
      · obtain rfl : cut = next := hcases.resolve_right hend
        have hwhole : n ≤ rest.length := by
          have htaken := (literalsOf_eq_ok.mp hnext).1
          have := size_eq_of_literalsOf hnext
          omega
        obtain ⟨cut', hcut', hprefix', hcases'⟩ := matchOf_front hmatch hcutSize hfront garbage
        rw [← List.drop_append_of_le_length hwhole] at hcut'
        have hcutSize' := (size_of_matchOf hcutSize hcut').1
        have hmore' := Nat.lt_of_le_of_ne hcutSize hend
        by_cases hend' : cut'.size = front
        · -- so is the match
          exact ⟨_, .sequence hless hread' hcut hmore' hcut' (.enough (Nat.le_of_eq hend'.symm)),
            hprefix'.trans hafter⟩
        · obtain rfl : cut' = after := hcases'.resolve_right hend'
          obtain ⟨e, he, heprefix⟩ := ih hcutSize'
          exact ⟨e, .sequence hless hread' hcut hmore' hcut' he, heprefix⟩

/-- A front of some bytes is a slice of them. -/
theorem eq_slice_of_prefix {cut whole : ByteArray} (h : cut.data.toList <+: whole.data.toList) :
    cut = slice whole 0 cut.size := by
  apply ByteArray.ext
  apply Array.toList_inj.mp
  rw [slice, ByteArray.data_extract, Array.toList_extract, List.extract_eq_take_drop,
    List.drop_zero, Nat.zero_add, Nat.sub_zero]
  exact List.prefix_iff_eq_take.mp h

/-- **Fewer bytes are decoded from more bytes as before.** -/
theorem decode_append {src : ByteArray} (h : decode src target = .ok d) (hfront : front ≤ target)
    (garbage : ByteArray) :
    ∃ cut, decode (src ++ garbage) front = .ok cut ∧ cut.bytes = slice d.bytes 0 front := by
  obtain ⟨cut, hcut, hprefix⟩ :=
    (decodes_of_decodeFrom h).cut (Nat.zero_le _) hfront garbage.data.toList
  refine ⟨cut, ?_, ?_⟩
  · rw [decode, ByteArray.toList_data_append]
    exact hcut.decodeFrom_eq
  · have hsize := hcut.size_eq (Nat.zero_le _)
    rw [← hsize]
    exact eq_slice_of_prefix hprefix

/-! ## The decoder on any source -/

/-- **A decoder is stable at a source**: either the source is corrupted or
it leads to all bytes that are asked for, and then so does it to fewer of
them, with anything behind it. -/
def StableAt (decoder : ByteArray → Nat → Except Error ByteArray) (src : ByteArray)
    (target : Nat) : Prop :=
  (∃ cause, decoder src target = .error cause ∧ cause.kind = .corrupted) ∨
    ∃ plain, decoder src target = .ok plain ∧ plain.size = target ∧
      ∀ front, front ≤ target → ∀ garbage,
        decoder (src ++ garbage) front = .ok (slice plain 0 front)

/-- Decoding itself is stable, for any number of bytes. -/
theorem decode_stable (src : ByteArray) (target : Nat) :
    StableAt (fun src target => (decode src target).map Decoded.bytes) src target := by
  cases h : decode src target with
  | error cause =>
    have hkind := Error.kind_of_isOfBlock (failsFor_decode src target cause h)
    exact .inl ⟨cause, congrArg (Except.map Decoded.bytes) h, hkind⟩
  | ok d =>
    refine .inr ⟨d.bytes, congrArg (Except.map Decoded.bytes) h, size_of_decode h, ?_⟩
    intro front hfront garbage
    obtain ⟨cut, hcut, hbytes⟩ := decode_append h hfront garbage
    rw [← hbytes]
    exact congrArg (Except.map Decoded.bytes) hcut

/-- **Decoding is stable on any source**, a block or not, and so is the
query for it unless the buffer for the bytes cannot exist. -/
theorem decodePartial_stable (src : ByteArray) (target : Nat) (image : ByteArray) :
    StableAt (fun src target => (decode src target).map Decoded.bytes) src target ∧
      (target < bufferLimit →
        StableAt (fun src target => (decodePartial src target).onImage image) src target) := by
  have hstable := decode_stable src target
  refine ⟨hstable, ?_⟩
  intro hbuffer
  have hquery : ∀ src n, n < bufferLimit →
      (decodePartial src n).onImage image = (decode src n).map Decoded.bytes := by
    intro src n hn
    rw [onImage_decodePartial, if_neg (Nat.not_le.mpr hn)]
  rcases hstable with ⟨cause, hcause, hkind⟩ | ⟨plain, hplain, hsize, hfront⟩
  · exact .inl ⟨cause, (hquery src target hbuffer).trans hcause, hkind⟩
  · refine .inr ⟨plain, (hquery src target hbuffer).trans hplain, hsize, ?_⟩
    intro front hle garbage
    exact (hquery _ _ (Nat.lt_of_le_of_lt hle hbuffer)).trans (hfront front hle garbage)

end Erofs.Lz4
