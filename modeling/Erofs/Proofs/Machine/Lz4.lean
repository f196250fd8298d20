import Erofs.Proofs.Lz4.Turns
import Erofs.Proofs.Machine.Superblock
/-!
# LZ4 in words

Decoding a block and compressing into a budget, computed in words. The
decoder goes along its input by a position, and each of its lengths is at
most 255 for each byte of the input, so that no position and no length
comes near the limit of a word (`decodeFrom_eq`). A match is copied from a
place that has been written before. The compressor itself is not looked
into: only the lengths of the front parts that it is given are computed.
-/

namespace Erofs.Machine

/-- Adds up the bytes from `ip` on in which a length goes on, in at most
some turns. -/
def extendLength (src : ByteArray) : (turns ip length : Nat) → Computation (Nat × Nat)
  | 0, _, _ => liftM (none : Option (Nat × Nat))
  | turns + 1, ip, length =>
    if src.size ≤ ip then throw .lz4LengthTruncated
    else do
      let b ← field8 src ip
      let ip ← add 64 ip 1
      let length ← add 64 length b.toNat
      if b = 255 then extendLength src turns ip length else return (length, ip)

/-- Reads a length whose start is half a token. -/
def readLength (src : ByteArray) (half ip : Nat) : Computation (Nat × Nat) :=
  if half = Lz4.nibbleLimit then extendLength src (src.size + 1) ip half else return (half, ip)

/-- Repeats `count` bytes from `start + k` on, one at a time. -/
def copyMatch (start : Nat) : (count k : Nat) → ByteArray → Option ByteArray
  | 0, _, out => return out
  | count + 1, k, out => do
    let place ← add 64 start k
    let b ← field8 out place
    let next ← add 64 k 1
    copyMatch start count next (out.push b)

/-- Takes the literal bytes at `ip`, but not past `target`, and goes on
behind all of them. -/
def readLiterals (src : ByteArray) (target literals ip : Nat) (out : ByteArray) :
    Computation (ByteArray × Nat) := do
  let room ← sub target out.size
  let wanted := min literals room
  let stop ← add 64 ip wanted
  if src.size < stop then throw .lz4LiteralsPastInput
  else
    let taken ← sliceAt src ip wanted
    let ip ← add 64 ip literals
    return (out ++ taken, ip)

/-- Reads the match at `ip`, whose length starts with half a token, and
repeats its bytes, but not past `target`. -/
def readMatch (src : ByteArray) (target half ip : Nat) (out : ByteArray) :
    Computation (ByteArray × Nat) := do
  let stop ← add 64 ip 2
  if src.size < stop then throw .lz4OffsetMissing
  else
    let low ← field8 src ip
    let high ← field8 src (ip + 1)
    let distance := low.toNat + 256 * high.toNat
    if distance = 0 ∨ out.size < distance then throw .lz4OffsetOutOfRange
    else
      let (length, ip) ← readLength src half stop
      let length ← add 64 length Lz4.minMatch
      let room ← sub target out.size
      let start ← sub out.size distance
      let out ← copyMatch start (min length room) 0 out
      return (out, ip)

/-- Decodes the first `target` bytes of a block that goes on at `ip` after
the bytes `out`, in at most some turns. -/
def decodeFrom (src : ByteArray) (target : Nat) :
    (turns ip : Nat) → ByteArray → Computation Lz4.Decoded
  | 0, _, _ => liftM (none : Option Lz4.Decoded)
  | turns + 1, ip, out =>
    if target ≤ out.size then return ⟨out, (src.size : Int) - ip⟩
    else if src.size ≤ ip then throw .lz4InputEnded
    else do
      let token ← field8 src ip
      let ip ← add 64 ip 1
      let (literals, ip) ← readLength src (token.toNat / 16) ip
      let (out, ip) ← readLiterals src target literals ip out
      if out.size = target then return ⟨out, (src.size : Int) - ip⟩
      else
        let (out, ip) ← readMatch src target (token.toNat % 16) ip out
        decodeFrom src target turns ip out

/-- Decodes the first `target` bytes of a block and remarks on it. -/
def decodePartial (src : ByteArray) (target : Nat) : Program ByteArray :=
  if Lz4.bufferLimit ≤ target then Query.fail .allocationFailed
  else do
    let decoded ← decodeFrom src target (src.size + 1) 0 .empty
    Query.report (decoded.remark src.size)
    return decoded.bytes

section
variable [Lz4.Compressor]

/-- The size of the block that a front part of a source is compressed
to. -/
def frontSize (src : ByteArray) (length : Nat) : Option Nat := do
  let part ← sliceAt src 0 length
  return (Lz4.Compressor.block part).size

/-- Bisects between `low`, a length that fits with the size `produced`,
and `high`, one that does not fit, in at most some turns. -/
def bisect (src : ByteArray) (capacity : Nat) : (turns low high produced : Nat) → Option Lz4.Fit
  | 0, _, _, _ => none
  | turns + 1, low, high, produced => do
    let gap ← sub high low
    if gap ≤ 1 then return ⟨low, produced⟩
    else
      let middle ← add 64 low (gap / 2)
      let attempt ← frontSize src middle
      if attempt ≤ capacity then bisect src capacity turns middle high attempt
      else bisect src capacity turns low middle produced

/-- The front part of a source that is compressed into at most `capacity`
bytes. -/
def fitFront (src : ByteArray) (capacity : Nat) : Option Lz4.Fit := do
  let whole ← frontSize src src.size
  if whole ≤ capacity then return ⟨src.size, whole⟩
  else
    let empty ← frontSize src 0
    if capacity < empty then return ⟨0, 0⟩
    else bisect src capacity (src.size + 1) 0 src.size empty

/-- That front part, with a remark if it had to be searched for. -/
def compressInto (src : ByteArray) (capacity : Nat) : Program Lz4.Fit := do
  let found ← fitFront src capacity
  let empty ← frontSize src 0
  if found.consumed < src.size ∧ empty ≤ capacity then
    Query.report (found.searched src.size capacity)
    return found
  else return found

end

/-! ## Lengths -/

/-- The bytes from a position on. -/
def bytesFrom (src : ByteArray) (ip : Nat) : List UInt8 := src.data.toList.drop ip

variable {src : ByteArray} {ip turns half length : Nat}

theorem bytesFrom_of_lt (h : ip < src.size) :
    bytesFrom src ip = byteAt src ip :: bytesFrom src (ip + 1) := by
  have hlt : ip < src.data.toList.length := h
  rw [bytesFrom, List.drop_eq_getElem_cons hlt, byteAt_of_lt h]
  rfl

theorem bytesFrom_of_le (h : src.size ≤ ip) : bytesFrom src ip = [] :=
  List.drop_eq_nil_of_le h

theorem length_bytesFrom (src : ByteArray) (ip : Nat) :
    (bytesFrom src ip).length = src.size - ip :=
  List.length_drop

theorem cast_length_bytesFrom (h : ip ≤ src.size) :
    ((bytesFrom src ip).length : Int) = (src.size : Int) - ip := by
  rw [length_bytesFrom]
  omega

theorem length_take_bytesFrom (src : ByteArray) (ip n : Nat) :
    ((bytesFrom src ip).take n).length = min n (src.size - ip) := by
  rw [List.length_take, length_bytesFrom]

theorem drop_bytesFrom (src : ByteArray) (ip n : Nat) :
    (bytesFrom src ip).drop n = bytesFrom src (ip + n) :=
  List.drop_drop

/-- A slice has the first of the bytes from its start on. -/
theorem slice_eq_mk (src : ByteArray) (ip n : Nat) :
    slice src ip n = ⟨((bytesFrom src ip).take n).toArray⟩ := by
  refine ByteArray.ext (Array.toList_inj.mp ?_)
  simp [slice, bytesFrom, ByteArray.data_extract]

/-- Something is read at a position as it is read from the bytes there:
both fail, or both have the same value and go on at one position, of which
`P` holds. -/
inductive ReadAlike {α : Type} (src : ByteArray) (P : α → Nat → Prop) :
    Computation (α × Nat) → Except Error (α × List UInt8) → Prop
  /-- Both fail. -/
  | error (cause : Error) : ReadAlike src P (exact (.error cause)) (.error cause)
  /-- Both go on. -/
  | ok {a : α} {stop : Nat} : stop ≤ src.size → P a stop →
      ReadAlike src P (exact (.ok (a, stop))) (.ok (a, bytesFrom src stop))

theorem ReadAlike.mono {α : Type} {P Q : α → Nat → Prop} {c : Computation (α × Nat)}
    {e : Except Error (α × List UInt8)} (h : ReadAlike src P c e)
    (hle : ∀ a stop, P a stop → Q a stop) : ReadAlike src Q c e := by
  cases h with
  | error cause => exact .error cause
  | ok hstop hp => exact .ok hstop (hle _ _ hp)

/-- What follows the two may read on from there. -/
theorem ReadAlike.bind {α β : Type} {P : α → Nat → Prop} {Q : β → Nat → Prop}
    {c : Computation (α × Nat)} {e : Except Error (α × List UInt8)}
    {f : α × Nat → Computation (β × Nat)} {g : α × List UInt8 → Except Error (β × List UInt8)}
    (h : ReadAlike src P c e)
    (hf : ∀ a stop, stop ≤ src.size → P a stop →
      ReadAlike src Q (f (a, stop)) (g (a, bytesFrom src stop))) :
    ReadAlike src Q (c >>= f) (e >>= g) := by
  cases h with
  | error cause => exact .error cause
  | ok hstop hp => exact hf _ _ hstop hp

/-- It may also end with some other value. -/
theorem ReadAlike.bind_eq_exact {α β : Type} {P : α → Nat → Prop} {c : Computation (α × Nat)}
    {e : Except Error (α × List UInt8)} {f : α × Nat → Computation β}
    {g : α × List UInt8 → Except Error β} (h : ReadAlike src P c e)
    (hf : ∀ a stop, stop ≤ src.size → P a stop →
      f (a, stop) = exact (g (a, bytesFrom src stop))) :
    (c >>= f) = exact (e >>= g) := by
  cases h with
  | error cause => rfl
  | ok hstop hp => exact hf _ _ hstop hp

/-- A length has at most 255 for each byte in which it goes on. -/
def LengthWithin (ip start length stop : Nat) : Prop :=
  ip ≤ stop ∧ length ≤ start + 255 * (stop - ip)

theorem readAlike_extendLength (hsize : src.size < 2 ^ 32) (hip : ip ≤ src.size)
    (hturns : src.size < ip + turns) (hlength : length ≤ 15 + 255 * ip) :
    ReadAlike src (LengthWithin ip length) (extendLength src turns ip length)
      (Lz4.extendLength length (bytesFrom src ip)) := by
  induction turns generalizing ip length with
  | zero => omega
  | succ turns ih =>
    rw [extendLength]
    rcases Nat.lt_or_ge ip src.size with hlt | hge
    · have hb := (byteAt src ip).toNat_lt
      rw [if_neg (by omega), bytesFrom_of_lt hlt, Lz4.extendLength, value_bind (field8_of_le hlt),
        value_bind (add_of_lt (by omega)), value_bind (add_of_lt (by omega))]
      split
      · next h255 =>
        have hvalue : (byteAt src ip).toNat = 255 := by rw [h255]; rfl
        rw [hvalue]
        refine (ih (by omega) (by omega) (by omega)).mono fun n stop h => ?_
        obtain ⟨hle, hn⟩ := h
        exact ⟨by omega, by omega⟩
      · exact .ok hlt ⟨by omega, by omega⟩
    · rw [if_pos hge, bytesFrom_of_le hge]
      exact .error _

theorem readAlike_readLength (hsize : src.size < 2 ^ 32) (hip : ip ≤ src.size)
    (hhalf : half < 16) :
    ReadAlike src (LengthWithin ip half) (readLength src half ip)
      (Lz4.readLength half (bytesFrom src ip)) := by
  unfold readLength Lz4.readLength
  split
  · exact readAlike_extendLength hsize hip (by omega) (by omega)
  · exact .ok hip ⟨Nat.le_refl ip, by omega⟩

/-! ## Literal bytes and matches -/

variable {start distance count k target literals : Nat} {out : ByteArray}

/-- **Taking literal bytes does not fault.** -/
theorem readLiterals_eq (hsize : src.size < 2 ^ 32)
    (hip : ip ≤ src.size) (hout : out.size ≤ target) (hliterals : literals < 2 ^ 42) :
    readLiterals src target literals ip out =
      exact ((Lz4.literalsOf target out literals (bytesFrom src ip)).map fun next =>
        (next, ip + literals)) := by
  have htaken := length_take_bytesFrom src ip (min literals (target - out.size))
  rw [readLiterals, Lz4.literalsOf, value_bind (sub_of_le hout)]
  simp only
  rw [value_bind (add_of_lt (by omega))]
  rcases Nat.lt_or_ge src.size (ip + min literals (target - out.size)) with hshort | hle
  · rw [if_pos hshort, if_pos (by omega)]
    rfl
  · rw [if_neg (by omega), if_neg (by omega), value_bind (sliceAt_of_le hle (by omega)),
      value_bind (add_of_lt (by omega)), slice_eq_mk]
    rfl

/-- **A match is copied from what has been written.** -/
theorem copyMatch_eq (hplace : start + k + distance = out.size) (hpos : 0 < distance)
    (hlimit : out.size + count < 2 ^ 64) :
    copyMatch start count k out = some (Lz4.copyMatch distance count out) := by
  induction count generalizing k out with
  | zero => rfl
  | succ count ih =>
    have hsource : out.size - distance = start + k := by omega
    have hpush : (out.push (byteAt out (start + k))).size = out.size + 1 := ByteArray.size_push
    rw [copyMatch, add_of_lt (by omega), some_bind, field8_of_le (by omega), some_bind,
      add_of_lt (by omega), some_bind, Lz4.copyMatch, hsource]
    exact ih (by omega) (by omega)

/-- **Reading a match does not fault.** -/
theorem readAlike_readMatch (hsize : src.size < 2 ^ 32) (htarget : target < 2 ^ 40)
    (hhalf : half < 16) (hip : ip < 2 ^ 42) (hout : out.size ≤ target) :
    ReadAlike src (fun _ stop => ip < stop) (readMatch src target half ip out)
      (Lz4.matchOf target half out (bytesFrom src ip)) := by
  rw [readMatch, value_bind (add_of_lt (by omega))]
  rcases Nat.lt_or_ge src.size (ip + 2) with hshort | hle
  · rw [if_pos hshort]
    have hlength := length_bytesFrom src ip
    generalize bytesFrom src ip = rest at hlength ⊢
    cases rest with
    | nil => exact .error _
    | cons low rest =>
      cases rest with
      | nil => exact .error _
      | cons high rest =>
        rw [List.length_cons, List.length_cons] at hlength
        omega
  · rw [if_neg (by omega), bytesFrom_of_lt (by omega), bytesFrom_of_lt (by omega), Lz4.matchOf,
      value_bind (field8_of_le (by omega)), value_bind (field8_of_le (by omega))]
    simp only
    generalize (byteAt src ip).toNat + 256 * (byteAt src (ip + 1)).toNat = distance
    split
    · exact .error _
    · next hdistance =>
      refine (readAlike_readLength hsize hle hhalf).bind fun length stop hstop hlength => ?_
      obtain ⟨hfrom, hlength⟩ := hlength
      simp only
      rw [value_bind (add_of_lt (by simp only [Lz4.minMatch]; omega)), value_bind (sub_of_le hout),
        value_bind (sub_of_le (by omega)),
        value_bind (@copyMatch_eq _ distance _ 0 _ (by omega) (by omega) (by omega))]
      exact .ok hstop (by omega)

/-! ## Sequences -/

/-- **Decoding does not fault.** Each turn takes at least a byte of the
input. -/
theorem decodeFrom_eq (hsize : src.size < 2 ^ 32) (htarget : target < 2 ^ 40)
    (hip : ip ≤ src.size) (hturns : src.size < ip + turns) :
    decodeFrom src target turns ip out =
      exact (Lz4.decodeFrom target out (bytesFrom src ip)) := by
  induction turns generalizing ip out with
  | zero => omega
  | succ turns ih =>
    rw [decodeFrom]
    rcases Nat.lt_or_ge out.size target with hlt | hge
    · rw [if_neg (Nat.not_le.mpr hlt)]
      rcases Nat.lt_or_ge ip src.size with hip | hip
      · rw [if_neg (Nat.not_le.mpr hip), bytesFrom_of_lt hip, Lz4.decodeFrom_cons _ _ _ _ hlt,
          value_bind (field8_of_le hip), value_bind (add_of_lt (by omega))]
        have htoken := (byteAt src ip).toNat_lt
        refine (readAlike_readLength hsize hip (by omega)).bind_eq_exact
          fun literals stop hstop hliterals => ?_
        obtain ⟨hfrom, hliterals⟩ := hliterals
        simp only
        have hliterals : literals < 2 ^ 42 := by omega
        have htake := readLiterals_eq hsize hstop (Nat.le_of_lt hlt) hliterals
        cases hnext : Lz4.literalsOf target out literals (bytesFrom src stop) with
        | error cause =>
          rw [hnext] at htake
          rw [htake]
          rfl
        | ok next =>
          rw [hnext] at htake
          change readLiterals src target literals stop out =
            exact (.ok (next, stop + literals)) at htake
          rw [htake]
          have hout := Lz4.size_of_literalsOf (Nat.le_of_lt hlt) hnext
          change (if next.size = target then _ else _ : Computation Lz4.Decoded) =
            exact (if next.size = target then _ else _)
          split
          · rw [cast_length_bytesFrom hstop, Int.sub_sub, ← Int.natCast_add]
            rfl
          · rw [drop_bytesFrom]
            refine (readAlike_readMatch hsize htarget (by omega) (by omega) hout).bind_eq_exact
              fun out ip hip hlt => ?_
            exact ih hip (by omega)
      · rw [if_pos hip, bytesFrom_of_le hip, Lz4.decodeFrom_nil hlt]
        rfl
    · rw [if_pos hge, Lz4.decodeFrom_of_le hge, cast_length_bytesFrom hip]
      rfl

theorem decodePartial_matches (image : ByteArray) (hsize : src.size < 2 ^ 32)
    (htarget : target < 2 ^ 40) :
    Program.Matches image (decodePartial src target) (Lz4.decodePartial src target) := by
  refine Program.matches_ite (fun _ => .fail _) fun _ => ?_
  refine Program.matches_bind (Program.matches_of_exact
    (decodeFrom_eq hsize htarget (Nat.zero_le _) (by omega))) fun decoded _ => ?_
  exact Program.matches_report (Program.matches_pure _)

/-! ## Searching for a front part -/

variable [Lz4.Compressor]

theorem frontSize_eq (hsize : src.size < 2 ^ 64) (h : length ≤ src.size) :
    frontSize src length = some (Lz4.frontSize src length) := by
  rw [frontSize, sliceAt_of_le (by omega) (by omega)]
  rfl

theorem bisect_eq {capacity low high produced : Nat} (hsize : src.size < 2 ^ 64)
    (hlow : low ≤ high) (hhigh : high ≤ src.size) (hturns : high - low < turns) :
    bisect src capacity turns low high produced =
      some (Lz4.bisect (Lz4.frontSize src) capacity low high produced) := by
  induction turns generalizing low high produced with
  | zero => omega
  | succ turns ih =>
    rw [bisect, Lz4.bisect, sub_of_le hlow, some_bind]
    split
    · rfl
    · rw [add_of_lt (by omega), some_bind, frontSize_eq hsize (by omega), some_bind]
      simp only
      split
      · exact ih (by omega) hhigh (by omega)
      · exact ih (by omega) (by omega) (by omega)

theorem fitFront_eq (hsize : src.size < 2 ^ 64) (capacity : Nat) :
    fitFront src capacity = some (Lz4.fit (Lz4.frontSize src) src.size capacity) := by
  rw [fitFront, Lz4.fit, frontSize_eq hsize (Nat.le_refl _), some_bind]
  simp only
  split
  · rfl
  · rw [frontSize_eq hsize (Nat.zero_le _), some_bind]
    split
    · rfl
    · exact bisect_eq hsize (Nat.zero_le _) (Nat.le_refl _) (by omega)

/-- **Searching for the front part that fits does not fault.** -/
theorem compressInto_matches (image : ByteArray) (hsize : src.size < 2 ^ 64) (capacity : Nat) :
    Program.Matches image (compressInto src capacity) (Lz4.compressInto src capacity) := by
  have hfit := fitFront_eq hsize capacity
  have hempty := frontSize_eq hsize (Nat.zero_le src.size)
  unfold Lz4.compressInto
  generalize Lz4.fit (Lz4.frontSize src) src.size capacity = found at hfit ⊢
  generalize Lz4.frontSize src 0 = empty at hempty ⊢
  refine Program.matches_value hfit ?_
  refine Program.matches_value hempty ?_
  exact Program.matches_ite (fun _ => .note _ (Program.matches_pure found))
    fun _ => Program.matches_pure found

end Erofs.Machine
