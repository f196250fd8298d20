import Erofs.Lz4.Plan
import Erofs.Proofs.Mount.Survey
import Erofs.Proofs.Volume.Answers
/-!
# Mounts of one image agree

The answers of a mount are those of its image: they depend neither on how
the device is cut into blocks, nor on the cache, nor on what was asked
before (`serve_fst`, `survey_fst`). So two mounts of one image that are
made with the same depth and the same choice about the checksum agree,
whatever each went through before and after (`mountings_agree`).
-/

namespace Erofs

variable {image : ByteArray} {α : Type}

namespace Mount

variable {δ : Type} [BlockDevice δ]

/-- What calls can make of a mount. -/
inductive Becomes (m : Mount δ) : Mount δ → Prop
  /-- There was no call. -/
  | refl : Becomes m m
  /-- A session was run, whatever came of it. -/
  | perform {n : Mount δ} {β : Type} (s : Session β) : Becomes m n → Becomes m (n.perform s).2
  /-- The device was prepared for use. -/
  | attach {n : Mount δ} : Becomes m n → Becomes m { n with volume := n.volume.attach.2 }
  /-- The cache was emptied, and the use of the device was ended. -/
  | close {n : Mount δ} : Becomes m n → Becomes m { n with volume := n.volume.close.2 }

/-- Calls change the volume of a mount, and nothing else. -/
theorem Becomes.keeps {m n : Mount δ} (h : m.Becomes n) :
    m.volume.Becomes n.volume ∧ n.superblock = m.superblock ∧ n.options = m.options := by
  induction h with
  | refl => exact ⟨.refl, rfl, rfl⟩
  | perform s _ ih => exact ⟨ih.1.trans (Volume.becomes_perform _ s), ih.2⟩
  | attach _ ih => exact ⟨.attach ih.1, ih.2⟩
  | close _ ih => exact ⟨.close ih.1, ih.2⟩

theorem Becomes.trans {l m n : Mount δ} (hlm : l.Becomes m) (hmn : m.Becomes n) :
    l.Becomes n := by
  induction hmn with
  | refl => exact hlm
  | perform s _ ih => exact .perform s ih
  | attach _ ih => exact .attach ih
  | close _ ih => exact .close ih

/-- A mount of an image that is delivered, with a superblock that was
accepted. -/
structure Serves (image : ByteArray) (blockSize : Nat) (m : Mount δ) : Prop where
  delivers : m.volume.Delivers image blockSize
  valid : m.superblock.validate = .ok ()

variable {m n : Mount δ} {blockSize : Nat}

theorem Serves.of_becomes (h : m.Serves image blockSize) (hb : m.Becomes n) :
    n.Serves image blockSize := by
  obtain ⟨hvolume, hsuperblock, -⟩ := hb.keeps
  exact ⟨h.delivers.of_becomes hvolume, hsuperblock ▸ h.valid⟩

/-- The number of bytes of a last pcluster is below the limit, for the
blocks of every accepted superblock. -/
theorem mul_blockSize_lt {sb : Superblock} (hvalid : sb.validate = .ok ()) {blocks : Nat}
    (hblocks : blocks < 2 ^ 16) : blocks * sb.blockSize < shortLimit := by
  have hsize : sb.blockSize ≤ 2 ^ 16 :=
    Nat.pow_le_pow_right (by decide) (Superblock.bits_of_validate hvalid).2
  calc blocks * sb.blockSize ≤ blocks * 2 ^ 16 := Nat.mul_le_mul_left _ hsize
    _ < 2 ^ 16 * 2 ^ 16 := Nat.mul_lt_mul_of_pos_right hblocks (by decide)

theorem allows_of_validate {sb : Superblock} (hvalid : sb.validate = .ok ()) :
    Statistics.Allows Short image sb where
  bits_lt := by
    have := Superblock.bits_of_validate hvalid
    omega
  short length h := h
  last i f map last hf hmap hlast := by
    refine mul_blockSize_lt hvalid ?_
    exact CompressedFile.blocks_lt_of_recorded (CompressedFile.resolved_of_resolve hf)
      ((CompressedFile.walks_of_extents hmap).2.recorded (List.mem_of_getLast? hlast))

/-- Every request makes short reads, if it is put to an accepted
superblock and its map is one that the image gives out. -/
theorem reads_short [Lz4.Compressor] {sb : Superblock} (hvalid : sb.validate = .ok ())
    {r : Request α} (hr : r.Admissible image sb) : (r.query sb).Reads Short image := by
  have hallows : Statistics.Allows Short image sb := allows_of_validate hvalid
  refine r.reads_query hallows.bits_lt hallows.short fun last hlast => ?_
  cases r with
  | lastSize f map =>
    exact mul_blockSize_lt hvalid (hr.2.blocks_lt (List.mem_of_getLast? hlast))
  | packedSize f =>
    obtain ⟨map, hmap, hlast⟩ := hlast
    obtain ⟨i, -, hf⟩ := hr
    exact hallows.last i f map last hf hmap hlast
  | occupiedSize i =>
    obtain ⟨f, map, hf, hmap, hlast⟩ := hlast
    exact hallows.last i f map last hf hmap hlast
  | _ => exact hlast.elim

namespace Serves

variable (h : m.Serves image blockSize)
include h

/-- **A mount answers a request as its image does.** -/
theorem serve_fst [Lz4.Compressor] {r : Request α} (hr : r.Admissible image m.superblock) :
    (m.serve r).1 = (r.query m.superblock).onImage image :=
  h.delivers.ask_fst (reads_short h.valid hr)

theorem readInode_fst (nid : Nat) :
    (m.readInode nid).1 = (Inode.read m.superblock nid).onImage image :=
  h.delivers.ask_fst (Inode.reads_read (fun _ hlength => hlength) nid)

theorem readRoot_fst :
    m.readRoot.1 = (Inode.read m.superblock m.superblock.root).onImage image :=
  h.readInode_fst m.superblock.root

/-- So it does when a cursor is moved on. -/
theorem next_fst (c : Cursor) : (m.next c).1 = (c.next m.superblock).answer image := by
  have hallows : Statistics.Allows Short image m.superblock := allows_of_validate h.valid
  refine h.delivers.perform_fst (Session.reads_bind ?_ ?_)
  · exact Query.reads_attempt (Cursor.reads_advanceFrom hallows.short hallows.bits_lt ..)
  · split <;> exact Session.reads_pure _

/-- And when the tree is surveyed. -/
theorem survey_fst [Lz4.Compressor] (s : Statistics) :
    (m.survey s).1 = (s.survey m.superblock m.options.maxDepth).answer image :=
  h.delivers.perform_fst (Statistics.reads_survey (allows_of_validate h.valid) ..)

end Serves

/-- Two mounts give the same answers. -/
structure Agree [Lz4.Compressor] (image : ByteArray) (m n : Mount δ) : Prop where
  superblock_eq : m.superblock = n.superblock
  serve {β : Type} (r : Request β) :
    r.Admissible image m.superblock → (m.serve r).1 = (n.serve r).1
  next (c : Cursor) : (m.next c).1 = (n.next c).1
  survey (s : Statistics) : (m.survey s).1 = (n.survey s).1

theorem agree_of_serves [Lz4.Compressor] {m n : Mount δ} {b c : Nat} (hm : m.Serves image b)
    (hn : n.Serves image c) (hsuperblock : m.superblock = n.superblock)
    (hdepth : m.options.maxDepth = n.options.maxDepth) : m.Agree image n where
  superblock_eq := hsuperblock
  serve r hr := by
    rw [hm.serve_fst hr, hn.serve_fst (hsuperblock ▸ hr), hsuperblock]
  next c := by rw [hm.next_fst, hn.next_fst, hsuperblock]
  survey s := by rw [hm.survey_fst, hn.survey_fst, hsuperblock, hdepth]

end Mount

/-! ## Ways to mount an image -/

/-- The ways to mount an image in memory. -/
inductive Mounting (image : ByteArray) where
  /-- A device with blocks of `2 ^ k` bytes is put into use, with a cache
  of some capacity or with none, and mounted. -/
  | device (k : Nat) (d : MemoryDevice) (image_eq : d.image = image)
      (blockSize_eq : d.blockSize.toNat = 2 ^ k) (capacity : Nat) (journal : Journal)
  /-- A volume is mounted after any use. -/
  | volume (k : Nat) (v : Volume MemoryDevice) (inUse : v.InUse image k)

/-- The size of the blocks of the device, in bits. -/
def Mounting.blockBits {image : ByteArray} : Mounting image → Nat
  | device k .. => k
  | volume k _ _ => k

/-- Mounts an image in one of the ways. -/
def Mounting.mount {image : ByteArray} (maxDepth : Nat) (verify : Bool) :
    Mounting image → Except (Error × Journal) (Mount MemoryDevice)
  | device _ d _ _ capacity journal => Mount.ofDevice d ⟨capacity, maxDepth, verify⟩ journal
  | volume _ v _ =>
    Mount.load v { MountOptions.standard with maxDepth, verifyChecksum := verify }

/-- The superblock that is loaded is one that is accepted. -/
theorem Superblock.validate_of_load {verify : Bool} {sb : Superblock}
    (h : (Superblock.load verify).onImage image = .ok sb) : sb.validate = .ok () := by
  obtain ⟨sb', -, h⟩ := Query.onImage_bind_eq_ok.mp h
  obtain ⟨_, hcheck, h⟩ := Query.onImage_bind_eq_ok.mp h
  obtain ⟨_, hvalid, -⟩ := Query.onImage_bind_eq_ok.mp hcheck
  rw [Query.onImage_liftM] at hvalid
  have hsame : sb' = sb := by
    split at h
    · obtain ⟨_, -, h⟩ := Query.onImage_bind_eq_ok.mp h
      rw [Query.onImage_report_bind] at h
      cases h
      rfl
    · rw [Query.onImage_report_bind] at h
      cases h
      rfl
  exact hsame ▸ hvalid

/-- What comes of mounting a volume is decided by the image. -/
theorem Mount.load_of_delivers {δ : Type} [BlockDevice δ] {v : Volume δ} {blockSize : Nat}
    (h : v.Delivers image blockSize) (options : MountOptions) :
    match (Superblock.load options.verifyChecksum).onImage image with
    | .error cause => ∃ journal, Mount.load v options = .error (cause, journal)
    | .ok sb => ∃ m, Mount.load v options = .ok m ∧ m.superblock = sb ∧
        m.options = options ∧ m.Serves image blockSize := by
  have hask := h.ask_fst (Superblock.reads_load (P := Short) (fun _ h => h) options.verifyChecksum)
  have hbecomes := v.becomes_perform (Superblock.load options.verifyChecksum).attempt
  unfold Mount.load
  revert hask hbecomes
  change (v.ask _).1 = _ → v.Becomes (v.ask _).2 → _
  rcases v.ask (Superblock.load options.verifyChecksum) with ⟨cause | sb, w⟩
  · intro hask _
    rw [← hask]
    exact ⟨_, rfl⟩
  · intro hask hbecomes
    rw [← hask]
    exact ⟨_, rfl, rfl, rfl, h.of_becomes hbecomes, Superblock.validate_of_load hask.symm⟩

/-- So it is in every way of mounting. -/
theorem Mounting.mount_spec (w : Mounting image) (maxDepth : Nat) (verify : Bool) :
    match (Superblock.load verify).onImage image with
    | .error cause => ∃ journal, w.mount maxDepth verify = .error (cause, journal)
    | .ok sb => ∃ m, w.mount maxDepth verify = .ok m ∧ m.superblock = sb ∧
        m.options.maxDepth = maxDepth ∧ m.Serves image (2 ^ w.blockBits) := by
  cases w with
  | device k d image_eq hk capacity journal =>
    obtain ⟨v, hv, hdevice, hholds⟩ :=
      Volume.ofDevice_of_serves (delivers_memory d hk).toServes capacity journal
    have hdelivers : v.Delivers image (2 ^ k) :=
      image_eq ▸ Volume.delivers_of_memory hk hdevice hholds
    have hload := Mount.load_of_delivers hdelivers ⟨capacity, maxDepth, verify⟩
    unfold mount Mount.ofDevice
    simp only [hv, Except.mapError]
    revert hload
    simp only
    cases (Superblock.load verify).onImage image with
    | error cause =>
      rintro ⟨journal, hjournal⟩
      exact ⟨journal, by simp [hjournal, bind, Except.bind]⟩
    | ok sb =>
      rintro ⟨m, hm, hsuperblock, hoptions, hserves⟩
      refine ⟨{ m with volume := m.volume.note m.mounted }, ?_, hsuperblock, ?_, ?_⟩
      · simp [hm, bind, Except.bind, pure, Except.pure]
      · simp [hoptions]
      · exact ⟨hserves.delivers.of_becomes (.note _ .refl), hserves.valid⟩
  | volume k v inUse =>
    have hload := Mount.load_of_delivers inUse.delivers
      { MountOptions.standard with maxDepth, verifyChecksum := verify }
    unfold mount
    revert hload
    simp only
    cases (Superblock.load verify).onImage image with
    | error cause => exact id
    | ok sb =>
      rintro ⟨m, hm, hsuperblock, hoptions, hserves⟩
      exact ⟨m, hm, hsuperblock, by rw [hoptions], hserves⟩

/-- **Mounts of one image agree.** Whatever the block sizes, the caches
and the past of the volumes, either both mountings fail for the same
reason, or both succeed, and then the mounts give the same answers
whatever was asked of each in the meantime. -/
theorem mountings_agree [Lz4.Compressor] (a b : Mounting image) (maxDepth : Nat) (verify : Bool) :
    (∃ cause journal journal', a.mount maxDepth verify = .error (cause, journal) ∧
        b.mount maxDepth verify = .error (cause, journal')) ∨
      ∃ m n, a.mount maxDepth verify = .ok m ∧ b.mount maxDepth verify = .ok n ∧
        ∀ m' n', m.Becomes m' → n.Becomes n' → m'.Agree image n' := by
  have ha := a.mount_spec maxDepth verify
  have hb := b.mount_spec maxDepth verify
  revert ha hb
  cases (Superblock.load verify).onImage image with
  | error cause =>
    rintro ⟨journal, ha⟩ ⟨journal', hb⟩
    exact .inl ⟨cause, journal, journal', ha, hb⟩
  | ok sb =>
    rintro ⟨m, ha, hsuperblock, hdepth, hm⟩ ⟨n, hb, hsuperblock', hdepth', hn⟩
    refine .inr ⟨m, n, ha, hb, fun m' n' hm' hn' => ?_⟩
    obtain ⟨-, hkeep, hoptions⟩ := hm'.keeps
    obtain ⟨-, hkeep', hoptions'⟩ := hn'.keeps
    refine Mount.agree_of_serves (hm.of_becomes hm') (hn.of_becomes hn') ?_ ?_
    · rw [hkeep, hkeep', hsuperblock, hsuperblock']
    · rw [hoptions, hoptions', hdepth, hdepth']

section
attribute [local instance] Lz4.Compressor.greedy

/-- A superblock for blocks of 512 bytes. -/
def bareRecord : List UInt8 :=
  [0xE2, 0xE1, 0xF5, 0xE0, 0, 0, 0, 0, 0, 0, 0, 0, 9].rightpad Superblock.recordSize 0

/-- An image that ends with its superblock. -/
def bareImage : ByteArray :=
  ⟨(List.replicate Superblock.position 0 ++ bareRecord).toArray⟩

theorem size_bareImage : bareImage.size = Superblock.position + Superblock.recordSize := by
  simp [bareImage, bareRecord, ByteArray.size, Superblock.recordSize]

theorem size_bareImage_lt : bareImage.size < 2 ^ 63 := by
  rw [size_bareImage]
  decide

theorem isOk_load_bareImage : ((Superblock.load false).onImage bareImage).isOk := by
  have hbytes : (Query.bytes Superblock.position Superblock.recordSize).onImage bareImage =
      .ok ⟨bareRecord.toArray⟩ := by
    rw [Query.onImage_bytes, imageRange_eq_ok, size_bareImage]
    refine ⟨by decide, Nat.le_refl _, ?_⟩
    have hlength : bareRecord.length = Superblock.recordSize := by
      simp [bareRecord, Superblock.recordSize]
    ext1
    simp [slice, bareImage, ← hlength]
  rw [Superblock.load, Superblock.readRecord, Query.bind_assoc, Query.onImage_bind_of_ok hbytes]
  decide +kernel

/-- The image in memory. -/
def bareDevice (blockSize : UInt32) : MemoryDevice := ⟨bareImage, blockSize, size_bareImage_lt⟩

theorem image_bareDevice (blockSize : UInt32) : (bareDevice blockSize).image = bareImage := rfl

/-- It is mounted in blocks of 512 bytes, with a cache. -/
def bareInSmallBlocks : Mounting bareImage :=
  .device 9 (bareDevice 512) (image_bareDevice 512) rfl 4 #[]

/-- It is mounted in blocks of 4096 bytes, without a cache. -/
def bareInLargeBlocks : Mounting bareImage :=
  .device 12 (bareDevice 4096) (image_bareDevice 4096) rfl 0 #[]

/-- Both succeed, and agree. -/
theorem mountings_agree_bareImage :
    ∃ m n, bareInSmallBlocks.mount 8 false = .ok m ∧ bareInLargeBlocks.mount 8 false = .ok n ∧
      m.Agree bareImage n := by
  rcases mountings_agree bareInSmallBlocks bareInLargeBlocks 8 false with
    ⟨cause, journal, -, hfailed, -⟩ | ⟨m, n, hm, hn, hagree⟩
  · have hspec := bareInSmallBlocks.mount_spec 8 false
    have hloaded := isOk_load_bareImage
    revert hspec hloaded
    cases (Superblock.load false).onImage bareImage with
    | error cause => exact fun _ hloaded => nomatch hloaded
    | ok sb =>
      rintro ⟨m, hm, -⟩ -
      cases hm.symm.trans hfailed
  · exact ⟨m, n, hm, hn, hagree m n .refl .refl⟩

end

end Erofs
