import ErofsUtils.BufMgrPlace

/-!
# The room for inline data

`erofs_prepare_inode_buffer` asks for the bytes of an inode with a reserve for its inline data and
attaches the data afterwards, without looking back at the reserve. As long as nothing wraps the
second call passes, and the data follow the inode within one image block. When the end of the image
block numbers is reached the tail wraps, and the second call fails.
-/

namespace ErofsUtils

section Arith

variable {sb : BlockSize} {tail next incr align extra : ℕ} {bb : BufferBlock}

/-- Where an attachment of `incr` bytes ends. -/
def attachEnd (bb : BufferBlock) (incr align : ℕ) : ℕ := roundUp bb.off align + incr

theorem pred64_mod (sb : BlockSize) {n : ℕ} :
    (BlockSize.pred64 n % sb.size + 1) % sb.size = n % sb.size := by
  have hpos := sb.size_pos
  have hdvd : sb.size ∣ 2 ^ 64 := pow_dvd_pow 2 (sb.high.trans (by omega))
  rw [BlockSize.pred64, Nat.mod_add_mod]
  split
  · next hn =>
      rw [hn, Nat.sub_add_cancel (by omega), Nat.zero_mod]
      exact Nat.mod_eq_zero_of_dvd hdvd
  · next hn => rw [Nat.sub_add_cancel (by omega)]

theorem battachRet_mod (halign : 0 < align) (hle : align ≤ sb.size)
    (hbytes : attachEnd bb incr align + sb.size < 2 ^ 64) :
    battachRet sb bb incr align % sb.size = attachEnd bb incr align % sb.size := by
  have hge : bb.off ≤ roundUp bb.off align := le_roundUp halign
  rw [attachEnd] at hbytes ⊢
  rw [battachRet, BlockSize.roundup_eq (by omega), u64_of_lt (by omega)]
  exact pred64_mod sb

theorem battachRet_le : battachRet sb bb incr align ≤ sb.size := by
  have hmod := Nat.mod_lt (BlockSize.pred64 (u64 (BlockSize.roundup bb.off align + incr)))
    sb.size_pos
  rw [battachRet]
  omega

/-- The bytes in front of the last image block do not count for the alignment. -/
theorem roundUp_split (hdvd : align ∣ sb.size) (halign : 0 < align) {off k r : ℕ}
    (h : off = sb.size * k + r) :
    roundUp off align = sb.size * k + roundUp r align := by
  rw [h]
  exact roundUp_add halign (Dvd.dvd.mul_right hdvd k)

theorem mod_add_le {n m k b : ℕ} (hb : b + m ≤ n) : (n * k + b) % n + m ≤ n := by
  rw [Nat.mul_add_mod]
  rcases Nat.lt_or_ge b n with hlt | hge
  · rw [Nat.mod_eq_of_lt hlt]
    exact hb
  · have hbn : b = n := by omega
    rw [hbn, Nat.mod_self]
    omega

/-- The room test on a block that ends at the end of an image block. -/
theorem battachRoom_full (halign : 0 < align) (hdvd : align ∣ sb.size)
    (hbytes : attachEnd bb incr align + extra + sb.size < 2 ^ 64)
    (hend : attachEnd bb incr align % sb.size = 0) :
    sb.size + extra ≤ battachRoom sb bb incr align extra := by
  have hpos := sb.size_pos
  rw [attachEnd] at hbytes hend
  rcases Nat.eq_zero_or_pos bb.off with hoff | hoff
  · rw [battachRoom_empty halign hdvd hbytes hoff]
    omega
  · rw [battachRoom_eq halign hdvd hbytes hoff]
    have hdiv : bb.off = sb.size * ((bb.off - 1) / sb.size) + ((bb.off - 1) % sb.size + 1) := by
      have := Nat.div_add_mod (bb.off - 1) sb.size
      omega
    have hge : (bb.off - 1) % sb.size + 1 ≤
        roundUp ((bb.off - 1) % sb.size + 1) align := le_roundUp halign
    rw [roundUp_split hdvd halign hdiv, Nat.add_assoc, Nat.mul_add_mod] at hend
    have hfull : sb.size ≤ roundUp ((bb.off - 1) % sb.size + 1) align + incr :=
      Nat.le_of_dvd (by omega) (Nat.dvd_of_mod_eq_zero hend)
    omega

theorem battachRoom_swap :
    battachRoom sb bb incr align 0 = battachRoom sb bb 0 align incr := by
  rw [battachRoom, battachRoom, u64, u64, u64, u64]
  omega

theorem battachRoom_bytes (hbytes : bb.off + incr + sb.size < 2 ^ 64)
    (hfits : bb.off % sb.size + incr ≤ sb.size) (hoff : bb.off % sb.size ≠ 0 ∨ incr = 0) :
    battachRoom sb bb incr 1 0 ≤ sb.size := by
  have hbytes' : roundUp bb.off 1 + incr + 0 + sb.size < 2 ^ 64 := by
    rw [roundUp_one]
    exact hbytes
  rcases Nat.eq_zero_or_pos bb.off with h0 | h0
  · rw [h0, Nat.zero_mod] at hoff
    rw [battachRoom_empty one_pos (one_dvd _) hbytes' h0]
    omega
  · rw [battachRoom_eq one_pos (one_dvd _) hbytes' h0, roundUp_one]
    have hmod : (BlockSize.pred64 bb.off % sb.size + 1) % sb.size = bb.off % sb.size :=
      pred64_mod sb
    have hlt := Nat.mod_lt (bb.off - 1) sb.size_pos
    rw [BlockSize.pred64, if_neg (by omega)] at hmod
    rcases Nat.lt_or_ge ((bb.off - 1) % sb.size + 1) sb.size with hin | hfull
    · rw [Nat.mod_eq_of_lt hin] at hmod
      omega
    · have heq : (bb.off - 1) % sb.size + 1 = sb.size := by omega
      rw [heq, Nat.mod_self] at hmod
      omega

end Arith

namespace BufMgr

section Reserve

variable {s : BufMgr} {type : BlockType} {size inl align : ℕ} {p q : List BufferBlock}
variable {bb : BufferBlock}

/-- In the block that the search picks, the inline bytes stay in the image block in which the
other ones end. -/
theorem PlaceFor.room_le (h : s.PlaceFor type size 0 inl align p bb q) (halign : 0 < align)
    (hdvd : align ∣ s.sb.size) (hbytes : attachEnd bb size align + inl + s.sb.size < 2 ^ 64)
    (hinl : inl < 2 ^ 16) : attachEnd bb size align % s.sb.size + inl ≤ s.sb.size := by
  have hpos := s.sb.size_pos
  have hmax := s.sb.size_le
  cases h.room with
  | inl hin =>
      obtain ⟨htotal, hoff⟩ := hin
      rw [attachEnd] at hbytes
      have hu : u64 (size + 0 + inl) = size + inl := u64_of_lt (by omega)
      rw [hu] at htotal hoff
      have hsplit : bb.off = s.sb.size * (bb.off / s.sb.size) + bb.off % s.sb.size :=
        (Nat.div_add_mod bb.off s.sb.size).symm
      have hup := roundUp_le_of_dvd halign (Nat.dvd_sub_mod (s.sb.size - (size + inl))) hoff
      have hle := Nat.sub_le (s.sb.size - (size + inl)) ((s.sb.size - (size + inl)) % align)
      rw [attachEnd, roundUp_split hdvd halign hsplit, Nat.add_assoc]
      exact mod_add_le (by omega)
  | inr hfits =>
      have hret : battachRet s.sb bb size align ≤ s.sb.size := battachRet_le
      have hmod := battachRet_mod halign (Nat.le_of_dvd hpos hdvd) (by omega : attachEnd bb size
        align + s.sb.size < 2 ^ 64)
      have hu : u32 (battachRet s.sb bb size align) = battachRet s.sb bb size align :=
        u32_of_lt (by omega)
      rw [InlineFits, Nat.add_zero, hu, hmod] at hfits
      have hsum := Nat.mod_lt (attachEnd bb size align) hpos
      rwa [u32_of_lt (by omega)] at hfits

/-- When the search finds no block the reserve fits in a new one. -/
theorem bfind_none (hinl : inl < 2 ^ 16) (hsize : size < 2 ^ 64) {found : Option ℕ}
    (h : s.erofsBfindForAttach type size 0 inl align = .ok found) :
    size % s.sb.size + inl ≤ s.sb.size := by
  have hmax := s.sb.size_le
  have hlt := Nat.mod_lt size s.sb.size_pos
  by_contra hn
  have herr : s.erofsBfindForAttach type size 0 inl align = .error (-28) := by
    rw [bfind_error, Nat.add_zero, u64_of_lt hsize, u32_of_lt (by omega)]
    exact ⟨rfl, Nat.lt_of_not_le hn⟩
  rw [h] at herr
  cases herr

/-- The head `ihid` has `inl` bytes that follow the `size` bytes of the head `hid` in the same
block, and lie within one block of the image. -/
def InlineBehind (s : BufMgr) (bid hid ihid size inl : ℕ) : Prop :=
  ∃ p b q hs o, splitAtBlock bid s.blocks = some (p, b, q) ∧
    b.buffers = hs ++ [⟨hid, o, size⟩, ⟨ihid, o + size, inl⟩] ∧
      ∃ k, k * s.sb.size ≤ o + size ∧ o + size + inl ≤ (k + 1) * s.sb.size

/-- The inline bytes have to go to the next image block, whose number has no place in 32 bits. -/
def EndsAtLimit (sb : BlockSize) (bb : BufferBlock) (size inl align : ℕ) : Prop :=
  0 < inl ∧ bb.blkaddr ≠ nullAddr ∧ attachEnd bb size align % sb.size = 0 ∧
    2 ^ 32 ≤ bb.blkaddr + sb.blocksOf (attachEnd bb size align)

/-- What the test on the reserve leaves for the attachment of the inline bytes. -/
theorem inline_check {up : Bool} (halign : 0 < align) (hdvd : align ∣ s.sb.size)
    (hbytes : attachEnd bb size align + inl + s.sb.size < 2 ^ 64)
    (hlimit : ¬ EndsAtLimit s.sb bb size inl align)
    (hroom : attachEnd bb size align % s.sb.size + inl ≤ s.sb.size)
    (hcheck : battachCheck s.sb s.tailBlkaddr (nextAddr q) bb size align inl = some up) :
    ∃ up', battachCheck s.sb (s.attached p bb q size align up).tailBlkaddr (nextAddr q)
      (battachBlock bb size align (some s.fresh)) inl 1 0 = some up' := by
  have hle : align ≤ s.sb.size := Nat.le_of_dvd s.sb.size_pos hdvd
  have hoff : (battachBlock bb size align (some s.fresh)).off = attachEnd bb size align := by
    rw [attachEnd] at hbytes
    exact battachBlock_off_of_bytes halign hle (by omega) (some s.fresh)
  by_cases hfull : attachEnd bb size align % s.sb.size = 0 ∧ 0 < inl
  · -- the bytes go to the next image block, and the block has been one that can grow
    have hover := battachRoom_full halign hdvd hbytes hfull.1
    obtain ⟨⟨hnext, haddr⟩, hup⟩ := canGrow_of_battachCheck (by omega) hcheck
    apply battachCheck_of_grow
    refine ⟨hnext, ?_⟩
    rw [battachBlock_blkaddr]
    by_cases hnull : bb.blkaddr = nullAddr
    · exact Or.inl hnull
    · have hend : bb.blkaddr + s.sb.blocksOf (attachEnd bb size align) < 2 ^ 32 := by
        by_contra hge
        exact hlimit ⟨hfull.2, hnull, hfull.1, Nat.le_of_not_lt hge⟩
      right
      change (if up then u32 (bb.blkaddr + s.sb.blkRoundUp
        (battachBlock bb size align (some s.fresh)).off) else s.tailBlkaddr) = _
      rw [hup hnull, if_pos rfl, hoff, s.sb.blkRoundUp_eq (by omega)]
      exact u32_of_lt hend
  · apply battachCheck_of_room
    apply battachRoom_bytes
    · rw [hoff]
      exact hbytes
    · rw [hoff]
      exact hroom
    · rw [hoff]
      omega

theorem inline_check_limit {up : Bool} (halign : 0 < align) (hdvd : align ∣ s.sb.size)
    (hbytes : attachEnd bb size align + inl + s.sb.size < 2 ^ 64)
    (hlimit : EndsAtLimit s.sb bb size inl align)
    (hcheck : battachCheck s.sb s.tailBlkaddr (nextAddr q) bb size align inl = some up) :
    battachCheck s.sb (s.attached p bb q size align up).tailBlkaddr (nextAddr q)
      (battachBlock bb size align (some s.fresh)) inl 1 0 = none := by
  obtain ⟨hinl, hnull, hfull, hend⟩ := hlimit
  have hle : align ≤ s.sb.size := Nat.le_of_dvd s.sb.size_pos hdvd
  have hoff : (battachBlock bb size align (some s.fresh)).off = attachEnd bb size align := by
    rw [attachEnd] at hbytes
    exact battachBlock_off_of_bytes halign hle (by omega) (some s.fresh)
  have hover := battachRoom_full halign hdvd hbytes hfull
  obtain ⟨-, hup⟩ := canGrow_of_battachCheck (by omega) hcheck
  have hstart : attachEnd (battachBlock bb size align (some s.fresh)) 0 1 =
      attachEnd bb size align := by
    rw [attachEnd, hoff, roundUp_one, Nat.add_zero]
  have hroom : s.sb.size < battachRoom s.sb (battachBlock bb size align (some s.fresh)) inl 1 0 := by
    have hfull' := battachRoom_full one_pos (one_dvd s.sb.size) (by rw [hstart]; exact hbytes)
      (by rw [hstart]; exact hfull)
    rw [battachRoom_swap]
    omega
  by_contra hne
  obtain ⟨up', hup'⟩ := Option.ne_none_iff_exists'.mp hne
  obtain ⟨⟨-, haddr⟩, -⟩ := canGrow_of_battachCheck hroom hup'
  rw [battachBlock_blkaddr] at haddr
  have htail := haddr.resolve_left hnull
  change (if up then u32 (bb.blkaddr + s.sb.blkRoundUp
    (battachBlock bb size align (some s.fresh)).off) else s.tailBlkaddr) = _ at htail
  rw [hup hnull, if_pos rfl, hoff, s.sb.blkRoundUp_eq (by omega)] at htail
  have hlt := u32_lt (bb.blkaddr + s.sb.blocksOf (attachEnd bb size align))
  omega

theorem buffers_battach_inline {sb : BlockSize} (halign : 0 < align) (hle : align ≤ sb.size)
    (hbytes : attachEnd bb size align + inl + sb.size < 2 ^ 64) (hid ihid : ℕ) :
    (battachBlock (battachBlock bb size align (some hid)) inl 1 (some ihid)).buffers =
      bb.buffers ++ [⟨hid, roundUp bb.off align, size⟩,
        ⟨ihid, roundUp bb.off align + size, inl⟩] := by
  rw [attachEnd] at hbytes
  have hge : bb.off ≤ roundUp bb.off align := le_roundUp halign
  have hoff : (battachBlock bb size align (some hid)).off = roundUp bb.off align + size :=
    battachBlock_off_of_bytes halign hle (by omega) (some hid)
  have hsecond : BlockSize.roundup (battachBlock bb size align (some hid)).off 1 =
      roundUp bb.off align + size := by
    rw [hoff, BlockSize.roundup_eq (by omega), roundUp_one]
  have hfirst : BlockSize.roundup bb.off align = roundUp bb.off align :=
    BlockSize.roundup_eq (by omega)
  change (bb.buffers ++ [⟨hid, BlockSize.roundup bb.off align, size⟩]) ++
    [⟨ihid, BlockSize.roundup (battachBlock bb size align (some hid)).off 1, inl⟩] = _
  rw [hsecond, hfirst, List.append_assoc]
  rfl

section Second

variable {id : ℕ} {up : Bool}

theorem Named.attached_split (h : s.Named) {extra : ℕ}
    (hsplit : splitAtBlock id s.blocks = some (p, bb, q))
    (hcheck : battachCheck s.sb s.tailBlkaddr (nextAddr q) bb size align extra = some up) :
    (s.attached p bb q size align up).Named ∧
      splitAtBlock id (s.attached p bb q size align up).blocks =
        some (p, battachBlock bb size align (some s.fresh), q) ∧
      (s.attached p bb q size align up).isTail id s.fresh = true := by
  have hnamed : (s.attached p bb q size align up).Named := by
    have hin := h.ballocIn id size align extra
    rwa [ballocIn_eq hsplit hcheck] at hin
  have hsplit' : splitAtBlock id (s.attached p bb q size align up).blocks =
      some (p, battachBlock bb size align (some s.fresh), q) := by
    have hmid : splitAtBlock (battachBlock bb size align (some s.fresh)).id
        (s.attached p bb q size align up).blocks = _ := splitAtBlock_mid hnamed.nodup rfl
    rwa [battachBlock_id, (splitAtBlock_some hsplit).2] at hmid
  refine ⟨hnamed, hsplit', ?_⟩
  rw [isTail, hsplit']
  simp [battachBlock]

theorem Named.battach_inline (h : s.Named) (halign : 0 < align) (hdvd : align ∣ s.sb.size)
    (hbytes : attachEnd bb size align + inl + s.sb.size < 2 ^ 64)
    (hlimit : ¬ EndsAtLimit s.sb bb size inl align)
    (hsplit : splitAtBlock id s.blocks = some (p, bb, q))
    (hroom : attachEnd bb size align % s.sb.size + inl ≤ s.sb.size)
    (hcheck : battachCheck s.sb s.tailBlkaddr (nextAddr q) bb size align inl = some up) :
    ∃ s₂ ihid, (s.attached p bb q size align up).erofsBattach id s.fresh .metadata inl =
      (s₂, .ok (id, ihid)) ∧ s₂.InlineBehind id s.fresh ihid size inl := by
  obtain ⟨up', hcheck'⟩ := inline_check (p := p) halign hdvd hbytes hlimit hroom hcheck
  obtain ⟨hnamed, hsplit', htail⟩ := h.attached_split hsplit hcheck
  have halloc := ballocIn_eq hsplit' hcheck'
  have hnamed₂ := hnamed.ballocIn id inl 1 0
  rw [halloc] at hnamed₂
  have hrun : (s.attached p bb q size align up).erofsBattach id s.fresh .metadata inl =
      ((s.attached p bb q size align up).attached p (battachBlock bb size align (some s.fresh)) q
        inl 1 up', .ok (id, s.fresh + 1)) := by
    rw [erofsBattach, getAlignsize]
    dsimp only
    rw [if_pos htail, halloc]
    rfl
  refine ⟨_, _, hrun, p, battachBlock (battachBlock bb size align (some s.fresh)) inl 1
    (some (s.fresh + 1)), q, bb.buffers, roundUp bb.off align, ?_, ?_, ?_⟩
  · rw [← (splitAtBlock_some hsplit).2]
    exact splitAtBlock_mid hnamed₂.nodup rfl
  · exact buffers_battach_inline halign (Nat.le_of_dvd s.sb.size_pos hdvd) hbytes _ _
  · have hdiv := Nat.div_add_mod (attachEnd bb size align) s.sb.size
    refine ⟨attachEnd bb size align / s.sb.size, ?_, ?_⟩
    · exact Nat.div_mul_le_self _ _
    · rw [attachEnd] at hroom hdiv ⊢
      rw [Nat.add_mul, one_mul, Nat.mul_comm]
      change _ ≤ s.sb.size * _ + s.sb.size
      omega

theorem Named.battach_limit (h : s.Named) (halign : 0 < align) (hdvd : align ∣ s.sb.size)
    (hbytes : attachEnd bb size align + inl + s.sb.size < 2 ^ 64)
    (hlimit : EndsAtLimit s.sb bb size inl align)
    (hsplit : splitAtBlock id s.blocks = some (p, bb, q))
    (hcheck : battachCheck s.sb s.tailBlkaddr (nextAddr q) bb size align inl = some up) :
    ((s.attached p bb q size align up).erofsBattach id s.fresh .metadata inl).2 =
      .error (-22) := by
  obtain ⟨-, hsplit', htail⟩ := h.attached_split hsplit hcheck
  have hnone : battachCheck (s.attached p bb q size align up).sb
      (s.attached p bb q size align up).tailBlkaddr (nextAddr q)
      (battachBlock bb size align (some s.fresh)) inl 1 0 = none :=
    inline_check_limit halign hdvd hbytes hlimit hcheck
  rw [erofsBattach, getAlignsize]
  dsimp only
  rw [if_pos htail, BufMgr.ballocIn, BufMgr.attach, hsplit']
  dsimp only
  rw [hnone]

end Second

end Reserve

section Inode

variable {s : BufMgr}

/-- What `erofs_prepare_inode_buffer` relies on. -/
def InlineReserved (s : BufMgr) (inodesize idataSize : ℕ) : Prop :=
  (∀ s₁ bid hid, s.erofsBalloc .inode inodesize 0 idataSize = (s₁, .ok (bid, hid)) →
    ∃ s₂ ihid, s₁.erofsBattach bid hid .metadata idataSize = (s₂, .ok (bid, ihid)) ∧
      s₂.InlineBehind bid hid ihid inodesize idataSize) ∧
  ((s.erofsBalloc .inode inodesize 0 idataSize).2 = .error (-28) ↔
    s.sb.size < inodesize % s.sb.size + idataSize)

/-- The block that the search picks for the inode comes to end at the limit with it. -/
def TailLimit (s : BufMgr) (inodesize idataSize : ℕ) : Prop :=
  ∃ id p bb q, s.erofsBfindForAttach .metadata inodesize 0 idataSize 32 = .ok (some id) ∧
    splitAtBlock id s.blocks = some (p, bb, q) ∧ EndsAtLimit s.sb bb inodesize idataSize 32

theorem attachEnd_lt {sb : BlockSize} {bb : BufferBlock} {inodesize idataSize : ℕ}
    (hoff : bb.off < 2 ^ 63) (hsize : inodesize < 2 ^ 32) (hinl : idataSize < 2 ^ 16) :
    attachEnd bb inodesize 32 + idataSize + sb.size < 2 ^ 64 := by
  have hup := roundUp_lt (x := bb.off) (y := 32) (by omega)
  have hmax := sb.size_le
  rw [attachEnd]
  omega

variable {inodesize idataSize : ℕ}

/-- The allocation of an inode in the block between `p` and `q` of the state `s'`, which is `s` or
has a new block. -/
structure InodePlace (s s' : BufMgr) (inodesize idataSize id : ℕ) (p : List BufferBlock)
    (bb : BufferBlock) (q : List BufferBlock) (up : Bool) : Prop where
  named : s'.Named
  split : splitAtBlock id s'.blocks = some (p, bb, q)
  check : battachCheck s'.sb s'.tailBlkaddr (nextAddr q) bb inodesize 32 idataSize = some up
  bytes : attachEnd bb inodesize 32 + idataSize + s'.sb.size < 2 ^ 64
  room : attachEnd bb inodesize 32 % s'.sb.size + idataSize ≤ s'.sb.size
  limit : EndsAtLimit s'.sb bb inodesize idataSize 32 ↔ s.TailLimit inodesize idataSize
  alloc : s.erofsBalloc .inode inodesize 0 idataSize =
    (s'.attached p bb q inodesize 32 up, .ok (id, s'.fresh))

theorem dvd_size (sb : BlockSize) : 32 ∣ sb.size := by
  have hsize : getAlignsize sb .inode = some (32, .metadata) := rfl
  exact (getAlignsize_dvd hsize).2

theorem u32_reserve (hinl : idataSize < 2 ^ 16) : u32 (0 + idataSize) = idataSize := by
  rw [Nat.zero_add]
  exact u32_of_lt (by omega)

theorem Named.inodePlace_found (h : s.Named) (hoff : ∀ b ∈ s.blocks, b.off < 2 ^ 63)
    (hsize : inodesize < 2 ^ 32) (hinl : idataSize < 2 ^ 16) {id : ℕ}
    (hfind : s.erofsBfindForAttach .metadata inodesize 0 idataSize 32 = .ok (some id)) :
    ∃ p bb q up, InodePlace s s inodesize idataSize id p bb q up := by
  obtain ⟨p, bb, q, rfl, hplace⟩ := bfind_some h.nodup hfind
  obtain ⟨up, hcheck⟩ := hplace.check
  have hmem : bb ∈ s.blocks := by
    rw [(splitAtBlock_some hplace.split).1]
    simp
  have hbytes : attachEnd bb inodesize 32 + idataSize + s.sb.size < 2 ^ 64 :=
    attachEnd_lt (hoff bb hmem) hsize hinl
  have halloc := ballocIn_eq hplace.split hcheck
  refine ⟨p, bb, q, up, h, hplace.split, ?_, hbytes,
    hplace.room_le (by decide) (dvd_size s.sb) hbytes hinl, ?_, ?_⟩
  · rwa [u32_reserve hinl] at hcheck
  · constructor
    · intro hlimit
      exact ⟨bb.id, p, bb, q, hfind, hplace.split, hlimit⟩
    · rintro ⟨id, p', bb', q', hok, hsplit, hlimit⟩
      rw [hfind, Except.ok.injEq, Option.some.injEq] at hok
      rw [← hok, hplace.split, Option.some.injEq, Prod.mk.injEq, Prod.mk.injEq] at hsplit
      rwa [hsplit.2.1]
  · rw [erofsBalloc, getAlignsize]
    dsimp only
    rw [hfind]
    exact halloc

theorem Named.inodePlace_new (h : s.Named) (hsize : inodesize < 2 ^ 32)
    (hinl : idataSize < 2 ^ 16)
    (hfind : s.erofsBfindForAttach .metadata inodesize 0 idataSize 32 = .ok none) :
    ∃ p bb q up, InodePlace s (s.newBlock .metadata) inodesize idataSize s.fresh p bb q up := by
  obtain ⟨p, hsplit⟩ := h.newBlock_split .metadata
  have hcheck : battachCheck (s.newBlock .metadata).sb (s.newBlock .metadata).tailBlkaddr
      (nextAddr (s.behindNew .metadata)) ⟨s.fresh, .metadata, nullAddr, 0, []⟩ inodesize 32
      (u32 (0 + idataSize)) = some false := by
    rw [battachCheck_new rfl, if_neg (fun hc => hc.1 rfl)]
  have hend : attachEnd ⟨s.fresh, .metadata, nullAddr, 0, []⟩ inodesize 32 = inodesize := by
    rw [attachEnd, roundUp_zero (by decide), Nat.zero_add]
  have halloc := ballocIn_eq hsplit hcheck
  have hfits := bfind_none hinl (by omega) hfind
  refine ⟨p, ⟨s.fresh, .metadata, nullAddr, 0, []⟩, s.behindNew .metadata, false,
    h.newBlock .metadata, hsplit, ?_, ?_, ?_, ?_, ?_⟩
  · rwa [u32_reserve hinl] at hcheck
  · apply attachEnd_lt _ hsize hinl
    exact Nat.two_pow_pos 63
  · rw [hend]
    exact hfits
  · constructor
    · intro hlimit
      exact absurd rfl hlimit.2.1
    · rintro ⟨id, p', bb', q', hok, -⟩
      rw [hfind] at hok
      cases hok
  · rw [erofsBalloc, getAlignsize]
    dsimp only
    rw [hfind]
    exact halloc

/-- An inode is refused when it does not fit with its inline data, and goes to a block else. -/
theorem Named.balloc_inode (h : s.Named) (hoff : ∀ b ∈ s.blocks, b.off < 2 ^ 63)
    (hsize : inodesize < 2 ^ 32) (hinl : idataSize < 2 ^ 16) :
    (s.sb.size < inodesize % s.sb.size + idataSize ∧
        s.erofsBalloc .inode inodesize 0 idataSize = (s, .error (-28)) ∧
        ¬ s.TailLimit inodesize idataSize) ∨
      (inodesize % s.sb.size + idataSize ≤ s.sb.size ∧
        ∃ s' id p bb q up, InodePlace s s' inodesize idataSize id p bb q up) := by
  cases hfind : s.erofsBfindForAttach .metadata inodesize 0 idataSize 32 with
  | error e =>
      have hmod := Nat.mod_lt inodesize s.sb.size_pos
      have hmax := s.sb.size_le
      obtain ⟨rfl, hfull⟩ := bfind_error.mp hfind
      rw [Nat.add_zero, u64_of_lt (by omega), u32_of_lt (by omega)] at hfull
      refine Or.inl ⟨hfull, ?_, ?_⟩
      · rw [erofsBalloc, getAlignsize]
        dsimp only
        rw [hfind]
      · rintro ⟨id, p, bb, q, hok, -⟩
        rw [hfind] at hok
        cases hok
  | ok found =>
      refine Or.inr ⟨bfind_none hinl (by omega) hfind, ?_⟩
      cases found with
      | some id => exact ⟨s, id, h.inodePlace_found hoff hsize hinl hfind⟩
      | none => exact ⟨s.newBlock .metadata, s.fresh, h.inodePlace_new hsize hinl hfind⟩

/-- In every state of every run, for every size of an inode and of its inline data: they end up
together exactly when the block picked for them does not end at the limit. Only buffer blocks of
`2 ^ 63` bytes are left out. -/
theorem inlineReserved_iff (hs : Reach (fun _ _ => True) s) (hoff : ∀ b ∈ s.blocks, b.off < 2 ^ 63)
    (inodesize : UInt32) (idataSize : UInt16) :
    s.InlineReserved inodesize.toNat idataSize.toNat ↔
      ¬ s.TailLimit inodesize.toNat idataSize.toNat := by
  have hsize : inodesize.toNat < 2 ^ 32 := inodesize.toNat_lt
  have hinl : idataSize.toNat < 2 ^ 16 := idataSize.toNat_lt
  generalize inodesize.toNat = isz at hsize ⊢
  generalize idataSize.toNat = inl at hinl ⊢
  rcases hs.named.balloc_inode hoff hsize hinl with
    ⟨hfull, halloc, hlimit⟩ | ⟨hfits, s', id, p, bb, q, up, hplace⟩
  · rw [InlineReserved, halloc]
    refine ⟨fun _ => hlimit, fun _ => ⟨?_, fun _ => hfull, fun _ => rfl⟩⟩
    intro s₁ bid hid hok
    cases hok
  · rw [InlineReserved, hplace.alloc, ← hplace.limit]
    constructor
    · rintro ⟨hattach, -⟩ hend
      have herr := hplace.named.battach_limit (by decide) (dvd_size s'.sb) hplace.bytes hend
        hplace.split hplace.check
      obtain ⟨s₂, ihid, hok, -⟩ := hattach _ _ _ rfl
      rw [hok] at herr
      cases herr
    · intro hend
      refine ⟨?_, (fun herr => nomatch herr), fun hlt => absurd hfits (Nat.not_le_of_lt hlt)⟩
      intro s₁ bid hid hok
      rw [Prod.mk.injEq, Except.ok.injEq, Prod.mk.injEq] at hok
      obtain ⟨rfl, rfl, rfl⟩ := hok
      exact hplace.named.battach_inline (by decide) (dvd_size s'.sb) hplace.bytes hend hplace.split
        hplace.room hplace.check

/-- An inode with inline data, after a first one that has its place. -/
theorem inlineReserved_second :
    ((fresh4k.step (.balloc .inode 32 0 0)).step (.mapbh none)).InlineReserved
        (64 : UInt32).toNat (100 : UInt16).toNat ↔
      ¬ ((fresh4k.step (.balloc .inode 32 0 0)).step (.mapbh none)).TailLimit
        (64 : UInt32).toNat (100 : UInt16).toNat :=
  inlineReserved_iff (.step _ (.step _ (.init _ 0 0) trivial) trivial) (by decide +kernel) 64 100

/-- The last block that has a number holds one inode of 32 bytes. -/
def lastBlock : BufMgr :=
  (limit4k.step (.balloc .inode 32 0 0)).step (.mapbh none)

/-- Whether both calls for an inode and its inline data come back with a head. -/
def inlineCalls (s : BufMgr) (inodesize idataSize : ℕ) : Bool :=
  match s.erofsBalloc .inode inodesize 0 idataSize with
  | (s₁, .ok (bid, hid)) =>
    match (s₁.erofsBattach bid hid .metadata idataSize).2 with
    | .ok _ => true
    | .error _ => false
  | (_, .error _) => true

theorem inlineReserved_lastBlock : ¬ ∀ s : BufMgr, Reach (fun _ _ => True) s →
    ∀ (inodesize : UInt32) (idataSize : UInt16),
      s.InlineReserved inodesize.toNat idataSize.toNat := by
  intro h
  have hres := (h lastBlock (.step _ (.step _ (.init _ _ 0) trivial) trivial) 8160 32).1
  have hcalls : lastBlock.inlineCalls (8160 : UInt32).toNat (32 : UInt16).toNat = false := by
    decide +kernel
  rw [inlineCalls] at hcalls
  cases halloc : lastBlock.erofsBalloc .inode (8160 : UInt32).toNat 0 (32 : UInt16).toNat with
  | mk s₁ ret =>
      rw [halloc] at hcalls
      cases ret with
      | error e => cases hcalls
      | ok r =>
          obtain ⟨s₂, ihid, hok, -⟩ := hres s₁ r.1 r.2 halloc
          dsimp only at hcalls
          rw [hok] at hcalls
          cases hcalls

end Inode

end BufMgr

end ErofsUtils
