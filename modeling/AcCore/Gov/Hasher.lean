import AcCore.Gov.Crypto
import AcCore.Lib.Iterated

/-!
# The hasher objects

`sha256` and `ripemd160` are fed piece by piece: an object has a buffer of 64 bytes, and a
block goes to the transformation as soon as it is full. The two classes have this code in
common; they differ in the transformation, in the initial words, and in the order of the
bytes of a word. What is shown is that an object is, for every sequence of calls, what the
rest of this development takes it for: the bytes that were written to it.
-/

namespace AcCore.Gov

open Lib

/-- What the two classes differ in. -/
structure HashAlgorithm (σ : Type) where
  /-- `initialize`. -/
  initial : σ
  /-- `transform`, of a block of 64 bytes. -/
  transform : σ → List UInt8 → σ
  /-- How `finalize` writes the number of bits. -/
  sizedesc : UInt64 → List UInt8
  /-- How `finalize` writes the words. -/
  output : σ → List UInt8

/-- An object of `sha256` or `ripemd160`. -/
structure HashObject (σ : Type) where
  s : σ
  buf : List UInt8
  bytes : UInt64

/-- `memcpy` of some bytes into a buffer, from a place on. -/
def memcpy (buf : List UInt8) (place : ℕ) (data : List UInt8) : List UInt8 :=
  buf.take place ++ data ++ buf.drop (place + data.length)

/-- `pad`. -/
def hashPad : List UInt8 := 0x80 :: List.replicate 63 0

namespace HashObject

variable {σ : Type} (A : HashAlgorithm σ)

/-- The constructor; the buffer is not initialised. -/
def create (buf : List UInt8) : HashObject σ := ⟨A.initial, buf, 0⟩

/-- `reset`. -/
def reset (h : HashObject σ) : HashObject σ := { h with s := A.initial, bytes := 0 }

/-- The loop of `write` over the full chunks, and what remains of the data. There are no
more passes than there are bytes. -/
def writeChunks : ℕ → HashObject σ → List UInt8 → HashObject σ × List UInt8
  | 0, h, data => (h, data)
  | fuel + 1, h, data =>
    if 64 ≤ data.length then
      writeChunks fuel { h with s := A.transform h.s (data.take 64), bytes := h.bytes + 64 }
        (data.drop 64)
    else (h, data)

/-- The first part of `write`: the buffer is filled, and processed. The object, the data
that is left, and `bufsize`. -/
def fillBuffer (h : HashObject σ) (data : List UInt8) : HashObject σ × List UInt8 × ℕ :=
  let bufsize := (h.bytes % 64).toNat
  if bufsize ≠ 0 ∧ 64 ≤ bufsize + data.length then
    let buf := memcpy h.buf bufsize (data.take (64 - bufsize))
    (⟨A.transform h.s buf, buf, h.bytes + UInt64.ofNat (64 - bufsize)⟩,
      data.drop (64 - bufsize), 0)
  else (h, data, bufsize)

/-- `write(const unsigned char*, size_t)`. -/
def write (h : HashObject σ) (data : List UInt8) : HashObject σ :=
  let (h, data, bufsize) := h.fillBuffer A data
  let (h, data) := writeChunks A data.length h data
  if data = [] then h
  else
    { h with buf := memcpy h.buf bufsize data, bytes := h.bytes + UInt64.ofNat data.length }

/-- `finalize`: the digest, and the object after it, to which the padding was written. -/
def finalize (h : HashObject σ) : List UInt8 × HashObject σ :=
  let sizedesc := A.sizedesc (h.bytes <<< 3)
  let h := h.write A (hashPad.take (1 + ((119 - h.bytes % 64) % 64).toNat))
  let h := h.write A sizedesc
  (A.output h.s, h)

end HashObject

/-! ## What an object is -/

namespace HashAlgorithm

variable {σ : Type} (A : HashAlgorithm σ)

/-- What `finalize` writes after a message. -/
def padding (m : List UInt8) : List UInt8 :=
  hashPad.take (1 + (119 - m.length % 64) % 64) ++ A.sizedesc (UInt64.ofNat (8 * m.length))

/-- The words after the full blocks of a message. -/
def absorbed (m : List UInt8) : σ := absorb A.transform 64 A.initial m

/-- The digest of a message. -/
def digest (m : List UInt8) : List UInt8 := A.output (A.absorbed (m ++ A.padding m))

end HashAlgorithm

/-- The calls of the public functions that take or give bytes. -/
inductive HashOp where
  | write (data : List UInt8)
  | finalize
  | reset

namespace HashObject

variable {σ : Type} (A : HashAlgorithm σ)

/-- One call: the object after it, and the digest if there is one. -/
def step (h : HashObject σ) : HashOp → HashObject σ × Option (List UInt8)
  | .write data => (h.write A data, none)
  | .finalize => ((h.finalize A).2, some (h.finalize A).1)
  | .reset => (h.reset A, none)

/-- The digests that a sequence of calls gives. -/
def outputs (h : HashObject σ) : List HashOp → List (List UInt8)
  | [] => []
  | op :: ops => (h.step A op).2.toList ++ outputs (h.step A op).1 ops

end HashObject

/-- The digests, for what was written: `finalize` adds the padding to it. -/
def HashAlgorithm.outputs {σ : Type} (A : HashAlgorithm σ) :
    List UInt8 → List HashOp → List (List UInt8)
  | _, [] => []
  | m, .write data :: ops => A.outputs (m ++ data) ops
  | m, .finalize :: ops => A.digest m :: A.outputs (m ++ A.padding m) ops
  | _, .reset :: ops => A.outputs [] ops

namespace HashObject

variable {σ : Type} {A : HashAlgorithm σ} {h : HashObject σ} {m data : List UInt8}

/-- An object to which this message was written. The count of bytes may have gone round. -/
structure Holds (A : HashAlgorithm σ) (h : HashObject σ) (m : List UInt8) : Prop where
  size : h.buf.length = 64
  bytes : h.bytes = UInt64.ofNat m.length
  state : h.s = A.absorbed m
  rest : h.buf.take (m.length % 64) = remainder 64 m

/-- The buffer is filled up to the remainder of the length. -/
theorem Holds.bufsize (hm : h.Holds A m) : (h.bytes % 64).toNat = m.length % 64 := by
  rw [hm.bytes, UInt64.toNat_mod, UInt64.toNat_ofNat']
  change m.length % 2 ^ 64 % 64 = m.length % 64
  omega

/-- A new hasher holds the empty message. -/
theorem Holds.create {buf : List UInt8} (hbuf : buf.length = 64) :
    (create A buf).Holds A [] where
  size := hbuf
  bytes := rfl
  state := absorb_nil.symm
  rest := rfl

/-- A hasher that is reset holds the empty message. -/
theorem Holds.reset (hm : h.Holds A m) : (h.reset A).Holds A [] where
  size := hm.size
  bytes := rfl
  state := absorb_nil.symm
  rest := rfl

/-- Copying within a buffer keeps its length. -/
theorem length_memcpy {buf : List UInt8} {place : ℕ} (h : place + data.length ≤ buf.length) :
    (memcpy buf place data).length = buf.length := by
  simp only [memcpy, List.length_append, List.length_take, List.length_drop]
  omega

/-- After a copy the buffer begins with what it had and then the data. -/
theorem take_memcpy {buf : List UInt8} {place : ℕ} (h : place ≤ buf.length)
    (data : List UInt8) :
    (memcpy buf place data).take (place + data.length) = buf.take place ++ data := by
  have hlength : (buf.take place ++ data).length = place + data.length := by
    rw [List.length_append, List.length_take_of_le h]
  rw [memcpy, ← hlength, List.take_left]

/-- Data that do not fill a block join the remainder. -/
theorem remainder_append (h : m.length % 64 + data.length < 64) :
    remainder 64 (m ++ data) = remainder 64 m ++ data := by
  have hdiv : (m.length + data.length) / 64 = m.length / 64 := by omega
  rw [remainder, List.length_append, hdiv, List.drop_append_of_le_length (by omega), remainder]

/-- Data that does not fill the buffer. -/
theorem Holds.copy (hm : h.Holds A m) (hdata : m.length % 64 + data.length < 64) :
    ({ h with
        buf := memcpy h.buf (m.length % 64) data
        bytes := h.bytes + UInt64.ofNat data.length } : HashObject σ).Holds A (m ++ data) where
  size := by
    rw [length_memcpy, hm.size]
    rw [hm.size]
    omega
  bytes := by rw [hm.bytes, ← UInt64.ofNat_add, List.length_append]
  state := by
    have hlt : (remainder 64 m ++ data).length < 64 := by
      rw [List.length_append, length_remainder]
      exact hdata
    rw [hm.state, HashAlgorithm.absorbed, HashAlgorithm.absorbed,
      absorb_remainder (by decide) m data, absorb_of_lt hlt]
  rest := by
    have hmod : (m ++ data).length % 64 = m.length % 64 + data.length := by
      rw [List.length_append]
      omega
    rw [hmod, take_memcpy (by rw [hm.size]; omega) data, hm.rest, remainder_append hdata]

/-- A chunk, where the buffer is empty. -/
theorem Holds.chunk (hm : h.Holds A m) (hempty : m.length % 64 = 0) (hdata : data.length = 64) :
    ({ h with s := A.transform h.s data, bytes := h.bytes + 64 } : HashObject σ).Holds A
      (m ++ data) := by
  have hmod : (m ++ data).length % 64 = 0 := by
    rw [List.length_append]
    omega
  refine ⟨hm.size, ?_, ?_, ?_⟩
  · rw [hm.bytes, List.length_append, hdata, UInt64.ofNat_add]
    rfl
  · have hwhole : m.length = m.length / 64 * 64 := by omega
    rw [hm.state, HashAlgorithm.absorbed, HashAlgorithm.absorbed,
      absorb_append (by decide) hwhole, absorb_block (by decide) hdata]
  · have hlength := length_remainder 64 (m ++ data)
    rw [hmod, List.length_eq_zero_iff] at hlength
    rw [hmod, hlength, List.take_zero]

/-- The loop takes in what it goes over. -/
theorem Holds.writeChunks (hm : h.Holds A m) (hempty : m.length % 64 = 0) {fuel : ℕ}
    (hfuel : data.length ≤ fuel) :
    ∃ front, data = front ++ (writeChunks A fuel h data).2 ∧
      (writeChunks A fuel h data).1.Holds A (m ++ front) ∧
      (m ++ front).length % 64 = 0 ∧ (writeChunks A fuel h data).2.length < 64 := by
  induction fuel generalizing h m data with
  | zero => exact ⟨[], rfl, by simpa [HashObject.writeChunks] using hm, by simpa using hempty,
      by simp only [HashObject.writeChunks]; omega⟩
  | succ fuel ih =>
    by_cases hfull : 64 ≤ data.length
    · have htake : (data.take 64).length = 64 := List.length_take_of_le hfull
      have hempty' : (m ++ data.take 64).length % 64 = 0 := by
        rw [List.length_append]
        omega
      have hfuel' : (data.drop 64).length ≤ fuel := by
        rw [List.length_drop]
        omega
      obtain ⟨front, hsplit, hholds, hmod, hlt⟩ := ih (hm.chunk hempty htake) hempty' hfuel'
      rw [HashObject.writeChunks, if_pos hfull]
      refine ⟨data.take 64 ++ front, ?_, ?_, ?_, hlt⟩
      · rw [List.append_assoc, ← hsplit, List.take_append_drop]
      · rwa [← List.append_assoc]
      · rwa [← List.append_assoc]
    · rw [HashObject.writeChunks, if_neg hfull]
      exact ⟨[], rfl, by simpa using hm, by simpa using hempty, not_le.mp hfull⟩

/-- Less than a block is not written yet. -/
theorem writeChunks_of_lt (hdata : data.length < 64) (fuel : ℕ) :
    writeChunks A fuel h data = (h, data) := by
  cases fuel with
  | zero => rfl
  | succ fuel => rw [writeChunks, if_neg hdata.not_ge]

/-- The buffer is filled and emptied, or there is room in it for all the data, or it is
empty. -/
theorem Holds.fillBuffer (hm : h.Holds A m) (data : List UInt8) :
    ∃ front, data = front ++ (h.fillBuffer A data).2.1 ∧
      (h.fillBuffer A data).1.Holds A (m ++ front) ∧
      (h.fillBuffer A data).2.2 = (m ++ front).length % 64 ∧
      ((m ++ front).length % 64 = 0 ∨
        (m ++ front).length % 64 + (h.fillBuffer A data).2.1.length < 64) := by
  have hbufsize := hm.bufsize
  unfold HashObject.fillBuffer
  simp only [hbufsize]
  split_ifs with hfull
  · obtain ⟨hne, hfull⟩ := hfull
    have htake : (data.take (64 - m.length % 64)).length = 64 - m.length % 64 :=
      List.length_take_of_le (by omega)
    have hmod : (m ++ data.take (64 - m.length % 64)).length % 64 = 0 := by
      rw [List.length_append, htake]
      omega
    -- the buffer holds the block
    have hbuf : memcpy h.buf (m.length % 64) (data.take (64 - m.length % 64)) =
        remainder 64 m ++ data.take (64 - m.length % 64) := by
      have hlength : (memcpy h.buf (m.length % 64) (data.take (64 - m.length % 64))).length =
          h.buf.length := length_memcpy (by rw [htake, hm.size]; omega)
      have hfilled := take_memcpy (by rw [hm.size]; omega : m.length % 64 ≤ h.buf.length)
        (data.take (64 - m.length % 64))
      rw [htake, List.take_of_length_le (by rw [hlength, hm.size]; omega), hm.rest] at hfilled
      exact hfilled
    have hblock : (remainder 64 m ++ data.take (64 - m.length % 64)).length = 64 := by
      rw [List.length_append, length_remainder, htake]
      omega
    refine ⟨data.take (64 - m.length % 64), (List.take_append_drop _ _).symm,
      ⟨?_, ?_, ?_, ?_⟩, hmod.symm, Or.inl hmod⟩
    · dsimp only
      rw [hbuf, hblock]
    · dsimp only
      rw [hm.bytes, ← UInt64.ofNat_add, List.length_append, htake]
    · dsimp only
      rw [hbuf, hm.state, HashAlgorithm.absorbed, HashAlgorithm.absorbed,
        absorb_remainder (by decide) m, absorb_block (by decide) hblock]
    · have hlength := length_remainder 64 (m ++ data.take (64 - m.length % 64))
      rw [hmod, List.length_eq_zero_iff] at hlength
      rw [hmod, hlength, List.take_zero]
  · refine ⟨[], rfl, by simpa using hm, by simp, ?_⟩
    simp only [List.append_nil]
    omega

/-- However a message is cut into pieces. -/
theorem Holds.write (hm : h.Holds A m) (data : List UInt8) :
    (h.write A data).Holds A (m ++ data) := by
  obtain ⟨front, hsplit, hfill, hbufsize, hroom⟩ := hm.fillBuffer data
  unfold HashObject.write
  generalize h.fillBuffer A data = filled at hsplit hfill hbufsize hroom
  obtain ⟨h₁, data₁, bufsize⟩ := filled
  dsimp only at hsplit hfill hbufsize hroom ⊢
  subst hbufsize
  -- the loop runs where the buffer is empty only
  obtain ⟨front', hsplit', hloop, hroom'⟩ : ∃ front',
      data₁ = front' ++ (HashObject.writeChunks A data₁.length h₁ data₁).2 ∧
      (HashObject.writeChunks A data₁.length h₁ data₁).1.Holds A (m ++ front ++ front') ∧
      (m ++ front).length % 64 = (m ++ front ++ front').length % 64 ∧
      (m ++ front).length % 64 +
        (HashObject.writeChunks A data₁.length h₁ data₁).2.length < 64 := by
    rcases hroom with hempty | hroom
    · obtain ⟨front', hsplit', hloop, hmod, hlt⟩ := hfill.writeChunks hempty le_rfl
      exact ⟨front', hsplit', hloop, by omega, by omega⟩
    · rw [writeChunks_of_lt (by omega)]
      exact ⟨[], rfl, by simpa using hfill, by simp, hroom⟩
  generalize HashObject.writeChunks A data₁.length h₁ data₁ = looped at hsplit' hloop hroom'
  obtain ⟨h₂, data₂⟩ := looped
  dsimp only at hsplit' hloop hroom' ⊢
  have hwhole : m ++ data = m ++ front ++ front' ++ data₂ := by
    rw [hsplit, hsplit']
    simp only [List.append_assoc]
  split_ifs with hnil
  · subst hnil
    rw [hwhole, List.append_nil]
    exact hloop
  · rw [hwhole, hroom'.1]
    exact hloop.copy (by omega)

/-- `finalize` gives the digest of the message, and leaves the padding in the object. -/
theorem Holds.finalize (hm : h.Holds A m) :
    (h.finalize A).1 = A.digest m ∧ (h.finalize A).2.Holds A (m ++ A.padding m) := by
  have hpad : ((119 - h.bytes % 64) % 64).toNat = (119 - m.length % 64) % 64 := by
    have hbufsize := hm.bufsize
    rw [UInt64.toNat_mod, UInt64.toNat_sub_of_le, hbufsize]
    · rfl
    · rw [UInt64.le_iff_toNat_le, hbufsize]
      change m.length % 64 ≤ 119
      omega
  have hsize : h.bytes <<< 3 = UInt64.ofNat (8 * m.length) := by
    rw [hm.bytes]
    apply UInt64.toNat_inj.mp
    simp only [UInt64.toNat_shiftLeft, UInt64.toNat_ofNat']
    change (m.length % 2 ^ 64) <<< 3 % 2 ^ 64 = _
    rw [Nat.shiftLeft_eq]
    omega
  have hholds : (h.finalize A).2.Holds A (m ++ A.padding m) := by
    have hboth := (hm.write (hashPad.take (1 + (119 - m.length % 64) % 64))).write
      (A.sizedesc (UInt64.ofNat (8 * m.length)))
    rw [List.append_assoc] at hboth
    unfold HashObject.finalize
    rw [hpad, hsize]
    exact hboth
  exact ⟨congrArg A.output hholds.state, hholds⟩

/-- **The hasher objects.** Whatever the buffer holds at first, and however what is hashed
is cut into pieces, every digest is that of the bytes that were written since the object
was created or reset. -/
theorem outputs_eq (hm : h.Holds A m) (ops : List HashOp) :
    h.outputs A ops = A.outputs m ops := by
  induction ops generalizing h m with
  | nil => rfl
  | cons op ops ih =>
    cases op with
    | write data => exact ih (hm.write data)
    | finalize =>
      obtain ⟨hdigest, hholds⟩ := hm.finalize
      rw [HashObject.outputs, HashAlgorithm.outputs, ← ih hholds, ← hdigest]
      rfl
    | reset => exact ih hm.reset

end HashObject

/-! ## Two messages of one digest -/

namespace HashAlgorithm

variable {σ : Type} {A : HashAlgorithm σ} {m m' : List UInt8}

/-- What is written at the end can be read back. -/
structure Readable (A : HashAlgorithm σ) : Prop where
  length_sizedesc : ∀ bits, (A.sizedesc bits).length = 8
  sizedesc_injective : Function.Injective A.sizedesc
  output_injective : Function.Injective A.output

/-- The blocks that the transformation is called for. -/
def paddedBlocks (A : HashAlgorithm σ) (m : List UInt8) : List (List UInt8) :=
  blocks 64 ((m ++ A.padding m).length / 64) (m ++ A.padding m)

/-- The calls of the transformation for the digest of a message. -/
def transforms (A : HashAlgorithm σ) (m : List UInt8) : List (σ × List UInt8) :=
  calls A.transform A.initial (A.paddedBlocks m)

/-- The padding and the length fill the last block. -/
theorem length_padding (hA : A.Readable) (m : List UInt8) :
    (A.padding m).length = 9 + (119 - m.length % 64) % 64 := by
  have htake : (hashPad.take (1 + (119 - m.length % 64) % 64)).length =
      1 + (119 - m.length % 64) % 64 := by
    refine List.length_take_of_le ?_
    change _ ≤ 64
    omega
  rw [padding, List.length_append, htake, hA.length_sizedesc]
  omega

/-- The message and its padding are full blocks. -/
theorem length_padded (hA : A.Readable) (m : List UInt8) :
    (m ++ A.padding m).length = ((m.length + 8) / 64 + 1) * 64 := by
  rw [List.length_append, length_padding hA]
  omega

/-- The last block ends in the number of bits. -/
theorem exists_last_block (hA : A.Readable) (m : List UInt8) :
    ∃ bs b, A.paddedBlocks m = bs ++ [b ++ A.sizedesc (UInt64.ofNat (8 * m.length))] ∧
      b.length = 56 := by
  have hlength := length_padded hA m
  -- the blocks before the last one, and the bytes before the number
  obtain ⟨front, b, hsplit, hfront, hb⟩ : ∃ front b,
      m ++ A.padding m = front ++ (b ++ A.sizedesc (UInt64.ofNat (8 * m.length))) ∧
      front.length = (m.length + 8) / 64 * 64 ∧ b.length = 56 := by
    set before := m ++ hashPad.take (1 + (119 - m.length % 64) % 64) with hbefore
    have hwhole : m ++ A.padding m = before ++ A.sizedesc (UInt64.ofNat (8 * m.length)) := by
      rw [padding, hbefore, List.append_assoc]
    rw [hwhole, List.length_append, hA.length_sizedesc] at hlength
    refine ⟨before.take ((m.length + 8) / 64 * 64), before.drop ((m.length + 8) / 64 * 64),
      ?_, ?_, ?_⟩
    · rw [hwhole, ← List.append_assoc, List.take_append_drop]
    · exact List.length_take_of_le (by omega)
    · rw [List.length_drop]
      omega
  have hlast : (b ++ A.sizedesc (UInt64.ofNat (8 * m.length))).length = 64 := by
    rw [List.length_append, hb, hA.length_sizedesc]
  refine ⟨blocks 64 ((m.length + 8) / 64) front, b, ?_, hb⟩
  rw [paddedBlocks, hlength, Nat.mul_div_cancel _ (by decide), hsplit,
    blocks_append _ _ hfront, blocks, blocks, ← hlast, List.take_length]

/-- **Collisions.** The transformation was called twice with different arguments and one
result, among the calls for two different messages of one digest whose numbers of bits fit
into the word for it. -/
theorem exists_collide (hA : A.Readable) (hm : m.length < 2 ^ 61) (hm' : m'.length < 2 ^ 61)
    (hne : m ≠ m') (hdigest : A.digest m = A.digest m') :
    ∃ c ∈ A.transforms m, ∃ c' ∈ A.transforms m', Collide A.transform c c' := by
  have hstate : (A.paddedBlocks m).foldl A.transform A.initial =
      (A.paddedBlocks m').foldl A.transform A.initial := hA.output_injective hdigest
  by_cases hlength : m.length = m'.length
  · refine exists_collide_of_length ?_ ?_ hstate
    · rw [paddedBlocks, paddedBlocks, length_blocks, length_blocks, length_padded hA,
        length_padded hA, hlength]
    · -- the blocks side by side are the message and its padding
      intro hblocks
      have hflat := congrArg List.flatten hblocks
      rw [paddedBlocks, paddedBlocks, flatten_blocks (length_padded hA m ▸ by omega),
        flatten_blocks (length_padded hA m' ▸ by omega)] at hflat
      exact hne (List.append_inj_left hflat hlength)
  · obtain ⟨bs, b, hlast, hb⟩ := exists_last_block hA m
    obtain ⟨bs', b', hlast', hb'⟩ := exists_last_block hA m'
    rw [transforms, transforms, hlast, hlast']
    rw [hlast, hlast'] at hstate
    refine exists_collide_of_last (fun heq => hlength ?_) hstate
    -- the numbers of bits are the same, and did not go round
    have hbits := hA.sizedesc_injective (List.append_inj_right heq (hb.trans hb'.symm))
    have hbits := congrArg UInt64.toNat hbits
    rw [UInt64.toNat_ofNat', UInt64.toNat_ofNat'] at hbits
    omega

end HashAlgorithm

end AcCore.Gov
