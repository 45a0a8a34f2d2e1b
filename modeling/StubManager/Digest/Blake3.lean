/-!
# The BLAKE3 hash function

`blake3` hashes bytes to 32 bytes, without a key. The input is cut into chunks of 1024 bytes, each
a chain of compressed blocks of 64 bytes; the chunks are the leaves of a binary tree whose left
subtrees are full.
-/

namespace StubManager.Digest

/-- Eight words: what a chunk or a subtree is compressed to. -/
abbrev Chaining := Vector UInt32 8

/-- Sixteen words: a block of input, or the state of the compression. -/
abbrev Block := Vector UInt32 16

/-- The chaining value that every chunk starts from. -/
def initialChaining : Chaining :=
  #v[0x6A09E667, 0xBB67AE85, 0x3C6EF372, 0xA54FF53A, 0x510E527F, 0x9B05688C, 0x1F83D9AB,
    0x5BE0CD19]

/-- The order in which a round takes the words of the block that the round before had. -/
def wordOrder : Vector (Fin 16) 16 := #v[2, 6, 3, 10, 7, 0, 4, 13, 1, 11, 12, 5, 9, 14, 15, 8]

/-- Marks the first block of a chunk. -/
def chunkStart : UInt32 := 1

/-- Marks the last block of a chunk. -/
def chunkEnd : UInt32 := 2

/-- Marks a block that joins two subtrees. -/
def parentNode : UInt32 := 4

/-- Marks the last compression of all. -/
def rootNode : UInt32 := 8

/-- A word turned right by `n` bits, for `0 < n < 32`. -/
def rotateRight (x n : UInt32) : UInt32 := (x >>> n) ||| (x <<< (32 - n))

/-- Mixes two words of input into four words of the state. -/
def mix (v : Block) (a b c d : Fin 16) (x y : UInt32) : Block :=
  let a₁ := v.get a + v.get b + x
  let d₁ := rotateRight (v.get d ^^^ a₁) 16
  let c₁ := v.get c + d₁
  let b₁ := rotateRight (v.get b ^^^ c₁) 12
  let a₂ := a₁ + b₁ + y
  let d₂ := rotateRight (d₁ ^^^ a₂) 8
  let c₂ := c₁ + d₂
  let b₂ := rotateRight (b₁ ^^^ c₂) 7
  (((v.set a.val a₂ a.isLt).set b.val b₂ b.isLt).set c.val c₂ c.isLt).set d.val d₂ d.isLt

/-- One round: the columns of the state, then its diagonals. -/
def round (v m : Block) : Block :=
  let v := mix v 0 4 8 12 (m.get 0) (m.get 1)
  let v := mix v 1 5 9 13 (m.get 2) (m.get 3)
  let v := mix v 2 6 10 14 (m.get 4) (m.get 5)
  let v := mix v 3 7 11 15 (m.get 6) (m.get 7)
  let v := mix v 0 5 10 15 (m.get 8) (m.get 9)
  let v := mix v 1 6 11 12 (m.get 10) (m.get 11)
  let v := mix v 2 7 8 13 (m.get 12) (m.get 13)
  mix v 3 4 9 14 (m.get 14) (m.get 15)

/-- The rounds that are left, with the state and the block of the next. -/
def rounds : Nat → Block → Block → Block
  | 0, v, _ => v
  | n + 1, v, m => rounds n (round v m) (Vector.ofFn fun i => m.get (wordOrder.get i))

/-- A block that is yet to be compressed, with all that goes into its compression. -/
structure Pending where
  chaining : Chaining
  block : Block
  counter : Nat
  length : Nat
  flags : UInt32

/-- The result of a compression. -/
def Pending.compress (p : Pending) : Chaining :=
  let v : Block :=
    #v[p.chaining.get 0, p.chaining.get 1, p.chaining.get 2, p.chaining.get 3,
      p.chaining.get 4, p.chaining.get 5, p.chaining.get 6, p.chaining.get 7,
      initialChaining.get 0, initialChaining.get 1, initialChaining.get 2, initialChaining.get 3,
      UInt32.ofNat p.counter, UInt32.ofNat (p.counter >>> 32), UInt32.ofNat p.length, p.flags]
  let v := rounds 7 v p.block
  Vector.ofFn fun i : Fin 8 => v.get ⟨i, by omega⟩ ^^^ v.get ⟨i + 8, by omega⟩

/-- The byte at a position; zero behind the end. -/
def byteAt (data : ByteArray) (i : Nat) : UInt32 :=
  if h : i < data.size then (data[i]).toUInt32 else 0

/-- The block that starts at a position, the low byte of each word first. -/
def blockAt (data : ByteArray) (start : Nat) : Block :=
  Vector.ofFn fun i =>
    let at_ := start + 4 * i.val
    byteAt data at_ ||| (byteAt data (at_ + 1) <<< 8) ||| (byteAt data (at_ + 2) <<< 16)
      ||| (byteAt data (at_ + 3) <<< 24)

/-- The last block of a chunk, of which `blocks` follow the one at `start`. -/
def chunkFrom (data : ByteArray) (chunk stop : Nat) :
    (blocks start : Nat) → Chaining → UInt32 → Pending
  | 0, start, chaining, flags =>
    { chaining, block := blockAt data start, counter := chunk, length := stop - start,
      flags := flags ||| chunkEnd }
  | blocks + 1, start, chaining, flags =>
    let done : Pending :=
      { chaining, block := blockAt data start, counter := chunk, length := 64, flags }
    chunkFrom data chunk stop blocks (start + 64) done.compress 0

/-- The last block of the given chunk. -/
def chunkAt (data : ByteArray) (chunk : Nat) : Pending :=
  let start := 1024 * chunk
  let stop := min data.size (start + 1024)
  chunkFrom data chunk stop ((stop - start - 1) / 64) start initialChaining chunkStart

private theorem one_shiftLeft_log2_le {n : Nat} (h : n ≠ 0) : 1 <<< n.log2 ≤ n := by
  rw [Nat.one_shiftLeft]
  exact Nat.log2_self_le h

private theorem one_shiftLeft_pos (n : Nat) : 0 < 1 <<< n := by
  rw [Nat.one_shiftLeft]
  exact Nat.two_pow_pos n

/-- The last block for the subtree of `chunks` chunks from `chunk` on. The left part has as many
chunks as the greatest power of two below `chunks`. -/
def subtree (data : ByteArray) (chunk chunks : Nat) : Pending :=
  if _h : chunks ≤ 1 then chunkAt data chunk
  else
    let left := 1 <<< (chunks - 1).log2
    have : left < chunks := by
      have := one_shiftLeft_log2_le (show chunks - 1 ≠ 0 by omega)
      omega
    have : 0 < left := one_shiftLeft_pos _
    let l := (subtree data chunk left).compress
    let r := (subtree data (chunk + left) (chunks - left)).compress
    { chaining := initialChaining, block := (l ++ r).cast (by rfl), counter := 0, length := 64,
      flags := parentNode }
termination_by chunks
decreasing_by
  · assumption
  · exact Nat.sub_lt (by omega) ‹0 < left›

/-- The four bytes of a word, the low byte first. -/
def wordBytes (w : UInt32) : List UInt8 :=
  [w.toUInt8, (w >>> 8).toUInt8, (w >>> 16).toUInt8, (w >>> 24).toUInt8]

/-- The hash of the given bytes. -/
def blake3 (data : ByteArray) : List UInt8 :=
  let top := subtree data 0 ((data.size + 1023) / 1024)
  let words := { top with counter := 0, flags := top.flags ||| rootNode }.compress
  words.toList.flatMap wordBytes

private def hexDigit (n : UInt8) : Char :=
  if n < 10 then Char.ofNat (48 + n.toNat) else Char.ofNat (87 + n.toNat)

/-- Bytes in hexadecimal, in lower case. -/
def hex (bytes : List UInt8) : String :=
  String.ofList (bytes.flatMap fun (b : UInt8) => [hexDigit (b / 16), hexDigit (b % 16)])

private theorem hexDigit_inj {m n : UInt8} (hm : m.toNat < 16) (hn : n.toNat < 16)
    (h : hexDigit m = hexDigit n) : m = n := by
  have hall : ∀ i j : Fin 16, hexDigit (UInt8.ofNat i) = hexDigit (UInt8.ofNat j) → i = j := by
    decide
  have heq := hall ⟨m.toNat, hm⟩ ⟨n.toNat, hn⟩ (by simpa using h)
  exact UInt8.toNat_inj.1 (Fin.mk.inj heq)

/-- Different bytes are written differently. -/
theorem hex_inj {bytes bytes' : List UInt8} (h : hex bytes = hex bytes') : bytes = bytes' := by
  replace h := congrArg String.toList h
  simp only [hex, String.toList_ofList] at h
  induction bytes generalizing bytes' with
  | nil =>
    cases bytes' with
    | nil => rfl
    | cons b bytes' => cases h
  | cons b bytes ih =>
    cases bytes' with
    | nil => cases h
    | cons b' bytes' =>
      simp only [List.flatMap_cons, List.cons_append, List.nil_append, List.cons.injEq] at h
      obtain ⟨hhigh, hlow, hrest⟩ := h
      have hdiv : ∀ c : UInt8, (c / 16).toNat < 16 := fun c => by
        have := c.toNat_lt
        simp only [UInt8.toNat_div, UInt8.reduceToNat]
        omega
      have hmod : ∀ c : UInt8, (c % 16).toNat < 16 := fun c => by
        simp only [UInt8.toNat_mod, UInt8.reduceToNat]
        omega
      have hhigh := congrArg UInt8.toNat (hexDigit_inj (hdiv b) (hdiv b') hhigh)
      have hlow := congrArg UInt8.toNat (hexDigit_inj (hmod b) (hmod b') hlow)
      simp only [UInt8.toNat_div, UInt8.toNat_mod, UInt8.reduceToNat] at hhigh hlow
      rw [ih hrest, UInt8.toNat_inj.1 (show b.toNat = b'.toNat by omega)]

/-- Bytes are written in digits and lower case letters. -/
theorem mem_hex {bytes : List UInt8} {c : Char} (h : c ∈ (hex bytes).toList) :
    c ∈ "0123456789abcdef".toList := by
  have hall : ∀ i : Fin 16, hexDigit (UInt8.ofNat i) ∈ "0123456789abcdef".toList := by decide
  have hdigit : ∀ n : UInt8, n.toNat < 16 → hexDigit n ∈ "0123456789abcdef".toList :=
    fun n hn => by simpa using hall ⟨n.toNat, hn⟩
  rw [hex, String.toList_ofList, List.mem_flatMap] at h
  obtain ⟨b, -, hc⟩ := h
  have hb := b.toNat_lt
  simp only [List.mem_cons, List.not_mem_nil, or_false] at hc
  obtain rfl | rfl := hc
  · refine hdigit _ ?_
    simp only [UInt8.toNat_div, UInt8.reduceToNat]
    omega
  · refine hdigit _ ?_
    simp only [UInt8.toNat_mod, UInt8.reduceToNat]
    omega

end StubManager.Digest
